import Mathlib.Data.Finset.Card
import Mathlib.Data.Finset.Insert
import Mathlib.Logic.Function.Basic

/-!
# Reference counts

Holders `κ` each cover a finite set of places `ι`; a counter per place is exact
when it is the number of holders that cover the place.  Exactness is kept by the
holders coming, going and moving, and by a place being split in two.
-/

namespace SparkInfer.Lib

open Finset Function

variable {κ ι : Type*} [DecidableEq ι]

def load (held : Finset κ) (cov : κ → Finset ι) (n : ι) : ℕ :=
  (held.filter fun q => n ∈ cov q).card

def Counts (ref : ι → Int) (held : Finset κ) (cov : κ → Finset ι) : Prop :=
  ∀ n, ref n = load held cov n

variable {held : Finset κ} {cov cov' : κ → Finset ι} {ref ref' : ι → Int} {q : κ} {n : ι}

theorem load_congr (h : ∀ q ∈ held, n ∈ cov q ↔ n ∈ cov' q) : load held cov n = load held cov' n := by
  unfold load
  rw [filter_congr h]

theorem load_pos (hq : q ∈ held) (hn : n ∈ cov q) : 0 < load held cov n :=
  card_pos.mpr ⟨q, mem_filter.mpr ⟨hq, hn⟩⟩

theorem load_eq_zero (h : ∀ q ∈ held, n ∉ cov q) : load held cov n = 0 := by
  unfold load
  rw [card_eq_zero, filter_eq_empty_iff]
  exact h

theorem load_insert [DecidableEq κ] (hq : q ∉ held) :
    load (insert q held) cov n = load held cov n + if n ∈ cov q then 1 else 0 := by
  unfold load
  rw [filter_insert]
  split_ifs
  · rw [card_insert_of_notMem]
    exact fun hmem => hq (mem_filter.mp hmem).1
  · rfl

theorem load_erase [DecidableEq κ] (hq : q ∈ held) :
    load held cov n = load (held.erase q) cov n + if n ∈ cov q then 1 else 0 := by
  rw [← load_insert (notMem_erase q held), insert_erase hq]

namespace Counts

theorem empty (cov : κ → Finset ι) : Counts (fun _ => 0) ∅ cov := fun _ => rfl

section

variable (h : Counts ref held cov)
include h

theorem pos (hq : q ∈ held) (hn : n ∈ cov q) : 0 < ref n := by
  rw [h n]
  exact_mod_cast load_pos hq hn

theorem congr (hcov : ∀ q ∈ held, cov q = cov' q) : Counts ref held cov' := by
  intro n
  have hload : load held cov n = load held cov' n := load_congr fun q hq => by rw [hcov q hq]
  rw [h n, hload]

theorem split {c m : ι} (hold : ∀ q ∈ held, ∀ n, n ≠ m → (n ∈ cov' q ↔ n ∈ cov q))
    (hnew : ∀ q ∈ held, m ∈ cov' q ↔ c ∈ cov q)
    (href : ref' = Function.update ref m (ref c)) : Counts ref' held cov' := by
  intro n
  rw [href]
  by_cases hnm : n = m
  · subst hnm
    rw [update_self, h c]
    unfold load
    rw [filter_congr hnew]
  · rw [update_of_ne hnm, h n, load_congr fun q hq => (hold q hq n hnm).symm]

theorem fresh {m : ι} (hnew : ∀ q ∈ held, m ∉ cov q) :
    Counts (Function.update ref m 0) held cov := by
  intro n
  by_cases hnm : n = m
  · subst hnm
    rw [update_self, load_eq_zero hnew]
    rfl
  · rw [update_of_ne hnm, h n]

variable [DecidableEq κ]

theorem insert (hq : q ∉ held) (href : ∀ n, ref' n = ref n + if n ∈ cov q then 1 else 0) :
    Counts ref' (insert q held) cov := by
  intro n
  rw [href n, h n, load_insert hq]
  split_ifs
  · rfl
  · simp

theorem erase (hq : q ∈ held) (href : ∀ n, ref' n = ref n - if n ∈ cov q then 1 else 0) :
    Counts ref' (held.erase q) cov := by
  intro n
  rw [href n, h n, load_erase hq]
  split_ifs
  · omega
  · simp

theorem move (hq : q ∈ held) (hcov : ∀ p ∈ held, p ≠ q → cov p = cov' p)
    (href : ∀ n, ref' n = ref n - (if n ∈ cov q then 1 else 0) + if n ∈ cov' q then 1 else 0) :
    Counts ref' held cov' := by
  have hgone : Counts (fun n => ref n - if n ∈ cov q then 1 else 0) (held.erase q) cov' :=
    (h.erase hq fun _ => rfl).congr fun p hp =>
      hcov p (mem_of_mem_erase hp) (ne_of_mem_erase hp)
  have hback := hgone.insert (notMem_erase q held) href
  rwa [insert_erase hq] at hback

end

end Counts

end SparkInfer.Lib
