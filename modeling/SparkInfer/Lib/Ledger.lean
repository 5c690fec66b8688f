import Mathlib.Algebra.BigOperators.Group.Finset.Basic
import Mathlib.Algebra.Order.BigOperators.Group.Finset
import Mathlib.Data.Multiset.Count
import Mathlib.Algebra.Order.Group.Multiset

/-!
# Ledgers

What is kept at which place.  A step that only moves things between finitely many
places is an exchange, and exchanges keep everything that is kept once, at one place,
that way.
-/

namespace SparkInfer.Lib.Ledger

open Finset Multiset

variable {ι α : Type*} {h h' h'' : ι → Multiset α} {x : α}

def Exchange (h h' : ι → Multiset α) : Prop :=
  ∃ F : Finset ι, (∀ o ∉ F, h' o = h o) ∧ ∑ o ∈ F, h' o = ∑ o ∈ F, h o

theorem Exchange.refl (h : ι → Multiset α) : Exchange h h := ⟨∅, fun _ _ => rfl, rfl⟩

variable [DecidableEq ι]

theorem sum_eq_of_subset {F K : Finset ι} (hsub : F ⊆ K) (hrest : ∀ o ∉ F, h' o = h o)
    (hsum : ∑ o ∈ F, h' o = ∑ o ∈ F, h o) : ∑ o ∈ K, h' o = ∑ o ∈ K, h o := by
  rw [← sum_sdiff hsub, ← sum_sdiff hsub]
  congr 1
  exact sum_congr rfl fun o ho => hrest o (mem_sdiff.mp ho).2

theorem Exchange.trans (hab : Exchange h h') (hbc : Exchange h' h'') : Exchange h h'' := by
  obtain ⟨F, hF, hFsum⟩ := hab
  obtain ⟨G, hG, hGsum⟩ := hbc
  refine ⟨F ∪ G, fun o ho => ?_, ?_⟩
  · rw [Finset.mem_union, not_or] at ho
    rw [hG o ho.2, hF o ho.1]
  · calc ∑ o ∈ F ∪ G, h'' o
        = ∑ o ∈ F ∪ G, h' o := sum_eq_of_subset subset_union_right hG hGsum
      _ = ∑ o ∈ F ∪ G, h o := sum_eq_of_subset subset_union_left hF hFsum

theorem Exchange.two {a b : ι} (hab : a ≠ b) (hrest : ∀ o, o ≠ a → o ≠ b → h' o = h o)
    (hsum : h' a + h' b = h a + h b) : Exchange h h' := by
  refine ⟨{a, b}, fun o ho => ?_, ?_⟩
  · rw [mem_insert, Finset.mem_singleton, not_or] at ho
    exact hrest o ho.1 ho.2
  · rwa [Finset.sum_pair hab, Finset.sum_pair hab]

theorem Exchange.three {a b c : ι} (hab : a ≠ b) (hac : a ≠ c) (hbc : b ≠ c)
    (hrest : ∀ o, o ≠ a → o ≠ b → o ≠ c → h' o = h o)
    (hsum : h' a + (h' b + h' c) = h a + (h b + h c)) : Exchange h h' := by
  refine ⟨{a, b, c}, fun o ho => ?_, ?_⟩
  · rw [mem_insert, mem_insert, Finset.mem_singleton, not_or, not_or] at ho
    exact hrest o ho.1 ho.2.1 ho.2.2
  · have ha : a ∉ ({b, c} : Finset ι) := by simp [hab, hac]
    rwa [sum_insert ha, sum_insert ha, Finset.sum_pair hbc, Finset.sum_pair hbc]

variable [DecidableEq α]

/-- `x` is kept at exactly one place, and there once. -/
def Sole (h : ι → Multiset α) (x : α) : Prop :=
  ∃ o, (h o).count x = 1 ∧ ∀ o', o' ≠ o → x ∉ h o'

omit [DecidableEq ι] in
theorem not_sole {a b : ι} (hab : a ≠ b) (ha : x ∈ h a) (hb : x ∈ h b) : ¬Sole h x := by
  rintro ⟨o, -, hno⟩
  by_cases hao : a = o
  · exact hno b (fun hbo => hab (hao.trans hbo.symm)) hb
  · exact hno a hao ha

theorem Exchange.sole (hex : Exchange h h') (hx : Sole h x) : Sole h' x := by
  obtain ⟨F, hF, hsum⟩ := hex
  obtain ⟨o, hone, hno⟩ := hx
  have hzero : ∀ o', o' ≠ o → (h o').count x = 0 := fun o' ho => count_eq_zero.mpr (hno o' ho)
  -- `x` is counted once over the places of the exchange and the one it is kept at
  have hcount : ∑ a ∈ insert o F, (h' a).count x = 1 := by
    rw [← count_sum', sum_eq_of_subset (subset_insert o F) hF hsum, count_sum']
    rwa [sum_eq_single_of_mem o (mem_insert_self o F) fun b _ hb => hzero b hb]
  obtain ⟨a, ha, hane⟩ := exists_ne_zero_of_sum_ne_zero (hcount.trans_ne one_ne_zero)
  have hsplit := add_sum_erase (insert o F) (fun a => (h' a).count x) ha
  refine ⟨a, by omega, fun b hb hmem => ?_⟩
  rw [← count_pos] at hmem
  by_cases hbK : b ∈ insert o F
  · have hle := Finset.single_le_sum (f := fun a => (h' a).count x) (fun _ _ => Nat.zero_le _)
      (mem_erase.mpr ⟨hb, hbK⟩)
    omega
  · rw [mem_insert, not_or] at hbK
    rw [hF b hbK.2, hzero b hbK.1] at hmem
    exact lt_irrefl _ hmem

end SparkInfer.Lib.Ledger
