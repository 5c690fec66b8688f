import Mathlib.Data.List.TakeDrop
import Mathlib.Data.List.Basic
import Mathlib.Algebra.Order.Group.Nat

/-!
# Hash chains over pages

A list is cut into pages of `b` elements and every page is hashed together with
the hash of the page before it.  The tip is the hash the next page would chain
to.
-/

namespace SparkInfer.Lib.Chain

open List

variable {α H : Type*} (f : Option H → List α → H) (b : ℕ)

def chainFrom : ℕ → Option H → List α → List H
  | 0, _, _ => []
  | fuel + 1, prior, xs =>
    if xs.isEmpty then []
    else f prior (xs.take b) :: chainFrom fuel (some (f prior (xs.take b))) (xs.drop b)

def chain (prior : Option H) (xs : List α) : List H := chainFrom f b xs.length prior xs

def tip (prior : Option H) (xs : List α) : Option H := (chain f b prior xs).getLast?.or prior

variable {f b} {prior : Option H} {xs ys : List α}

@[simp] theorem chain_nil : chain f b prior [] = [] := rfl

@[simp] theorem tip_nil : tip f b prior [] = prior := rfl

theorem chainFrom_fuel (hb : 0 < b) (fuel : ℕ) :
    ∀ {xs : List α} {prior : Option H}, xs.length ≤ fuel →
      chainFrom f b fuel prior xs = chain f b prior xs := by
  -- a page takes at least one element, so any bound above the length does
  have hmono : ∀ n : ℕ, ∀ m ≥ n, ∀ {xs : List α} {prior : Option H}, xs.length ≤ n →
      chainFrom f b m prior xs = chainFrom f b n prior xs := by
    intro n
    induction n with
    | zero =>
      intro m _ xs prior hxs
      have hnil : xs = [] := eq_nil_of_length_eq_zero (by omega)
      subst hnil
      cases m <;> rfl
    | succ n ih =>
      intro m hm xs prior hxs
      obtain ⟨m, rfl⟩ : ∃ k, m = k + 1 := ⟨m - 1, by omega⟩
      rw [chainFrom, chainFrom]
      by_cases hempty : xs.isEmpty = true
      · rw [if_pos hempty, if_pos hempty]
      have hdrop : (xs.drop b).length ≤ n := by
        rw [length_drop]
        omega
      rw [if_neg hempty, if_neg hempty, ih m (by omega) hdrop]
  intro xs prior hxs
  exact hmono xs.length fuel hxs le_rfl

theorem chain_of_ne_nil (hb : 0 < b) (hxs : xs ≠ []) : chain f b prior xs =
      f prior (xs.take b) :: chain f b (some (f prior (xs.take b))) (xs.drop b) := by
  have hlen := length_pos_of_ne_nil hxs
  have hempty : ¬ xs.isEmpty = true := by simpa using hxs
  obtain ⟨n, hn⟩ : ∃ n, xs.length = n + 1 := ⟨xs.length - 1, by omega⟩
  rw [chain, hn, chainFrom, if_neg hempty, chainFrom_fuel hb]
  rw [length_drop]
  omega

theorem tip_of_ne_nil (hb : 0 < b) (hxs : xs ≠ []) :
    tip f b prior xs = tip f b (some (f prior (xs.take b))) (xs.drop b) := by
  unfold tip
  rw [chain_of_ne_nil hb hxs, getLast?_cons]
  cases hlast : (chain f b (some (f prior (xs.take b))) (xs.drop b)).getLast? <;> simp

theorem page_induction {motive : List α → Prop} (nil : motive [])
    (page : ∀ p xs : List α, p.length = b → b ∣ xs.length → motive xs → motive (p ++ xs))
    (xs : List α) (hdvd : b ∣ xs.length) : motive xs := by
  obtain ⟨k, hk⟩ := hdvd
  induction k generalizing xs with
  | zero =>
    have hnil : xs = [] := eq_nil_of_length_eq_zero (by simpa using hk)
    rw [hnil]
    exact nil
  | succ k ih =>
    have hdrop : (xs.drop b).length = b * k := by
      rw [length_drop, hk, Nat.mul_succ, Nat.add_sub_cancel]
    have htake : (xs.take b).length = b := by
      rw [length_take, hk, Nat.mul_succ]
      omega
    rw [← take_append_drop b xs]
    exact page _ _ htake ⟨k, hdrop⟩ (ih _ hdrop)

section

variable (hb : 0 < b) (hxs : b ∣ xs.length)
include hb hxs

theorem chain_append :
    chain f b prior (xs ++ ys) = chain f b prior xs ++ chain f b (tip f b prior xs) ys := by
  refine page_induction (motive := fun xs => ∀ prior, chain f b prior (xs ++ ys) =
    chain f b prior xs ++ chain f b (tip f b prior xs) ys) ?nil ?page xs hxs prior
  case nil =>
      simp
  case page =>
      intro p xs hp _ ih prior
      have hne : ∀ zs : List α, p ++ zs ≠ [] :=
        fun zs => ne_nil_of_length_pos (by rw [length_append]; omega)
      have htake : ∀ zs : List α, (p ++ zs).take b = p := fun zs => by
        rw [← hp, take_left]
      have hdrop : ∀ zs : List α, (p ++ zs).drop b = zs := fun zs => by
        rw [← hp, drop_left]
      rw [append_assoc, chain_of_ne_nil hb (hne _), chain_of_ne_nil hb (hne xs),
        tip_of_ne_nil hb (hne xs), htake, htake, hdrop, hdrop, ih, cons_append]

theorem tip_append : tip f b prior (xs ++ ys) = tip f b (tip f b prior xs) ys := by
  unfold tip
  rw [chain_append hb hxs, List.getLast?_append, Option.or_assoc]
  rfl

theorem length_chain : (chain f b prior xs).length * b = xs.length := by
  refine page_induction
    (motive := fun xs => ∀ prior, (chain f b prior xs).length * b = xs.length)
    ?nil ?page xs hxs prior
  case nil =>
      simp
  case page =>
      intro p xs hp _ ih prior
      have hne : p ++ xs ≠ [] := ne_nil_of_length_pos (by rw [length_append]; omega)
      rw [chain_of_ne_nil hb hne, length_cons, Nat.succ_mul, ← hp, drop_left, hp, ih,
        length_append, hp, add_comm]

theorem length_chain_eq : (chain f b prior xs).length = xs.length / b := by
  have hlen : (chain f b prior xs).length * b = xs.length := length_chain hb hxs
  rw [← hlen, Nat.mul_div_cancel _ hb]

end

section Cut

variable {k : ℕ} (hb : 0 < b) (hk : b ∣ k) (hle : k ≤ xs.length)
include hb hk hle

theorem chain_cut : chain f b prior xs =
      chain f b prior (xs.take k) ++ chain f b (tip f b prior (xs.take k)) (xs.drop k) := by
  have htake : b ∣ (xs.take k).length := by rwa [length_take_of_le hle]
  rw [← chain_append hb htake, take_append_drop]

theorem take_chain : (chain f b prior xs).take (k / b) = chain f b prior (xs.take k) := by
  have htake : b ∣ (xs.take k).length := by rwa [length_take_of_le hle]
  rw [chain_cut hb hk hle]
  apply take_left'
  rw [length_chain_eq hb htake, length_take_of_le hle]

theorem drop_chain :
    (chain f b prior xs).drop (k / b) = chain f b (tip f b prior (xs.take k)) (xs.drop k) := by
  have htake : b ∣ (xs.take k).length := by rwa [length_take_of_le hle]
  rw [chain_cut hb hk hle]
  apply drop_left'
  rw [length_chain_eq hb htake, length_take_of_le hle]

end Cut

variable (hb : 0 < b)
include hb

theorem chain_ne_nil (hxs : xs ≠ []) : chain f b prior xs ≠ [] := by
  rw [chain_of_ne_nil hb hxs]
  simp

theorem getLast?_chain (hxs : xs ≠ []) : (chain f b prior xs).getLast? = tip f b prior xs := by
  unfold tip
  cases h : (chain f b prior xs).getLast? with
  | none => exact absurd (getLast?_eq_none_iff.mp h) (chain_ne_nil hb hxs)
  | some x => rfl

/-! ## The hashes as tips -/

theorem tip_page {p : List α} (hp : p.length = b) : tip f b prior p = some (f prior p) := by
  have hne : p ≠ [] := ne_nil_of_length_pos (hp ▸ hb)
  rw [tip_of_ne_nil hb hne, ← hp, take_length, drop_length, tip_nil]

theorem tip_snoc (hxs : b ∣ xs.length) {p : List α} (hp : p.length = b) :
    tip f b prior (xs ++ p) = some (f (tip f b prior xs) p) := by
  rw [tip_append hb hxs, tip_page hb hp]

/-- The hashes of a list are the tips of its page-aligned beginnings. -/
theorem mem_chain_iff (hxs : b ∣ xs.length) {h : H} : h ∈ chain f b prior xs ↔
      ∃ d, b ∣ d ∧ 0 < d ∧ d ≤ xs.length ∧ tip f b prior (xs.take d) = some h := by
  refine page_induction (motive := fun xs => ∀ prior, h ∈ chain f b prior xs ↔
    ∃ d, b ∣ d ∧ 0 < d ∧ d ≤ xs.length ∧ tip f b prior (xs.take d) = some h)
    ?nil ?page xs hxs prior
  case nil =>
      intro prior
      constructor
      · intro hin
        simp at hin
      · rintro ⟨d, -, hpos, hle, -⟩
        rw [length_nil] at hle
        omega
  case page =>
      intro p xs hp _ ih prior
      have hne : p ++ xs ≠ [] := ne_nil_of_length_pos (by rw [length_append]; omega)
      have htip : ∀ d, tip f b prior ((p ++ xs).take (b + d)) =
          tip f b (some (f prior p)) (xs.take d) := by
        intro d
        rw [← hp, take_length_add_append, hp, tip_append hb (hp ▸ Nat.dvd_refl _), tip_page hb hp]
      rw [chain_of_ne_nil hb hne, ← hp, take_left, drop_left, hp, mem_cons, ih]
      constructor
      · rintro (rfl | ⟨d, hd, -, hle, heq⟩)
        · exact ⟨b + 0, by simp, by omega, by rw [length_append]; omega, by rw [htip]; rfl⟩
        · exact ⟨b + d, Nat.dvd_add (Nat.dvd_refl b) hd, by omega, by rw [length_append]; omega,
            by rw [htip, heq]⟩
      rintro ⟨d, hd, hpos, hle, heq⟩
      obtain ⟨d', rfl⟩ : ∃ d', d = b + d' := ⟨d - b, by have := Nat.le_of_dvd hpos hd; omega⟩
      rw [htip] at heq
      rw [length_append] at hle
      rcases eq_zero_or_pos d' with rfl | hpos'
      · left
        exact (Option.some.inj heq).symm
      · exact .inr ⟨d', (Nat.dvd_add_right (Nat.dvd_refl b)).mp hd, hpos', by omega, heq⟩

theorem exists_last_page (hxs : b ∣ xs.length) (hne : xs ≠ []) :
    ∃ ys p, xs = ys ++ p ∧ p.length = b ∧ b ∣ ys.length := by
  have hle := Nat.le_of_dvd (length_pos_of_ne_nil hne) hxs
  refine ⟨xs.take (xs.length - b), xs.drop (xs.length - b), (take_append_drop _ _).symm,
    by rw [length_drop]; omega, ?_⟩
  rw [length_take, Nat.min_eq_left (Nat.sub_le _ _)]
  exact Nat.dvd_sub hxs (Nat.dvd_refl b)

/-- Without collisions a tip determines where the chain started and all its pages. -/
theorem tip_inj (hinj : ∀ p xs p' xs', f p xs = f p' xs' → p = p' ∧ xs = xs')
    {prior prior' : Option H} (hprior : ∀ p xs, prior ≠ some (f p xs))
    (hprior' : ∀ p xs, prior' ≠ some (f p xs)) (hxs : b ∣ xs.length) (hys : b ∣ ys.length)
    (h : tip f b prior xs = tip f b prior' ys) : prior = prior' ∧ xs = ys := by
  -- peel the last pages of both lists
  induction hn : xs.length using Nat.strong_induction_on generalizing xs ys with
  | _ n ih =>
    by_cases hx : xs = []
    · subst hx
      by_cases hy : ys = []
      · subst hy
        exact ⟨h, rfl⟩
      · obtain ⟨zs, q, rfl, hq, hzs⟩ := exists_last_page hb hys hy
        rw [tip_snoc hb hzs hq] at h
        exact absurd h (hprior _ _)
    · obtain ⟨ws, p, rfl, hp, hws⟩ := exists_last_page hb hxs hx
      rw [tip_snoc hb hws hp] at h
      by_cases hy : ys = []
      · subst hy
        exact absurd h.symm (hprior' _ _)
      obtain ⟨zs, q, rfl, hq, hzs⟩ := exists_last_page hb hys hy
      rw [tip_snoc hb hzs hq] at h
      obtain ⟨htip, rfl⟩ := hinj _ _ _ _ (Option.some.inj h)
      rw [length_append] at hn
      obtain ⟨hseed, rfl⟩ := ih ws.length (by omega) hws hzs htip rfl
      exact ⟨hseed, rfl⟩

end SparkInfer.Lib.Chain
