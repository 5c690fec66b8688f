import Mathlib.Data.List.Basic
import Mathlib.Data.List.TakeDrop
import Mathlib.Tactic.Ring

/-!
# Common prefixes and galloping search

Two lists are compared through one number, the length of their longest common
prefix.  The module gives that number a characterisation by `take`, its floor
to a block size, and the exponential search that computes it with slice
comparisons only.
-/

namespace SparkInfer.Lib.CommonPrefix

variable {α : Type}
variable {c n : Nat} {xs ys : List α}

/-! ## Slices -/

def slice (xs : List α) (lo hi : Nat) : List α := (xs.take hi).drop lo

theorem take_split (xs : List α) {lo hi : Nat} (h : lo ≤ hi) :
    xs.take hi = xs.take lo ++ slice xs lo hi := by
  have hsplit := (List.take_append_drop lo (xs.take hi)).symm
  rwa [List.take_take, Nat.min_eq_left h] at hsplit

theorem take_eq_iff_slice_eq (xs ys : List α) {lo hi : Nat} (h : lo ≤ hi)
    (hlo : xs.take lo = ys.take lo) :
    xs.take hi = ys.take hi ↔ slice xs lo hi = slice ys lo hi := by
  rw [take_split xs h, take_split ys h, hlo]
  exact List.append_right_inj _

/-! ## Common prefix length -/

variable [DecidableEq α]

def commonLen : List α → List α → Nat
  | x :: xs, y :: ys => if x = y then commonLen xs ys + 1 else 0
  | _, _ => 0

theorem le_commonLen_iff (c : Nat) (xs ys : List α) : c ≤ commonLen xs ys ↔
      c ≤ xs.length ∧ c ≤ ys.length ∧ xs.take c = ys.take c := by
  induction xs generalizing c ys with
  | nil =>
    all_goals
      simp [commonLen]
      try omega
  | cons x xs ih =>
    cases ys with
    | nil =>
      simp [commonLen]
      omega
    | cons y ys =>
      cases c with
      | zero => simp
      | succ c =>
        by_cases hxy : x = y
        · subst hxy
          simp [commonLen, ih]
        · simp [commonLen, hxy]

theorem commonLen_le_left (xs ys : List α) : commonLen xs ys ≤ xs.length :=
  ((le_commonLen_iff _ xs ys).mp le_rfl).1

theorem commonLen_le_right (xs ys : List α) : commonLen xs ys ≤ ys.length :=
  ((le_commonLen_iff _ xs ys).mp le_rfl).2.1

theorem take_commonLen (xs ys : List α) : xs.take (commonLen xs ys) = ys.take (commonLen xs ys) :=
  ((le_commonLen_iff _ xs ys).mp le_rfl).2.2

theorem eq_commonLen_of_iff
    (h : ∀ d, d ≤ c ↔ d ≤ xs.length ∧ d ≤ ys.length ∧ xs.take d = ys.take d) :
    c = commonLen xs ys := by
  apply le_antisymm
  · exact (le_commonLen_iff _ _ _).mpr ((h c).mp le_rfl)
  · exact (h _).mpr ((le_commonLen_iff _ xs ys).mp le_rfl)

/-! ## Rounding down to whole blocks -/

def floorTo (b n : Nat) : Nat := n / b * b

theorem floorTo_le (b n : Nat) : floorTo b n ≤ n := Nat.div_mul_le_self n b

theorem dvd_floorTo (b n : Nat) : b ∣ floorTo b n := dvd_mul_left b (n / b)

@[simp] theorem floorTo_one : floorTo 1 n = n := by simp [floorTo]

theorem le_floorTo_iff {b : Nat} (hc : b ∣ c) : c ≤ floorTo b n ↔ c ≤ n := by
  rcases eq_zero_or_pos b with hb | hb
  · subst hb
    have hc0 : c = 0 := eq_zero_of_zero_dvd hc
    simp [hc0]
  constructor
  · intro h
    exact h.trans (floorTo_le b n)
  intro h
  obtain ⟨q, rfl⟩ := hc
  have hq : q ≤ n / b := by
    rwa [Nat.le_div_iff_mul_le hb, Nat.mul_comm]
  rw [mul_comm]
  exact Nat.mul_le_mul_right b hq

/-! ## Galloping search -/

def bisect (xs ys : List α) : Nat → Nat → Nat → Nat
  | 0, lo, _ => lo
  | fuel + 1, lo, hi =>
    if 1 < hi - lo then
      let mid := (lo + hi) / 2
      if slice xs lo mid = slice ys lo mid then bisect xs ys fuel mid hi
      else bisect xs ys fuel lo mid
    else lo

def gallop (xs ys : List α) (n : Nat) : Nat → Nat → Nat → Nat
  | 0, _, _ => n
  | fuel + 1, lo, step =>
    if lo < n then
      let hi := if lo + step < n then lo + step else n
      if slice xs lo hi ≠ slice ys lo hi then bisect xs ys (hi - lo) lo hi
      else gallop xs ys n fuel hi (step * 2)
    else n

/-- The search is driven by slice comparisons below `n`.  Its answer is the
largest `c ≤ n` up to which the two lists agree. -/
theorem bisect_eq (hc : ∀ d, d ≤ c ↔ d ≤ n ∧ xs.take d = ys.take d) (fuel lo hi : Nat)
    (hfuel : hi - lo ≤ fuel + 1) (hlo : lo ≤ c) (hhi : c < hi) (hn : hi ≤ n) :
    bisect xs ys fuel lo hi = c := by
  induction fuel generalizing lo hi with
  | zero =>
    simp only [bisect]
    omega
  | succ fuel ih =>
    have hagree := ((hc lo).mp hlo).2
    simp only [bisect]
    split_ifs with hgap heq
    · apply ih
      · omega
      · rw [hc]
        refine ⟨by omega, ?_⟩
        exact (take_eq_iff_slice_eq xs ys (by omega) hagree).mpr heq
      · exact hhi
      · exact hn
    · apply ih
      · omega
      · exact hlo
      · by_contra hge
        have hmid := (hc _).mp (Nat.le_of_not_lt hge)
        exact heq ((take_eq_iff_slice_eq xs ys (by omega) hagree).mp hmid.2)
      · omega
    · omega

theorem gallop_eq (hc : ∀ d, d ≤ c ↔ d ≤ n ∧ xs.take d = ys.take d) (fuel lo step : Nat)
    (hfuel : n < fuel + lo) (hstep : 0 < step) (hlo : lo ≤ c) :
    gallop xs ys n fuel lo step = c := by
  have hcn : c ≤ n := ((hc c).mp le_rfl).1
  induction fuel generalizing lo step with
  | zero => omega
  | succ fuel ih =>
    have hagree := ((hc lo).mp hlo).2
    simp only [gallop]
    by_cases hlt : lo < n
    · rw [if_pos hlt]
      set hi := if lo + step < n then lo + step else n with hhi
      have hbound : lo < hi ∧ hi ≤ n := by
        rw [hhi]
        split_ifs <;> omega
      by_cases hne : slice xs lo hi = slice ys lo hi
      · rw [if_neg (by simpa using hne)]
        apply ih hi (step * 2)
        · omega
        · omega
        · rw [hc]
          exact ⟨hbound.2, (take_eq_iff_slice_eq xs ys hbound.1.le hagree).mpr hne⟩
      · rw [if_pos (by simpa using hne)]
        apply bisect_eq hc
        · omega
        · exact hlo
        · by_contra hge
          have hh := (hc _).mp (Nat.le_of_not_lt hge)
          exact hne ((take_eq_iff_slice_eq xs ys hbound.1.le hagree).mp hh.2)
        · exact hbound.2
    · rw [if_neg hlt]
      omega

end SparkInfer.Lib.CommonPrefix
