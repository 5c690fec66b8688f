import Mathlib.Data.List.Nodup
import Mathlib.Data.List.Dedup
import Mathlib.Order.Interval.Finset.Nat

/-!
# Tables

A table with rows `ρ` and columns `ℕ`.  `window` reads a range of columns of some
rows, `store` writes one, row by row.
-/

namespace SparkInfer.Lib.Table

open List

variable {ρ α : Type*}

/-- The columns `a ≤ p < b` of the rows. -/
def window (t : ρ → ℕ → α) (rows : List ρ) (a b : ℕ) : List (List α) :=
  rows.map fun r => (List.range' a (b - a)).map (t r)

variable {t t' : ρ → ℕ → α} {rows : List ρ} {a b : ℕ} {x : α}

theorem mem_window_flatten :
    x ∈ (window t rows a b).flatten ↔ ∃ r ∈ rows, ∃ p, a ≤ p ∧ p < b ∧ t r p = x := by
  have hrange : ∀ p, p ∈ range' a (b - a) ↔ a ≤ p ∧ p < b := by
    intro p
    rw [mem_range'_1]
    omega
  simp only [window, mem_flatten, mem_map, exists_exists_and_eq_and, hrange, and_assoc]

theorem length_window : (window t rows a b).length = rows.length :=
  length_map ..

theorem length_of_mem_window {l : List α} (hl : l ∈ window t rows a b) : l.length = b - a := by
  obtain ⟨r, -, rfl⟩ := mem_map.mp hl
  rw [length_map, length_range']

theorem window_congr (h : ∀ r ∈ rows, ∀ p, a ≤ p → p < b → t' r p = t r p) :
    window t' rows a b = window t rows a b := by
  refine map_congr_left fun r hr => map_congr_left fun p hp => ?_
  rw [mem_range'_1] at hp
  exact h r hr p hp.1 (by omega)

theorem window_self : (window t rows a a).flatten = [] := by
  rw [eq_nil_iff_forall_not_mem]
  intro x hx
  obtain ⟨-, -, p, hle, hlt, -⟩ := mem_window_flatten.mp hx
  omega

theorem window_succ (t : ρ → ℕ → α) (r : ρ) (h : a ≤ b) :
    (window t [r] a (b + 1)).flatten = (window t [r] a b).flatten ++ [t r b] := by
  have hlen : b + 1 - a = (b - a) + 1 := by omega
  have hlast : a + 1 * (b - a) = b := by omega
  simp only [window, map_cons, map_nil, flatten_cons, flatten_nil, append_nil,
    hlen, range'_concat, map_append, hlast]

theorem window_append (t : ρ → ℕ → α) (r : ρ) {c : ℕ} (hab : a ≤ b) (hbc : b ≤ c) :
    (window t [r] a c).flatten = (window t [r] a b).flatten ++ (window t [r] b c).flatten := by
  induction c, hbc using Nat.le_induction with
  | base => rw [window_self, append_nil]
  | succ c hbc ih => rw [window_succ t r (hab.trans hbc), window_succ t r hbc, ih, append_assoc]

/-! ## Writing -/

variable [DecidableEq ρ]

/-- The lists `m` are written into the rows from the column `a` on. -/
def store (t : ρ → ℕ → α) (rows : List ρ) (a : ℕ) (m : List (List α)) (r : ρ) (p : ℕ) : α :=
  if p < a then t r p else ((m[rows.idxOf r]?).bind (·[p - a]?)).getD (t r p)

variable {m : List (List α)} {r : ρ} {p : ℕ}

theorem store_of_lt (hp : p < a) : store t rows a m r p = t r p := if_pos hp

theorem store_of_notMem (hr : r ∉ rows) (hm : m.length ≤ rows.length) :
    store t rows a m r p = t r p := by
  unfold store
  split_ifs
  · rfl
  · have hidx : rows.idxOf r = rows.length := idxOf_eq_length_iff.mpr hr
    rw [hidx, getElem?_eq_none hm]
    rfl

theorem store_getElem (hrows : rows.Nodup) {i j : ℕ} (hi : i < rows.length) {l : List α}
    (hl : m[i]? = some l) (hx : l[j]? = some x) : store t rows a m rows[i] (a + j) = x := by
  unfold store
  rw [if_neg (by omega), hrows.idxOf_getElem i hi, hl, Option.bind_some, Nat.add_sub_cancel_left, hx]
  rfl

theorem window_store (hrows : rows.Nodup) (hm : m.length = rows.length)
    (hlen : ∀ l ∈ m, l.length = b - a) : window (store t rows a m) rows a b = m := by
  refine ext_getElem (by rw [length_window, hm]) fun i hi hi' => ?_
  rw [length_window] at hi
  have hl := hlen m[i] (getElem_mem hi')
  simp only [window, getElem_map]
  refine ext_getElem (by rw [length_map, length_range', hl]) fun j hj hj' => ?_
  rw [getElem_map, getElem_range', one_mul]
  exact store_getElem hrows hi (getElem?_eq_getElem hi') (getElem?_eq_getElem hj')

theorem mem_window_store_column (hrows : rows.Nodup) {xs : List α} (hxs : xs.length = rows.length)
    (hab : a ≤ b) : x ∈ (window (store t rows b (xs.map ([·]))) rows a (b + 1)).flatten ↔
      x ∈ (window t rows a b).flatten ∨ x ∈ xs := by
  have hnew : ∀ i (hi : i < rows.length), store t rows b (xs.map ([·])) rows[i] b = xs[i] := by
    intro i hi
    have hi' : i < xs.length := by omega
    refine store_getElem (j := 0) hrows hi (l := [xs[i]]) ?_ rfl
    rw [getElem?_map, getElem?_eq_getElem hi']
    rfl
  simp only [mem_window_flatten]
  constructor
  · rintro ⟨r, hr, p, hle, hlt, rfl⟩
    by_cases hp : p < b
    · exact .inl ⟨r, hr, p, hle, hp, (store_of_lt hp).symm⟩
    obtain ⟨i, hi, rfl⟩ := getElem_of_mem hr
    have hpb : p = b := by omega
    rw [hpb, hnew i hi]
    exact .inr (getElem_mem _)
  · rintro (⟨r, hr, p, hle, hlt, rfl⟩ | hx)
    · exact ⟨r, hr, p, hle, by omega, store_of_lt hlt⟩
    · obtain ⟨i, hi, rfl⟩ := getElem_of_mem hx
      have hi' : i < rows.length := by omega
      exact ⟨rows[i], getElem_mem hi', b, hab, Nat.lt_succ_self b, hnew i hi'⟩

theorem window_store_suffix (t : ρ → ℕ → α) (r : ρ) (xs ys : List α) :
    (window (store t [r] 0 [xs ++ ys]) [r] xs.length (xs.length + ys.length)).flatten = ys := by
  have hall : window (store t [r] 0 [xs ++ ys]) [r] 0 (xs.length + ys.length) = [xs ++ ys] :=
    window_store (nodup_singleton r) rfl fun l hl => by
      rw [mem_singleton.mp hl, length_append, Nat.sub_zero]
  have hcut := window_append (store t [r] 0 [xs ++ ys]) r (Nat.zero_le xs.length)
    (Nat.le_add_right xs.length ys.length)
  rw [hall, flatten_singleton] at hcut
  refine (append_inj_right hcut ?_).symm
  rw [window, map_singleton, flatten_singleton, length_map, length_range', Nat.sub_zero]

end SparkInfer.Lib.Table
