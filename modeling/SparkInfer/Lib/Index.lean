import Mathlib.Data.Finset.Basic

/-!
# Indexes

An index gives a key the set of its items, and drops a key that has no item left.
-/

namespace SparkInfer.Lib

open Finset

variable {α β : Type*} [DecidableEq β] {look look' : α → Option (Finset β)} {R R' : α → β → Prop}
variable {k : α} {x : β}

/-- Every key has the items that `R` gives it, and a key without items is not there. -/
def Listed (look : α → Option (Finset β)) (R : α → β → Prop) : Prop :=
  ∀ i, (∀ x, x ∈ (look i).getD ∅ ↔ R i x) ∧ look i ≠ some ∅

variable (h : Listed look R) (hother : ∀ i ≠ k, look' i = look i)
include h hother

omit [DecidableEq β] in
theorem Listed.edit (hR : ∀ i ≠ k, ∀ x, R' i x ↔ R i x)
    (hk : (∀ x, x ∈ (look' k).getD ∅ ↔ R' k x) ∧ look' k ≠ some ∅) : Listed look' R' := by
  intro i
  by_cases hi : i = k
  · rwa [hi]
  · simp only [hother i hi, hR i hi]
    exact h i

theorem Listed.insert (hk : look' k = some (insert x ((look k).getD ∅)))
    (hR : ∀ i y, R' i y ↔ R i y ∨ (i = k ∧ y = x)) : Listed look' R' := by
  refine h.edit hother (fun i hi y => ?_) ⟨fun y => ?_, ?_⟩
  · simp [hR, hi]
  · rw [hk, Option.getD_some, Finset.mem_insert, (h k).1, hR]
    simp [or_comm]
  · simp [hk]

theorem Listed.erase (hR : ∀ i y, R' i y ↔ R i y ∧ ¬(i = k ∧ y = x))
    (hk : look' k = if ((look k).getD ∅).erase x = ∅ then none
      else some (((look k).getD ∅).erase x)) : Listed look' R' := by
  refine h.edit hother (fun i hi y => by simp [hR, hi]) ?_
  have hmem : ∀ y, y ∈ ((look k).getD ∅).erase x ↔ R' k y := by
    intro y
    rw [Finset.mem_erase, (h k).1, hR]
    simp [and_comm]
  rw [hk]
  split_ifs with hempty
  · rw [hempty] at hmem
    exact ⟨hmem, nofun⟩
  · exact ⟨hmem, fun he => hempty (Option.some.inj he)⟩

end SparkInfer.Lib
