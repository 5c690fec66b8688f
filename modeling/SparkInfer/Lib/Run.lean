import Mathlib.Data.List.Basic

/-!
# Runs of a step function

A run takes the steps of a list one after another and fails with the first that fails.
What every step keeps, as far as the steps meet a condition, a run keeps.
-/

namespace SparkInfer.Lib

variable {S Op : Type*} (step : S → Op → Option S)

def runFrom (s : S) : List Op → Option S
  | [] => some s
  | op :: ops => (step s op).bind fun s => runFrom s ops

/-- Every step of the run meets the condition in the state it is taken in. -/
def Guarded (guard : S → Op → Prop) (s : S) : List Op → Prop
  | [] => True
  | op :: ops => guard s op ∧ ∀ s' ∈ step s op, Guarded guard s' ops

instance decidableGuarded (guard : S → Op → Prop) [∀ s op, Decidable (guard s op)] :
    (s : S) → (ops : List Op) → Decidable (Guarded step guard s ops)
  | _, [] => .isTrue trivial
  | s, op :: ops =>
    have : Decidable (∀ s' ∈ step s op, Guarded step guard s' ops) :=
      match step s op with
      | none => .isTrue fun _ h => nomatch h
      | some s' => @decidable_of_iff _ _ (by simp) (decidableGuarded guard s' ops)
    inferInstanceAs (Decidable (_ ∧ _))

variable {step} {guard : S → Op → Prop}

theorem guarded_of_forall (h : ∀ s op, guard s op) (s : S) (ops : List Op) :
    Guarded step guard s ops := by
  induction ops generalizing s with
  | nil => trivial
  | cons op ops ih => exact ⟨h s op, fun s' _ => ih s'⟩

theorem runFrom_invariant {I : S → Prop}
    (hstep : ∀ s op s', I s → guard s op → step s op = some s' → I s') {s s' : S} {ops : List Op}
    (hinit : I s) (hguard : Guarded step guard s ops) (hrun : runFrom step s ops = some s') : I s' := by
  induction ops generalizing s with
  | nil => exact Option.some.inj hrun ▸ hinit
  | cons op ops ih =>
    obtain ⟨s₁, hs₁, hrest⟩ := Option.bind_eq_some_iff.mp hrun
    exact ih (hstep s op s₁ hinit hguard.1 hs₁) (hguard.2 s₁ hs₁) hrest

end SparkInfer.Lib
