import Mathlib.Data.List.Basic

/-!
# Hashable Python values and exceptions

The values a Python dictionary may be keyed by here: `None`, integers, strings
and tuples of these.  A tuple is a cons list, so that equality is structural and
decidable.
-/

namespace SparkInfer.Lib

variable {ε : Type*} {α β : Type} {x : Except ε α}

inductive PyVal where
  | none
  | int (i : Int)
  | str (s : String)
  | nil
  | cons (head tail : PyVal)
deriving DecidableEq, Repr

namespace PyVal

def tuple : List PyVal → PyVal
  | [] => .nil
  | v :: vs => .cons v (tuple vs)

@[simp] theorem tuple_inj {vs ws : List PyVal} : tuple vs = tuple ws ↔ vs = ws := by
  induction vs generalizing ws with
  | nil => cases ws <;> simp [tuple]
  | cons v vs ih => cases ws <;> simp [tuple, ih]

def ofOption : Option String → PyVal
  | Option.none => .none
  | some s => .str s

def repr : Option String → String
  | Option.none => "None"
  | some s => "'" ++ s ++ "'"

end PyVal

/-- The exceptions the modelled functions raise, with their messages. -/
inductive PyError where
  | valueError (msg : String)
  | indexError (msg : String)
  | assertionError (msg : String)
  | attributeError (msg : String)
  | runtimeError (msg : String)
  /-- A loop that was given too few iterations; no modelled call reaches it. -/
  | outOfFuel
deriving DecidableEq, Repr

theorem bind_ok {f : α → Except ε β} {b : β} (h : (x >>= f) = .ok b) :
    ∃ a, x = .ok a ∧ f a = .ok b := by
  cases x with
  | error e => cases h
  | ok a => exact ⟨a, rfl, h⟩

theorem exists_ok (h : x.isOk = true) : ∃ a, x = .ok a := by
  cases x with
  | error e => cases h
  | ok a => exact ⟨a, rfl⟩

@[simp] theorem ok_bind (a : α) (f : α → Except ε β) : (Except.ok a >>= f) = f a := rfl

@[simp] theorem pure_ok (a : α) : (pure a : Except ε α) = .ok a := rfl

def okAnd {ε : Type*} {α : Type} (x : Except ε α) (p : α → Bool) : Bool :=
  match x with
  | .ok a => p a
  | .error _ => false

theorem exists_of_okAnd {p : α → Bool} (h : okAnd x p = true) : ∃ a, x = .ok a ∧ p a = true := by
  cases x with
  | error e => cases h
  | ok a => exact ⟨a, rfl, h⟩

end SparkInfer.Lib
