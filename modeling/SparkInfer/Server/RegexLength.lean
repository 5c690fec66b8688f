import SparkInfer.Lib.Utf8

/-!
# Length bounds of stop regexes

The server bounds how many characters a stop regex can match on the translated pattern
(`hir_max_len`), the scheduler on the tree of `sre_parse` (`_max_length_from_subpattern`).
A match is described with the text around it, which the assertions read.
-/

namespace SparkInfer.Server.RegexLength

open Lib.Utf8

def stopRegexMaxLen : ℕ := 2 ^ 30

def usizeMax : ℕ := 2 ^ 64 - 1

def saturatingAdd (a b : ℕ) : ℕ := min (a + b) usizeMax

def saturatingMul (a b : ℕ) : ℕ := min (a * b) usizeMax

abbrev Assertion := List Char → List Char → Bool

/-! ## The translated pattern -/

inductive Hir
  | empty
  | look (holds : Assertion)
  | literal (text : List Char)
  | cls (accepts : Char → Bool)
  | repetition (min : ℕ) (max : Option ℕ) (sub : Hir)
  | capture (sub : Hir)
  | concat (subs : List Hir)
  | alternation (subs : List Hir)

def hirMaxLen : Hir → ℕ
  | .empty | .look _ => 0
  | .literal text => (bytes text).length
  | .cls _ => 1
  | .repetition _ none _ => stopRegexMaxLen
  | .repetition _ (some max) sub => min (saturatingMul max (hirMaxLen sub)) stopRegexMaxLen
  | .capture sub => hirMaxLen sub
  | .concat subs => min ((subs.map hirMaxLen).foldl saturatingAdd 0) stopRegexMaxLen
  | .alternation subs => (subs.map hirMaxLen).max?.getD 0

set_option autoImplicit true in
/-- `h.Matches before s after`: `h` matches `s` between `before` and `after`. -/
inductive Hir.Matches : Hir → List Char → List Char → List Char → Prop
  | empty : Matches .empty before [] after
  | look : holds before after → Matches (.look holds) before [] after
  | literal : Matches (.literal text) before text after
  | cls : accepts c → Matches (.cls accepts) before [c] after
  | done : Matches (.repetition 0 hi sub) before [] after
  | again : hi ≠ some 0 → Matches sub before s (t ++ after) →
      Matches (.repetition (lo - 1) (hi.map Nat.pred) sub) (before ++ s) t after →
      Matches (.repetition lo hi sub) before (s ++ t) after
  | capture : Matches sub before s after →
      Matches (.capture sub) before s after
  | concatNil : Matches (.concat []) before [] after
  | concatCons : Matches sub before s (t ++ after) →
      Matches (.concat subs) (before ++ s) t after →
      Matches (.concat (sub :: subs)) before (s ++ t) after
  | alternation : sub ∈ subs → Matches sub before s after →
      Matches (.alternation subs) before s after

theorem foldl_saturatingAdd (l : List ℕ) {a : ℕ} (ha : a ≤ usizeMax) :
    l.foldl saturatingAdd a = min (a + l.sum) usizeMax := by
  induction l generalizing a with
  | nil => simpa using ha
  | cons b l ih =>
    rw [List.foldl_cons, saturatingAdd, ih (Nat.min_le_right _ _), List.sum_cons]
    omega

theorem hirMaxLen_concat (subs : List Hir) :
    hirMaxLen (.concat subs) = min (subs.map hirMaxLen).sum stopRegexMaxLen := by
  have hcap : stopRegexMaxLen ≤ usizeMax := by decide
  rw [hirMaxLen, foldl_saturatingAdd _ (Nat.zero_le _)]
  omega

theorem hirMaxLen_repetition (min' max : ℕ) (sub : Hir) :
    hirMaxLen (.repetition min' (some max) sub) = min (max * hirMaxLen sub) stopRegexMaxLen := by
  have hcap : stopRegexMaxLen ≤ usizeMax := by decide
  rw [hirMaxLen, saturatingMul]
  omega

/-- By induction on the match; a sum or product that reaches the cap bounds anything. -/
theorem le_hirMaxLen {h : Hir} {before s after : List Char} (hm : h.Matches before s after) :
    min s.length stopRegexMaxLen ≤ hirMaxLen h := by
  induction hm with
  | empty | look | done | concatNil => simp
  | literal =>
    rw [hirMaxLen]
    exact (Nat.min_le_left _ _).trans (length_le_length_bytes _)
  | cls => simp [hirMaxLen]
  | @again hi _ _ _ _ _ _ hhi _ _ ihs iht =>
    cases hi with
    | none =>
      rw [hirMaxLen]
      exact Nat.min_le_right _ _
    | some hi =>
      obtain ⟨n, rfl⟩ := Nat.exists_eq_succ_of_ne_zero fun h => hhi (congrArg some h)
      rw [Option.map_some, hirMaxLen_repetition, Nat.pred_succ] at iht
      rw [hirMaxLen_repetition, Nat.succ_mul, List.length_append]
      omega
  | capture _ ih => rwa [hirMaxLen]
  | concatCons _ _ ihs iht =>
    rw [hirMaxLen_concat] at iht ⊢
    rw [List.map_cons, List.sum_cons, List.length_append]
    omega
  | alternation hmem _ ih =>
    rw [hirMaxLen]
    exact ih.trans (List.le_max?_getD_of_mem (List.mem_map_of_mem hmem))

/-! ## The tree of `sre_parse` -/

inductive CharToken
  | literal
  | in
  | any

inductive RepeatToken
  | maxRepeat
  | minRepeat

/-- The tokens that fall through to the warning. -/
inductive OtherToken
  | notLiteral
  | possessiveRepeat
  | atomicGroup
  | assert
  | assertNot
  | groupref
  | grouprefExists
  | failure

inductive Token
  | char (token : CharToken) (accepts : Char → Bool)
  | subpattern (inner : List Token)
  | branch (branches : List (List Token))
  /-- No `max` is `MAXREPEAT`. -/
  | repeat (token : RepeatToken) (min : ℕ) (max : Option ℕ) (inner : List Token)
  | at (holds : Assertion)
  | other (token : OtherToken)

def maxLen : ℕ := 2 ^ 30

mutual

def maxLengthFromSubpattern : List Token → ℕ
  | [] => 0
  | token :: rest => tokenMaxLength token + maxLengthFromSubpattern rest

def tokenMaxLength : Token → ℕ
  | .char _ _ => 1
  | .subpattern inner => maxLengthFromSubpattern inner
  -- the parser never leaves `branches` empty, where `max` would raise
  | .branch branches => (branches.map maxLengthFromSubpattern).max?.getD 0
  | .repeat _ _ none _ => maxLen
  | .repeat _ _ (some max) inner => max * maxLengthFromSubpattern inner
  | .at _ => 0
  | .other _ => maxLen

end

set_option autoImplicit true in
/-- As `Hir.Matches`, for the tokens of a subpattern one after the other; the last kind of token
may match anything. -/
inductive Matches : List Token → List Char → List Char → List Char → Prop
  | nil : Matches [] before [] after
  | char : accepts c → Matches rest (before ++ [c]) t after →
      Matches (.char token accepts :: rest) before (c :: t) after
  | subpattern : Matches sub before s (t ++ after) →
      Matches rest (before ++ s) t after →
      Matches (.subpattern sub :: rest) before (s ++ t) after
  | branch : sub ∈ branches →
      Matches sub before s (t ++ after) → Matches rest (before ++ s) t after →
      Matches (.branch branches :: rest) before (s ++ t) after
  | done : Matches rest before t after →
      Matches (.repeat token 0 hi sub :: rest) before t after
  | again : hi ≠ some 0 →
      Matches sub before s (t ++ after) →
      Matches (.repeat token (lo - 1) (hi.map Nat.pred) sub :: rest) (before ++ s) t after →
      Matches (.repeat token lo hi sub :: rest) before (s ++ t) after
  | position : holds before (t ++ after) → Matches rest before t after →
      Matches (.at holds :: rest) before t after
  | other : Matches rest (before ++ s) t after →
      Matches (.other token :: rest) before (s ++ t) after

theorem le_maxLengthFromSubpattern {p : List Token} {before s after : List Char}
    (hm : Matches p before s after) : min s.length maxLen ≤ maxLengthFromSubpattern p := by
  induction hm with
  | nil => simp
  | char _ _ ih =>
    rw [maxLengthFromSubpattern, tokenMaxLength, List.length_cons]
    omega
  | subpattern _ _ ihs iht =>
    rw [maxLengthFromSubpattern, tokenMaxLength, List.length_append]
    omega
  | branch hmem _ _ ihs iht =>
    have hle := List.le_max?_getD_of_mem (k := 0)
      (List.mem_map_of_mem (f := maxLengthFromSubpattern) hmem)
    rw [maxLengthFromSubpattern, tokenMaxLength, List.length_append]
    omega
  | done _ ih | position _ _ ih =>
    rw [maxLengthFromSubpattern]
    omega
  | @again hi _ _ _ _ _ _ _ _ hhi _ _ ihs iht =>
    rw [maxLengthFromSubpattern, List.length_append]
    cases hi with
    | none =>
      rw [tokenMaxLength]
      omega
    | some hi =>
      obtain ⟨n, rfl⟩ := Nat.exists_eq_succ_of_ne_zero fun h => hhi (congrArg some h)
      rw [maxLengthFromSubpattern, Option.map_some, Nat.pred_succ, tokenMaxLength] at iht
      rw [tokenMaxLength, Nat.succ_mul]
      omega
  | other =>
    rw [maxLengthFromSubpattern, tokenMaxLength]
    omega

theorem regex_length_bounds_sound (before s after : List Char) :
    (∀ h : Hir, h.Matches before s after → min s.length (2 ^ 30) ≤ hirMaxLen h) ∧
      ∀ p : List Token, Matches p before s after →
        min s.length (2 ^ 30) ≤ maxLengthFromSubpattern p :=
  ⟨fun _ => le_hirMaxLen, fun _ => le_maxLengthFromSubpattern⟩

theorem regex_length_bounds_char : min 1 (2 ^ 30) ≤ hirMaxLen (.literal ['a']) ∧
    min 1 (2 ^ 30) ≤ maxLengthFromSubpattern [.char .literal (· == 'a')] := by
  have hbounds := regex_length_bounds_sound [] ['a'] []
  exact ⟨hbounds.1 _ .literal, hbounds.2 _ (.char rfl .nil)⟩

end SparkInfer.Server.RegexLength
