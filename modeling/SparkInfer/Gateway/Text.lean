import SparkInfer.Lib.Utf8

/-!
# Text operations of the gateway's prefix tree

The string helpers of `policies/tree.rs`.  They work on bytes where the text is
ASCII and on characters elsewhere; either way they count characters.
-/

namespace SparkInfer.Gateway

open Lib Lib.Utf8 Lib.CommonPrefix List Option

def advanceByChars (s : List Char) (n : ℕ) : List Char :=
  if n = 0 then s
  else if (bytes s).length ≤ n then []
  else if isAscii ((bytes s).take n) then (sliceFrom s n).getD []
  else ((nthCharIndex s n).bind (sliceFrom s)).getD []

def takeChars (s : List Char) (n : ℕ) : List Char :=
  if n = 0 then []
  else
    match nthCharIndex s n with
    | some idx => (sliceTo s idx).getD []
    | none => s

def sharedPrefixCountChars (a b : List Char) : ℕ :=
  ((a.zip b).takeWhile fun p => p.1 = p.2).length

/-- The position of the first differing byte, or the shorter length, is `commonLen`
of the bytes. -/
def sharedPrefixCount (a b : List Char) : ℕ :=
  let commonByteLen := commonLen (bytes a) (bytes b)
  if isAscii ((bytes a).take commonByteLen) then commonByteLen else sharedPrefixCountChars a b

theorem advanceByChars_eq (s : List Char) (n : ℕ) : advanceByChars s n = s.drop n := by
  unfold advanceByChars
  split
  · rename_i hn
    rw [hn, drop_zero]
  split
  · rename_i hlen
    exact (drop_eq_nil_of_le ((length_le_length_bytes s).trans hlen)).symm
  rename_i hlen
  split_ifs with hascii
  · rw [sliceFrom_of_ascii (Nat.le_of_not_le hlen) hascii, getD_some]
  unfold nthCharIndex
  split_ifs with hlt
  · rw [bind_some, sliceFrom_offset, getD_some]
  · exact (drop_eq_nil_of_le (Nat.le_of_not_lt hlt)).symm

theorem takeChars_eq (s : List Char) (n : ℕ) : takeChars s n = s.take n := by
  unfold takeChars nthCharIndex
  split
  · rename_i hn
    rw [hn, take_zero]
  by_cases hlt : n < s.length
  · rw [if_pos hlt]
    dsimp only
    rw [sliceTo_offset, getD_some]
  · rw [if_neg hlt]
    exact (take_of_length_le (Nat.le_of_not_lt hlt)).symm

theorem sharedPrefixCountChars_eq (a b : List Char) : sharedPrefixCountChars a b = commonLen a b := by
  induction a generalizing b with
  | nil => simp [sharedPrefixCountChars, commonLen]
  | cons c a ih =>
    cases b with
    | nil => simp [sharedPrefixCountChars, commonLen]
    | cons d b =>
      rw [sharedPrefixCountChars, zip_cons_cons, commonLen]
      by_cases h : c = d
      · simpa [h, sharedPrefixCountChars] using ih b
      · simp [h]

@[simp] theorem sharedPrefixCount_eq (a b : List Char) : sharedPrefixCount a b = commonLen a b := by
  unfold sharedPrefixCount
  dsimp only
  split_ifs with hascii
  · exact commonLen_bytes_of_ascii hascii
  · exact sharedPrefixCountChars_eq a b

structure NodeText where
  text : List Char
  charCount : ℕ
  charCount_eq : charCount = text.length

namespace NodeText

def new (text : List Char) : NodeText := ⟨text, text.length, rfl⟩

def empty : NodeText := ⟨[], 0, rfl⟩

variable (t : NodeText)

def firstChar : Option Char := t.text.head?

def splitIndex (charIdx : ℕ) : ℕ :=
  (nthCharIndex t.text charIdx).getD (bytes t.text).length

theorem splitIndex_eq {t : NodeText} {charIdx : ℕ} (h : ¬t.charCount ≤ charIdx) :
    t.splitIndex charIdx = (bytes (t.text.take charIdx)).length := by
  rw [t.charCount_eq, not_le] at h
  rw [splitIndex, nthCharIndex, if_pos h, getD_some]

def splitAtChar (charIdx : ℕ) : NodeText × NodeText :=
  if charIdx = 0 then (empty, t)
  else if h : t.charCount ≤ charIdx then (t, empty)
  else
    (⟨(sliceTo t.text (t.splitIndex charIdx)).getD [], charIdx, by
        rw [splitIndex_eq h, sliceTo_offset, getD_some, length_take]
        have := t.charCount_eq
        omega⟩,
     ⟨(sliceFrom t.text (t.splitIndex charIdx)).getD [], t.charCount - charIdx, by
        rw [splitIndex_eq h, sliceFrom_offset, getD_some, length_drop, t.charCount_eq]⟩)

theorem splitAtChar_text (k : ℕ) :
    (t.splitAtChar k).1.text = t.text.take k ∧ (t.splitAtChar k).2.text = t.text.drop k := by
  unfold splitAtChar
  split_ifs with hk hle
  · exact hk ▸ ⟨rfl, rfl⟩
  · have hlen := t.charCount_eq ▸ hle
    exact ⟨(take_of_length_le hlen).symm, (drop_eq_nil_of_le hlen).symm⟩
  · simp only [splitIndex_eq hle, sliceTo_offset, sliceFrom_offset, getD_some, and_self]

end NodeText

/-- Wherever the bytes before an offset are ASCII the slice there is defined, and the fast paths
agree with the text's characters. -/
theorem text_fast_paths (a b : List Char) (t : NodeText) (n : ℕ) :
    IsGreatest {k | ∃ p, p <+: a ∧ p <+: b ∧ p.length = k} (sharedPrefixCount a b) ∧
      advanceByChars a n = a.drop (min n a.length) ∧
      (n ≤ (bytes a).length → isAscii ((bytes a).take n) → (sliceFrom a n).isSome) ∧
      (t.splitAtChar n).1.text ++ (t.splitAtChar n).2.text = t.text ∧
      (t.splitAtChar n).1.text.length = min n t.text.length ∧
      (t.splitAtChar n).1.charCount = (t.splitAtChar n).1.text.length ∧
      (t.splitAtChar n).2.charCount = (t.splitAtChar n).2.text.length := by
  refine ⟨⟨?_, ?_⟩, ?_, ?_, ?_, ?_, NodeText.charCount_eq _, NodeText.charCount_eq _⟩
  · refine ⟨a.take (commonLen a b), take_prefix _ _, ?_, ?_⟩
    · rw [take_commonLen]
      exact take_prefix _ _
    · rw [sharedPrefixCount_eq, length_take, Nat.min_eq_left (commonLen_le_left a b)]
  · rintro k ⟨p, hpa, hpb, rfl⟩
    rw [sharedPrefixCount_eq, le_commonLen_iff, ← prefix_iff_eq_take.mp hpa]
    exact ⟨hpa.length_le, hpb.length_le, prefix_iff_eq_take.mp hpb⟩
  · rw [advanceByChars_eq, drop_eq_drop_iff, Nat.min_assoc, Nat.min_self]
  · intro hle hascii
    rw [sliceFrom_of_ascii hle hascii, isSome_some]
  · rw [(t.splitAtChar_text n).1, (t.splitAtChar_text n).2, take_append_drop]
  · rw [(t.splitAtChar_text n).1, length_take]

end SparkInfer.Gateway
