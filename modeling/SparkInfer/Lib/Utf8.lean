import SparkInfer.Lib.CommonPrefix
import Mathlib.Data.Char

/-!
# Text and its UTF-8 bytes

A string is its list of characters; its bytes are a view of it.  Slicing is by byte
offset and fails off a character boundary.  Where the bytes before an offset are all
ASCII, byte offsets and character counts agree.
-/

namespace SparkInfer.Lib.Utf8

open CommonPrefix List UInt8

variable (s : List Char) {c : Char}

def bytes : List UInt8 := s.flatMap String.utf8EncodeChar

def isAscii (bs : List UInt8) : Bool := bs.all (· < 128)

/-- `&s[n..]`; `none` is the panic off a character boundary. -/
def sliceFrom : List Char → ℕ → Option (List Char)
  | s, 0 => some s
  | [], _ + 1 => none
  | c :: s, n + 1 => if c.utf8Size ≤ n + 1 then sliceFrom s (n + 1 - c.utf8Size) else none

def sliceTo : List Char → ℕ → Option (List Char)
  | _, 0 => some []
  | [], _ + 1 => none
  | c :: s, n + 1 =>
    if c.utf8Size ≤ n + 1 then (sliceTo s (n + 1 - c.utf8Size)).map (c :: ·) else none

def nthCharIndex (n : ℕ) : Option ℕ :=
  if n < s.length then some (bytes (s.take n)).length else none

@[simp] theorem bytes_nil : bytes [] = [] := rfl

@[simp] theorem bytes_cons (c : Char) (s : List Char) :
    bytes (c :: s) = String.utf8EncodeChar c ++ bytes s := rfl

theorem length_bytes_cons (c : Char) (s : List Char) :
    (bytes (c :: s)).length = c.utf8Size + (bytes s).length := by
  rw [bytes_cons, length_append, String.length_utf8EncodeChar]

theorem length_le_length_bytes : s.length ≤ (bytes s).length := by
  induction s with
  | nil => exact le_rfl
  | cons c s ih =>
    have hpos := c.utf8Size_pos
    rw [length_bytes_cons, length_cons]
    omega

theorem encode_ascii (hc : c.val.toNat ≤ 127) : String.utf8EncodeChar c = [ofNat c.val.toNat] :=
  if_pos hc

theorem utf8Size_ascii (hc : c.val.toNat ≤ 127) : c.utf8Size = 1 := by
  rw [← String.length_utf8EncodeChar, encode_ascii hc, length_singleton]

theorem encode_not_ascii (hc : 127 < c.val.toNat) :
    ∃ b rest, String.utf8EncodeChar c = b :: rest ∧ ¬b < 128 := by
  have hbig : ∀ k m : ℕ, 128 ≤ m → k + m < 256 → ¬ofNat (k + m) < 128 := by
    intro k m hm hlt hsmall
    rw [lt_iff_toNat_lt, toNat_ofNat', Nat.mod_eq_of_lt hlt] at hsmall
    have : (128 : UInt8).toNat = 128 := rfl
    omega
  have hv : ¬c.val.toNat ≤ 127 := not_le.mpr hc
  unfold String.utf8EncodeChar
  rw [if_neg hv]
  split
  · exact ⟨_, _, rfl, hbig _ _ (by omega) (by omega)⟩
  split <;> exact ⟨_, _, rfl, hbig _ _ (by omega) (by omega)⟩

theorem ofNat_inj_of_ascii {v w : ℕ} (hv : v ≤ 127) (hw : w ≤ 127)
    (h : ofNat v = ofNat w) : v = w := by
  have htoNat := congrArg toNat h
  rwa [toNat_ofNat', toNat_ofNat', Nat.mod_eq_of_lt (by omega),
    Nat.mod_eq_of_lt (by omega)] at htoNat

theorem isAscii_cons (b : UInt8) (bs : List UInt8) :
    isAscii (b :: bs) = true ↔ b < 128 ∧ isAscii bs = true := by
  simp [isAscii]

theorem slices_offset (n : ℕ) : sliceFrom s (bytes (s.take n)).length = some (s.drop n) ∧
    sliceTo s (bytes (s.take n)).length = some (s.take n) := by
  induction s generalizing n with
  | nil => simp [sliceFrom, sliceTo]
  | cons c s ih =>
    cases n with
    | zero => simp [sliceFrom, sliceTo]
    | succ n =>
      have hpos := c.utf8Size_pos
      rw [take_succ_cons, drop_succ_cons, length_bytes_cons]
      obtain ⟨k, hk⟩ : ∃ k, c.utf8Size + (bytes (s.take n)).length = k + 1 :=
        ⟨c.utf8Size + (bytes (s.take n)).length - 1, by omega⟩
      simp only [hk, sliceFrom, sliceTo]
      simp [← hk, ih]

theorem sliceFrom_offset (n : ℕ) : sliceFrom s (bytes (s.take n)).length = some (s.drop n) :=
  (slices_offset s n).1

theorem sliceTo_offset (n : ℕ) : sliceTo s (bytes (s.take n)).length = some (s.take n) :=
  (slices_offset s n).2

theorem length_bytes_take_of_ascii {s : List Char} {n : ℕ} (hle : n ≤ (bytes s).length)
    (hascii : isAscii ((bytes s).take n) = true) : (bytes (s.take n)).length = n := by
  induction s generalizing n with
  | nil =>
    rw [bytes_nil, length_nil, Nat.le_zero] at hle
    simp [hle]
  | cons c s ih =>
    cases n with
    | zero => simp
    | succ n =>
      rcases lt_or_ge 127 c.val.toNat with hc | hc
      · obtain ⟨b, rest, hb, hbig⟩ := encode_not_ascii hc
        rw [bytes_cons, hb, cons_append, take_succ_cons, isAscii_cons] at hascii
        exact absurd hascii.1 hbig
      rw [length_bytes_cons, utf8Size_ascii hc] at hle
      rw [bytes_cons, encode_ascii hc, singleton_append, take_succ_cons, isAscii_cons] at hascii
      rw [take_succ_cons, length_bytes_cons, utf8Size_ascii hc, ih (by omega) hascii.2, add_comm]

theorem sliceFrom_of_ascii {s : List Char} {n : ℕ} (hle : n ≤ (bytes s).length)
    (hascii : isAscii ((bytes s).take n) = true) : sliceFrom s n = some (s.drop n) := by
  have hoff := sliceFrom_offset s n
  rwa [length_bytes_take_of_ascii hle hascii] at hoff

theorem commonLen_bytes_of_ascii {a b : List Char}
    (hascii : isAscii ((bytes a).take (commonLen (bytes a) (bytes b))) = true) :
    commonLen (bytes a) (bytes b) = commonLen a b := by
  induction a generalizing b with
  | nil => simp [commonLen]
  | cons c a ih =>
    cases b with
    | nil => simp [commonLen]
    | cons d b =>
      rcases lt_or_ge 127 c.val.toNat with hc | hc
      · -- the first bytes differ, or they are common and not ASCII
        obtain ⟨x, xs, hx, hbig⟩ := encode_not_ascii hc
        have hfirst : commonLen (bytes (c :: a)) (bytes (d :: b)) = 0 := by
          by_contra hne
          obtain ⟨k, hk⟩ := Nat.exists_eq_succ_of_ne_zero hne
          rw [hk, bytes_cons, hx, cons_append, take_succ_cons, isAscii_cons] at hascii
          exact absurd hascii.1 hbig
        have hne : c ≠ d := by
          rintro rfl
          rw [bytes_cons, bytes_cons, hx, cons_append, cons_append, commonLen, if_pos rfl] at hfirst
          exact Nat.succ_ne_zero _ hfirst
        rw [hfirst, commonLen, if_neg hne]
      · rw [bytes_cons, encode_ascii hc, singleton_append] at hascii ⊢
        rcases lt_or_ge 127 d.val.toNat with hd | hd
        · obtain ⟨y, ys, hy, hbig⟩ := encode_not_ascii hd
          have hdiff : ofNat c.val.toNat ≠ y := by
            rintro rfl
            apply hbig
            rw [lt_iff_toNat_lt, toNat_ofNat', Nat.mod_eq_of_lt (by omega)]
            exact Nat.lt_succ_of_le hc
          have hne : c ≠ d := by
            rintro rfl
            omega
          rw [bytes_cons, hy, cons_append, commonLen, if_neg hdiff, commonLen, if_neg hne]
        · rw [bytes_cons, encode_ascii hd, singleton_append] at hascii ⊢
          by_cases heq : c = d
          · subst heq
            rw [commonLen, if_pos rfl] at hascii ⊢
            rw [take_succ_cons, isAscii_cons] at hascii
            rw [ih hascii.2, commonLen, if_pos rfl]
          · have hdiff : ofNat c.val.toNat ≠ ofNat d.val.toNat := fun h =>
              heq (Char.ext (UInt32.toNat_inj.mp (ofNat_inj_of_ascii hc hd h)))
            rw [commonLen, if_neg hdiff, commonLen, if_neg heq]

end SparkInfer.Lib.Utf8
