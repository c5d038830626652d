import F1Goal.EscDecode

/-!
# What `str_esc_decode` takes for an escaped text

An escaped text is made of units: a byte that stands for itself, or an escaped first byte with as
many escaped bytes behind it as it announces. The table `hex_char_vmap` gives the value 0 to
characters that are no hexadecimal digits, so that the decoder takes an escape with any two
characters `0x01..0x7F` behind the `%` (`Escape.Loose`); it is one of the text only when both are
digits (`Escape.Strict`). The last section says what becomes of the characters behind a `%`.
-/

namespace F1Goal

/-! ### Units -/

/-- A hexadecimal digit, in either case. -/
def IsHexDigit (c : UInt8) : Prop := 48 ≤ c ∧ c ≤ 57 ∨ 97 ≤ c ∧ c ≤ 102 ∨ 65 ≤ c ∧ c ≤ 70

instance (c : UInt8) : Decidable (IsHexDigit c) := inferInstanceAs (Decidable (_ ∨ _ ∨ _))

/-- The value of a hexadecimal digit, and 0 for other characters. -/
def hexValue (c : UInt8) : ℕ :=
  if 48 ≤ c ∧ c ≤ 57 then c.toNat - 48
  else if 97 ≤ c ∧ c ≤ 102 then c.toNat - 87
  else if 65 ≤ c ∧ c ≤ 70 then c.toNat - 55
  else 0

/-- A `%` and the two characters behind it. -/
structure Escape where
  d1 : UInt8
  d2 : UInt8
  deriving DecidableEq

namespace Escape

def text (e : Escape) : List UInt8 := [0x25, e.d1, e.d2]

/-- The byte with these digits. -/
def byte (e : Escape) : UInt8 := .ofNat (16 * hexValue e.d1 + hexValue e.d2)

/-- Both characters are digits. -/
def Strict (e : Escape) : Prop := IsHexDigit e.d1 ∧ IsHexDigit e.d2

instance (e : Escape) : Decidable e.Strict := inferInstanceAs (Decidable (_ ∧ _))

/-- Both characters pass for digits. -/
def Loose (e : Escape) : Prop := (0 < e.d1 ∧ e.d1 < 128) ∧ 0 < e.d2 ∧ e.d2 < 128

end Escape

/-- A byte that stands for itself, or an escaped byte and those that follow it. -/
inductive EscUnit
  | literal (b : UInt8)
  | escaped (lead : Escape) (trail : List Escape)

namespace EscUnit

def text : EscUnit → List UInt8
  | .literal b => [b]
  | .escaped lead trail => lead.text ++ trail.flatMap Escape.text

/-- What the unit is decoded to. -/
def bytes : EscUnit → List UInt8
  | .literal b => [b]
  | .escaped lead trail => lead.byte :: trail.map Escape.byte

def escapes : EscUnit → List Escape
  | .literal _ => []
  | .escaped lead trail => lead :: trail

end EscUnit

/-- How many bytes follow a first byte of UTF-8, in its long form up to six bytes. -/
def announced (b : UInt8) : Option ℕ :=
  if b < 0x80 then some 0
  else if b < 0xC0 then none
  else if b < 0xE0 then some 1
  else if b < 0xF0 then some 2
  else if b < 0xF8 then some 3
  else if b < 0xFC then some 4
  else if b < 0xFE then some 5
  else none

/-- How many bytes follow a first byte. -/
def trailing : CodeType → UInt8 → Option ℕ
  | .utf8, b => announced b
  | .gbk, b => some (if b < 0x80 then 0 else 1)
  | _, _ => none

/-- The pair is in one of the ranges GBK/1 to GBK/5. -/
def InGbk (b0 b1 : UInt8) : Prop :=
  gbk1Chk b0 b1 ∨ gbk2Chk b0 b1 ∨ gbk3Chk b0 b1 ∨ gbk4Chk b0 b1 ∨ gbk5Chk b0 b1

/-- The unit has the bytes that its first byte calls for. -/
def EscUnit.Framed (codeType : CodeType) : EscUnit → Prop
  | .literal b => b < 0x80 ∧ b ≠ 0x25
  | .escaped lead trail =>
    trailing codeType lead.byte = some trail.length ∧
      (codeType = .gbk → ∀ e ∈ trail, InGbk lead.byte e.byte)

/-- A unit of a text: all its escapes have hexadecimal digits. -/
def EscUnit.Strict (codeType : CodeType) (u : EscUnit) : Prop :=
  u.Framed codeType ∧ ∀ e ∈ u.escapes, e.Strict

/-- A unit that the decoder takes. -/
def EscUnit.Loose (codeType : CodeType) (u : EscUnit) : Prop :=
  u.Framed codeType ∧ ∀ e ∈ u.escapes, e.Loose

/-- The table is read behind its end, by the first of these characters or, when that one passes for
a digit, by the second. -/
def BesideTable (d1 d2 : UInt8) : Prop := 128 ≤ d1 ∨ 0 < d1 ∧ 128 ≤ d2

/-- The text starts with a unit that is long enough and cannot be read, because behind `escapes` an
escape has characters beside the table. -/
def BadFront (codeType : CodeType) (s : List UInt8) : Prop :=
  ∃ (d1 d2 : UInt8) (rest : List UInt8), BesideTable d1 d2 ∧
    (s = 0x25 :: d1 :: d2 :: rest ∨
      ∃ (lead : Escape) (trail : List Escape) (n : ℕ),
        lead.Loose ∧ (∀ e ∈ trail, e.Loose) ∧ trailing codeType lead.byte = some n ∧
          trail.length < n ∧ 3 * n ≤ 3 * trail.length + 3 + rest.length ∧
            s = lead.text ++ trail.flatMap Escape.text ++ 0x25 :: d1 :: d2 :: rest)

theorem Escape.Strict.loose {e : Escape} (h : e.Strict) : e.Loose := by
  obtain ⟨h1, h2⟩ := h
  have hdigit {c : UInt8} (hc : IsHexDigit c) : 0 < c ∧ c < 128 := by
    simp only [IsHexDigit, UInt8.le_iff_toNat_le, UInt8.lt_iff_toNat_lt] at hc ⊢
    simp only [UInt8.reduceToNat] at hc ⊢
    omega
  exact ⟨hdigit h1, hdigit h2⟩

theorem EscUnit.Strict.loose {codeType : CodeType} {u : EscUnit} (h : u.Strict codeType) :
    u.Loose codeType :=
  ⟨h.1, fun e he => (h.2 e he).loose⟩

theorem length_flatMap_text (es : List Escape) :
    (es.flatMap Escape.text).length = 3 * es.length := by
  induction es with
  | nil => rfl
  | cons e es ih =>
    rw [List.flatMap_cons, List.length_append, ih, List.length_cons, Escape.text]
    simp only [List.length_cons, List.length_nil]
    omega

/-! ### Reading digits -/

/-- `hex_char_vmap` holds -1 for the character 0 only. -/
theorem hexCharVmap_eq (i : Fin 128) :
    hexCharVmap i = if i = 0 then -1 else (hexValue (.ofNat i) : ℤ) := by
  revert i
  decide +kernel

theorem hexVal_of_pos {c : UInt8} (h : 0 < c ∧ c < 128) : hexVal c = .ok (hexValue c : ℤ) := by
  obtain ⟨hpos, hlt⟩ := h
  rw [UInt8.lt_iff_toNat_lt] at hpos hlt
  have hlt : c.toNat < 128 := hlt
  have hne : (⟨c.toNat, hlt⟩ : Fin 128) ≠ 0 := by
    intro h0
    have h0 := congrArg Fin.val h0
    have hpos : 0 < c.toNat := hpos
    simp only [Fin.val_zero] at h0
    omega
  rw [hexVal, dif_pos hlt, hexCharVmap_eq, if_neg hne]
  simp

theorem hexVal_zero : hexVal 0 = .ok (-1) := by
  decide +kernel

theorem hexVal_beside {c : UInt8} (h : 128 ≤ c) : hexVal c = .error .oob := by
  have h : 128 ≤ c.toNat := h
  rw [hexVal, dif_neg (by omega)]

theorem hexValue_lt (c : UInt8) : hexValue c < 16 := by
  unfold hexValue
  simp only [UInt8.le_iff_toNat_le, UInt8.reduceToNat]
  split_ifs <;> omega

theorem shift_or {a b : ℕ} (hb : b < 16) : a <<< 4 ||| b = 16 * a + b := by
  rw [Nat.shiftLeft_eq, Nat.mul_comm, show 16 = 2 ^ 4 from rfl,
    Nat.two_pow_add_eq_or_of_lt (by simpa using hb)]

theorem digit_cases (c : UInt8) : c = 0 ∨ 128 ≤ c ∨ 0 < c ∧ c < 128 := by
  simp only [← UInt8.toNat_inj, UInt8.le_iff_toNat_le, UInt8.lt_iff_toNat_lt, UInt8.reduceToNat]
  omega

theorem hexByte_cons (bad : ConvStop) (d1 d2 : UInt8) (rest : List UInt8) :
    hexByte bad (d1 :: d2 :: rest) = (hexVal d1).bind fun v0 =>
      if v0 = -1 then .error bad
      else (hexVal d2).bind fun v1 =>
        if v1 = -1 then .error bad else .ok (.ofNat (v0.toNat <<< 4 ||| v1.toNat)) :=
  rfl

/-- Two characters that pass for digits. -/
theorem hexByte_of_loose (bad : ConvStop) {e : Escape} (h : e.Loose) (rest : List UInt8) :
    hexByte bad (e.d1 :: e.d2 :: rest) = .ok e.byte := by
  have hne (c : UInt8) : (hexValue c : ℤ) ≠ -1 := by omega
  rw [hexByte_cons, hexVal_of_pos h.1, hexVal_of_pos h.2, Escape.byte]
  simp only [Except.bind, if_neg (hne _), Int.toNat_natCast, shift_or (hexValue_lt _)]

theorem hexByte_of_beside (bad : ConvStop) {d1 d2 : UInt8} (h : BesideTable d1 d2)
    (rest : List UInt8) : hexByte bad (d1 :: d2 :: rest) = .error .oob := by
  have hne (c : UInt8) : (hexValue c : ℤ) ≠ -1 := by omega
  rw [hexByte_cons]
  rcases h with h1 | ⟨h0, h2⟩
  · rw [hexVal_beside h1]
    rfl
  · rcases digit_cases d1 with rfl | h1 | h1
    · exact absurd h0 (by decide)
    · rw [hexVal_beside h1]
      rfl
    · simp only [hexVal_of_pos h1, hexVal_beside h2, Except.bind, if_neg (hne _)]

/-- Two characters that do not both pass for digits: the first that does not is beside the table,
or is 0. -/
theorem hexByte_of_not_loose (bad : ConvStop) {d1 d2 : UInt8} (h : ¬ (⟨d1, d2⟩ : Escape).Loose)
    (rest : List UInt8) :
    BesideTable d1 d2 ∨ hexByte bad (d1 :: d2 :: rest) = .error bad := by
  have hne (c : UInt8) : (hexValue c : ℤ) ≠ -1 := by omega
  rw [hexByte_cons]
  rcases digit_cases d1 with rfl | h1 | h1
  · right
    simp [hexVal_zero, Except.bind]
  · exact .inl (.inl h1)
  · rcases digit_cases d2 with rfl | h2 | h2
    · right
      simp only [hexVal_of_pos h1, hexVal_zero, Except.bind, if_neg (hne _)]
      simp
    · exact .inl (.inr ⟨h1.1, h2⟩)
    · exact absurd ⟨h1, h2⟩ h

end F1Goal
