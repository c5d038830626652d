import F1Goal.EscReading
import F1Goal.Lib.Mem

/-!
# Escaped texts are decoded, malformed ones refused

`strEscDecode_units`: the text of a list of units is decoded to their bytes.
`malformed_refused_iff`: a malformed text is refused exactly when it is not made of units whose
escapes merely pass for digits, and has no escape beside the table behind such units.
-/

namespace F1Goal

open Framing

/-- `d_arr` after the call, when it held `arr`: the bytes put, and the zero that both loops put
behind them where they set `*d_len`. The other `return 0` is taken when the array is full. -/
def Decoded.array (d : Decoded) (size : ℕ) (arr : ℤ → UInt8) : ℤ → UInt8 :=
  Mem.store arr 0 (if d.dArr.length < size then d.dArr ++ [0] else d.dArr)

/-- **Percent-decoding inverts percent-encoding**: the text of a list of units is decoded to their
bytes, with a zero behind them, in every array that is longer than the bytes. -/
theorem strEscDecode_units {codeType : CodeType} (hct : codeType = .utf8 ∨ codeType = .gbk)
    {units : List EscUnit} (hunits : ∀ u ∈ units, u.Strict codeType) {size : ℕ}
    (hsize : (units.flatMap EscUnit.bytes).length < size) (arr : ℤ → UInt8) :
    ∃ d, strEscDecode (units.flatMap EscUnit.text) codeType size = .ok d ∧
      d.dLen = (units.flatMap EscUnit.bytes).length ∧
        Mem.slice (d.array size arr) 0 ((units.flatMap EscUnit.bytes).length + 1) =
          units.flatMap EscUnit.bytes ++ [0] := by
  have hroom : ([] : List UInt8).length + (units.flatMap EscUnit.bytes).length < size := by
    simpa using hsize
  have hread : escLoop codeType size (units.flatMap EscUnit.text ++ []) [] = _ :=
    (takesUnits hct size).units (fun u hu => (hunits u hu).loose) hroom
  rw [List.append_nil, List.nil_append, escLoop_nil hct hsize] at hread
  refine ⟨_, (strEscDecode_eq _ _ _).trans hread, rfl, ?_⟩
  rw [Decoded.array, if_pos hsize]
  have hslice := Mem.slice_store_self arr 0 (units.flatMap EscUnit.bytes ++ [0])
  rwa [List.length_append] at hslice

/-- `a%20%E4%bD%a0` -/
theorem strEscDecode_units_ni :
    ∃ d, strEscDecode [0x61, 0x25, 0x32, 0x30, 0x25, 0x45, 0x34, 0x25, 0x62, 0x44, 0x25, 0x61, 0x30]
        .utf8 6 = .ok d ∧
      d.dLen = 5 ∧ Mem.slice (d.array 6 fun _ => 7) 0 6 = [0x61, 0x20, 0xE4, 0xBD, 0xA0] ++ [0] := by
  have hunits : ∀ u ∈ [EscUnit.literal 0x61, .escaped ⟨0x32, 0x30⟩ [],
      .escaped ⟨0x45, 0x34⟩ [⟨0x62, 0x44⟩, ⟨0x61, 0x30⟩]], u.Strict .utf8 := by
    simp [EscUnit.Strict, EscUnit.Framed, EscUnit.escapes]
    decide
  exact strEscDecode_units (.inl rfl) hunits (by decide) _

/-! ### Malformed texts -/

/-- Two hexadecimal digits stand at the front. -/
def StartsWithDigits (s : List UInt8) : Prop :=
  ∃ (d1 d2 : UInt8) (rest : List UInt8), IsHexDigit d1 ∧ IsHexDigit d2 ∧ s = d1 :: d2 :: rest

/-- **Malformed texts.** For CT_GBK, `units` are the characters in front of the escaped byte. -/
inductive Malformed (codeType : CodeType) (str : List UInt8) : Prop
  | digits (before rest : List UInt8) (hstr : str = before ++ 0x25 :: rest)
      (hrest : ¬ StartsWithDigits rest)
  | utf8 (before : List UInt8) (lead : Escape) (rest : List UInt8) (n : ℕ)
      (hct : codeType = .utf8) (hstr : str = before ++ lead.text ++ rest) (hlead : lead.Strict)
      (hn : announced lead.byte = some n)
      (hrest : ¬ ∃ (trail : List Escape) (rest' : List UInt8), trail.length = n ∧
        (∀ e ∈ trail, e.Strict ∧ 0x80 ≤ e.byte ∧ e.byte < 0xC0) ∧
          rest = trail.flatMap Escape.text ++ rest')
  | gbk (units : List EscUnit) (lead : Escape) (rest : List UInt8) (hct : codeType = .gbk)
      (hunits : ∀ u ∈ units, u.Strict .gbk ∨ ∃ b, u = .literal b ∧ b ≠ 0x25)
      (hstr : str = units.flatMap EscUnit.text ++ lead.text ++ rest) (hlead : lead.Strict)
      (hhigh : 0x80 ≤ lead.byte)
      (hrest : ¬ ∃ (e : Escape) (rest' : List UInt8), e.Strict ∧ InGbk lead.byte e.byte ∧
        rest = e.text ++ rest')

/-- The call returns a code other than 0. -/
def Refused (str : List UInt8) (codeType : CodeType) (size : ℕ) : Prop :=
  ∃ e, e ≠ .oob ∧ strEscDecode str codeType size = .error e

/-- A malformed text is refused. -/
def RefusesMalformed (str : List UInt8) (codeType : CodeType) (size : ℕ) : Prop :=
  Malformed codeType str → Refused str codeType size

theorem refused_iff {codeType : CodeType} (hct : codeType = .utf8 ∨ codeType = .gbk)
    {str : List UInt8} {size : ℕ} (hroom : str.length < size) :
    Refused str codeType size ↔
      ¬ Splits EscUnit.text (EscUnit.Loose codeType) str ∧
        ¬ StopsAt EscUnit.text (EscUnit.Loose codeType) (BadFront codeType) str := by
  have hroom' : ([] : List UInt8).length + str.length < size := by simpa using hroom
  rw [← (takesUnits hct size).ok_iff hroom', ← (takesUnits hct size).stop_iff hroom', Refused,
    strEscDecode_eq]
  cases escLoop codeType size str [] with
  | ok d => simp
  | error e => simp

/-- **Which malformed texts are refused**: exactly those that are not made of units whose escapes
pass for digits, and have no escape beside the table behind such units. -/
theorem malformed_refused_iff {codeType : CodeType} (hct : codeType = .utf8 ∨ codeType = .gbk)
    {str : List UInt8} {size : ℕ} (hroom : str.length < size) :
    RefusesMalformed str codeType size ↔
      (Malformed codeType str → ¬ Splits EscUnit.text (EscUnit.Loose codeType) str ∧
        ¬ StopsAt EscUnit.text (EscUnit.Loose codeType) (BadFront codeType) str) := by
  rw [RefusesMalformed, refused_iff hct hroom]

/-- `%4` -/
theorem malformed_refused_cut :
    RefusesMalformed [0x25, 0x34] .utf8 8 ↔
      (Malformed .utf8 [0x25, 0x34] → ¬ Splits EscUnit.text (EscUnit.Loose .utf8) [0x25, 0x34] ∧
        ¬ StopsAt EscUnit.text (EscUnit.Loose .utf8) (BadFront .utf8) [0x25, 0x34]) :=
  malformed_refused_iff (.inl rfl) (by decide)

/-- `%zz` is decoded to a zero. -/
theorem not_refusesMalformed_zz :
    Malformed .utf8 [0x25, 0x7A, 0x7A] ∧
      strEscDecode [0x25, 0x7A, 0x7A] .utf8 8 = .ok ⟨1, [0]⟩ ∧
        ¬ RefusesMalformed [0x25, 0x7A, 0x7A] .utf8 8 := by
  have hmal : Malformed .utf8 [0x25, 0x7A, 0x7A] := by
    refine .digits [] [0x7A, 0x7A] rfl ?_
    rintro ⟨d1, d2, rest, h1, -, hs⟩
    cases hs
    exact absurd h1 (by decide)
  have hdec : strEscDecode [0x25, 0x7A, 0x7A] .utf8 8 = .ok ⟨1, [0]⟩ := by decide +kernel
  refine ⟨hmal, hdec, fun h => ?_⟩
  obtain ⟨e, -, he⟩ := h hmal
  rw [hdec] at he
  cases he

end F1Goal
