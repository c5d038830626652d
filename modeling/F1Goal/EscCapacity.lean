import F1Goal.EscReading

/-!
# Escaped texts and the capacity of `d_arr` (`str_esc_decode`)

The decoders look at the room before they put a unit, and put the terminating zero without looking.
So a decoding that fills `d_arr` to the last byte writes the zero behind it, and two characters
behind a `%` are looked up wherever they are in the table (`escDecode_inside_iff`). And the UTF-8
decoder returns 0 where the array is full and the text goes on (`noSilentTruncation_iff`).
-/

namespace F1Goal

open Framing

/-- The units fit one after the other into `size` bytes. -/
def UnitsFit (codeType : CodeType) (size : ℕ) (us : List EscUnit) : Prop :=
  FitInTurn EscUnit.bytes (EscUnit.FitsAt codeType size) 0 us

theorem length_le_of_fitInTurn {codeType : CodeType} {size n : ℕ} {us : List EscUnit}
    (hn : n ≤ size) (h : FitInTurn EscUnit.bytes (EscUnit.FitsAt codeType size) n us) :
    n + (us.flatMap EscUnit.bytes).length ≤ size := by
  induction us generalizing n with
  | nil => exact hn
  | cons u us ih =>
    rw [List.flatMap_cons, List.length_append, ← Nat.add_assoc]
    exact ih h.1.1 h.2

theorem UnitsFit.length_le {codeType : CodeType} {size : ℕ} {us : List EscUnit}
    (h : UnitsFit codeType size us) : (us.flatMap EscUnit.bytes).length ≤ size := by
  have hle := length_le_of_fitInTurn (Nat.zero_le _) h
  rwa [Nat.zero_add] at hle

theorem EscUnit.text_ne_nil (u : EscUnit) : u.text ≠ [] := by
  rcases u with b | ⟨lead, trail⟩ <;> exact fun h => (by cases h)

theorem EscUnit.bytes_ne_nil (u : EscUnit) : u.bytes ≠ [] := by
  rcases u with b | ⟨lead, trail⟩ <;> exact fun h => (by cases h)

/-! ### Where a decoding leaves an array -/

/-- The decoding goes wrong behind `num` bytes: there is no place for the terminating zero, or an
escape is beside the table. -/
def GoesOutside (codeType : CodeType) (size num : ℕ) (rest : List UInt8) : Prop :=
  rest = [] ∧ size ≤ num ∨ BadAt codeType size num rest

/-- The text is made of units that fit, and of a rest with which the decoding goes wrong. -/
def LeavesArray (codeType : CodeType) (size : ℕ) (str : List UInt8) : Prop :=
  ∃ (us : List EscUnit) (rest : List UInt8), (∀ u ∈ us, u.Loose codeType) ∧
    UnitsFit codeType size us ∧ GoesOutside codeType size (us.flatMap EscUnit.bytes).length rest ∧
      str = us.flatMap EscUnit.text ++ rest

section Decoder

variable {codeType : CodeType} {size : ℕ}

theorem escLoop_nil_full (hct : codeType = .utf8 ∨ codeType = .gbk) {out : List UInt8}
    (h : size ≤ out.length) : escLoop codeType size [] out = .error .oob := by
  have hstore : storeAt size out.length 0 = .error .oob := if_neg (not_lt.2 h)
  rcases hct with rfl | rfl
  · change utf8StrLoop size [] out = _
    rw [utf8StrLoop, hstore]
    rfl
  · change gbkStrLoop size [] out = _
    rw [gbkStrLoop, Transcode.loop_nil, Except.bind, hstore]
    rfl

theorem takesFitting_oob (hct : codeType = .utf8 ∨ codeType = .gbk) (size : ℕ) :
    TakesFitting (escLoop codeType size) EscUnit.text EscUnit.bytes (EscUnit.Loose codeType)
      (EscUnit.FitsAt codeType size) (GoesOutside codeType size) (· = .error .oob) where
  unit hu hfits := escLoop_unit hct hu hfits
  stop := by
    rintro s out (⟨rfl, hfull⟩ | hbad)
    · exact escLoop_nil_full hct hfull
    · exact escLoop_bad hct hbad
  front s out := by
    by_cases hs : s = []
    · subst hs
      rcases lt_or_ge out.length size with hroom | hfull
      · exact .inr (.inr (by rw [escLoop_nil hct hroom]; exact fun h => (by cases h)))
      · exact .inr (.inl (.inl ⟨rfl, hfull⟩))
    rcases @escLoop_front codeType size hct s hs out with
      hunit | hbad | ⟨rfl, hearly⟩ | ⟨e, hne, herr⟩
    · exact .inl hunit
    · exact .inr (.inl (.inr hbad))
    · refine .inr (.inr fun h => ?_)
      rw [show escLoop .utf8 size s out = _ from utf8StrLoop_early hearly] at h
      cases h
    · refine .inr (.inr fun h => ?_)
      rw [herr] at h
      cases h
      exact hne rfl
  text_ne_nil _ := EscUnit.text_ne_nil _

theorem strEscDecode_eq_oob_iff (hct : codeType = .utf8 ∨ codeType = .gbk) (str : List UInt8) :
    strEscDecode str codeType size = .error .oob ↔ LeavesArray codeType size str := by
  have h : escLoop codeType size str [] = .error .oob ↔ _ := (takesFitting_oob hct size).iff
  simp only [List.length_nil, Nat.zero_add] at h
  rw [strEscDecode_eq, h]
  rfl

/-- **When escape decoding stays in its arrays**: unless the text is made of units that fill the
array to the last byte, or of units that fit and, behind them, an escape beside the table. -/
theorem escDecode_inside_iff (hct : codeType = .utf8 ∨ codeType = .gbk) (str : List UInt8)
    (size : ℕ) : strEscDecode str codeType size ≠ .error .oob ↔ ¬LeavesArray codeType size str :=
  not_congr (strEscDecode_eq_oob_iff hct str)

/-- A letter in an array of two bytes. -/
theorem escDecode_inside_letter :
    strEscDecode [0x61] .utf8 2 ≠ .error .oob ↔ ¬LeavesArray .utf8 2 [0x61] :=
  escDecode_inside_iff (.inl rfl) _ _

/-- A letter fills an array of one byte, and the zero is put behind it. -/
theorem escDecode_outside_letter :
    ¬∀ (codeType : CodeType), codeType = .utf8 ∨ codeType = .gbk →
      ∀ (str : List UInt8) (size : ℕ), 1 ≤ size → strEscDecode str codeType size ≠ .error .oob := by
  intro h
  exact absurd (show strEscDecode [0x61] .utf8 1 = .error .oob by decide +kernel)
    (h .utf8 (.inl rfl) [0x61] 1 le_rfl)

/-! ### Where a decoding is cut off -/

/-- The text is decoded to these bytes when there is room for them. -/
def Decoding (codeType : CodeType) (str out : List UInt8) : Prop :=
  ∃ us : List EscUnit, (∀ u ∈ us, u.Loose codeType) ∧ str = us.flatMap EscUnit.text ∧
    out = us.flatMap EscUnit.bytes

/-- What a call leaves: success with the bytes in `d_arr`, or why it stopped, and the value of
`*d_len`, which is set by a call that succeeds. -/
structure EscCall where
  res : Except ConvStop (List UInt8)
  dLen : ℕ

def EscCall.of (dLen : ℕ) : Except ConvStop Decoded → EscCall
  | .ok d => ⟨.ok d.dArr, d.dLen⟩
  | .error e => ⟨.error e, dLen⟩

/-- `str_esc_decode` with the value that it leaves in `*d_len`. -/
def escCall (str : List UInt8) (codeType : CodeType) (dLen : ℕ) : EscCall :=
  .of dLen (strEscDecode str codeType dLen)

/-- **No silent truncation**: a call that returns 0 has decoded the whole text, and one that has not
enough room returns another code and leaves `*d_len` as it was. -/
structure NoSilentTruncation (str : List UInt8) (codeType : CodeType) (size : ℕ) : Prop where
  ok : ∀ arr, (escCall str codeType size).res = .ok arr → ∃ out, Decoding codeType str out ∧
    (escCall str codeType size).dLen = out.length ∧
      arr.take (escCall str codeType size).dLen = out
  short : ∀ out, Decoding codeType str out → size < out.length →
    (∃ e, e ≠ .oob ∧ (escCall str codeType size).res = .error e) ∧
      (escCall str codeType size).dLen = size

/-- The text is made of units that fill the array, and goes on with a first byte. -/
def CutShort (size : ℕ) (str : List UInt8) : Prop :=
  ∃ (us : List EscUnit) (rest : List UInt8), (∀ u ∈ us, u.Loose .utf8) ∧ UnitsFit .utf8 size us ∧
    ReturnsEarly size (us.flatMap EscUnit.bytes).length rest ∧ str = us.flatMap EscUnit.text ++ rest

theorem takesFitting_ok (hct : codeType = .utf8 ∨ codeType = .gbk) (size : ℕ) :
    TakesFitting (escLoop codeType size) EscUnit.text EscUnit.bytes (EscUnit.Loose codeType)
      (EscUnit.FitsAt codeType size)
      (fun num s => s = [] ∧ num < size ∨ codeType = .utf8 ∧ ReturnsEarly size num s)
      (fun r => ∃ d, r = .ok d) where
  unit hu hfits := escLoop_unit hct hu hfits
  stop := by
    rintro s out (⟨rfl, hroom⟩ | ⟨rfl, hearly⟩)
    · exact ⟨_, escLoop_nil hct hroom⟩
    · exact ⟨_, utf8StrLoop_early hearly⟩
  front s out := by
    by_cases hs : s = []
    · subst hs
      rcases lt_or_ge out.length size with hroom | hfull
      · exact .inr (.inl (.inl ⟨rfl, hroom⟩))
      · refine .inr (.inr ?_)
        rw [escLoop_nil_full hct hfull]
        rintro ⟨d, ⟨⟩⟩
    rcases @escLoop_front codeType size hct s hs out with hunit | hbad | hearly | ⟨e, -, herr⟩
    · exact .inl hunit
    · refine .inr (.inr ?_)
      rw [escLoop_bad hct hbad]
      rintro ⟨d, ⟨⟩⟩
    · exact .inr (.inl (.inr hearly))
    · refine .inr (.inr ?_)
      rw [herr]
      rintro ⟨d, ⟨⟩⟩
  text_ne_nil _ := EscUnit.text_ne_nil _

/-- Units that fit are decoded, and then the rest behind them. -/
theorem strEscDecode_units_append (hct : codeType = .utf8 ∨ codeType = .gbk) {us : List EscUnit}
    (hus : ∀ u ∈ us, u.Loose codeType) (hfit : UnitsFit codeType size us) (rest : List UInt8) :
    strEscDecode (us.flatMap EscUnit.text ++ rest) codeType size =
      escLoop codeType size rest (us.flatMap EscUnit.bytes) := by
  have hread : escLoop codeType size (us.flatMap EscUnit.text ++ rest) [] = _ :=
    (takesFitting_ok hct size).units hus hfit
  rw [strEscDecode_eq, hread, List.nil_append]

/-- A decoding is what the decoder puts into an array that is longer than the text. -/
theorem Decoding.ample (hct : codeType = .utf8 ∨ codeType = .gbk) {str out : List UInt8}
    (h : Decoding codeType str out) (hsize : str.length < size) :
    strEscDecode str codeType size = .ok ⟨out.length, out⟩ := by
  obtain ⟨us, hus, rfl, rfl⟩ := h
  have hle := (takesUnits hct size).length_flatMap_le hus
  have hread : escLoop codeType size (us.flatMap EscUnit.text ++ []) [] = _ :=
    (takesUnits hct size).units hus (by rw [List.length_nil]; omega)
  rw [List.append_nil, List.nil_append, escLoop_nil hct (by omega)] at hread
  rw [strEscDecode_eq, hread]

/-- A text has one decoding. -/
theorem Decoding.unique (hct : codeType = .utf8 ∨ codeType = .gbk) {str out out' : List UInt8}
    (h : Decoding codeType str out) (h' : Decoding codeType str out') : out' = out := by
  have heq := (h'.ample hct (Nat.lt_succ_self _)).symm.trans (h.ample hct (Nat.lt_succ_self _))
  rw [Except.ok.injEq, Decoded.mk.injEq] at heq
  exact heq.2

/-- A decoding that succeeds has consumed the text, or has returned early. -/
theorem strEscDecode_ok_cases (hct : codeType = .utf8 ∨ codeType = .gbk) {str : List UInt8}
    {d : Decoded} (h : strEscDecode str codeType size = .ok d) :
    (∃ out, Decoding codeType str out ∧ out.length ≤ size ∧ d = ⟨out.length, out⟩) ∨
      codeType = .utf8 ∧ CutShort size str := by
  have hiff : (∃ d, escLoop codeType size str [] = .ok d) ↔ _ := (takesFitting_ok hct size).iff
  rw [strEscDecode_eq] at h
  obtain ⟨us, rest, hus, hfit, hstop, hstr⟩ := hiff.1 ⟨d, h⟩
  rw [List.length_nil, Nat.zero_add] at hstop
  rcases hstop with ⟨rfl, hroom⟩ | ⟨rfl, hearly⟩
  · left
    rw [List.append_nil] at hstr
    refine ⟨_, ⟨us, hus, hstr, rfl⟩, hroom.le, ?_⟩
    have hread := strEscDecode_units_append hct hus hfit []
    rw [List.append_nil, ← hstr, strEscDecode_eq, h, escLoop_nil hct hroom] at hread
    exact Except.ok.inj hread
  · exact .inr ⟨rfl, us, rest, hus, hfit, hearly, hstr⟩

/-- A text that has a decoding has no escape beside the table. -/
theorem Decoding.not_stopsAt (hct : codeType = .utf8 ∨ codeType = .gbk) {str out : List UInt8}
    (h : Decoding codeType str out) :
    ¬StopsAt EscUnit.text (EscUnit.Loose codeType) (BadFront codeType) str := by
  intro hstop
  have hroom : ([] : List UInt8).length + str.length < str.length + 1 := by
    rw [List.length_nil]
    omega
  have herr := (takesUnits hct (str.length + 1)).stop_of_stopsAt hroom hstop
  rw [← strEscDecode_eq, h.ample hct (Nat.lt_succ_self _)] at herr
  cases herr

/-- Without room for its bytes a text is refused, when it is not cut short. -/
theorem Decoding.refused (hct : codeType = .utf8 ∨ codeType = .gbk) {str out : List UInt8}
    (h : Decoding codeType str out) (hsize : size < out.length)
    (hcut : ¬(codeType = .utf8 ∧ CutShort size str)) :
    ∃ e, e ≠ .oob ∧ strEscDecode str codeType size = .error e := by
  cases hres : strEscDecode str codeType size with
  | ok d =>
    rcases strEscDecode_ok_cases hct hres with ⟨out', hout', hle, -⟩ | hret
    · rw [h.unique hct hout'] at hle
      omega
    · exact absurd hret hcut
  | error e =>
    refine ⟨e, ?_, rfl⟩
    rintro rfl
    obtain ⟨us, rest, hus, hfit, ⟨rfl, -⟩ | hbad, hstr⟩ := (strEscDecode_eq_oob_iff hct str).1 hres
    · -- the bytes would fit
      rw [List.append_nil] at hstr
      have hle := hfit.length_le
      rw [h.unique hct ⟨us, hus, hstr, rfl⟩] at hle
      omega
    · exact h.not_stopsAt hct ⟨us, rest, hus, hbad.badFront, hstr⟩

theorem ReturnsEarly.ne_nil {num : ℕ} {rest : List UInt8} (h : ReturnsEarly size num rest) :
    rest ≠ [] := by
  obtain ⟨-, _, ⟨b, -, -, rfl⟩ | ⟨lead, n, -, -, rfl⟩⟩ := h <;> exact fun h => (by cases h)

/-- A text that is cut short has no decoding into the bytes that have been put. -/
theorem CutShort.silent {str : List UInt8} (h : CutShort size str) :
    ¬NoSilentTruncation str .utf8 size := by
  obtain ⟨us, rest, hus, hfit, hearly, rfl⟩ := h
  have hlen : (us.flatMap EscUnit.bytes).length = size := le_antisymm hfit.length_le hearly.1
  have hres : strEscDecode (us.flatMap EscUnit.text ++ rest) .utf8 size =
      .ok ⟨size, us.flatMap EscUnit.bytes⟩ := by
    rw [strEscDecode_units_append (.inl rfl) hus hfit]
    exact utf8StrLoop_early hearly
  intro hno
  obtain ⟨out, hdec, -, htake⟩ := hno.ok (us.flatMap EscUnit.bytes) (by rw [escCall, hres]; rfl)
  rw [escCall, hres, EscCall.of, List.take_of_length_le hlen.le] at htake
  -- with room enough the rest would be decoded to nothing
  have hample := hdec.ample (.inl rfl) (Nat.lt_succ_self _)
  have hN := takesUnits (.inl rfl : CodeType.utf8 = .utf8 ∨ CodeType.utf8 = .gbk)
    (us.flatMap EscUnit.text ++ rest).length.succ
  have hle := hN.length_flatMap_le hus
  have hread : escLoop .utf8 _ (us.flatMap EscUnit.text ++ rest) [] = _ := hN.units hus (by
    rw [List.length_nil, List.length_append]
    omega)
  rw [← strEscDecode_eq, hample, List.nil_append] at hread
  obtain ⟨us', hus', hrest⟩ := (hN.ok_iff (by rw [List.length_append]; omega)).1 ⟨_, hread.symm⟩
  have hboth : Decoding .utf8 (us.flatMap EscUnit.text ++ rest)
      (us.flatMap EscUnit.bytes ++ us'.flatMap EscUnit.bytes) := by
    refine ⟨us ++ us', List.forall_mem_append.2 ⟨hus, hus'⟩, ?_, ?_⟩
    · rw [List.flatMap_append, hrest]
    · rw [List.flatMap_append]
  have hnil := hdec.unique (.inl rfl) hboth
  rw [← htake] at hnil
  have hnil := List.append_cancel_left (hnil.trans (List.append_nil _).symm)
  cases us' with
  | nil => exact hearly.ne_nil hrest
  | cons u us' =>
    rw [List.flatMap_cons, List.append_eq_nil_iff] at hnil
    exact u.bytes_ne_nil hnil.1

end Decoder

/-- **Where decoding is not silently cut off**: a call keeps to it unless the text is UTF-8, its
units fill the array to the last byte, and it goes on. -/
theorem noSilentTruncation_iff (str : List UInt8) (codeType : CodeType) (size : ℕ) :
    NoSilentTruncation str codeType size ↔ ¬(codeType = .utf8 ∧ CutShort size str) := by
  constructor
  · rintro h ⟨rfl, hcut⟩
    exact hcut.silent h
  intro hcut
  by_cases hct : codeType = .utf8 ∨ codeType = .gbk
  · refine ⟨fun arr harr => ?_, fun out hout hsize => ?_⟩
    · cases hres : strEscDecode str codeType size with
      | ok d =>
        rcases strEscDecode_ok_cases hct hres with ⟨out, hout, -, rfl⟩ | hret
        · rw [escCall, hres] at harr ⊢
          cases harr
          exact ⟨out, hout, rfl, List.take_length⟩
        · exact absurd hret hcut
      | error e =>
        rw [escCall, hres] at harr
        cases harr
    · obtain ⟨e, hne, he⟩ := hout.refused hct hsize hcut
      rw [escCall, he]
      exact ⟨⟨e, hne, rfl⟩, rfl⟩
  · -- the call returns -1
    have hres : strEscDecode str codeType size = .error (.neg 1) := by
      cases codeType with
      | utf8 => exact absurd (.inl rfl) hct
      | gbk => exact absurd (.inr rfl) hct
      | unknown => rfl
      | unicode => rfl
    refine ⟨fun arr harr => ?_, fun out _ _ => ?_⟩
    · rw [escCall, hres] at harr
      cases harr
    · rw [escCall, hres]
      exact ⟨⟨.neg 1, by simp, rfl⟩, rfl⟩

/-- Two letters in an array of one byte: the second is dropped, and 0 returned. -/
theorem letter_dropped :
    ¬∀ (str : List UInt8) (codeType : CodeType) (size : ℕ),
      NoSilentTruncation str codeType size := by
  intro h
  have hres : strEscDecode [0x61, 0x62] .utf8 1 = .ok ⟨1, [0x61]⟩ := by decide +kernel
  have hdec : Decoding .utf8 [0x61, 0x62] [0x61, 0x62] :=
    ⟨[.literal 0x61, .literal 0x62], by simp [EscUnit.Loose, EscUnit.Framed, EscUnit.escapes],
      rfl, rfl⟩
  obtain ⟨⟨e, -, he⟩, -⟩ := (h [0x61, 0x62] .utf8 1).short _ hdec (by decide)
  rw [escCall, hres] at he
  cases he

end F1Goal
