import F1Goal.LangCode
import F1Goal.LangUnicode

/-!
# The capacity of the buffers (`f1g_lang_code.c`)

Each of the three routines brings the capacity of its buffer in `*data_size` or `*data_len`. Only
`utf8_to_unicode` looks at it before it stores; `str_decode` overwrites it with 0, and
`unicode_to_utf8` uses it to clear the buffer. So these two stay inside of the buffer exactly when
all that they have to store fits (`capacity_respected_iff`).
-/

namespace F1Goal

/-- The stores of a routine, one element behind the other from the start of the buffer, are inside
of a buffer of `capacity` elements. -/
def StoredInside {α : Type} (capacity : ℕ) (stored : List α) : Prop :=
  ∀ i < stored.length, i < capacity

theorem storedInside_iff {α : Type} {capacity : ℕ} {stored : List α} :
    StoredInside capacity stored ↔ stored.length ≤ capacity := by
  constructor
  · intro h
    by_contra hlong
    exact lt_irrefl _ (h capacity (not_le.1 hlong))
  · exact fun hle i hi => hi.trans_le hle

/-- How many bytes a text stands for, up to an escape that is broken or cut off: one for each
escape, and one for each other character that is no hexadecimal digit. -/
def unitCount : List UInt8 → ℕ
  | [] => 0
  | c :: s =>
    if c = urlEscChar then
      match s with
      | x :: y :: t => if IsHexDigit x ∧ IsHexDigit y then unitCount t + 1 else 0
      | _ => 0
    else if IsHexDigit c then unitCount s
    else unitCount s + 1

/-! ### `str_decode` -/

theorem unitCount_letter {c : UInt8} (hc : c ≠ urlEscChar) (s : List UInt8) :
    unitCount (c :: s) = if IsHexDigit c then unitCount s else unitCount s + 1 := by
  match s with
  | [] => simp [unitCount, hc]
  | [_] => simp [unitCount, hc]
  | _ :: _ :: _ => rw [unitCount, if_neg hc]

/-- **What `str_decode` stores**: a byte for each unit, whether it succeeds or not. -/
theorem strDecodeLoop_length (v : UInt8) (out s : List UInt8) :
    (strDecodeLoop (.plain v out) s).2.pBuf.length = out.length + unitCount s := by
  induction s using Percent.front_induction urlEscChar hexDigit generalizing v out with
  | nil => rfl
  | letter c s hc ih =>
    rw [unitCount_letter hc]
    cases hd : hexDigit c with
    | none =>
      rw [if_neg (hexDigit_eq_none.1 hd), strDecodeLoop_letter v out s hc hd, ih,
        List.length_append, List.length_singleton]
      omega
    | some a =>
      rw [if_pos (hexDigit_eq_some.1 hd).1, strDecodeLoop_digit v out s hc hd, ih]
  | escape x y a b s hx hy ih =>
    rw [unitCount, if_pos rfl, if_pos ⟨(hexDigit_eq_some.1 hx).1, (hexDigit_eq_some.1 hy).1⟩,
      strDecodeLoop_escape v out s hx hy, ih, List.length_append, List.length_singleton]
    omega
  | first x s hx =>
    rw [strDecodeLoop_esc, strDecodeLoop, strDecodeStep_open rfl hx]
    cases s with
    | nil => rfl
    | cons y s => simp [unitCount, hexDigit_eq_none.1 hx, StrDecode.plain]
  | second x a y s hx hy =>
    rw [strDecodeLoop_escDigit v out _ hx, strDecodeLoop, strDecodeStep_open rfl hy]
    simp [unitCount, hexDigit_eq_none.1 hy, StrDecode.plain]
  | cut => rfl
  | cutDigit x a hx =>
    rw [strDecodeLoop_escDigit v out _ hx]
    rfl

theorem strDecode_inside_iff (s : List UInt8) (dataSize : ℕ) :
    StoredInside dataSize (strDecode s).pBuf ↔ unitCount s ≤ dataSize := by
  rw [storedInside_iff, (strDecode_eq s).2.1, strDecodeLoop_length, List.length_nil, Nat.zero_add]

/-! ### `unicode_to_utf8` and `utf8_to_unicode` -/

theorem unicodeToUtf8_utf8 (cs : List UInt16) :
    (unicodeToUtf8 cs).utf8 = cs.flatMap fun d => (Utf8.encode d).reverse := by
  rcases List.eq_nil_or_concat' cs with rfl | ⟨ds, c, rfl⟩
  · rfl
  · rw [unicodeToUtf8, unicodeToUtf8Loop_concat, List.nil_append]

theorem unicodeToUtf8_inside_iff (cs : List UInt16) (dataLen : ℕ) :
    StoredInside dataLen (unicodeToUtf8 cs).utf8 ↔ (cs.flatMap Utf8.encode).length ≤ dataLen := by
  rw [storedInside_iff, unicodeToUtf8_utf8, List.length_flatMap, List.length_flatMap]
  simp only [List.length_reverse]

/-- The loop stores no more codes than there is room for. -/
theorem utf8ToUnicodeLoop_length_le (room : ℕ) (unic : List UInt16) (utf8 : List UInt8) :
    (utf8ToUnicodeLoop room unic utf8).unic.length ≤ unic.length + room := by
  induction room generalizing unic utf8 with
  | zero => exact le_rfl
  | succ room ih =>
    cases utf8 with
    | nil => exact Nat.le_add_right _ _
    | cons b utf8 =>
      rw [utf8ToUnicodeLoop]
      split
      · exact Nat.le_add_right _ _
      · refine (ih _ _).trans_eq ?_
        rw [List.length_append, List.length_singleton]
        omega

theorem utf8ToUnicode_inside (utf8 : List UInt8) (dataLen : ℕ) :
    StoredInside dataLen (utf8ToUnicode utf8 dataLen).unic := by
  have hle := utf8ToUnicodeLoop_length_le dataLen [] utf8
  rw [List.length_nil, Nat.zero_add] at hle
  exact storedInside_iff.2 hle

/-! ### The three routines -/

/-- **The routines respect the buffers** of `dataSize` bytes for the text `s`, of `dataLen` bytes
for the codes `cs` and of `unicLen` codes for the text `utf8`: no store is outside of one. -/
structure CapacityRespected (s : List UInt8) (dataSize : ℕ) (cs : List UInt16) (dataLen : ℕ)
    (utf8 : List UInt8) (unicLen : ℕ) : Prop where
  strDecode : StoredInside dataSize (strDecode s).pBuf
  unicodeToUtf8 : StoredInside dataLen (unicodeToUtf8 cs).utf8
  utf8ToUnicode : StoredInside unicLen (utf8ToUnicode utf8 unicLen).unic

/-- **When the buffers are respected**: the text stands for no more bytes than `str_decode` has room
for, and the UTF-8 form of the codes is no longer than the buffer of `unicode_to_utf8`. -/
theorem capacity_respected_iff (s : List UInt8) (dataSize : ℕ) (cs : List UInt16) (dataLen : ℕ)
    (utf8 : List UInt8) (unicLen : ℕ) :
    CapacityRespected s dataSize cs dataLen utf8 unicLen ↔
      unitCount s ≤ dataSize ∧ (cs.flatMap Utf8.encode).length ≤ dataLen := by
  constructor
  · exact fun h => ⟨(strDecode_inside_iff s dataSize).1 h.strDecode,
      (unicodeToUtf8_inside_iff cs dataLen).1 h.unicodeToUtf8⟩
  · rintro ⟨hs, hcs⟩
    exact ⟨(strDecode_inside_iff s dataSize).2 hs, (unicodeToUtf8_inside_iff cs dataLen).2 hcs,
      utf8ToUnicode_inside utf8 unicLen⟩

/-- A letter for a buffer of no bytes, in `str_decode` and in `unicode_to_utf8`. -/
theorem letter_behind_buffer :
    ¬StoredInside 0 (strDecode [0x7A]).pBuf ∧ ¬StoredInside 0 (unicodeToUtf8 [0x41]).utf8 := by
  rw [strDecode_inside_iff, unicodeToUtf8_inside_iff]
  decide

end F1Goal
