import F1Goal.EscText
import F1Goal.Lib.CString
import F1Goal.Lib.Percent

/-!
# Escapes in a request (`str_decode` of `f1g_lang_code.c`)

`str_decode` goes through a text with three flags: whether a `%` is open, and which of its digits
have been seen. Digits outside of an escape are left out, and an escape that the end of the text
cuts off is no error: `strDecode_right_iff` says for which texts the result is the text with its
escapes decoded. The capacity that `*data_size` brings is not looked at.
-/

namespace F1Goal

open CString

/-! ### The digits -/

/-- `sg_hex_chars` -/
def sgHexChars : List UInt8 := ascii "0123456789abcdefABCDEF"

/-- `_init_hex_array` -/
def initHexArray (hexArray : ℕ → UInt8) (base : ℕ) (chars : List UInt8) : ℕ → UInt8 :=
  chars.zipIdx.foldl (fun m p => Function.update m p.1.toNat (.ofNat (base + p.2))) hexArray

/-- `sg_hex_array` after `lang_code_init`. Its initializer `{0xFF}` sets the first entry only. -/
def sgHexArray : ℕ → UInt8 :=
  initHexArray
    (initHexArray (fun i => if i = 0 then 0xFF else 0) 0 (sgHexChars.take 16))
    10 (sgHexChars.drop 16)

/-- The cases `'0'` … `'F'` of the switch. -/
def isHexCase (c : UInt8) : Bool := c ∈ ascii "0123456789abcdefABCDEF"

/-- `URL_ESC_CHAR` -/
def urlEscChar : UInt8 := 0x25

/-! ### The loop -/

/-- The variables of `str_decode`; `pBuf` are the bytes stored so far, and `data_len` is their
number. -/
structure StrDecode where
  escFlag : Bool
  validHexFst : Bool
  validHexSec : Bool
  value : UInt8
  pBuf : List UInt8

/-- The turn of the loop for the character `c`; `none` is `F1G_ERR`. -/
def strDecodeStep (st : StrDecode) (c : UInt8) : Option StrDecode :=
  if c = urlEscChar then
    if st.escFlag then none else some { st with escFlag := true }
  else if isHexCase c then
    if st.escFlag then
      if !st.validHexFst then
        some { st with value := sgHexArray c.toNat, validHexFst := true }
      else if !st.validHexSec then
        let value := st.value <<< 4 ||| sgHexArray c.toNat
        some { st with
          value := value, pBuf := st.pBuf ++ [value], validHexFst := false, escFlag := false }
      else some st
    else some st
  else if st.escFlag then none
  else some { st with pBuf := st.pBuf ++ [c] }

/-- The loop over the text. -/
def strDecodeLoop (st : StrDecode) : List UInt8 → Code × StrDecode
  | [] => (.ok, st)
  | c :: s =>
    match strDecodeStep st c with
    | none => (.err, st)
    | some st => strDecodeLoop st s

/-- What `str_decode` leaves: the bytes in `p_buf`, and `*data_size`. -/
structure StrDecoded where
  code : Code
  pBuf : List UInt8
  dataSize : ℕ

/-- The end of `str_decode`: `*data_size` has been set to 0 at its start. -/
def strDecodeEnd : Code × StrDecode → StrDecoded
  | (.ok, st) => { code := .ok, pBuf := st.pBuf, dataSize := st.pBuf.length }
  | (.err, st) => { code := .err, pBuf := st.pBuf, dataSize := 0 }

/-- `str_decode` -/
def strDecode (pStr : List UInt8) : StrDecoded :=
  strDecodeEnd (strDecodeLoop
    { escFlag := false, validHexFst := false, validHexSec := false, value := 0, pBuf := [] } pStr)

/-! ### Percent decoding -/

/-- The value of a hexadecimal digit. -/
def hexDigit (c : UInt8) : Option ℕ := if IsHexDigit c then some (hexValue c) else none

/-- The byte with these digits. -/
def hexJoin (a b : ℕ) : UInt8 := .ofNat (16 * a + b)

/-- Every `%` is followed by two hexadecimal digits. -/
def EscapesOk (s : List UInt8) : Prop := Percent.Escaped urlEscChar hexDigit s

/-- The text with each `%` and its two digits replaced by the byte they denote. -/
def percentDecode (s : List UInt8) : List UInt8 := Percent.decode urlEscChar hexDigit hexJoin s

/-- **`str_decode` is percent decoding** of this text: it succeeds exactly when the escapes are
complete, and then gives the text decoded, and its length. -/
def DecodesRight (s : List UInt8) : Prop :=
  ((strDecode s).code = .ok ↔ EscapesOk s) ∧
    (EscapesOk s → (strDecode s).pBuf = percentDecode s ∧
      (strDecode s).dataSize = (percentDecode s).length)

/-- **The condition on a text**: behind some `%`, and at most one hexadecimal digit, stands a
character that is no such digit; or every `%` is followed by two hexadecimal digits, and all such
digits of the text are among these. -/
def DecodeOk (s : List UInt8) : Prop :=
  Percent.Broken urlEscChar hexDigit s ∨
    EscapesOk s ∧ Percent.NoLooseDigit urlEscChar hexDigit s

/-! ### The digits are those of the table -/

theorem isHexCase_iff (c : UInt8) : isHexCase c = true ↔ IsHexDigit c := by
  have hall : ∀ n < 256, isHexCase (.ofNat n) = true ↔ IsHexDigit (.ofNat n) := by
    decide +kernel
  have h := hall c.toNat c.toNat_lt
  rwa [UInt8.ofNat_toNat] at h

/-- The byte of two digits is put together from the table. -/
theorem sgHexArray_join {x y : UInt8} (hx : IsHexDigit x) (hy : IsHexDigit y) :
    sgHexArray x.toNat <<< 4 ||| sgHexArray y.toNat = hexJoin (hexValue x) (hexValue y) := by
  have hall : ∀ n < 256, IsHexDigit (.ofNat n) →
      hexValue (.ofNat n) < 16 ∧ sgHexArray n = .ofNat (hexValue (.ofNat n)) := by
    decide +kernel
  have hjoin : ∀ a < 16, ∀ b < 16, (UInt8.ofNat a) <<< 4 ||| UInt8.ofNat b = hexJoin a b := by
    decide
  have hxv := hall x.toNat x.toNat_lt
  have hyv := hall y.toNat y.toNat_lt
  rw [UInt8.ofNat_toNat] at hxv hyv
  obtain ⟨hxlt, hxval⟩ := hxv hx
  obtain ⟨hylt, hyval⟩ := hyv hy
  rw [hxval, hyval, hjoin _ hxlt _ hylt]

/-! ### The loop from the start of a unit -/

/-- No escape is open, and these bytes have been stored. -/
def StrDecode.plain (value : UInt8) (pBuf : List UInt8) : StrDecode :=
  { escFlag := false, validHexFst := false, validHexSec := false, value := value, pBuf := pBuf }

theorem hexDigit_eq_some {c : UInt8} {a : ℕ} :
    hexDigit c = some a ↔ IsHexDigit c ∧ hexValue c = a := by
  unfold hexDigit
  split_ifs with h <;> simp [h]

theorem hexDigit_eq_none {c : UInt8} : hexDigit c = none ↔ ¬ IsHexDigit c := by
  unfold hexDigit
  split_ifs with h <;> simp [h]

theorem hexDigit_esc : hexDigit urlEscChar = none := by decide

theorem isHexCase_eq_true {c : UInt8} {a : ℕ} (h : hexDigit c = some a) : isHexCase c = true :=
  (isHexCase_iff c).2 (hexDigit_eq_some.1 h).1

theorem isHexCase_eq_false {c : UInt8} (h : hexDigit c = none) : isHexCase c = false :=
  Bool.eq_false_iff.2 fun hcase => hexDigit_eq_none.1 h ((isHexCase_iff c).1 hcase)

variable (v : UInt8) (out s : List UInt8)

theorem strDecodeLoop_letter {c : UInt8} (hc : c ≠ urlEscChar) (h : hexDigit c = none) :
    strDecodeLoop (.plain v out) (c :: s) = strDecodeLoop (.plain v (out ++ [c])) s := by
  rw [strDecodeLoop, strDecodeStep, if_neg hc, isHexCase_eq_false h]
  rfl

/-- A digit outside of an escape is left out. -/
theorem strDecodeLoop_digit {c : UInt8} {a : ℕ} (hc : c ≠ urlEscChar) (h : hexDigit c = some a) :
    strDecodeLoop (.plain v out) (c :: s) = strDecodeLoop (.plain v out) s := by
  rw [strDecodeLoop, strDecodeStep, if_neg hc, isHexCase_eq_true h]
  rfl

/-- The loop behind a `%`. -/
theorem strDecodeLoop_esc :
    strDecodeLoop (.plain v out) (urlEscChar :: s) =
      strDecodeLoop { StrDecode.plain v out with escFlag := true } s := by
  rw [strDecodeLoop, strDecodeStep, if_pos rfl]
  rfl

/-- The loop behind a `%` and a digit. -/
theorem strDecodeLoop_escDigit {x : UInt8} {a : ℕ} (hx : hexDigit x = some a) :
    strDecodeLoop (.plain v out) (urlEscChar :: x :: s) =
      strDecodeLoop { StrDecode.plain (sgHexArray x.toNat) out with
        escFlag := true, validHexFst := true } s := by
  rw [strDecodeLoop_esc, strDecodeLoop, strDecodeStep, if_neg (Percent.ne_esc hexDigit_esc hx),
    isHexCase_eq_true hx]
  rfl

theorem strDecodeLoop_escape {x y : UInt8} {a b : ℕ} (hx : hexDigit x = some a)
    (hy : hexDigit y = some b) :
    strDecodeLoop (.plain v out) (urlEscChar :: x :: y :: s) =
      strDecodeLoop (.plain (hexJoin a b) (out ++ [hexJoin a b])) s := by
  obtain ⟨hxd, hxv⟩ := hexDigit_eq_some.1 hx
  obtain ⟨hyd, hyv⟩ := hexDigit_eq_some.1 hy
  rw [strDecodeLoop_escDigit v out _ hx, strDecodeLoop, strDecodeStep,
    if_neg (Percent.ne_esc hexDigit_esc hy), isHexCase_eq_true hy]
  simp only [StrDecode.plain, if_true, Bool.not_false, Bool.not_true, Bool.false_eq_true, if_false]
  rw [sgHexArray_join hxd hyd, hxv, hyv]

/-- In an open escape, a character that is no digit is an error. -/
theorem strDecodeStep_open {st : StrDecode} (hopen : st.escFlag = true) {c : UInt8}
    (h : hexDigit c = none) : strDecodeStep st c = none := by
  rw [strDecodeStep, hopen, isHexCase_eq_false h]
  by_cases hc : c = urlEscChar
  · rw [if_pos hc]
    rfl
  · rw [if_neg hc]
    rfl

theorem strDecodeLoop_first {x : UInt8} (hx : hexDigit x = none) :
    (strDecodeLoop (.plain v out) (urlEscChar :: x :: s)).1 = .err := by
  rw [strDecodeLoop_esc, strDecodeLoop, strDecodeStep_open rfl hx]

theorem strDecodeLoop_second {x y : UInt8} {a : ℕ} (hx : hexDigit x = some a)
    (hy : hexDigit y = none) :
    (strDecodeLoop (.plain v out) (urlEscChar :: x :: y :: s)).1 = .err := by
  rw [strDecodeLoop_escDigit v out _ hx, strDecodeLoop, strDecodeStep_open rfl hy]

/-! ### What the loop gives -/

/-- **The loop fails at a broken escape only.** -/
theorem strDecodeLoop_ok_iff :
    (strDecodeLoop (.plain v out) s).1 = .ok ↔ ¬ Percent.Broken urlEscChar hexDigit s := by
  induction s using Percent.front_induction urlEscChar hexDigit
    generalizing v out with
  | nil => exact iff_of_true rfl (by rintro ⟨i, c, hi, -⟩; cases hi)
  | letter c s hc ih =>
    rw [Percent.broken_cons hc]
    cases h : hexDigit c with
    | none => rw [strDecodeLoop_letter v out s hc h, ih]
    | some a => rw [strDecodeLoop_digit v out s hc h, ih]
  | escape x y a b s hx hy ih =>
    rw [Percent.broken_escape hexDigit_esc hx hy, strDecodeLoop_escape v out s hx hy, ih]
  | first x s hx =>
    rw [strDecodeLoop_first v out s hx]
    exact iff_of_false (fun h => by cases h) (not_not.2 (Percent.broken_first hx))
  | second x a y s hx hy =>
    rw [strDecodeLoop_second v out s hx hy]
    exact iff_of_false (fun h => by cases h) (not_not.2 (Percent.broken_second hx hy))
  | cut => exact iff_of_true (by rw [strDecodeLoop_esc]; rfl) Percent.not_broken_cut
  | cutDigit x a hx =>
    exact iff_of_true (by rw [strDecodeLoop_escDigit v out _ hx]; rfl)
      (Percent.not_broken_cutDigit hexDigit_esc hx)

/-- **The bytes stored** are no more than those of the text decoded, and they are the same exactly
when no digit is left out. -/
theorem strDecodeLoop_pBuf (h : EscapesOk s) :
    ∃ t, (strDecodeLoop (.plain v out) s).2.pBuf = out ++ t ∧
      t.length ≤ (percentDecode s).length ∧
        (t = percentDecode s ↔ Percent.NoLooseDigit urlEscChar hexDigit s) := by
  induction s using Percent.front_induction urlEscChar hexDigit
    generalizing v out with
  | nil =>
    refine ⟨[], (List.append_nil out).symm, le_rfl, iff_of_true rfl fun i a hi => ?_⟩
    cases hi
  | letter c s hc ih =>
    have hdecode : percentDecode (c :: s) = c :: percentDecode s := Percent.decode_cons s hc
    have hescaped : EscapesOk s := (Percent.escaped_cons hc).1 h
    rw [hdecode, Percent.noLooseDigit_cons hc, List.length_cons]
    cases hd : hexDigit c with
    | none =>
      obtain ⟨t, hbuf, hlen, hiff⟩ := ih v (out ++ [c]) hescaped
      refine ⟨c :: t, ?_, Nat.succ_le_succ hlen, ?_⟩
      · rw [strDecodeLoop_letter v out s hc hd, hbuf, List.append_assoc]
        rfl
      · rw [List.cons_inj_right, hiff, and_iff_right rfl]
    | some a =>
      obtain ⟨t, hbuf, hlen, -⟩ := ih v out hescaped
      refine ⟨t, by rw [strDecodeLoop_digit v out s hc hd, hbuf], Nat.le_succ_of_le hlen, ?_⟩
      refine iff_of_false (fun heq => ?_) fun hnone => by cases hnone.1
      rw [heq, List.length_cons] at hlen
      omega
  | escape x y a b s hx hy ih =>
    have hdecode : percentDecode (urlEscChar :: x :: y :: s) = hexJoin a b :: percentDecode s :=
      Percent.decode_escape hx hy
    have hescaped : EscapesOk s := (Percent.escaped_escape hexDigit_esc hx hy).1 h
    obtain ⟨t, hbuf, hlen, hiff⟩ := ih (hexJoin a b) (out ++ [hexJoin a b]) hescaped
    rw [hdecode, Percent.noLooseDigit_escape hexDigit_esc hx hy, List.length_cons]
    refine ⟨hexJoin a b :: t, ?_, Nat.succ_le_succ hlen, by rw [List.cons_inj_right, hiff]⟩
    rw [strDecodeLoop_escape v out s hx hy, hbuf, List.append_assoc]
    rfl
  | first x s hx => exact absurd (Percent.broken_first hx) h.not_broken
  | second x a y s hx hy => exact absurd (Percent.broken_second hx hy) h.not_broken
  | cut =>
    obtain ⟨x, y, t, a, b, hnil, -⟩ := h.front
    cases hnil
  | cutDigit x a hx =>
    obtain ⟨x', y, t, a, b, hone, -⟩ := h.front
    cases hone

/-- What `str_decode` leaves, in terms of its loop. -/
theorem strDecode_eq (s : List UInt8) :
    (strDecode s).code = (strDecodeLoop (.plain 0 []) s).1 ∧
      (strDecode s).pBuf = (strDecodeLoop (.plain 0 []) s).2.pBuf ∧
        ((strDecode s).code = .ok → (strDecode s).dataSize = (strDecode s).pBuf.length) := by
  have hdef : strDecode s = strDecodeEnd (strDecodeLoop (.plain 0 []) s) := rfl
  rw [hdef]
  rcases strDecodeLoop (.plain 0 []) s with ⟨code, st⟩
  cases code with
  | ok => exact ⟨rfl, rfl, fun _ => rfl⟩
  | err => exact ⟨rfl, rfl, fun h => by cases h⟩

/-- **`str_decode` is percent decoding** of exactly those texts in which an escape is broken, or all
escapes are complete and no digit stands outside of them. -/
theorem strDecode_right_iff (s : List UInt8) : DecodesRight s ↔ DecodeOk s := by
  obtain ⟨hcode, hbuf, hsize⟩ := strDecode_eq s
  have hok : (strDecode s).code = .ok ↔ ¬ Percent.Broken urlEscChar hexDigit s := by
    rw [hcode, strDecodeLoop_ok_iff]
  constructor
  · rintro ⟨hiff, hdecoded⟩
    by_cases hbroken : Percent.Broken urlEscChar hexDigit s
    · exact .inl hbroken
    · have hescaped := hiff.1 (hok.2 hbroken)
      obtain ⟨t, ht, -, hloose⟩ := strDecodeLoop_pBuf 0 [] s hescaped
      refine .inr ⟨hescaped, hloose.1 ?_⟩
      rw [← (hdecoded hescaped).1, hbuf, ht, List.nil_append]
  · rintro (hbroken | ⟨hescaped, hloose⟩)
    · have hnot : ¬ EscapesOk s := fun hescaped => hescaped.not_broken hbroken
      exact ⟨iff_of_false (fun h => hok.1 h hbroken) hnot, fun hescaped => absurd hescaped hnot⟩
    · have hcode := hok.2 hescaped.not_broken
      obtain ⟨t, ht, -, hiff⟩ := strDecodeLoop_pBuf 0 [] s hescaped
      have hdecoded : (strDecode s).pBuf = percentDecode s := by
        rw [hbuf, ht, List.nil_append, hiff.2 hloose]
      exact ⟨iff_of_true hcode hescaped, fun _ => ⟨hdecoded, by rw [hsize hcode, hdecoded]⟩⟩

/-- **Digits outside of an escape are lost**, and an escape that is cut off is no error: `a1` gives
nothing, and `%4` is decoded to nothing with success. -/
theorem digits_lost :
    EscapesOk (ascii "a1") ∧ (strDecode (ascii "a1")).pBuf = [] ∧ ¬ DecodesRight (ascii "a1") ∧
      ¬ EscapesOk (ascii "%4") ∧ (strDecode (ascii "%4")).code = .ok ∧
        ¬ DecodesRight (ascii "%4") := by
  have hplain : EscapesOk (ascii "a1") := by
    rw [show ascii "a1" = [97, 49] from rfl, EscapesOk, Percent.escaped_cons (by decide),
      Percent.escaped_cons (by decide)]
    rintro i hi
    cases hi
  have hcut : ¬ EscapesOk (ascii "%4") := by
    intro h
    obtain ⟨x, y, t, a, b, hone, -⟩ := Percent.Escaped.front h
    cases hone
  have hok : (strDecode (ascii "%4")).code = .ok := rfl
  refine ⟨hplain, rfl, fun h => ?_, hcut, hok, fun h => hcut (h.1.1 hok)⟩
  exact absurd (h.2 hplain).1 (by decide)

end F1Goal
