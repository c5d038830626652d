import F1Goal.CharsetUtf8

/-!
# 16-bit codes and UTF-8 (`unicode_to_utf8` and `utf8_to_unicode` of `f1g_lang_code.c`)

The library has a second pair of conversions beside the ones of `charset_code.c`. Its encoder puts
the bytes of a character in the reverse order and reports the length of the last character only, so
it agrees with `ucs2_to_utf8` on at most one character of one byte (`encodersAgree_iff`). In its
decoder `==` binds closer than `&`, so that no test of a first byte holds: it decodes the empty text
only (`decodesUtf8_iff`).
-/

namespace F1Goal

/-! ### `unicode_to_utf8` -/

/-- The bytes that `unicode_to_utf8` stores for the code `*p_cur`, in the order of the stores;
`none` is `F1G_ERR`. Their number goes to `*data_len`. -/
def unicodePut (cur : UInt16) : Option (List UInt8) :=
  let val : UInt32 := 0 ||| cur.toUInt32
  if cur ≥ 0x0000 ∧ cur ≤ 0x007F then
    some [val.toUInt8]
  else if cur ≥ 0x0080 ∧ cur ≤ 0x07FF then
    some [(val &&& 0x3F ||| 0x80).toUInt8, ((val >>> 6) &&& 0x1F ||| 0xC0).toUInt8]
  else if cur ≥ 0x0800 ∧ cur ≤ 0xFFFF then
    some [(val &&& 0x3F ||| 0x80).toUInt8, ((val >>> 6) &&& 0x3F ||| 0x80).toUInt8,
      ((val >>> 12) &&& 0x1F ||| 0xE0).toUInt8]
  else none

/-- What `unicode_to_utf8` leaves: the bytes stored in `p_utf8_buf`, from its start on, and
`*data_len`. -/
structure UnicodeToUtf8 where
  code : Code
  utf8 : List UInt8
  dataLen : ℕ
  deriving DecidableEq

/-- The loop of `unicode_to_utf8`, from what it has stored so far and the length it has set. -/
def unicodeToUtf8Loop (utf8 : List UInt8) (dataLen : ℕ) : List UInt16 → UnicodeToUtf8
  | [] => { code := .ok, utf8 := utf8, dataLen := dataLen }
  | cur :: unic =>
    match unicodePut cur with
    | none => { code := .err, utf8 := utf8, dataLen := dataLen }
    | some bytes => unicodeToUtf8Loop (utf8 ++ bytes) bytes.length unic

/-- `unicode_to_utf8`. The size of the buffer, which `*data_len` brings, is used to clear it before
the loop; the loop does not look at it. -/
def unicodeToUtf8 (unic : List UInt16) : UnicodeToUtf8 := unicodeToUtf8Loop [] 0 unic

/-- The byte with the low `n` bits of `x` below the marker `p`. -/
theorem toUInt8_field {x f m : UInt32} {v n p : ℕ} (hx : x.toNat = v) (hf : f.toNat = 2 ^ n - 1)
    (hm : m.toNat = p <<< n) : (x &&& f ||| m).toUInt8 = .ofNat (p * 2 ^ n + v % 2 ^ n) := by
  apply UInt8.toNat_inj.1
  rw [UInt32.toNat_toUInt8, UInt8.toNat_ofNat', UInt32.toNat_or, UInt32.toNat_and, hf, hm, hx,
    Nat.and_two_pow_sub_one_eq_mod, Nat.or_comm, shiftLeft_or_eq (Nat.mod_lt _ (Nat.two_pow_pos n))]

theorem toNat_code_shift (c : UInt16) {i : UInt32} (hi : i.toNat < 32) :
    (c.toUInt32 >>> i).toNat = c.toNat / 2 ^ i.toNat := by
  rw [UInt32.toNat_shiftRight, Nat.mod_eq_of_lt hi, Nat.shiftRight_eq_div_pow,
    UInt16.toNat_toUInt32]

/-- A code is stored as its UTF-8 form from the last byte to the first. -/
theorem unicodePut_eq (c : UInt16) : unicodePut c = some (Utf8.encode c).reverse := by
  have hc := c.toNat_lt
  have hval : (0 ||| c.toUInt32 : UInt32) = c.toUInt32 := by simp
  have hnat : c.toUInt32.toNat = c.toNat := UInt16.toNat_toUInt32 c
  have hlow : (c.toUInt32 &&& 0x3F ||| 0x80).toUInt8 = .ofNat (0x80 + c.toNat % 64) :=
    toUInt8_field (n := 6) (p := 2) hnat rfl rfl
  have h6 : (c.toUInt32 >>> 6).toNat = c.toNat / 2 ^ 6 := toNat_code_shift c (by decide)
  have h12 : (c.toUInt32 >>> 12).toNat = c.toNat / 2 ^ 12 := toNat_code_shift c (by decide)
  unfold unicodePut Utf8.encode
  simp only [hval, hlow]
  by_cases h1 : c.toNat < 0x80
  · have hle : c ≤ 0x007F := UInt16.le_iff_toNat_le.2 (Nat.le_of_lt_succ h1)
    rw [if_pos ⟨UInt16.zero_le, hle⟩, if_pos h1]
    simp
  by_cases h2 : c.toNat < 0x800
  · have hgt : ¬c ≤ 0x007F := fun h => h1 (Nat.lt_succ_of_le (UInt16.le_iff_toNat_le.1 h))
    have hge : c ≥ 0x0080 := UInt16.le_iff_toNat_le.2 (not_lt.1 h1)
    have hle : c ≤ 0x07FF := UInt16.le_iff_toNat_le.2 (Nat.le_of_lt_succ h2)
    rw [if_neg fun h => hgt h.2, if_pos ⟨hge, hle⟩, if_neg h1, if_pos h2,
      toUInt8_field (n := 5) (p := 6) h6 rfl rfl,
      Nat.mod_eq_of_lt (by omega : c.toNat / 2 ^ 6 < 2 ^ 5)]
    rfl
  · have hgt1 : ¬c ≤ 0x007F := fun h => h1 (Nat.lt_succ_of_le (UInt16.le_iff_toNat_le.1 h))
    have hgt2 : ¬c ≤ 0x07FF := fun h => h2 (Nat.lt_succ_of_le (UInt16.le_iff_toNat_le.1 h))
    have hge : c ≥ 0x0800 := UInt16.le_iff_toNat_le.2 (not_lt.1 h2)
    have hle : c ≤ 0xFFFF := UInt16.le_iff_toNat_le.2 (Nat.le_of_lt_succ hc)
    rw [if_neg fun h => hgt1 h.2, if_neg fun h => hgt2 h.2, if_pos ⟨hge, hle⟩, if_neg h1, if_neg h2,
      toUInt8_field (n := 6) (p := 2) h6 rfl rfl, toUInt8_field (n := 5) (p := 7) h12 rfl rfl,
      Nat.mod_eq_of_lt (by omega : c.toNat / 2 ^ 12 < 2 ^ 5)]
    rfl

/-- The length that is reported is the one of the last character. -/
theorem unicodeToUtf8Loop_concat (utf8 : List UInt8) (dataLen : ℕ) (cs : List UInt16) (c : UInt16) :
    unicodeToUtf8Loop utf8 dataLen (cs ++ [c]) =
      { code := .ok
        utf8 := utf8 ++ (cs ++ [c]).flatMap fun d => (Utf8.encode d).reverse
        dataLen := (Utf8.encode c).length } := by
  induction cs generalizing utf8 dataLen with
  | nil => simp [unicodeToUtf8Loop, unicodePut_eq]
  | cons d cs ih =>
    rw [List.cons_append, unicodeToUtf8Loop, unicodePut_eq]
    simp only [ih, List.flatMap_cons, List.append_assoc]

/-! ### The two encoders -/

/-- **The two encoders agree** on the codes `cs`: with ample room, `ucs2_to_utf8` succeeds on their
big-endian form, and `unicode_to_utf8` stores the same bytes and reports their number. -/
def EncodersAgree (cs : List UInt16) : Prop :=
  ∀ size, 3 * cs.length < size →
    ∃ out, ucs2ToUtf8 (cs.flatMap code16) size = .ok out ∧
      unicodeToUtf8 cs = { code := .ok, utf8 := out, dataLen := out.length }

theorem length_encode_pos (c : UInt16) : 0 < (Utf8.encode c).length := by
  unfold Utf8.encode
  split_ifs <;> simp

/-- Numbers below 256 that are the same byte. -/
theorem eq_of_ofNat_eq {a b : ℕ} (ha : a < 256) (hb : b < 256)
    (h : UInt8.ofNat a = UInt8.ofNat b) : a = b := by
  have hnat := congrArg UInt8.toNat h
  rwa [UInt8.toNat_ofNat', UInt8.toNat_ofNat', Nat.mod_eq_of_lt ha, Nat.mod_eq_of_lt hb] at hnat

/-- The first byte of a longer form is no continuation byte, so the form is not its own reverse. -/
theorem reverse_encode_iff (c : UInt16) :
    (Utf8.encode c).reverse = Utf8.encode c ↔ c.toNat < 0x80 := by
  have hc := c.toNat_lt
  by_cases h1 : c.toNat < 0x80
  · simp [Utf8.encode, h1]
  · refine iff_of_false (fun h => ?_) h1
    rw [Utf8.encode, if_neg h1] at h
    by_cases h2 : c.toNat < 0x800
    · rw [if_pos h2] at h
      have hfst := eq_of_ofNat_eq (by omega) (by omega) (List.cons.inj h).1
      omega
    · rw [if_neg h2] at h
      have hfst := eq_of_ofNat_eq (by omega) (by omega) (List.cons.inj h).1
      omega

/-- **The two encoders agree** exactly on the empty text and on one character of one byte. -/
theorem encodersAgree_iff (cs : List UInt16) :
    EncodersAgree cs ↔ cs = [] ∨ ∃ c : UInt16, cs = [c] ∧ c.toNat < 0x80 := by
  rcases List.eq_nil_or_concat' cs with rfl | ⟨ds, c, rfl⟩
  · refine iff_of_true (fun size hsize => ⟨[], ?_, rfl⟩) (.inl rfl)
    exact @ucs2ToUtf8_code16 [] size hsize
  constructor
  · intro h
    obtain ⟨out, hout, hput⟩ := h _ (Nat.lt_succ_self _)
    have hlen := length_flatMap_encode_le (ds ++ [c])
    rw [ucs2ToUtf8_code16 (by omega)] at hout
    cases hout
    rw [unicodeToUtf8, unicodeToUtf8Loop_concat] at hput
    have hbytes := congrArg UnicodeToUtf8.utf8 hput
    have hnum := congrArg UnicodeToUtf8.dataLen hput
    -- the length of the last character leaves none for the ones before
    have hds : ds = [] := by
      rcases ds with _ | ⟨d, ds⟩
      · rfl
      · have hd := length_encode_pos d
        simp only [List.cons_append, List.flatMap_cons, List.flatMap_append, List.flatMap_nil,
          List.length_append, List.length_nil] at hnum
        omega
    subst hds
    have hrev : (Utf8.encode c).reverse = Utf8.encode c := by simpa using hbytes
    exact .inr ⟨c, rfl, (reverse_encode_iff c).1 hrev⟩
  · rintro (h | ⟨d, hd, hlt⟩) size hsize
    · simp at h
    · rw [hd] at hsize ⊢
      have hlen := length_flatMap_encode_le [d]
      refine ⟨_, ucs2ToUtf8_code16 (by omega), ?_⟩
      have hloop := unicodeToUtf8Loop_concat [] 0 [] d
      simp only [List.nil_append, List.flatMap_singleton, (reverse_encode_iff d).2 hlt] at hloop
      rw [unicodeToUtf8, hloop, List.flatMap_singleton]

/-- Two letters: the length that is reported is 1. -/
theorem two_letters_disagree : ¬EncodersAgree [0x41, 0x42] := by
  intro h
  obtain ⟨out, hout, hput⟩ := h 7 (by decide)
  have hucs2 : ucs2ToUtf8 [0x00, 0x41, 0x00, 0x42] 7 = .ok [0x41, 0x42] := by decide +kernel
  have hunic : unicodeToUtf8 [0x41, 0x42] = { code := .ok, utf8 := [0x41, 0x42], dataLen := 1 } := by
    decide +kernel
  have heq : out = [0x41, 0x42] := Except.ok.inj (hout.symm.trans hucs2)
  rw [hunic, heq] at hput
  exact absurd (congrArg UnicodeToUtf8.dataLen hput) (by decide)

/-! ### `utf8_to_unicode` -/

/-- `*p_cur&mask == value`: `==` binds closer than `&`, so the byte is masked with the result of the
comparison. -/
def maskTest (b : UInt8) (mask value : ℕ) : Bool :=
  b.toNat &&& (if mask = value then 1 else 0) ≠ 0

/-- The body of a branch: there must be a byte for each of the fields, given by their masks and
shifts, and the code is put together from these. -/
def takeUcs (fields : List (UInt8 × UInt32)) (cur : List UInt8) : Option (UInt32 × List UInt8) :=
  if cur.length < fields.length then none
  else some ((fields.zip cur).foldl
    (fun ucs p => ucs ||| (p.2 &&& p.1.1).toUInt32 <<< p.1.2) 0, cur.drop fields.length)

/-- One turn of the loop of `utf8_to_unicode` at the first byte `b` of `cur`: the code and the bytes
behind it; `none` is `F1G_ERR`. -/
def utf8ToUnicodeStep (b : UInt8) (cur : List UInt8) : Option (UInt32 × List UInt8) :=
  if maskTest b 0x80 0x00 then takeUcs [(0xFF, 0)] cur
  else if maskTest b 0xE0 0xC0 then takeUcs [(0x1F, 6), (0x3F, 0)] cur
  else if maskTest b 0xF0 0xE0 then takeUcs [(0x0F, 12), (0x3F, 6), (0x3F, 0)] cur
  else if maskTest b 0xF8 0xF0 then takeUcs [(0x07, 18), (0x3F, 12), (0x3F, 6), (0x3F, 0)] cur
  else if maskTest b 0xFC 0xF8 then
    takeUcs [(0x03, 24), (0x3F, 18), (0x3F, 12), (0x3F, 6), (0x3F, 0)] cur
  else if maskTest b 0xFE 0xFC then
    takeUcs [(0x01, 30), (0x07, 24), (0x3F, 18), (0x3F, 12), (0x3F, 6), (0x3F, 0)] cur
  else none

/-- What `utf8_to_unicode` leaves: the codes stored in `p_unic_buf`, and `*data_len`. -/
structure Utf8ToUnicode where
  code : Code
  unic : List UInt16
  dataLen : ℕ
  deriving DecidableEq

/-- The loop of `utf8_to_unicode` with room for so many more codes. -/
def utf8ToUnicodeLoop : ℕ → List UInt16 → List UInt8 → Utf8ToUnicode
  | 0, unic, _ => { code := .ok, unic := unic, dataLen := unic.length }
  | _ + 1, unic, [] => { code := .ok, unic := unic, dataLen := unic.length }
  | room + 1, unic, b :: utf8 =>
    match utf8ToUnicodeStep b (b :: utf8) with
    | none => { code := .err, unic := unic, dataLen := unic.length }
    | some (ucs, rest) => utf8ToUnicodeLoop room (unic ++ [ucs.toUInt16]) rest

/-- `utf8_to_unicode`, with `*data_len` at first the number of codes there is room for. -/
def utf8ToUnicode (utf8 : List UInt8) (dataSize : ℕ) : Utf8ToUnicode :=
  utf8ToUnicodeLoop dataSize [] utf8

/-- **The codes are decoded from their UTF-8 form** wherever there is room for them. -/
def DecodesUtf8 (cs : List UInt16) : Prop :=
  ∀ dataSize, cs.length ≤ dataSize →
    utf8ToUnicode (cs.flatMap Utf8.encode) dataSize =
      { code := .ok, unic := cs, dataLen := cs.length }

/-- The result of the comparison is 0 in each of the tests, so no branch is taken. -/
theorem utf8ToUnicodeStep_none (b : UInt8) (cur : List UInt8) : utf8ToUnicodeStep b cur = none := by
  simp [utf8ToUnicodeStep, maskTest]

/-- **`utf8_to_unicode` decodes** the UTF-8 form of the empty text only. -/
theorem decodesUtf8_iff (cs : List UInt16) : DecodesUtf8 cs ↔ cs = [] := by
  constructor
  · intro h
    rcases cs with _ | ⟨c, cs⟩
    · rfl
    have hne : (c :: cs).flatMap Utf8.encode ≠ [] := by
      have hc := length_encode_pos c
      rw [List.flatMap_cons, ← List.length_pos_iff, List.length_append]
      omega
    obtain ⟨b, rest, hb⟩ := List.exists_cons_of_ne_nil hne
    have hdec := h _ le_rfl
    rw [hb, utf8ToUnicode, List.length_cons, utf8ToUnicodeLoop, utf8ToUnicodeStep_none] at hdec
    cases hdec
  · rintro rfl dataSize -
    rcases dataSize with _ | dataSize <;> rfl

/-- The letter `A` is refused. -/
theorem letter_refused : ¬DecodesUtf8 [0x41] := by
  intro h
  have hrun : utf8ToUnicode [0x41] 1 = { code := .err, unic := [], dataLen := 0 } := by
    decide +kernel
  have hdec := h 1 (by decide)
  rw [show ([0x41] : List UInt16).flatMap Utf8.encode = [0x41] by decide, hrun] at hdec
  exact absurd (congrArg Utf8ToUnicode.code hdec) (by decide)

end F1Goal
