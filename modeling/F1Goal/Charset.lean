import F1Goal.BasicTypes
import F1Goal.Lib.Transcode

/-!
# Character sets (`charset_code.h`, `charset_code.c`)

Six converters between GBK, UCS-2 and UTF-8, and two decoders of `%`-escapes. Each is one loop that
takes a code off its input, may look it up in an array, and puts bytes into `d2_arr`. A pointer into
the input is the list of the bytes from there to `pe`, so `pb + 1 >= pe` says that at most one byte
is left and `pb[1]` is the byte at position 1 of the list, if there is one; every access names its
position, and one outside of its array ends the call with `oob`. The bytes that a failing call has
left in `d2_arr` are not kept. Lengths and capacities are natural numbers; a negative capacity
behaves as 0 does.
-/

namespace F1Goal

/-- Why a call ends without success: one of the codes `E_OBUF`, `E_IDAT`, `E_CODE` and `E_NASC`, a
negative return value, or an access outside of an array. -/
inductive ConvStop
  | obuf
  | idat
  | code
  | nasc
  | neg (n : ℕ)
  | oob
  deriving DecidableEq, Repr

/-! ### The code table -/

/-- `MAX_CODE_SIZE`: the number of entries of `ucs2_gbk` and of `gbk_ucs2`. -/
def maxCodeSize : ℕ := 0xFFFF

/-- `code_map_t`: a GBK code and its UCS-2 code. -/
structure CodeMap where
  c1 : UInt16
  c2 : UInt16
  deriving DecidableEq, Repr

/-- An array of `MAX_CODE_SIZE` codes. -/
abbrev CodeArray := Fin maxCodeSize → UInt16

/-- `a[i]` -/
def CodeArray.read (a : CodeArray) (i : UInt16) : Except ConvStop UInt16 :=
  if h : i.toNat < maxCodeSize then .ok (a ⟨i.toNat, h⟩) else .error .oob

/-- `a[i] = v`; outside of the array nothing is written. -/
def CodeArray.write (a : CodeArray) (i v : UInt16) : CodeArray :=
  if h : i.toNat < maxCodeSize then Function.update a ⟨i.toNat, h⟩ v else a

/-- The arrays `ucs2_gbk` and `gbk_ucs2`, and whether an access has left one of them, or the
table, while they were filled. -/
structure CharsetMaps where
  ucs2Gbk : CodeArray
  gbkUcs2 : CodeArray
  oob : Bool

/-- `memset(.., 0xFF, ..)` on both arrays. -/
def CharsetMaps.blank : CharsetMaps := ⟨fun _ => 0xFFFF, fun _ => 0xFFFF, false⟩

/-- `ucs2_gbk[ucs2] = gbk; gbk_ucs2[gbk] = ucs2;` -/
def CharsetMaps.pair (m : CharsetMaps) (e : CodeMap) : CharsetMaps where
  ucs2Gbk := m.ucs2Gbk.write e.c2 e.c1
  gbkUcs2 := m.gbkUcs2.write e.c1 e.c2
  oob := m.oob || !decide (e.c2.toNat < maxCodeSize) || !decide (e.c1.toNat < maxCodeSize)

/-- The loop of `charset_map_init`, which ends at the entry `{0xFFFF, 0xFFFF}`. -/
def charsetMapLoop : List CodeMap → CharsetMaps → CharsetMaps
  | [], m => { m with oob := true }
  | e :: table, m =>
    if 0xFFFF ≠ e.c1 ∨ 0xFFFF ≠ e.c2 then charsetMapLoop table (m.pair e) else m

/-- `charset_map_init` -/
def charsetMapInit (table : List CodeMap) : CharsetMaps := charsetMapLoop table .blank

/-- `if (a[c] == 0xFFFFU) return E_CODE; .. = a[c];` -/
def CodeArray.lookup (a : CodeArray) (c : UInt16) : Except ConvStop UInt16 := do
  let v ← a.read c
  if v = 0xFFFF then throw .code
  return v

/-! ### Taking a code off the input -/

/-- `pb[i]` -/
def byteAt (pb : List UInt8) (i : ℕ) : Except ConvStop UInt8 :=
  match pb[i]? with
  | some b => .ok b
  | none => .error .oob

/-- A 16-bit code, high byte first, and the rest of the input. -/
def getCode16 (pb : List UInt8) : Except ConvStop (UInt16 × List UInt8) := do
  if pb.length ≤ 1 then throw .idat
  let b0 ← byteAt pb 0
  let b1 ← byteAt pb 1
  return (b0.toUInt16 <<< 8 ||| b1.toUInt16, pb.drop 2)

/-- A code of one, two or three bytes by the bits of its first byte, and the rest of the input. -/
def getUtf8 (pb : List UInt8) : Except ConvStop (UInt16 × List UInt8) := do
  let b0 ← byteAt pb 0
  if b0 < 0x80 then
    return (b0.toUInt16, pb.drop 1)
  else if b0 &&& 0xE0 = 0xC0 then
    if pb.length ≤ 1 then throw .idat
    let b1 ← byteAt pb 1
    return ((b0 &&& 0x1F).toUInt16 <<< 6 ||| (b1 &&& 0x3F).toUInt16, pb.drop 2)
  else if b0 &&& 0xF0 = 0xE0 then
    if pb.length ≤ 2 then throw .idat
    let b1 ← byteAt pb 1
    let b2 ← byteAt pb 2
    let ucs2 := (b0 &&& 0x0F).toUInt16 <<< 6 ||| (b1 &&& 0x3F).toUInt16
    return (ucs2 <<< 6 ||| (b2 &&& 0x3F).toUInt16, pb.drop 3)
  else
    -- `10xxxxxx`, or the first byte of a form of four bytes or more
    throw .code

/-! ### Putting bytes into `d2_arr` -/

/-- `d2_arr[num] = b`, in an array of `size` bytes. -/
def storeAt (size num : ℕ) (b : UInt8) : Except ConvStop UInt8 :=
  if num < size then .ok b else .error .oob

theorem storeAt_of_lt {size num : ℕ} (h : num < size) (b : UInt8) : storeAt size num b = .ok b :=
  if_pos h

/-- Two bytes, the high one first, with `num` bytes written. -/
def putCode16 (size num : ℕ) (c : UInt16) : Except ConvStop (List UInt8) := do
  if size ≤ num + 2 then throw .obuf
  let b0 ← storeAt size num (c >>> 8).toUInt8
  let b1 ← storeAt size (num + 1) (c &&& 0xFF).toUInt8
  return [b0, b1]

/-- The UTF-8 form of a code in one, two or three bytes, with `num` bytes written. -/
def putUtf8 (size num : ℕ) (c : UInt16) : Except ConvStop (List UInt8) := do
  if c < 0x80 then
    -- the other branches leave a byte free behind what they put
    if size ≤ num then throw .obuf
    let b0 ← storeAt size num (c &&& 0xFF).toUInt8
    return [b0]
  else if 0x80 ≤ c ∧ c ≤ 0x7FF then
    if size ≤ num + 2 then throw .obuf
    let b0 ← storeAt size num (UInt16.toUInt8 ((0xC0 : UInt16) ||| ((c >>> 6) &&& 0x1F)))
    let b1 ← storeAt size (num + 1) (UInt16.toUInt8 ((0x80 : UInt16) ||| (c &&& 0x3F)))
    return [b0, b1]
  else if 0x800 ≤ c ∧ c ≤ 0xFFFF then
    if size ≤ num + 3 then throw .obuf
    let b0 ← storeAt size num (UInt16.toUInt8 ((0xE0 : UInt16) ||| ((c >>> 12) &&& 0x0F)))
    let b1 ← storeAt size (num + 1) (UInt16.toUInt8 ((0x80 : UInt16) ||| ((c >>> 6) &&& 0x3F)))
    let b2 ← storeAt size (num + 2) (UInt16.toUInt8 ((0x80 : UInt16) ||| (c &&& 0x3F)))
    return [b0, b1, b2]
  else
    throw .code

/-! ### The converters -/

theorem getCode16_cons_cons (b0 b1 : UInt8) (rest : List UInt8) :
    getCode16 (b0 :: b1 :: rest) = .ok (b0.toUInt16 <<< 8 ||| b1.toUInt16, rest) :=
  rfl

/-- Two bytes have been taken when a code has been read. -/
theorem getCode16_eq_ok {pb rest : List UInt8} {c : UInt16} (h : getCode16 pb = .ok (c, rest)) :
    ∃ b0 b1, pb = b0 :: b1 :: rest ∧ c = b0.toUInt16 <<< 8 ||| b1.toUInt16 := by
  match pb with
  | [] => cases h
  | [b0] => cases h
  | b0 :: b1 :: pb =>
    cases h
    exact ⟨b0, b1, rfl, rfl⟩

theorem getCode16_progress {pb rest : List UInt8} {c : UInt16}
    (h : getCode16 pb = .ok (c, rest)) : rest.length < pb.length := by
  obtain ⟨b0, b1, rfl, -⟩ := getCode16_eq_ok h
  simp

/-- The cases of `getUtf8`: the first byte decides how many more are taken. -/
theorem getUtf8_cons (b0 : UInt8) (s : List UInt8) :
    getUtf8 (b0 :: s) =
      if b0 < 0x80 then .ok (b0.toUInt16, s)
      else if b0 &&& 0xE0 = 0xC0 then
        match s with
        | b1 :: s => .ok ((b0 &&& 0x1F).toUInt16 <<< 6 ||| (b1 &&& 0x3F).toUInt16, s)
        | [] => .error .idat
      else if b0 &&& 0xF0 = 0xE0 then
        match s with
        | b1 :: b2 :: s =>
          .ok (((b0 &&& 0x0F).toUInt16 <<< 6 ||| (b1 &&& 0x3F).toUInt16) <<< 6 |||
            (b2 &&& 0x3F).toUInt16, s)
        | _ => .error .idat
      else .error .code := by
  match s with
  | [] => rfl
  | [b1] => rfl
  | b1 :: b2 :: s => rfl

theorem getUtf8_progress {pb rest : List UInt8} {c : UInt16} (h : getUtf8 pb = .ok (c, rest)) :
    rest.length < pb.length := by
  cases pb with
  | nil => cases h
  | cons b0 s =>
    rw [getUtf8_cons] at h
    split_ifs at h
    · cases h
      simp
    · split at h
      · cases h
        simp
      · cases h
    · split at h
      · cases h
        simp only [List.length_cons]
        omega
      · cases h

/-- The loops that read 16-bit codes. -/
def code16Reader : Transcode.Reader UInt8 UInt16 ConvStop := ⟨getCode16, getCode16_progress⟩

/-- The loops that read UTF-8. -/
def utf8Reader : Transcode.Reader UInt8 UInt16 ConvStop := ⟨getUtf8, getUtf8_progress⟩

/-- The body that the six converters share: take a code off the input, look it up, put its bytes;
after the last one `d2_arr[num] = 0`. -/
def convert (r : Transcode.Reader UInt8 UInt16 ConvStop)
    (look : UInt16 → Except ConvStop UInt16) (put : ℕ → ℕ → UInt16 → Except ConvStop (List UInt8))
    (d1 : List UInt8) (size : ℕ) : Except ConvStop (List UInt8) := do
  let out ← Transcode.loop r (fun num c => do put size num (← look c)) d1 []
  let _ ← storeAt size out.length 0
  return out

/-- `gbk_to_utf8` -/
def gbkToUtf8 (m : CharsetMaps) : List UInt8 → ℕ → Except ConvStop (List UInt8) :=
  convert code16Reader m.gbkUcs2.lookup putUtf8

/-- `utf8_to_gbk` -/
def utf8ToGbk (m : CharsetMaps) : List UInt8 → ℕ → Except ConvStop (List UInt8) :=
  convert utf8Reader m.ucs2Gbk.lookup putCode16

/-- `ucs2_to_utf8` -/
def ucs2ToUtf8 : List UInt8 → ℕ → Except ConvStop (List UInt8) :=
  convert code16Reader .ok putUtf8

/-- `utf8_to_ucs2` -/
def utf8ToUcs2 : List UInt8 → ℕ → Except ConvStop (List UInt8) :=
  convert utf8Reader .ok putCode16

/-- `gbk_to_ucs2` -/
def gbkToUcs2 (m : CharsetMaps) : List UInt8 → ℕ → Except ConvStop (List UInt8) :=
  convert code16Reader m.gbkUcs2.lookup putCode16

/-- `ucs2_to_gbk` -/
def ucs2ToGbk (m : CharsetMaps) : List UInt8 → ℕ → Except ConvStop (List UInt8) :=
  convert code16Reader m.ucs2Gbk.lookup putCode16

/-- The values `CONV_GBK_UTF8` … `CONV_UCS2_GBK` of `conv_type`, and every other value. -/
inductive ConvType
  | gbkUtf8
  | utf8Gbk
  | utf8Ucs2
  | ucs2Utf8
  | gbkUcs2
  | ucs2Gbk
  | other
  deriving DecidableEq, Repr

/-- What a call of `lc_conv` leaves: success with the bytes in `d2_arr`, or why it stopped, and the
value of `*d2_len`. -/
structure ConvCall where
  res : Except ConvStop (List UInt8)
  d2Len : ℕ
  deriving DecidableEq

/-- `__tmp_len = *d2_len; ret = conv(.., &__tmp_len); *d2_len = __tmp_len;`, where the converters
set their length only when they succeed. -/
def ConvCall.of (d2Len : ℕ) (res : Except ConvStop (List UInt8)) : ConvCall :=
  match res with
  | .ok out => ⟨.ok out, out.length⟩
  | .error e => ⟨.error e, d2Len⟩

/-- `lc_conv`: the first call fills the arrays from the table, every later one finds them so. -/
def lcConv (table : List CodeMap) (d1 : List UInt8) (d2Len : ℕ) (convType : ConvType) : ConvCall :=
  let m := charsetMapInit table
  match convType with
  | .gbkUtf8 => .of d2Len (gbkToUtf8 m d1 d2Len)
  | .utf8Gbk => .of d2Len (utf8ToGbk m d1 d2Len)
  | .ucs2Utf8 => .of d2Len (ucs2ToUtf8 d1 d2Len)
  | .utf8Ucs2 => .of d2Len (utf8ToUcs2 d1 d2Len)
  | .gbkUcs2 => .of d2Len (gbkToUcs2 m d1 d2Len)
  | .ucs2Gbk => .of d2Len (ucs2ToGbk m d1 d2Len)
  | .other => ⟨.error (.neg 1), d2Len⟩

end F1Goal
