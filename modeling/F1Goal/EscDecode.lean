import F1Goal.Charset

/-!
# Escaped text (`str_esc_decode`)

`str_esc_decode` takes `%`-escapes out of a text. The GBK decoder is a loop of the same kind as the
converters: it takes a character off its input, which is a byte below 0x80 or a pair inside the GBK
ranges, and puts its bytes into `d_arr`. The UTF-8 decoder looks at the room left in `d_arr` between
the bytes of a character, so it is a loop of its own, which ends without an error, and with `*d_len`
as it was, when there is no room for a first byte. Pointers and accesses are modelled as for the
converters.
-/

namespace F1Goal

/-- The codes `CT_UNKNOWN` … `CT_UNICODE` of a text. -/
inductive CodeType
  | unknown
  | utf8
  | gbk
  | unicode
  deriving DecidableEq, Repr

/-- An array with an entry for each of 128 characters. -/
abbrev HexMap := Fin 128 → ℤ

/-- `hex_char_vmap[chars[i]] = first + i;` for each of the characters. -/
def HexMap.fill (m : HexMap) (chars : List (Fin 128)) (first : ℤ) : HexMap :=
  chars.zipIdx.foldl (fun m p => Function.update m p.1 (first + p.2)) m

/-- `hex_char_vmap` after `hex_char_vmap_init`. Its initializer `{ -1 }` sets the first entry only,
the others start as 0. -/
def hexCharVmap : HexMap :=
  HexMap.fill
    (HexMap.fill
      (HexMap.fill (Function.update (fun _ => 0) 0 (-1))
        [48, 49, 50, 51, 52, 53, 54, 55, 56, 57] 0)
      [97, 98, 99, 100, 101, 102] 10)
    [65, 66, 67, 68, 69, 70] 10

/-- `hex_char_vmap[b]` -/
def hexVal (b : UInt8) : Except ConvStop ℤ :=
  if h : b.toNat < 128 then .ok (hexCharVmap ⟨b.toNat, h⟩) else .error .oob

/-- `if (-1 == hex_char_vmap[*pb] || -1 == hex_char_vmap[*(pb+1)]) return bad;` and then the byte
`hex_char_vmap[*pb] << 4 | hex_char_vmap[*(pb+1)]`. -/
def hexByte (bad : ConvStop) (pb : List UInt8) : Except ConvStop UInt8 := do
  let v0 ← hexVal (← byteAt pb 0)
  if v0 = -1 then throw bad
  let v1 ← hexVal (← byteAt pb 1)
  if v1 = -1 then throw bad
  return .ofNat (v0.toNat <<< 4 ||| v1.toNat)

/-! ### GBK -/

def gbk2Chk (b0 b1 : UInt8) : Bool := 0xB0 ≤ b0 && b0 ≤ 0xF7 && 0xA1 ≤ b1 && b1 ≤ 0xFE
def gbk3Chk (b0 b1 : UInt8) : Bool := 0x81 ≤ b0 && b0 ≤ 0xA0 && 0x40 ≤ b1 && b1 ≤ 0xFE
def gbk4Chk (b0 b1 : UInt8) : Bool := 0xAA ≤ b0 && b0 ≤ 0xFE && 0x40 ≤ b1 && b1 ≤ 0xA0
def gbk1Chk (b0 b1 : UInt8) : Bool := 0xA1 ≤ b0 && b0 ≤ 0xA9 && 0xA1 ≤ b1 && b1 ≤ 0xFE
def gbk5Chk (b0 b1 : UInt8) : Bool := 0xA8 ≤ b0 && b0 ≤ 0xA9 && 0x40 ≤ b1 && b1 ≤ 0xA0

/-- A character of a GBK text: one byte, or two. -/
inductive GbkChar
  | single (b : UInt8)
  | double (b0 b1 : UInt8)
  deriving DecidableEq, Repr

/-- The second byte of a two-byte character, which must be an escape and complete a GBK pair. -/
def getEscPair (byte0 : UInt8) (pb : List UInt8) : Except ConvStop (GbkChar × List UInt8) := do
  if pb.length < 3 then throw .idat
  if (← byteAt pb 0) ≠ 0x25 then throw .code
  let byte1 ← hexByte .code (pb.drop 1)
  if gbk2Chk byte0 byte1 || gbk3Chk byte0 byte1 || gbk4Chk byte0 byte1 then
    return (.double byte0 byte1, pb.drop 3)
  else if gbk1Chk byte0 byte1 || gbk5Chk byte0 byte1 then
    return (.double byte0 byte1, pb.drop 3)
  else throw .code

/-- The character at the front of an escaped GBK text, and the rest of the text. -/
def getEscGbk (pb : List UInt8) : Except ConvStop (GbkChar × List UInt8) := do
  let b ← byteAt pb 0
  if 128 ≤ b then throw .nasc
  else if b = 0x25 then
    if pb.length ≤ 2 then throw .idat
    let byte0 ← hexByte .code (pb.drop 1)
    if byte0 &&& 0x80 = 0x80 then getEscPair byte0 (pb.drop 3)
    else return (.single byte0, pb.drop 3)
  else
    return (.single b, pb.drop 1)

/-- The high bit of a byte. -/
theorem and_80_iff (b : UInt8) : b &&& 0x80 = 0x80 ↔ ¬b < 0x80 := by
  have h : ∀ n : Fin 256, n.val &&& 0x80 = 0x80 ↔ ¬n.val < 0x80 := by decide +kernel
  rw [← UInt8.toNat_inj, UInt8.toNat_and, UInt8.lt_iff_toNat_lt]
  exact h ⟨b.toNat, b.toNat_lt⟩

/-- The lead byte of a two-byte character has its high bit set, the second one is not zero. -/
theorem getEscPair_eq_ok {byte0 : UInt8} {pb rest : List UInt8} {c : GbkChar}
    (h : getEscPair byte0 pb = .ok (c, rest)) :
    rest = pb.drop 3 ∧ ∃ byte1, c = .double byte0 byte1 ∧
      (gbk2Chk byte0 byte1 || gbk3Chk byte0 byte1 || gbk4Chk byte0 byte1 ||
        (gbk1Chk byte0 byte1 || gbk5Chk byte0 byte1)) = true := by
  unfold getEscPair at h
  split_ifs at h with hlen
  · cases h
  obtain ⟨b, -, h⟩ := Transcode.bind_eq_ok.1 h
  split_ifs at h with hb
  · cases h
  obtain ⟨byte1, -, h⟩ := Transcode.bind_eq_ok.1 h
  split_ifs at h with h1 h2
  · cases h
    exact ⟨rfl, byte1, rfl, by rw [h1]; rfl⟩
  · cases h
    exact ⟨rfl, byte1, rfl, by rw [h2, Bool.or_true]⟩

/-- `d_arr[num++] = ..` for the bytes of a character, with `num` bytes written. -/
def putGbkChar (size num : ℕ) : GbkChar → Except ConvStop (List UInt8)
  | .single b => do
    if size ≤ num then throw .obuf
    return [← storeAt size num b]
  | .double b0 b1 => do
    if size ≤ num + 2 then throw .obuf
    return [← storeAt size num b0, ← storeAt size (num + 1) b1]

theorem getEscGbk_progress {pb rest : List UInt8} {c : GbkChar}
    (h : getEscGbk pb = .ok (c, rest)) : rest.length < pb.length := by
  obtain ⟨b, hb, h⟩ := Transcode.bind_eq_ok.1 h
  have hpos : 0 < pb.length := by
    cases pb with
    | nil => cases hb
    | cons => simp
  split_ifs at h with h1 h2 h3
  · cases h
  · obtain ⟨byte0, -, h⟩ := Transcode.bind_eq_ok.1 h
    split_ifs at h with h4
    · rw [(getEscPair_eq_ok h).1, List.length_drop, List.length_drop]
      omega
    · cases h
      rw [List.length_drop]
      omega
  · cases h
    rw [List.length_drop]
    omega

/-- The loop of the GBK decoder. -/
def escGbkReader : Transcode.Reader UInt8 GbkChar ConvStop := ⟨getEscGbk, getEscGbk_progress⟩

/-- `gbk_str_to_uint` -/
def gbkStrToUint (str : List UInt8) (size : ℕ) : Except ConvStop (List UInt8) := do
  let out ← Transcode.loop escGbkReader (putGbkChar size) str []
  let _ ← storeAt size out.length 0
  return out

/-! ### UTF-8 -/

/-- What a decoding call leaves: `*d_len` and the bytes in `d_arr`. -/
structure Decoded where
  dLen : ℕ
  dArr : List UInt8
  deriving DecidableEq, Repr

/-- The number of bytes that a first byte announces behind it. -/
def utf8ByteNum (byte : UInt8) : Option ℕ :=
  if byte < 128 then some 0
  else if byte &&& 0xE0 = 0xC0 then some 1
  else if byte &&& 0xF0 = 0xE0 then some 2
  else if byte &&& 0xF8 = 0xF0 then some 3
  else if byte &&& 0xFC = 0xF8 then some 4
  else if byte &&& 0xFE = 0xFC then some 5
  else none

/-- The loop over the bytes behind the first one. -/
def escTail (size : ℕ) : ℕ → ℕ → List UInt8 → Except ConvStop (List UInt8)
  | _, 0, _ => .ok []
  | num, byteNum + 1, pb => do
    if (← byteAt pb 0) ≠ 0x25 then throw (.neg 2)
    let byte ← hexByte (.neg 2) (pb.drop 1)
    let b ← storeAt size num byte
    return b :: (← escTail size (num + 1) byteNum (pb.drop 3))

/-- The loop of `utf8_str_to_uint`. A `return 0` in its middle leaves `*d_len` as it was. -/
def utf8StrLoop (size : ℕ) (pb out : List UInt8) : Except ConvStop Decoded :=
  match pb with
  | [] => (storeAt size out.length 0).map fun _ => ⟨out.length, out⟩
  | b :: s =>
    if 128 ≤ b then .error (.neg 2)
    else if b = 0x25 then
      if s.length ≤ 1 then .error (.neg 1)
      else
        match hexByte (.neg 2) s with
        | .error e => .error e
        | .ok byte =>
          match utf8ByteNum byte with
          | none => .error (.neg 3)
          | some byteNum =>
            -- `return 0`, without the terminating zero
            if size ≤ out.length then .ok ⟨size, out⟩
            else if (s.drop 2).length < 3 * byteNum then .error (.neg 1)
            else if size - (out.length + 1) < byteNum then .error (.neg 1)
            else
              match escTail size (out.length + 1) byteNum (s.drop 2) with
              | .error e => .error e
              | .ok more => utf8StrLoop size ((s.drop 2).drop (3 * byteNum)) (out ++ byte :: more)
    else if size ≤ out.length then .ok ⟨size, out⟩
    else utf8StrLoop size s (out ++ [b])
termination_by pb.length

/-- `utf8_str_to_uint` -/
def utf8StrToUint (str : List UInt8) (size : ℕ) : Except ConvStop Decoded := utf8StrLoop size str []

/-- `str_esc_decode` -/
def strEscDecode (str : List UInt8) (codeType : CodeType) (dLen : ℕ) : Except ConvStop Decoded :=
  match codeType with
  | .utf8 => utf8StrToUint str dLen
  | .gbk => (gbkStrToUint str dLen).map fun out => ⟨out.length, out⟩
  | _ => .error (.neg 1)

end F1Goal
