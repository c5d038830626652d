import F1Goal.BasicTypes
import F1Goal.Lib.CString
import F1Goal.Lib.Mem

/-!
# Building a message (`f1g_http.c`, `f1g_bit_array.c`)

An HTTP object is a buffer that the lines of a header are appended to, with a bit for each header
that has been added. Pointers into the buffer are offsets; `data_len` and the sums with it are
unsigned and have 32 bits. `malloc` succeeds.
-/

namespace F1Goal

open CString

/-! ### Bit arrays -/

/-- `bit_array_t` -/
structure BitArray where
  bitsNum : ℕ
  bits : ℕ → UInt8

/-- `bit_array_init` -/
def bitArrayInit (bitNum : ℕ) : BitArray := { bitsNum := bitNum, bits := fun _ => 0 }

/-- `bit_array_bit_value`: an `i8_t`. The shifts are those of an `i32_t`. -/
def bitArrayBitValue (obj : BitArray) (bitSeq : ℕ) : ℤ :=
  if obj.bitsNum ≤ bitSeq then -1
  else ((((obj.bits (bitSeq / 8)).toNat <<< (7 - bitSeq % 8)) >>> 7 : ℕ) : ℤ).bmod (2 ^ 8)

/-- `bit_array_set_bit` -/
def bitArraySetBit (obj : BitArray) (bitSeq : ℕ) : BitArray :=
  if obj.bitsNum ≤ bitSeq then obj
  else { obj with
    bits := Function.update obj.bits (bitSeq / 8)
      (obj.bits (bitSeq / 8) ||| UInt8.ofNat (1 <<< (bitSeq % 8))) }

/-! ### Headers -/

/-- `HTTP_HDR_E` -/
inductive HttpHdr
  | method | path | version | host | ua | refer | cookie | hdrEnd | reqLine | rspLine
  deriving DecidableEq, Repr

/-- The value of a constant of `HTTP_HDR_E`. -/
def HttpHdr.id : HttpHdr → ℕ
  | .method => 0
  | .path => 1
  | .version => 2
  | .host => 3
  | .ua => 4
  | .refer => 5
  | .cookie => 6
  | .hdrEnd => 7
  | .reqLine => 8
  | .rspLine => 9

/-- `HTTP_HDR_NUM` -/
def httpHdrNum : ℕ := 10

/-- `http_header_info_t` -/
structure HttpHeaderInfo where
  id : HttpHdr
  headerSize : ℕ
  header : List UInt8

/-- `http_header_info`, up to the entry without a header. -/
def httpHeaderInfo : List HttpHeaderInfo :=
  [⟨.method, 0, ascii ""⟩, ⟨.version, 0, ascii ""⟩, ⟨.path, 0, ascii ""⟩,
    ⟨.host, 6, ascii "Host: "⟩, ⟨.refer, 8, ascii "Referer:  "⟩, ⟨.ua, 12, ascii "User-Agent: "⟩,
    ⟨.cookie, 8, ascii "Cookie: "⟩, ⟨.hdrEnd, 0, ascii ""⟩, ⟨.reqLine, 0, ascii ""⟩,
    ⟨.rspLine, 0, ascii ""⟩]

/-- `_get_http_header_info` -/
def getHttpHeaderInfo (id : ℕ) : Option HttpHeaderInfo :=
  httpHeaderInfo.find? fun info => id = info.id.id

/-! ### Objects -/

/-- `http_object_t`; `hdrSet` and `content` are offsets into the buffer, or `NULL`. -/
structure HttpObject where
  objBuf : ℤ → UInt8
  bufSz : ℕ
  dataLen : ℕ
  status : BitArray
  hdrSet : ℕ → Option ℕ
  hdrLenSet : ℕ → ℤ
  content : Option ℕ
  contentLen : ℕ

/-- `HO_DFT_BUF_SZ` -/
def hoDftBufSz : ℕ := 2048

/-- `HO_MIN_BUF_SZ` -/
def hoMinBufSz : ℕ := 64

/-- The object that `http_object_create` fills in, with this buffer. -/
def freshObject (objBuf : ℤ → UInt8) (bufSz : ℕ) : HttpObject :=
  { objBuf := objBuf, bufSz := bufSz, dataLen := 0, status := bitArrayInit httpHdrNum
    hdrSet := fun _ => none, hdrLenSet := fun _ => 0, content := none, contentLen := 0 }

/-- `http_object_create` -/
def httpObjectCreate (objBuf : Option (ℤ → UInt8)) (bufSz : ℕ) : Option HttpObject :=
  match objBuf with
  | none =>
    if bufSz < hoMinBufSz then some (freshObject (fun _ => 0) hoDftBufSz)
    else if hoMinBufSz < bufSz then some (freshObject (fun _ => 0) bufSz)
    else none
  | some objBuf => if hoMinBufSz < bufSz then some (freshObject objBuf bufSz) else none

/-- The arguments `header` and `header_len`: the length is a `u16_t`. -/
structure HeaderArg where
  header : List UInt8
  len_lt : header.length < 2 ^ 16

/-- `"\r\n"` -/
def crlf : List UInt8 := [13, 10]

/-- `memcpy(obj_buf + data_len, bs, len); data_len += len` -/
def HttpObject.put (obj : HttpObject) (bs : List UInt8) : HttpObject :=
  { obj with
    objBuf := Mem.store obj.objBuf obj.dataLen bs, dataLen := u32 (obj.dataLen + bs.length) }

/-- `http_object_add_header` -/
def httpObjectAddHeader (obj : HttpObject) (headerId : ℕ) (arg : HeaderArg) : Code × HttpObject :=
  if httpHdrNum ≤ headerId then (.err, obj)
  else if bitArrayBitValue obj.status headerId = 1 then (.err, obj)
  else
    match getHttpHeaderInfo headerId with
    | none => (.err, obj)
    | some info =>
      if obj.bufSz ≤ u32 (obj.dataLen + arg.header.length + 2 + info.headerSize) then (.err, obj)
      else
        let obj := if 0 < info.headerSize then obj.put (info.header.take info.headerSize) else obj
        let obj := { obj.put arg.header with
          hdrSet := Function.update obj.hdrSet headerId (some obj.dataLen)
          hdrLenSet :=
            Function.update obj.hdrLenSet headerId ((arg.header.length : ℤ).bmod (2 ^ 16)) }
        let obj := obj.put crlf
        (.ok, { obj with status := bitArraySetBit obj.status headerId })

/-- The arguments `content` and `content_len`: the length is a `u16_t`. -/
structure ContentArg where
  content : List UInt8
  len_lt : content.length < 2 ^ 16

/-- `http_object_add_content`. A pointer that is `NULL` is written as 0; it is not followed. -/
def httpObjectAddContent (obj : HttpObject) (arg : ContentArg) : Code × HttpObject :=
  if obj.bufSz < u32 (obj.dataLen + arg.content.length) then (.err, obj)
  else
    let content := if obj.contentLen = 0 then some obj.dataLen else obj.content
    (.ok, { obj with
      content := content
      objBuf := Mem.store obj.objBuf (content.getD 0 + obj.contentLen : ℕ) arg.content
      contentLen := u32 (obj.contentLen + arg.content.length)
      dataLen := u32 (obj.dataLen + arg.content.length) })

end F1Goal
