import F1Goal.BasicFuncs
import F1Goal.BasicTypes

/-!
# Parsing a request (`f1g_http_parser.c`)

`http_req_header_parser` looks for the request line and then for one line `key: value` after the
other. What it stores are positions in the data. The data are a block, and the parser faults when it
reads outside of it.
-/

namespace F1Goal

open CString

/-- `METHOD_GET` and the methods that the parser does not know about. -/
inductive Method
  | get | post | put | options | head | delete | trace
  deriving DecidableEq, Repr

/-- The part of `http_req_header_t` that the parser fills in; `version` is that of `comm`. -/
structure HttpReqHeader where
  version : UInt8
  method : Method
  host : CStringT
  uri : CStringT
  ua : CStringT
  cookie : CStringT
  referUri : CStringT
  referHost : CStringT
  accept : CStringT
  acceptCharset : CStringT
  acceptEncode : CStringT
  acceptLang : CStringT
  deriving DecidableEq, Repr

/-- `http_req_header_clear`: everything is zero. -/
def httpReqHeaderClear : HttpReqHeader :=
  let null := cStringSet 0 0
  { version := 0, method := .get, host := null, uri := null, ua := null, cookie := null
    referUri := null, referHost := null, accept := null, acceptCharset := null
    acceptEncode := null, acceptLang := null }

/-- `HTTPV11` -/
def httpV11 : UInt8 := 0x11

/-- `HTTPV10` -/
def httpV10 : UInt8 := 0x10

/-- `CR_STR` -/
def crStr : List UInt8 := ascii "\r\n"

/-- `SP_STR` -/
def spStr : List UInt8 := ascii " "

/-- `HDR_KV_SEP` -/
def hdrKvSep : List UInt8 := ascii ":"

/-- The test of `add_header` for a key. -/
def isKey (mem : ℤ → Option UInt8) (pKey1 pKey1E : ℤ) (key : String) : Option Bool := do
  return (← cmpStr2 mem pKey1 (pKey1E - pKey1 + 1) (ascii key)) = 0

/-- `add_header`; what it returns is not looked at. -/
def addHeader (mem : ℤ → Option UInt8) (req : HttpReqHeader) (pKey1 pKey1E pKey2 pKey2E : ℤ) :
    Option HttpReqHeader := do
  let value := cStringSet pKey2 (pKey2E - pKey2 + 1)
  let ch ← mem pKey1
  -- the first letter: `A`, `C`, `H`, `R` or `U`
  if ch = 65 then
    if ← isKey mem pKey1 pKey1E "Accept-Language" then return { req with acceptLang := value }
    else if ← isKey mem pKey1 pKey1E "Accept-Encoding" then
      return { req with acceptEncode := value }
    else if ← isKey mem pKey1 pKey1E "Accept-Charset" then
      return { req with acceptCharset := value }
    else if ← isKey mem pKey1 pKey1E "Accept" then return { req with accept := value }
    else return req
  else if ch = 67 then
    if ← isKey mem pKey1 pKey1E "Cookie" then return { req with cookie := value } else return req
  else if ch = 72 then
    if ← isKey mem pKey1 pKey1E "Host" then return { req with host := value } else return req
  else if ch = 82 then
    if ← isKey mem pKey1 pKey1E "Referer" then
      match ← findStr mem pKey2 pKey2E (ascii "/") with
      | none => return req
      | some ptmp =>
        return { req with
          referHost := cStringSet pKey2 (ptmp - pKey2)
          referUri := cStringSet ptmp (pKey2E - ptmp + 1) }
    else return req
  else if ch = 85 then
    if ← isKey mem pKey1 pKey1E "User-Agent" then return { req with ua := value } else return req
  else return req

/-- The body of the loop once the line is known: nothing inside when it breaks. -/
def headerLine (mem : ℤ → Option UInt8) (req : HttpReqHeader) (pLineB pLineE : ℤ) :
    Option (Option HttpReqHeader) := do
  if pLineE ≤ pLineB then return none
  else
    match ← findStr mem pLineB pLineE hdrKvSep with
    | none => return none
    | some pKey1E =>
      -- a line without a name ends the loop
      if pKey1E = pLineB then return none
      else
        let pKey2B ← skipSpace mem (pKey1E + hdrKvSep.length) (pLineE - (pKey1E + hdrKvSep.length))
        let pKey2E ← stripChar mem pKey2B (pLineE - pKey2B) 32
        return some (← addHeader mem req pLineB pKey1E pKey2B pKey2E)

/-- How the parser ends: it returns, or it reads outside of the data. -/
inductive ReqRes
  | done (code : Code) (req : HttpReqHeader)
  | fault
  deriving DecidableEq, Repr

/-- `while (flag)`, with the end `p_line_e` of the line before; `none` when it does not end within
`fuel` turns. -/
def headerLoop (mem : ℤ → Option UInt8) (pDataEnd : ℤ) :
    ℕ → HttpReqHeader → ℤ → Option ReqRes
  | 0, _, _ => none
  | fuel + 1, req, pLineE =>
    match skipSpace mem (pLineE + crStr.length) (pDataEnd - (pLineE + crStr.length)) with
    | none => some .fault
    | some pLineB =>
      match findStr mem pLineB pDataEnd crStr with
      | none => some .fault
      | some none =>
        -- `flag` is 0: this is the last turn
        match headerLine mem req pLineB pDataEnd with
        | none => some .fault
        | some none => some (.done .ok req)
        | some (some req) => some (.done .ok req)
      | some (some pLineE) =>
        match headerLine mem req pLineB pLineE with
        | none => some .fault
        | some none => some (.done .ok req)
        | some (some req) => headerLoop mem pDataEnd fuel req pLineE

/-- The request line: the code, what has been stored, and the end of the line. -/
def requestLine (mem : ℤ → Option UInt8) (req : HttpReqHeader) (pData pDataEnd : ℤ) :
    Option (Code × HttpReqHeader × ℤ) := do
  match ← findStr mem pData pDataEnd crStr with
  | none => return (.err, req, pData)
  | some pLineE =>
    if pLineE = pData then return (.err, req, pLineE)
    else if (← cmpStr2 mem pData (pLineE - pData) (ascii "GET")) ≠ 0 then
      return (.err, req, pLineE)
    else
      let req := { req with method := .get }
      -- the target, between blanks
      let pKey1B ← skipSpace mem (pData + 3) (pLineE - (pData + 3))
      match ← findStr mem pKey1B (pLineE - 1) spStr with
      | none => return (.err, req, pLineE)
      | some pKey1E =>
        if pKey1E = pKey1B then return (.err, req, pLineE)
        else
          let req := { req with uri := cStringSet pKey1B (pKey1E - pKey1B) }
          let pKey1B ← skipSpace mem pKey1E (pLineE - pKey1E)
          if (← cmpStr2 mem pKey1B (pLineE - pKey1B) (ascii "HTTP/1.1")) = 0 then
            return (.ok, { req with version := httpV11 }, pLineE)
          else if (← cmpStr2 mem pKey1B (pLineE - pKey1B) (ascii "HTTP/1.0")) = 0 then
            return (.ok, { req with version := httpV10 }, pLineE)
          else return (.err, req, pLineE)

/-- `http_req_header_parser`. Each turn of the loop moves on by a line end. -/
def httpReqHeaderParser (mem : ℤ → Option UInt8) (req : HttpReqHeader) (pData dataLen : ℤ) :
    Option ReqRes :=
  match requestLine mem req pData (pData + dataLen - 1) with
  | none => some .fault
  | some (.err, req, _) => some (.done .err req)
  | some (.ok, req, pLineE) => headerLoop mem (pData + dataLen - 1) (dataLen.toNat + 1) req pLineE

end F1Goal
