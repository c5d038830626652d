import F1Goal.HttpRequestLine

/-!
# The lines of a request

What `http_req_header_parser` makes of a request, one line after the other: `requestLine_spec` for
the request line, `headerLine_spec` for a header whose value has no blanks around it, and
`headerLoop_spec` for the loop over such lines.
-/

namespace F1Goal

open Block CString

/-! ### Requests -/

/-- The headers that the parser reads back. -/
inductive ReqHeader
  | host | ua | cookie | refer
  deriving DecidableEq, Repr

/-- The key that the parser knows the header by. -/
def ReqHeader.key : ReqHeader → List UInt8
  | .host => ascii "Host"
  | .ua => ascii "User-Agent"
  | .cookie => ascii "Cookie"
  | .refer => ascii "Referer"

/-- What the builder writes between the colon and the value. -/
def ReqHeader.sep : ReqHeader → List UInt8
  | .refer => []
  | _ => [32]

/-- The line of a header, without its end. -/
def ReqHeader.line (h : ReqHeader) (value : List UInt8) : List UInt8 :=
  h.key ++ 58 :: (h.sep ++ value)

/-- The values that can be told from the blanks around them. -/
structure GoodValue (h : ReqHeader) (value : List UInt8) : Prop where
  no_crlf : ∀ c ∈ value, c ≠ 13 ∧ c ≠ 10
  head : value.head? ≠ some 32
  last : value.getLast? ≠ some 32
  slash : h = .refer → 47 ∈ value.dropLast

/-- The parser has stored the value of a header. -/
def Stored (mem : ℤ → Option UInt8) (req req' : HttpReqHeader) (value : List UInt8) :
    ReqHeader → Prop
  | .host => ∃ s, CStringT.Denotes mem s value ∧ req' = { req with host := s }
  | .ua => ∃ s, CStringT.Denotes mem s value ∧ req' = { req with ua := s }
  | .cookie => ∃ s, CStringT.Denotes mem s value ∧ req' = { req with cookie := s }
  | .refer => ∃ s t, CStringT.Denotes mem s (value.takeWhile (· ≠ 47)) ∧
      CStringT.Denotes mem t (value.dropWhile (· ≠ 47)) ∧
        req' = { req with referHost := s, referUri := t }

/-! ### What the parser reads -/

theorem ReqHeader.key_ne_nil (h : ReqHeader) : h.key ≠ [] := by
  cases h <;> decide

/-- The value is what the line has without the blanks around it. -/
theorem GoodValue.strip {h : ReqHeader} {value : List UInt8} (hgood : GoodValue h value) :
    CString.strip (h.sep ++ value) = value := by
  obtain ⟨n, hsep⟩ : ∃ n, h.sep = List.replicate n 32 := by
    cases h with
    | refer => exact ⟨0, rfl⟩
    | _ => exact ⟨1, rfl⟩
  rw [CString.strip, hsep, skipSpaces_replicate n hgood.head, trimEnd_eq_self hgood.last]

/-- **The header** of a key is stored. -/
theorem store_spec {mem : ℤ → Option UInt8} (h : ReqHeader) (req : HttpReqHeader) {q : ℤ}
    {value : List UInt8} (hvalue : Holds mem q value) (hslash : h = .refer → 47 ∈ value.dropLast) :
    ∃ req', (taken h.key).elim (some req)
        (KnownHeader.store mem req q (q + value.length - 1)) = some req' ∧
      Stored mem req req' value h := by
  cases h with
  | host => exact ⟨_, rfl, _, CStringT.denotes_value hvalue, rfl⟩
  | ua => exact ⟨_, rfl, _, CStringT.denotes_value hvalue, rfl⟩
  | cookie => exact ⟨_, rfl, _, CStringT.denotes_value hvalue, rfl⟩
  | refer =>
    obtain ⟨s, t, hstore, hs, ht⟩ := KnownHeader.store_refer req hvalue (hslash rfl)
    exact ⟨_, hstore, s, t, hs, ht, rfl⟩

/-- **A header line** is cut at its first colon and stored. -/
theorem headerLine_spec {mem : ℤ → Option UInt8} (h : ReqHeader) (req : HttpReqHeader) {p : ℤ}
    {value : List UInt8} (hgood : GoodValue h value) (hline : Holds mem p (h.line value)) :
    ∃ req', headerLine mem req p (p + (h.line value).length) = some (some req') ∧
      Stored mem req req' value h := by
  have hcolon : 58 ∉ h.key := by cases h <;> decide
  obtain ⟨q, hvalueAt, hread⟩ := headerLine_eq req h.key_ne_nil hcolon hline
  rw [hgood.strip] at hvalueAt hread
  obtain ⟨req', hstore, hstored⟩ := store_spec h req hvalueAt hgood.slash
  rw [hstore] at hread
  exact ⟨req', hread, hstored⟩

/-- The parser has stored the values of some headers, one after the other. -/
def StoredAll (mem : ℤ → Option UInt8) :
    List (ReqHeader × List UInt8) → HttpReqHeader → HttpReqHeader → Prop
  | [], req, req' => req' = req
  | (h, value) :: headers, req, req' =>
    ∃ req₁, Stored mem req req₁ value h ∧ StoredAll mem headers req₁ req'

/-- The lines of some headers and the carriage return of the empty line, from the end of the line
before on. -/
def headersText : List (ReqHeader × List UInt8) → List UInt8
  | [] => crStr ++ [13]
  | (h, value) :: headers => crStr ++ (h.line value ++ headersText headers)

theorem headersText_crlf (headers : List (ReqHeader × List UInt8)) :
    ∃ rest, headersText headers = crStr ++ rest := by
  cases headers with
  | nil => exact ⟨_, rfl⟩
  | cons header headers => exact ⟨_, rfl⟩

theorem length_le_headersText (headers : List (ReqHeader × List UInt8)) :
    headers.length ≤ (headersText headers).length := by
  induction headers with
  | nil => exact Nat.zero_le _
  | cons header headers ih =>
    rw [headersText, List.length_append, List.length_append, List.length_cons,
      show crStr.length = 2 from rfl]
    omega

theorem ReqHeader.line_head (h : ReqHeader) (value : List UInt8) :
    (h.line value).head? ≠ some 32 := by
  cases h <;> exact fun heq => absurd (Option.some.inj heq) (by decide)

theorem ReqHeader.line_no_cr {h : ReqHeader} {value : List UInt8} (hgood : GoodValue h value) :
    13 ∉ h.line value := by
  have hfixed : 13 ∉ h.key ∧ 13 ∉ h.sep := by cases h <;> decide
  have hvalue : 13 ∉ value := fun hmem => (hgood.no_crlf 13 hmem).1 rfl
  simp [line, hfixed, hvalue]

/-- **The loop over the header lines** stores the value of every header. -/
theorem headerLoop_spec {mem : ℤ → Option UInt8} {headers : List (ReqHeader × List UInt8)}
    (hgood : ∀ header ∈ headers, GoodValue header.1 header.2) {fuel : ℕ}
    (hfuel : headers.length + 1 ≤ fuel) (req : HttpReqHeader) {p : ℤ}
    (htext : Holds mem p (headersText headers)) :
    ∃ req', headerLoop mem (p + (headersText headers).length) fuel req p = some (.done .ok req') ∧
      StoredAll mem headers req req' := by
  induction headers generalizing fuel req p with
  | nil =>
    obtain ⟨fuel, rfl⟩ : ∃ k, fuel = k + 1 := ⟨fuel - 1, by omega⟩
    exact ⟨req, headerLoop_blank fuel req htext, rfl⟩
  | cons header headers ih =>
    obtain ⟨h, value⟩ := header
    obtain ⟨fuel, rfl⟩ : ∃ k, fuel = k + 1 := ⟨fuel - 1, by omega⟩
    obtain ⟨hhead, htail⟩ := List.forall_mem_cons.1 hgood
    obtain ⟨rest, hrest⟩ := headersText_crlf headers
    rw [headersText, hrest] at htext ⊢
    obtain ⟨hlineAt, hrestAt, hturn⟩ := headerLoop_turn fuel req [] htext (by simp)
      (not_infix_of_notMem (ReqHeader.line_no_cr hhead)) (h.line_head value)
    obtain ⟨req₁, hline, hstored⟩ := headerLine_spec h req hhead hlineAt
    obtain ⟨req', hloop, hall⟩ := ih htail (Nat.le_of_succ_le_succ hfuel) req₁ (hrest ▸ hrestAt)
    refine ⟨req', hturn.trans ?_, req₁, hstored, hall⟩
    rw [hline, ← hrest]
    exact hloop

theorem requestLine_spec {mem : ℤ → Option UInt8} (req : HttpReqHeader) {p : ℤ}
    {path rest : List UInt8} (hne : path ≠ []) (hpath : ∀ c ∈ path, c ≠ 32 ∧ c ≠ 13 ∧ c ≠ 10)
    (htext : Holds mem p (requestText path ++ (crStr ++ rest))) :
    requestLine mem req p (p + (requestText path ++ (crStr ++ rest)).length) =
      some (.ok, { req with
        method := .get, uri := cStringSet (p + 4) path.length, version := httpV11 },
        p + (requestText path).length) :=
  @requestLine_version mem req p path rest .v11 hne hpath htext

/-- **The parser** reads the request line, and then stores the value of every header. -/
theorem httpReqHeaderParser_spec {mem : ℤ → Option UInt8} {path : List UInt8}
    {headers : List (ReqHeader × List UInt8)} (req : HttpReqHeader) (hne : path ≠ [])
    (hpath : ∀ c ∈ path, c ≠ 32 ∧ c ≠ 13 ∧ c ≠ 10)
    (hgood : ∀ header ∈ headers, GoodValue header.1 header.2)
    (htext : Holds mem 0 (requestText path ++ headersText headers)) {dataLen : ℤ}
    (hlen : dataLen = (requestText path ++ headersText headers).length + 1) :
    ∃ uri req', httpReqHeaderParser mem req 0 dataLen = some (.done .ok req') ∧
      CStringT.Denotes mem uri path ∧
        StoredAll mem headers { req with method := .get, uri := uri, version := httpV11 } req' := by
  have hpathAt : Holds mem (0 + 4) path := by
    have hline : Holds mem 0 (ascii "GET " ++ path ++ ascii " HTTP/1.1") := (holds_append.1 htext).1
    exact (holds_append.1 (holds_append.1 hline).1).2
  have hend : 0 + dataLen - 1 = 0 + ((requestText path ++ headersText headers).length : ℤ) := by
    rw [hlen]
    ring
  have hrequest : requestLine mem req 0 (0 + (requestText path ++ headersText headers).length) =
      some (Code.ok, { req with
        method := .get, uri := cStringSet (0 + 4) path.length, version := httpV11 },
        0 + ((requestText path).length : ℤ)) := by
    obtain ⟨rest, hrest⟩ := headersText_crlf headers
    rw [hrest] at htext ⊢
    exact requestLine_spec req hne hpath htext
  have hfuel : headers.length + 1 ≤ dataLen.toNat + 1 := by
    have hnum := length_le_headersText headers
    rw [List.length_append] at hlen
    omega
  obtain ⟨req', hloop, hall⟩ := headerLoop_spec hgood hfuel _ (holds_append.1 htext).2
  refine ⟨cStringSet (0 + 4) path.length, req', ?_, ⟨rfl, hpathAt⟩, hall⟩
  rw [httpReqHeaderParser, hend, hrequest, List.length_append, Nat.cast_add, ← add_assoc]
  exact hloop

end F1Goal
