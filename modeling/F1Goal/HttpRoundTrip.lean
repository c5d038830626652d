import F1Goal.HttpBuild
import F1Goal.HttpRead

/-!
# The parser reads back what the builder writes

A request is built of its request line, of some headers and of an empty last line. `http_round_trip`
follows its bytes from `http_object_add_header` to `http_req_header_parser`, which stores the path
and the values of the headers, and nothing else.
-/

namespace F1Goal

open Block CString

/-- There are four headers. -/
theorem ReqHeader.length_le {l : List ReqHeader} (h : l.Nodup) : l.length ≤ 4 := by
  have hall : l ⊆ [.host, .ua, .cookie, .refer] := fun x _ => by cases x <;> simp
  exact (h.subperm hall).length_le

/-- The constant of `HTTP_HDR_E`. -/
def ReqHeader.hdr : ReqHeader → HttpHdr
  | .host => .host
  | .ua => .ua
  | .cookie => .cookie
  | .refer => .refer

/-- The two tables agree. -/
theorem headerText_eq (h : ReqHeader) (value : List UInt8) :
    headerText h.hdr.id value = h.line value ++ crStr := by
  cases h <;> rfl

/-- The field of a header denotes its value. -/
def Keeps (mem : ℤ → Option UInt8) (req : HttpReqHeader) (value : List UInt8) : ReqHeader → Prop
  | .host => req.host.Denotes mem value
  | .ua => req.ua.Denotes mem value
  | .cookie => req.cookie.Denotes mem value
  | .refer => req.referHost.Denotes mem (value.takeWhile (· ≠ 47)) ∧
      req.referUri.Denotes mem (value.dropWhile (· ≠ 47))

/-- The field of a header is untouched. -/
def Same (req req' : HttpReqHeader) : ReqHeader → Prop
  | .host => req'.host = req.host
  | .ua => req'.ua = req.ua
  | .cookie => req'.cookie = req.cookie
  | .refer => req'.referHost = req.referHost ∧ req'.referUri = req.referUri

/-- What the headers above do not set. -/
def SameRest (req req' : HttpReqHeader) : Prop :=
  req'.method = req.method ∧ req'.version = req.version ∧ req'.uri = req.uri ∧
    req'.accept = req.accept ∧ req'.acceptCharset = req.acceptCharset ∧
      req'.acceptEncode = req.acceptEncode ∧ req'.acceptLang = req.acceptLang

theorem Same.refl (req : HttpReqHeader) (h : ReqHeader) : Same req req h := by
  cases h <;> simp [Same]

theorem Same.trans {req₁ req₂ req₃ : HttpReqHeader} {h : ReqHeader} (h₁ : Same req₁ req₂ h)
    (h₂ : Same req₂ req₃ h) : Same req₁ req₃ h := by
  cases h with
  | refer => exact ⟨h₂.1.trans h₁.1, h₂.2.trans h₁.2⟩
  | _ => exact Eq.trans h₂ h₁

theorem Keeps.of_same {mem : ℤ → Option UInt8} {req req' : HttpReqHeader} {value : List UInt8}
    {h : ReqHeader} (hkeeps : Keeps mem req value h) (hsame : Same req req' h) :
    Keeps mem req' value h := by
  cases h <;> simp only [Same] at hsame <;> simpa only [Keeps, hsame] using hkeeps

/-- A header that is stored sets its own fields only. -/
theorem Stored.effect {mem : ℤ → Option UInt8} {req req' : HttpReqHeader} {value : List UInt8}
    {h : ReqHeader} (hstored : Stored mem req req' value h) :
    Keeps mem req' value h ∧ (∀ h', h' ≠ h → Same req req' h') ∧ SameRest req req' := by
  cases h with
  | refer =>
    obtain ⟨s, t, hs, ht, rfl⟩ := hstored
    exact ⟨⟨hs, ht⟩, fun h' hne => by cases h' <;> simp_all [Same], by simp [SameRest]⟩
  | _ =>
    obtain ⟨s, hs, rfl⟩ := hstored
    exact ⟨hs, fun h' hne => by cases h' <;> simp_all [Same], by simp [SameRest]⟩

/-- Headers that are stored one after the other set their own fields only. -/
theorem StoredAll.effect {mem : ℤ → Option UInt8} {headers : List (ReqHeader × List UInt8)}
    {req req' : HttpReqHeader} (hall : StoredAll mem headers req req')
    (hnodup : (headers.map Prod.fst).Nodup) :
    (∀ header ∈ headers, Keeps mem req' header.2 header.1) ∧
      (∀ h, h ∉ headers.map Prod.fst → Same req req' h) ∧ SameRest req req' := by
  induction headers generalizing req with
  | nil =>
    cases hall
    exact ⟨by simp, fun h _ => Same.refl _ h, by simp [SameRest]⟩
  | cons header headers ih =>
    obtain ⟨h, value⟩ := header
    obtain ⟨req₁, hstored, hall⟩ := hall
    obtain ⟨hnotin, hnodup⟩ := List.nodup_cons.1 hnodup
    obtain ⟨hkeeps, hsame, hrest⟩ := hstored.effect
    obtain ⟨ihkeeps, ihsame, ihrest⟩ := ih hall hnodup
    refine ⟨List.forall_mem_cons.2 ⟨hkeeps.of_same (ihsame h hnotin), ihkeeps⟩, ?_, ?_⟩
    · intro h' hmem
      rw [List.map_cons, List.mem_cons, not_or] at hmem
      exact (hsame h' hmem.1).trans (ihsame h' hmem.2)
    · simp only [SameRest] at hrest ihrest ⊢
      simp only [ihrest, hrest, and_self]

/-- The calls that build a request. -/
def requestCalls (line : HeaderArg) (headers : List (ReqHeader × HeaderArg)) (last : HeaderArg) :
    List (ℕ × HeaderArg) :=
  (HttpHdr.reqLine.id, line) :: (headers.map fun header => (header.1.hdr.id, header.2)) ++
    [(HttpHdr.hdrEnd.id, last)]

theorem headersText_eq (headers : List (ReqHeader × List UInt8)) :
    crStr ++ (headers.flatMap fun header => header.1.line header.2 ++ crStr) ++ crStr =
      headersText headers ++ [10] := by
  induction headers with
  | nil => rfl
  | cons header headers ih =>
    rw [headersText, List.append_assoc crStr (_ ++ _), List.append_assoc (header.1.line header.2),
      ← ih, List.flatMap_cons]
    simp only [List.append_assoc]

/-- The text of a request. -/
theorem requestCalls_text {line last : HeaderArg} {headers : List (ReqHeader × HeaderArg)}
    {path : List UInt8} (hline : line.header = requestText path) (hlast : last.header = []) :
    ((requestCalls line headers last).flatMap fun call => headerText call.1 call.2.header) =
      requestText path ++
        headersText (headers.map fun header => (header.1, header.2.header)) ++ [10] := by
  have hends : headerText HttpHdr.reqLine.id line.header = requestText path ++ crStr ∧
      headerText HttpHdr.hdrEnd.id last.header = crStr := by
    rw [hline, hlast]
    exact ⟨rfl, rfl⟩
  rw [List.append_assoc, ← headersText_eq, requestCalls, List.flatMap_append, List.flatMap_cons,
    List.flatMap_singleton, List.flatMap_map, List.flatMap_map, hends.1, hends.2]
  simp only [headerText_eq, List.append_assoc]

theorem httpObjectCreate_dataLen {objBuf : Option (ℤ → UInt8)} {bufSz : ℕ} {obj : HttpObject}
    (h : httpObjectCreate objBuf bufSz = some obj) : obj.dataLen = 0 := by
  unfold httpObjectCreate at h
  split at h <;> split_ifs at h <;> cases h <;> rfl

/-- The text that the calls leave in the buffer of a fresh object. -/
theorem request_written {objBuf : Option (ℤ → UInt8)} {bufSz : ℕ} {obj obj' : HttpObject}
    {path : List UInt8} {line last : HeaderArg} {headers : List (ReqHeader × HeaderArg)}
    (hfresh : httpObjectCreate objBuf bufSz = some obj) (hline : line.header = requestText path)
    (hlast : last.header = []) (hnodup : (headers.map Prod.fst).Nodup)
    (hadd : addHeaders obj (requestCalls line headers last) = some obj') :
    obj'.written = requestText path ++
      headersText (headers.map fun header => (header.1, header.2.header)) ++ [10] := by
  have hzero := httpObjectCreate_dataLen hfresh
  have hnum : (requestCalls line headers last).length ≤ 6 := by
    have hfour := ReqHeader.length_le hnodup
    rw [List.length_map] at hfour
    simp [requestCalls]
    omega
  have hroom : obj.dataLen + 65549 * (requestCalls line headers last).length < 2 ^ 32 := by
    rw [hzero, Nat.zero_add]
    exact (Nat.mul_le_mul_left _ hnum).trans_lt (by norm_num)
  rw [addHeaders_written hadd hroom, requestCalls_text hline hlast, HttpObject.written, hzero]
  rfl

/-- **The round trip.** On the bytes that `http_object_add_header` has written for a request,
`http_req_header_parser` stores the method, the version, the path and the values of the headers, and
nothing else. -/
theorem http_round_trip (objBuf : Option (ℤ → UInt8)) (bufSz : ℕ) (obj obj' : HttpObject)
    (path : List UInt8) (line last : HeaderArg) (headers : List (ReqHeader × HeaderArg))
    (req : HttpReqHeader) (hfresh : httpObjectCreate objBuf bufSz = some obj) (hne : path ≠ [])
    (hpath : ∀ c ∈ path, c ≠ 32 ∧ c ≠ 13 ∧ c ≠ 10) (hline : line.header = requestText path)
    (hlast : last.header = []) (hnodup : (headers.map Prod.fst).Nodup)
    (hgood : ∀ header ∈ headers, GoodValue header.1 header.2.header)
    (hadd : addHeaders obj (requestCalls line headers last) = some obj') :
    ∃ req', httpReqHeaderParser (view obj'.objBuf 0 obj'.dataLen) req 0 obj'.dataLen =
        some (.done .ok req') ∧
      req'.method = .get ∧ req'.version = httpV11 ∧
        req'.uri.Denotes (view obj'.objBuf 0 obj'.dataLen) path ∧
          (∀ header ∈ headers,
            Keeps (view obj'.objBuf 0 obj'.dataLen) req' header.2.header header.1) ∧
          (∀ h, h ∉ headers.map Prod.fst → Same req req' h) ∧ req'.accept = req.accept ∧
            req'.acceptCharset = req.acceptCharset ∧ req'.acceptEncode = req.acceptEncode ∧
              req'.acceptLang = req.acceptLang := by
  have hwritten := request_written hfresh hline hlast hnodup hadd
  have hread : Holds (view obj'.objBuf 0 obj'.dataLen) 0 obj'.written :=
    holds_slice _ le_rfl le_rfl
  have hlen : (obj'.dataLen : ℤ) = obj'.written.length := by
    rw [HttpObject.written, Mem.length_slice]
  rw [hwritten] at hread hlen
  have hgoodValues : ∀ header ∈ headers.map fun header => (header.1, header.2.header),
      GoodValue header.1 header.2 := List.forall_mem_map.2 hgood
  have hnodupValues :
      ((headers.map fun header => (header.1, header.2.header)).map Prod.fst).Nodup := by
    rwa [List.map_map]
  rw [List.length_append, List.length_singleton, Nat.cast_succ] at hlen
  obtain ⟨uri, req', hparser, huri, hall⟩ :=
    httpReqHeaderParser_spec req hne hpath hgoodValues (holds_append.1 hread).1 hlen
  obtain ⟨hkeeps, hsame, hmethod, hversion, huriSame, haccept⟩ := hall.effect hnodupValues
  refine ⟨req', hparser, hmethod, hversion, ?_, List.forall_mem_map.1 hkeeps, fun h hnot => ?_,
    haccept⟩
  · rw [huriSame]
    exact huri
  · have hset : h ∉ (headers.map fun header => (header.1, header.2.header)).map Prod.fst := by
      rwa [List.map_map]
    exact Same.trans (by cases h <;> simp [Same]) (hsame h hset)

/-- A request with two headers, one of them with a blank and a colon in its value. -/
theorem http_round_trip_two :
    ∃ obj obj' req', httpObjectCreate none 0 = some obj ∧
      addHeaders obj (requestCalls ⟨requestText (ascii "/t"), by decide⟩
        [(.refer, ⟨ascii "x/y", by decide⟩), (.ua, ⟨ascii "a b:c", by decide⟩)]
        ⟨[], by decide⟩) = some obj' ∧
        httpReqHeaderParser (view obj'.objBuf 0 obj'.dataLen) httpReqHeaderClear 0 obj'.dataLen =
          some (.done .ok req') ∧
          req'.uri.Denotes (view obj'.objBuf 0 obj'.dataLen) (ascii "/t") ∧
            req'.ua.Denotes (view obj'.objBuf 0 obj'.dataLen) (ascii "a b:c") ∧
              req'.referHost.Denotes (view obj'.objBuf 0 obj'.dataLen) (ascii "x") ∧
                req'.host = httpReqHeaderClear.host := by
  obtain ⟨obj', hadd⟩ := Option.isSome_iff_exists.1 (show (addHeaders
    (freshObject (fun _ => 0) hoDftBufSz) (requestCalls ⟨requestText (ascii "/t"), by decide⟩
      [(.refer, ⟨ascii "x/y", by decide⟩), (.ua, ⟨ascii "a b:c", by decide⟩)]
      ⟨[], by decide⟩)).isSome = true by decide)
  have hrefer : GoodValue .refer (ascii "x/y") :=
    ⟨by simp [ascii], by decide, by decide, fun _ => by decide⟩
  have hua : GoodValue .ua (ascii "a b:c") :=
    ⟨by simp [ascii], by decide, by decide, fun h => by cases h⟩
  obtain ⟨req', hparser, -, -, huri, hkeeps, hsame, -⟩ := http_round_trip none 0 _ obj' (ascii "/t")
    _ _ _ httpReqHeaderClear rfl (by decide) (by simp [ascii]) rfl rfl (by decide)
    (by simpa using ⟨hrefer, hua⟩) hadd
  exact ⟨_, obj', req', rfl, hadd, hparser, huri,
    hkeeps _ (List.mem_cons_of_mem _ List.mem_cons_self), (hkeeps _ List.mem_cons_self).1, hsame .host (by decide)⟩

end F1Goal
