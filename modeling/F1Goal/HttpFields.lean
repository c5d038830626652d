import F1Goal.HttpRead
import F1Goal.Lib.Returns

/-!
# The fields of a request

What `http_req_header_parser` stores for any header lines. `add_header` takes a line for a header
when the name of the line begins with the name of the header (`taken`), the loop stops at a line
without a name, and the last line of a request without a closing blank line keeps its carriage
return (`heard`). `fieldsRight_iff` says for which requests the fields are nevertheless those that
the lines name: those in which the last line that is taken for a header is the last one with its
name (`HeaderTold`).
-/

namespace F1Goal

open Block CString

/-! ### Headers and fields -/

/-- The fields that the headers set. -/
inductive ReqField
  | host | ua | cookie | accept | acceptCharset | acceptEncode | acceptLang | referHost | referUri
  deriving DecidableEq, Repr

/-- The field of a request. -/
def ReqField.get : ReqField → HttpReqHeader → CStringT
  | .host => HttpReqHeader.host
  | .ua => HttpReqHeader.ua
  | .cookie => HttpReqHeader.cookie
  | .accept => HttpReqHeader.accept
  | .acceptCharset => HttpReqHeader.acceptCharset
  | .acceptEncode => HttpReqHeader.acceptEncode
  | .acceptLang => HttpReqHeader.acceptLang
  | .referHost => HttpReqHeader.referHost
  | .referUri => HttpReqHeader.referUri

/-- The header that sets a field. -/
def ReqField.header : ReqField → KnownHeader
  | .host => .host
  | .ua => .ua
  | .cookie => .cookie
  | .accept => .accept
  | .acceptCharset => .acceptCharset
  | .acceptEncode => .acceptEncode
  | .acceptLang => .acceptLang
  | .referHost => .refer
  | .referUri => .refer

/-- What a field takes of a value. A `Referer` is split at its first slash, if there is one in front
of its last byte. -/
def ReqField.part (field : ReqField) (value : List UInt8) : Option (List UInt8) :=
  match field with
  | .referHost => if 47 ∈ value.dropLast then some (value.takeWhile (· ≠ 47)) else none
  | .referUri => if 47 ∈ value.dropLast then some (value.dropWhile (· ≠ 47)) else none
  | _ => some value

/-- What a field takes of a line. -/
def ReqField.reads (field : ReqField) (name value : List UInt8) : Option (List UInt8) :=
  if taken name = some field.header then field.part value else none

/-- The field denotes what has been read for it, and is untouched if nothing has. -/
def ReqField.Took (mem : ℤ → Option UInt8) (req req' : HttpReqHeader) (field : ReqField) :
    Option (List UInt8) → Prop
  | none => field.get req' = field.get req
  | some value => (field.get req').Denotes mem value

/-! ### One header -/

/-- **What is stored of a line** are the fields that take a part of its value. -/
theorem store_reads {mem : ℤ → Option UInt8} (req : HttpReqHeader) {q : ℤ} (name : List UInt8)
    {value : List UInt8} (hvalue : Holds mem q value) :
    Returns ((taken name).elim (some req)
        (KnownHeader.store mem req q (q + value.length - 1))) fun req' =>
      ∀ field : ReqField, field.Took mem req req' (field.reads name value) := by
  have hwhole := CStringT.denotes_value hvalue
  cases htaken : taken name with
  | none =>
    refine Returns.some_iff.2 fun field => ?_
    rw [ReqField.reads, if_neg (by simp [htaken])]
    rfl
  | some h =>
    cases h with
    | refer =>
      by_cases hslash : 47 ∈ value.dropLast
      · obtain ⟨s, t, hstore, hs, ht⟩ := KnownHeader.store_refer req hvalue hslash
        refine Returns.of_eq hstore fun field => ?_
        rw [ReqField.reads, htaken]
        cases field with
        | referHost =>
          rw [ReqField.header, if_pos rfl, ReqField.part, if_pos hslash]
          exact hs
        | referUri =>
          rw [ReqField.header, if_pos rfl, ReqField.part, if_pos hslash]
          exact ht
        | _ => simp [ReqField.header, ReqField.Took, ReqField.get]
      · refine Returns.of_eq (KnownHeader.store_refer_none req hvalue hslash) fun field => ?_
        rw [ReqField.reads, htaken]
        cases field <;> simp [ReqField.header, ReqField.part, ReqField.Took, hslash]
    | _ =>
      refine Returns.some_iff.2 fun field => ?_
      rw [ReqField.reads, htaken]
      cases field <;> simp [ReqField.header, ReqField.part, ReqField.Took, ReqField.get, hwhole]

/-! ### One line -/

/-- A line `Name: value`. The blank behind the colon belongs to `value`. -/
structure HeaderLine where
  name : List UInt8
  value : List UInt8
  no_colon : 58 ∉ name
  no_crlf : ¬ crStr <:+: name ++ 58 :: value

/-- The bytes of a line without its end. -/
def HeaderLine.text (line : HeaderLine) : List UInt8 := line.name ++ 58 :: line.value

/-- **A header line** with a name sets the fields that take a part of its value. -/
theorem headerLine_reads {mem : ℤ → Option UInt8} (req : HttpReqHeader) {p : ℤ}
    {name value : List UInt8} (hne : name ≠ []) (hcolon : 58 ∉ name)
    (hline : Holds mem p (name ++ 58 :: value)) :
    ∃ req', headerLine mem req p (p + (name ++ 58 :: value).length) = some (some req') ∧
      ∀ field : ReqField, field.Took mem req req' (field.reads name (strip value)) := by
  obtain ⟨q, hvalueAt, hread⟩ := headerLine_eq req hne hcolon hline
  obtain ⟨req', hstore, htook⟩ := store_reads req name hvalueAt
  rw [hstore] at hread
  exact ⟨req', hread, htook⟩

/-! ### All lines -/

/-- The lines that the loop gets to. It stops at one without a name, and the last line of a request
without a closing blank line ends with a carriage return. -/
def heard (closed : Bool) : List HeaderLine → List (List UInt8 × List UInt8)
  | [] => []
  | line :: lines =>
    if skipSpaces line.name = [] then []
    else (skipSpaces line.name,
      strip (if closed = false ∧ lines = [] then line.value ++ [13] else line.value)) ::
        heard closed lines

/-- What a field takes of the last line that has something for it. -/
def ReqField.lastRead (field : ReqField) (lines : List (List UInt8 × List UInt8)) :
    Option (List UInt8) :=
  (lines.filterMap fun line => field.reads line.1 line.2).getLast?

/-- The text from the end of the line before on, without its last byte. -/
def linesText (closed : Bool) : List HeaderLine → List UInt8
  | [] => if closed then crStr ++ [13] else [13]
  | line :: lines => crStr ++ (line.text ++ linesText closed lines)

theorem ReqField.lastRead_cons (field : ReqField) (line : List UInt8 × List UInt8)
    (lines : List (List UInt8 × List UInt8)) :
    field.lastRead (line :: lines) = (field.lastRead lines).or (field.reads line.1 line.2) := by
  rw [lastRead, lastRead, List.filterMap_cons]
  cases field.reads line.1 line.2 with
  | none => simp
  | some value =>
    rw [List.getLast?_cons]
    cases (List.filterMap (fun line => field.reads line.1 line.2) lines).getLast? <;> rfl

theorem ReqField.Took.trans {mem : ℤ → Option UInt8} {req₁ req₂ req₃ : HttpReqHeader}
    {field : ReqField} {a b : Option (List UInt8)} (h₁ : field.Took mem req₁ req₂ a)
    (h₂ : field.Took mem req₂ req₃ b) : field.Took mem req₁ req₃ (b.or a) := by
  cases b with
  | some value => exact h₂
  | none =>
    have heq : field.get req₃ = field.get req₂ := h₂
    cases a with
    | none => exact heq.trans h₁
    | some value =>
      have hset : (field.get req₂).Denotes mem value := h₁
      rw [← heq] at hset
      exact hset

theorem linesText_crlf {closed : Bool} {lines : List HeaderLine}
    (h : ¬ (closed = false ∧ lines = [])) : ∃ rest, linesText closed lines = crStr ++ rest := by
  cases lines with
  | nil =>
    obtain rfl : closed = true := by simpa using h
    exact ⟨_, rfl⟩
  | cons line lines => exact ⟨_, rfl⟩

/-- Behind a line that is not the last one there is something more. -/
theorem closed_or_ne_nil {closed : Bool} {lines : List HeaderLine}
    (h : ¬ (closed = false ∧ lines = [])) : closed = true ∨ lines ≠ [] :=
  (not_and_or.1 h).imp_left Bool.eq_true_of_not_eq_false

/-- The line without the blanks it begins with. -/
def HeaderLine.seen (line : HeaderLine) : List UInt8 := skipSpaces line.name ++ 58 :: line.value

theorem HeaderLine.text_eq (line : HeaderLine) :
    line.text = line.name.takeWhile (· = 32) ++ line.seen := by
  rw [text, seen, skipSpaces, ← List.append_assoc, List.takeWhile_append_dropWhile]

theorem HeaderLine.blanks (line : HeaderLine) : ∀ c ∈ line.name.takeWhile (· = 32), c = 32 := by
  intro c hc
  have hblank := List.mem_takeWhile_imp hc
  exact of_decide_eq_true hblank

theorem HeaderLine.seen_no_crlf (line : HeaderLine) : ¬ crStr <:+: line.seen := fun hmid =>
  line.no_crlf (hmid.trans
    (line.text_eq ▸ List.suffix_append _ _ : line.seen <:+ line.text).isInfix)

theorem seen_head (name value : List UInt8) : (skipSpaces name ++ 58 :: value).head? ≠ some 32 := by
  have hfirst := skipSpaces_head name
  cases hname : skipSpaces name with
  | nil => exact fun h => absurd (Option.some.inj h) (by decide)
  | cons c rest =>
    rw [hname] at hfirst
    exact hfirst

/-- What the loop makes of a line: it stops at one without a name. -/
theorem afterLine_reads {mem : ℤ → Option UInt8} (req : HttpReqHeader) {p : ℤ} (line : HeaderLine)
    {value : List UInt8} (hline : Holds mem p (skipSpaces line.name ++ 58 :: value))
    {next : HttpReqHeader → Option ReqRes} {lines : List (List UInt8 × List UInt8)}
    (hnext : ∀ req₁, Returns (next req₁) fun r => ∃ req', r = .done .ok req' ∧
      ∀ field : ReqField, field.Took mem req₁ req' (field.lastRead lines)) :
    Returns (afterLine next req
        (headerLine mem req p (p + (skipSpaces line.name ++ 58 :: value).length))) fun r =>
      ∃ req', r = .done .ok req' ∧ ∀ field : ReqField, field.Took mem req req' (field.lastRead
        (if skipSpaces line.name = [] then []
          else (skipSpaces line.name, strip value) :: lines)) := by
  by_cases hname : skipSpaces line.name = []
  · -- the loop stops, and what has been stored stays
    rw [if_pos hname]
    rw [hname, List.nil_append] at hline ⊢
    rw [headerLine_nameless req hline]
    exact Returns.some_iff.2 ⟨req, rfl, fun _ => rfl⟩
  · have hcolon : 58 ∉ skipSpaces line.name := fun hmem =>
      line.no_colon ((List.dropWhile_suffix _).subset hmem)
    obtain ⟨req₁, hread, htook⟩ := headerLine_reads req hname hcolon hline
    rw [if_neg hname, hread]
    apply (hnext req₁).mono
    rintro _ ⟨req', rfl, hall⟩
    refine ⟨req', rfl, fun field => ?_⟩
    rw [ReqField.lastRead_cons]
    exact (htook field).trans (hall field)

/-- **The loop** stores what the lines that it gets to have for each field. -/
theorem headerLoop_reads {mem : ℤ → Option UInt8} {closed : Bool} {lines : List HeaderLine}
    (hend : closed = true ∨ lines ≠ []) {fuel : ℕ} (hfuel : lines.length + 1 ≤ fuel)
    (req : HttpReqHeader) {p : ℤ} (htext : Holds mem p (linesText closed lines)) :
    Returns (headerLoop mem (p + (linesText closed lines).length) fuel req p) fun r =>
      ∃ req', r = .done .ok req' ∧
        ∀ field : ReqField, field.Took mem req req' (field.lastRead (heard closed lines)) := by
  induction lines generalizing fuel req p with
  | nil =>
    obtain rfl : closed = true := by simpa using hend
    obtain ⟨fuel, rfl⟩ : ∃ k, fuel = k + 1 := ⟨fuel - 1, by omega⟩
    exact Returns.of_eq (headerLoop_blank fuel req htext) ⟨req, rfl, fun _ => rfl⟩
  | cons line lines ih =>
    obtain ⟨fuel, rfl⟩ : ∃ k, fuel = k + 1 := ⟨fuel - 1, by omega⟩
    rw [linesText, line.text_eq, List.append_assoc] at htext ⊢
    by_cases hlast : closed = false ∧ lines = []
    · -- the last line ends with the data
      obtain ⟨rfl, rfl⟩ := hlast
      have hseen : line.seen ++ linesText false [] =
          skipSpaces line.name ++ 58 :: (line.value ++ [13]) := List.append_assoc _ _ _
      obtain ⟨hlineAt, hturn⟩ := headerLoop_last fuel req _ htext line.blanks
        (not_infix_cr line.seen_no_crlf) (hseen ▸ seen_head _ _)
      rw [hturn]
      rw [hseen] at hlineAt ⊢
      exact afterLine_reads req line hlineAt fun req₁ =>
        Returns.some_iff.2 ⟨req₁, rfl, fun _ => rfl⟩
    · obtain ⟨rest, hrest⟩ := linesText_crlf hlast
      have hmore := closed_or_ne_nil hlast
      rw [hrest] at htext ⊢
      obtain ⟨hlineAt, hrestAt, hturn⟩ := headerLoop_turn fuel req _ htext line.blanks
        line.seen_no_crlf (seen_head _ _)
      rw [hturn, heard, if_neg hlast, ← hrest]
      rw [← hrest] at hrestAt
      exact afterLine_reads req line hlineAt fun req₁ =>
        ih hmore (Nat.le_of_succ_le_succ hfuel) req₁ hrestAt

/-! ### The request -/

/-- The request line of a `GET` request. -/
structure RequestLine where
  path : List UInt8
  version : HttpVersion
  ne_nil : path ≠ []
  clean : ∀ c ∈ path, c ≠ 32 ∧ c ≠ 13 ∧ c ≠ 10

/-- The bytes of a request line without its end. -/
def RequestLine.text (line : RequestLine) : List UInt8 := requestLineText line.path line.version

/-- The bytes of a request, with or without the closing blank line. -/
def requestBytes (line : RequestLine) (lines : List HeaderLine) (closed : Bool) : List UInt8 :=
  line.text ++ crStr ++ (lines.flatMap fun line => line.text ++ crStr) ++ if closed then crStr else []

theorem linesText_eq (closed : Bool) (lines : List HeaderLine) :
    crStr ++ (lines.flatMap fun line => line.text ++ crStr) ++ (if closed then crStr else []) =
      linesText closed lines ++ [10] := by
  induction lines with
  | nil => cases closed <;> rfl
  | cons line lines ih =>
    rw [linesText, List.append_assoc crStr (line.text ++ _), List.append_assoc line.text, ← ih,
      List.flatMap_cons]
    simp only [List.append_assoc]

theorem requestBytes_eq (line : RequestLine) (lines : List HeaderLine) (closed : Bool) :
    requestBytes line lines closed = line.text ++ linesText closed lines ++ [10] := by
  rw [List.append_assoc, ← linesText_eq, requestBytes]
  simp only [List.append_assoc]

theorem length_le_linesText (closed : Bool) (lines : List HeaderLine) :
    lines.length ≤ (linesText closed lines).length := by
  induction lines with
  | nil => exact Nat.zero_le _
  | cons line lines ih =>
    rw [linesText, List.length_append, List.length_append, List.length_cons,
      show crStr.length = 2 from rfl]
    omega

theorem requestLine_no_cr (line : RequestLine) : 13 ∉ line.text :=
  requestLineText_no_cr line.version line.clean

/-- **The parser** stores for each field what the last line that it gets to has for it. -/
theorem httpReqHeaderParser_reads {mem : ℤ → Option UInt8} (req : HttpReqHeader) {p : ℤ}
    (line : RequestLine) (lines : List HeaderLine) (closed : Bool)
    (htext : Holds mem p (requestBytes line lines closed)) :
    ∃ code req',
      httpReqHeaderParser mem req p (requestBytes line lines closed).length = some (.done code req') ∧
        ∀ field : ReqField, field.Took mem req req' (field.lastRead (heard closed lines)) := by
  rw [requestBytes_eq, holds_append] at htext
  obtain ⟨htext, -⟩ := htext
  have hend : p + ((requestBytes line lines closed).length : ℤ) - 1 =
      p + (line.text ++ linesText closed lines).length := by
    rw [requestBytes_eq, @List.length_append _ _ [10], List.length_singleton]
    push_cast
    ring
  rw [httpReqHeaderParser, hend]
  by_cases hlast : closed = false ∧ lines = []
  · -- the end of the request line is not found
    obtain ⟨rfl, rfl⟩ := hlast
    have hcrlf := not_infix_cr (not_infix_of_notMem (requestLine_no_cr line))
    have hline : requestLine mem req p (p + (line.text ++ linesText false []).length) =
        some (.err, req, p) := by
      have hnone : firstAt crStr (line.text ++ linesText false []) = none :=
        firstAt_eq_none hcrlf
      rw [requestLine, findStr_spec (by decide) htext, hnone]
      rfl
    rw [hline]
    exact ⟨.err, req, rfl, fun _ => rfl⟩
  · obtain ⟨rest, hrest⟩ := linesText_crlf hlast
    have hline : requestLine mem req p (p + (line.text ++ linesText closed lines).length) =
        some (.ok, { req with
          method := .get, uri := cStringSet (p + 4) line.path.length
          version := line.version.code }, p + line.text.length) := by
      rw [hrest] at htext ⊢
      exact requestLine_version req line.ne_nil line.clean htext
    have hmore := closed_or_ne_nil hlast
    have hfuel : lines.length + 1 ≤ ((requestBytes line lines closed).length : ℤ).toNat + 1 := by
      have hnum := length_le_linesText closed lines
      rw [requestBytes_eq, List.length_append, List.length_append]
      omega
    obtain ⟨_, hloop, req', rfl, htook⟩ := headerLoop_reads hmore hfuel { req with
      method := .get, uri := cStringSet (p + 4) line.path.length, version := line.version.code }
      (holds_append.1 htext).2
    rw [hline, List.length_append, Nat.cast_add, ← add_assoc]
    refine ⟨.ok, req', hloop, fun field => ?_⟩
    have hsame : field.Took mem req { req with
        method := .get, uri := cStringSet (p + 4) line.path.length
        version := line.version.code } none := by
      cases field <;> rfl
    simpa using hsame.trans (htook field)

/-! ### What the lines name -/

/-- The value of the last line with exactly this name. -/
def lastNamed (key : List UInt8) (lines : List HeaderLine) : Option (List UInt8) :=
  (lines.filterMap fun line => if line.name = key then some (strip line.value) else none).getLast?

/-- The fields are those that the lines name. A `Referer` with a slash is split at its first one. -/
def FieldsRight (lines : List HeaderLine) (text : List UInt8) : Prop :=
  ∀ (mem : ℤ → Option UInt8) (pData : ℤ) (req : HttpReqHeader), Holds mem pData text →
    ∃ code req', httpReqHeaderParser mem req pData text.length = some (.done code req') ∧
      (∀ field : ReqField, field.header ≠ .refer →
        field.Took mem req req' (lastNamed field.header.key lines)) ∧
      ∀ value, lastNamed KnownHeader.refer.key lines = some value → 47 ∈ value →
        req'.referHost.Denotes mem (value.takeWhile (· ≠ 47)) ∧
          req'.referUri.Denotes mem (value.dropWhile (· ≠ 47))

/-- The place of the last element with a property. -/
def IsLast {α : Type} (P : α → Prop) (l : List α) (i : ℕ) : Prop :=
  (∃ a, l[i]? = some a ∧ P a) ∧ ∀ j, i < j → ∀ a, l[j]? = some a → ¬P a

/-- A heard line that `add_header` takes for the header. A `Referer` has a slash in front of the last
byte of its value. -/
def TakenFor (h : KnownHeader) (line : List UInt8 × List UInt8) : Prop :=
  taken line.1 = some h ∧ (h = .refer → 47 ∈ line.2.dropLast)

/-- **The lines tell the header by its name.** The last line with exactly the name of the header is
the last one that is heard and taken for it, and is ended by a line break that is found; or another
line is the last one taken for it, and happens to have the same value. Where no line has the name,
none is taken for it. Of a `Referer` this is asked for when its value has a slash. -/
structure HeaderTold (lines : List HeaderLine) (closed : Bool) (h : KnownHeader) : Prop where
  named : ∀ (i : ℕ) (line : HeaderLine), IsLast (fun line => line.name = h.key) lines i →
    lines[i]? = some line → (h = .refer → 47 ∈ strip line.value) →
      ∃ j, IsLast (TakenFor h) (heard closed lines) j ∧
        (j = i ∧ (closed = true ∨ i + 1 < lines.length) ∨
          j ≠ i ∧ ∃ name, (heard closed lines)[j]? = some (name, strip line.value))
  unnamed : h ≠ .refer → (∀ line ∈ lines, line.name ≠ h.key) →
    ∀ line ∈ heard closed lines, ¬TakenFor h line

/-- What is stored is what the lines name. -/
structure ReadAsNamed (lines : List HeaderLine) (closed : Bool) : Prop where
  whole : ∀ field : ReqField, field.header ≠ .refer →
    field.lastRead (heard closed lines) = lastNamed field.header.key lines
  refer : ∀ value, lastNamed KnownHeader.refer.key lines = some value → 47 ∈ value →
    ReqField.referHost.lastRead (heard closed lines) = some (value.takeWhile (· ≠ 47)) ∧
      ReqField.referUri.lastRead (heard closed lines) = some (value.dropWhile (· ≠ 47))

theorem CStringT.Denotes.unique {mem : ℤ → Option UInt8} {s : CStringT} {v w : List UInt8}
    (hv : s.Denotes mem v) (hw : s.Denotes mem w) : v = w :=
  hv.2.eq_of_length hw.2 (by exact_mod_cast hv.1.symm.trans hw.1)

/-- A record in which no field is a slice. -/
def noSlices : HttpReqHeader :=
  let none := cStringSet 0 (-1)
  { version := 0, method := .get, host := none, uri := none, ua := none, cookie := none
    referUri := none, referHost := none, accept := none, acceptCharset := none
    acceptEncode := none, acceptLang := none }

theorem noSlices_not_denotes {mem : ℤ → Option UInt8} {field : ReqField} {value : List UInt8} :
    ¬ (field.get noSlices).Denotes mem value := by
  rintro ⟨hlen, -⟩
  have hneg : (field.get noSlices).len = -1 := by cases field <;> rfl
  omega

/-- In such a record one sees what has been read. -/
theorem ReqField.Took.unique {mem : ℤ → Option UInt8} {req' : HttpReqHeader} {field : ReqField}
    {a b : Option (List UInt8)} (ha : field.Took mem noSlices req' a)
    (hb : field.Took mem noSlices req' b) : a = b := by
  cases a with
  | none =>
    cases b with
    | none => rfl
    | some w =>
      have hsame : field.get req' = field.get noSlices := ha
      have hset : (field.get req').Denotes mem w := hb
      exact absurd (hsame ▸ hset) noSlices_not_denotes
  | some v =>
    have hset : (field.get req').Denotes mem v := ha
    cases b with
    | none =>
      have hsame : field.get req' = field.get noSlices := hb
      exact absurd (hsame ▸ hset) noSlices_not_denotes
    | some w => exact congrArg some (hset.unique hb)

theorem fieldsRight_of_readAsNamed (line : RequestLine) {lines : List HeaderLine} {closed : Bool}
    (h : ReadAsNamed lines closed) : FieldsRight lines (requestBytes line lines closed) := by
  intro mem p req htext
  obtain ⟨code, req', hparser, htook⟩ := httpReqHeaderParser_reads req line lines closed htext
  refine ⟨code, req', hparser, fun field hfield => h.whole field hfield ▸ htook field, ?_⟩
  intro value hvalue hslash
  obtain ⟨hhost, huri⟩ := h.refer value hvalue hslash
  have hhostTook := htook .referHost
  have huriTook := htook .referUri
  rw [hhost] at hhostTook
  rw [huri] at huriTook
  exact ⟨hhostTook, huriTook⟩

/-- The line is named as the parser reads it. -/
structure PlainLine (line : HeaderLine) : Prop where
  name : skipSpaces line.name = line.name ∧ line.name ≠ []
  exact : ∀ h, taken line.name = some h → line.name = h.key
  slash : line.name = KnownHeader.refer.key → 47 ∈ strip line.value → 47 ∈ (strip line.value).dropLast

theorem taken_key (h : KnownHeader) : taken h.key = some h := by
  cases h <;> decide

theorem PlainLine.taken_iff {line : HeaderLine} (hline : PlainLine line) (h : KnownHeader) :
    taken line.name = some h ↔ line.name = h.key := by
  constructor
  · exact hline.exact h
  · rintro heq
    rw [heq, taken_key]

theorem heard_plain {lines : List HeaderLine} (hplain : ∀ line ∈ lines, PlainLine line) :
    heard true lines = lines.map fun line => (line.name, strip line.value) := by
  induction lines with
  | nil => rfl
  | cons line lines ih =>
    obtain ⟨hline, hlines⟩ := List.forall_mem_cons.1 hplain
    obtain ⟨hname, hne⟩ := hline.name
    rw [heard, hname, if_neg hne, if_neg (by simp), ih hlines, List.map_cons]

/-- What a field takes of plain lines that are all ended. -/
theorem lastRead_plain {lines : List HeaderLine} (hplain : ∀ line ∈ lines, PlainLine line)
    (field : ReqField) : field.lastRead (heard true lines) =
      (lines.filterMap fun line =>
        if line.name = field.header.key then field.part (strip line.value) else none).getLast? := by
  rw [heard_plain hplain, ReqField.lastRead, List.filterMap_map]
  congr 1
  apply List.filterMap_congr
  intro line hmem
  simp only [Function.comp_apply, ReqField.reads, (hplain line hmem).taken_iff]

/-- The part that is taken of the last value is the last part that is taken. -/
theorem getLast?_bind {α β γ : Type} {l : List α} {g : α → Option β} {h : β → Option γ} {v : β}
    {u : γ} (hlast : (l.filterMap g).getLast? = some v) (hv : h v = some u) :
    (l.filterMap fun x => (g x).bind h).getLast? = some u := by
  obtain ⟨init, hinit⟩ := List.getLast?_eq_some_iff.1 hlast
  rw [← List.filterMap_filterMap, hinit, List.filterMap_append]
  simp [hv]

theorem lastRead_refer {lines : List HeaderLine} (hplain : ∀ line ∈ lines, PlainLine line)
    {field : ReqField} (hfield : field.header = .refer) {value part : List UInt8}
    (hvalue : lastNamed KnownHeader.refer.key lines = some value)
    (hpart : field.part value = some part) : field.lastRead (heard true lines) = some part := by
  rw [lastRead_plain hplain, hfield]
  have hlast := getLast?_bind hvalue hpart
  convert hlast using 4 with line
  split_ifs <;> rfl

/-- What is read of plain lines that are all ended. -/
theorem readAsNamed_plain {lines : List HeaderLine} (hplain : ∀ line ∈ lines, PlainLine line) :
    ReadAsNamed lines true := by
  constructor
  · intro field hfield
    rw [lastRead_plain hplain, lastNamed]
    cases field <;> first | rfl | exact absurd rfl hfield
  · intro value hvalue hslash
    have hfirst : 47 ∈ value.dropLast := by
      obtain ⟨line, hmem, hline⟩ := List.mem_filterMap.1 (List.mem_of_getLast? hvalue)
      split_ifs at hline with hname
      obtain rfl := Option.some.inj hline
      exact (hplain line hmem).slash hname hslash
    exact ⟨lastRead_refer hplain rfl hvalue (if_pos hfirst),
      lastRead_refer hplain rfl hvalue (if_pos hfirst)⟩

/-! ### When the header is told by its name -/

section Last

variable {α β : Type} {P : α → Prop} {l : List α} {i : ℕ} {a : α}

theorem exists_isLast (P : α → Prop) (l : List α) : (∃ i, IsLast P l i) ∨ ∀ a ∈ l, ¬P a := by
  induction l with
  | nil => exact .inr fun a ha => absurd ha List.not_mem_nil
  | cons b l ih =>
    rcases ih with ⟨i, ⟨a, ha, hPa⟩, hbehind⟩ | hnone
    · refine .inl ⟨i + 1, ⟨a, ha, hPa⟩, fun j hj c hc => ?_⟩
      obtain ⟨k, rfl⟩ : ∃ k, j = k + 1 := ⟨j - 1, by omega⟩
      exact hbehind k (by omega) c hc
    · by_cases hb : P b
      · refine .inl ⟨0, ⟨b, rfl, hb⟩, fun j hj c hc => ?_⟩
        obtain ⟨k, rfl⟩ : ∃ k, j = k + 1 := ⟨j - 1, by omega⟩
        exact hnone c (List.mem_of_getElem? hc)
      · exact .inr (List.forall_mem_cons.2 ⟨hb, hnone⟩)

/-- What is last taken of a list is taken of the last element of which something is. -/
theorem IsLast.getLast? {g : α → Option β} (h : IsLast P l i) (ha : l[i]? = some a)
    (hP : ∀ b ∈ l, (P b ↔ g b ≠ none)) : (l.filterMap g).getLast? = g a := by
  obtain ⟨⟨b, hb, hPb⟩, hbehind⟩ := h
  obtain rfl : b = a := Option.some.inj (hb.symm.trans ha)
  obtain ⟨hi, hget⟩ := List.getElem?_eq_some_iff.1 ha
  have hdrop : (l.drop (i + 1)).filterMap g = [] := by
    rw [List.filterMap_eq_nil_iff]
    intro c hc
    obtain ⟨k, hk⟩ := List.mem_iff_getElem?.1 hc
    rw [List.getElem?_drop] at hk
    have hnot := hbehind (i + 1 + k) (by omega) c hk
    rw [hP c (List.mem_of_getElem? hk), not_ne_iff] at hnot
    exact hnot
  obtain ⟨v, hv⟩ := Option.ne_none_iff_exists'.1 ((hP b (List.mem_of_getElem? hb)).1 hPb)
  have hsplit : l = l.take i ++ b :: l.drop (i + 1) := by
    rw [← hget, List.getElem_cons_drop, List.take_append_drop]
  rw [hsplit, List.filterMap_append, List.filterMap_cons, hv, hdrop, List.getLast?_append]
  simp

end Last

/-- A line is taken for a header when a field takes a part of it. -/
theorem takenFor_iff (field : ReqField) (line : List UInt8 × List UInt8) :
    TakenFor field.header line ↔ field.reads line.1 line.2 ≠ none := by
  rw [TakenFor, ReqField.reads]
  by_cases htaken : taken line.1 = some field.header
  · rw [if_pos htaken]
    cases field <;> simp [ReqField.header, ReqField.part, htaken]
  · rw [if_neg htaken]
    exact iff_of_false (fun h => htaken h.1) fun h => h rfl

theorem lastRead_of_isLast (field : ReqField) {lines : List (List UInt8 × List UInt8)} {j : ℕ}
    {name value : List UInt8} (h : IsLast (TakenFor field.header) lines j)
    (hj : lines[j]? = some (name, value)) : field.lastRead lines = field.part value := by
  obtain ⟨⟨line, hline, htaken⟩, -⟩ := id h
  obtain rfl : line = (name, value) := Option.some.inj (hline.symm.trans hj)
  rw [ReqField.lastRead, h.getLast? hj fun line _ => takenFor_iff field line]
  exact if_pos htaken.1

theorem lastRead_eq_none_iff {field : ReqField} {lines : List (List UInt8 × List UInt8)} :
    field.lastRead lines = none ↔ ∀ line ∈ lines, ¬TakenFor field.header line := by
  rw [ReqField.lastRead, List.getLast?_eq_none_iff, List.filterMap_eq_nil_iff]
  refine forall₂_congr fun line _ => ?_
  rw [takenFor_iff, not_not]

theorem lastNamed_of_isLast {key : List UInt8} {lines : List HeaderLine} {i : ℕ} {line : HeaderLine}
    (h : IsLast (fun line => line.name = key) lines i) (hi : lines[i]? = some line) :
    lastNamed key lines = some (strip line.value) := by
  obtain ⟨⟨line', hline, hname⟩, -⟩ := id h
  obtain rfl : line' = line := Option.some.inj (hline.symm.trans hi)
  rw [lastNamed, h.getLast? hi fun line _ => ?_]
  · exact if_pos hname
  · split_ifs with heq <;> simp [heq]

theorem lastNamed_eq_none {key : List UInt8} {lines : List HeaderLine}
    (h : ∀ line ∈ lines, line.name ≠ key) : lastNamed key lines = none := by
  rw [lastNamed, List.getLast?_eq_none_iff, List.filterMap_eq_nil_iff]
  exact fun line hline => if_neg (h line hline)

/-- What is heard at a place is the line there. -/
theorem heard_getElem {closed : Bool} {lines : List HeaderLine} {j : ℕ} {name value : List UInt8}
    (h : (heard closed lines)[j]? = some (name, value)) :
    ∃ line, lines[j]? = some line ∧ value =
      strip (if closed = false ∧ j + 1 = lines.length then line.value ++ [13] else line.value) := by
  induction lines generalizing j with
  | nil => cases h
  | cons line lines ih =>
    by_cases hname : skipSpaces line.name = []
    · rw [heard, if_pos hname] at h
      cases h
    rw [heard, if_neg hname] at h
    cases j with
    | zero =>
      have hlast : lines = [] ↔ 0 + 1 = (line :: lines).length := by
        rw [List.length_cons, ← List.length_eq_zero_iff]
        omega
      simp only [hlast] at h
      exact ⟨line, rfl, (congrArg Prod.snd (Option.some.inj h)).symm⟩
    | succ j =>
      obtain ⟨line', hline', hvalue⟩ := ih h
      simp only [List.length_cons, Nat.add_right_cancel_iff]
      exact ⟨line', hline', hvalue⟩

/-- The carriage return is part of the value. -/
theorem strip_cr_ne (value : List UInt8) : strip (value ++ [13]) ≠ strip value := by
  have hskip : skipSpaces (value ++ [13]) = skipSpaces value ++ [13] := by
    rw [skipSpaces, skipSpaces, List.dropWhile_append]
    cases value.dropWhile (· = 32) <;> rfl
  have hcr : strip (value ++ [13]) = skipSpaces value ++ [13] := by
    rw [strip, hskip, trimEnd_eq_self (by simp)]
  have hle : (strip value).length ≤ (skipSpaces value).length :=
    (List.rdropWhile_prefix _ _).length_le
  intro heq
  rw [← heq, hcr, List.length_append, List.length_singleton] at hle
  omega

/-- A header that is stored as a whole has a field of its own. -/
theorem exists_field {h : KnownHeader} (hrefer : h ≠ .refer) :
    ∃ field : ReqField, field.header = h := by
  cases h with
  | acceptLang => exact ⟨.acceptLang, rfl⟩
  | acceptEncode => exact ⟨.acceptEncode, rfl⟩
  | acceptCharset => exact ⟨.acceptCharset, rfl⟩
  | accept => exact ⟨.accept, rfl⟩
  | cookie => exact ⟨.cookie, rfl⟩
  | host => exact ⟨.host, rfl⟩
  | refer => exact absurd rfl hrefer
  | ua => exact ⟨.ua, rfl⟩

section Told

variable {lines : List HeaderLine} {closed : Bool} {h : KnownHeader} {i : ℕ} {line : HeaderLine}

/-- The line that is taken last has the value that is named. -/
theorem HeaderTold.value (htold : HeaderTold lines closed h)
    (hlast : IsLast (fun line => line.name = h.key) lines i) (hi : lines[i]? = some line)
    (hslash : h = .refer → 47 ∈ strip line.value) :
    ∃ j name, IsLast (TakenFor h) (heard closed lines) j ∧
      (heard closed lines)[j]? = some (name, strip line.value) := by
  obtain ⟨j, hj, ⟨rfl, hended⟩ | ⟨-, name, hname⟩⟩ := htold.named i line hlast hi hslash
  · obtain ⟨⟨⟨name, value⟩, hheard, -⟩, -⟩ := id hj
    obtain ⟨line', hline', hvalue⟩ := heard_getElem hheard
    obtain rfl : line' = line := Option.some.inj (hline'.symm.trans hi)
    have hfound : ¬(closed = false ∧ j + 1 = lines.length) := by
      rintro ⟨rfl, hend⟩
      rcases hended with hclosed | hlt
      · cases hclosed
      · omega
    rw [if_neg hfound] at hvalue
    exact ⟨j, name, hj, hvalue ▸ hheard⟩
  · exact ⟨j, name, hj, hname⟩

/-- Where the headers are told by their names, what is stored is what the lines name. -/
theorem readAsNamed_of_told (htold : ∀ h, HeaderTold lines closed h) :
    ReadAsNamed lines closed := by
  constructor
  · intro field hfield
    rcases exists_isLast (fun line : HeaderLine => line.name = field.header.key) lines with
      ⟨i, hlast⟩ | hnone
    · obtain ⟨⟨line, hi, -⟩, -⟩ := id hlast
      obtain ⟨j, name, hj, hheard⟩ :=
        (htold field.header).value hlast hi fun hrefer => absurd hrefer hfield
      rw [lastRead_of_isLast field hj hheard, lastNamed_of_isLast hlast hi]
      cases field <;> first | rfl | exact absurd rfl hfield
    · rw [lastNamed_eq_none hnone, lastRead_eq_none_iff]
      exact (htold field.header).unnamed hfield hnone
  · intro value hvalue hslash
    rcases exists_isLast (fun line : HeaderLine => line.name = KnownHeader.refer.key) lines with
      ⟨i, hlast⟩ | hnone
    · obtain ⟨⟨line, hi, -⟩, -⟩ := id hlast
      rw [lastNamed_of_isLast hlast hi] at hvalue
      obtain rfl := Option.some.inj hvalue
      obtain ⟨j, name, hj, hheard⟩ := (htold .refer).value hlast hi fun _ => hslash
      obtain ⟨⟨taken, htaken, hpart⟩, -⟩ := id hj
      obtain rfl : taken = (name, strip line.value) := Option.some.inj (htaken.symm.trans hheard)
      have hfirst := hpart.2 rfl
      rw [lastRead_of_isLast .referHost hj hheard,
        lastRead_of_isLast .referUri hj hheard]
      exact ⟨if_pos hfirst, if_pos hfirst⟩
    · rw [lastNamed_eq_none hnone] at hvalue
      cases hvalue

/-- What is stored is that of the last line that is taken. -/
theorem ReadAsNamed.value_eq (hread : ReadAsNamed lines closed)
    (hlast : IsLast (fun line => line.name = h.key) lines i) (hi : lines[i]? = some line)
    (hslash : h = .refer → 47 ∈ strip line.value) :
    ∃ j name, IsLast (TakenFor h) (heard closed lines) j ∧
      (heard closed lines)[j]? = some (name, strip line.value) := by
  have hnamed := lastNamed_of_isLast hlast hi
  have hexists (field : ReqField) (hfield : field.header = h)
      (hsome : field.lastRead (heard closed lines) ≠ none) :
      ∃ j name value, IsLast (TakenFor h) (heard closed lines) j ∧
        (heard closed lines)[j]? = some (name, value) := by
    rcases exists_isLast (TakenFor h) (heard closed lines) with ⟨j, hj⟩ | hnone
    · obtain ⟨⟨⟨name, value⟩, hheard, -⟩, -⟩ := id hj
      exact ⟨j, name, value, hj, hheard⟩
    · exact absurd (lastRead_eq_none_iff.2 (hfield.symm ▸ hnone)) hsome
  by_cases hrefer : h = .refer
  · subst hrefer
    obtain ⟨hhost, huri⟩ := hread.refer _ hnamed (hslash rfl)
    obtain ⟨j, name, value, hj, hheard⟩ := hexists .referHost rfl (by simp [hhost])
    obtain ⟨⟨taken, htaken, hpart⟩, -⟩ := id hj
    obtain rfl : taken = (name, value) := Option.some.inj (htaken.symm.trans hheard)
    rw [lastRead_of_isLast .referHost hj hheard, ReqField.part, if_pos (hpart.2 rfl)] at hhost
    rw [lastRead_of_isLast .referUri hj hheard, ReqField.part, if_pos (hpart.2 rfl)] at huri
    have hvalue : value = strip line.value := by
      rw [← @List.takeWhile_append_dropWhile _ (· ≠ 47) value, Option.some.inj hhost,
        Option.some.inj huri, List.takeWhile_append_dropWhile]
    exact ⟨j, name, hj, hvalue ▸ hheard⟩
  · obtain ⟨field, rfl⟩ := exists_field hrefer
    have hwhole := (hread.whole field hrefer).trans hnamed
    obtain ⟨j, name, value, hj, hheard⟩ := hexists field rfl (by simp [hwhole])
    have hpart : field.part value = some value := by
      cases field <;> first | rfl | exact absurd rfl hrefer
    rw [lastRead_of_isLast field hj hheard, hpart] at hwhole
    exact ⟨j, name, hj, Option.some.inj hwhole ▸ hheard⟩

/-- Where what is stored is what the lines name, the headers are told by their names. -/
theorem ReadAsNamed.told (hread : ReadAsNamed lines closed) (h : KnownHeader) :
    HeaderTold lines closed h where
  named i line hlast hi hslash := by
    obtain ⟨j, name, hj, hheard⟩ := hread.value_eq hlast hi hslash
    refine ⟨j, hj, ?_⟩
    by_cases hji : j = i
    · subst hji
      refine .inl ⟨rfl, ?_⟩
      by_contra hended
      rw [not_or, Bool.not_eq_true, not_lt] at hended
      obtain ⟨line', hline', hvalue⟩ := heard_getElem hheard
      obtain rfl : line' = line := Option.some.inj (hline'.symm.trans hi)
      have hj' := (List.getElem?_eq_some_iff.1 hi).1
      rw [if_pos ⟨hended.1, by omega⟩] at hvalue
      exact strip_cr_ne line'.value hvalue.symm
    · exact .inr ⟨hji, name, hheard⟩
  unnamed hrefer hnone := by
    obtain ⟨field, rfl⟩ := exists_field hrefer
    rw [← lastRead_eq_none_iff, hread.whole field hrefer, lastNamed_eq_none hnone]

end Told

/-- **Plain requests.** When all lines are plain and the request ends with a blank line, the headers
are told by their names. -/
theorem headersTold_plain {lines : List HeaderLine} (hplain : ∀ line ∈ lines, PlainLine line)
    (h : KnownHeader) : HeaderTold lines true h :=
  (readAsNamed_plain hplain).told h

/-- **The fields are right** exactly when all headers are told by their names. -/
theorem fieldsRight_iff (line : RequestLine) (lines : List HeaderLine) (closed : Bool) :
    FieldsRight lines (requestBytes line lines closed) ↔ ∀ h, HeaderTold lines closed h := by
  constructor
  · -- a record that denotes nothing shows what has been stored
    intro hright
    have htext : Holds (ofList (requestBytes line lines closed)) 0 (requestBytes line lines closed) :=
      holds_ofList [] _
    obtain ⟨code, req', hparser, hwhole, hrefer⟩ := hright _ 0 noSlices htext
    obtain ⟨code₁, req₁, hparser₁, htook⟩ :=
      httpReqHeaderParser_reads noSlices line lines closed htext
    obtain ⟨rfl, rfl⟩ : code = code₁ ∧ req' = req₁ := by
      simpa using hparser.symm.trans hparser₁
    refine ReadAsNamed.told ⟨fun field hfield => (htook field).unique (hwhole field hfield), ?_⟩
    intro value hvalue hslash
    obtain ⟨hhost, huri⟩ := hrefer value hvalue hslash
    exact ⟨(htook .referHost).unique hhost, (htook .referUri).unique huri⟩
  · exact fun htold => fieldsRight_of_readAsNamed line (readAsNamed_of_told htold)

/-- Without the closing blank line, the `Host` on the last line keeps its carriage return. -/
theorem not_fieldsRight_last :
    ¬ FieldsRight [⟨ascii "Host", ascii " a", by decide, by decide⟩]
      (requestBytes ⟨ascii "/", .v11, by decide, by simp [ascii]⟩
        [⟨ascii "Host", ascii " a", by decide, by decide⟩] false) := by
  intro hright
  obtain ⟨code, req', hparser, hwhole, -⟩ := hright _ 0 noSlices (holds_ofList [] _)
  obtain ⟨code₁, req₁, hparser₁, htook⟩ :=
    httpReqHeaderParser_reads noSlices _ _ _ (holds_ofList [] _)
  obtain ⟨rfl, rfl⟩ : code = code₁ ∧ req' = req₁ := by
    simpa using hparser.symm.trans hparser₁
  have heq := (htook .host).unique (hwhole .host (by decide))
  exact absurd heq (by decide)

end F1Goal
