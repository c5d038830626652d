import F1Goal.HttpRead
import F1Goal.HttpSafety

/-!
# Which request lines are accepted (`http_req_header_parser`)

A request whose first line the parser takes is accepted, whatever its header lines are. The method
and the version are compared with what stands there as prefixes, and no blank is asked for behind
the method. So lines are taken that are not of the grammar, and `grammarKept_iff` says which.
-/

namespace F1Goal

open Block CString

/-! ### The header lines -/

/-- What the request line has stored is still there. -/
def KeepsLine (req req' : HttpReqHeader) : Prop := req'.uri = req.uri ∧ req'.version = req.version

section Headers

variable {mem : ℤ → Option UInt8}

/-- **`add_header`** leaves alone what the request line has stored. -/
theorem addHeader_keeps (req : HttpReqHeader) (p pe q qe : ℤ) :
    Ensures (addHeader mem req p pe q qe) (KeepsLine req) := by
  have hsame : Ensures (some req) (KeepsLine req) := Ensures.some_iff.2 ⟨rfl, rfl⟩
  have hstored {req' : HttpReqHeader} (h : KeepsLine req req') :
      Ensures (pure req') (KeepsLine req) := Ensures.pure_iff.2 h
  apply Ensures.bind
  intro ch
  refine .ite (.bind_ite (hstored ⟨rfl, rfl⟩) (.bind_ite (hstored ⟨rfl, rfl⟩)
    (.bind_ite (hstored ⟨rfl, rfl⟩) (.bind_ite (hstored ⟨rfl, rfl⟩) hsame)))) ?_
  refine .ite (.bind_ite (hstored ⟨rfl, rfl⟩) hsame) ?_
  refine .ite (.bind_ite (hstored ⟨rfl, rfl⟩) hsame) ?_
  refine .ite (.bind_ite ?_ hsame) (.ite (.bind_ite (hstored ⟨rfl, rfl⟩) hsame) hsame)
  apply Ensures.bind
  rintro (_ | slash)
  · exact hsame
  · exact hstored ⟨rfl, rfl⟩

theorem headerLine_keeps (req : HttpReqHeader) (p pe : ℤ) :
    Ensures (headerLine mem req p pe) fun r => ∀ req', r = some req' → KeepsLine req req' := by
  have hbreak : Ensures (pure none) fun r : Option HttpReqHeader =>
      ∀ req', r = some req' → KeepsLine req req' :=
    Ensures.pure_iff.2 fun _ heq => nomatch heq
  rw [headerLine]
  refine .ite hbreak ?_
  apply Ensures.bind
  rintro (_ | key)
  · exact hbreak
  refine .ite hbreak ?_
  apply Ensures.bind
  intro value
  apply Ensures.bind
  intro last req'' heq req' hreq
  obtain ⟨req₁, hadd, hsome⟩ := Option.bind_eq_some_iff.1 heq
  cases hsome
  cases hreq
  exact addHeader_keeps req p key value last _ hadd

/-- **The loop over the header lines** succeeds when it returns, and leaves alone what the request
line has stored. -/
theorem headerLoop_keeps {pDataEnd : ℤ} {fuel : ℕ} (req : HttpReqHeader) (p : ℤ) :
    Ensures (headerLoop mem pDataEnd fuel req p) fun r =>
      ∀ code req', r = .done code req' → code = .ok ∧ KeepsLine req req' := by
  induction fuel generalizing req p with
  | zero => exact fun _ heq => nomatch heq
  | succ fuel ih =>
    intro r hr code req' hdone
    subst hdone
    rw [headerLoop] at hr
    split at hr
    · cases hr
    rename_i b hb
    split at hr
    · cases hr
    · split at hr
      · cases hr
      · cases hr
        exact ⟨rfl, rfl, rfl⟩
      · rename_i req₁ hline
        cases hr
        exact ⟨rfl, headerLine_keeps req b pDataEnd _ hline _ rfl⟩
    · rename_i e he
      split at hr
      · cases hr
      · cases hr
        exact ⟨rfl, rfl, rfl⟩
      · rename_i req₁ hline
        obtain ⟨hcode, huri, hversion⟩ := ih req₁ e _ hr code req' rfl
        obtain ⟨huri₁, hversion₁⟩ := headerLine_keeps req b e _ hline _ rfl
        exact ⟨hcode, huri.trans huri₁, hversion.trans hversion₁⟩

end Headers

/-! ### The grammar -/

/-- A request line of the grammar. -/
def IsRequestLine (line path : List UInt8) (version : HttpVersion) : Prop :=
  path ≠ [] ∧ 32 ∉ path ∧ ∃ lead behind, line = looseText (lead + 1) path behind version []

/-- A line with no blank behind the method, or with something behind the version. -/
def SlipsThrough (line : List UInt8) : Prop :=
  ∃ lead path behind version junk, path ≠ [] ∧ 32 ∉ path ∧
    line = looseText lead path behind version junk ∧ (lead = 0 ∨ junk ≠ [])

/-- The parser accepts these bytes with a first line of the grammar only, and stores its target and
its version. -/
def GrammarKept (line rest : List UInt8) : Prop :=
  ∀ req req' : HttpReqHeader,
    httpReqHeaderParser (ofList (line ++ (crStr ++ rest))) req 0
        (line ++ (crStr ++ rest)).length = some (.done .ok req') →
      ∃ path version, IsRequestLine line path version ∧
        req'.uri.Denotes (ofList (line ++ (crStr ++ rest))) path ∧ req'.version = version.code

theorem IsRequestLine.takenLine_eq {line path : List UInt8} {version : HttpVersion}
    (h : IsRequestLine line path version) : ∃ lead, takenLine line = some (lead + 1, path, version) := by
  obtain ⟨hne, hblank, lead, behind, rfl⟩ := h
  exact ⟨lead, takenLine_eq_some_iff.2 ⟨hne, hblank, behind, [], rfl⟩⟩

/-- A line of the grammar does not slip through. -/
theorem IsRequestLine.not_slipsThrough {line path : List UInt8} {version : HttpVersion}
    (h : IsRequestLine line path version) : ¬SlipsThrough line := by
  rintro ⟨lead', path', behind', version', junk', hne', hblank', hline, hslip⟩
  obtain ⟨lead, htaken⟩ := h.takenLine_eq
  have htaken' : takenLine line = some (lead', path', version') :=
    takenLine_eq_some_iff.2 ⟨hne', hblank', behind', junk', hline⟩
  obtain ⟨rfl, rfl, rfl⟩ : lead' = lead + 1 ∧ path' = path ∧ version' = version := by
    simpa using htaken'.symm.trans htaken
  rcases hslip with hzero | hjunk
  · exact absurd hzero (Nat.succ_ne_zero lead)
  · obtain ⟨-, -, lead₁, behind, rfl⟩ := h
    exact hjunk (looseText_junk hne' hblank' hline).symm

/-- The bytes of a list as a block. -/
theorem ofList_eq_view (s : List UInt8) : ofList s = view (fun i => s.getD i.toNat 0) 0 s.length := by
  funext i
  by_cases h0 : 0 ≤ i
  · by_cases h1 : i < 0 + (s.length : ℤ)
    · have hlt : i.toNat < s.length := by omega
      rw [ofList, view, if_pos h0, if_pos ⟨h0, h1⟩, List.getElem?_eq_getElem hlt,
        List.getD_eq_getElem?_getD, List.getElem?_eq_getElem hlt, Option.getD_some]
    · have hle : s.length ≤ i.toNat := by omega
      rw [ofList, view, if_pos h0, if_neg fun h => h1 h.2, List.getElem?_eq_none hle]
  · rw [ofList, view, if_neg h0, if_neg fun h => h0 h.1]

section Parser

variable {line rest : List UInt8}

/-- **What the parser makes of a request** depends on its first line. -/
theorem httpReqHeaderParser_line (req : HttpReqHeader) (hrest : rest ≠ [])
    (hline : ¬ crStr <:+: line) :
    ∃ code req', httpReqHeaderParser (ofList (line ++ (crStr ++ rest))) req 0
        (line ++ (crStr ++ rest)).length = some (.done code req') ∧
      (code = .ok → ∃ lead path version, takenLine line = some (lead, path, version) ∧
        req'.uri.Denotes (ofList (line ++ (crStr ++ rest))) path ∧ req'.version = version.code) ∧
      (code ≠ .ok → takenLine line = none) := by
  obtain ⟨front, last, rfl⟩ := (List.eq_nil_or_concat rest).resolve_left hrest
  obtain ⟨data, hdata⟩ : ∃ data, data = line ++ (crStr ++ front.concat last) := ⟨_, rfl⟩
  have hsplit : data = line ++ (crStr ++ front) ++ [last] := by
    rw [hdata, List.concat_eq_append]
    simp
  have hfront : Holds (ofList data) 0 (line ++ (crStr ++ front)) :=
    Holds.of_prefix (holds_ofList [] data) ⟨[last], hsplit.symm⟩
  have hend : 0 + (data.length : ℤ) - 1 = 0 + ((line ++ (crStr ++ front)).length : ℤ) := by
    rw [hsplit, List.length_append, List.length_singleton]
    push_cast
    ring
  rw [← hdata]
  obtain ⟨r, hr, hread⟩ := requestLine_eq req hfront hline
  obtain ⟨code, req', hdone, -⟩ :=
    httpReqHeaderParser_safe (fun i => data.getD i.toNat 0) req 0 data.length
  rw [← ofList_eq_view] at hdone
  refine ⟨code, req', hdone, ?_⟩
  rw [httpReqHeaderParser, hend, hr] at hdone
  cases htaken : takenLine line with
  | none =>
    obtain ⟨code', req₁, e⟩ := r
    rw [htaken] at hread
    obtain rfl : code' = .err := hread
    cases hdone
    exact ⟨fun h => (by cases h), fun _ => rfl⟩
  | some taken =>
    obtain ⟨lead, path, version⟩ := taken
    rw [htaken] at hread
    obtain rfl : r = _ := hread
    obtain ⟨rfl, huri, hversion⟩ := headerLoop_keeps _ _ _ hdone code req' rfl
    refine ⟨fun _ => ⟨lead, path, version, rfl, ?_, hversion⟩, fun h => absurd rfl h⟩
    obtain ⟨-, -, behind, junk, rfl⟩ := takenLine_eq_some_iff.1 htaken
    rw [huri]
    refine ⟨rfl, ?_⟩
    have htext : Holds (ofList data) 0 (ascii "GET" ++ (List.replicate lead 32 ++ (path ++
        (List.replicate (behind + 1) 32 ++ (version.text ++ junk))))) := (holds_append.1 hfront).1
    have hpath := (holds_append.1 (holds_append.1 (holds_append.1 htext).2).2).1
    rwa [List.length_replicate] at hpath

/-- **When only request lines of the grammar are accepted**: unless the first line has no blank
behind the method, or something behind the version. -/
theorem grammarKept_iff (hrest : rest ≠ []) (hline : ¬ crStr <:+: line) :
    GrammarKept line rest ↔ ¬SlipsThrough line := by
  constructor
  · intro hkept hslip
    obtain ⟨code, req', hdone, -, hrefused⟩ :=
      httpReqHeaderParser_line httpReqHeaderClear hrest hline
    have htaken : takenLine line ≠ none := by
      obtain ⟨lead, path, behind, version, junk, hne, hblank, hloose, -⟩ := hslip
      rw [takenLine_eq_some_iff.2 ⟨hne, hblank, behind, junk, hloose⟩]
      exact Option.some_ne_none _
    obtain rfl : code = .ok := not_not.1 (mt hrefused htaken)
    obtain ⟨path, version, hof, -⟩ := hkept _ _ hdone
    exact hof.not_slipsThrough hslip
  · intro hno req req' hok
    obtain ⟨code, req₁, hdone, hread, -⟩ := httpReqHeaderParser_line req hrest hline
    cases hdone.symm.trans hok
    obtain ⟨lead, path, version, htaken, huri, hversion⟩ := hread rfl
    obtain ⟨hne, hblank, behind, junk, hloose⟩ := takenLine_eq_some_iff.1 htaken
    refine ⟨path, version, ⟨hne, hblank, ?_⟩, huri, hversion⟩
    have hslips : ¬(lead = 0 ∨ junk ≠ []) := fun h =>
      hno ⟨lead, path, behind, version, junk, hne, hblank, hloose, h⟩
    obtain ⟨hlead, hjunk⟩ := not_or.1 hslips
    obtain ⟨lead, rfl⟩ := Nat.exists_eq_succ_of_ne_zero hlead
    rw [not_not.1 hjunk] at hloose
    exact ⟨lead, behind, hloose⟩

end Parser

/-- A request line of the grammar. -/
theorem grammarKept_get : GrammarKept (ascii "GET / HTTP/1.1") [13] ↔
    ¬SlipsThrough (ascii "GET / HTTP/1.1") :=
  grammarKept_iff (by decide) (by decide)

/-- A line without a blank behind the method is accepted. -/
theorem get_without_blank :
    ¬∀ line rest : List UInt8, rest ≠ [] → ¬ crStr <:+: line → GrammarKept line rest := by
  intro h
  obtain ⟨path, version, ⟨-, -, lead, behind, hline⟩, -⟩ :=
    h (ascii "GET/ HTTP/1.1") [13] (by decide) (by decide) httpReqHeaderClear
      { httpReqHeaderClear with uri := cStringSet 3 1, version := httpV11 } (by decide +kernel)
  exact absurd (Option.some.inj (congrArg (fun s => s[3]?) hline)) (by decide)

end F1Goal
