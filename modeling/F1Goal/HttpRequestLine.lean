import F1Goal.HttpLine

/-!
# The request line (`http_req_header_parser`)

The method and the version are compared with what the text starts with, and any number of blanks,
none included, is skipped behind the method. `takenLine` says what the parser takes of a line
(`requestLine_eq`), and `takenLine_eq_some_iff` which lines those are.
-/

namespace F1Goal

open Block CString

/-! ### Versions -/

/-- The versions that the parser knows. -/
inductive HttpVersion
  | v11 | v10
  deriving DecidableEq, Repr

/-- The version as it is written. -/
def HttpVersion.text : HttpVersion → List UInt8
  | .v11 => ascii "HTTP/1.1"
  | .v10 => ascii "HTTP/1.0"

/-- The version as it is stored. -/
def HttpVersion.code : HttpVersion → UInt8
  | .v11 => httpV11
  | .v10 => httpV10

@[simp] theorem HttpVersion.length_text (version : HttpVersion) : version.text.length = 8 := by
  cases version <;> rfl

/-! ### Lines -/

/-- A method, blanks, a target, blanks, a version, and what follows it on the line. -/
def looseText (lead : ℕ) (path : List UInt8) (behind : ℕ) (version : HttpVersion)
    (junk : List UInt8) : List UInt8 :=
  ascii "GET" ++ (List.replicate lead 32 ++ (path ++ (List.replicate (behind + 1) 32 ++
    (version.text ++ junk))))

/-- The version that a text starts with. -/
def versionOf (w : List UInt8) : Option HttpVersion :=
  if HttpVersion.v11.text <+: w then some .v11
  else if HttpVersion.v10.text <+: w then some .v10
  else none

/-- What the parser takes of a line: the number of blanks behind the method, the target and the
version. -/
def takenLine (line : List UInt8) : Option (ℕ × List UInt8 × HttpVersion) :=
  if ascii "GET" <+: line then
    (versionOf (skipSpaces ((skipSpaces (line.drop 3)).dropWhile (· ≠ 32)))).map fun version =>
      (((line.drop 3).takeWhile (· = 32)).length, (skipSpaces (line.drop 3)).takeWhile (· ≠ 32),
        version)
  else none

theorem versionOf_eq_some {w : List UInt8} {version : HttpVersion} (h : versionOf w = some version) :
    version.text <+: w := by
  unfold versionOf at h
  split_ifs at h with h1 h2
  · cases h
    exact h1
  · cases h
    exact h2

theorem versionOf_append (version : HttpVersion) (junk : List UInt8) :
    versionOf (version.text ++ junk) = some version := by
  cases version with
  | v11 => exact if_pos (List.prefix_append _ _)
  | v10 =>
    have hother : ¬HttpVersion.v11.text <+: HttpVersion.v10.text ++ junk := by
      rintro ⟨rest, h⟩
      exact absurd (List.append_inj_left h (by simp)) (by decide)
    rw [versionOf, if_neg hother, if_pos (List.prefix_append _ _)]

theorem HttpVersion.text_head (version : HttpVersion) (junk : List UInt8) :
    (version.text ++ junk).head? ≠ some 32 := by
  cases version <;> exact fun h => absurd (Option.some.inj h) (by decide)

theorem takeWhile_target {path : List UInt8} (hblank : 32 ∉ path) (z : List UInt8) :
    (path ++ 32 :: z).takeWhile (· ≠ 32) = path := by
  have hpath : ∀ c ∈ path, decide (c ≠ 32) = true := fun c hc => decide_eq_true fun h => hblank (h ▸ hc)
  rw [List.takeWhile_append_of_pos hpath, List.takeWhile_cons_of_neg (by simp), List.append_nil]

theorem dropWhile_target {path : List UInt8} (hblank : 32 ∉ path) (z : List UInt8) :
    (path ++ 32 :: z).dropWhile (· ≠ 32) = 32 :: z := by
  have hpath : ∀ c ∈ path, decide (c ≠ 32) = true := fun c hc => decide_eq_true fun h => hblank (h ▸ hc)
  rw [List.dropWhile_append_of_pos hpath, List.dropWhile_cons_of_neg (by simp)]

theorem takenLine_get (u : List UInt8) :
    takenLine (ascii "GET" ++ u) =
      (versionOf (skipSpaces ((skipSpaces u).dropWhile (· ≠ 32)))).map fun version =>
        ((u.takeWhile (· = 32)).length, (skipSpaces u).takeWhile (· ≠ 32), version) :=
  if_pos (List.prefix_append _ _)

section Loose

variable {path : List UInt8} {lead behind : ℕ} {version : HttpVersion} {junk : List UInt8}

/-- The blanks behind the method, the target, and what stands behind the blanks behind the
target. -/
theorem looseText_parts (hne : path ≠ []) (hblank : 32 ∉ path) :
    ∃ u, looseText lead path behind version junk = ascii "GET" ++ u ∧
      u.takeWhile (· = 32) = List.replicate lead 32 ∧ (skipSpaces u).takeWhile (· ≠ 32) = path ∧
        skipSpaces ((skipSpaces u).dropWhile (· ≠ 32)) = version.text ++ junk := by
  have hhead (z : List UInt8) : (path ++ 32 :: z).head? ≠ some 32 := by
    obtain ⟨c, path, rfl⟩ := List.exists_cons_of_ne_nil hne
    exact fun h => hblank (Option.some.inj h ▸ List.mem_cons_self)
  refine ⟨_, rfl, ?_, ?_, ?_⟩
  · rw [List.replicate_succ, List.cons_append, takeWhile_replicate lead (hhead _)]
  · rw [List.replicate_succ, List.cons_append, skipSpaces_replicate lead (hhead _),
      takeWhile_target hblank]
  · rw [List.replicate_succ, List.cons_append, skipSpaces_replicate lead (hhead _),
      dropWhile_target hblank, ← List.cons_append, ← List.replicate_succ,
      skipSpaces_replicate _ (version.text_head junk)]

theorem takenLine_looseText (hne : path ≠ []) (hblank : 32 ∉ path) :
    takenLine (looseText lead path behind version junk) = some (lead, path, version) := by
  obtain ⟨u, hu, hlead, hpath, hversion⟩ := @looseText_parts path lead behind version junk hne hblank
  rw [hu, takenLine_get, hlead, hpath, hversion, versionOf_append, List.length_replicate]
  rfl

/-- Where two lines of this shape agree, they have the same behind the version. -/
theorem looseText_junk {lead' behind' : ℕ} {junk' : List UInt8} (hne : path ≠ [])
    (hblank : 32 ∉ path)
    (h : looseText lead path behind version junk = looseText lead' path behind' version junk') :
    junk = junk' := by
  obtain ⟨u, hu, -, -, hversion⟩ := @looseText_parts path lead behind version junk hne hblank
  obtain ⟨u', hu', -, -, hversion'⟩ := @looseText_parts path lead' behind' version junk' hne hblank
  rw [hu, hu'] at h
  rw [List.append_cancel_left h] at hversion
  exact List.append_cancel_left (hversion.symm.trans hversion')

end Loose

/-- The target at the start of a text, and the rest, which starts with a blank. -/
theorem exists_target (w : List UInt8) :
    32 ∉ w.takeWhile (· ≠ 32) ∧ w.takeWhile (· ≠ 32) ++ w.dropWhile (· ≠ 32) = w ∧
      (w.dropWhile (· ≠ 32) = [] ∨ ∃ z, w.dropWhile (· ≠ 32) = 32 :: z) := by
  refine ⟨fun hmem => ?_, List.takeWhile_append_dropWhile, ?_⟩
  · simpa using List.mem_takeWhile_imp hmem
  · have hnot := List.head?_dropWhile_not (fun c : UInt8 => decide (c ≠ 32)) w
    cases hdrop : w.dropWhile (· ≠ 32) with
    | nil => exact .inl rfl
    | cons c z =>
      rw [hdrop] at hnot
      obtain rfl : c = 32 := by simpa using hnot
      exact .inr ⟨z, rfl⟩

/-- **What the parser takes of a line** is a line that starts like one of the grammar, with no blank
behind the method perhaps, and anything behind the version. -/
theorem takenLine_eq_some_iff {line path : List UInt8} {lead : ℕ} {version : HttpVersion} :
    takenLine line = some (lead, path, version) ↔
      path ≠ [] ∧ 32 ∉ path ∧ ∃ behind junk, line = looseText lead path behind version junk := by
  constructor
  · intro h
    rw [takenLine] at h
    split_ifs at h with hget
    obtain ⟨u, rfl⟩ := hget
    have hdrop : (ascii "GET" ++ u).drop 3 = u := rfl
    rw [hdrop] at h
    obtain ⟨v, hv, htaken⟩ := Option.map_eq_some_iff.1 h
    simp only [Prod.mk.injEq] at htaken
    obtain ⟨rfl, rfl, rfl⟩ := htaken
    obtain ⟨hblank, hsplit, hend⟩ := exists_target (skipSpaces u)
    obtain ⟨junk, hjunk⟩ := versionOf_eq_some hv
    -- a version follows, so there is a blank behind the target
    obtain ⟨z, hz⟩ : ∃ z, (skipSpaces u).dropWhile (· ≠ 32) = 32 :: z := by
      refine hend.resolve_left fun hnil => ?_
      rw [hnil] at hjunk
      have hlen := congrArg List.length hjunk
      rw [List.length_append, HttpVersion.length_text] at hlen
      exact absurd hlen (by simp [skipSpaces])
    rw [hz] at hsplit hjunk
    refine ⟨fun hnil => ?_, hblank, (z.takeWhile (· = 32)).length, junk, ?_⟩
    · rw [hnil] at hsplit
      exact skipSpaces_head u (hsplit ▸ rfl)
    · have hblanks := exists_blanks (32 :: z)
      rw [List.takeWhile_cons_of_pos (by simp), List.length_cons, ← hjunk] at hblanks
      rw [looseText, ← hblanks, hsplit]
      exact congrArg _ (exists_blanks u)
  · rintro ⟨hne, hblank, behind, junk, rfl⟩
    exact takenLine_looseText hne hblank

/-! ### What the parser reads -/

section Reading

variable {mem : ℤ → Option UInt8} {p : ℤ}

/-- The line end is found behind a line without one. -/
theorem findStr_crlf {line rest : List UInt8}
    (h : Holds mem p (line ++ (crStr ++ rest))) (hline : ¬ crStr <:+: line) :
    findStr mem p (p + (line ++ (crStr ++ rest)).length) crStr = some (some (p + line.length)) := by
  rw [findStr_spec (by decide) h, firstAt_crlf rest hline]
  rfl

/-- **The blank behind the target** is looked for in front of the last byte of the line. Where none
is found, no version can follow. -/
theorem findStr_target {w : List UInt8} (h : Holds mem p w) (hhead : w.head? ≠ some 32) :
    findStr mem p (p + w.length - 1) spStr = some none ∧
        skipSpaces (w.dropWhile (· ≠ 32)) = [] ∨
      ∃ path z, path ≠ [] ∧ 32 ∉ path ∧ w = path ++ 32 :: z ∧
        findStr mem p (p + w.length - 1) spStr = some (some (p + path.length)) := by
  rcases List.eq_nil_or_concat w with rfl | ⟨front, last, rfl⟩
  · have hnone : (p + (([] : List UInt8).length : ℤ) - 1 - p - spStr.length + 1).toNat = 0 := by
      rw [show ((spStr.length : ℕ) : ℤ) = 1 from rfl, List.length_nil]
      omega
    exact .inl ⟨by rw [findStr, hnone]; rfl, rfl⟩
  rw [List.concat_eq_append] at *
  have hend : p + ((front ++ [last]).length : ℤ) - 1 = p + front.length := by
    rw [List.length_append, List.length_singleton]
    push_cast
    ring
  rw [hend, findStr_spec (by decide) (holds_append.1 h).1]
  by_cases hmem : 32 ∈ front
  · obtain ⟨path, z, rfl, hblank⟩ := List.eq_append_cons_of_mem hmem
    refine .inr ⟨path, z ++ [last], ?_, hblank, by simp, ?_⟩
    · rintro rfl
      exact hhead rfl
    · have hfirst : firstAt spStr (path ++ 32 :: z) = some path.length := firstAt_append z hblank
      rw [hfirst]
      rfl
  · have hnone : firstAt spStr front = none := firstAt_of_notMem hmem
    refine .inl ⟨by rw [hnone]; rfl, ?_⟩
    have hfront : ∀ c ∈ front, decide (c ≠ 32) = true :=
      fun c hc => decide_eq_true fun heq => hmem (heq ▸ hc)
    rw [List.dropWhile_append_of_pos hfront]
    by_cases hlast : last = 32
    · subst hlast
      rfl
    · rw [List.dropWhile_cons_of_pos (by simpa using hlast)]
      rfl

/-- **The version** is found by comparing with both. -/
theorem cmpVersion_spec {w : List UInt8} (h : Holds mem p w) :
    ∃ r₁ r₂, cmpStr2 mem p w.length (ascii "HTTP/1.1") = some r₁ ∧
      cmpStr2 mem p w.length (ascii "HTTP/1.0") = some r₂ ∧
        versionOf w = if r₁ = 0 then some .v11 else if r₂ = 0 then some .v10 else none := by
  obtain ⟨r₁, hr₁, h11⟩ := cmpStr2_spec h (show (ascii "HTTP/1.1").length < 512 by decide)
  obtain ⟨r₂, hr₂, h10⟩ := cmpStr2_spec h (show (ascii "HTTP/1.0").length < 512 by decide)
  refine ⟨r₁, r₂, hr₁, hr₂, ?_⟩
  rw [versionOf, HttpVersion.text, HttpVersion.text, if_congr h11 rfl (if_congr h10 rfl rfl)]

/-- What the parser makes of a line. -/
def LineRead (req : HttpReqHeader) (p : ℤ) (line : List UInt8) (r : Code × HttpReqHeader × ℤ) :
    Option (ℕ × List UInt8 × HttpVersion) → Prop
  | none => r.1 = .err
  | some (lead, path, version) => r = (.ok, { req with
      method := .get, uri := cStringSet (p + 3 + lead) path.length, version := version.code },
      p + line.length)

/-- **The request line** is read as `takenLine` says, whatever follows its end. -/
theorem requestLine_eq (req : HttpReqHeader) {line rest : List UInt8}
    (htext : Holds mem p (line ++ (crStr ++ rest))) (hline : ¬ crStr <:+: line) :
    ∃ r, requestLine mem req p (p + (line ++ (crStr ++ rest)).length) = some r ∧
      LineRead req p line r (takenLine line) := by
  have hlineAt := (holds_append.1 htext).1
  rw [requestLine, findStr_crlf htext hline]
  simp only [Option.bind_eq_bind, Option.bind_some]
  by_cases hempty : p + (line.length : ℤ) = p
  · obtain rfl := List.length_eq_zero_iff.1 (by omega : line.length = 0)
    rw [if_pos hempty]
    exact ⟨_, rfl, rfl⟩
  rw [if_neg hempty, add_sub_cancel_left]
  obtain ⟨r, hr, hget⟩ := cmpStr2_spec hlineAt (show (ascii "GET").length < 512 by decide)
  rw [hr, Option.bind_some]
  by_cases hzero : r = 0
  case neg =>
    rw [if_pos hzero, takenLine, if_neg (mt hget.2 hzero)]
    exact ⟨_, rfl, rfl⟩
  rw [if_neg (not_not.2 hzero)]
  obtain ⟨u, rfl⟩ := hget.1 hzero
  have hlen : ((ascii "GET" ++ u).length : ℤ) = 3 + u.length := by
    rw [List.length_append]
    push_cast
    rfl
  -- behind the method: blanks, and then `w`
  have hbehind : Holds mem (p + 3) u := (holds_append.1 hlineAt).2
  obtain ⟨lead, w, hlead, hw, hskip, hwAt, hlen'⟩ := skipSpace_holds hbehind
  have hafter : p + ((ascii "GET" ++ u).length : ℤ) - (p + 3) = u.length := by omega
  have hend : p + ((ascii "GET" ++ u).length : ℤ) - 1 = p + 3 + lead + w.length - 1 := by omega
  rw [hafter, hskip, Option.bind_some, hend, takenLine_get, ← hw, ← hlead]
  rcases findStr_target hwAt (hw ▸ skipSpaces_head u) with
    ⟨hnone, hno⟩ | ⟨path, z, hne, hblank, rfl, hfound⟩
  · rw [hnone, hno]
    exact ⟨_, rfl, rfl⟩
  have hpos : 0 < (path.length : ℤ) := Int.natCast_pos.2 (List.length_pos_iff.2 hne)
  have hnot : ¬ p + 3 + (lead : ℤ) + path.length = p + 3 + lead := by omega
  have huri : p + 3 + (lead : ℤ) + path.length - (p + 3 + lead) = path.length := by ring
  rw [hfound, takeWhile_target hblank, dropWhile_target hblank]
  simp only [Option.bind_some, if_neg hnot, huri]
  -- behind the target: blanks, and then `v`
  obtain ⟨behind, v, -, hv, hskip', hvAt, hlen''⟩ := skipSpace_holds (holds_append.1 hwAt).2
  rw [List.length_append] at hlen'
  have hafter' : p + ((ascii "GET" ++ u).length : ℤ) - (p + 3 + lead + path.length) =
      (32 :: z).length := by omega
  have hlast : p + ((ascii "GET" ++ u).length : ℤ) - (p + 3 + lead + path.length + behind) =
      v.length := by omega
  obtain ⟨r₁, r₂, hr₁, hr₂, hversion⟩ := cmpVersion_spec hvAt
  rw [← hv, hafter', hskip', hversion]
  simp only [Option.bind_some, hlast, hr₁, hr₂]
  by_cases hv11 : r₁ = 0
  · rw [if_pos hv11, if_pos hv11]
    exact ⟨_, rfl, rfl⟩
  by_cases hv10 : r₂ = 0
  · rw [if_neg hv11, if_pos hv10, if_neg hv11, if_pos hv10]
    exact ⟨_, rfl, rfl⟩
  · rw [if_neg hv11, if_neg hv10, if_neg hv11, if_neg hv10]
    exact ⟨_, rfl, rfl⟩

end Reading

/-- A request line with its version. -/
def requestLineText (path : List UInt8) (version : HttpVersion) : List UInt8 :=
  ascii "GET " ++ path ++ 32 :: version.text

/-- A request line. -/
def requestText (path : List UInt8) : List UInt8 := ascii "GET " ++ path ++ ascii " HTTP/1.1"

/-- A request line has no end before its own. -/
theorem requestLineText_no_cr {path : List UInt8} (version : HttpVersion)
    (hpath : ∀ c ∈ path, c ≠ 32 ∧ c ≠ 13 ∧ c ≠ 10) : 13 ∉ requestLineText path version := by
  have hcr : 13 ∉ path := fun hmem => (hpath 13 hmem).2.1 rfl
  have hversion : 13 ∉ version.text := by cases version <;> decide
  simp [requestLineText, hcr, hversion, show 13 ∉ ascii "GET " by decide]

/-- **The request line** is read back, whatever follows its end. -/
theorem requestLine_version {mem : ℤ → Option UInt8} (req : HttpReqHeader) {p : ℤ}
    {path rest : List UInt8} {version : HttpVersion} (hne : path ≠ [])
    (hpath : ∀ c ∈ path, c ≠ 32 ∧ c ≠ 13 ∧ c ≠ 10)
    (htext : Holds mem p (requestLineText path version ++ (crStr ++ rest))) :
    requestLine mem req p (p + (requestLineText path version ++ (crStr ++ rest)).length) =
      some (.ok, { req with
        method := .get, uri := cStringSet (p + 4) path.length, version := version.code },
        p + (requestLineText path version).length) := by
  have htaken : takenLine (requestLineText path version) = some (1, path, version) :=
    takenLine_eq_some_iff.2 ⟨hne, fun hmem => (hpath 32 hmem).1 rfl, 0, [], by
      simp [requestLineText, looseText, show ascii "GET " = ascii "GET" ++ [32] by decide]⟩
  obtain ⟨r, hr, hread⟩ := requestLine_eq req htext
    (not_infix_of_notMem (requestLineText_no_cr version hpath))
  rw [htaken, LineRead] at hread
  rw [hr, hread]
  congr 5
  push_cast
  ring

end F1Goal
