import F1Goal.Lib.Lts
import F1Goal.UrlParser

/-!
# The array of parameters (`url_parser_load`, `url_parser_clear`)

`uri_params_value` is `p_str + sizeof(c_string_t)*new_size`, where `p_str` counts in entries
already: the values begin 16 times as far as they should, behind the block. So the first value of a
parameter is stored outside, whatever has been loaded and cleared before (`param_calls_iff`), and
the array never grows.
-/

namespace F1Goal

open CString

/-! ### Calls -/

/-- A call on a parser. `malloc i` is what `malloc` returns in this call when room is made for the
parameter `i`. -/
inductive UrlCall
  | load (malloc : ℕ → Option (ℕ → CStringT)) (url : List UInt8)
  | clear

/-- The parser after a call, whatever it returns; there is none when a store is outside of the
block, when values are copied behind it, or when a pointer is freed that `malloc` has not
returned. -/
def urlStep (parser : UrlParser) : UrlCall → Option UrlParser
  | .load malloc url => (urlParserLoad malloc parser url).map Prod.snd
  | .clear => some (urlParserClear parser)

/-- **The storage is sound** in a call: it has a result. -/
def StorageSound (parser : UrlParser) (call : UrlCall) : Prop := (urlStep parser call).isSome

/-- The URL has a value to store: behind the last `/`, at `d`, stand a resource, a `?` at `r` and a
`=` at `e`. -/
def HasValue (url : List UInt8) : Prop :=
  ∃ d r e, stripScheme url ≤ d ∧ d + 1 < r ∧ r < e ∧
    (url[d]? = some 47 ∧ ∀ i, d < i → url[i]? ≠ some 47) ∧
      (url[r]? = some 63 ∧ ∀ i, d < i → i < r → url[i]? ≠ some 63) ∧ url[e]? = some 61

/-- **The condition on a call**: a URL without a value, or there is no array and no memory for
one. -/
def UrlCall.Ok (parser : UrlParser) : UrlCall → Prop
  | .load malloc url => HasValue url → parser.uriParams = none ∧ malloc 0 = none
  | .clear => True

/-! ### The array in all runs -/

/-- No parameter is counted, and the array is missing or the first one. -/
structure UrlParser.NoParams (parser : UrlParser) : Prop where
  num : parser.uriParamNum = 0
  array : parser.uriParamSize = 0 ∧ parser.uriParams = none ∨
    ∃ cell, parser.uriParamSize = 12 ∧
      parser.uriParams = some { entries := 24, cell := cell, valueAt := 192 }

/-- The fields of the array and of the parameters are the same. -/
def SameParams (parser parser' : UrlParser) : Prop :=
  parser'.uriParamNum = parser.uriParamNum ∧ parser'.uriParamSize = parser.uriParamSize ∧
    parser'.uriParams = parser.uriParams

theorem UrlParser.NoParams.of_same {parser parser' : UrlParser} (h : parser.NoParams)
    (hsame : SameParams parser parser') : parser'.NoParams := by
  obtain ⟨hnum, hsize, hparams⟩ := hsame
  refine ⟨hnum.trans h.num, ?_⟩
  rw [hsize, hparams]
  exact h.array

theorem urlParserInit_noParams (parser : UrlParser) : (urlParserInit parser).NoParams :=
  ⟨rfl, .inl ⟨rfl, rfl⟩⟩

/-- The parser with the first array, in which nothing is counted. -/
def UrlParser.withArray (parser : UrlParser) (cell : ℕ → CStringT) : UrlParser :=
  { parser with
    uriParamSize := 12
    uriParams := some { entries := 24, cell := cell, valueAt := 192 } }

theorem UrlParser.NoParams.withArray {parser : UrlParser} (h : parser.NoParams)
    (cell : ℕ → CStringT) : (parser.withArray cell).NoParams :=
  ⟨h.num, .inr ⟨cell, rfl, rfl⟩⟩

/-- The room for the first parameter: `malloc` fails, or there is the first array. -/
theorem UrlParser.NoParams.room {parser : UrlParser} (h : parser.NoParams)
    (malloc : Option (ℕ → CStringT)) :
    (parser.uriParams = none ∧ malloc = none ∧ paramRoom parser 0 malloc = some (.err, parser)) ∨
      ¬(parser.uriParams = none ∧ malloc = none) ∧
        ∃ cell, paramRoom parser 0 malloc = some (.ok, parser.withArray cell) := by
  rcases h.array with ⟨hsize, hparams⟩ | ⟨cell, hsize, hparams⟩
  · cases malloc with
    | none =>
      refine .inl ⟨hparams, rfl, ?_⟩
      rw [paramRoom, if_pos hsize.le]
      rfl
    | some cell =>
      refine .inr ⟨by simp, cell, ?_⟩
      have hnone : ¬(parser.uriParamNum ≠ 0 ∨ parser.uriParams.isSome) := by
        simp [h.num, hparams]
      rw [paramRoom, if_pos hsize.le, extendParams]
      exact if_neg hnone
  · refine .inr ⟨by simp [hparams], cell, ?_⟩
    rw [paramRoom, if_neg (by omega), UrlParser.withArray, ← hparams, ← hsize]

theorem setName_withArray (parser : UrlParser) (cell : ℕ → CStringT) (s : CStringT) :
    (parser.withArray cell).setName 0 s = some (parser.withArray (Function.update cell 0 s)) := rfl

/-- The first value would be stored 192 entries behind the start of a block of 24. -/
theorem setValue_withArray (parser : UrlParser) (cell : ℕ → CStringT) (s : CStringT) :
    (parser.withArray cell).setValue 0 s = none := rfl

/-- **The loop over the parameters**: it has a result unless there is a value to store. -/
theorem UrlParser.NoParams.params {parser : UrlParser} (h : parser.NoParams)
    (malloc : ℕ → Option (ℕ → CStringT)) (url : List UInt8) (p : ℕ) :
    ((loadParams malloc url parser 0 p).isSome ↔
      (scanTo 61 url p < url.length → parser.uriParams = none ∧ malloc 0 = none)) ∧
    ∀ code parser', loadParams malloc url parser 0 p = some (code, parser') →
      parser'.NoParams := by
  have hle := le_scanTo 61 url p
  rw [loadParams]
  by_cases hp : p < url.length
  · rw [if_pos hp]
    rcases h.room (malloc 0) with ⟨hnone, hmalloc, hroom⟩ | ⟨hnot, cell, hroom⟩
    · rw [hroom]
      refine ⟨iff_of_true rfl fun _ => ⟨hnone, hmalloc⟩, ?_⟩
      rintro _ _ ⟨⟩
      exact h
    · rw [hroom]
      simp only [setName_withArray, setValue_withArray, Option.bind_eq_bind, Option.bind_some,
        Option.bind_none]
      by_cases hend : url.length ≤ scanTo 61 url p
      · rw [if_pos hend]
        refine ⟨iff_of_true rfl fun hlt => absurd hlt (not_lt.2 hend), ?_⟩
        rintro _ _ ⟨⟩
        exact (h.withArray _).of_same ⟨h.num.symm, rfl, rfl⟩
      · rw [if_neg hend]
        refine ⟨iff_of_false (by simp) fun himp => hnot (himp (not_le.1 hend)), ?_⟩
        rintro _ _ ⟨⟩
  · rw [if_neg hp]
    refine ⟨iff_of_true rfl fun hlt => absurd hlt (by omega), ?_⟩
    rintro _ _ ⟨⟩
    exact h.of_same ⟨h.num.symm, rfl, rfl⟩

/-! ### What is read before the parameters -/

theorem loadHost_same {url : List UInt8} {parser parser' : UrlParser} {p p' : ℕ}
    (h : loadHost url parser p = some (parser', p')) : SameParams parser parser' := by
  rcases loadHost_cases h with ⟨-, rfl, -⟩ | ⟨-, -, rfl⟩ <;> exact ⟨rfl, rfl, rfl⟩

/-- The path begins at the first `/` behind the scheme, if there is one. -/
theorem loadHost_scan (url : List UInt8) (parser : UrlParser) (p : ℕ) :
    (loadHost url parser p).map Prod.snd =
      if scanTo 47 url p < url.length then some (scanTo 47 url p) else none := by
  rw [loadHost]
  by_cases hslash : url.getD p 0 = 47
  · have hget : url[p]? = some 47 := by
      rw [List.getD_eq_getElem?_getD] at hslash
      cases hget : url[p]? with
      | none => simp [hget] at hslash
      | some c => simpa [hget] using hslash
    have hscan : scanTo 47 url p = p := scanTo_eq_of le_rfl hget fun i h1 h2 => by omega
    rw [if_pos hslash, hscan, if_pos (List.getElem?_eq_some_iff.1 hget).1]
    rfl
  · rw [if_neg hslash]
    rcases lt_or_ge (scanTo 47 url p) url.length with hlt | hge
    · rw [if_pos hlt, if_neg (not_le.2 hlt)]
      rfl
    · rw [if_neg (not_lt.2 hge), if_pos hge]
      rfl

/-- The last `/` of a URL. -/
theorem lastSlash_eq {url : List UInt8} {p d : ℕ} (hp : url[p]? = some 47) (hd : url[d]? = some 47)
    (hlast : ∀ i, d < i → url[i]? ≠ some 47) : scanBack 47 url p (url.length - 1) = d := by
  have hplt : p < url.length := (List.getElem?_eq_some_iff.1 hp).1
  have hdlt : d < url.length := (List.getElem?_eq_some_iff.1 hd).1
  have hget := scanBack_get hp (show p ≤ url.length - 1 by omega)
  rcases lt_trichotomy (scanBack 47 url p (url.length - 1)) d with hlt | heq | hgt
  · exact absurd hd (scanBack_behind hlt (by omega))
  · exact heq
  · exact absurd hget (hlast _ hgt)

/-- **A URL has a value to store** when the parser finds a path, behind it a resource, and behind
this a `=`. -/
theorem hasValue_iff (url : List UInt8) :
    HasValue url ↔ ∃ p, scanTo 47 url (stripScheme url) = p ∧ p < url.length ∧
      ∃ d, scanBack 47 url p (url.length - 1) + 1 = d ∧
        ∃ r, scanTo 63 url d = r ∧ d < r ∧ scanTo 61 url (r + 1) < url.length := by
  constructor
  · rintro ⟨d, r, e, hstrip, hdr, hre, ⟨hd, hlast⟩, ⟨hr, hfirst⟩, he⟩
    have hdlt : d < url.length := (List.getElem?_eq_some_iff.1 hd).1
    have helt : e < url.length := (List.getElem?_eq_some_iff.1 he).1
    have hpd : scanTo 47 url (stripScheme url) ≤ d :=
      not_lt.1 fun hlt => scanTo_before hstrip hlt hd
    have hp : url[scanTo 47 url (stripScheme url)]? = some 47 := scanTo_get (hpd.trans_lt hdlt)
    refine ⟨_, rfl, hpd.trans_lt hdlt, _, rfl, _, rfl, ?_⟩
    rw [lastSlash_eq hp hd hlast, scanTo_eq_of hdr.le hr fun i h1 h2 => hfirst i h1 h2]
    have hee : scanTo 61 url (r + 1) ≤ e := not_lt.1 fun hlt => scanTo_before hre hlt he
    exact ⟨hdr, hee.trans_lt helt⟩
  · rintro ⟨p, hp, hplt, d, hd, r, hr, hdr, helt⟩
    have hle := le_scanTo 61 url (r + 1)
    have hpget : url[p]? = some 47 := hp ▸ scanTo_get (hp ▸ hplt)
    refine ⟨scanBack 47 url p (url.length - 1), r, scanTo 61 url (r + 1), ?_, by omega, by omega,
      ⟨scanBack_get hpget (by omega), fun i hi => ?_⟩, ⟨?_, fun i h1 h2 => ?_⟩, scanTo_get helt⟩
    · have hstrip := le_scanTo 47 url (stripScheme url)
      have hback := @le_scanBack 47 url p (url.length - 1) (by omega)
      omega
    · rcases lt_or_ge i url.length with hlt | hge
      · exact scanBack_behind hi (by omega)
      · rw [List.getElem?_eq_none hge]
        simp
    · rw [← hr]
      exact scanTo_get (by omega)
    · exact scanTo_before (by omega) (hr ▸ h2)

/-! ### Runs -/

theorem loadPath_same (url : List UInt8) (parser : UrlParser) (p : ℕ) :
    SameParams parser (loadPath url parser p).1 := ⟨rfl, rfl, rfl⟩

theorem loadResource_same (url : List UInt8) (parser : UrlParser) (p p2 : ℕ) :
    SameParams parser (loadResource url parser p p2) := by
  obtain ⟨resType, hres⟩ := loadResource_eq url parser p p2
  rw [hres]
  exact ⟨rfl, rfl, rfl⟩

theorem SameParams.trans {parser parser' parser'' : UrlParser} (h : SameParams parser parser')
    (h' : SameParams parser' parser'') : SameParams parser parser'' :=
  ⟨h'.1.trans h.1, h'.2.1.trans h.2.1, h'.2.2.trans h.2.2⟩

/-- **One load**: it has a result unless there is a value to store, and counts no parameter. -/
theorem UrlParser.NoParams.load {parser : UrlParser} (h : parser.NoParams)
    (malloc : ℕ → Option (ℕ → CStringT)) (url : List UInt8) :
    ((urlParserLoad malloc parser url).isSome ↔
      (HasValue url → parser.uriParams = none ∧ malloc 0 = none)) ∧
    ∀ code parser', urlParserLoad malloc parser url = some (code, parser') → parser'.NoParams := by
  have hscan := loadHost_scan url parser (stripScheme url)
  rw [hasValue_iff, urlParserLoad]
  cases hhost : loadHost url parser (stripScheme url) with
  | none =>
    have hend : ¬scanTo 47 url (stripScheme url) < url.length := by
      intro hlt
      rw [hhost, if_pos hlt] at hscan
      cases hscan
    refine ⟨iff_of_true rfl ?_, ?_⟩
    · rintro ⟨p, rfl, hp, -⟩
      exact absurd hp hend
    · rintro _ _ ⟨⟩
      exact h
  | some found =>
    obtain ⟨parser1, p⟩ := found
    have hp : scanTo 47 url (stripScheme url) = p ∧ p < url.length := by
      rw [hhost] at hscan
      split_ifs at hscan with hlt
      · obtain rfl : p = _ := Option.some.inj hscan
        exact ⟨rfl, hlt⟩
      · cases hscan
    have hsame := (loadHost_same hhost).trans (loadPath_same url parser1 p)
    dsimp only [loadPath] at hsame ⊢
    generalize hd : scanBack 47 url p (url.length - 1) + 1 = d at hsame
    by_cases hres : scanTo 63 url d ≤ d
    · rw [if_pos hres]
      refine ⟨iff_of_true rfl ?_, ?_⟩
      · rintro ⟨p', hp', -, d', hd', r, rfl, hlt, -⟩
        obtain rfl : p = p' := hp.1.symm.trans hp'
        obtain rfl : d = d' := hd.symm.trans hd'
        exact absurd hres (not_le.2 hlt)
      · rintro _ _ ⟨⟩
        exact h.of_same hsame
    · rw [if_neg hres]
      have hsame' := hsame.trans (loadResource_same url _ d (scanTo 63 url d))
      obtain ⟨hiff, hkeep⟩ := (h.of_same hsame').params malloc url (scanTo 63 url d + 1)
      refine ⟨?_, hkeep⟩
      rw [hiff, hsame'.2.2]
      refine imp_congr_left ⟨fun he => ?_, ?_⟩
      · exact ⟨p, hp.1, hp.2, d, hd, _, rfl, not_le.1 hres, he⟩
      · rintro ⟨p', hp', -, d', hd', r, rfl, -, he⟩
        obtain rfl : p = p' := hp.1.symm.trans hp'
        obtain rfl : d = d' := hd.symm.trans hd'
        exact he

theorem UrlParser.NoParams.sound_iff {parser : UrlParser} (h : parser.NoParams) (call : UrlCall) :
    StorageSound parser call ↔ call.Ok parser := by
  cases call with
  | load malloc url =>
    rw [StorageSound, urlStep, Option.isSome_map, (h.load malloc url).1]
    rfl
  | clear => exact iff_of_true rfl trivial

theorem UrlParser.NoParams.step {parser parser' : UrlParser} (h : parser.NoParams)
    {call : UrlCall} (hstep : urlStep parser call = some parser') : parser'.NoParams := by
  cases call with
  | load malloc url =>
    obtain ⟨⟨code, _⟩, hload, rfl⟩ := Option.map_eq_some_iff.1 hstep
    exact (h.load malloc url).2 code _ hload
  | clear =>
    cases hstep
    exact ⟨rfl, h.array⟩

/-- **When the storage of parameters is sound**: along any loads and clears from an initialised
parser, as long as no URL has a value to store, except one for which `malloc` fails. -/
theorem param_calls_iff (parser : UrlParser) (calls : List UrlCall) :
    Lts.Meets urlStep StorageSound (urlParserInit parser) calls ↔
      Lts.Meets urlStep (fun parser call => call.Ok parser) (urlParserInit parser) calls :=
  Lts.meets_iff (fun _ call h => UrlParser.NoParams.sound_iff h call)
    (fun _ _ _ h _ hstep => UrlParser.NoParams.step h hstep) (urlParserInit_noParams parser) calls

/-- A growth that has a result has no entries to keep. -/
theorem extendParams_ok {parser parser' : UrlParser} {i : ℕ} {malloc : Option (ℕ → CStringT)}
    (h : extendParams parser i malloc = some (.ok, parser')) :
    parser.uriParamNum = 0 ∧ parser.uriParams = none := by
  cases malloc with
  | none => cases h
  | some cell =>
    dsimp only [extendParams] at h
    split_ifs at h with hold
    simpa using hold

/-- `/a?x=1`: the value is stored behind the block. -/
theorem value_outside :
    ¬∀ (parser : UrlParser) (calls : List UrlCall),
      Lts.Meets urlStep StorageSound (urlParserInit parser) calls := by
  intro h
  let null := cStringSet 0 0
  let parser : UrlParser := ⟨null, null, null, null, 0, 0, none⟩
  have hload := (h parser [.load (fun _ => some fun _ => null) (ascii "/a?x=1")]).1
  rw [(urlParserInit_noParams parser).sound_iff] at hload
  have hvalue : HasValue (ascii "/a?x=1") :=
    (hasValue_iff _).2 ⟨0, by decide, by decide, 1, by decide, 2, by decide, by decide, by decide⟩
  exact absurd (hload hvalue).2 (by simp)

end F1Goal
