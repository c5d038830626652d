import F1Goal.BasicTypes
import F1Goal.Lib.CString

/-!
# Taking a URL apart (`f1g_url_parser.c`)

The URL is the list of its bytes, with a zero behind them; pointers into it are positions. The
parameters are stored in an array that `url_parser_load` allocates, and a store outside of this
array has no result. `comesBack_iff` says of which URLs the parts come back.
-/

namespace F1Goal

open CString

/-- The array that `uri_params_name` points to: its entries, and the one that `uri_params_value`
points to. -/
structure UriParams where
  entries : ℕ
  cell : ℕ → CStringT
  valueAt : ℕ

/-- `url_parser_t`; `uriParams` is `none` for `NULL`. -/
structure UrlParser where
  host : CStringT
  uriPath : CStringT
  resType : CStringT
  resName : CStringT
  uriParamNum : ℕ
  uriParamSize : ℕ
  uriParams : Option UriParams

/-- `url_parser_init`: everything is zero. The second argument of the source is not used. -/
def urlParserInit (_ : UrlParser) : UrlParser :=
  let null := cStringSet 0 0
  { host := null, uriPath := null, resType := null, resName := null
    uriParamNum := 0, uriParamSize := 0, uriParams := none }

/-- Where the URL begins once `http://` has been stripped. -/
def stripScheme (url : List UInt8) : ℕ :=
  match firstAt (ascii "http://") (cstr url) with
  | none => 0
  | some k => k + 7

/-- The host, unless there is a `/` at `p`, and where the path begins; `none` is `F1G_ERR`. -/
def loadHost (url : List UInt8) (parser : UrlParser) (p : ℕ) : Option (UrlParser × ℕ) :=
  if url.getD p 0 = 47 then some (parser, p)
  else
    let p2 := scanTo 47 url p
    if url.length ≤ p2 then none
    else some ({ parser with host := cStringSet p (p2 - p) }, p2)

/-- The path: from `p` to the last `/`. -/
def loadPath (url : List UInt8) (parser : UrlParser) (p : ℕ) : UrlParser × ℕ :=
  let p2 := scanBack 47 url p (url.length - 1) + 1
  ({ parser with uriPath := cStringSet p (p2 - p) }, p2)

/-- The resource from `p` to `p2`, and its type: what stands behind the first dot. -/
def loadResource (url : List UInt8) (parser : UrlParser) (p p2 : ℕ) : UrlParser :=
  let parser := { parser with resName := cStringSet p (p2 - p) }
  let p := scanTo 46 (url.take p2) p
  if p2 ≤ p then parser else { parser with resType := cStringSet (p + 1) (p2 - (p + 1)) }

/-- A new array, for the parameter `i` and 11 more. Where there are parameters already, the old
values are copied behind the new array, or the pointer to them, which `malloc` has not returned, is
freed. -/
def extendParams (parser : UrlParser) (i : ℕ) (malloc : Option (ℕ → CStringT)) :
    Option (Code × UrlParser) :=
  let newSize := i + 12
  match malloc with
  | none => some (.err, parser)
  | some cell =>
    if parser.uriParamNum ≠ 0 ∨ parser.uriParams.isSome then none
    else
      -- `p_str` counts in entries: `sizeof(c_string_t)` of them for each entry of the names
      some (.ok, { parser with
        uriParamSize := newSize
        uriParams := some { entries := newSize * 2, cell := cell, valueAt := 16 * newSize } })

/-- Make room for the parameter `i` when there is none. -/
def paramRoom (parser : UrlParser) (i : ℕ) (malloc : Option (ℕ → CStringT)) :
    Option (Code × UrlParser) :=
  if parser.uriParamSize ≤ i then extendParams parser i malloc else some (.ok, parser)

/-- Store an entry. -/
def UriParams.set (params : UriParams) (k : ℕ) (s : CStringT) : Option UriParams :=
  if k < params.entries then some { params with cell := Function.update params.cell k s } else none

/-- `uri_params_name[i] = s` -/
def UrlParser.setName (parser : UrlParser) (i : ℕ) (s : CStringT) : Option UrlParser := do
  let params ← parser.uriParams
  let params ← params.set i s
  some { parser with uriParams := some params }

/-- `uri_params_value[i] = s` -/
def UrlParser.setValue (parser : UrlParser) (i : ℕ) (s : CStringT) : Option UrlParser := do
  let params ← parser.uriParams
  let params ← params.set (params.valueAt + i) s
  some { parser with uriParams := some params }

/-- The loop over the parameters, from the parameter `i` at `p` on. `malloc i` is what `malloc`
returns when room is made for the parameter `i`. -/
def loadParams (malloc : ℕ → Option (ℕ → CStringT)) (url : List UInt8) (parser : UrlParser)
    (i p : ℕ) : Option (Code × UrlParser) :=
  if p < url.length then
    match paramRoom parser i (malloc i) with
    | none => none
    | some (.err, parser) => some (.err, parser)
    | some (.ok, parser) => do
      let p2 := scanTo 61 url p
      let parser ← parser.setName i (cStringSet p (p2 - p))
      if url.length ≤ p2 then some (.ok, { parser with uriParamNum := i })
      else
        let q := p2 + 1
        let q2 := scanTo 38 url q
        let parser ← parser.setValue i (cStringSet q (q2 - q))
        loadParams malloc url parser (i + 1) (q2 + 1)
  else some (.ok, { parser with uriParamNum := i })
termination_by url.length - p
decreasing_by
  have h1 := le_scanTo 61 url p
  have h2 := le_scanTo 38 url (scanTo 61 url p + 1)
  omega

/-- `url_parser_load` -/
def urlParserLoad (malloc : ℕ → Option (ℕ → CStringT)) (parser : UrlParser) (url : List UInt8) :
    Option (Code × UrlParser) :=
  match loadHost url parser (stripScheme url) with
  | none => some (.err, parser)
  | some (parser, p) =>
    let (parser, p) := loadPath url parser p
    let p2 := scanTo 63 url p
    if p2 ≤ p then some (.ok, parser)
    else loadParams malloc url (loadResource url parser p p2) 0 (p2 + 1)

/-- `url_parser_clear`. The number of parameters is 0 when the two blocks of entries are cleared, so
that none is. -/
def urlParserClear (parser : UrlParser) : UrlParser :=
  let null := cStringSet 0 0
  { parser with uriParamNum := 0, host := null, uriPath := null, resType := null, resName := null }

/-! ### URLs and their parts -/

/-- **A URL** `[http://host]dir res[?n1=v1&...&nk=vk]`. -/
structure Url where
  host : Option (List UInt8)
  dir : List UInt8
  res : List UInt8
  query : Option (List (List UInt8 × List UInt8))
  host_ok : ∀ h ∈ host, h ≠ [] ∧ 47 ∉ h
  dir_first : dir.head? = some 47
  dir_last : dir.getLast? = some 47
  dir_ok : 63 ∉ dir
  res_ok : 47 ∉ res ∧ 63 ∉ res
  query_ok : ∀ q ∈ query, ∀ x ∈ q, (61 ∉ x.1 ∧ 38 ∉ x.1) ∧ 38 ∉ x.2

/-- The scheme and the host. -/
def Url.front (u : Url) : List UInt8 :=
  match u.host with
  | none => []
  | some h => ascii "http://" ++ h

/-- A parameter as it is written. -/
def paramText (x : List UInt8 × List UInt8) : List UInt8 := x.1 ++ 61 :: x.2

/-- The parameters, behind a question mark. -/
def Url.back (u : Url) : List UInt8 :=
  match u.query with
  | none => []
  | some q => 63 :: [38].intercalate (q.map paramText)

/-- The bytes of a URL. -/
def Url.text (u : Url) : List UInt8 := u.front ++ (u.dir ++ (u.res ++ u.back))

/-- The parameters of a URL. -/
def Url.params (u : Url) : List (List UInt8 × List UInt8) := u.query.getD []

/-- The bytes that a part stands for. -/
def CStringT.textIn (url : List UInt8) (s : CStringT) : List UInt8 :=
  (url.drop s.data.toNat).take s.len.toNat

/-- The parser has the parts of the URL. -/
structure HasParts (u : Url) (parser : UrlParser) : Prop where
  host : parser.host.textIn u.text = u.host.getD []
  uriPath : parser.uriPath.textIn u.text = u.dir
  resName : parser.resName.textIn u.text = u.res
  uriParamNum : parser.uriParamNum = u.params.length
  uriParams : ∀ i x, u.params[i]? = some x → ∃ params ∈ parser.uriParams,
    (params.cell i).textIn u.text = x.1 ∧ (params.cell (params.valueAt + i)).textIn u.text = x.2

/-- **The parts come back** from an initialised parser. -/
def ComesBack (malloc : ℕ → Option (ℕ → CStringT)) (parser : UrlParser) (u : Url) : Prop :=
  ∃ parser', urlParserLoad malloc (urlParserInit parser) u.text = some (.ok, parser') ∧
    HasParts u parser'

/-! ### The steps -/

@[simp] theorem textIn_null (url : List UInt8) : (cStringSet 0 0).textIn url = [] := List.take_zero

/-- A part between two others. -/
theorem textIn_append {a b c : List UInt8} {p q : ℕ} (hp : p = a.length)
    (hq : q = a.length + b.length) : (cStringSet p (q - p)).textIn (a ++ (b ++ c)) = b := by
  have hlen : ((q : ℤ) - p).toNat = b.length := by omega
  rw [CStringT.textIn, cStringSet, hlen, Int.toNat_natCast, hp, List.drop_left, List.take_left]

theorem length_textIn {url : List UInt8} {p q : ℕ} (hq : q ≤ url.length) :
    ((cStringSet p (q - p)).textIn url).length = q - p := by
  have hlen : ((q : ℤ) - p).toNat = q - p := by omega
  rw [CStringT.textIn, cStringSet, hlen, Int.toNat_natCast, List.length_take, List.length_drop]
  omega

/-- The first array: 24 entries, while the values begin at the entry 192. -/
theorem paramRoom_init {parser parser' : UrlParser} {malloc : Option (ℕ → CStringT)}
    (hsize : parser.uriParamSize = 0) (h : paramRoom parser 0 malloc = some (.ok, parser')) :
    ∃ cell, parser' = { parser with
      uriParamSize := 12, uriParams := some { entries := 24, cell := cell, valueAt := 192 } } := by
  rw [paramRoom, if_pos (by omega)] at h
  cases malloc with
  | none => cases h
  | some cell =>
    dsimp only [extendParams] at h
    split_ifs at h
    injection h with h
    injection h with _ h
    exact ⟨cell, h.symm⟩

/-- **No value can be stored.** A parser without an array comes out of the loop with no parameter,
and with the parts that it had. -/
theorem loadParams_init {malloc : ℕ → Option (ℕ → CStringT)} {url : List UInt8}
    {parser parser' : UrlParser} {p : ℕ} (hsize : parser.uriParamSize = 0)
    (h : loadParams malloc url parser 0 p = some (.ok, parser')) :
    ∃ n params, parser' =
      { parser with uriParamNum := 0, uriParamSize := n, uriParams := params } := by
  rw [loadParams] at h
  split_ifs at h with hp
  · split at h
    · cases h
    · cases h
    · rename_i room hroom
      obtain ⟨cell, rfl⟩ := paramRoom_init hsize hroom
      by_cases hend : url.length ≤ scanTo 61 url p
      · simp [hend, UrlParser.setName, UriParams.set] at h
        exact ⟨_, _, h.symm⟩
      · simp [hend, UrlParser.setName, UrlParser.setValue, UriParams.set] at h
  · injection h with h
    injection h with _ h
    exact ⟨_, _, h.symm⟩

theorem loadParams_end (malloc : ℕ → Option (ℕ → CStringT)) {url : List UInt8} (parser : UrlParser)
    (i : ℕ) {p : ℕ} (h : url.length ≤ p) :
    loadParams malloc url parser i p = some (.ok, { parser with uriParamNum := i }) := by
  rw [loadParams, if_neg (by omega)]

/-- Without a `/` at `p`, there is a host, and it is not empty. -/
theorem loadHost_cases {url : List UInt8} {parser parser' : UrlParser} {p p' : ℕ}
    (h : loadHost url parser p = some (parser', p')) :
    (url.getD p 0 = 47 ∧ parser' = parser ∧ p' = p) ∨
      (p < p' ∧ p' < url.length ∧ parser' = { parser with host := cStringSet p (p' - p) }) := by
  dsimp only [loadHost] at h
  split_ifs at h with hslash hend
  · cases h
    exact .inl ⟨hslash, rfl, rfl⟩
  · injection h with h
    injection h with h1 h2
    have hle := le_scanTo 47 url p
    subst h2
    exact .inr ⟨lt_scanTo (by omega) hslash, by omega, h1.symm⟩

theorem loadResource_eq (url : List UInt8) (parser : UrlParser) (p p2 : ℕ) :
    ∃ resType, loadResource url parser p p2 =
      { parser with resName := cStringSet p (p2 - p), resType := resType } := by
  dsimp only [loadResource]
  split_ifs
  · exact ⟨_, rfl⟩
  · exact ⟨_, rfl⟩

/-- **What is loaded** into an initialised parser: no parameter, the host of `loadHost` and the path
of `loadPath`. -/
theorem urlParserLoad_init {malloc : ℕ → Option (ℕ → CStringT)} {url : List UInt8}
    {parser parser' : UrlParser}
    (h : urlParserLoad malloc (urlParserInit parser) url = some (.ok, parser')) :
    parser'.uriParamNum = 0 ∧ ∃ parser1 p,
      loadHost url (urlParserInit parser) (stripScheme url) = some (parser1, p) ∧
      parser'.host = parser1.host ∧ parser'.uriPath = (loadPath url parser1 p).1.uriPath := by
  rw [urlParserLoad] at h
  split at h
  · cases h
  · rename_i parser1 p hhost
    have hsize : parser1.uriParamSize = 0 ∧ parser1.uriParamNum = 0 := by
      rcases loadHost_cases hhost with ⟨-, rfl, -⟩ | ⟨-, -, rfl⟩ <;> exact ⟨rfl, rfl⟩
    dsimp only [loadPath] at h
    split_ifs at h
    · injection h with h
      injection h with _ h
      exact h ▸ ⟨hsize.2, _, _, hhost, rfl, rfl⟩
    · obtain ⟨resType, hres⟩ := loadResource_eq url _ _ _
      rw [hres] at h
      obtain ⟨n, params, rfl⟩ := loadParams_init (by exact hsize.1) h
      exact ⟨rfl, _, _, hhost, rfl, rfl⟩

/-! ### URLs of which the parts come back -/

theorem Url.back_of_params {u : Url} (h : u.params = []) : u.back = [] ∨ u.back = [63] := by
  cases hq : u.query with
  | none => exact .inl (by rw [back, hq])
  | some q =>
    rw [params, hq, Option.getD_some] at h
    exact .inr (by rw [back, hq, h]; rfl)

/-- The last `/` of a URL without parameters is the one that ends the directory. -/
theorem Url.slash_notMem {u : Url} (h : u.params = []) : 47 ∉ u.res ++ u.back := by
  rw [List.mem_append, not_or]
  refine ⟨u.res_ok.1, ?_⟩
  rcases u.back_of_params h with hback | hback <;> simp [hback]

theorem Url.dir_eq (u : Url) : ∃ d, u.dir = d ++ [47] := List.getLast?_eq_some_iff.1 u.dir_last

/-- A URL with a `http://` that is not its scheme: something else than the directory is taken for
the path, or there is a host. -/
theorem http_misleads {malloc : ℕ → Option (ℕ → CStringT)} {parser : UrlParser} {u : Url}
    (hhost : u.host = none) (hparams : u.params = []) (hhttp : ascii "http://" <:+: cstr u.text) :
    ¬ ComesBack malloc parser u := by
  rintro ⟨parser', hload, hparts⟩
  obtain ⟨-, parser1, p, hp, hhosts, hpaths⟩ := urlParserLoad_init hload
  obtain ⟨k, hk⟩ := exists_firstAt hhttp
  have hstrip : stripScheme u.text = k + 7 := by rw [stripScheme, hk]
  rw [hstrip] at hp
  have htext : u.text = u.dir ++ (u.res ++ u.back) := by rw [Url.text, Url.front, hhost]; rfl
  rcases loadHost_cases hp with ⟨hslash, rfl, rfl⟩ | ⟨hlt, hend, rfl⟩
  · -- the path begins behind this `http://`, and ends where the directory does or before
    have hpos : u.text[k + 7]? = some 47 := by
      rw [List.getD_eq_getElem?_getD] at hslash
      cases hget : u.text[k + 7]? with
      | none => simp [hget] at hslash
      | some c => simpa [hget] using hslash
    have hlen : k + 7 < u.text.length := (List.getElem?_eq_some_iff.1 hpos).1
    have hlast := scanBack_get hpos (show k + 7 ≤ u.text.length - 1 by omega)
    generalize hq : scanBack 47 u.text (k + 7) (u.text.length - 1) = q at hlast
    have hqdir : q < u.dir.length := by
      by_contra hge
      rw [htext, List.getElem?_append_right (by omega)] at hlast
      exact Url.slash_notMem hparams (List.mem_of_getElem? hlast)
    have hpath := congrArg List.length (hpaths ▸ hparts.uriPath)
    dsimp only [loadPath] at hpath
    have hle : q + 1 ≤ u.text.length := by rw [htext, List.length_append]; omega
    rw [hq, length_textIn hle] at hpath
    omega
  · -- a host is found
    have hempty := congrArg List.length (hhosts ▸ hparts.host)
    rw [length_textIn hend.le, hhost] at hempty
    simp at hempty
    omega

/-- The host of a URL is found. -/
theorem loadHost_front {u : Url} (parser : UrlParser)
    (hhttp : u.host = none → ¬ ascii "http://" <:+: cstr u.text) :
    ∃ host, loadHost u.text (urlParserInit parser) (stripScheme u.text) =
        some ({ urlParserInit parser with host := host }, u.front.length) ∧
      host.textIn u.text = u.host.getD [] := by
  obtain ⟨d, hd⟩ : ∃ d, u.dir = 47 :: d := List.head?_eq_some_iff.1 u.dir_first
  cases hhost : u.host with
  | none =>
    have htext : u.text = 47 :: (d ++ (u.res ++ u.back)) := by
      rw [Url.text, Url.front, hhost, hd]
      rfl
    have hstrip : stripScheme u.text = 0 := by rw [stripScheme, firstAt_eq_none (hhttp hhost)]
    refine ⟨cStringSet 0 0, ?_, textIn_null _⟩
    rw [hstrip, loadHost, Url.front, hhost, if_pos (by rw [htext]; rfl)]
    rfl
  | some h =>
    obtain ⟨hne, hslash⟩ := u.host_ok h hhost
    have htext : u.text = ascii "http://" ++ (h ++ 47 :: (d ++ (u.res ++ u.back))) := by
      rw [Url.text, Url.front, hhost, hd, List.append_assoc]
      rfl
    have hstrip : stripScheme u.text = (ascii "http://").length := by
      have hat : firstAt (ascii "http://") (cstr u.text) = some 0 := by
        rw [htext, cstr_append (by decide)]
        exact firstAt_of_isPrefix (List.prefix_append _ _)
      rw [stripScheme, hat]
      rfl
    have hfirst : u.text.getD (ascii "http://").length 0 ≠ 47 := by
      obtain ⟨c, h, rfl⟩ := List.exists_cons_of_ne_nil hne
      rw [List.mem_cons, not_or] at hslash
      rw [htext]
      exact Ne.symm hslash.1
    have hend : scanTo 47 u.text (ascii "http://").length =
        (ascii "http://").length + h.length := by
      rw [htext]
      exact scanTo_append _ hslash (by simp)
    have hlen : u.front.length = (ascii "http://").length + h.length := by
      rw [Url.front, hhost]
      exact List.length_append
    have hin : ¬ u.text.length ≤ u.front.length := by
      rw [Url.text, List.length_append, List.length_append, hd, List.length_cons]
      omega
    refine ⟨cStringSet (ascii "http://").length (u.front.length - (ascii "http://").length), ?_, ?_⟩
    · rw [hstrip, loadHost, if_neg hfirst, hend, ← hlen]
      exact if_neg hin
    · rw [htext]
      exact textIn_append rfl hlen

/-- The path of a URL without parameters ends where the directory does. -/
theorem loadPath_front {u : Url} (parser : UrlParser) (hparams : u.params = []) :
    loadPath u.text parser u.front.length =
      ({ parser with
          uriPath := cStringSet u.front.length
            ((u.front.length + u.dir.length : ℕ) - u.front.length) },
        u.front.length + u.dir.length) := by
  obtain ⟨d, hd⟩ := u.dir_eq
  have htext : u.text = (u.front ++ d) ++ 47 :: (u.res ++ u.back) := by
    rw [Url.text, hd, List.append_assoc, List.append_assoc]
    rfl
  have hlast : u.text.length - 1 = (u.front ++ d).length + (u.res ++ u.back).length := by
    rw [htext, List.length_append, List.length_cons]
    omega
  have hend : scanBack 47 u.text u.front.length (u.text.length - 1) + 1 =
      u.front.length + u.dir.length := by
    rw [hlast, htext, scanBack_append (by simp) (Url.slash_notMem hparams) le_rfl, hd,
      List.length_append, List.length_append, List.length_singleton]
    omega
  rw [loadPath, hend]

/-- **What is read before the resource** of a URL without parameters. -/
theorem urlParserLoad_front {u : Url} (malloc : ℕ → Option (ℕ → CStringT)) (parser : UrlParser)
    (hparams : u.params = []) (hhttp : u.host = none → ¬ ascii "http://" <:+: cstr u.text) :
    ∃ parser1, urlParserLoad malloc (urlParserInit parser) u.text =
        (if u.res = [] then some (.ok, parser1)
        else loadParams malloc u.text
          (loadResource u.text parser1 (u.front.length + u.dir.length)
            (u.front.length + u.dir.length + u.res.length)) 0
          (u.front.length + u.dir.length + u.res.length + 1)) ∧
      parser1.host.textIn u.text = u.host.getD [] ∧ parser1.uriPath.textIn u.text = u.dir ∧
      parser1.resName = cStringSet 0 0 ∧ parser1.uriParamNum = 0 := by
  obtain ⟨host, hload, hhost⟩ := loadHost_front parser hhttp
  have hres : scanTo 63 u.text (u.front.length + u.dir.length) =
      u.front.length + u.dir.length + u.res.length := by
    have hback : ∀ d ∈ u.back.head?, d = 63 := by
      rcases u.back_of_params hparams with h | h <;> simp [h]
    have h := scanTo_append (u.front ++ u.dir) u.res_ok.2 hback
    rwa [List.length_append, List.append_assoc] at h
  have hempty : u.front.length + u.dir.length + u.res.length ≤ u.front.length + u.dir.length ↔
      u.res = [] := by
    rw [← List.length_eq_zero_iff]
    omega
  refine ⟨{ urlParserInit parser with
    host := host
    uriPath := cStringSet u.front.length ((u.front.length + u.dir.length : ℕ) - u.front.length) },
    ?_, hhost, textIn_append rfl rfl, rfl, rfl⟩
  rw [urlParserLoad, hload]
  dsimp only
  rw [loadPath_front _ hparams]
  dsimp only
  rw [hres]
  exact if_congr hempty rfl rfl

/-- **The parts of a URL come back** when it has no parameters and no other `http://` than its
scheme. -/
theorem comesBack {u : Url} (malloc : ℕ → Option (ℕ → CStringT)) (parser : UrlParser)
    (hparams : u.params = []) (hhttp : u.host = none → ¬ ascii "http://" <:+: cstr u.text) :
    ComesBack malloc parser u := by
  obtain ⟨parser1, hload, hhost, hpath, hname, hnum⟩ :=
    urlParserLoad_front malloc parser hparams hhttp
  have hnone (i : ℕ) (x : List UInt8 × List UInt8) : u.params[i]? ≠ some x := by simp [hparams]
  by_cases hempty : u.res = []
  · refine ⟨parser1, hload.trans (if_pos hempty),
      ⟨hhost, hpath, ?_, ?_, fun i x h => absurd h (hnone i x)⟩⟩
    · rw [hname, hempty]
      exact textIn_null _
    · rw [hnum, hparams]
      rfl
  · obtain ⟨resType, hresource⟩ := loadResource_eq u.text parser1 (u.front.length + u.dir.length)
      (u.front.length + u.dir.length + u.res.length)
    have hend : u.text.length ≤ u.front.length + u.dir.length + u.res.length + 1 := by
      rw [Url.text, List.length_append, List.length_append, List.length_append]
      rcases u.back_of_params hparams with h | h <;> rw [h] <;> simp <;> omega
    rw [if_neg hempty, hresource, loadParams_end malloc _ 0 hend] at hload
    refine ⟨_, hload, ⟨hhost, hpath, ?_, ?_, fun i x h => absurd h (hnone i x)⟩⟩
    · have htext : u.text = (u.front ++ u.dir) ++ (u.res ++ u.back) := by
        rw [Url.text, List.append_assoc]
      rw [htext]
      exact textIn_append List.length_append.symm (by rw [List.length_append])
    · rw [hparams]
      rfl

/-- **Which URLs come back**: those without parameters, and without a `http://` that is not the
scheme. -/
theorem comesBack_iff (malloc : ℕ → Option (ℕ → CStringT)) (parser : UrlParser) (u : Url) :
    ComesBack malloc parser u ↔
      u.params = [] ∧ (u.host = none → ¬ ascii "http://" <:+: cstr u.text) := by
  refine ⟨fun h => ?_, fun h => comesBack malloc parser h.1 h.2⟩
  have hparams : u.params = [] := by
    obtain ⟨parser', hload, hparts⟩ := h
    exact List.length_eq_zero_iff.1 (hparts.uriParamNum.symm.trans (urlParserLoad_init hload).1)
  exact ⟨hparams, fun hhost hhttp => http_misleads hhost hparams hhttp h⟩

/-- **The parameter of `/?x=1`** is lost: nothing is read behind an empty resource. -/
theorem params_lost : ∃ u : Url, u.text = ascii "/?x=1" ∧ u.params = [(ascii "x", ascii "1")] ∧
    ∀ malloc parser, (∃ parser', parser'.uriParamNum = 0 ∧
      urlParserLoad malloc (urlParserInit parser) u.text = some (.ok, parser')) ∧
      ¬ ComesBack malloc parser u := by
  refine ⟨{
    host := none, dir := [47], res := [], query := some [(ascii "x", ascii "1")]
    host_ok := by simp
    dir_first := rfl
    dir_last := rfl
    dir_ok := by decide
    res_ok := by decide
    query_ok := by simpa using by decide }, by decide, rfl, fun malloc parser => ?_⟩
  refine ⟨⟨_, ?_, rfl⟩, ?_⟩
  · rfl
  · rintro ⟨parser', hload, hparts⟩
    exact absurd (hparts.uriParamNum.symm.trans (urlParserLoad_init hload).1) (by decide)

end F1Goal
