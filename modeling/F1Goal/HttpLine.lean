import F1Goal.HttpParser

/-!
# One header line

What a line of a request is taken for. `add_header` takes a line for a header when the name of the
line begins with the name of the header (`taken`), and stores the value without the blanks around it
(`headerLine_eq`). `headerLoop_turn` is one turn of the loop over the lines, and `headerLoop_last`
is the last one, when no line end is found.
-/

namespace F1Goal

open Block CString

/-! ### Headers -/

/-- The headers that the parser knows, in the order in which `add_header` asks for them. -/
inductive KnownHeader
  | acceptLang | acceptEncode | acceptCharset | accept | cookie | host | refer | ua
  deriving DecidableEq, Repr

/-- The name of the header: `ACC_LANG_STR` and so on. -/
def KnownHeader.key : KnownHeader → List UInt8
  | .acceptLang => ascii "Accept-Language"
  | .acceptEncode => ascii "Accept-Encoding"
  | .acceptCharset => ascii "Accept-Charset"
  | .accept => ascii "Accept"
  | .cookie => ascii "Cookie"
  | .host => ascii "Host"
  | .refer => ascii "Referer"
  | .ua => ascii "User-Agent"

/-- The header that `add_header` takes a name for. -/
def taken (name : List UInt8) : Option KnownHeader :=
  if KnownHeader.acceptLang.key <+: name then some .acceptLang
  else if KnownHeader.acceptEncode.key <+: name then some .acceptEncode
  else if KnownHeader.acceptCharset.key <+: name then some .acceptCharset
  else if KnownHeader.accept.key <+: name then some .accept
  else if KnownHeader.cookie.key <+: name then some .cookie
  else if KnownHeader.host.key <+: name then some .host
  else if KnownHeader.refer.key <+: name then some .refer
  else if KnownHeader.ua.key <+: name then some .ua
  else none

/-- A longer name is taken for a shorter one. -/
example : taken (ascii "Hostile") = some .host := by decide

/-- The slice stands for these bytes. -/
def CStringT.Denotes (mem : ℤ → Option UInt8) (s : CStringT) (bs : List UInt8) : Prop :=
  s.len = bs.length ∧ Holds mem s.data bs

/-- A value is denoted by where it begins and where it ends. -/
theorem CStringT.denotes_value {mem : ℤ → Option UInt8} {q : ℤ} {value : List UInt8}
    (h : Holds mem q value) : (cStringSet q (q + value.length - 1 - q + 1)).Denotes mem value :=
  ⟨by
    rw [cStringSet]
    ring, h⟩

/-! ### One header -/

theorem isKey_spec {mem : ℤ → Option UInt8} {p pe : ℤ} {w : List UInt8} (h : Holds mem p w)
    (hpe : pe - p + 1 = w.length) {key : String} (hshort : (ascii key).length < 512) :
    isKey mem p pe key = some (decide (ascii key <+: w)) := by
  obtain ⟨r, hr, hiff⟩ := cmpStr2_spec h hshort
  simp [isKey, hpe, hr, hiff]

theorem prefix_colon {key name : List UInt8} (hkey : 58 ∉ key) :
    key <+: name ++ [58] ↔ key <+: name := by
  rw [List.prefix_concat_iff, or_iff_right]
  rintro rfl
  simp at hkey

theorem KnownHeader.not_starts {h : KnownHeader} {c : UInt8} {name : List UInt8}
    (hc : h.key.head? ≠ some c) : ¬ h.key <+: c :: name := by
  rintro ⟨rest, heq⟩
  cases h <;> exact hc (congrArg List.head? heq)

/-- What `add_header` does with a line that it takes for this header. -/
def KnownHeader.store (mem : ℤ → Option UInt8) (req : HttpReqHeader) (q qe : ℤ) :
    KnownHeader → Option HttpReqHeader
  | .acceptLang => some { req with acceptLang := cStringSet q (qe - q + 1) }
  | .acceptEncode => some { req with acceptEncode := cStringSet q (qe - q + 1) }
  | .acceptCharset => some { req with acceptCharset := cStringSet q (qe - q + 1) }
  | .accept => some { req with accept := cStringSet q (qe - q + 1) }
  | .cookie => some { req with cookie := cStringSet q (qe - q + 1) }
  | .host => some { req with host := cStringSet q (qe - q + 1) }
  | .refer => do
    match ← findStr mem q qe (ascii "/") with
    | none => return req
    | some ptmp =>
      return { req with
        referHost := cStringSet q (ptmp - q)
        referUri := cStringSet ptmp (qe - ptmp + 1) }
  | .ua => some { req with ua := cStringSet q (qe - q + 1) }

/-- `add_header` asks for the first letter, and then for the names that begin with it. -/
theorem addHeader_eq (mem : ℤ → Option UInt8) (req : HttpReqHeader) {p q qe : ℤ} {name : List UInt8}
    (hne : name ≠ []) (hname : Holds mem p (name ++ [58])) :
    addHeader mem req p (p + name.length) q qe =
      (taken name).elim (some req) (KnownHeader.store mem req q qe) := by
  obtain ⟨c, rest, rfl⟩ := List.exists_cons_of_ne_nil hne
  have hch : mem p = some c := hname.1
  have hpe : p + ((c :: rest).length : ℤ) - p + 1 = (c :: rest ++ [58]).length := by
    rw [List.length_append, List.length_singleton]
    push_cast
    ring
  have hkey : ∀ key : String, (ascii key).length < 512 → 58 ∉ ascii key →
      isKey mem p (p + ((c :: rest).length : ℤ)) key = some (decide (ascii key <+: c :: rest)) := by
    intro key hshort hcolon
    rw [isKey_spec hname hpe hshort, decide_eq_decide.2 (prefix_colon hcolon)]
  have hnot (h : KnownHeader) (hc : h.key.head? ≠ some c) : ¬ h.key <+: c :: rest := by
    exact KnownHeader.not_starts hc
  have hchain (h : KnownHeader) (key : String) (hkeyOf : ascii key = h.key)
      (hshort : (ascii key).length < 512) (hcolon : 58 ∉ ascii key) {y z : Option HttpReqHeader} :
      ((isKey mem p (p + ((c :: rest).length : ℤ)) key).bind fun b => if b = true then y else z) =
        if h.key <+: c :: rest then y else z := by
    rw [hkey key hshort hcolon, hkeyOf]
    simp
  rw [addHeader, hch]
  simp only [Option.bind_eq_bind, Option.bind_some]
  -- a name begins with one letter only, so that the headers of the other letters are out
  by_cases h65 : c = 65
  · subst h65
    rw [if_pos rfl, hchain .acceptLang "Accept-Language" rfl (by decide) (by decide),
      hchain .acceptEncode "Accept-Encoding" rfl (by decide) (by decide),
      hchain .acceptCharset "Accept-Charset" rfl (by decide) (by decide),
      hchain .accept "Accept" rfl (by decide) (by decide), taken,
      if_neg (hnot .cookie (by decide)), if_neg (hnot .host (by decide)),
      if_neg (hnot .refer (by decide)), if_neg (hnot .ua (by decide))]
    split_ifs <;> rfl
  rw [if_neg h65]
  have haccept (h : KnownHeader) (hhead : h.key.head? = some 65) : ¬ h.key <+: c :: rest :=
    hnot h (hhead ▸ fun heq => h65 (Option.some.inj heq).symm)
  rw [taken, if_neg (haccept .acceptLang rfl), if_neg (haccept .acceptEncode rfl),
    if_neg (haccept .acceptCharset rfl), if_neg (haccept .accept rfl)]
  by_cases h67 : c = 67
  · subst h67
    rw [if_pos rfl, hchain .cookie "Cookie" rfl (by decide) (by decide),
      if_neg (hnot .host (by decide)), if_neg (hnot .refer (by decide)),
      if_neg (hnot .ua (by decide))]
    split_ifs <;> rfl
  rw [if_neg h67, if_neg (hnot .cookie fun heq => h67 (Option.some.inj heq).symm)]
  by_cases h72 : c = 72
  · subst h72
    rw [if_pos rfl, hchain .host "Host" rfl (by decide) (by decide),
      if_neg (hnot .refer (by decide)), if_neg (hnot .ua (by decide))]
    split_ifs <;> rfl
  rw [if_neg h72, if_neg (hnot .host fun heq => h72 (Option.some.inj heq).symm)]
  by_cases h82 : c = 82
  · subst h82
    rw [if_pos rfl, hchain .refer "Referer" rfl (by decide) (by decide),
      if_neg (hnot .ua (by decide))]
    split_ifs <;> rfl
  rw [if_neg h82, if_neg (hnot .refer fun heq => h82 (Option.some.inj heq).symm)]
  by_cases h85 : c = 85
  · subst h85
    rw [if_pos rfl, hchain .ua "User-Agent" rfl (by decide) (by decide)]
    split_ifs <;> rfl
  rw [if_neg h85, if_neg (hnot .ua fun heq => h85 (Option.some.inj heq).symm)]
  rfl

/-- The slash that is found is the first one. -/
theorem findStr_slash {mem : ℤ → Option UInt8} {q : ℤ} {value : List UInt8} (h : Holds mem q value)
    (hslash : 47 ∈ value.dropLast) :
    ∃ host uri, value = host ++ uri ∧ host = value.takeWhile (· ≠ 47) ∧
      uri = value.dropWhile (· ≠ 47) ∧
        findStr mem q (q + value.length - 1) (ascii "/") = some (some (q + host.length)) := by
  obtain ⟨host, rest, hdrop, hhost⟩ := List.eq_append_cons_of_mem hslash
  have hne : value ≠ [] := by
    rintro rfl
    exact List.not_mem_nil hslash
  have hvalue : value = host ++ 47 :: (rest ++ [value.getLast hne]) := by
    conv_lhs => rw [← List.dropLast_append_getLast hne, hdrop]
    simp
  have hhost' : ∀ c ∈ host, decide (c ≠ 47) = true := fun c hc =>
    decide_eq_true fun heq => hhost (heq ▸ hc)
  have hend : q + (value.length : ℤ) - 1 = q + value.dropLast.length := by
    have := List.length_pos_iff.2 hne
    rw [List.length_dropLast]
    omega
  have hread : Holds mem q value.dropLast := h.of_prefix (List.dropLast_prefix value)
  refine ⟨host, 47 :: (rest ++ [value.getLast hne]), hvalue, ?_, ?_, ?_⟩
  · conv_rhs => rw [hvalue]
    rw [List.takeWhile_append_of_pos hhost', List.takeWhile_cons_of_neg (by simp), List.append_nil]
  · conv_rhs => rw [hvalue]
    rw [List.dropWhile_append_of_pos hhost', List.dropWhile_cons_of_neg (by simp)]
  · have hfirst : firstAt (ascii "/") (host ++ 47 :: rest) = some host.length :=
      firstAt_append rest hhost
    rw [hend, findStr_spec (by decide) hread, hdrop, hfirst]
    rfl

/-- No slash is found where there is none in front of the last byte. -/
theorem findStr_no_slash {mem : ℤ → Option UInt8} {q : ℤ} {value : List UInt8}
    (h : Holds mem q value) (hslash : 47 ∉ value.dropLast) :
    findStr mem q (q + value.length - 1) (ascii "/") = some none := by
  by_cases hnil : value = []
  · subst hnil
    have hturns :
        (q + (([] : List UInt8).length : ℤ) - 1 - q - (ascii "/").length + 1).toNat = 0 := by
      rw [show (ascii "/").length = 1 from rfl, List.length_nil]
      omega
    rw [findStr, hturns]
    rfl
  · have hend : q + (value.length : ℤ) - 1 = q + value.dropLast.length := by
      have := List.length_pos_iff.2 hnil
      rw [List.length_dropLast]
      omega
    have hfirst : firstAt (ascii "/") value.dropLast = none := firstAt_of_notMem hslash
    rw [hend, findStr_spec (by decide) (h.of_prefix (List.dropLast_prefix value)), hfirst]
    rfl

/-- A `Referer` is split at its first slash, -/
theorem KnownHeader.store_refer {mem : ℤ → Option UInt8} (req : HttpReqHeader) {q : ℤ}
    {value : List UInt8} (h : Holds mem q value) (hslash : 47 ∈ value.dropLast) :
    ∃ s t, store mem req q (q + value.length - 1) .refer =
        some { req with referHost := s, referUri := t } ∧
      s.Denotes mem (value.takeWhile (· ≠ 47)) ∧ t.Denotes mem (value.dropWhile (· ≠ 47)) := by
  obtain ⟨host, uri, hsplit, hhost, huri, hfind⟩ := findStr_slash h hslash
  have hparts : Holds mem q host ∧ Holds mem (q + host.length) uri := by
    rwa [hsplit, holds_append] at h
  refine ⟨_, _, by rw [store, hfind]; rfl, ?_, ?_⟩
  · rw [← hhost]
    exact ⟨by simp [cStringSet], hparts.1⟩
  · rw [← huri]
    refine ⟨?_, hparts.2⟩
    rw [hsplit, List.length_append, cStringSet]
    push_cast
    ring

/-- and not stored without a slash in front of its last byte. -/
theorem KnownHeader.store_refer_none {mem : ℤ → Option UInt8} (req : HttpReqHeader) {q : ℤ}
    {value : List UInt8} (h : Holds mem q value) (hslash : 47 ∉ value.dropLast) :
    store mem req q (q + value.length - 1) .refer = some req := by
  rw [store, findStr_no_slash h hslash]
  rfl

/-! ### One line -/

/-- The blanks at the start of a text are skipped. -/
theorem skipSpace_holds {mem : ℤ → Option UInt8} {p : ℤ} {w : List UInt8} (h : Holds mem p w) :
    ∃ (n : ℕ) (v : List UInt8), n = (w.takeWhile (· = 32)).length ∧ v = skipSpaces w ∧
      skipSpace mem p w.length = some (p + n) ∧ Holds mem (p + n) v ∧
        (w.length : ℤ) = n + v.length := by
  have hsplit : w.takeWhile (· = 32) ++ skipSpaces w = w := List.takeWhile_append_dropWhile
  have hlen := congrArg List.length hsplit
  rw [List.length_append] at hlen
  exact ⟨_, _, rfl, rfl, skipChar_spec h, (holds_append.1 (hsplit.symm ▸ h)).2,
    by exact_mod_cast hlen.symm⟩

theorem strip_holds {mem : ℤ → Option UInt8} {p : ℤ} {w : List UInt8} (h : Holds mem p w) :
    skipSpace mem p w.length = some (p + (w.takeWhile (· = 32)).length) ∧
      stripChar mem (p + (w.takeWhile (· = 32)).length)
          (w.length - (w.takeWhile (· = 32)).length) 32 =
        some (p + (w.takeWhile (· = 32)).length + (strip w).length - 1) ∧
      Holds mem (p + (w.takeWhile (· = 32)).length) (strip w) := by
  obtain ⟨n, v, rfl, rfl, hskip, hrest, hlen⟩ := skipSpace_holds h
  refine ⟨hskip, ?_, hrest.of_prefix (List.rdropWhile_prefix _ _)⟩
  rw [hlen, add_sub_cancel_left]
  exact stripChar_spec hrest

/-- A line without a name ends the loop. -/
theorem headerLine_nameless {mem : ℤ → Option UInt8} (req : HttpReqHeader) {p : ℤ}
    {value : List UInt8} (hline : Holds mem p (58 :: value)) :
    headerLine mem req p (p + (58 :: value).length) = some none := by
  have hfind : findStr mem p (p + (58 :: value).length) hdrKvSep = some (some p) := by
    have hfirst : firstAt hdrKvSep (58 :: value) = some 0 :=
      if_pos (List.cons_prefix_cons.2 ⟨rfl, List.nil_prefix⟩)
    rw [findStr_spec (by decide) hline, hfirst]
    simp
  rw [headerLine, if_neg (by rw [List.length_cons]; omega), hfind]
  simp

/-- **A header line** with a name is cut at its first colon; its value is stored without the blanks
around it. -/
theorem headerLine_eq {mem : ℤ → Option UInt8} (req : HttpReqHeader) {p : ℤ}
    {name value : List UInt8} (hne : name ≠ []) (hcolon : 58 ∉ name)
    (hline : Holds mem p (name ++ 58 :: value)) :
    ∃ q, Holds mem q (strip value) ∧
      headerLine mem req p (p + (name ++ 58 :: value).length) =
        ((taken name).elim (some req)
          (KnownHeader.store mem req q (q + (strip value).length - 1))).map some := by
  have hpos := List.length_pos_iff.2 hne
  obtain ⟨hnameAt, hcolonAt, hvalueAt⟩ := holds_append.1 hline
  obtain ⟨hskip, hstrip, hstripAt⟩ := strip_holds hvalueAt
  have hlength : ((name ++ 58 :: value).length : ℤ) = name.length + 1 + value.length := by
    rw [List.length_append, List.length_cons]
    push_cast
    ring
  have hfind : findStr mem p (p + (name ++ 58 :: value).length) hdrKvSep =
      some (some (p + name.length)) := by
    have hfirst : firstAt hdrKvSep (name ++ 58 :: value) = some name.length :=
      firstAt_append value hcolon
    rw [findStr_spec (by decide) hline, hfirst]
    rfl
  have hlen1 : p + ((name ++ 58 :: value).length : ℤ) - (p + name.length + 1) = value.length := by
    rw [hlength]
    ring
  have hlen2 (k : ℤ) : p + ((name ++ 58 :: value).length : ℤ) - (p + name.length + 1 + k) =
      value.length - k := by
    rw [hlength]
    ring
  refine ⟨_, hstripAt, ?_⟩
  rw [headerLine, if_neg (by omega), hfind]
  have hne1 : ¬ p + (name.length : ℤ) = p := by omega
  have hsep1 : ((hdrKvSep.length : ℕ) : ℤ) = 1 := rfl
  simp only [Option.bind_eq_bind, Option.bind_some, if_neg hne1, hsep1, hlen1, hskip, hlen2, hstrip]
  rw [addHeader_eq mem req hne (holds_append.2 ⟨hnameAt, holds_cons.2 ⟨hcolonAt, trivial⟩⟩)]
  exact Option.map_eq_bind.symm

/-! ### One turn -/

/-- The blanks in front of a text are skipped. -/
theorem skipSpace_blanks {mem : ℤ → Option UInt8} {p : ℤ} (lead : List UInt8) {w : List UInt8}
    (h : Holds mem p (lead ++ w)) (hlead : ∀ c ∈ lead, c = 32) (hw : w.head? ≠ some 32) :
    skipSpace mem p (lead ++ w).length = some (p + lead.length) := by
  rw [skipSpace, skipChar_spec h, List.takeWhile_append_of_pos (by simpa using hlead),
    takeWhile_eq_nil hw, List.append_nil]

/-- A text without a line end is followed by the first one. -/
theorem firstAt_crlf {w : List UInt8} (rest : List UInt8) (h : ¬ crStr <:+: w) :
    firstAt crStr (w ++ (crStr ++ rest)) = some w.length := by
  induction w with
  | nil => exact if_pos (List.prefix_append _ _)
  | cons d w ih =>
    have hpre : ¬ crStr <+: d :: (w ++ (crStr ++ rest)) := by
      intro hpre
      obtain ⟨hd, hnext⟩ := List.cons_prefix_cons.1 hpre
      cases w with
      | nil => exact absurd (List.cons_prefix_cons.1 hnext).1 (by decide)
      | cons e w =>
        have he := (List.cons_prefix_cons.1 hnext).1
        refine h (List.IsPrefix.isInfix ⟨w, ?_⟩)
        rw [← hd, ← he]
        rfl
    have htail : ¬ crStr <:+: w := fun hw => h (hw.trans (List.suffix_cons d w).isInfix)
    rw [List.cons_append, firstAt, if_neg hpre, ih htail]
    rfl

/-- A carriage return behind a text makes no line end. -/
theorem not_infix_cr {w : List UInt8} (h : ¬ crStr <:+: w) : ¬ crStr <:+: w ++ [13] := by
  rintro ⟨s, t, heq⟩
  rcases List.eq_nil_or_concat t with rfl | ⟨t, c, rfl⟩
  · have hlast := congrArg List.getLast? heq
    rw [List.append_nil, List.getLast?_concat, List.getLast?_append,
      show crStr.getLast? = some 10 from rfl, Option.some_or] at hlast
    exact absurd hlast (by decide)
  · rw [List.concat_eq_append, ← List.append_assoc] at heq
    exact h ⟨s, t, (List.append_inj' heq rfl).1⟩

/-- A text without carriage returns has no line end. -/
theorem not_infix_of_notMem {w : List UInt8} (h : 13 ∉ w) : ¬ crStr <:+: w := fun hmid =>
  h (hmid.subset List.mem_cons_self)

/-- The loop goes by what it finds in a line. -/
def afterLine (next : HttpReqHeader → Option ReqRes) (req : HttpReqHeader) :
    Option (Option HttpReqHeader) → Option ReqRes
  | none => some .fault
  | some none => some (.done .ok req)
  | some (some req) => next req

/-- **A turn of the loop** takes the line up to the next line end, without the blanks it begins
with. -/
theorem headerLoop_turn {mem : ℤ → Option UInt8} (fuel : ℕ) (req : HttpReqHeader) {p : ℤ}
    (lead : List UInt8) {w rest : List UInt8}
    (htext : Holds mem p (crStr ++ (lead ++ (w ++ (crStr ++ rest)))))
    (hlead : ∀ c ∈ lead, c = 32) (hw : ¬ crStr <:+: w) (hhead : w.head? ≠ some 32) :
    Holds mem (p + 2 + lead.length) w ∧ Holds mem (p + 2 + lead.length + w.length) (crStr ++ rest) ∧
      headerLoop mem (p + (crStr ++ (lead ++ (w ++ (crStr ++ rest)))).length) (fuel + 1) req p =
        afterLine (fun req' => headerLoop mem
            (p + 2 + lead.length + w.length + (crStr ++ rest).length) fuel req'
              (p + 2 + lead.length + w.length))
          req (headerLine mem req (p + 2 + lead.length) (p + 2 + lead.length + w.length)) := by
  have hleadAt : Holds mem (p + 2) (lead ++ (w ++ (crStr ++ rest))) := (holds_append.1 htext).2
  obtain ⟨-, hrestAt⟩ := holds_append.1 hleadAt
  have hend : p + ((crStr ++ (lead ++ (w ++ (crStr ++ rest)))).length : ℤ) =
      p + 2 + (lead ++ (w ++ (crStr ++ rest))).length := by
    rw [List.length_append, show crStr.length = 2 from rfl]
    push_cast
    ring
  have hend' : p + 2 + ((lead ++ (w ++ (crStr ++ rest))).length : ℤ) =
      p + 2 + lead.length + (w ++ (crStr ++ rest)).length := by
    rw [List.length_append]
    push_cast
    ring
  have hhead' : (w ++ (crStr ++ rest)).head? ≠ some 32 := by
    cases w with
    | nil => exact fun h => absurd (Option.some.inj h) (by decide)
    | cons c w => exact hhead
  have hfind : findStr mem (p + 2 + lead.length)
      (p + 2 + lead.length + (w ++ (crStr ++ rest)).length) crStr =
        some (some (p + 2 + lead.length + w.length)) := by
    rw [findStr_spec (by decide) hrestAt, firstAt_crlf rest hw]
    rfl
  refine ⟨(holds_append.1 hrestAt).1, (holds_append.1 hrestAt).2, ?_⟩
  rw [hend, headerLoop, show ((crStr.length : ℕ) : ℤ) = 2 from rfl, add_sub_cancel_left,
    skipSpace_blanks lead hleadAt hlead hhead', hend']
  simp only [hfind]
  rw [@List.length_append _ w, Nat.cast_add, ← add_assoc]
  rcases headerLine mem req (p + 2 + lead.length) (p + 2 + lead.length + w.length) with _ | _ | _
  all_goals rfl

/-- **The last turn** takes what is left, when there is no line end in it. -/
theorem headerLoop_last {mem : ℤ → Option UInt8} (fuel : ℕ) (req : HttpReqHeader) {p : ℤ}
    (lead : List UInt8) {w : List UInt8} (htext : Holds mem p (crStr ++ (lead ++ w)))
    (hlead : ∀ c ∈ lead, c = 32) (hw : ¬ crStr <:+: w) (hhead : w.head? ≠ some 32) :
    Holds mem (p + 2 + lead.length) w ∧
      headerLoop mem (p + (crStr ++ (lead ++ w)).length) (fuel + 1) req p =
        afterLine (fun req' => some (.done .ok req')) req
          (headerLine mem req (p + 2 + lead.length) (p + 2 + lead.length + w.length)) := by
  have hleadAt : Holds mem (p + 2) (lead ++ w) := (holds_append.1 htext).2
  obtain ⟨-, hrestAt⟩ := holds_append.1 hleadAt
  have hend : p + ((crStr ++ (lead ++ w)).length : ℤ) = p + 2 + (lead ++ w).length := by
    rw [List.length_append, show crStr.length = 2 from rfl]
    push_cast
    ring
  have hend' : p + 2 + ((lead ++ w).length : ℤ) = p + 2 + lead.length + w.length := by
    rw [List.length_append]
    push_cast
    ring
  have hfind : findStr mem (p + 2 + lead.length) (p + 2 + lead.length + w.length) crStr =
      some none := by
    rw [findStr_spec (by decide) hrestAt, firstAt_eq_none hw]
    rfl
  refine ⟨hrestAt, ?_⟩
  rw [hend, headerLoop, show ((crStr.length : ℕ) : ℤ) = 2 from rfl, add_sub_cancel_left,
    skipSpace_blanks lead hleadAt hlead hhead, hend']
  simp only [hfind]
  rcases headerLine mem req (p + 2 + lead.length) (p + 2 + lead.length + w.length) with _ | _ | _
  all_goals rfl

/-- The blank line ends the loop; its last byte is not looked at. -/
theorem headerLoop_blank {mem : ℤ → Option UInt8} (fuel : ℕ) (req : HttpReqHeader) {p : ℤ}
    (htext : Holds mem p (crStr ++ [13])) :
    headerLoop mem (p + (crStr ++ [13]).length) (fuel + 1) req p = some (.done .ok req) := by
  obtain ⟨hcr, hlast⟩ :=
    headerLoop_last fuel req [] htext (by simp) (by decide) (by decide)
  have hfind : findStr mem (p + 2 + ([] : List UInt8).length)
      (p + 2 + ([] : List UInt8).length + ([13] : List UInt8).length) hdrKvSep = some none := by
    rw [findStr_spec (by decide) hcr, show firstAt hdrKvSep [13] = none by decide]
    rfl
  have hline : headerLine mem req (p + 2 + ([] : List UInt8).length)
      (p + 2 + ([] : List UInt8).length + ([13] : List UInt8).length) = some none := by
    rw [headerLine, if_neg (by simp), hfind]
    rfl
  rw [hline] at hlast
  exact hlast

end F1Goal
