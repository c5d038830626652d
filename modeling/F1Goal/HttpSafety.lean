import F1Goal.HttpParser
import F1Goal.Lib.Returns

/-!
# The parser stays inside the data

The end `p_data_end` of the data is their last byte, and the searches stop before the end that they
are given. Each function returns when what it is given lies inside of the data, and says where what
it returns lies. A turn of the loop ends behind the line end it began with, so that the loop ends,
and `httpReqHeaderParser_safe` holds of any bytes.
-/

namespace F1Goal

open Block CString

variable {data : ℤ → UInt8} {off n : ℤ}

/-! ### Comparing and searching -/

/-- What stands between two positions in the data. -/
theorem holds_between (data : ℤ → UInt8) {p pe : ℤ} (hp : off ≤ p) (hpe : pe ≤ off + n) (hle : p ≤ pe) :
    ∃ w : List UInt8, pe = p + w.length ∧ Holds (view data off n) p w := by
  have hlen : p + ((pe - p).toNat : ℤ) = pe := by omega
  refine ⟨Mem.slice data p (pe - p).toNat, by rw [Mem.length_slice, hlen], ?_⟩
  exact holds_slice _ hp (by omega)

theorem cmpStr2_between {p len : ℤ} (hp : off ≤ p) (hpe : p + len ≤ off + n) (hlen : 0 ≤ len)
    {str : List UInt8} (hshort : str.length < 512) :
    Returns (cmpStr2 (view data off n) p len str) fun r => r = 0 → str.length ≤ len := by
  obtain ⟨w, hw, hread⟩ := holds_between data hp hpe (by omega)
  obtain rfl : len = w.length := by omega
  obtain ⟨r, hr, hiff⟩ := cmpStr2_spec hread hshort
  exact Returns.of_eq hr fun hzero => by exact_mod_cast (hiff.1 hzero).length_le

/-- A string is found where all of it stands before the end. -/
theorem findStr_between {p pe : ℤ} (hp : off ≤ p) (hpe : pe ≤ off + n) {sub : List UInt8}
    (hne : sub ≠ []) (hshort : sub.length < 512) :
    Returns (findStr (view data off n) p pe sub) fun r =>
      ∀ pb, r = some pb → p ≤ pb ∧ pb + sub.length ≤ pe := by
  by_cases hle : p ≤ pe
  · obtain ⟨w, rfl, hread⟩ := holds_between data hp hpe hle
    refine Returns.of_eq (findStr_spec hshort hread) fun pb hpb => ?_
    obtain ⟨i, hi, rfl⟩ := Option.map_eq_some_iff.1 hpb
    have hlast := firstAt_le hi
    omega
  · have hpos := List.length_pos_iff.2 hne
    have hnone : (pe - p - sub.length + 1).toNat = 0 := by omega
    refine Returns.of_eq (by rw [findStr, hnone]; rfl) ?_
    rintro pb ⟨⟩

theorem skipSpace_between {p pe : ℤ} (hp : off ≤ p) (hpe : pe ≤ off + n) (hle : p ≤ pe) :
    Returns (skipSpace (view data off n) p (pe - p)) fun q => p ≤ q ∧ q ≤ pe := by
  obtain ⟨w, rfl, hread⟩ := holds_between data hp hpe hle
  rw [add_sub_cancel_left]
  refine Returns.of_eq (skipChar_spec hread) ?_
  have hlen := (List.takeWhile_prefix (· = 32) (l := w)).length_le
  omega

theorem stripChar_between {p pe : ℤ} (hp : off ≤ p) (hpe : pe ≤ off + n) (hle : p ≤ pe) :
    Returns (stripChar (view data off n) p (pe - p) 32) fun q => p ≤ q + 1 ∧ q + 1 ≤ pe := by
  obtain ⟨w, rfl, hread⟩ := holds_between data hp hpe hle
  rw [add_sub_cancel_left]
  refine Returns.of_eq (stripChar_spec hread) ?_
  have hlen := (List.rdropWhile_prefix (· = 32) (l := w)).length_le
  omega

/-! ### What is stored -/

/-- The slices of a request. -/
def HttpReqHeader.slices : List (HttpReqHeader → CStringT) :=
  [uri, host, ua, cookie, referHost, referUri, accept, acceptCharset, acceptEncode, acceptLang]

/-- The slice lies inside of the data. -/
def CStringT.Inside (s : CStringT) (pData dataLen : ℤ) : Prop :=
  0 ≤ s.len ∧ pData ≤ s.data ∧ s.data + s.len ≤ pData + dataLen

/-- Each slice is the one from before or lies inside of the data. -/
def StoresInside (pData dataLen : ℤ) (req req' : HttpReqHeader) : Prop :=
  ∀ field ∈ HttpReqHeader.slices, field req' = field req ∨ (field req').Inside pData dataLen

theorem StoresInside.refl (req : HttpReqHeader) : StoresInside off n req req :=
  fun _ _ => .inl rfl

theorem StoresInside.trans {req₁ req₂ req₃ : HttpReqHeader} (h₁ : StoresInside off n req₁ req₂)
    (h₂ : StoresInside off n req₂ req₃) : StoresInside off n req₁ req₃ := by
  intro field hfield
  rcases h₂ field hfield with heq | hinside
  · rw [heq]
    exact h₁ field hfield
  · exact .inr hinside

theorem inside_between {p pe : ℤ} (hp : off ≤ p) (hpe : pe ≤ off + n) (hle : p ≤ pe) :
    (cStringSet p (pe - p)).Inside off n := by
  refine ⟨?_, hp, ?_⟩ <;> simp only [cStringSet] <;> omega

/-- **`add_header`** reads the key and the value only. -/
theorem addHeader_between (req : HttpReqHeader) {p pe q qe : ℤ} (hp : off ≤ p) (hpe : pe < off + n)
    (hle : p ≤ pe) (hq : off ≤ q) (hqe : qe + 1 ≤ off + n) (hqle : q ≤ qe + 1) :
    Returns (addHeader (view data off n) req p pe q qe) (StoresInside off n req) := by
  have hread : view data off n p = some (data p) := if_pos ⟨hp, by omega⟩
  have hkey : ∀ key : String, (ascii key).length < 512 →
      Returns (isKey (view data off n) p pe key) fun _ => True := by
    intro key hshort
    apply (cmpStr2_between hp (by omega) (by omega) hshort).bind
    intros
    simp
  have hvalue : (cStringSet q (qe - q + 1)).Inside off n := by
    rw [show qe - q + 1 = qe + 1 - q by ring]
    exact inside_between hq hqe hqle
  have hsame : Returns (some req) (StoresInside off n req) := Returns.some_iff.2 (.refl req)
  simp only [addHeader, hread, Option.bind_eq_bind, Option.bind_some]
  refine .ite (fun _ => ?_) fun _ => .ite (fun _ => ?_) fun _ => .ite (fun _ => ?_) fun _ =>
    .ite (fun _ => ?_) fun _ => .ite (fun _ => ?_) fun _ => hsame
  · refine .bind_ite (hkey _ (by decide)) ?_ (.bind_ite (hkey _ (by decide)) ?_
      (.bind_ite (hkey _ (by decide)) ?_ (.bind_ite (hkey _ (by decide)) ?_ hsame)))
    all_goals simp [StoresInside, HttpReqHeader.slices, hvalue]
  · refine .bind_ite (hkey _ (by decide)) ?_ hsame
    simp [StoresInside, HttpReqHeader.slices, hvalue]
  · refine .bind_ite (hkey _ (by decide)) ?_ hsame
    simp [StoresInside, HttpReqHeader.slices, hvalue]
  · refine .bind_ite (hkey _ (by decide)) ?_ hsame
    apply (findStr_between hq (by omega) (by decide) (by decide)).bind
    rintro (_ | slash) hslash
    · exact hsame
    · obtain ⟨hlo, hhi⟩ := hslash slash rfl
      have hhost : (cStringSet q (slash - q)).Inside off n := inside_between hq (by omega) hlo
      have huri : (cStringSet slash (qe - slash + 1)).Inside off n := by
        rw [show qe - slash + 1 = qe + 1 - slash by ring]
        exact inside_between (by omega) hqe (by omega)
      simp [StoresInside, HttpReqHeader.slices, hhost, huri]
  · refine .bind_ite (hkey _ (by decide)) ?_ hsame
    simp [StoresInside, HttpReqHeader.slices, hvalue]

/-- **A header line** is read up to its end. -/
theorem headerLine_between (req : HttpReqHeader) {p pe : ℤ} (hp : off ≤ p) (hpe : pe ≤ off + n) :
    Returns (headerLine (view data off n) req p pe) fun r =>
      ∀ req', r = some req' → p < pe ∧ StoresInside off n req req' := by
  rw [headerLine]
  apply Returns.ite
  · intro
    exact Returns.pure_iff.2 fun _ heq => nomatch heq
  · intro hline
    apply (findStr_between hp hpe (by decide) (by decide)).bind
    rintro (_ | key) hcolon
    · exact Returns.pure_iff.2 fun _ heq => nomatch heq
    · obtain ⟨hlo, hhi⟩ := hcolon key rfl
      rw [show ((hdrKvSep.length : ℕ) : ℤ) = 1 from rfl] at *
      apply Returns.ite
      · intro
        exact Returns.pure_iff.2 fun _ heq => nomatch heq
      · intro
        apply (skipSpace_between (by omega) hpe hhi).bind
        intro value hvalue
        apply (stripChar_between (by omega) hpe hvalue.2).bind
        intro last hlast
        apply (addHeader_between req hp (by omega) hlo (by omega) (by omega) hlast.1).bind
        intro req' hstores
        refine Returns.pure_iff.2 fun req'' heq => ?_
        cases heq
        exact ⟨by omega, hstores⟩

/-! ### The loop -/

/-- **The loop** ends: each of its turns leaves the line end it began with behind. -/
theorem headerLoop_safe {fuel : ℕ} (req : HttpReqHeader) {e : ℤ} (he : off ≤ e)
    (hend : e + 2 ≤ off + n - 1) (hfuel : off + n - e < fuel) :
    Returns (headerLoop (view data off n) (off + n - 1) fuel req e) fun r =>
      ∃ req', r = .done .ok req' ∧ StoresInside off n req req' := by
  induction fuel generalizing req e with
  | zero => omega
  | succ fuel ih =>
    have hcr : ((crStr.length : ℕ) : ℤ) = 2 := rfl
    obtain ⟨b, hskip, hb, hbe⟩ :
        Returns (skipSpace (view data off n) (e + 2) (off + n - 1 - (e + 2))) fun b =>
          e + 2 ≤ b ∧ b ≤ off + n - 1 :=
      skipSpace_between (by omega) (by omega) hend
    obtain ⟨r, hfind, hr⟩ : Returns (findStr (view data off n) b (off + n - 1) crStr) fun r =>
        ∀ pb, r = some pb → b ≤ pb ∧ pb + crStr.length ≤ off + n - 1 :=
      findStr_between (by omega) (by omega) (by decide) (by decide)
    have hread (pe : ℤ) (hpe : pe ≤ off + n) :
        Returns (headerLine (view data off n) req b pe) fun r =>
          ∀ req', r = some req' → b < pe ∧ StoresInside off n req req' :=
      headerLine_between req (by omega) hpe
    rw [headerLoop, hcr, hskip]
    simp only [hfind]
    rcases r with _ | e'
    · -- the last turn
      obtain ⟨r, hline, hr⟩ := hread (off + n - 1) (by omega)
      simp only [hline]
      rcases r with _ | req'
      · exact Returns.some_iff.2 ⟨req, rfl, .refl req⟩
      · exact Returns.some_iff.2 ⟨req', rfl, (hr req' rfl).2⟩
    · obtain ⟨hlo, hhi⟩ := hr e' rfl
      rw [hcr] at hhi
      obtain ⟨r, hline, hr⟩ := hread e' (by omega)
      simp only [hline]
      rcases r with _ | req'
      · exact Returns.some_iff.2 ⟨req, rfl, .refl req⟩
      · obtain ⟨hless, hstores⟩ := hr req' rfl
        push_cast at hfuel
        apply (ih req' (by omega) hhi (by omega)).mono
        rintro _ ⟨req'', rfl, hstores'⟩
        exact ⟨req'', rfl, hstores.trans hstores'⟩

/-- What is known when the request line has been read: the loop can begin behind it. -/
def BeginsInside (pData dataLen : ℤ) (req : HttpReqHeader) (r : Code × HttpReqHeader × ℤ) : Prop :=
  StoresInside pData dataLen req r.2.1 ∧
    (r.1 = .ok → pData ≤ r.2.2 ∧ r.2.2 + 2 ≤ pData + dataLen - 1)

/-- **The request line** is read up to its end, which stands before the end of the data. -/
theorem requestLine_safe (req : HttpReqHeader) :
    Returns (requestLine (view data off n) req off (off + n - 1)) (BeginsInside off n req) := by
  rw [requestLine]
  apply (findStr_between le_rfl (by omega) (by decide) (by decide)).bind
  rintro (_ | e) hfind
  · exact Returns.pure_iff.2 ⟨.refl req, fun heq => nomatch heq⟩
  · obtain ⟨hlo, hhi⟩ := hfind e rfl
    rw [show ((crStr.length : ℕ) : ℤ) = 2 from rfl] at hhi
    have hends (code : Code) {req' : HttpReqHeader} (hstores : StoresInside off n req req') :
        Returns (pure (code, req', e)) (BeginsInside off n req) :=
      Returns.pure_iff.2 ⟨hstores, fun _ => ⟨hlo, hhi⟩⟩
    have hmethod : StoresInside off n req { req with method := .get } := by
      simp [StoresInside, HttpReqHeader.slices]
    apply Returns.ite
    · exact fun _ => hends .err (.refl req)
    intro
    apply (cmpStr2_between le_rfl (by omega) (by omega) (by decide)).bind
    intro r hget
    apply Returns.ite
    · exact fun _ => hends .err (.refl req)
    intro hzero
    have hthree : (3 : ℤ) ≤ e - off := hget (not_ne_iff.1 hzero)
    apply (skipSpace_between (by omega) (by omega) (by omega)).bind
    intro b hb
    apply (findStr_between (by omega) (by omega) (by decide) (by decide)).bind
    rintro (_ | be) hsp
    · exact hends .err hmethod
    obtain ⟨hblo, hbhi⟩ := hsp be rfl
    rw [show ((spStr.length : ℕ) : ℤ) = 1 from rfl] at hbhi
    have huri : (cStringSet b (be - b)).Inside off n := inside_between (by omega) (by omega) hblo
    have hstores (v : UInt8) : StoresInside off n req
        { req with method := .get, uri := cStringSet b (be - b), version := v } := by
      simp [StoresInside, HttpReqHeader.slices, huri]
    apply Returns.ite
    · exact fun _ => hends .err hmethod
    intro
    apply (skipSpace_between (by omega) (by omega) (by omega)).bind
    intro v hv
    apply (cmpStr2_between (by omega) (by omega) (by omega) (by decide)).bind
    intro r₁ _
    apply Returns.ite
    · exact fun _ => hends .ok (hstores httpV11)
    intro
    apply (cmpStr2_between (by omega) (by omega) (by omega) (by decide)).bind
    intro r₂ _
    apply Returns.ite
    · exact fun _ => hends .ok (hstores httpV10)
    · exact fun _ => hends .err (hstores req.version)

/-- **The parser is safe.** On any bytes it returns, having read nothing outside of them, and every
slice that it has stored lies inside of them. -/
theorem httpReqHeaderParser_safe (data : ℤ → UInt8) (req : HttpReqHeader) (pData dataLen : ℤ) :
    ∃ code req', httpReqHeaderParser (view data pData dataLen) req pData dataLen =
        some (.done code req') ∧
      ∀ field ∈ HttpReqHeader.slices,
        field req' = field req ∨ (field req').Inside pData dataLen := by
  obtain ⟨⟨code, req₁, e⟩, hline, hstores, hend⟩ :
      Returns (requestLine (view data pData dataLen) req pData (pData + dataLen - 1))
        (BeginsInside pData dataLen req) :=
    requestLine_safe req
  rw [httpReqHeaderParser, hline]
  cases code with
  | ok =>
    obtain ⟨hlo, hhi⟩ : pData ≤ e ∧ e + 2 ≤ pData + dataLen - 1 := hend rfl
    obtain ⟨_, hloop, req₂, rfl, hstores'⟩ : Returns (headerLoop (view data pData dataLen)
        (pData + dataLen - 1) (dataLen.toNat + 1) req₁ e) fun r =>
          ∃ req', r = .done .ok req' ∧ StoresInside pData dataLen req₁ req' :=
      headerLoop_safe req₁ hlo hhi (by omega)
    exact ⟨.ok, req₂, hloop, hstores.trans hstores'⟩
  | err => exact ⟨.err, req₁, rfl, hstores⟩

end F1Goal
