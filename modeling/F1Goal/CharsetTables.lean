import F1Goal.CharsetUtf8

/-!
# The code table and the conversions through it

The arrays hold what the last entries of the table have written. When no entry undoes another, they
are inverse to each other (`lookup_gbkUcs2_iff`, `lookup_ucs2Gbk_iff`), and a text that is converted
comes back. Whatever the arrays hold, a conversion through UCS-2 agrees with the direct one.
-/

namespace F1Goal

open Transcode

/-! ### What the arrays hold -/

/-- The entry `{0xFFFF, 0xFFFF}` that ends a table. -/
def CodeMap.IsEnd (e : CodeMap) : Prop := e.c1 = 0xFFFF ∧ e.c2 = 0xFFFF

instance : DecidablePred CodeMap.IsEnd := fun _ => inferInstanceAs (Decidable (_ ∧ _))

/-- Both sides of the entry are codes. -/
def CodeMap.Proper (e : CodeMap) : Prop := e.c1 ≠ 0xFFFF ∧ e.c2 ≠ 0xFFFF

instance : DecidablePred CodeMap.Proper := fun _ => inferInstanceAs (Decidable (_ ∧ _))

/-- The entries before the one that ends the table. -/
def entries (table : List CodeMap) : List CodeMap := table.takeWhile fun e => !decide e.IsEnd

theorem toNat_lt_maxCodeSize {c : UInt16} : c.toNat < maxCodeSize ↔ c ≠ 0xFFFF := by
  have hc := c.toNat_lt
  have hne : c ≠ 0xFFFF ↔ c.toNat ≠ 0xFFFF := not_congr UInt16.toNat_inj.symm
  rw [hne, maxCodeSize]
  omega

theorem read_write_self {a : CodeArray} {i : UInt16} (h : i ≠ 0xFFFF) (v : UInt16) :
    (a.write i v).read i = .ok v := by
  have hi := toNat_lt_maxCodeSize.2 h
  rw [CodeArray.read, dif_pos hi, CodeArray.write, dif_pos hi, Function.update_self]

theorem read_write_of_ne (a : CodeArray) {i j : UInt16} (h : i ≠ j) (v : UInt16) :
    (a.write i v).read j = a.read j := by
  unfold CodeArray.read CodeArray.write
  by_cases hj : j.toNat < maxCodeSize
  · rw [dif_pos hj, dif_pos hj]
    by_cases hi : i.toNat < maxCodeSize
    · have hne : (⟨j.toNat, hj⟩ : Fin maxCodeSize) ≠ ⟨i.toNat, hi⟩ :=
        fun heq => h (UInt16.toNat_inj.1 (Fin.mk.inj heq)).symm
      rw [dif_pos hi, Function.update_of_ne hne]
    · rw [dif_neg hi]
  · rw [dif_neg hj, dif_neg hj]

theorem lookup_eq_ok {a : CodeArray} {c v : UInt16} :
    a.lookup c = .ok v ↔ a.read c = .ok v ∧ v ≠ 0xFFFF := by
  unfold CodeArray.lookup
  rw [bind_eq_ok]
  constructor
  · rintro ⟨w, hw, h⟩
    by_cases hv : w = 0xFFFF
    · rw [if_pos hv] at h
      cases h
    · rw [if_neg hv] at h
      cases h
      exact ⟨hw, hv⟩
  · rintro ⟨hr, hv⟩
    exact ⟨v, hr, by rw [if_neg hv]; rfl⟩

/-- A code that is looked up is an index of the array, and what is found is a code. -/
theorem ne_of_lookup {a : CodeArray} {c v : UInt16} (h : a.lookup c = .ok v) :
    c ≠ 0xFFFF ∧ v ≠ 0xFFFF := by
  obtain ⟨hr, hv⟩ := lookup_eq_ok.1 h
  refine ⟨?_, hv⟩
  rintro rfl
  cases hr

/-- The arrays after a list of entries. -/
def CharsetMaps.pairAll (m : CharsetMaps) (es : List CodeMap) : CharsetMaps := es.foldl .pair m

theorem charsetMapLoop_of_isEnd {e : CodeMap} (he : e.IsEnd) (table : List CodeMap)
    (m : CharsetMaps) : charsetMapLoop (e :: table) m = m :=
  if_neg (by rw [he.1, he.2]; simp)

theorem charsetMapLoop_of_not_isEnd {e : CodeMap} (he : ¬e.IsEnd) (table : List CodeMap)
    (m : CharsetMaps) : charsetMapLoop (e :: table) m = charsetMapLoop table (m.pair e) := by
  apply if_pos
  unfold CodeMap.IsEnd at he
  tauto

theorem entries_cons_of_isEnd {e : CodeMap} (he : e.IsEnd) (table : List CodeMap) :
    entries (e :: table) = [] :=
  List.takeWhile_cons_of_neg (by simpa using he)

theorem entries_cons_of_not_isEnd {e : CodeMap} (he : ¬e.IsEnd) (table : List CodeMap) :
    entries (e :: table) = e :: entries table :=
  List.takeWhile_cons_of_pos (by simpa using he)

theorem charsetMapLoop_maps (table : List CodeMap) (m : CharsetMaps) :
    (charsetMapLoop table m).gbkUcs2 = (m.pairAll (entries table)).gbkUcs2 ∧
      (charsetMapLoop table m).ucs2Gbk = (m.pairAll (entries table)).ucs2Gbk := by
  induction table generalizing m with
  | nil => exact ⟨rfl, rfl⟩
  | cons e table ih =>
    by_cases he : e.IsEnd
    · rw [charsetMapLoop_of_isEnd he, entries_cons_of_isEnd he]
      exact ⟨rfl, rfl⟩
    · rw [charsetMapLoop_of_not_isEnd he, entries_cons_of_not_isEnd he]
      exact ih (m.pair e)

/-- One of the two arrays: the entries of `es` written one after the other, `k` giving the index
and `v` the value. -/
def writeAll (k v : CodeMap → UInt16) (es : List CodeMap) : CodeArray :=
  es.foldl (fun a e => a.write (k e) (v e)) fun _ => 0xFFFF

theorem gbkUcs2_pairAll (es : List CodeMap) :
    (CharsetMaps.blank.pairAll es).gbkUcs2 = writeAll CodeMap.c1 CodeMap.c2 es :=
  (List.foldl_hom CharsetMaps.gbkUcs2 fun _ _ => rfl).symm

theorem ucs2Gbk_pairAll (es : List CodeMap) :
    (CharsetMaps.blank.pairAll es).ucs2Gbk = writeAll CodeMap.c2 CodeMap.c1 es :=
  (List.foldl_hom CharsetMaps.ucs2Gbk fun _ _ => rfl).symm

/-- An array holds exactly the proper entries, when these have one value for each index and no
entry without a value comes behind one of them. -/
theorem read_writeAll {k v : CodeMap → UInt16} {es : List CodeMap}
    (hone : ∀ e ∈ es, ∀ e' ∈ es, e.Proper → e'.Proper → k e = k e' → v e = v e')
    (hkeep : es.Pairwise fun e s => e.Proper → ¬s.Proper → k s ≠ k e)
    (hkv : ∀ e : CodeMap, e.Proper ↔ k e ≠ 0xFFFF ∧ v e ≠ 0xFFFF)
    {i c : UInt16} (hi : i ≠ 0xFFFF) (hc : c ≠ 0xFFFF) :
    (writeAll k v es).read i = .ok c ↔ ∃ e ∈ es, k e = i ∧ v e = c := by
  induction es using List.reverseRecOn with
  | nil =>
    have hblank : (writeAll k v []).read i = .ok 0xFFFF := dif_pos (toNat_lt_maxCodeSize.2 hi)
    rw [hblank]
    refine ⟨fun h => absurd (Except.ok.inj h).symm hc, ?_⟩
    rintro ⟨e, he, -⟩
    cases he
  | append_singleton es e ih =>
    have hlast : writeAll k v (es ++ [e]) = (writeAll k v es).write (k e) (v e) := by
      simp [writeAll]
    obtain ⟨hkeep, -, hbefore⟩ := List.pairwise_append.1 hkeep
    have hsub : ∀ {d}, d ∈ es → d ∈ es ++ [e] := List.mem_append_left [e]
    rw [hlast]
    by_cases hki : k e = i
    · rw [← hki, read_write_self (hki ▸ hi)]
      constructor
      · intro h
        exact ⟨e, by simp, rfl, Except.ok.inj h⟩
      · rintro ⟨d, hd, hkd, hvd⟩
        have hproper : d.Proper := (hkv d).2 ⟨by rw [hkd, hki]; exact hi, hvd ▸ hc⟩
        rcases List.mem_append.1 hd with hd' | hd'
        · by_cases he : e.Proper
          · rw [← hvd, hone e (by simp) d hd he hproper hkd.symm]
          · exact absurd hkd.symm (hbefore d hd' e (by simp) hproper he)
        · rw [List.mem_singleton.1 hd'] at hvd
          rw [hvd]
    · rw [read_write_of_ne _ hki, ih (fun d hd d' hd' => hone d (hsub hd) d' (hsub hd')) hkeep]
      constructor
      · rintro ⟨d, hd, hkd, hvd⟩
        exact ⟨d, hsub hd, hkd, hvd⟩
      · rintro ⟨d, hd, hkd, hvd⟩
        rcases List.mem_append.1 hd with hd' | hd'
        · exact ⟨d, hd', hkd, hvd⟩
        · rw [List.mem_singleton.1 hd'] at hkd
          exact absurd hkd hki

/-- The proper entries pair every code with one other code at most. -/
def OneToOne (es : List CodeMap) : Prop :=
  ∀ e ∈ es, ∀ e' ∈ es, e.Proper → e'.Proper → (e.c1 = e'.c1 ↔ e.c2 = e'.c2)

/-- No entry with just one code comes behind a proper entry with the same code. -/
def KeepsPairs (es : List CodeMap) : Prop :=
  es.Pairwise fun e s => e.Proper → ¬s.Proper → s.c1 ≠ e.c1 ∧ s.c2 ≠ e.c2

section Inverse

variable {table : List CodeMap} (hone : OneToOne (entries table))
  (hkeep : KeepsPairs (entries table))
include hone hkeep

theorem lookup_gbkUcs2_iff {g u : UInt16} (hg : g ≠ 0xFFFF) (hu : u ≠ 0xFFFF) :
    (charsetMapInit table).gbkUcs2.lookup g = .ok u ↔ ⟨g, u⟩ ∈ entries table := by
  rw [lookup_eq_ok, charsetMapInit, (charsetMapLoop_maps table .blank).1, gbkUcs2_pairAll,
    read_writeAll (fun e he e' he' hp hp' => (hone e he e' he' hp hp').1)
      (hkeep.imp fun h hp hs => (h hp hs).1) (fun _ => Iff.rfl) hg hu]
  constructor
  · rintro ⟨⟨e, he, rfl, rfl⟩, -⟩
    exact he
  · intro h
    exact ⟨⟨_, h, rfl, rfl⟩, hu⟩

theorem lookup_ucs2Gbk_iff {g u : UInt16} (hg : g ≠ 0xFFFF) (hu : u ≠ 0xFFFF) :
    (charsetMapInit table).ucs2Gbk.lookup u = .ok g ↔ ⟨g, u⟩ ∈ entries table := by
  rw [lookup_eq_ok, charsetMapInit, (charsetMapLoop_maps table .blank).2, ucs2Gbk_pairAll,
    read_writeAll (fun e he e' he' hp hp' => (hone e he e' he' hp hp').2)
      (hkeep.imp fun h hp hs => (h hp hs).2) (fun _ => And.comm) hu hg]
  constructor
  · rintro ⟨⟨e, he, rfl, rfl⟩, -⟩
    exact he
  · intro h
    exact ⟨⟨_, h, rfl, rfl⟩, hg⟩

/-- **The arrays are inverse to each other.** -/
theorem lookup_inverse {g u : UInt16} :
    (charsetMapInit table).gbkUcs2.lookup g = .ok u ↔
      (charsetMapInit table).ucs2Gbk.lookup u = .ok g := by
  constructor
  · intro h
    obtain ⟨hg, hu⟩ := ne_of_lookup h
    exact (lookup_ucs2Gbk_iff hone hkeep hg hu).2 ((lookup_gbkUcs2_iff hone hkeep hg hu).1 h)
  · intro h
    obtain ⟨hu, hg⟩ := ne_of_lookup h
    exact (lookup_gbkUcs2_iff hone hkeep hg hu).2 ((lookup_ucs2Gbk_iff hone hkeep hg hu).1 h)

end Inverse

/-! ### Conversions as lists of codes -/

/-- `lc_conv` succeeds on `x` with the output `o`. -/
def Converts (table : List CodeMap) (t : ConvType) (size : ℕ) (x o : List UInt8) : Prop :=
  lcConv table x size t = ⟨.ok o, o.length⟩

instance (table : List CodeMap) (t : ConvType) (size : ℕ) (x o : List UInt8) :
    Decidable (Converts table t size x o) :=
  inferInstanceAs (Decidable (_ = _))

theorem convCall_of_eq_iff {size : ℕ} {res : Except ConvStop (List UInt8)} {o : List UInt8} :
    ConvCall.of size res = ⟨.ok o, o.length⟩ ↔ res = .ok o := by
  cases res with
  | error e => exact ⟨fun h => (by cases h), fun h => (by cases h)⟩
  | ok out => exact ⟨fun h => (by cases h; rfl), fun h => (by cases h; rfl)⟩

/-- Each code is looked up and none is missing. -/
def LooksUp (look : UInt16 → Except ConvStop UInt16) (cs ds : List UInt16) : Prop :=
  cs.mapM (fun c => (look c).toOption) = some ds

theorem looksUp_iff {look : UInt16 → Except ConvStop UInt16} {cs ds : List UInt16} :
    LooksUp look cs ds ↔ List.Forall₂ (fun c d => look c = .ok d) cs ds := by
  unfold LooksUp
  induction cs generalizing ds with
  | nil =>
    constructor
    · intro h
      cases h
      exact .nil
    · intro h
      cases h
      rfl
  | cons c cs ih =>
    simp only [List.mapM_cons, Option.bind_eq_bind, Option.bind_eq_some_iff, Option.pure_def,
      toOption_eq_some, ih]
    constructor
    · rintro ⟨d, hd, ds, hds, ⟨⟩⟩
      exact .cons hd hds
    · intro h
      cases h with
      | cons hd hds => exact ⟨_, hd, _, hds, rfl⟩

theorem LooksUp.length_eq {look : UInt16 → Except ConvStop UInt16} {cs ds : List UInt16}
    (h : LooksUp look cs ds) : ds.length = cs.length :=
  (looksUp_iff.1 h).length_eq.symm

/-- A conversion in terms of the codes of its input, when there is room for as many codes of
output. -/
theorem convert_eq_ok_iff {r : Reader UInt8 UInt16 ConvStop}
    {look : UInt16 → Except ConvStop UInt16}
    {put : ℕ → ℕ → UInt16 → Except ConvStop (List UInt8)} {raw : UInt16 → List UInt8}
    (hw : Writes put raw) {x o : List UInt8} {size : ℕ}
    (hroom : ∀ cs ds : List UInt16, r.codes x = (cs, none) → ds.length = cs.length →
      (ds.flatMap raw).length < size) :
    convert r look put x size = .ok o ↔
      ∃ cs ds, r.codes x = (cs, none) ∧ LooksUp look cs ds ∧ o = ds.flatMap raw := by
  constructor
  · exact exists_of_convert hw
  · rintro ⟨cs, ds, hcodes, hlook, rfl⟩
    exact convert_of_codes hw hcodes hlook (hroom cs ds hcodes hlook.length_eq)

theorem LooksUp.inverse {look look' : UInt16 → Except ConvStop UInt16} {cs ds : List UInt16}
    (hinv : ∀ c d, look c = .ok d → look' d = .ok c) (h : LooksUp look cs ds) :
    LooksUp look' ds cs := by
  rw [looksUp_iff] at h ⊢
  induction h with
  | nil => exact .nil
  | cons hd _ ih => exact .cons (hinv _ _ hd) ih

/-! ### Round trips -/

/-- A conversion of 16-bit codes is undone by one that reads what it has written and looks every
code up the other way round. -/
theorem convert_back {r : Reader UInt8 UInt16 ConvStop} {look look' : UInt16 → Except ConvStop UInt16}
    {put : ℕ → ℕ → UInt16 → Except ConvStop (List UInt8)} {raw : UInt16 → List UInt8}
    (hw : Writes put raw) (hread : ∀ ds : List UInt16, r.codes (ds.flatMap raw) = (ds, none))
    (hinv : ∀ c d, look c = .ok d → look' d = .ok c) {x y : List UInt8} {size size' : ℕ}
    (h : convert code16Reader look put x size = .ok y) (hroom : x.length < size') :
    convert r look' putCode16 y size' = .ok x := by
  obtain ⟨cs, ds, hcodes, hlook, rfl⟩ := exists_of_convert hw h
  obtain rfl := eq_flatMap_code16 hcodes
  exact convert_of_codes writes_putCode16 (hread ds) (LooksUp.inverse hinv hlook) hroom

/-- The text comes back from UCS-2, from UTF-8 and, taken as UCS-2, from GBK. -/
def RoundTrips (table : List CodeMap) (x : List UInt8) : Prop :=
  ∀ size size' y, x.length < size' →
    (Converts table .gbkUcs2 size x y → Converts table .ucs2Gbk size' y x) ∧
    (Converts table .gbkUtf8 size x y → Converts table .utf8Gbk size' y x) ∧
    (Converts table .ucs2Gbk size x y → Converts table .gbkUcs2 size' y x)

/-- **GBK survives UCS-2 and UTF-8**, and UCS-2 survives GBK, when the proper entries of the table
are one to one and no later entry undoes one of them. -/
theorem gbk_round_trip (table : List CodeMap) (hone : OneToOne (entries table))
    (hkeep : KeepsPairs (entries table)) (x : List UInt8) : RoundTrips table x := by
  intro size size' y hroom
  have hinv : ∀ c d, (charsetMapInit table).gbkUcs2.lookup c = .ok d →
      (charsetMapInit table).ucs2Gbk.lookup d = .ok c :=
    fun c d => (lookup_inverse hone hkeep).1
  have hinv' : ∀ c d, (charsetMapInit table).ucs2Gbk.lookup c = .ok d →
      (charsetMapInit table).gbkUcs2.lookup d = .ok c :=
    fun c d => (lookup_inverse hone hkeep).2
  refine ⟨fun h => ?_, fun h => ?_, fun h => ?_⟩
  · have hok := convCall_of_eq_iff.1 h
    exact convCall_of_eq_iff.2 (convert_back writes_putCode16 codes_code16 hinv hok hroom)
  · have hok := convCall_of_eq_iff.1 h
    exact convCall_of_eq_iff.2 (convert_back writes_putUtf8 codes_encode hinv hok hroom)
  · have hok := convCall_of_eq_iff.1 h
    exact convCall_of_eq_iff.2 (convert_back writes_putCode16 codes_code16 hinv' hok hroom)

/-- A table with one pair and an entry without a UCS-2 code in front of it. -/
theorem gbk_round_trip_ah :
    RoundTrips [⟨0x81, 0xFFFF⟩, ⟨0xB0A1, 0x554A⟩, ⟨0xFFFF, 0xFFFF⟩] [0xB0, 0xA1] :=
  gbk_round_trip _ (by unfold OneToOne; decide +kernel) (by unfold KeepsPairs; decide +kernel) _

/-- An entry without a UCS-2 code that comes behind a pair undoes one of its directions. -/
theorem not_roundTrips_undone :
    ¬∀ table x, OneToOne (entries table) → 0xFFFF ∉ (code16Reader.codes x).1 →
      RoundTrips table x := by
  intro h
  have htrip := h [⟨0xB0A1, 0x554A⟩, ⟨0xB0A1, 0xFFFF⟩, ⟨0xFFFF, 0xFFFF⟩] [0x55, 0x4A]
    (by unfold OneToOne; decide +kernel) (by decide +kernel)
  have hback := (htrip 8 8 [0xB0, 0xA1] (by decide)).2.2 (by decide +kernel)
  exact absurd hback (by decide +kernel)

/-! ### Direct conversions and conversions through UCS-2 -/

/-- Looking codes up one after the other is looking all of them up twice. -/
theorem looksUp_bind_iff {look1 look2 : UInt16 → Except ConvStop UInt16} {cs es : List UInt16} :
    LooksUp (fun c => look1 c >>= look2) cs es ↔ ∃ ds, LooksUp look1 cs ds ∧ LooksUp look2 ds es := by
  simp only [looksUp_iff]
  constructor
  · intro h
    induction h with
    | nil => exact ⟨[], .nil, .nil⟩
    | cons hc _ ih =>
      obtain ⟨d, hd, he⟩ := bind_eq_ok.1 hc
      obtain ⟨ds, hds, hes⟩ := ih
      exact ⟨d :: ds, .cons hd hds, .cons he hes⟩
  · rintro ⟨ds, hds, hes⟩
    induction hds generalizing es with
    | nil =>
      cases hes
      exact .nil
    | cons hd _ ih =>
      cases hes with
      | cons he hes => exact .cons (bind_eq_ok.2 ⟨_, hd, he⟩) (ih hes)

/-- A conversion that translates twice is a conversion to 16-bit codes and one from there. -/
theorem convert_bind_iff {r : Reader UInt8 UInt16 ConvStop}
    (look1 look2 : UInt16 → Except ConvStop UInt16)
    {put : ℕ → ℕ → UInt16 → Except ConvStop (List UInt8)} {raw : UInt16 → List UInt8}
    (hw : Writes put raw) {x o : List UInt8} {size size1 size2 : ℕ}
    (hroom : ∀ cs ds : List UInt16, r.codes x = (cs, none) → ds.length = cs.length →
      (ds.flatMap raw).length < size ∧ (ds.flatMap raw).length < size2 ∧ 2 * cs.length < size1) :
    convert r (fun c => look1 c >>= look2) put x size = .ok o ↔
      ∃ y, convert r look1 putCode16 x size1 = .ok y ∧
        convert code16Reader look2 put y size2 = .ok o := by
  rw [convert_eq_ok_iff hw fun cs ds hcodes hlen => (hroom cs ds hcodes hlen).1]
  constructor
  · rintro ⟨cs, es, hcodes, hlook, rfl⟩
    obtain ⟨ds, hds, hes⟩ := looksUp_bind_iff.1 hlook
    obtain ⟨-, h2, h1⟩ := hroom cs es hcodes hlook.length_eq
    refine ⟨ds.flatMap code16, ?_, convert_of_codes hw (codes_code16 ds) hes h2⟩
    exact convert_of_codes writes_putCode16 hcodes hds
      (by rwa [length_flatMap_code16, hds.length_eq])
  · rintro ⟨y, hy, ho⟩
    obtain ⟨cs, ds, hcodes, hds, rfl⟩ := exists_of_convert writes_putCode16 hy
    obtain ⟨ds', es, hcodes', hes, rfl⟩ := exists_of_convert hw ho
    rw [codes_code16] at hcodes'
    cases hcodes'
    exact ⟨cs, es, hcodes, looksUp_bind_iff.2 ⟨ds, hds, hes⟩, rfl⟩

/-- **The direct conversions agree with the two-step ones**: with room for two bytes of output for
each byte of input, one succeeds with an output exactly when the other one does. -/
theorem direct_iff_two_step (table : List CodeMap) (x o : List UInt8) (size size1 size2 : ℕ)
    (h : 2 * x.length < size) (h1 : 2 * x.length < size1) (h2 : 2 * x.length < size2) :
    (Converts table .gbkUtf8 size x o ↔
      ∃ y, Converts table .gbkUcs2 size1 x y ∧ Converts table .ucs2Utf8 size2 y o) ∧
    (Converts table .utf8Gbk size x o ↔
      ∃ y, Converts table .utf8Ucs2 size1 x y ∧ Converts table .ucs2Gbk size2 y o) := by
  simp only [Converts, lcConv, convCall_of_eq_iff]
  constructor
  · have hroom : ∀ cs ds : List UInt16, code16Reader.codes x = (cs, none) → ds.length = cs.length →
        (ds.flatMap Utf8.encode).length < size ∧ (ds.flatMap Utf8.encode).length < size2 ∧
          2 * cs.length < size1 := by
      intro cs ds hcodes hlen
      have hx : x.length = 2 * cs.length := by
        rw [eq_flatMap_code16 hcodes, length_flatMap_code16]
      have hle := length_flatMap_encode_le ds
      omega
    have hlook : (fun c => (charsetMapInit table).gbkUcs2.lookup c >>= .ok) =
        (charsetMapInit table).gbkUcs2.lookup := by
      funext c
      exact bind_pure _
    have hiff := convert_bind_iff (charsetMapInit table).gbkUcs2.lookup .ok (o := o)
      writes_putUtf8 hroom
    rw [hlook] at hiff
    exact hiff
  · have hroom : ∀ cs ds : List UInt16, utf8Reader.codes x = (cs, none) → ds.length = cs.length →
        (ds.flatMap code16).length < size ∧ (ds.flatMap code16).length < size2 ∧
          2 * cs.length < size1 := by
      intro cs ds hcodes hlen
      have hle := Reader.length_le_of_codes hcodes
      rw [length_flatMap_code16]
      omega
    exact convert_bind_iff .ok (charsetMapInit table).ucs2Gbk.lookup (o := o) writes_putCode16 hroom

/-- A character of three bytes and room for them. -/
theorem direct_iff_two_step_ah :
    2 * ([0xB0, 0xA1] : List UInt8).length < 5 ∧
      (Converts [⟨0xB0A1, 0x554A⟩, ⟨0xFFFF, 0xFFFF⟩] .gbkUtf8 5 [0xB0, 0xA1] [0xE5, 0x95, 0x8A] ↔
        ∃ y, Converts [⟨0xB0A1, 0x554A⟩, ⟨0xFFFF, 0xFFFF⟩] .gbkUcs2 5 [0xB0, 0xA1] y ∧
          Converts [⟨0xB0A1, 0x554A⟩, ⟨0xFFFF, 0xFFFF⟩] .ucs2Utf8 5 y [0xE5, 0x95, 0x8A]) :=
  ⟨by decide, (direct_iff_two_step _ _ _ 5 5 5 (by decide) (by decide) (by decide)).1⟩

end F1Goal
