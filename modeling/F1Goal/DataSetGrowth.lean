import F1Goal.DataSet
import F1Goal.Lib.Lts
import F1Goal.TemplateMeaning

/-!
# Arrays that grow (`f1g_template_add_node`, `data_set_add_int_var`, `data_set_add_str_var`)

The nodes of a template and the keys of a data set stand in arrays whose recorded size is doubled
when they are full. An array of no entries is doubled to no entries, so that the first entry is
written behind it (`arrays_grow_iff`). A slot that growth adds has no place for a value: a formatted
value of one byte gets a place of one byte, which the terminating zero takes, as it takes the last
byte of a value of 128 bytes in a slot from the beginning (`formatted_whole_iff`).
-/

namespace F1Goal

open CString Printf

/-! ### The calls on a data set -/

/-- A call, whatever it returns; there is no next state when it writes outside of the array. -/
def dataSetStep (ds : DataSetObj) (c : AddVar) : Option DataSetObj :=
  (dataSetAddVar ds c).map Prod.snd

/-- The name is one that the calls accept. -/
def AddVar.Named (c : AddVar) : Prop := c.name ≠ [] ∧ c.name.length ≤ maxKeyLen

variable {keySize : ℕ} {ds ds' : DataSetObj}

theorem dataSetExtentCap_keyNum (ds : DataSetObj) (n : ℤ) :
    (dataSetExtentCap ds n).2.keyNum = ds.keyNum := by
  unfold dataSetExtentCap
  split_ifs <;> rfl

theorem dataSetExtentCap_pKeys (ds : DataSetObj) (n : ℤ) {i : ℕ} (hi : i < ds.keyNum) :
    (dataSetExtentCap ds n).2.pKeys i = ds.pKeys i := by
  unfold dataSetExtentCap
  split_ifs
  · rfl
  · exact if_pos hi

theorem dataSetExtentCap_keySize (ds : DataSetObj) {n : ℤ} (hn : 0 ≤ n) :
    (dataSetExtentCap ds n).2.keySize = n.toNat := by
  unfold dataSetExtentCap
  rw [if_neg (not_lt.2 hn)]

theorem DataSetObj.grow_keyNum (ds : DataSetObj) : ds.grow.keyNum = ds.keyNum := by
  unfold grow
  split_ifs
  · exact dataSetExtentCap_keyNum ds _
  · rfl

/-- Growth keeps the entries in use. -/
theorem DataSetObj.grow_pKeys (ds : DataSetObj) {i : ℕ} (hi : i < ds.keyNum) :
    ds.grow.pKeys i = ds.pKeys i := by
  unfold grow
  split_ifs
  · exact dataSetExtentCap_pKeys ds _ hi
  · rfl

theorem DataSetObj.push_pKeys (ds : DataSetObj) (p : KeySlot) :
    (ds.push p).pKeys ds.keyNum = p :=
  Function.update_self _ _ _

theorem DataSetObj.push_keeps (ds : DataSetObj) (p : KeySlot) {i : ℕ} (hi : i < ds.keyNum) :
    (ds.push p).pKeys i = ds.pKeys i :=
  Function.update_of_ne hi.ne _ _

/-- What a call can do: refuse the name, or fill the next slot, which is in the array. -/
theorem dataSetAddVar_cases {c : AddVar} {code : Code} (h : dataSetAddVar ds c = some (code, ds')) :
    (code = .err ∧ ¬c.Named ∧ ds' = ds.grow) ∨
      (code = .ok ∧ c.Named ∧ ds.grow.keyNum < ds.grow.keySize ∧ ∃ p, ds' = ds.grow.push p) := by
  cases c with
  | int varName text =>
    simp only [dataSetAddVar, dataSetAddIntVar] at h
    split_ifs at h with hnil hlong hfull
    · cases h
      exact .inl ⟨rfl, fun hn => hn.1 hnil, rfl⟩
    · cases h
      exact .inl ⟨rfl, fun hn => absurd hn.2 (not_le.2 hlong), rfl⟩
    · refine .inr ?_
      cases text <;> cases h <;>
        exact ⟨rfl, ⟨hnil, not_lt.1 hlong⟩, not_le.1 hfull, _, rfl⟩
  | str varName val =>
    simp only [dataSetAddVar, dataSetAddStrVar] at h
    split_ifs at h with hnil hlong hfull
    · cases h
      exact .inl ⟨rfl, fun hn => hn.1 hnil, rfl⟩
    · cases h
      exact .inl ⟨rfl, fun hn => absurd hn.2 (not_le.2 hlong), rfl⟩
    all_goals
      cases h
      exact .inr ⟨rfl, ⟨hnil, not_lt.1 hlong⟩, not_le.1 hfull, _, rfl⟩

theorem dataSetStep_eq_some {c : AddVar} (h : dataSetStep ds c = some ds') :
    ∃ code, dataSetAddVar ds c = some (code, ds') := by
  obtain ⟨⟨code, _⟩, hadd, rfl⟩ := Option.map_eq_some_iff.1 h
  exact ⟨code, hadd⟩

/-- The entries in use keep their contents. -/
theorem dataSetStep_keeps {c : AddVar} (h : dataSetStep ds c = some ds') {i : ℕ}
    (hi : i < ds.keyNum) : ds'.pKeys i = ds.pKeys i := by
  obtain ⟨code, hadd⟩ := dataSetStep_eq_some h
  rcases dataSetAddVar_cases hadd with ⟨-, -, rfl⟩ | ⟨-, -, -, p, rfl⟩
  · exact ds.grow_pKeys hi
  · rw [← ds.grow_keyNum] at hi
    rw [ds.grow.push_keeps p hi]
    rw [ds.grow_keyNum] at hi
    exact ds.grow_pKeys hi

/-- The array after any calls is that after the calls that return `F1G_OK`. -/
theorem dataSetStep_rep {cs : List AddVar} {c : AddVar} (hrep : ds.Rep keySize cs)
    (h : dataSetStep ds c = some ds') : ∃ cs', ds'.Rep keySize cs' := by
  obtain ⟨code, hadd⟩ := dataSetStep_eq_some h
  rcases dataSetAddVar_cases hadd with ⟨-, -, rfl⟩ | ⟨rfl, -⟩
  · exact ⟨cs, hrep.grow⟩
  · cases c with
    | int varName text => exact ⟨_, dataSetAddIntVar_rep hrep hadd⟩
    | str varName val => exact ⟨_, dataSetAddStrVar_rep hrep hadd⟩

theorem dataSetRun_rep {heap : ℕ → ℤ → UInt8} (hsize : keySize < 2 ^ 31) {calls : List AddVar}
    (hrun : Lts.run dataSetStep (dataSetInit heap keySize) calls = some ds) :
    ∃ cs, ds.Rep keySize cs :=
  Lts.run_invariant (I := fun ds : DataSetObj => ∃ cs, ds.Rep keySize cs)
    (fun _ _ _ hrep hstep => hrep.elim fun _ hrep => dataSetStep_rep hrep hstep)
    ⟨[], dataSetInit_rep heap hsize⟩ hrun

/-! ### Formatted values -/

/-- Slot `i` holds the text whole, with its length, inside of the place of the value. -/
def DataSetObj.StoredWhole (ds : DataSetObj) (i : ℕ) (s : List UInt8) : Prop :=
  (ds.pKeys i).val.valLen = s.length ∧ (ds.pKeys i).val.valLen ≤ (ds.pKeys i).val.valSize ∧
    Mem.slice (ds.pKeys i).val.val 0 s.length = s

/-- The sum for the growth fits an `i32_t`; and a text that fills the place that it is printed to
(128 bytes in a slot from the beginning, and one byte in a slot that growth has added) ends with a
zero of its own. -/
def FormattedFits (keySize i : ℕ) (s : List UInt8) : Prop :=
  s.length + s.length / 2 < 2 ^ 31 ∧
    (s.length = (if i < keySize then 128 else 1) → s.getLast? = some 0)

/-- The sum for the growth, when it leaves the range: it is no size, or one that is too small. -/
theorem i32_growth_of_ge {n : ℕ} (h : 2 ^ 31 ≤ n + n / 2) :
    i32 ((n : ℤ) + (n : ℤ) / 2) < 0 ∨ i32 ((n : ℤ) + (n : ℤ) / 2) < n := by
  have hlt := i32_lt ((n : ℤ) + (n : ℤ) / 2)
  have hmod := i32_emod ((n : ℤ) + (n : ℤ) / 2)
  omega

/-- The place that a text is printed to, when the sum for the growth fits. -/
theorem printSize_of_lt (keySize i : ℕ) {n : ℕ} (h : n + n / 2 < 2 ^ 31) :
    printSize (placeSize keySize i) n =
      if placeSize keySize i < n then (n : ℤ) + (n : ℤ) / 2 else placeSize keySize i := by
  rw [printSize, i32_of_range (by omega) (by omega)]
  have hpos : 0 ≤ (n : ℤ) + (n : ℤ) / 2 := by omega
  simp only [hpos, and_true]

/-- A place that is not long enough for a text stays too short when the sum does not fit. -/
theorem printSize_of_ge (keySize i : ℕ) {n : ℕ} (h : 2 ^ 31 ≤ n + n / 2) :
    printSize (placeSize keySize i) n < n := by
  have hsmall := i32_growth_of_ge h
  have hplace : placeSize keySize i ≤ 128 := by
    unfold placeSize keyValSize
    split_ifs <;> omega
  rw [printSize]
  split_ifs <;> omega

theorem textFits_iff (keySize i : ℕ) (s : List UInt8) :
    TextFits (printSize (placeSize keySize i) s.length) s ↔ FormattedFits keySize i s := by
  have hnil : s = [] ↔ s.length = 0 := List.length_eq_zero_iff.symm
  rw [TextFits, FormattedFits, hnil]
  rcases lt_or_ge (s.length + s.length / 2) (2 ^ 31) with hsum | hsum
  · rw [printSize_of_lt keySize i hsum, placeSize, keyValSize]
    generalize hlast : (s.getLast? = some 0) = last
    by_cases hi : i < keySize <;> simp only [hi, if_true, if_false, hsum, true_and] <;>
      by_cases hzero : last <;> simp only [hzero, and_true, and_false, or_false, implies_true,
        imp_false, iff_true] <;> split_ifs <;> omega
  · have hlt := printSize_of_ge keySize i hsum
    refine iff_of_false ?_ (fun h => absurd h.1 (not_lt.2 hsum))
    omega

theorem storedWhole_iff_bytes {i : ℕ} {s : List UInt8}
    (hlen : (ds.pKeys i).val.valLen = s.length) :
    ds.StoredWhole i s ↔ (ds.pKeys i).val.bytes = some s := by
  rw [DataSetObj.StoredWhole, Value.bytes, hlen, Int.toNat_natCast]
  split_ifs with hle <;> simp [hle]

/-- The call that stores a text records its length. -/
theorem dataSetAddIntVar_valLen {varName s : List UInt8}
    (hadd : dataSetAddIntVar ds varName (some s) = some (.ok, ds')) :
    (ds'.pKeys ds.keyNum).val.valLen = s.length := by
  simp only [dataSetAddIntVar] at hadd
  split_ifs at hadd
  · cases hadd
  · cases hadd
  · cases hadd
    rw [← ds.grow_keyNum, DataSetObj.push_pKeys]
    rfl

/-- What the array holds decides whether the text is there. -/
theorem DataSetObj.Rep.storedWhole_iff {cs : List AddVar} (h : ds.Rep keySize cs)
    {varName s : List UInt8} (hadd : dataSetAddIntVar ds varName (some s) = some (.ok, ds')) :
    ds'.StoredWhole ds.keyNum s ↔ FormattedFits keySize ds.keyNum s := by
  have hslot := (dataSetAddIntVar_rep h hadd).slots cs.length (by simp)
  rw [List.getElem_concat_length rfl, ← h.keyNum] at hslot
  rw [storedWhole_iff_bytes (dataSetAddIntVar_valLen hadd), ← textFits_iff]
  exact hslot.2

/-- **When a formatted variable is stored whole**: after any calls on a data set of any size, a call
that returns `F1G_OK` stores the text with its length exactly when the text fits. -/
theorem formatted_whole_iff {heap : ℕ → ℤ → UInt8} (hsize : keySize < 2 ^ 31) {calls : List AddVar}
    (hrun : Lts.run dataSetStep (dataSetInit heap keySize) calls = some ds) {varName s : List UInt8}
    (hadd : dataSetAddIntVar ds varName (some s) = some (.ok, ds')) :
    ds'.StoredWhole ds.keyNum s ↔ FormattedFits keySize ds.keyNum s :=
  (dataSetRun_rep hsize hrun).elim fun _ hrep => hrep.storedWhole_iff hadd

/-- `b=42` behind `a=1`, in an array of one key. -/
theorem formatted_whole_two :
    ∃ ds ds', Lts.run dataSetStep (dataSetInit (fun _ _ => 0) 1) [.str (ascii "a") (ascii "1")] =
        some ds ∧ dataSetAddIntVar ds (ascii "b") (some (ascii "42")) = some (.ok, ds') ∧
      (ds'.StoredWhole ds.keyNum (ascii "42") ↔ FormattedFits 1 ds.keyNum (ascii "42")) := by
  have hcode : ((Lts.run dataSetStep (dataSetInit (fun _ _ => 0) 1)
      [.str (ascii "a") (ascii "1")]).bind fun ds =>
        (dataSetAddIntVar ds (ascii "b") (some (ascii "42"))).map Prod.fst) = some .ok := by decide
  obtain ⟨ds, hrun, hcode⟩ := Option.bind_eq_some_iff.1 hcode
  obtain ⟨⟨_, ds'⟩, hadd, rfl⟩ := Option.map_eq_some_iff.1 hcode
  exact ⟨ds, ds', hrun, hadd, formatted_whole_iff (by decide) hrun hadd⟩

/-- `b=4` behind `a=1`, in an array of one key: the place of one byte holds the terminating zero. -/
theorem formatted_digit_lost :
    ∃ ds ds', Lts.run dataSetStep (dataSetInit (fun _ _ => 0) 1) [.str (ascii "a") (ascii "1")] =
        some ds ∧ dataSetAddIntVar ds (ascii "b") (some (ascii "4")) = some (.ok, ds') ∧
      ds.keyNum = 1 ∧ ¬ds'.StoredWhole 1 (ascii "4") := by
  have hcode : ((Lts.run dataSetStep (dataSetInit (fun _ _ => 0) 1)
      [.str (ascii "a") (ascii "1")]).bind fun ds =>
        (dataSetAddIntVar ds (ascii "b") (some (ascii "4"))).map fun r => (r.1, ds.keyNum)) =
          some (.ok, 1) := by decide
  obtain ⟨ds, hrun, hcode⟩ := Option.bind_eq_some_iff.1 hcode
  obtain ⟨⟨code, ds'⟩, hadd, heq⟩ := Option.map_eq_some_iff.1 hcode
  obtain ⟨rfl, hnum⟩ := Prod.mk.inj heq
  refine ⟨ds, ds', hrun, hadd, hnum, ?_⟩
  obtain ⟨cs, hrep⟩ := dataSetRun_rep (by decide) hrun
  have hiff := hrep.storedWhole_iff hadd
  rw [hnum] at hiff
  rw [hiff]
  exact fun hfits => absurd (hfits.2 (by decide)) (by decide)

/-! ### Entries -/

/-- An entry is written inside of the array, and the entries from before keep their contents. -/
def DataSetObj.EntryInside (ds : DataSetObj) (c : AddVar) : Prop :=
  (c.Named → ds.grow.keyNum < ds.grow.keySize) ∧
    ∀ ds', dataSetStep ds c = some ds' → ∀ i < ds.keyNum, ds'.pKeys i = ds.pKeys i

/-- The allocation of a longer array succeeds: its size has not left the range of an `i32_t`. -/
def DataSetObj.KeysAllocated (ds : DataSetObj) (_ : AddVar) : Prop :=
  ds.keySize ≤ ds.keyNum → 0 ≤ i32 (ds.keySize * 2)

instance (ds : DataSetObj) (c : AddVar) : Decidable (ds.KeysAllocated c) :=
  inferInstanceAs (Decidable (ds.keySize ≤ ds.keyNum → 0 ≤ i32 (ds.keySize * 2)))

theorem DataSetObj.grow_keySize {c : AddVar} (hsize : ds.keySize < 2 ^ 31)
    (halloc : ds.KeysAllocated c) :
    ds.grow.keySize = if ds.keySize ≤ ds.keyNum then ds.keySize * 2 else ds.keySize := by
  unfold grow
  split_ifs with hfull
  · rw [dataSetExtentCap_keySize ds (halloc hfull), i32_double hsize (halloc hfull)]
    omega
  · rfl

theorem DataSetObj.grow_keySize_lt (hsize : ds.keySize < 2 ^ 31) : ds.grow.keySize < 2 ^ 31 := by
  have hlt := i32_lt (ds.keySize * 2)
  unfold grow dataSetExtentCap
  split_ifs
  · exact hsize
  · dsimp only
    omega
  · exact hsize

/-- An array that has places, and holds no more entries than these. -/
structure DataSetObj.HasPlaces (ds : DataSetObj) : Prop where
  size_pos : 1 ≤ ds.keySize
  size_lt : ds.keySize < 2 ^ 31
  num_le : ds.keyNum ≤ ds.keySize

theorem DataSetObj.HasPlaces.grow {c : AddVar} (h : ds.HasPlaces) (halloc : ds.KeysAllocated c) :
    ds.grow.HasPlaces ∧ ds.grow.keyNum < ds.grow.keySize := by
  have hpos := h.size_pos
  have hnum := h.num_le
  have hgrown := DataSetObj.grow_keySize h.size_lt halloc
  have hlt : ds.grow.keyNum < ds.grow.keySize := by
    rw [ds.grow_keyNum]
    split_ifs at hgrown <;> omega
  exact ⟨⟨by omega, DataSetObj.grow_keySize_lt h.size_lt, hlt.le⟩, hlt⟩

theorem DataSetObj.HasPlaces.step {c : AddVar} (h : ds.HasPlaces) (halloc : ds.KeysAllocated c)
    (hstep : dataSetStep ds c = some ds') : ds'.HasPlaces := by
  obtain ⟨hgrown, hlt⟩ := h.grow halloc
  obtain ⟨code, hadd⟩ := dataSetStep_eq_some hstep
  rcases dataSetAddVar_cases hadd with ⟨-, -, rfl⟩ | ⟨-, -, -, p, rfl⟩
  · exact hgrown
  · exact ⟨hgrown.size_pos, hgrown.size_lt, hlt⟩

/-- An array without places: growth gives it none, and the first entry is written behind it. -/
def DataSetObj.NoPlaces (ds : DataSetObj) : Prop := ds.keyNum = 0 ∧ ds.keySize = 0

theorem DataSetObj.NoPlaces.grow (h : ds.NoPlaces) : ds.grow.NoPlaces := by
  refine ⟨ds.grow_keyNum.trans h.1, ?_⟩
  have halloc : ds.KeysAllocated (.int [] none) := fun _ => by
    rw [h.2]
    decide
  rw [DataSetObj.grow_keySize (by rw [h.2]; norm_num) halloc, h.2]
  simp

/-- The two tests of the name. -/
theorem refused_of_not_named {α : Type} (varName : List UInt8)
    (h : ¬(varName ≠ [] ∧ varName.length ≤ maxKeyLen)) (x y : α) :
    (if varName = [] then x else if maxKeyLen < varName.length then x else y) = x := by
  split_ifs with hnil hlong
  · rfl
  · rfl
  · exact absurd ⟨hnil, not_lt.1 hlong⟩ h

/-- A call with a bad name is refused. -/
theorem dataSetStep_of_not_named {c : AddVar} (h : ¬c.Named) : dataSetStep ds c = some ds.grow := by
  cases c with
  | int varName text =>
    rw [dataSetStep, dataSetAddVar, dataSetAddIntVar, refused_of_not_named varName h]
    rfl
  | str varName val =>
    rw [dataSetStep, dataSetAddVar, dataSetAddStrVar, refused_of_not_named varName h]
    rfl

theorem DataSetObj.NoPlaces.meets_iff (h : ds.NoPlaces) (calls : List AddVar) :
    Lts.Meets dataSetStep DataSetObj.EntryInside ds calls ↔ ∀ c ∈ calls, ¬c.Named := by
  induction calls generalizing ds with
  | nil => simp [Lts.Meets]
  | cons c calls ih =>
    have hfirst : ds.EntryInside c ↔ ¬c.Named := by
      constructor
      · intro hin hnamed
        have hlt := hin.1 hnamed
        rw [h.grow.1, h.grow.2] at hlt
        exact lt_irrefl _ hlt
      · exact fun hnot =>
          ⟨fun hnamed => absurd hnamed hnot, fun _ hstep _ => dataSetStep_keeps hstep⟩
    rw [Lts.meets_cons, hfirst, List.forall_mem_cons]
    refine and_congr_right fun hnot => ?_
    rw [dataSetStep_of_not_named hnot]
    simp [ih h.grow]

/-- A node is written inside of the array, and the nodes from before keep their contents. -/
def Template.EntryInside (tpl : Template) (node : NodeInfo) : Prop :=
  (tpl.addNode node).isSome ∧
    ∀ tpl', tpl.addNode node = some tpl' → ∀ i < tpl.nodeNum, tpl'.nodes i = tpl.nodes i

theorem Template.inUse_getElem {tpl : Template} {i : ℕ} (hi : i < tpl.nodeNum) :
    tpl.inUse[i]? = some (tpl.nodes i) := by
  simp [Template.inUse, hi]

/-- The nodes in use keep their contents. -/
theorem Template.addNode_keeps {tpl tpl' : Template} {node : NodeInfo}
    (h : tpl.addNode node = some tpl') {i : ℕ} (hi : i < tpl.nodeNum) :
    tpl'.nodes i = tpl.nodes i := by
  obtain ⟨happend, -, hnum, -⟩ := Template.addNode_eq_some h
  have hcell : tpl'.inUse[i]? = tpl.inUse[i]? := by
    rw [happend, List.getElem?_append_left (by simpa [Template.inUse] using hi)]
  rw [Template.inUse_getElem (by omega), Template.inUse_getElem hi] at hcell
  exact Option.some.inj hcell

/-- An array of nodes that has places, and holds no more nodes than these. -/
structure Template.HasPlaces (tpl : Template) : Prop where
  size_pos : 1 ≤ tpl.nodeSize
  num_le : tpl.nodeNum ≤ tpl.nodeSize

theorem Template.HasPlaces.entryInside {tpl : Template} (h : tpl.HasPlaces) (node : NodeInfo) :
    tpl.EntryInside node := by
  have hpos := h.size_pos
  have hnum := h.num_le
  exact ⟨Template.addNode_isSome.2 (by omega), fun _ hadd _ => Template.addNode_keeps hadd⟩

theorem Template.HasPlaces.addNode {tpl tpl' : Template} {node : NodeInfo} (h : tpl.HasPlaces)
    (hadd : tpl.addNode node = some tpl') : tpl'.HasPlaces := by
  obtain ⟨-, -, -, hnum, hsize⟩ := Template.addNode_eq_some hadd
  have hpos := h.size_pos
  exact ⟨by split_ifs at hsize <;> omega, hnum⟩

/-- Whether nodes can be added one after the other depends on the first array only. -/
theorem Template.meets_iff {tpl : Template} (hnum : tpl.nodeNum ≤ tpl.nodeSize)
    (nodes : List NodeInfo) :
    Lts.Meets Template.addNode Template.EntryInside tpl nodes ↔ 1 ≤ tpl.nodeSize ∨ nodes = [] := by
  constructor
  · intro h
    cases nodes with
    | nil => exact .inr rfl
    | cons node nodes =>
      have hplace := Template.addNode_isSome.1 h.1.1
      exact .inl (by omega)
  · rintro (hpos | rfl)
    · exact Lts.meets_of_invariant (fun _ node h => Template.HasPlaces.entryInside h node)
        (fun _ _ _ h hadd => h.addNode hadd) ⟨hpos, hnum⟩ nodes
    · trivial

/-- **When arrays hold what is added**: for an initial size of at least one entry; otherwise as long
as no entry is added. -/
theorem arrays_grow_iff (n : ℕ) (hn : n < 2 ^ 31) :
    (∀ nodes, Lts.Meets Template.addNode Template.EntryInside (f1gTemplateInit n) nodes ↔
      1 ≤ n ∨ nodes = []) ∧
    ∀ (heap : ℕ → ℤ → UInt8) (calls : List AddVar),
      Lts.Meets dataSetStep DataSetObj.KeysAllocated (dataSetInit heap n) calls →
        (Lts.Meets dataSetStep DataSetObj.EntryInside (dataSetInit heap n) calls ↔
          1 ≤ n ∨ ∀ c ∈ calls, ¬c.Named) := by
  refine ⟨fun nodes => Template.meets_iff (Nat.zero_le _) nodes, fun heap calls halloc => ?_⟩
  rcases Nat.eq_zero_or_pos n with rfl | hpos
  · have hno : (dataSetInit heap 0).NoPlaces := ⟨rfl, rfl⟩
    rw [hno.meets_iff]
    simp
  · refine iff_of_true ?_ (.inl hpos)
    have hplaces : (dataSetInit heap n).HasPlaces := ⟨hpos, hn, Nat.zero_le _⟩
    refine halloc.consequence (fun ds c h ha => ?_) (fun ds c ds' h ha hstep => h.step ha hstep)
      hplaces
    exact ⟨fun _ => (h.grow ha).2, fun _ hstep _ => dataSetStep_keeps hstep⟩

/-- Two nodes and two variables in arrays of one entry. -/
theorem arrays_grow_iff_one :
    (Lts.Meets Template.addNode Template.EntryInside (f1gTemplateInit (1 : ℕ))
        [.var (ascii "a"), .var (ascii "b")] ↔
          1 ≤ 1 ∨ [NodeInfo.var (ascii "a"), .var (ascii "b")] = []) ∧
      (Lts.Meets dataSetStep DataSetObj.EntryInside (dataSetInit (fun _ _ => 0) 1)
          [.str (ascii "a") (ascii "1"), .int (ascii "b") (some (ascii "42"))] ↔
        1 ≤ 1 ∨ ∀ c ∈ [.str (ascii "a") (ascii "1"), .int (ascii "b") (some (ascii "42"))],
          ¬AddVar.Named c) := by
  obtain ⟨hnodes, hkeys⟩ := arrays_grow_iff 1 (by norm_num)
  exact ⟨hnodes _, hkeys _ _ (by decide)⟩

/-- The first entry of an array of no entries. -/
theorem first_entry_outside :
    ¬Lts.Meets Template.addNode Template.EntryInside (f1gTemplateInit 0) [.var (ascii "a")] ∧
      ¬Lts.Meets dataSetStep DataSetObj.EntryInside (dataSetInit (fun _ _ => 0) 0)
        [.str (ascii "a") (ascii "1")] := by
  constructor
  · rw [Template.meets_iff (Nat.zero_le _)]
    simp [f1gTemplateInit]
  · have hno : (dataSetInit (fun _ _ => 0) 0).NoPlaces := ⟨rfl, rfl⟩
    rw [hno.meets_iff]
    exact fun h => h _ List.mem_cons_self ⟨by decide, by decide⟩

end F1Goal
