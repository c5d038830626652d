import F1Goal.SmartConfBlocks

/-!
# Growing the arrays of a configuration

`specLine` is what a line means, on a list of sections: no sizes, no slots. `IniRel` ties the state
of `ini_read` to that list, and `readLine_spec` says that a line is entered as it should be as long
as no growth of the section array loses anything.

`extend_item_size` copies the items in use. `extend_sec_size` copies `sec_num` sections, but
`sec_num` is 0 until the file has been read, so it copies none; `capacity_hint_iff` says when this
does no harm.
-/

namespace F1Goal

open CString

/-! ### What a line means -/

/-- A line `[…`. -/
def specSection (line : List UInt8) (secs : List Section) : IniRes × List Section :=
  let name := line.takeWhile (· ≠ 93)
  if nameSize ≤ name.length ∨ name.length = line.length then (.err, secs)
  else if secs.any fun s => strcasecmp name s.1 then (.err, secs)
  else (.next, secs ++ [(name, [])])

/-- A line with an item, which belongs to the last section. -/
def specItem (line : List UInt8) (secs : List Section) : IniRes × List Section :=
  match secs.getLast? with
  | none => (.fault, secs)
  | some s =>
    let name := line.takeWhile fun c => c ≠ 32 ∧ c ≠ 61
    if nameSize ≤ name.length ∨ name.length = line.length then (.err, secs)
    else if s.2.any fun item => strcasecmp name item.itemName then (.err, secs)
    else
      match itemOf name line with
      | (.next, item) => (.next, secs.dropLast ++ [(s.1, s.2 ++ [item])])
      | (r, _) => (r, secs)

/-- A line, without what ends it. -/
def specLine (line : List UInt8) (secs : List Section) : IniRes × List Section :=
  match skipSpaces (cstr line) with
  | [] => (.next, secs)
  | c :: rest =>
    if c = 35 then (.next, secs)
    else if c = 91 then specSection rest secs
    else specItem (c :: rest) secs

/-- The lines of a file, up to the first that is refused. -/
def specLines : List (List UInt8) → List Section → IniRes × List Section
  | [], secs => (.next, secs)
  | line :: ls, secs =>
    match specLine line secs with
    | (.next, secs) => specLines ls secs
    | (r, secs) => (r, secs)

/-- The line opens a section. -/
def IsHeader (line : List UInt8) : Prop := (skipSpaces (cstr line)).head? = some 91

instance (line : List UInt8) : Decidable (IsHeader line) := inferInstanceAs (Decidable (_ = _))

/-- The array of `secSize` sections takes one more, or loses nothing by growing: the only section is
one without a name and without items. -/
def Fits (secSize : ℕ) (secs : List Section) : Prop :=
  secs.length < secSize ∨ (secSize = 1 ∧ secs = [([], [])])

instance (secSize : ℕ) (secs : List Section) : Decidable (Fits secSize secs) :=
  inferInstanceAs (Decidable (_ ∨ _))

/-- Every line that opens a section, up to the first line that is refused, finds room for it. -/
def HeadersFit (secSize : ℕ) : List (List UInt8) → List Section → Prop
  | [], _ => True
  | line :: ls, secs =>
    (IsHeader line → Fits secSize secs) ∧
      ((specLine line secs).1 = .next → HeadersFit secSize ls (specLine line secs).2)

instance decidableHeadersFit (secSize : ℕ) :
    ∀ (ls : List (List UInt8)) (secs : List Section), Decidable (HeadersFit secSize ls secs)
  | [], _ => .isTrue trivial
  | line :: ls, secs =>
    have := decidableHeadersFit secSize ls (specLine line secs).2
    inferInstanceAs (Decidable (_ ∧ (_ → _)))

/-- What a configuration reads as. -/
def findIn (secs : List Section) (sec itemName : List UInt8) : Option Item :=
  secs.foldl (fun found s =>
    if strcasecmp s.1 sec then
      (s.2.find? fun item => strcasecmp item.itemName itemName).or found
    else found) none

/-- No two sections have the same name, the case ignored. -/
def NamesDiffer (secs : List Section) : Prop := secs.Pairwise fun a b => fold a.1 ≠ fold b.1

/-- The file reads with these sizes of the arrays as with any that are large enough for all of it:
the same code and the same items; no growth loses or renames an entry, and the names of the sections
stay different. -/
def CapacityHint (content : List UInt8) (secSize itemSize : ℤ) : Prop :=
  ∀ largeSec largeItem : ℤ, content.length < largeSec → content.length < largeItem →
    ∃ r R, iniReadWhole (smartConfInit secSize itemSize) content = some r ∧
      iniReadWhole (smartConfInit largeSec largeItem) content = some R ∧ r.res = R.res ∧
      (∀ sec item, findItem r.st.conf sec item = findItem R.st.conf sec item) ∧
      r.st.kept = true ∧ NamesDiffer (r.st.conf.live r.st.conf.secNum)

/-! ### The entries in use -/

@[simp] theorem length_live (c : SmartConf) (k : ℕ) : (c.live k).length = k := by
  simp [SmartConf.live]

theorem live_succ (c : SmartConf) (k : ℕ) : c.live (k + 1) = c.live k ++ [(c.secs k).live] := by
  simp [SmartConf.live, List.range_succ]

theorem live_congr {c c' : SmartConf} {k : ℕ} (h : ∀ i < k, (c'.secs i).live = (c.secs i).live) :
    c'.live k = c.live k :=
  List.map_congr_left fun i hi => h i (List.mem_range.1 hi)

/-- Writing an entry that is not in use. -/
theorem live_setSec (st : IniState) {k i : ℕ} (s : Sec) (h : k ≤ i) :
    (st.setSec i s).conf.live k = st.conf.live k := by
  refine live_congr fun j hj => ?_
  simp [IniState.setSec, show j ≠ i by omega]

theorem setSec_secs_self (st : IniState) (k : ℕ) (s : Sec) : (st.setSec k s).conf.secs k = s := by
  simp [IniState.setSec]

/-- Growing the item array keeps the items in use. -/
theorem extendItemSize_live (s : Sec) (ext : ℕ) : (extendItemSize s ext).live = s.live := by
  simp only [extendItemSize, Sec.live, Prod.mk.injEq, true_and]
  exact List.map_congr_left fun j hj => if_pos (List.mem_range.1 hj)

/-- Growing the section array while `sec_num` is 0 keeps none. -/
theorem extendSecSize_live {c : SmartConf} (h : c.secNum = 0) (ext k : ℕ) :
    (extendSecSize c ext).live k = List.replicate k ([], []) := by
  rw [List.eq_replicate_iff]
  refine ⟨length_live _ _, fun s hs => ?_⟩
  obtain ⟨i, -, rfl⟩ := List.mem_map.1 hs
  simp [extendSecSize, h, Sec.live, zeroSec]

/-- `find_item` looks only at the entries in use. -/
theorem findItem_eq (c : SmartConf) (sec itemName : List UInt8) :
    findItem c sec itemName = findIn (c.live c.secNum) sec itemName := by
  unfold findItem findIn SmartConf.live
  rw [List.foldl_map]
  congr 1
  funext found i
  simp only [Sec.live, List.find?_map]
  split_ifs
  · change _ = (((List.range (c.secs i).itemNum).find? fun j =>
      strcasecmp ((c.secs i).items j).itemName itemName).map (c.secs i).items).or found
    cases (List.range (c.secs i).itemNum).find? fun j =>
      strcasecmp ((c.secs i).items j).itemName itemName <;> rfl
  · rfl

/-! ### The state of `ini_read` and the sections read -/

/-- The arrays show the sections read so far, and nothing has been lost. -/
structure IniRel (st : IniState) (secs : List Section) : Prop where
  secNum : st.conf.secNum = 0
  seq : st.secSeq = secs.length
  live : st.conf.live secs.length = secs
  nosec : secs = [] → st.curSec = none
  cur : ∀ pre s, secs = pre ++ [s] → st.curSec = some pre.length ∧ st.itemSeq = s.2.length
  fresh : ∀ i, secs.length ≤ i → (st.conf.secs i).itemNum = 0
  kept : st.kept = true
  names : NamesDiffer secs

/-- The section array has `size` slots, of which `len` are in use: it has not grown from the
`secSize` slots it began with, or it has grown once from a single slot. -/
def Room (secSize size len : ℕ) : Prop :=
  (size = secSize ∧ len ≤ secSize) ∨ (secSize = 1 ∧ size = 2 ∧ len = 2)

variable {st : IniState} {secs : List Section} {secSize : ℕ}

/-- A header that fits leaves room for its section. -/
theorem growSecs_fits (h : IniRel st secs) (hroom : Room secSize st.conf.secSize secs.length)
    (hfit : Fits secSize secs) :
    IniRel st.growSecs secs ∧ Room secSize st.growSecs.conf.secSize (secs.length + 1) := by
  unfold IniState.growSecs
  split_ifs with hfull
  · rw [h.seq] at hfull
    obtain ⟨rfl, hsecs⟩ : secSize = 1 ∧ secs = [([], [])] := by
      rcases hfit with hlt | hone
      · unfold Room at hroom
        omega
      · exact hone
    have hlen : secs.length = 1 := by rw [hsecs]; rfl
    have hsize : st.conf.secSize = 1 := by
      unfold Room at hroom
      omega
    have hlive : (extendSecSize st.conf (st.conf.secSize * 2)).live secs.length = secs := by
      rw [extendSecSize_live h.secNum, hsecs]
      rfl
    refine ⟨{ h with live := hlive, fresh := fun i _ => ?_, kept := ?_ }, ?_⟩
    · simp [extendSecSize, h.secNum, zeroSec]
    · simp [h.kept, h.seq, hlive, h.live]
    · simp [extendSecSize, hsize, hlen, Room]
  · rw [h.seq] at hfull
    refine ⟨h, ?_⟩
    unfold Room at hroom ⊢
    omega

/-- A header that does not fit loses the sections read. -/
theorem growSecs_lost (h : IniRel st secs) (hroom : Room secSize st.conf.secSize secs.length)
    (hpos : 1 ≤ secSize) (hfit : ¬ Fits secSize secs) : st.growSecs.kept = false := by
  rw [Fits, not_or, not_lt] at hfit
  unfold IniState.growSecs
  have hfull : st.conf.secSize ≤ st.secSeq := by
    rw [h.seq]
    unfold Room at hroom
    omega
  rw [if_pos hfull]
  simp only [h.kept, Bool.true_and, decide_eq_false_iff_not, h.seq, extendSecSize_live h.secNum,
    h.live]
  intro heq
  -- two sections without a name would have the same one
  have hone : secs.length = 1 := by
    by_contra hne
    obtain ⟨k, hk⟩ : ∃ k, secs.length = k + 2 := ⟨secs.length - 2, by omega⟩
    have hnames := h.names
    rw [← heq, hk, List.replicate_succ, List.replicate_succ, NamesDiffer, List.pairwise_cons]
      at hnames
    exact hnames.1 ([], []) List.mem_cons_self rfl
  refine hfit.2 ⟨by omega, ?_⟩
  rw [← heq, hone]
  rfl

theorem growSecs_kept (st : IniState) (h : st.growSecs.kept = true) : st.kept = true := by
  unfold IniState.growSecs at h
  split_ifs at h
  · exact (Bool.and_eq_true_iff.1 h).1
  · exact h

/-- The check for a second section of the same name, after the name has been stored. -/
theorem IniRel.sameSec (h : IniRel st secs) (name : List UInt8) (s : Sec) :
    (st.setSec st.secSeq s).sameSec name = secs.any fun s => strcasecmp name s.1 := by
  have hlive : (st.setSec st.secSeq s).conf.live secs.length = secs := by
    rw [live_setSec _ s h.seq.ge, h.live]
  conv_rhs => rw [← hlive]
  rw [SmartConf.live, List.any_map, ← h.seq]
  rfl

/-- Entering a section when there is a slot for it. -/
theorem IniRel.addSection (h : IniRel st secs) {name : List UInt8}
    (hname : (secs.any fun s => strcasecmp name s.1) = false) :
    IniRel { st.setSec st.secSeq { st.conf.secs st.secSeq with secName := name } with
      secSeq := st.secSeq + 1, itemSeq := 0, curSec := some st.secSeq } (secs ++ [(name, [])]) := by
  have hslot : (Sec.live { st.conf.secs st.secSeq with secName := name }) = (name, []) := by
    simp [Sec.live, h.fresh st.secSeq h.seq.ge]
  refine
    { secNum := h.secNum
      seq := by rw [List.length_append, List.length_singleton, ← h.seq]
      live := ?_
      nosec := fun hnil => absurd hnil (by simp)
      cur := fun pre s hpre => ?_
      fresh := fun i hi => ?_
      kept := h.kept
      names := ?_ }
  · rw [List.length_append, List.length_singleton, live_succ, ← h.seq]
    have hlive := live_setSec st { st.conf.secs st.secSeq with secName := name }
      (le_refl st.secSeq)
    rw [← h.live, ← h.seq]
    change SmartConf.live (st.setSec st.secSeq _).conf st.secSeq ++ _ = _
    rw [hlive]
    change _ ++ [((st.setSec st.secSeq _).conf.secs st.secSeq).live] = _
    rw [setSec_secs_self, hslot]
  · obtain ⟨rfl, hs⟩ := List.append_inj' hpre rfl
    cases hs
    exact ⟨congrArg some h.seq, rfl⟩
  · rw [List.length_append, List.length_singleton] at hi
    have hne : i ≠ st.secSeq := by
      rw [h.seq]
      omega
    simpa [IniState.setSec, hne] using h.fresh i (by omega)
  · rw [NamesDiffer, List.pairwise_append]
    refine ⟨h.names, List.pairwise_singleton _ _, fun a ha b hb heq => ?_⟩
    obtain rfl := List.mem_singleton.1 hb
    rw [List.any_eq_false] at hname
    exact hname a ha ((strcasecmp_iff _ _).2 heq.symm)

theorem readSection_kept (line : List UInt8) (st : IniState) :
    (readSection line st).2.kept = st.growSecs.kept := by
  unfold readSection
  dsimp only
  split_ifs <;> rfl

theorem readSection_spec (h : IniRel st secs) (hroom : Room secSize st.conf.secSize secs.length)
    (hfit : Fits secSize secs) (line : List UInt8) :
    (readSection line st).1 = (specSection line secs).1 ∧
      ((specSection line secs).1 = .next → IniRel (readSection line st).2 (specSection line secs).2 ∧
        Room secSize (readSection line st).2.conf.secSize (specSection line secs).2.length) := by
  obtain ⟨hrel, hroom'⟩ := growSecs_fits h hroom hfit
  have hdup := hrel.sameSec (line.takeWhile (· ≠ 93))
    { st.growSecs.conf.secs st.growSecs.secSeq with secName := line.takeWhile (· ≠ 93) }
  unfold readSection specSection
  dsimp only
  rw [hdup]
  split_ifs with hname hsame
  · exact ⟨rfl, fun hn => by cases hn⟩
  · exact ⟨rfl, fun hn => by cases hn⟩
  · refine ⟨rfl, fun _ => ⟨hrel.addSection (Bool.eq_false_iff.2 hsame), ?_⟩⟩
    rw [List.length_append, List.length_singleton]
    exact hroom'

/-! ### Items -/

variable {pre : List Section} {s s' : Section}

/-- The entry of the last section. -/
theorem IniRel.last (h : IniRel st (pre ++ [s])) : (st.conf.secs pre.length).live = s := by
  have hlive := h.live
  rw [List.length_append, List.length_singleton, live_succ] at hlive
  exact List.singleton_inj.1 (List.append_inj' hlive rfl).2

theorem IniRel.last_num (h : IniRel st (pre ++ [s])) :
    (st.conf.secs pre.length).itemNum = s.2.length := by
  rw [← h.last]
  simp [Sec.live]

/-- Rewriting the entry of the last section. -/
theorem IniRel.setLast (h : IniRel st (pre ++ [s])) (sec : Sec) (hsec : sec.live = s')
    (hname : s'.1 = s.1) :
    IniRel { st.setSec pre.length sec with itemSeq := s'.2.length } (pre ++ [s']) where
  secNum := h.secNum
  seq := by
    have hseq := h.seq
    simpa [IniState.setSec] using hseq
  live := by
    have hlive := h.live
    rw [List.length_append, List.length_singleton, live_succ] at hlive
    have hpre : st.conf.live pre.length = pre := (List.append_inj' hlive rfl).1
    rw [List.length_append, List.length_singleton, live_succ]
    change (st.setSec pre.length sec).conf.live pre.length ++
      [((st.setSec pre.length sec).conf.secs pre.length).live] = _
    rw [live_setSec _ sec le_rfl, setSec_secs_self, hpre, hsec]
  nosec hnil := absurd hnil (by simp)
  cur pre' t ht := by
    obtain ⟨rfl, hs⟩ := List.append_inj' ht rfl
    cases hs
    exact ⟨(h.cur pre s rfl).1, rfl⟩
  fresh i hi := by
    rw [List.length_append, List.length_singleton] at hi
    have hne : i ≠ pre.length := by omega
    simpa [IniState.setSec, hne] using h.fresh i (by simpa using hi)
  kept := h.kept
  names := by
    have hnames := h.names
    rw [NamesDiffer, List.pairwise_append] at hnames ⊢
    refine ⟨hnames.1, List.pairwise_singleton _ _, fun a ha b hb => ?_⟩
    obtain rfl := List.mem_singleton.1 hb
    rw [hname]
    exact hnames.2.2 a ha s (List.mem_singleton_self s)

/-- Growing the item array loses nothing. -/
theorem IniRel.growItems (h : IniRel st (pre ++ [s])) :
    IniRel (st.growItems pre.length) (pre ++ [s]) := by
  unfold IniState.growItems
  dsimp only
  split_ifs
  · have hgrown := h.setLast (extendItemSize (st.conf.secs pre.length)
      ((st.conf.secs pre.length).itemSize * 2)) ((extendItemSize_live _ _).trans h.last) rfl
    exact { hgrown with
      cur := h.cur
      kept := by simp [h.kept, extendItemSize_live] }
  · exact h

/-- The check for a second item of the same name. -/
theorem Sec.sameItem_live (sec : Sec) (name : List UInt8) :
    sec.sameItem sec.itemNum name = sec.live.2.any fun item => strcasecmp name item.itemName := by
  rw [Sec.sameItem, Sec.live, List.any_map]
  rfl

/-- An item more in a section. -/
theorem Sec.live_addItem (sec : Sec) (item : Item) :
    Sec.live { sec with
      items := Function.update sec.items sec.itemNum item, itemNum := sec.itemNum + 1 } =
        (sec.live.1, sec.live.2 ++ [item]) := by
  simp only [Sec.live, List.range_succ, List.map_append, List.map_singleton, Function.update_self,
    Prod.mk.injEq, true_and, List.append_cancel_right_eq]
  refine List.map_congr_left fun j hj => Function.update_of_ne ?_ _ _
  exact (List.mem_range.1 hj).ne

/-- Growing an item array leaves the entries in use, and the other sections, as they are. -/
theorem growItems_secs (st : IniState) (k i : ℕ) :
    ((st.growItems k).conf.secs i).live = (st.conf.secs i).live ∧
      ((st.growItems k).conf.secs i).itemNum = (st.conf.secs i).itemNum := by
  unfold IniState.growItems
  dsimp only
  split_ifs
  · by_cases hi : i = k
    · subst hi
      rw [setSec_secs_self]
      exact ⟨extendItemSize_live _ _, rfl⟩
    · simp [IniState.setSec, hi]
  · exact ⟨rfl, rfl⟩

theorem growItems_facts (st : IniState) (k : ℕ) :
    (st.growItems k).conf.secNum = st.conf.secNum ∧ (st.growItems k).conf.secSize = st.conf.secSize ∧
      (st.growItems k).kept = st.kept ∧ (st.growItems k).itemSeq = st.itemSeq := by
  unfold IniState.growItems
  dsimp only
  split_ifs
  · simp [IniState.setSec, extendItemSize_live]
  · exact ⟨rfl, rfl, rfl, rfl⟩

theorem readItem_facts (line : List UInt8) (st : IniState) :
    (readItem line st).2.conf.secNum = st.conf.secNum ∧ (readItem line st).2.kept = st.kept ∧
      (readItem line st).2.conf.secSize = st.conf.secSize := by
  unfold readItem
  cases st.curSec with
  | none => exact ⟨rfl, rfl, rfl⟩
  | some k =>
    obtain ⟨hnum, hsize, hkept, -⟩ := growItems_facts st k
    dsimp only
    split_ifs
    · exact ⟨hnum, hkept, hsize⟩
    · exact ⟨hnum, hkept, hsize⟩
    · rcases itemOf _ line with ⟨r, item⟩
      cases r <;> exact ⟨hnum, hkept, hsize⟩

theorem readItem_spec (h : IniRel st secs) (line : List UInt8) :
    (readItem line st).1 = (specItem line secs).1 ∧ ((specItem line secs).1 = .next →
      IniRel (readItem line st).2 (specItem line secs).2 ∧
        (specItem line secs).2.length = secs.length) := by
  rcases List.eq_nil_or_concat' secs with rfl | ⟨pre, s, rfl⟩
  · unfold readItem specItem
    rw [h.nosec rfl]
    exact ⟨rfl, fun hn => by cases hn⟩
  obtain ⟨hcur, hseq⟩ := h.cur pre s rfl
  have hg := h.growItems
  have hgseq : (st.growItems pre.length).itemSeq = s.2.length :=
    (growItems_facts st pre.length).2.2.2.trans hseq
  have hsame := ((st.growItems pre.length).conf.secs pre.length).sameItem_live
    (line.takeWhile fun c => c ≠ 32 ∧ c ≠ 61)
  rw [hg.last, hg.last_num] at hsame
  unfold readItem specItem
  rw [hcur, List.getLast?_concat]
  dsimp only
  simp only [hgseq, IniState.setSec]
  rw [hsame]
  split_ifs
  · exact ⟨rfl, fun hn => by cases hn⟩
  · exact ⟨rfl, fun hn => by cases hn⟩
  · rcases itemOf _ line with ⟨r, item⟩
    cases r with
    | next =>
      refine ⟨rfl, fun _ => ⟨?_, by simp⟩⟩
      have hadded := ((st.growItems pre.length).conf.secs pre.length).live_addItem item
      rw [hg.last, hg.last_num] at hadded
      have hadd := hg.setLast _ hadded rfl
      dsimp only
      rw [Function.update_idem, List.dropLast_concat, hg.last_num]
      simpa only [IniState.setSec, List.length_append, List.length_singleton] using hadd
    | err => exact ⟨rfl, fun hn => by cases hn⟩
    | fault => exact ⟨rfl, fun hn => by cases hn⟩

/-! ### Lines -/

theorem readLine_facts (line : List UInt8) (st : IniState) (h : st.conf.secNum = 0) :
    (readLine line st).2.conf.secNum = 0 ∧
      ((readLine line st).2.kept = true → st.kept = true) := by
  unfold readLine
  split
  · exact ⟨h, id⟩
  · split_ifs
    · exact ⟨h, id⟩
    · refine ⟨(readSection_secNum _ _).trans h, fun hk => growSecs_kept st ?_⟩
      rwa [readSection_kept] at hk
    · obtain ⟨hnum, hkept, -⟩ := readItem_facts _ st
      exact ⟨hnum.trans h, fun hk => hkept.symm.trans hk⟩

/-- **A line is entered as it should be** when a header fits; nothing is lost. -/
theorem readLine_spec (h : IniRel st secs) (hroom : Room secSize st.conf.secSize secs.length)
    {line : List UInt8} (hfit : IsHeader line → Fits secSize secs) :
    (readLine line st).1 = (specLine line secs).1 ∧ (readLine line st).2.kept = true ∧
      ((specLine line secs).1 = .next → IniRel (readLine line st).2 (specLine line secs).2 ∧
        Room secSize (readLine line st).2.conf.secSize (specLine line secs).2.length) := by
  unfold IsHeader at hfit
  unfold readLine specLine
  cases hskip : skipSpaces (cstr line) with
  | nil => exact ⟨rfl, h.kept, fun _ => ⟨h, hroom⟩⟩
  | cons c rest =>
    rw [hskip] at hfit
    dsimp only
    split_ifs with h1 h2
    · exact ⟨rfl, h.kept, fun _ => ⟨h, hroom⟩⟩
    · have hfits := hfit (by rw [h2]; rfl)
      obtain ⟨hres, hnext⟩ := readSection_spec h hroom hfits rest
      refine ⟨hres, ?_, hnext⟩
      rw [readSection_kept]
      exact (growSecs_fits h hroom hfits).1.kept
    · obtain ⟨hres, hnext⟩ := readItem_spec h (c :: rest)
      obtain ⟨-, hkept, hsize⟩ := readItem_facts (c :: rest) st
      refine ⟨hres, hkept.trans h.kept, fun hn => ⟨(hnext hn).1, ?_⟩⟩
      rw [hsize, (hnext hn).2]
      exact hroom

/-- A header that does not fit loses the sections read. -/
theorem readLine_lost (h : IniRel st secs) (hroom : Room secSize st.conf.secSize secs.length)
    (hpos : 1 ≤ secSize) {line : List UInt8} (hhead : IsHeader line) (hfit : ¬ Fits secSize secs) :
    (readLine line st).2.kept = false := by
  obtain ⟨rest, hrest⟩ := List.head?_eq_some_iff.1 hhead
  rw [readLine, hrest]
  dsimp only
  rw [if_neg (by decide), if_pos rfl, readSection_kept]
  exact growSecs_lost h hroom hpos hfit

/-- The lines of a file, up to the first that is refused. -/
def readLines : List (List UInt8) → IniState → IniRes × IniState
  | [], st => (.next, st)
  | line :: ls, st =>
    match readLine line st with
    | (.next, st) => readLines ls st
    | (r, st) => (r, st)

/-- Cutting the whole file into lines. -/
theorem scanLines_eq_readLines (pl : ℕ) (line w : List UInt8) (st : IniState) :
    (scanLines true pl line w st).1 = (readLines (linesFrom line w) st).1 ∧
      (scanLines true pl line w st).2.2 = (readLines (linesFrom line w) st).2 := by
  induction w generalizing pl line st with
  | nil =>
    rw [scanLines, linesFrom]
    by_cases h1 : line = []
    · rw [if_pos h1, if_pos h1]
      exact ⟨rfl, rfl⟩
    · rw [if_neg h1, if_neg h1, if_pos rfl, readLines]
      rcases readLine line st with ⟨r, st'⟩
      cases r <;> exact ⟨rfl, rfl⟩
  | cons c w ih =>
    rw [scanLines, linesFrom]
    split_ifs with hc
    · rw [readLines]
      rcases readLine line st with ⟨r, st'⟩
      cases r with
      | next => exact ih _ _ _
      | err => exact ⟨rfl, rfl⟩
      | fault => exact ⟨rfl, rfl⟩
    · exact ih _ _ _

theorem readLines_facts (ls : List (List UInt8)) (st : IniState) (h : st.conf.secNum = 0) :
    (readLines ls st).2.conf.secNum = 0 ∧ ((readLines ls st).2.kept = true → st.kept = true) := by
  induction ls generalizing st with
  | nil => exact ⟨h, id⟩
  | cons line ls ih =>
    rw [readLines]
    obtain ⟨hnum, hkept⟩ := readLine_facts line st h
    rcases hr : readLine line st with ⟨r, st'⟩
    rw [hr] at hnum hkept
    cases r with
    | next => exact ⟨(ih st' hnum).1, fun hk => hkept ((ih st' hnum).2 hk)⟩
    | err => exact ⟨hnum, hkept⟩
    | fault => exact ⟨hnum, hkept⟩

/-- **The lines of a file are entered as they should be when every header fits**; the induction is
on the lines, and `IniRel` carries it. -/
theorem readLines_spec (ls : List (List UInt8)) (h : IniRel st secs)
    (hroom : Room secSize st.conf.secSize secs.length) (hfit : HeadersFit secSize ls secs) :
    (readLines ls st).1 = (specLines ls secs).1 ∧ (readLines ls st).2.kept = true ∧
      ((specLines ls secs).1 = .next → IniRel (readLines ls st).2 (specLines ls secs).2) := by
  induction ls generalizing st secs with
  | nil => exact ⟨rfl, h.kept, fun _ => h⟩
  | cons line ls ih =>
    obtain ⟨hres, hkept, hnext⟩ := readLine_spec h hroom hfit.1
    have hrest := hfit.2
    rw [readLines, specLines]
    rcases hr : readLine line st with ⟨r, st'⟩
    rcases hq : specLine line secs with ⟨q, secs'⟩
    rw [hr, hq] at hres hnext
    rw [hr] at hkept
    rw [hq] at hrest
    obtain rfl : r = q := hres
    cases r with
    | next => exact ih (hnext rfl).1 (hnext rfl).2 (hrest rfl)
    | err => exact ⟨rfl, hkept, fun hn => by cases hn⟩
    | fault => exact ⟨rfl, hkept, fun hn => by cases hn⟩

/-- When some header does not fit, sections are lost. -/
theorem readLines_lost (ls : List (List UInt8)) (h : IniRel st secs)
    (hroom : Room secSize st.conf.secSize secs.length) (hpos : 1 ≤ secSize)
    (hfit : ¬ HeadersFit secSize ls secs) : (readLines ls st).2.kept = false := by
  induction ls generalizing st secs with
  | nil => exact absurd trivial hfit
  | cons line ls ih =>
    rw [readLines]
    by_cases hline : IsHeader line → Fits secSize secs
    · obtain ⟨hres, -, hnext⟩ := readLine_spec h hroom hline
      rw [HeadersFit, not_and, Classical.not_imp] at hfit
      obtain ⟨hq, hrest⟩ := hfit hline
      rw [hq] at hres
      rcases hr : readLine line st with ⟨r, st'⟩
      rw [hr] at hres hnext
      cases hres
      exact ih (hnext hq).1 (hnext hq).2 hrest
    · rw [Classical.not_imp] at hline
      have hlost := readLine_lost h hroom hpos hline.1 hline.2
      have hnum := (readLine_facts line st h.secNum).1
      rcases hr : readLine line st with ⟨r, st'⟩
      rw [hr] at hlost hnum
      cases r with
      | next =>
        refine Bool.eq_false_iff.2 fun hk => ?_
        rw [(readLines_facts ls st' hnum).2 hk] at hlost
        cases hlost
      | err => exact hlost
      | fault => exact hlost

/-! ### Files -/

theorem iniStart_rel (secSize itemSize : ℤ) :
    IniRel ⟨smartConfInit secSize itemSize, 0, 0, none, true⟩ [] where
  secNum := rfl
  seq := rfl
  live := rfl
  nosec _ := rfl
  cur pre s h := absurd h (by simp)
  fresh _ _ := rfl
  kept := rfl
  names := List.Pairwise.nil

theorem iniStart_room {secSize : ℤ} (itemSize : ℤ) (h : 1 ≤ secSize) :
    Room secSize.toNat (smartConfInit secSize itemSize).secSize ([] : List Section).length := by
  refine .inl ⟨?_, Nat.zero_le _⟩
  simp [smartConfInit, show ¬ secSize ≤ 0 by omega]

theorem scanWhole_eq (conf : SmartConf) (content : List UInt8) :
    scanWhole conf content =
      (readLines (lines content) ⟨conf, 0, 0, none, true⟩).2.done
        (readLines (lines content) ⟨conf, 0, 0, none, true⟩).1 := by
  obtain ⟨h1, h2⟩ := scanLines_eq_readLines content.length [] content ⟨conf, 0, 0, none, true⟩
  rw [lines, ← h1, ← h2]
  rfl

theorem done_kept (st : IniState) (r : IniRes) : (st.done r).st.kept = st.kept := by
  cases r <;> rfl

/-- What a file reads as, when every header fits. -/
theorem scanWhole_fit {secSize : ℤ} (itemSize : ℤ) {content : List UInt8} (h : 1 ≤ secSize)
    (hfit : HeadersFit secSize.toNat (lines content) []) :
    let r := scanWhole (smartConfInit secSize itemSize) content
    let q := specLines (lines content) []
    r.res = q.1 ∧ r.st.kept = true ∧
      r.st.conf.live r.st.conf.secNum = (if q.1 = .next then q.2 else []) ∧
      NamesDiffer (r.st.conf.live r.st.conf.secNum) := by
  dsimp only
  obtain ⟨hres, hkept, hnext⟩ := readLines_spec (lines content) (iniStart_rel secSize itemSize)
    (iniStart_room itemSize h) hfit
  have hnum := (readLines_facts (lines content)
    ⟨smartConfInit secSize itemSize, 0, 0, none, true⟩ rfl).1
  rw [scanWhole_eq, done_res, done_kept]
  refine ⟨hres, hkept, ?_⟩
  rw [hres]
  generalize readLines (lines content) ⟨smartConfInit secSize itemSize, 0, 0, none, true⟩ = r at *
  generalize specLines (lines content) [] = q at *
  rcases q with ⟨res, secs⟩
  cases res with
  | next =>
    rw [if_pos rfl]
    have hrel := hnext rfl
    have hlive : r.2.conf.live r.2.secSeq = secs := by rw [hrel.seq, hrel.live]
    exact ⟨hlive, Eq.mpr (congrArg NamesDiffer hlive) hrel.names⟩
  | err | fault =>
    rw [if_neg (by simp)]
    have hlive : r.2.conf.live r.2.conf.secNum = [] := by
      rw [hnum]
      rfl
    exact ⟨hlive, Eq.mpr (congrArg NamesDiffer hlive) List.Pairwise.nil⟩

theorem specLine_length (line : List UInt8) (secs : List Section) :
    (specLine line secs).2.length ≤ secs.length + 1 := by
  have hsec : ∀ rest, (specSection rest secs).2.length ≤ secs.length + 1 := by
    intro rest
    unfold specSection
    dsimp only
    split_ifs <;> simp
  have hitem : ∀ rest, (specItem rest secs).2.length ≤ secs.length + 1 := by
    intro rest
    unfold specItem
    split
    · simp
    · dsimp only
      split_ifs
      · simp
      · simp
      · split
        · simp only [List.length_append, List.length_dropLast, List.length_singleton]
          omega
        · simp
  unfold specLine
  split
  · simp
  · split_ifs
    · simp
    · exact hsec _
    · exact hitem _

/-- An array with a slot for every line is large enough. -/
theorem headersFit_of_large {secSize : ℕ} (ls : List (List UInt8)) (secs : List Section)
    (h : secs.length + ls.length ≤ secSize) : HeadersFit secSize ls secs := by
  induction ls generalizing secs with
  | nil => trivial
  | cons line ls ih =>
    rw [List.length_cons] at h
    refine ⟨fun _ => .inl (by omega), fun _ => ih _ ?_⟩
    have := specLine_length line secs
    omega

theorem linesFrom_length (line w : List UInt8) :
    (linesFrom line w).length ≤ w.length + if line = [] then 0 else 1 := by
  induction w generalizing line with
  | nil =>
    rw [linesFrom]
    split_ifs <;> simp
  | cons c w ih =>
    rw [linesFrom]
    split_ifs with hc hl hl
    · have := ih []
      rw [if_pos rfl] at this
      simp only [List.length_cons]
      omega
    · have := ih []
      rw [if_pos rfl] at this
      simp only [List.length_cons]
      omega
    · have := ih (line ++ [c])
      rw [if_neg (by simp)] at this
      simp only [List.length_cons]
      omega
    · have := ih (line ++ [c])
      rw [if_neg (by simp)] at this
      simp only [List.length_cons]
      omega

/-- **The capacities are only a hint exactly when the section array need not grow**: every line that
opens a section, up to the first line that is refused, finds a free slot (or grows an array whose
only section has neither name nor items). The size of the item arrays does not matter. -/
theorem capacity_hint_iff (content : List UInt8) (secSize itemSize : ℤ) (hsec : 1 ≤ secSize) :
    CapacityHint content secSize itemSize ↔ HeadersFit secSize.toNat (lines content) [] := by
  constructor
  · intro h
    by_contra hfit
    obtain ⟨r, R, hr, -, -, -, hkept, -⟩ :=
      h (content.length + 1) (content.length + 1) (by omega) (by omega)
    rw [iniReadWhole_eq, Option.some.injEq] at hr
    have hlost := readLines_lost (lines content) (iniStart_rel secSize itemSize)
      (iniStart_room itemSize hsec) (by omega) hfit
    rw [← hr, scanWhole_eq, done_kept, hlost] at hkept
    cases hkept
  · intro hfit largeSec largeItem hlarge _
    obtain ⟨hres, hkept, hlive, hnames⟩ := scanWhole_fit itemSize hsec hfit
    have hlines : (lines content).length ≤ content.length := by
      have := linesFrom_length [] content
      rwa [if_pos rfl] at this
    have hfit' : HeadersFit largeSec.toNat (lines content) [] :=
      headersFit_of_large _ _ (by rw [List.length_nil]; omega)
    obtain ⟨hres', -, hlive', -⟩ := scanWhole_fit largeItem (by omega) hfit'
    refine ⟨_, _, iniReadWhole_eq _ _, iniReadWhole_eq _ _, hres.trans hres'.symm, fun sec item => ?_,
      hkept, hnames⟩
    rw [findItem_eq, findItem_eq, hlive, hlive']

/-- One slot is enough for one section. -/
theorem capacity_hint_iff_one : CapacityHint [91, 97, 93, 10, 120, 61, 49, 10] 1 1 :=
  (capacity_hint_iff _ 1 1 (by decide)).2 (by decide)

/-- `[a]`, `x=1`, `[b]` with one slot for sections: the section `a` is lost. -/
theorem capacity_not_only_hint : ¬ ∀ (content : List UInt8) (secSize itemSize : ℤ),
    1 ≤ secSize → 1 ≤ itemSize → CapacityHint content secSize itemSize := by
  intro h
  obtain ⟨r, R, hr, hR, -, hfind, -⟩ := h [91, 97, 93, 10, 120, 61, 49, 10, 91, 98, 93, 10] 1 4
    (by decide) (by decide) 20 20 (by decide) (by decide)
  have hsmall := congrArg (Option.map fun o => findItem o.st.conf [97] [120]) hr
  have hlarge : _ = some (findItem R.st.conf [97] [120]) :=
    congrArg (Option.map fun o => findItem o.st.conf [97] [120]) hR
  rw [Option.map_some, hfind, ← hlarge] at hsmall
  revert hsmall
  decide

end F1Goal
