import F1Goal.SmartConfSafety

/-!
# What is stored of an item (`ini_read`)

The blanks at the end of a value are stripped by moving back from its end. An empty value has no end
to stop at, so the blanks behind the `=` are counted with a minus sign (`valueLen`).
`itemStored_iff` says which lines of items are stored as they are written.
-/

namespace F1Goal

open CString

/-! ### Lines of items -/

/-- A name, blanks, `=`, blanks, a value, and blanks. -/
def itemLine (name : List UInt8) (before behind : ℕ) (value : List UInt8) (tail : ℕ) :
    List UInt8 :=
  name ++ (List.replicate before 32 ++ 61 :: (List.replicate behind 32 ++
    (value ++ List.replicate tail 32)))

/-- The names that an item can have. -/
structure ItemName (name : List UInt8) : Prop where
  ne_nil : name ≠ []
  length_lt : name.length < nameSize
  clean : ∀ c ∈ name, c ≠ 32 ∧ c ≠ 61 ∧ c ≠ 0 ∧ c ≠ 10
  head : name.head? ≠ some 91 ∧ name.head? ≠ some 35

/-- The values that can be told from the blanks around them. -/
structure ValueText (value : List UInt8) : Prop where
  line : 10 ∉ value
  head : value.head? ≠ some 32
  last : value.getLast? ≠ some 32

/-- The section has an item of this name. -/
def Sec.HasItem (sec : Sec) (name : List UInt8) : Prop :=
  (sec.live.2.any fun item => strcasecmp name item.itemName) = true

/-- Lines have been read up to this state, and none was refused. -/
def ReadUpTo (st : IniState) : Prop :=
  ∃ (secSize itemSize : ℤ) (ls : List (List UInt8)),
    readLines ls (iniStart (smartConfInit secSize itemSize)) = (.next, st)

/-- **The line is stored exactly** as an item of the section `k`: the name, the value and its
length, unless the section has an item of this name. -/
def StoresItem (st : IniState) (k : ℕ) (line name value : List UInt8) : Prop :=
  ¬(st.conf.secs k).HasItem name →
    (readLine line st).1 = .next ∧
      ((readLine line st).2.conf.secs k).live =
        ((st.conf.secs k).live.1, (st.conf.secs k).live.2 ++ [⟨name, value.length, value⟩])

/-! ### The items that are counted -/

/-- `item_seq` counts the items of the current section, and the entries behind the sections read
have none. -/
structure Counted (st : IniState) : Prop where
  cur : ∀ k, st.curSec = some k → k < st.secSeq ∧ (st.conf.secs k).itemNum = st.itemSeq
  fresh : ∀ i, st.secSeq ≤ i → (st.conf.secs i).itemNum = 0

theorem counted_start (secSize itemSize : ℤ) :
    Counted (iniStart (smartConfInit secSize itemSize)) where
  cur _ h := nomatch h
  fresh _ _ := rfl

section Reading

variable {st : IniState}

/-- What a line that opens a section does. -/
theorem readSection_next {line : List UInt8} (h : (readSection line st).1 = .next) :
    (readSection line st).2 =
      { st.growSecs.setSec st.growSecs.secSeq { st.growSecs.conf.secs st.growSecs.secSeq with
          secName := line.takeWhile (· ≠ 93) } with
        secSeq := st.growSecs.secSeq + 1, itemSeq := 0, curSec := some st.growSecs.secSeq } := by
  unfold readSection at h ⊢
  dsimp only at h ⊢
  split_ifs at h ⊢
  rfl

/-- What a line with an item does. -/
theorem readItem_next {line : List UInt8} {k : ℕ} (hcur : st.curSec = some k)
    (h : (readItem line st).1 = .next) :
    ∃ item, itemOf (line.takeWhile fun c => c ≠ 32 ∧ c ≠ 61) line = (.next, item) ∧
      (readItem line st).2 =
        { (st.growItems k).setSec k { (st.growItems k).conf.secs k with
            items := Function.update ((st.growItems k).conf.secs k).items (st.growItems k).itemSeq item
            itemNum := ((st.growItems k).conf.secs k).itemNum + 1 } with
          itemSeq := (st.growItems k).itemSeq + 1 } := by
  unfold readItem at h ⊢
  rw [hcur] at h ⊢
  dsimp only at h ⊢
  generalize st.growItems k = st₁ at h ⊢
  split_ifs at h ⊢
  generalize itemOf (line.takeWhile fun c => c ≠ 32 ∧ c ≠ 61) line = found at h ⊢
  obtain ⟨r, item⟩ := found
  cases r with
  | next =>
    refine ⟨item, rfl, ?_⟩
    simp [IniState.setSec]
  | err => cases h
  | fault => cases h

theorem growSecs_fresh (h : ∀ i, st.secSeq ≤ i → (st.conf.secs i).itemNum = 0) (i : ℕ)
    (hi : st.growSecs.secSeq ≤ i) : (st.growSecs.conf.secs i).itemNum = 0 := by
  unfold IniState.growSecs at hi ⊢
  split_ifs at hi ⊢
  · simp only [extendSecSize]
    split_ifs
    · exact h i hi
    · rfl
  · exact h i hi

/-- A section is opened without items. -/
theorem Counted.readSection (h : Counted st) {line : List UInt8}
    (hnext : (F1Goal.readSection line st).1 = .next) : Counted (F1Goal.readSection line st).2 := by
  have hfresh := growSecs_fresh h.fresh
  rw [readSection_next hnext]
  generalize st.growSecs = st₁ at *
  refine ⟨fun k hk => ?_, fun i hi => ?_⟩
  · cases hk
    refine ⟨Nat.lt_succ_self _, ?_⟩
    change ((st₁.setSec st₁.secSeq _).conf.secs st₁.secSeq).itemNum = 0
    rw [setSec_secs_self]
    exact hfresh _ le_rfl
  · have hlt : st₁.secSeq < i := hi
    simpa [IniState.setSec, hlt.ne'] using hfresh i hlt.le

theorem growItems_seqs (st : IniState) (k : ℕ) :
    (st.growItems k).itemSeq = st.itemSeq ∧ (st.growItems k).secSeq = st.secSeq ∧
      (st.growItems k).curSec = st.curSec := by
  unfold IniState.growItems
  dsimp only
  split_ifs <;> exact ⟨rfl, rfl, rfl⟩

/-- **An item that is read** stands behind the others of its section. -/
theorem Counted.readItem (h : Counted st) {k : ℕ} (hcur : st.curSec = some k) {line : List UInt8}
    (hnext : (F1Goal.readItem line st).1 = .next) :
    (∃ item, itemOf (line.takeWhile fun c => c ≠ 32 ∧ c ≠ 61) line = (.next, item) ∧
      ((F1Goal.readItem line st).2.conf.secs k).live =
        ((st.conf.secs k).live.1, (st.conf.secs k).live.2 ++ [item])) ∧
      Counted (F1Goal.readItem line st).2 := by
  obtain ⟨hlt, hnum⟩ := h.cur k hcur
  obtain ⟨hlive, hgrown⟩ := growItems_secs st k k
  obtain ⟨hseq, hsec, hcur'⟩ := growItems_seqs st k
  have hother (i : ℕ) := (growItems_secs st k i).2
  obtain ⟨item, hitem, hst⟩ := readItem_next hcur hnext
  have hseq' : (st.growItems k).itemSeq = ((st.growItems k).conf.secs k).itemNum := by
    rw [hseq, hgrown, hnum]
  rw [hst, hseq']
  refine ⟨⟨item, hitem, ?_⟩, ?_, ?_⟩
  · change (((st.growItems k).setSec k _).conf.secs k).live = _
    rw [setSec_secs_self, Sec.live_addItem, hlive]
  · intro i hi
    obtain rfl : k = i := Option.some.inj (hcur.symm.trans (hcur'.symm.trans hi))
    refine ⟨hsec ▸ hlt, ?_⟩
    change (((st.growItems k).setSec k _).conf.secs k).itemNum = _
    rw [setSec_secs_self]
  · intro i hi
    have hle : st.secSeq ≤ i := hsec ▸ hi
    have hne : i ≠ k := by omega
    have hzero := (hother i).trans (h.fresh i hle)
    simpa [IniState.setSec, hne] using hzero

/-- **The items of the current section are counted** when a line has been read. -/
theorem Counted.readLine (h : Counted st) {line : List UInt8}
    (hnext : (F1Goal.readLine line st).1 = .next) : Counted (F1Goal.readLine line st).2 := by
  unfold F1Goal.readLine at hnext ⊢
  split at hnext
  · exact h
  · rename_i c rest hbody
    split_ifs at hnext ⊢
    · exact h
    · exact h.readSection hnext
    · cases hcur : st.curSec with
      | none => simp [F1Goal.readItem, hcur] at hnext
      | some k => exact (h.readItem hcur hnext).2

theorem Counted.readLines (h : Counted st) {ls : List (List UInt8)} {st' : IniState}
    (hread : F1Goal.readLines ls st = (.next, st')) : Counted st' := by
  induction ls generalizing st with
  | nil =>
    cases hread
    exact h
  | cons line ls ih =>
    rw [F1Goal.readLines] at hread
    rcases hline : F1Goal.readLine line st with ⟨r, st₁⟩
    rw [hline] at hread
    cases r with
    | next =>
      have hcounted := h.readLine (congrArg Prod.fst hline)
      rw [hline] at hcounted
      exact ih hcounted hread
    | err => cases hread
    | fault => cases hread

theorem ReadUpTo.counted (h : ReadUpTo st) : Counted st := by
  obtain ⟨secSize, itemSize, ls, hread⟩ := h
  exact (counted_start secSize itemSize).readLines hread

/-- A line with a name that the section does not have yet goes on to its value. -/
theorem readItem_res (h : Counted st) {k : ℕ} (hcur : st.curSec = some k) {line name : List UInt8}
    (hname : line.takeWhile (fun c => c ≠ 32 ∧ c ≠ 61) = name) (hlen : name.length < nameSize)
    (hends : name.length ≠ line.length) (hnew : ¬(st.conf.secs k).HasItem name) :
    (readItem line st).1 = (itemOf name line).1 := by
  obtain ⟨-, hnum⟩ := h.cur k hcur
  obtain ⟨hlive, hgrown⟩ := growItems_secs st k k
  obtain ⟨hseq, -, -⟩ := growItems_seqs st k
  have hsame : ((st.growItems k).conf.secs k).sameItem (st.growItems k).itemSeq name ≠ true := by
    rw [hseq, ← hnum, ← hgrown, Sec.sameItem_live, hlive]
    exact hnew
  have hname' : ¬(nameSize ≤ name.length ∨ name.length = line.length) :=
    not_or.2 ⟨not_le.2 hlen, hends⟩
  rw [readItem, hcur]
  dsimp only
  rw [hname, if_neg hname', if_neg (by exact hsame)]
  rcases itemOf name line with ⟨r, item⟩
  cases r <;> rfl

end Reading

/-! ### The value -/

section Value

variable {name value : List UInt8} {before behind tail : ℕ}

/-- What stands behind the blanks behind `=`, when there is a value. -/
theorem skipSpaces_text (hvalue : ValueText value) (hne : value ≠ []) (behind tail : ℕ) :
    skipSpaces (List.replicate behind 32 ++ (value ++ List.replicate tail 32)) =
      value ++ List.replicate tail 32 := by
  refine skipSpaces_replicate behind ?_
  rw [List.head?_append_of_ne_nil _ hne]
  exact hvalue.head

/-- What `valueLen` gives for the text behind `=`. -/
theorem valueLen_text (hvalue : ValueText value) (behind tail : ℕ) :
    let rest := List.replicate behind 32 ++ (value ++ List.replicate tail 32)
    valueLen (rest.length - (skipSpaces rest).length) (skipSpaces rest) =
      if value = [] then -((behind + tail : ℕ) : ℤ) else value.length := by
  dsimp only
  by_cases hnil : value = []
  · subst hnil
    have hskip : skipSpaces (List.replicate behind 32 ++ ([] ++ List.replicate tail 32)) = [] := by
      rw [List.nil_append, List.replicate_append_replicate]
      simp [skipSpaces]
    rw [hskip, valueLen, if_pos rfl, if_pos rfl]
    simp
  · have hne : value ++ List.replicate tail 32 ≠ [] := List.append_ne_nil_of_left_ne_nil hnil _
    rw [skipSpaces_text hvalue hnil, valueLen, if_neg hne, if_neg hnil,
      trimEnd_replicate tail hvalue.last]

theorem skipSpaces_behind_name (name value : List UInt8) (before behind tail : ℕ) :
    skipSpaces ((itemLine name before behind value tail).drop name.length) =
      61 :: (List.replicate behind 32 ++ (value ++ List.replicate tail 32)) := by
  rw [itemLine, List.drop_left, skipSpaces_replicate before (by simp)]

/-- **The value is taken as it is written** unless it is empty and there are blanks. -/
theorem itemOf_itemLine (hvalue : ValueText value) (hblanks : value = [] → behind + tail = 0) :
    itemOf name (itemLine name before behind value tail) = (.next, ⟨name, value.length, value⟩) := by
  have hlen := valueLen_text hvalue behind tail
  dsimp only at hlen
  rw [itemOf, skipSpaces_behind_name]
  dsimp only
  rw [hlen, if_neg (not_not.2 rfl)]
  by_cases hnil : value = []
  · rw [if_pos hnil, hblanks hnil, hnil]
    rfl
  · have hpos : ¬(value.length : ℤ) < 0 := by omega
    have hpos' : ¬(value.length : ℤ) + 1 < 0 := by omega
    rw [if_neg hnil, if_neg hpos', if_neg hpos, skipSpaces_text hvalue hnil, Int.toNat_natCast,
      List.take_left]

/-- An empty value with blanks ends the reading. -/
theorem itemOf_itemLine_blanks (hblanks : behind + tail ≠ 0) :
    (itemOf name (itemLine name before behind [] tail)).1 ≠ .next := by
  have hempty : ValueText [] := ⟨by simp, by simp, by simp⟩
  have hlen := valueLen_text hempty behind tail
  dsimp only at hlen
  rw [itemOf, skipSpaces_behind_name]
  dsimp only
  rw [hlen, if_neg (not_not.2 rfl), if_pos rfl]
  have hneg : -((behind + tail : ℕ) : ℤ) < 0 := by omega
  rw [if_pos hneg]
  split_ifs <;> simp

/-- A value is a part of its line. -/
theorem itemOf_val_subset {line : List UInt8} {item : Item} (h : itemOf name line = (.next, item)) :
    item.val ⊆ line := by
  rw [itemOf] at h
  split at h
  · cases h
  · rename_i c rest hcons
    dsimp only at h
    split_ifs at h <;> cases h
    intro d hd
    have hvalue : d ∈ skipSpaces rest := List.mem_of_mem_take hd
    have hrest : d ∈ c :: rest := List.mem_cons_of_mem _ ((List.dropWhile_suffix _).subset hvalue)
    rw [← hcons] at hrest
    exact List.mem_of_mem_drop ((List.dropWhile_suffix _).subset hrest)

/-! ### Lines -/

/-- The line of an item up to a zero in it. -/
theorem cstr_itemLine (hname : ItemName name) (value : List UInt8) (before behind tail : ℕ) :
    ∃ rest, cstr (itemLine name before behind value tail) = name ++ rest ∧ rest ≠ [] ∧
      ∀ c ∈ rest.head?, c = 32 ∨ c = 61 := by
  have hzero : 0 ∉ name := fun h => (hname.clean 0 h).2.2.1 rfl
  refine ⟨_, cstr_append hzero _, ?_, ?_⟩
  all_goals
    cases before with
    | zero => simp [cstr]
    | succ n => simp [cstr, List.replicate_succ]

theorem readLine_itemLine (hname : ItemName name) (value : List UInt8) (before behind tail : ℕ)
    (st : IniState) :
    readLine (itemLine name before behind value tail) st =
        readItem (cstr (itemLine name before behind value tail)) st ∧
      (cstr (itemLine name before behind value tail)).takeWhile (fun c => c ≠ 32 ∧ c ≠ 61) = name ∧
        name.length ≠ (cstr (itemLine name before behind value tail)).length := by
  obtain ⟨rest, hline, hne, hhead⟩ := cstr_itemLine hname value before behind tail
  obtain ⟨c, rest, rfl⟩ := List.exists_cons_of_ne_nil hne
  obtain ⟨d, name', rfl⟩ := List.exists_cons_of_ne_nil hname.ne_nil
  have hd := hname.clean d List.mem_cons_self
  have hskip : skipSpaces (d :: name' ++ c :: rest) = d :: name' ++ c :: rest :=
    List.dropWhile_cons_of_neg (by simpa using hd.1)
  have hfirst : d ≠ 91 ∧ d ≠ 35 := by simpa using hname.head
  have hpass : ∀ e ∈ d :: name', decide (e ≠ 32 ∧ e ≠ 61) = true := fun e he =>
    decide_eq_true ⟨(hname.clean e he).1, (hname.clean e he).2.1⟩
  have hstop : ¬decide (c ≠ 32 ∧ c ≠ 61) = true := by
    rcases hhead c rfl with rfl | rfl <;> decide
  rw [hline]
  refine ⟨?_, ?_, ?_⟩
  · rw [readLine, hline, hskip]
    simp only [List.cons_append]
    rw [if_neg hfirst.2, if_neg hfirst.1]
  · have hrest : (c :: rest).takeWhile (fun c => c ≠ 32 ∧ c ≠ 61) = [] :=
      List.takeWhile_cons_of_neg hstop
    rw [List.takeWhile_append_of_pos hpass, hrest, List.append_nil]
  · simp

/-- Without a zero the line is read to its end. -/
theorem cstr_itemLine_eq (hname : ItemName name) (hvalue : 0 ∉ value) (before behind tail : ℕ) :
    cstr (itemLine name before behind value tail) = itemLine name before behind value tail := by
  have hzero : 0 ∉ name := fun h => (hname.clean 0 h).2.2.1 rfl
  refine List.takeWhile_eq_self_iff.2 fun c hc => decide_eq_true ?_
  rintro rfl
  simp [itemLine, hzero, hvalue] at hc

/-- **When an item is stored exactly**: unless its value is empty and there are blanks behind the
`=`, or there is a zero in it. -/
theorem itemStored_iff {st : IniState} {k : ℕ} (hread : ReadUpTo st) (hcur : st.curSec = some k)
    (hname : ItemName name) (hvalue : ValueText value) (before behind tail : ℕ) :
    StoresItem st k (itemLine name before behind value tail) name value ↔
      (st.conf.secs k).HasItem name ∨ 0 ∉ value ∧ (value = [] → behind + tail = 0) := by
  obtain ⟨hline, htake, hends⟩ := readLine_itemLine hname value before behind tail st
  have hcounted := hread.counted
  have hres (hnew : ¬(st.conf.secs k).HasItem name) :=
    readItem_res hcounted hcur htake hname.length_lt hends hnew
  rw [StoresItem, hline]
  constructor
  · intro hstores
    by_cases hnew : (st.conf.secs k).HasItem name
    · exact .inl hnew
    obtain ⟨hnext, hlive⟩ := hstores hnew
    obtain ⟨⟨item, hitem, hlive'⟩, -⟩ := hcounted.readItem hcur hnext
    rw [htake] at hitem
    obtain rfl : (⟨name, value.length, value⟩ : Item) = item := by
      have heq := congrArg Prod.snd (hlive.symm.trans hlive')
      exact List.singleton_inj.1 (List.append_cancel_left heq)
    have hzero : 0 ∉ value := fun hmem => by
      simpa using List.mem_takeWhile_imp (itemOf_val_subset hitem hmem)
    refine .inr ⟨hzero, fun hnil => not_not.1 fun hblanks => ?_⟩
    subst hnil
    rw [cstr_itemLine_eq hname hzero] at hitem
    exact itemOf_itemLine_blanks hblanks (congrArg Prod.fst hitem)
  · rintro (hhas | ⟨hzero, hblanks⟩) hnew
    · exact absurd hhas hnew
    have hitem : itemOf name (cstr (itemLine name before behind value tail)) =
        (.next, ⟨name, value.length, value⟩) := by
      rw [cstr_itemLine_eq hname hzero]
      exact itemOf_itemLine hvalue hblanks
    have hnext := (hres hnew).trans (congrArg Prod.fst hitem)
    obtain ⟨⟨item, hfound, hlive⟩, -⟩ := hcounted.readItem hcur hnext
    rw [htake, hitem] at hfound
    cases hfound
    exact ⟨hnext, hlive⟩

end Value

/-- The state behind the line `[s]`. -/
def behindHeader : IniState := (readLines [ascii "[s]"] (iniStart (smartConfInit 4 20))).2

theorem itemStored_one :
    StoresItem behindHeader 0 (itemLine [97] 0 1 [98] 1) [97] [98] ↔
      (behindHeader.conf.secs 0).HasItem [97] ∨ 0 ∉ [(98 : UInt8)] ∧ ([(98 : UInt8)] = [] → 1 + 1 = 0) :=
  itemStored_iff ⟨4, 20, [ascii "[s]"], rfl⟩ rfl ⟨by decide, by decide, by simp, by decide⟩
    ⟨by decide, by decide, by decide⟩ 0 1 1

/-- An empty value behind one blank. -/
theorem emptyValue_not_stored :
    ¬∀ (st : IniState) (k : ℕ), ReadUpTo st → st.curSec = some k →
      ∀ name value : List UInt8, ItemName name → ValueText value → 0 ∉ value →
        ∀ before behind tail : ℕ,
          StoresItem st k (itemLine name before behind value tail) name value := by
  intro h
  have hstores := h behindHeader 0 ⟨4, 20, [ascii "[s]"], rfl⟩ rfl [97] []
    ⟨by decide, by decide, by simp, by decide⟩ ⟨by decide, by decide, by decide⟩ (by decide) 0 1 0
  have hfault := (hstores (by unfold Sec.HasItem; decide)).1
  revert hfault
  decide

end F1Goal
