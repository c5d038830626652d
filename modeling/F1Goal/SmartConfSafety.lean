import F1Goal.SmartConfGrowth

/-!
# Reading a configuration file safely

`lineCopies` are the copies that `ini_read` makes for a line, with their lengths and the room of
what they go to. `ini_safe_iff` says which files are read without a copy of a negative length and
without the section pointer being used before a section has been opened.
-/

namespace F1Goal

open CString

/-! ### Copies -/

/-- A `memcpy`: its length, and the room at its destination. -/
structure Copy where
  len : ℤ
  room : ℤ

/-- The length is between 0 and the room. -/
def Copy.Inside (c : Copy) : Prop := 0 ≤ c.len ∧ c.len ≤ c.room

/-- The copy to `sec_name` for a line `[…`; `line` is what stands behind the bracket. -/
def sectionCopies (line : List UInt8) : List Copy :=
  let name := line.takeWhile (· ≠ 93)
  if nameSize ≤ name.length ∨ name.length = line.length then [] else [⟨name.length, nameSize⟩]

/-- The copy to `val`, which has been given `len + 1` bytes, unless `malloc` has failed. -/
def valueCopies (name line : List UInt8) : List Copy :=
  match skipSpaces (line.drop name.length) with
  | [] => []
  | c :: rest =>
    if c ≠ 61 then []
    else
      let value := skipSpaces rest
      let len := valueLen (rest.length - value.length) value
      if len + 1 < 0 then [] else [⟨len, len + 1⟩]

/-- The copies to `item_name` and `val` for an item of the section `k`. -/
def itemCopies (line : List UInt8) (st : IniState) (k : ℕ) : List Copy :=
  let st := st.growItems k
  let name := line.takeWhile fun c => c ≠ 32 ∧ c ≠ 61
  if nameSize ≤ name.length ∨ name.length = line.length then []
  else
    ⟨name.length, nameSize⟩ ::
      if (st.conf.secs k).sameItem st.itemSeq name then [] else valueCopies name line

/-- The copies that are made for a line. -/
def lineCopies (line : List UInt8) (st : IniState) : List Copy :=
  match skipSpaces (cstr line) with
  | [] => []
  | c :: rest =>
    if c = 35 then []
    else if c = 91 then sectionCopies rest
    else
      match st.curSec with
      | none => []
      | some k => itemCopies (c :: rest) st k

/-- The line has an item: it is neither blank, nor a comment, nor a section. -/
def IsItem (line : List UInt8) : Prop :=
  ∃ c ∈ (skipSpaces (cstr line)).head?, c ≠ 35 ∧ c ≠ 91

instance (line : List UInt8) : Decidable (IsItem line) :=
  inferInstanceAs (Decidable (∃ _ ∈ _, _))

/-- **A line is read safely**: `p_cur_sec` is not `NULL` where it is used, and all copies stay
inside of their destinations. -/
def LineSafe (line : List UInt8) (st : IniState) : Prop :=
  (IsItem line → st.curSec ≠ none) ∧ ∀ c ∈ lineCopies line st, c.Inside

/-- What holds of every line that is reached: no line before it has been refused. -/
def EveryLine (P : List UInt8 → IniState → Prop) : List (List UInt8) → IniState → Prop
  | [], _ => True
  | line :: ls, st =>
    P line st ∧ ((readLine line st).1 = .next → EveryLine P ls (readLine line st).2)

/-- The state of `ini_read` before the first line. -/
def iniStart (conf : SmartConf) : IniState := ⟨conf, 0, 0, none, true⟩

/-- **A file is read safely**: `ini_read` returns `F1G_OK` or `F1G_ERR`, and every line that it
reads is read safely. -/
def IniSafe (conf : SmartConf) (bufSize : ℕ) (buf : ℤ → UInt8) (want : ℕ → ℕ)
    (content : List UInt8) : Prop :=
  (∃ out, iniRead conf bufSize buf want content = some out ∧ (out.res = .next ∨ out.res = .err)) ∧
    EveryLine LineSafe (lines content) (iniStart conf)

/-! ### The condition -/

/-- Behind the name there is `=` and then exactly one blank. The name fits, and the section has no
item of this name. -/
def OneBlank (line : List UInt8) (st : IniState) (k : ℕ) : Prop :=
  let body := skipSpaces (cstr line)
  let name := body.takeWhile fun c => c ≠ 32 ∧ c ≠ 61
  name.length < nameSize ∧
    ((st.growItems k).conf.secs k).sameItem (st.growItems k).itemSeq name = false ∧
      skipSpaces (body.drop name.length) = [61, 32]

instance (line : List UInt8) (st : IniState) (k : ℕ) : Decidable (OneBlank line st k) :=
  inferInstanceAs (Decidable (_ ∧ _ ∧ _))

/-- **The condition on a line**: an item comes after a section, and its value is not one blank. -/
def LineOk (line : List UInt8) (st : IniState) : Prop :=
  IsItem line → ∃ k, st.curSec = some k ∧ ¬ OneBlank line st k

/-! ### One line -/

theorem valueLen_neg {rest : List UInt8} (h : valueLen (rest.length - (skipSpaces rest).length)
    (skipSpaces rest) = -1) : rest = [32] := by
  unfold valueLen at h
  split_ifs at h with hnil
  · rw [hnil, List.length_nil, Nat.sub_zero] at h
    have hone : rest.length = 1 := by omega
    rw [skipSpaces_eq_nil hnil, hone]
    rfl

/-- The copy to `val` is inside unless the value is one blank. -/
theorem valueCopies_inside_iff (name line : List UInt8) :
    (∀ c ∈ valueCopies name line, c.Inside) ↔ skipSpaces (line.drop name.length) ≠ [61, 32] := by
  unfold valueCopies
  split
  · rename_i hnil
    rw [hnil]
    exact iff_of_true (by simp) (by simp)
  · rename_i c rest hcons
    rw [hcons]
    dsimp only
    split_ifs with hc hneg
    · refine iff_of_true (by simp) fun heq => ?_
      exact hc (List.cons.inj heq).1
    · refine iff_of_true (by simp) fun heq => ?_
      rw [(List.cons.inj heq).2] at hneg
      exact absurd hneg (by decide)
    · rw [List.forall_mem_singleton, Copy.Inside]
      constructor
      · rintro ⟨hlen, -⟩ heq
        rw [(List.cons.inj heq).2] at hlen
        exact absurd hlen (by decide)
      · intro hne
        have hlen : valueLen (rest.length - (skipSpaces rest).length) (skipSpaces rest) ≠ -1 := by
          intro hone
          exact hne (by rw [valueLen_neg hone, not_not.1 hc])
        dsimp only
        omega

/-- `itemOf` goes wrong exactly where the copy does. -/
theorem itemOf_fault_iff (name line : List UInt8) :
    (itemOf name line).1 = .fault ↔ ¬ ∀ c ∈ valueCopies name line, c.Inside := by
  cases hskip : skipSpaces (line.drop name.length) with
  | nil => simp [itemOf, valueCopies, hskip]
  | cons c rest =>
    simp only [itemOf, valueCopies, hskip]
    split_ifs with hc hneg hlen
    · simp
    · simp
    · rw [List.forall_mem_singleton, Copy.Inside]
      exact iff_of_true rfl fun h => absurd h.1 (not_le.2 hlen)
    · rw [List.forall_mem_singleton, Copy.Inside]
      exact iff_of_false (by simp) (not_not.2 ⟨not_lt.1 hlen, (lt_add_one _).le⟩)

theorem sectionCopies_inside (line : List UInt8) : ∀ c ∈ sectionCopies line, c.Inside := by
  unfold sectionCopies
  dsimp only
  split_ifs with h
  · simp
  · rw [List.forall_mem_singleton, Copy.Inside]
    dsimp only
    omega

/-- An item of a section goes wrong exactly where one of its copies does. -/
theorem readItem_fault_iff {line : List UInt8} {st : IniState} {k : ℕ} (hcur : st.curSec = some k) :
    (readItem line st).1 = .fault ↔ ¬ ∀ c ∈ itemCopies line st k, c.Inside := by
  rw [readItem, hcur, itemCopies]
  dsimp only
  generalize st.growItems k = st₁
  by_cases hname : nameSize ≤ (line.takeWhile fun c => c ≠ 32 ∧ c ≠ 61).length ∨
      (line.takeWhile fun c => c ≠ 32 ∧ c ≠ 61).length = line.length
  · rw [if_pos hname, if_pos hname]
    simp
  rw [if_neg hname, if_neg hname]
  rw [not_or, not_le] at hname
  have hfirst : (⟨(line.takeWhile fun c => c ≠ 32 ∧ c ≠ 61).length, nameSize⟩ : Copy).Inside := by
    rw [Copy.Inside]
    dsimp only
    omega
  rw [List.forall_mem_cons, and_iff_right hfirst]
  -- `setSec` leaves `item_seq` as it is
  by_cases hsame : (st₁.conf.secs k).sameItem st₁.itemSeq
      (line.takeWhile fun c => c ≠ 32 ∧ c ≠ 61) = true
  · rw [if_pos, if_pos hsame]
    · simp
    · exact hsame
  · rw [if_neg, if_neg hsame, ← itemOf_fault_iff]
    · rcases itemOf (line.takeWhile fun c => c ≠ 32 ∧ c ≠ 61) line with ⟨r, item⟩
      cases r <;> simp
    · exact hsame

/-- **A line goes wrong** exactly when it is not read safely. -/
theorem readLine_fault_iff (line : List UInt8) (st : IniState) :
    (readLine line st).1 = .fault ↔ ¬ LineSafe line st := by
  unfold LineSafe IsItem
  cases hbody : skipSpaces (cstr line) with
  | nil => simp [readLine, lineCopies, hbody]
  | cons c rest =>
    by_cases hcomment : c = 35
    · simp [readLine, lineCopies, hbody, hcomment]
    by_cases hsec : c = 91
    · have hne := readSection_ne_fault rest st
      have hin := sectionCopies_inside rest
      simpa [readLine, lineCopies, hbody, hsec, hne] using hin
    simp only [readLine, lineCopies, hbody, hcomment, hsec, if_false]
    cases hcur : st.curSec with
    | none => simp [readItem, hcur, hcomment, hsec]
    | some k => simp [readItem_fault_iff hcur]

/-- The copies for an item are inside unless its value is one blank. -/
theorem itemCopies_inside_iff (body : List UInt8) (st : IniState) (k : ℕ) :
    (∀ c ∈ itemCopies body st k, c.Inside) ↔
      ¬ ((body.takeWhile fun c => c ≠ 32 ∧ c ≠ 61).length < nameSize ∧
        ((st.growItems k).conf.secs k).sameItem (st.growItems k).itemSeq
          (body.takeWhile fun c => c ≠ 32 ∧ c ≠ 61) = false ∧
        skipSpaces (body.drop (body.takeWhile fun c => c ≠ 32 ∧ c ≠ 61).length) = [61, 32]) := by
  rw [itemCopies]
  generalize st.growItems k = st₁
  generalize body.takeWhile (fun c => c ≠ 32 ∧ c ≠ 61) = name
  by_cases hname : nameSize ≤ name.length ∨ name.length = body.length
  · rw [if_pos hname]
    refine iff_of_true (by simp) ?_
    rintro ⟨hlt, -, hblank⟩
    rcases hname with hle | hlen
    · omega
    · rw [hlen, List.drop_length] at hblank
      cases hblank
  rw [if_neg hname]
  rw [not_or, not_le] at hname
  have hfirst : (⟨name.length, nameSize⟩ : Copy).Inside := by
    rw [Copy.Inside]
    dsimp only
    omega
  rw [List.forall_mem_cons, and_iff_right hfirst]
  cases hsame : (st₁.conf.secs k).sameItem st₁.itemSeq name with
  | true => simp
  | false => simp [valueCopies_inside_iff, hname.1]

/-- **A line is read safely exactly when it meets the condition.** -/
theorem lineSafe_iff (line : List UInt8) (st : IniState) : LineSafe line st ↔ LineOk line st := by
  unfold LineSafe LineOk OneBlank
  cases hbody : skipSpaces (cstr line) with
  | nil => simp [lineCopies, IsItem, hbody]
  | cons c rest =>
    by_cases hcomment : c = 35
    · simp [lineCopies, IsItem, hbody, hcomment]
    by_cases hsec : c = 91
    · have hin := sectionCopies_inside rest
      simpa [lineCopies, IsItem, hbody, hsec] using hin
    have hitem : IsItem line := ⟨c, by simp [hbody], hcomment, hsec⟩
    simp only [hitem, forall_const, lineCopies, hbody, hcomment, hsec, if_false]
    cases hcur : st.curSec with
    | none => simp
    | some k => simpa using itemCopies_inside_iff (c :: rest) st k

/-! ### Files -/

theorem EveryLine.congr {P Q : List UInt8 → IniState → Prop} (h : ∀ line st, P line st ↔ Q line st)
    (ls : List (List UInt8)) (st : IniState) : EveryLine P ls st ↔ EveryLine Q ls st := by
  induction ls generalizing st with
  | nil => exact Iff.rfl
  | cons line ls ih => rw [EveryLine, EveryLine, h, ih]

/-- When the lines that end the reading with `r` are those without `P`, a file ends it so exactly
when one of the lines reached is without `P`. -/
theorem readLines_res_iff {r : IniRes} {P : List UInt8 → IniState → Prop} (hr : r ≠ .next)
    (h : ∀ line st, (readLine line st).1 = r ↔ ¬ P line st) (ls : List (List UInt8))
    (st : IniState) : (readLines ls st).1 = r ↔ ¬ EveryLine P ls st := by
  induction ls generalizing st with
  | nil => simp [readLines, EveryLine, hr.symm]
  | cons line ls ih =>
    have hline := h line st
    rw [readLines, EveryLine]
    rcases hq : readLine line st with ⟨q, st'⟩
    rw [hq] at hline
    cases q with
    | next =>
      have hok : P line st := not_not.1 fun hne => hr (hline.2 hne).symm
      simp [ih, hok]
    | err => simp [hline]
    | fault => simp [hline]

/-- The lines of a file go wrong exactly when one of those reached does. -/
theorem readLines_fault_iff (ls : List (List UInt8)) (st : IniState) :
    (readLines ls st).1 = .fault ↔ ¬ EveryLine LineSafe ls st :=
  readLines_res_iff (by decide) readLine_fault_iff ls st

/-- **Which files are read safely**, when they come in one read: exactly those in which every line
that is reached meets the condition. -/
theorem ini_safe_iff (conf : SmartConf) (bufSize : ℕ) (buf : ℤ → UInt8) (want : ℕ → ℕ)
    (content : List UInt8) (hread : readLen (want 0) bufSize content.length = content.length) :
    IniSafe conf bufSize buf want content ↔ EveryLine LineOk (lines content) (iniStart conf) := by
  rw [← EveryLine.congr lineSafe_iff, IniSafe, iniRead_eq_scanWhole _ _ _ _ _ hread, scanWhole_eq]
  refine and_iff_right_of_imp fun hsafe => ⟨_, rfl, ?_⟩
  have hne := mt (readLines_fault_iff (lines content) (iniStart conf)).1 (not_not.2 hsafe)
  rw [done_res]
  cases hres : (readLines (lines content) (iniStart conf)).1 with
  | next => exact .inl hres
  | err => exact .inr hres
  | fault => exact absurd hres hne

/-- A section with an item, in a block of 64 bytes. -/
theorem ini_safe_section :
    IniSafe (smartConfInit 1 1) 64 (fun _ => 0) (fun _ => 64) (ascii "[s]\na = 1\n") ↔
      EveryLine LineOk (lines (ascii "[s]\na = 1\n")) (iniStart (smartConfInit 1 1)) :=
  ini_safe_iff _ _ _ _ _ (by decide)

/-- **An item before any section**, and **a value that is one blank**. -/
theorem not_ini_safe :
    ¬ IniSafe (smartConfInit 1 1) 64 (fun _ => 0) (fun _ => 64) (ascii "a=1\n") ∧
      ¬ IniSafe (smartConfInit 1 1) 64 (fun _ => 0) (fun _ => 64) (ascii "[s]\na= \n") := by
  have hfault {content : List UInt8} (h : (iniRead (smartConfInit 1 1) 64 (fun _ => 0)
      (fun _ => 64) content).map IniOut.res = some .fault) :
      ¬ IniSafe (smartConfInit 1 1) 64 (fun _ => 0) (fun _ => 64) content := by
    rintro ⟨⟨out, hread, hres⟩, -⟩
    rw [hread] at h
    rcases hres with hres | hres <;> simp [hres] at h
  exact ⟨hfault (by decide), hfault (by decide)⟩

end F1Goal
