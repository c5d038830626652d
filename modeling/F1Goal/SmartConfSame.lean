import F1Goal.SmartConfSafety

/-!
# Configurations that differ in one value

Two files that differ in the value of one key of a section read as sections that differ in this
value only (`LinesDiffer.sameBut`), and every other key has the same item in both
(`SameBut.findIn`). What a line does depends on the names read so far, and never on a value.
-/

namespace F1Goal

open CString

/-! ### The relation -/

/-- Two items of a section that are the same, or have the name `key` in the section `sec`. -/
def ItemSame (sec key secName : List UInt8) (i j : Item) : Prop :=
  i.itemName = j.itemName ∧ (i = j ∨ fold secName = fold sec ∧ fold i.itemName = fold key)

/-- Two sections with the same name and items that correspond. -/
def SectionSame (sec key : List UInt8) (s t : Section) : Prop :=
  s.1 = t.1 ∧ List.Forall₂ (ItemSame sec key s.1) s.2 t.2

/-- **Two configurations that differ at most in the value of `key`** in the section `sec`. -/
def SameBut (sec key : List UInt8) (ss ts : List Section) : Prop :=
  List.Forall₂ (SectionSame sec key) ss ts

/-- The name of the item of a line. -/
def itemNameOf (line : List UInt8) : List UInt8 :=
  (skipSpaces (cstr line)).takeWhile fun c => c ≠ 32 ∧ c ≠ 61

/-- Two lines with the same item name, which is `key`. -/
structure KeyLines (key l l' : List UInt8) : Prop where
  item : IsItem l
  item' : IsItem l'
  name : itemNameOf l = itemNameOf l'
  isKey : fold (itemNameOf l) = fold key

/-- The last section has the name `sec`. -/
def InSection (sec : List UInt8) (secs : List Section) : Prop :=
  ∃ s ∈ secs.getLast?, fold s.1 = fold sec

/-- The lines of two files that differ in one line with a value of `key`, in the section `sec`. -/
def LinesDiffer (sec key : List UInt8) (ls ls' : List (List UInt8)) : Prop :=
  ∃ pre l l' post, ls = pre ++ l :: post ∧ ls' = pre ++ l' :: post ∧ KeyLines key l l' ∧
    InSection sec (specLines pre []).2

variable {sec key : List UInt8}

theorem SectionSame.refl (s : Section) : SectionSame sec key s s :=
  ⟨rfl, List.forall₂_same.2 fun _ _ => ⟨rfl, .inl rfl⟩⟩

theorem SameBut.refl (ss : List Section) : SameBut sec key ss ss :=
  List.forall₂_same.2 fun s _ => SectionSame.refl s

/-! ### Lookup -/

/-- An item of another name is found in both. -/
theorem find?_same {secName name : List UInt8} {is js : List Item}
    (h : List.Forall₂ (ItemSame sec key secName) is js) (hname : fold name ≠ fold key) :
    (is.find? fun item => strcasecmp item.itemName name) =
      js.find? fun item => strcasecmp item.itemName name := by
  induction h with
  | nil => rfl
  | @cons i j is js hij _ ih =>
    obtain ⟨hitem, hsame⟩ := hij
    rw [List.find?_cons, List.find?_cons, ← hitem, ih]
    cases hcmp : strcasecmp i.itemName name with
    | false => rfl
    | true =>
      have hfold := (strcasecmp_iff _ _).1 hcmp
      rcases hsame with rfl | ⟨-, hkey⟩
      · rfl
      · exact absurd (hfold.symm.trans hkey) hname

/-- **Every other key of the section** is looked up with the same result. -/
theorem SameBut.findIn {ss ts : List Section} (h : SameBut sec key ss ts) {name : List UInt8}
    (hname : fold name ≠ fold key) : findIn ss sec name = F1Goal.findIn ts sec name := by
  suffices hfold : ∀ found : Option Item,
      ss.foldl (fun found s =>
        if strcasecmp s.1 sec then
          (s.2.find? fun item => strcasecmp item.itemName name).or found
        else found) found =
      ts.foldl (fun found s =>
        if strcasecmp s.1 sec then
          (s.2.find? fun item => strcasecmp item.itemName name).or found
        else found) found from hfold none
  induction h with
  | nil => exact fun _ => rfl
  | cons hst _ ih =>
    intro found
    rw [List.foldl_cons, List.foldl_cons, ← hst.1, find?_same hst.2 hname]
    exact ih _

/-! ### Lines -/

section Lines

variable {ss ts : List Section} {line : List UInt8}

/-- What a line that opens a section adds. -/
theorem specSection_next (h : (specSection line ss).1 = .next) :
    (specSection line ss).2 = ss ++ [(line.takeWhile (· ≠ 93), [])] := by
  unfold specSection at h ⊢
  dsimp only at h ⊢
  split_ifs at h ⊢
  rfl

theorem itemOf_name {name line : List UInt8} {item : Item} (h : itemOf name line = (.next, item)) :
    item.itemName = name := by
  rw [itemOf] at h
  split at h
  · cases h
  · dsimp only at h
    split_ifs at h <;> cases h
    rfl

/-- What a line with an item adds, to the last section. -/
theorem specItem_next (h : (specItem line ss).1 = .next) :
    ∃ s item, ss.getLast? = some s ∧
      itemOf (line.takeWhile fun c => c ≠ 32 ∧ c ≠ 61) line = (.next, item) ∧
      (specItem line ss).2 = ss.dropLast ++ [(s.1, s.2 ++ [item])] := by
  rw [specItem] at h ⊢
  cases hlast : ss.getLast? with
  | none => simp [hlast] at h
  | some s =>
    rw [hlast] at h
    dsimp only at h ⊢
    split_ifs at h ⊢
    rcases hitem : itemOf (line.takeWhile fun c => c ≠ 32 ∧ c ≠ 61) line with ⟨r, item⟩
    rw [hitem] at h
    cases r with
    | next => exact ⟨s, item, rfl, rfl, rfl⟩
    | err => cases h
    | fault => cases h

theorem SameBut.getLast? (h : SameBut sec key ss ts) {s t : Section}
    (hs : ss.getLast? = some s) (ht : ts.getLast? = some t) :
    SameBut sec key ss.dropLast ts.dropLast ∧ SectionSame sec key s t := by
  obtain ⟨ss, rfl⟩ := List.getLast?_eq_some_iff.1 hs
  obtain ⟨ts, rfl⟩ := List.getLast?_eq_some_iff.1 ht
  rw [List.dropLast_concat, List.dropLast_concat]
  have hrev := List.forall₂_reverse_iff.2 h
  rw [List.reverse_concat, List.reverse_concat, List.forall₂_cons] at hrev
  exact ⟨List.forall₂_reverse_iff.1 hrev.2, hrev.1⟩

/-- **Two items** that are the same, or are the value of `key` in the section `sec`. -/
theorem SameBut.specItem (h : SameBut sec key ss ts) {line' : List UInt8}
    (hname : (line.takeWhile fun c => c ≠ 32 ∧ c ≠ 61) = line'.takeWhile fun c => c ≠ 32 ∧ c ≠ 61)
    (hsame : line = line' ∨ InSection sec ss ∧
      fold (line.takeWhile fun c => c ≠ 32 ∧ c ≠ 61) = fold key)
    (hnext : (F1Goal.specItem line ss).1 = .next) (hnext' : (F1Goal.specItem line' ts).1 = .next) :
    SameBut sec key (F1Goal.specItem line ss).2 (F1Goal.specItem line' ts).2 := by
  obtain ⟨s, item, hs, hitem, hadd⟩ := specItem_next hnext
  obtain ⟨t, item', ht, hitem', hadd'⟩ := specItem_next hnext'
  obtain ⟨hinit, hlast⟩ := h.getLast? hs ht
  rw [hadd, hadd']
  refine List.rel_append hinit (.cons ⟨hlast.1, List.rel_append hlast.2 (.cons ⟨?_, ?_⟩ .nil)⟩ .nil)
  · rw [itemOf_name hitem, itemOf_name hitem', hname]
  · rcases hsame with rfl | ⟨⟨s', hs', hsec⟩, hkey⟩
    · exact .inl (Prod.ext_iff.1 (hitem.symm.trans hitem')).2
    · obtain rfl : s = s' := Option.some.inj (hs.symm.trans hs')
      exact .inr ⟨hsec, by rw [itemOf_name hitem, hkey]⟩

/-- **A line** that is the same in both files. -/
theorem SameBut.specLine (h : SameBut sec key ss ts)
    (hnext : (F1Goal.specLine line ss).1 = .next) (hnext' : (F1Goal.specLine line ts).1 = .next) :
    SameBut sec key (F1Goal.specLine line ss).2 (F1Goal.specLine line ts).2 := by
  rw [F1Goal.specLine] at hnext hnext' ⊢
  rw [F1Goal.specLine]
  cases hbody : skipSpaces (cstr line) with
  | nil => exact h
  | cons c rest =>
    rw [hbody] at hnext hnext'
    dsimp only at hnext hnext' ⊢
    split_ifs at hnext hnext' ⊢
    · exact h
    · rw [specSection_next hnext, specSection_next hnext']
      exact List.rel_append h (.cons (.refl _) .nil)
    · exact h.specItem rfl (.inl rfl) hnext hnext'

/-- **The lines of the key** may have different values. -/
theorem KeyLines.sameBut {l l' : List UInt8} (h : KeyLines key l l') (hsec : InSection sec ss)
    (hnext : (specLine l ss).1 = .next) (hnext' : (specLine l' ss).1 = .next) :
    SameBut sec key (specLine l ss).2 (specLine l' ss).2 := by
  have hitem {l : List UInt8} (hl : IsItem l) :
      specLine l ss = specItem (skipSpaces (cstr l)) ss := by
    obtain ⟨c, hc, h35, h91⟩ := hl
    obtain ⟨rest, hbody⟩ := List.head?_eq_some_iff.1 hc
    rw [specLine, hbody]
    dsimp only
    rw [if_neg h35, if_neg h91]
  rw [hitem h.item] at hnext ⊢
  rw [hitem h.item'] at hnext' ⊢
  exact (SameBut.refl ss).specItem h.name (.inr ⟨hsec, h.isKey⟩) hnext hnext'

end Lines

/-! ### Files -/

theorem specLines_cons_next {line : List UInt8} {ls : List (List UInt8)} {ss : List Section} :
    (specLines (line :: ls) ss).1 = .next ↔ (specLine line ss).1 = .next ∧
      (specLines ls (specLine line ss).2).1 = .next := by
  rw [specLines]
  rcases specLine line ss with ⟨r, ss'⟩
  cases r <;> simp

theorem specLines_cons_eq {line : List UInt8} {ls : List (List UInt8)} {ss : List Section}
    (h : (specLine line ss).1 = .next) :
    specLines (line :: ls) ss = specLines ls (specLine line ss).2 := by
  rw [specLines]
  rcases hline : specLine line ss with ⟨r, ss'⟩
  rw [hline] at h
  cases h
  rfl

/-- **The lines behind** are the same in both files. -/
theorem SameBut.specLines {ls : List (List UInt8)} {ss ts : List Section}
    (h : SameBut sec key ss ts) (hnext : (F1Goal.specLines ls ss).1 = .next)
    (hnext' : (F1Goal.specLines ls ts).1 = .next) :
    SameBut sec key (F1Goal.specLines ls ss).2 (F1Goal.specLines ls ts).2 := by
  induction ls generalizing ss ts with
  | nil => exact h
  | cons line ls ih =>
    obtain ⟨hline, hrest⟩ := specLines_cons_next.1 hnext
    obtain ⟨hline', hrest'⟩ := specLines_cons_next.1 hnext'
    rw [specLines_cons_eq hline, specLines_cons_eq hline']
    exact ih (h.specLine hline hline') hrest hrest'

theorem specLines_append_next {ls ls' : List (List UInt8)} {ss : List Section}
    (h : (specLines (ls ++ ls') ss).1 = .next) :
    (specLines ls ss).1 = .next ∧ specLines (ls ++ ls') ss = specLines ls' (specLines ls ss).2 := by
  induction ls generalizing ss with
  | nil => exact ⟨rfl, rfl⟩
  | cons line ls ih =>
    rw [List.cons_append] at h ⊢
    obtain ⟨hline, hrest⟩ := specLines_cons_next.1 h
    rw [specLines_cons_eq hline, specLines_cons_eq hline]
    exact ih hrest

/-- **Two files that differ in the value of one key** read as sections that do. -/
theorem LinesDiffer.sameBut {ls ls' : List (List UInt8)} (h : LinesDiffer sec key ls ls')
    (hnext : (specLines ls []).1 = .next) (hnext' : (specLines ls' []).1 = .next) :
    SameBut sec key (specLines ls []).2 (specLines ls' []).2 := by
  obtain ⟨pre, l, l', post, rfl, rfl, hkey, hsec⟩ := h
  obtain ⟨-, heq⟩ := specLines_append_next hnext
  obtain ⟨-, heq'⟩ := specLines_append_next hnext'
  rw [heq] at hnext ⊢
  rw [heq'] at hnext' ⊢
  obtain ⟨hline, hrest⟩ := specLines_cons_next.1 hnext
  obtain ⟨hline', hrest'⟩ := specLines_cons_next.1 hnext'
  rw [specLines_cons_eq hline, specLines_cons_eq hline']
  exact (hkey.sameBut hsec hline hline').specLines hrest hrest'

end F1Goal
