import F1Goal.DataSet
import F1Goal.Lib.Ledger
import F1Goal.Lib.Lts

/-!
# The memory of a data set (`f1g_data_set.c`)

A data set has a block for its array of keys and one for each value. A longer array takes the values
over and the old array is freed; a larger place for a value takes the bytes over, but the old place
is not freed. `data_set_memory_iff` says for which calls no byte is written outside of a block or to
one that is gone, whichever requests for memory fail, and that the old places are all that a data set
leaves behind.
-/

open Ledger

namespace F1Goal

/-- The place of a value: its block, and its size. -/
structure Place where
  val : Ptr
  valSize : ℤ

/-- A data set with its blocks. `lost` are the places that have been replaced, which it does not know
any more. -/
structure DataSetCells where
  pKeys : Ptr
  /-- the places of the keys, as many as `key_size` -/
  places : List Place
  keyNum : ℕ
  lost : List Ptr

/-- A key filled with zeros by `memset`. -/
def Place.zero : Place := ⟨none, 0⟩

section Functions

variable (grants : ℕ → Bool)

/-- `malloc` with a size that is an `i32_t`. -/
def mallocSigned (size : ℤ) : Prog Ptr := if size < 0 then pure none else malloc grants

/-- The loop of `data_set_init`: it ends at the first place for which there is no memory. -/
def dataSetPlaces : ℕ → Prog (List Place)
  | 0 => pure []
  | n + 1 => do
    let val ← malloc grants
    if val = none then pure (List.replicate (n + 1) .zero)
    else do
      let places ← dataSetPlaces n
      pure (⟨val, keyValSize⟩ :: places)

/-- `data_set_init` -/
def dataSetInitBlocks (keySize : ℕ) : Prog DataSetCells := do
  let pKeys ← malloc grants
  if pKeys = none then pure ⟨none, [], 0, []⟩
  else do
    let places ← dataSetPlaces grants keySize
    pure ⟨pKeys, places, 0, []⟩

/-- `key_info_extent_cap`: the place after it, and the one that has been replaced. -/
def keyInfoExtentCapBlocks (p : Place) (extSize : ℤ) : Prog (Place × Ptr) := do
  let val ← mallocSigned grants extSize
  if val = none then pure (p, none)
  else do
    if p.val ≠ none then touch p.val
    pure (⟨val, extSize⟩, p.val)

/-- `data_set_extent_cap` -/
def dataSetExtentCapBlocks (s : DataSetCells) (extKeySize : ℤ) : Prog DataSetCells := do
  let pKeys ← mallocSigned grants extKeySize
  if pKeys = none then pure s
  else do
    if s.pKeys ≠ none then touch s.pKeys
    free s.pKeys
    let more := List.replicate (extKeySize.toNat - s.keyNum) Place.zero
    pure { s with pKeys := pKeys, places := s.places.take s.keyNum ++ more }

/-- `if (key_num >= key_size) data_set_extent_cap(p_ds, key_size*2);` -/
def DataSetCells.grow (s : DataSetCells) : Prog DataSetCells :=
  if s.places.length ≤ s.keyNum then
    dataSetExtentCapBlocks grants s (i32 (s.places.length * 2))
  else pure s

/-- A larger place, if a value of this length needs it. -/
def Place.enlarge (p : Place) (len : ℕ) : Prog (Place × Ptr) :=
  if p.valSize < (len : ℤ) then
    keyInfoExtentCapBlocks grants p (i32 ((len : ℤ) + (len : ℤ) / 2))
  else pure (p, none)

/-- The value of `data_set_add_int_var`: `snprintf` to the place, and to a larger one when it is too
small. -/
def printPlace (p : Place) (len : ℕ) : Prog (Place × Ptr) := do
  if 0 < p.valSize then touch p.val
  let (p, old) ← p.enlarge grants len
  if 0 < p.valSize then touch p.val
  pure (p, old)

/-- The value of `data_set_add_str_var`: `memcpy` to the place, or to a larger one. It goes wrong when
the place is too small. -/
def copyPlace (p : Place) (len : ℕ) : Prog (Place × Ptr) := do
  let (p, old) ← p.enlarge grants len
  if p.valSize < (len : ℤ) then failure
  else do
    if len ≠ 0 then touch p.val
    pure (p, old)

/-- What a call does to the place of its key. -/
def AddVar.put (c : AddVar) (p : Place) : Prog (Place × Ptr) :=
  match c with
  | .int _ none => pure (p, none)
  | .int _ (some text) => printPlace grants p text.length
  | .str _ val => copyPlace grants p val.length

/-- `data_set_add_int_var`, `data_set_add_str_var` -/
def DataSetCells.add (s : DataSetCells) (c : AddVar) : Prog DataSetCells := do
  let s ← s.grow grants
  if c.name = [] ∨ maxKeyLen < c.name.length then pure s
  else
    match s.places[s.keyNum]? with
    | none => failure
    | some p => do
      touch s.pKeys
      let (p, old) ← c.put grants p
      pure { s with
        places := s.places.set s.keyNum p, keyNum := s.keyNum + 1, lost := s.lost ++ [old] }

end Functions

/-- `data_set_destroy` -/
def dataSetDestroy (s : DataSetCells) : Prog Unit :=
  if s.pKeys = none then pure ()
  else do
    touch s.pKeys
    freeAll (s.places.map Place.val)
    free s.pKeys

/-! ### The condition -/

/-- The size that `key_info_extent_cap` is called with. -/
def placeExt (len : ℕ) : ℤ := i32 ((len : ℤ) + (len : ℤ) / 2)

/-- The size that `data_set_extent_cap` is called with. -/
def DataSetCells.keysExt (s : DataSetCells) : ℤ := i32 (s.places.length * 2)

/-- All keys are in use. -/
def DataSetCells.Full (s : DataSetCells) : Prop := s.places.length ≤ s.keyNum

instance (s : DataSetCells) : Decidable s.Full := inferInstanceAs (Decidable (_ ≤ _))

/-- There is a key for the next variable, or the array grows when `malloc` grants the request `n`. -/
def DataSetCells.HasKey (grants : ℕ → Bool) (s : DataSetCells) (n : ℕ) : Prop :=
  s.Full → 0 ≤ s.keysExt ∧ grants n ∧ s.keyNum < s.keysExt.toNat

/-- The number of the request behind those for the array. -/
def DataSetCells.afterGrow (s : DataSetCells) (n : ℕ) : ℕ :=
  if s.Full ∧ 0 ≤ s.keysExt then n + 1 else n

/-- The size of the place that the next variable finds. -/
def DataSetCells.placeSize (s : DataSetCells) : ℤ :=
  if s.Full then 0 else (s.places.getD s.keyNum .zero).valSize

/-- A copied value fits the place, or a larger one when `malloc` grants the request `n`. -/
def AddVar.Fits (grants : ℕ → Bool) (size : ℤ) (n : ℕ) : AddVar → Prop
  | .int _ _ => True
  | .str _ val => (val.length : ℤ) ≤ size ∨
      0 ≤ placeExt val.length ∧ grants n ∧ (val.length : ℤ) ≤ placeExt val.length

/-- **The condition on a call** with a proper name: there is a key for it, and a copied value fits its
place. -/
def DataSetCells.Ok (grants : ℕ → Bool) (c : DataSetCells × Heap) (v : AddVar) : Prop :=
  ¬ (v.name = [] ∨ maxKeyLen < v.name.length) →
    c.1.HasKey grants c.2.next ∧ v.Fits grants c.1.placeSize (c.1.afterGrow c.2.next)

/-! ### What is in memory -/

/-- A place without a block has no size. -/
def Place.Ok (p : Place) : Prop := p.val = none → p.valSize ≤ 0

/-- All blocks of a data set. -/
def DataSetCells.ptrs (s : DataSetCells) : List Ptr := s.pKeys :: s.places.map Place.val ++ s.lost

/-- A data set in memory. -/
structure DataSetCells.InMemory (s : DataSetCells) (h : Heap) : Prop where
  ok : h.Ok
  live : h.live = blocksOf s.ptrs
  keyNum_le : s.keyNum ≤ s.places.length
  pKeys : s.places ≠ [] → s.pKeys ≠ none
  places : ∀ p ∈ s.places, p.Ok

variable {grants : ℕ → Bool} {s s' : DataSetCells} {h h' : Heap} {p : Place}

theorem ok_zero : Place.zero.Ok := fun _ => le_refl 0

namespace DataSetCells.InMemory

theorem pKeys_live (hs : s.InMemory h) {b : ℕ} (hb : s.pKeys = some b) : b ∈ h.live := by
  rw [hs.live]
  simp [ptrs, hb]

theorem place_live (hs : s.InMemory h) {i b : ℕ} (hp : s.places[i]? = some p) (hb : p.val = some b) :
    b ∈ h.live := by
  obtain ⟨l₁, l₂, hl⟩ := List.append_of_mem (List.mem_of_getElem? hp)
  rw [hs.live]
  simp [ptrs, hl, hb]

end DataSetCells.InMemory

/-! ### The place of a value -/

theorem mallocSigned_of_neg {size : ℤ} (hsize : size < 0) :
    mallocSigned grants size h = some (none, h) := by
  rw [mallocSigned, if_pos hsize, pure_apply]

theorem mallocSigned_of_nonneg {size : ℤ} (hsize : 0 ≤ size) :
    mallocSigned grants size h =
      if grants h.next then some (some h.next, h.add) else some (none, h.skip) := by
  rw [mallocSigned, if_neg (not_lt.2 hsize), malloc]

/-- A place that is large enough, or cannot be larger, stays. -/
theorem enlarge_same {len : ℕ} (hsize : p.valSize < (len : ℤ) → placeExt len < 0) :
    p.enlarge grants len h = some ((p, none), h) := by
  unfold Place.enlarge
  split_ifs with hlt
  · rw [keyInfoExtentCapBlocks, bind_apply, ← placeExt, mallocSigned_of_neg (hsize hlt),
      Option.bind_some, if_pos rfl, pure_apply]
  · rw [pure_apply]

/-- There is no memory for a larger place. -/
theorem enlarge_denied {len : ℕ} (hsize : p.valSize < (len : ℤ)) (hext : 0 ≤ placeExt len)
    (hgrant : ¬ grants h.next) : p.enlarge grants len h = some ((p, none), h.skip) := by
  rw [Place.enlarge, if_pos hsize, keyInfoExtentCapBlocks, bind_apply, ← placeExt,
    mallocSigned_of_nonneg hext, if_neg hgrant, Option.bind_some, if_pos rfl, pure_apply]

/-- A larger place: the old one is not freed. -/
theorem enlarge_granted {len : ℕ} (hsize : p.valSize < (len : ℤ)) (hext : 0 ≤ placeExt len)
    (hgrant : grants h.next) (hlive : ∀ b, p.val = some b → b ∈ h.live) :
    p.enlarge grants len h = some ((⟨some h.next, placeExt len⟩, p.val), h.add) := by
  rw [Place.enlarge, if_pos hsize, keyInfoExtentCapBlocks, bind_apply, ← placeExt,
    mallocSigned_of_nonneg hext, if_pos hgrant, Option.bind_some, if_neg nofun]
  cases hval : p.val with
  | none =>
    rw [if_neg (not_not.2 rfl)]
    rfl
  | some b =>
    have hmem : b ∈ h.add.live := Multiset.mem_cons_of_mem (hlive b hval)
    rw [if_pos nofun, bind_apply, touch_live hmem, Option.bind_some]
    rfl

/-- **What happens to a place**: it stays, or it is replaced and lost. -/
theorem enlarge_cases (grants : ℕ → Bool) (hp : p.Ok) (hok : h.Ok)
    (hlive : ∀ b, p.val = some b → b ∈ h.live) (len : ℕ) :
    ∃ p' old h', p.enlarge grants len h = some ((p', old), h') ∧ p'.Ok ∧ h'.Ok ∧
      h'.live + blocks p.val = h.live + (blocks p'.val + blocks old) ∧
      (∀ b, p'.val = some b → b ∈ h'.live) ∧
      ((len : ℤ) ≤ p'.valSize ↔ (len : ℤ) ≤ p.valSize ∨
        0 ≤ placeExt len ∧ grants h.next ∧ (len : ℤ) ≤ placeExt len) := by
  by_cases hsize : p.valSize < (len : ℤ) → placeExt len < 0
  · refine ⟨p, none, h, enlarge_same hsize, hp, hok, by simp, hlive, ?_⟩
    refine ⟨.inl, fun hor => hor.elim id fun hext => ?_⟩
    by_contra hlt
    exact absurd hext.1 (not_le.2 (hsize (not_le.1 hlt)))
  rw [not_forall] at hsize
  obtain ⟨hlt, hext⟩ := hsize
  rw [not_lt] at hext
  by_cases hgrant : grants h.next
  · refine ⟨_, _, _, enlarge_granted hlt hext hgrant hlive, nofun, hok.add, ?_, ?_, ?_⟩
    · rw [Heap.live_add, blocks_some, ← Multiset.singleton_add]
      abel
    · rintro b ⟨⟩
      exact Multiset.mem_cons_self _ _
    · dsimp only
      exact ⟨fun hle => .inr ⟨hext, hgrant, hle⟩, fun hor =>
        hor.elim (fun hle => absurd hle (not_le.2 hlt)) fun hand => hand.2.2⟩
  · refine ⟨_, _, _, enlarge_denied hlt hext hgrant, hp, hok.skip, by simp, hlive, ?_⟩
    exact ⟨.inl, fun hor => hor.elim id fun hand => absurd hand.2.1 hgrant⟩

/-- A place with a size can be written to. -/
theorem touch_place (hp : p.Ok) (hlive : ∀ b, p.val = some b → b ∈ h.live) (hsize : 0 < p.valSize) :
    touch p.val h = some ((), h) := by
  obtain ⟨b, hb⟩ : ∃ b, p.val = some b := by
    rw [← Option.ne_none_iff_exists']
    exact fun hnone => absurd (hp hnone) (not_le.2 hsize)
  rw [hb, touch_live (hlive b hb)]

/-- A formatted value is printed to its place as far as it fits. -/
theorem printPlace_eq (hp : p.Ok) (hlive : ∀ b, p.val = some b → b ∈ h.live) {len : ℕ} {p' : Place}
    {old : Ptr} (henlarge : p.enlarge grants len h = some ((p', old), h')) (hp' : p'.Ok)
    (hlive' : ∀ b, p'.val = some b → b ∈ h'.live) :
    printPlace grants p len h = some ((p', old), h') := by
  have hrest : (do
      let (p, old) ← p.enlarge grants len
      if 0 < p.valSize then touch p.val
      pure (p, old) : Prog (Place × Ptr)) h = some ((p', old), h') := by
    rw [bind_apply, henlarge, Option.bind_some]
    dsimp only
    split_ifs with hsize
    · rw [bind_apply, touch_place hp' hlive' hsize, Option.bind_some, pure_apply]
    · rw [pure_apply]
  rw [printPlace]
  split_ifs with hsize
  · rw [bind_apply, touch_place hp hlive hsize, Option.bind_some]
    exact hrest
  · exact hrest

/-- A value is copied when it fits the place. -/
theorem copyPlace_eq {len : ℕ} {p' : Place} {old : Ptr}
    (henlarge : p.enlarge grants len h = some ((p', old), h')) (hp' : p'.Ok)
    (hlive' : ∀ b, p'.val = some b → b ∈ h'.live) :
    copyPlace grants p len h =
      if (len : ℤ) ≤ p'.valSize then some ((p', old), h') else none := by
  rw [copyPlace, bind_apply, henlarge, Option.bind_some]
  dsimp only
  by_cases hsize : (len : ℤ) ≤ p'.valSize
  · rw [if_neg (not_lt.2 hsize), if_pos hsize]
    split_ifs with hlen
    · rw [bind_apply, touch_place hp' hlive' (by omega), Option.bind_some, pure_apply]
    · rw [pure_apply]
  · rw [if_pos (not_le.1 hsize), if_neg hsize]
    rfl

/-- **The value of a call** goes to its place exactly when it fits. -/
theorem put_cases (grants : ℕ → Bool) (hp : p.Ok) (hok : h.Ok)
    (hlive : ∀ b, p.val = some b → b ∈ h.live) (v : AddVar) :
    ((v.put grants p h).isSome ↔ v.Fits grants p.valSize h.next) ∧
      ∀ p' old h', v.put grants p h = some ((p', old), h') → p'.Ok ∧ h'.Ok ∧
        h'.live + blocks p.val = h.live + (blocks p'.val + blocks old) := by
  have hsame : ∀ p' old h', some ((p, (none : Ptr)), h) = some ((p', old), h') → p'.Ok ∧ h'.Ok ∧
      h'.live + blocks p.val = h.live + (blocks p'.val + blocks old) := by
    rintro p' old h' ⟨⟩
    exact ⟨hp, hok, by simp⟩
  cases v with
  | int name text =>
    cases text with
    | none => exact ⟨iff_of_true rfl trivial, hsame⟩
    | some text =>
      obtain ⟨p₁, old₁, h₁, henlarge, hp₁, hok₁, hblocks, hlive₁, -⟩ :=
        enlarge_cases grants hp hok hlive text.length
      rw [AddVar.put, printPlace_eq hp hlive henlarge hp₁ hlive₁]
      refine ⟨iff_of_true rfl trivial, ?_⟩
      rintro p' old h' ⟨⟩
      exact ⟨hp₁, hok₁, hblocks⟩
  | str name val =>
    obtain ⟨p₁, old₁, h₁, henlarge, hp₁, hok₁, hblocks, hlive₁, hfits⟩ :=
      enlarge_cases grants hp hok hlive val.length
    rw [AddVar.put, copyPlace_eq henlarge hp₁ hlive₁, AddVar.Fits, ← hfits]
    split_ifs with hsize
    · refine ⟨iff_of_true rfl hsize, ?_⟩
      rintro p' old h' ⟨⟩
      exact ⟨hp₁, hok₁, hblocks⟩
    · exact ⟨iff_of_false nofun hsize, nofun⟩

/-! ### The array of keys -/

/-- All keys are in use exactly when there are as many as places. -/
theorem DataSetCells.InMemory.eq_of_full (hs : s.InMemory h) (hfull : s.Full) :
    s.keyNum = s.places.length := le_antisymm hs.keyNum_le hfull

/-- A longer array. -/
theorem extentCap_granted (hs : s.InMemory h) (hext : 0 ≤ s.keysExt) (hgrant : grants h.next) :
    dataSetExtentCapBlocks grants s s.keysExt h =
      some ({ s with
        pKeys := some h.next
        places := s.places.take s.keyNum ++
          List.replicate (s.keysExt.toNat - s.keyNum) Place.zero }, h.add.remove s.pKeys) := by
  have hle : blocks s.pKeys ≤ h.add.live := by
    rw [Heap.live_add, hs.live, DataSetCells.ptrs, List.cons_append, blocksOf_cons]
    exact (Multiset.le_add_right _ _).trans (Multiset.le_cons_self _ _)
  rw [dataSetExtentCapBlocks, bind_apply, mallocSigned_of_nonneg hext, if_pos hgrant,
    Option.bind_some, if_neg (Option.some_ne_none _)]
  cases hkeys : s.pKeys with
  | none =>
    have hnull : h.add.remove none = h.add := by simp [Heap.remove, Heap.add]
    rw [if_neg (not_not.2 rfl), hnull]
    rfl
  | some b =>
    rw [hkeys] at hle
    have hmem : b ∈ h.add.live := Multiset.singleton_le.1 hle
    rw [if_pos (Option.some_ne_none b), bind_apply, touch_live hmem, Option.bind_some]
    change (free (some b) h.add).bind _ = _
    rw [free_eq hle, Option.bind_some]
    rfl

theorem inMemory_longer (hs : s.InMemory h) (hfull : s.Full) (n : ℕ) :
    DataSetCells.InMemory
      { s with
        pKeys := some h.next
        places := s.places.take s.keyNum ++ List.replicate n Place.zero }
      (h.add.remove s.pKeys) := by
  have hnum := hs.eq_of_full hfull
  refine ⟨hs.ok.add.remove _, ?_, ?_, nofun, ?_⟩
  · rw [Heap.live_remove, Heap.live_add, hs.live, hnum, List.take_length]
    simp only [DataSetCells.ptrs, List.cons_append, blocksOf_cons, List.map_append,
      blocksOf_append, List.map_replicate, Place.zero, blocksOf_replicate_none, add_zero,
      blocks_some]
    rw [← Multiset.singleton_add, add_left_comm, add_tsub_cancel_left]
  · rw [List.length_append, List.length_take, hnum, min_self]
    exact Nat.le_add_right _ _
  · intro p hp
    rcases List.mem_append.1 hp with hp | hp
    · exact hs.places p (List.mem_of_mem_take hp)
    · rw [List.eq_of_mem_replicate hp]
      exact ok_zero

/-- **The array behind its growth**: there is a key for the next variable when there should be one,
with a place of the size that it should have. -/
theorem grow_cases (grants : ℕ → Bool) (hs : s.InMemory h) :
    ∃ s' h', s.grow grants h = some (s', h') ∧ s'.InMemory h' ∧ h'.next = s.afterGrow h.next ∧
      (s.HasKey grants h.next ↔ s'.keyNum < s'.places.length) ∧
      (s'.keyNum < s'.places.length →
        (s'.places.getD s'.keyNum .zero).valSize = s.placeSize) := by
  unfold DataSetCells.grow DataSetCells.HasKey DataSetCells.afterGrow DataSetCells.placeSize
  rw [← DataSetCells.keysExt]
  change ∃ s' h', (if s.Full then _ else _ : Prog DataSetCells) h = _ ∧ _
  by_cases hfull : s.Full
  · have hnum := hs.eq_of_full hfull
    have hno : ¬ s.keyNum < s.places.length := hfull.not_gt
    rw [if_pos hfull]
    by_cases hext : 0 ≤ s.keysExt
    · rw [if_pos ⟨hfull, hext⟩]
      by_cases hgrant : grants h.next
      · have hlen : (s.places.take s.keyNum ++
            List.replicate (s.keysExt.toNat - s.keyNum) Place.zero).length =
              s.keyNum + (s.keysExt.toNat - s.keyNum) := by
          rw [List.length_append, List.length_replicate, List.length_take, hnum, min_self]
        refine ⟨_, _, extentCap_granted hs hext hgrant, ?_, rfl, ?_, fun hlt => ?_⟩
        · exact inMemory_longer hs hfull _
        · dsimp only
          rw [hlen]
          exact ⟨fun hkey => by have hroom := (hkey hfull).2.2; omega,
            fun hlt _ => ⟨hext, hgrant, by omega⟩⟩
        · dsimp only at hlt ⊢
          rw [hlen] at hlt
          rw [if_pos hfull, List.getD_eq_getElem?_getD, List.getElem?_append_right (by simp),
            List.getElem?_replicate, List.length_take, hnum, min_self, if_pos (by omega)]
          rfl
      · refine ⟨s, h.skip, ?_, ⟨hs.ok.skip, hs.live, hs.keyNum_le, hs.pKeys, hs.places⟩, rfl, ?_,
          fun hlt => absurd hlt hno⟩
        · rw [dataSetExtentCapBlocks, bind_apply, mallocSigned_of_nonneg hext, if_neg hgrant,
            Option.bind_some, if_pos rfl, pure_apply]
        · exact iff_of_false (fun hkey => hgrant (hkey hfull).2.1) hno
    · refine ⟨s, h, ?_, hs, by rw [if_neg fun hand => hext hand.2], ?_, fun hlt => absurd hlt hno⟩
      · rw [dataSetExtentCapBlocks, bind_apply, mallocSigned_of_neg (not_le.1 hext),
          Option.bind_some, if_pos rfl, pure_apply]
      · exact iff_of_false (fun hkey => hext (hkey hfull).1) hno
  · rw [if_neg hfull]
    refine ⟨s, h, rfl, hs, by rw [if_neg fun hand => hfull hand.1], ?_, fun _ => by rw [if_neg hfull]⟩
    exact iff_of_true (fun hyes => absurd hyes hfull) (not_le.1 hfull)

/-! ### Runs -/

theorem DataSetCells.InMemory.touch_pKeys (hs : s.InMemory h) (hp : p ∈ s.places) :
    touch s.pKeys h = some ((), h) := by
  obtain ⟨b, hb⟩ := Option.ne_none_iff_exists'.1 (hs.pKeys (List.ne_nil_of_mem hp))
  rw [hb, touch_live (hs.pKeys_live hb)]

/-- A value goes to a place, and the place that it had is lost. -/
theorem DataSetCells.InMemory.set (hs : s.InMemory h) (hp : s.places[s.keyNum]? = some p)
    {p' : Place} {old : Ptr} (hp' : p'.Ok) (hok : h'.Ok)
    (hblocks : h'.live + blocks p.val = h.live + (blocks p'.val + blocks old)) :
    DataSetCells.InMemory
      { s with
        places := s.places.set s.keyNum p'
        keyNum := s.keyNum + 1
        lost := s.lost ++ [old] } h' := by
  obtain ⟨hlt, -⟩ := List.getElem?_eq_some_iff.1 hp
  refine ⟨hok, ?_, ?_, fun _ => hs.pKeys (List.ne_nil_of_length_pos (by omega)), fun q hq => ?_⟩
  · have hold : (s.places.map Place.val)[s.keyNum]? = some p.val := by
      rw [List.getElem?_map, hp, Option.map_some]
    have hset := blocksOf_set hold p'.val
    refine add_right_cancel (b := blocks p.val) ?_
    rw [hblocks, hs.live]
    simp only [DataSetCells.ptrs, List.map_set, List.cons_append, blocksOf_cons, blocksOf_append,
      blocksOf_nil, add_zero]
    calc
      _ = blocks s.pKeys + (blocksOf (s.places.map Place.val) + blocks p'.val)
            + (blocksOf s.lost + blocks old) := by abel
      _ = _ := by rw [← hset]; abel
  · rw [List.length_set]
    exact hlt
  · rcases List.mem_or_eq_of_mem_set hq with hq | rfl
    · exact hs.places q hq
    · exact hp'

/-- **One call** goes right exactly when it is as it should be. -/
theorem add_cases (hs : s.InMemory h) (v : AddVar) :
    ((s.add grants v h).isSome ↔ DataSetCells.Ok grants (s, h) v) ∧
      ∀ s' h', s.add grants v h = some (s', h') → s'.InMemory h' := by
  obtain ⟨s₁, h₁, hgrow, hs₁, hnext, hkey, hsize⟩ := grow_cases grants hs
  rw [DataSetCells.add, bind_apply, hgrow, Option.bind_some, DataSetCells.Ok, hkey, ← hnext]
  by_cases hname : v.name = [] ∨ maxKeyLen < v.name.length
  · rw [if_pos hname]
    refine ⟨iff_of_true rfl fun hno => absurd hname hno, fun s' h' hrun => ?_⟩
    cases hrun
    exact hs₁
  rw [if_neg hname]
  by_cases hroom : s₁.keyNum < s₁.places.length
  · have hp : s₁.places[s₁.keyNum]? = some s₁.places[s₁.keyNum] := List.getElem?_eq_getElem hroom
    have hsize' : s₁.places[s₁.keyNum].valSize = s.placeSize := by
      rw [← hsize hroom, List.getD_eq_getElem?_getD, hp, Option.getD_some]
    rw [hp]
    generalize s₁.places[s₁.keyNum] = p at hp hsize'
    have hmem := List.mem_of_getElem? hp
    obtain ⟨hput, hblocks⟩ := put_cases grants (hs₁.places p hmem) hs₁.ok
      (fun b hb => hs₁.place_live hp hb) v
    dsimp only
    rw [bind_apply, hs₁.touch_pKeys hmem, Option.bind_some, bind_apply]
    rw [hsize'] at hput
    constructor
    · rw [Option.isSome_bind, ← hput]
      cases v.put grants p h₁ with
      | none => exact iff_of_false nofun fun hand => nomatch (hand hname).2
      | some r => exact iff_of_true rfl fun _ => ⟨hroom, rfl⟩
    · intro s' h' hrun
      obtain ⟨⟨⟨p', old⟩, h₂⟩, hsome, hrest⟩ := Option.bind_eq_some_iff.1 hrun
      obtain ⟨hp', hok, hlive⟩ := hblocks p' old h₂ hsome
      cases hrest
      exact hs₁.set hp hp' hok hlive
  · rw [List.getElem?_eq_none (not_lt.1 hroom)]
    exact ⟨iff_of_false nofun fun hand => hroom (hand hname).1, nofun⟩

theorem spec_dataSetPlaces (n : ℕ) (own : Multiset ℕ) :
    Spec own (dataSetPlaces grants n) fun places own' =>
      own' = blocksOf (places.map Place.val) + own ∧ ∀ p ∈ places, p.Ok := by
  induction n generalizing own with
  | zero => exact Spec.pure ⟨by simp, by simp⟩
  | succ n ih =>
    refine (spec_malloc grants).bind fun val own₁ h => ?_
    subst h
    by_cases hval : val = none
    · rw [if_pos hval]
      refine Spec.pure ⟨by simp [hval, Place.zero], fun p hp => ?_⟩
      rw [List.eq_of_mem_replicate hp]
      exact ok_zero
    · rw [if_neg hval]
      refine (ih (blocks val + own)).bind fun places own₂ h => Spec.pure ⟨?_, ?_⟩
      · rw [h.1, List.map_cons, blocksOf_cons]
        abel
      · rintro p (_ | ⟨_, hp⟩)
        · exact fun hnone => absurd hnone hval
        · exact h.2 p hp

/-- A new data set, also one for which there was not enough memory. -/
theorem dataSetInitBlocks_inMemory (grants : ℕ → Bool) (keySize : ℕ) :
    ∃ s h, dataSetInitBlocks grants keySize .empty = some (s, h) ∧ s.InMemory h := by
  have hspec : Spec 0 (dataSetInitBlocks grants keySize) fun s own' =>
      own' = blocksOf s.ptrs ∧ s.keyNum = 0 ∧ (s.places ≠ [] → s.pKeys ≠ none) ∧
        ∀ p ∈ s.places, p.Ok := by
    refine (spec_malloc grants).bind fun pKeys own₁ h => ?_
    subst h
    by_cases hkeys : pKeys = none
    · rw [if_pos hkeys]
      exact Spec.pure ⟨by simp [hkeys, DataSetCells.ptrs], rfl, nofun, nofun⟩
    · rw [if_neg hkeys]
      refine (spec_dataSetPlaces keySize _).bind fun places own₂ h =>
        Spec.pure ⟨?_, rfl, fun _ => hkeys, h.2⟩
      rw [h.1, DataSetCells.ptrs, List.append_nil, blocksOf_cons, add_zero, add_comm]
  obtain ⟨s, own', h, hrun, hlater, hlive, rfl, hnum, hkeys, hplaces⟩ :=
    hspec 0 .empty Heap.ok_empty rfl
  rw [add_zero] at hlive
  exact ⟨s, h, hrun, hlater.ok, hlive, by rw [hnum]; exact Nat.zero_le _, hkeys, hplaces⟩

/-- What `data_set_destroy` leaves: the places that have been replaced. -/
theorem dataSetDestroy_live (hs : s.InMemory h) :
    ∃ h', dataSetDestroy s h = some ((), h') ∧ h'.live = blocksOf s.lost := by
  have hspec : Spec (blocksOf s.ptrs) (dataSetDestroy s) fun _ own' => own' = blocksOf s.lost := by
    by_cases hkeys : s.pKeys = none
    · have hnil : s.places = [] := by
        by_contra hne
        exact hs.pKeys hne hkeys
      rw [dataSetDestroy, if_pos hkeys]
      exact Spec.pure (by simp [DataSetCells.ptrs, hkeys, hnil])
    · obtain ⟨b, hb⟩ := Option.ne_none_iff_exists'.1 hkeys
      have hptrs : blocksOf s.ptrs =
          blocksOf (s.places.map Place.val) + (blocks s.pKeys + blocksOf s.lost) := by
        rw [DataSetCells.ptrs, List.cons_append, blocksOf_cons, blocksOf_append]
        abel
      rw [dataSetDestroy, if_neg hkeys]
      refine (spec_touch hb (by simp [DataSetCells.ptrs, hb])).bind fun _ own₁ h => ?_
      rw [h, hptrs]
      refine (spec_freeAll _).bind fun _ own₂ h => ?_
      rw [h]
      exact spec_free s.pKeys
  obtain ⟨_, own', h', hrun, -, hlive, rfl⟩ := hspec 0 h hs.ok (by rw [hs.live, add_zero])
  exact ⟨h', hrun, by rw [hlive, add_zero]⟩

/-- A call on a data set in memory. -/
def dataSetCellsStep (grants : ℕ → Bool) (c : DataSetCells × Heap) (v : AddVar) :
    Option (DataSetCells × Heap) := c.1.add grants v c.2

/-- **The memory of a data set** in every sequence of calls, whichever requests for memory fail: no
byte is written outside of a block or to one that is gone exactly when each call is as it should be;
and then the places that have been replaced are all that is left behind the data set, and no block is
freed twice. -/
theorem data_set_memory_iff (grants : ℕ → Bool) (keySize : ℕ) (calls : List AddVar) :
    ∃ s h, dataSetInitBlocks grants keySize .empty = some (s, h) ∧
      ((Lts.run (dataSetCellsStep grants) (s, h) calls).isSome ↔
        Lts.Meets (dataSetCellsStep grants) (DataSetCells.Ok grants) (s, h) calls) ∧
      ∀ s' h', Lts.run (dataSetCellsStep grants) (s, h) calls = some (s', h') →
        ∃ h'', dataSetDestroy s' h' = some ((), h'') ∧ h''.live = blocksOf s'.lost := by
  obtain ⟨s, h, hinit, hs⟩ := dataSetInitBlocks_inMemory grants keySize
  have hgood : ∀ c v c', c.1.InMemory c.2 → dataSetCellsStep grants c v = some c' →
      c'.1.InMemory c'.2 := fun c v c' hc hstep => (add_cases hc v).2 c'.1 c'.2 hstep
  have hok : ∀ c v, c.1.InMemory c.2 →
      ((dataSetCellsStep grants c v).isSome ↔ DataSetCells.Ok grants c v) :=
    fun c v hc => (add_cases hc v).1
  refine ⟨s, h, hinit, Lts.isSome_run_iff hok hgood hs calls, fun s' h' hrun => ?_⟩
  have hs' : s'.InMemory h' :=
    Lts.run_invariant (I := fun c : DataSetCells × Heap => c.1.InMemory c.2)
      (fun c v c' hc hstep => hgood c v c' hc hstep) hs hrun
  exact dataSetDestroy_live hs'

end F1Goal
