import F1Goal.DataField
import F1Goal.Lib.Lts

/-!
# Field lists that grow (`data_field_add_item`)

A full array of items is copied to a longer one, whose four new items nothing clears, and the call
goes on to read the size of the first of these. So the items are as `data_field_init` has cleared
them, and are the strings added, exactly as long as there are no more strings than items at first
(`adds_right_iff`).
-/

namespace F1Goal

open Block CString

/-- A call of `data_field_add_item` for the string `s` at `pb`, with allocations that succeed. -/
structure AddCall where
  heap : ItemHeap
  mem : ℤ → Option UInt8
  pb : ℤ
  s : List UInt8
  holds : Holds mem pb s
  data_ok : ∀ i, (heap.data i).isSome
  array_ok : ∀ i, (heap.array i).isSome

/-- What the call does to these fields. -/
def AddCall.result (c : AddCall) (obj : DataField) : Option (Code × DataField) :=
  dataFieldAddItem c.heap obj c.mem c.pb (c.pb + c.s.length)

/-- The fields in a run of calls, with which slots of the array have been cleared since their
allocation, and the strings of the calls that have returned `F1G_OK`. -/
structure FieldRun where
  obj : DataField
  ready : List Bool
  added : List (List UInt8)

/-- New fields: `data_field_init` clears the whole array. -/
def FieldRun.init (obj : DataField) : FieldRun :=
  { obj := obj, ready := List.replicate obj.pItems.length true, added := [] }

/-- The slots when the call reads one: a full array has been replaced by one that is longer by
four. -/
def FieldRun.grown (r : FieldRun) : List Bool :=
  if r.obj.itemNum < r.obj.itemSize then r.ready
  else r.ready.take r.obj.itemSize.toNat ++ List.replicate 4 false

/-- The slot that the call reads has been initialised. -/
def FieldRun.SlotReady (r : FieldRun) : Prop := r.grown[r.obj.itemNum.toNat]? = some true

/-- The run after a call, if the call has a result. -/
def FieldRun.step (r : FieldRun) (c : AddCall) : Option FieldRun :=
  (c.result r.obj).map fun result =>
    { obj := result.2, ready := r.grown
      added := if result.1 = .ok then r.added ++ [c.s] else r.added }

/-- **The call is right**: the slot that it reads has been initialised, it has a result, and when it
returns `F1G_OK` the items are the strings added. -/
structure FieldRun.AddsRight (r : FieldRun) (c : AddCall) : Prop where
  slot : r.SlotReady
  result : (c.result r.obj).isSome
  strings : ∀ obj', c.result r.obj = some (.ok, obj') → obj'.HasStrings (r.added ++ [c.s])

/-- The fields hold the strings added, in an array of `n` slots that all have been cleared. -/
structure FieldRun.InOrder (n : ℕ) (r : FieldRun) : Prop where
  ok : r.obj.Ok
  size : r.obj.itemSize = n
  strings : r.obj.HasStrings r.added
  ready : r.ready = List.replicate n true

variable {n : ℕ} {r : FieldRun}

/-- A string more in a slot that is free. -/
theorem FieldRun.InOrder.push (h : r.InOrder n) (hroom : r.added.length < n) {item : DataItem}
    {s : List UInt8} (hitem : item.Ok) (hden : item.Denotes s) :
    FieldRun.InOrder n { obj := r.obj.push item, ready := r.ready, added := r.added ++ [s] } := by
  obtain ⟨hnum, hitems⟩ := h.strings
  have hfree : r.obj.itemNum < r.obj.itemSize := by
    rw [hnum, h.size]
    exact_mod_cast hroom
  refine ⟨h.ok.push hfree hitem, h.size, ⟨?_, fun k t hk => ?_⟩, h.ready⟩
  · rw [List.length_append, List.length_singleton]
    exact congrArg (· + 1) hnum
  · rcases lt_trichotomy k r.added.length with hlt | rfl | hgt
    · rw [List.getElem?_append_left hlt] at hk
      obtain ⟨old, hold, hden'⟩ := hitems k t hk
      exact ⟨old, (DataField.push_of_lt (by omega) item).trans hold, hden'⟩
    · rw [List.getElem?_concat_length] at hk
      cases hk
      have hself := h.ok.push_self hfree item
      rw [hnum, Int.toNat_natCast] at hself
      exact ⟨item, hself, hden⟩
    · rw [List.getElem?_eq_none (by rw [List.length_append, List.length_singleton]; omega)] at hk
      cases hk

/-- The slot that a call reads has been cleared exactly when the array is not full. -/
theorem FieldRun.InOrder.slotReady_iff (h : r.InOrder n) : r.SlotReady ↔ r.added.length < n := by
  have hnum := h.strings.1
  have hle := h.ok.num_le
  have hsize := h.size
  rw [FieldRun.SlotReady, FieldRun.grown, h.ready]
  split_ifs with hroom
  · refine iff_of_true ?_ (by omega)
    rw [List.getElem?_replicate, if_pos (by omega)]
  · have hfull : r.obj.itemNum.toNat = n := by omega
    refine iff_of_false ?_ (by omega)
    rw [hsize, Int.toNat_natCast, List.take_of_length_le (by simp), hfull,
      List.getElem?_append_right (by simp)]
    simp

/-- A string that fits is added to an array that is not full. -/
theorem FieldRun.InOrder.result (h : r.InOrder n) {c : AddCall} (hroom : r.added.length < n)
    (hlen : c.s.length + 2 < 2 ^ 31) :
    ∃ item, c.result r.obj = some (.ok, r.obj.push item) ∧ item.Ok ∧ item.Denotes c.s := by
  have hnum := h.strings.1
  have hsize := h.size
  exact addItem_text h.ok (by omega) (c.data_ok _) c.holds (by exact_mod_cast hlen)

/-- **One call**: it is right exactly when the array is not full, and the length of the string and
two bytes more fit an `i32_t`. -/
theorem FieldRun.InOrder.addsRight_iff (h : r.InOrder n) (c : AddCall) :
    r.AddsRight c ↔ r.added.length < n ∧ c.s.length + 2 < 2 ^ 31 := by
  constructor
  · intro hright
    have hroom := h.slotReady_iff.1 hright.slot
    refine ⟨hroom, not_le.1 fun hlong => ?_⟩
    have hnum := h.strings.1
    have hsize := h.size
    have hnone : c.result r.obj = none :=
      addItem_eq_none h.ok (by omega) (c.data_ok _) (.inr (by omega))
    have hresult := hright.result
    rw [hnone] at hresult
    cases hresult
  · rintro ⟨hroom, hlen⟩
    obtain ⟨item, hresult, hitem, hden⟩ := h.result hroom hlen
    refine ⟨h.slotReady_iff.2 hroom, by rw [hresult]; rfl, fun obj' hobj => ?_⟩
    rw [hresult] at hobj
    cases hobj
    exact (h.push hroom hitem hden).strings

/-- A call that is right leaves the string behind those from before. -/
theorem FieldRun.InOrder.step (h : r.InOrder n) {c : AddCall} (hroom : r.added.length < n)
    (hlen : c.s.length + 2 < 2 ^ 31) :
    ∃ r', r.step c = some r' ∧ r'.InOrder n ∧ r'.added = r.added ++ [c.s] := by
  obtain ⟨item, hresult, hitem, hden⟩ := h.result hroom hlen
  have hgrown : r.grown = r.ready := by
    have hnum := h.strings.1
    have hsize := h.size
    exact if_pos (by omega)
  refine ⟨_, ?_, h.push hroom hitem hden, rfl⟩
  rw [FieldRun.step, hresult, hgrown]
  rfl

/-- **A run of calls** is right when there is a slot for each of its strings, and all of them
fit. -/
theorem FieldRun.InOrder.meets_iff (h : r.InOrder n) (calls : List AddCall) :
    Lts.Meets FieldRun.step FieldRun.AddsRight r calls ↔
      r.added.length + calls.length ≤ n ∧ ∀ c ∈ calls, c.s.length + 2 < 2 ^ 31 := by
  induction calls generalizing r with
  | nil =>
    have hnum := h.strings.1
    have hle := h.ok.num_le
    have hsize := h.size
    exact iff_of_true trivial ⟨by rw [List.length_nil]; omega, by simp⟩
  | cons c calls ih =>
    rw [Lts.meets_cons, h.addsRight_iff c, List.forall_mem_cons, List.length_cons]
    constructor
    · rintro ⟨⟨hroom, hlen⟩, hrest⟩
      obtain ⟨r', hstep, hnext, hadded⟩ := h.step hroom hlen
      obtain ⟨hle, hlens⟩ := (ih hnext).1 (hrest r' hstep)
      rw [hadded, List.length_append, List.length_singleton] at hle
      exact ⟨by omega, hlen, hlens⟩
    · rintro ⟨hle, hlen, hlens⟩
      have hroom : r.added.length < n := by omega
      obtain ⟨r', hstep, hnext, hadded⟩ := h.step hroom hlen
      refine ⟨⟨hroom, hlen⟩, fun t ht => ?_⟩
      obtain rfl : r' = t := Option.some.inj (hstep.symm.trans ht)
      refine (ih hnext).2 ⟨?_, hlens⟩
      rw [hadded, List.length_append, List.length_singleton]
      omega

theorem dataFieldInit_itemSize {heap : ItemHeap} {itemSize itemBufSize : ℤ} {obj : DataField}
    (h : dataFieldInit heap itemSize itemBufSize = some obj) : obj.itemSize = itemSize := by
  rw [dataFieldInit] at h
  split_ifs at h
  · cases h
    rfl
  · obtain ⟨items, -, rfl⟩ := Option.map_eq_some_iff.1 h
    rfl

theorem FieldRun.inOrder_init {obj : DataField} (h : obj.Ok) (hnum : obj.itemNum = 0) :
    (FieldRun.init obj).InOrder obj.itemSize.toNat := by
  have hle := h.num_le
  have hsize := h.size
  refine ⟨h, by change obj.itemSize = _; omega, ⟨hnum, by simp [FieldRun.init]⟩, ?_⟩
  rw [FieldRun.init, hsize, Int.toNat_natCast]

/-- **When field lists grow without loss**: there are no more strings than the fields have items at
first, and none is so long that its length and two bytes more leave the range of an `i32_t`. -/
theorem adds_right_iff {heap : ItemHeap} {itemSize itemBufSize : ℤ} {obj : DataField}
    (hsize : itemSize ≤ 127) (hbuf : itemBufSize < 2 ^ 31)
    (hinit : dataFieldInit heap itemSize itemBufSize = some obj) (calls : List AddCall) :
    Lts.Meets FieldRun.step FieldRun.AddsRight (.init obj) calls ↔
      (calls.length : ℤ) ≤ itemSize ∧ ∀ c ∈ calls, c.s.length + 2 < 2 ^ 31 := by
  obtain ⟨hok, hnum⟩ := dataFieldInit_ok hsize hbuf hinit
  rw [(FieldRun.inOrder_init hok hnum).meets_iff, dataFieldInit_itemSize hinit]
  have hle := hok.num_le
  rw [dataFieldInit_itemSize hinit] at hle
  refine and_congr_left' ?_
  rw [show (FieldRun.init obj).added.length = 0 from rfl]
  omega

/-- Allocations that succeed: blocks of sevens, and arrays of items that are wild. -/
def fullHeap : ItemHeap := ⟨fun _ => some fun _ => 7, fun _ => some fun _ => ⟨0, 0, .wild⟩⟩

theorem fullHeap_data (i : ℕ) : (fullHeap.data i).isSome := rfl

theorem fullHeap_array (i : ℕ) : (fullHeap.array i).isSome := rfl

/-- The call for a string that stands alone in memory. -/
def AddCall.ofString (s : List UInt8) : AddCall :=
  ⟨fullHeap, ofList s, 0, s, holds_ofList_self s, fun _ => rfl, fun _ => rfl⟩

/-- Two strings in fields of two items. -/
theorem adds_right_iff_two : ∃ obj, dataFieldInit fullHeap 2 0 = some obj ∧
    (Lts.Meets FieldRun.step FieldRun.AddsRight (.init obj)
        [.ofString (ascii "a"), .ofString (ascii "b")] ↔
      (([AddCall.ofString (ascii "a"), .ofString (ascii "b")].length : ℕ) : ℤ) ≤ 2 ∧
        ∀ c ∈ [AddCall.ofString (ascii "a"), .ofString (ascii "b")], c.s.length + 2 < 2 ^ 31) := by
  have hinit : dataFieldInit fullHeap 2 0 = some ⟨2, 0, List.replicate 2 .zero⟩ := rfl
  exact ⟨_, hinit, adds_right_iff (by norm_num) (by norm_num) hinit _⟩

/-- Two strings in fields of one item: the second call reads an item that nothing has cleared, and
frees what it finds there. -/
theorem second_item_not_ready : ∃ obj, dataFieldInit fullHeap 1 0 = some obj ∧
    ¬Lts.Meets FieldRun.step FieldRun.AddsRight (.init obj)
      [.ofString (ascii "a"), .ofString (ascii "b")] := by
  refine ⟨_, rfl, fun h => ?_⟩
  obtain ⟨hok, hnum⟩ := dataFieldInit_ok (show (1 : ℤ) ≤ 127 by norm_num)
    (show (0 : ℤ) < 2 ^ 31 by norm_num) (show dataFieldInit fullHeap 1 0 = some _ from rfl)
  have hle := ((FieldRun.inOrder_init hok hnum).meets_iff _).1 h
  exact absurd hle.1 (by decide)

end F1Goal
