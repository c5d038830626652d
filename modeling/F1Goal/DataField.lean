import F1Goal.BasicFuncs
import F1Goal.BasicTypes

/-!
# Splitting a line into fields (`f1g_data_op.c`)

`data_field_read_buf` looks for one separator after the other and copies what stands before each
into an item of its own. Memory is given by its addresses, and `NULL` is 0; an access outside of a
block has no result. What `malloc` returns is a parameter. `splits_iff` says which lines are split.
-/

namespace F1Goal

open Block CString

/-- `data`: `NULL`, a block with its room and its contents, or what an array that was not cleared
holds. -/
inductive ItemData
  | null
  | block (room : ℤ) (mem : ℤ → UInt8)
  | wild

/-- `data_item_t` -/
structure DataItem where
  size : ℤ
  len : ℤ
  data : ItemData

/-- An item that is all zeros. -/
def DataItem.zero : DataItem := ⟨0, 0, .null⟩

/-- `data_field_t`; `pItems` is the array with the room that it has. -/
structure DataField where
  itemSize : ℤ
  itemNum : ℤ
  pItems : List DataItem

/-- What `malloc` returns for the data of an item, and for a longer array when there are so many
items. -/
structure ItemHeap where
  data : ℕ → Malloc
  array : ℕ → Option (ℕ → DataItem)

/-- The value of an `i8_t` after an overflow. -/
def i8 (n : ℤ) : ℤ := n.bmod (2 ^ 8)

theorem i8_of_range {n : ℤ} (h1 : -2 ^ 7 ≤ n) (h2 : n < 2 ^ 7) : i8 n = n := by
  unfold i8
  exact Int.bmod_eq_of_le (by omega) (by omega)

theorem i8_lt (n : ℤ) : i8 n < 2 ^ 7 := by
  have h := Int.bmod_lt (x := n) (m := 2 ^ 8) (by norm_num)
  unfold i8
  omega

/-- `p_items[seq]` -/
def DataField.item (obj : DataField) (seq : ℤ) : Option DataItem :=
  if seq < 0 then none else obj.pItems[seq.toNat]?

/-- `p_items[seq] = item` -/
def DataField.setItem (obj : DataField) (seq : ℤ) (item : DataItem) : DataField :=
  { obj with pItems := obj.pItems.set seq.toNat item }

/-- The loop of `data_field_init`, with the items that have their data. -/
def initItems (heap : ItemHeap) (itemBufSize : ℤ) : ℕ → Option (List DataItem)
  | 0 => some []
  | n + 1 => do
    let items ← initItems heap itemBufSize n
    let mem ← heap.data n
    some (items ++ [⟨itemBufSize, 0, .block itemBufSize mem⟩])

/-- `data_field_init`; `none` is `F1G_ERR`. No array has a negative length. -/
def dataFieldInit (heap : ItemHeap) (itemSize itemBufSize : ℤ) : Option DataField :=
  if itemSize < 0 ∨ heap.array 0 = none then none
  else if itemBufSize ≤ 0 then
    some ⟨itemSize, 0, List.replicate itemSize.toNat .zero⟩
  else (initItems heap itemBufSize itemSize.toNat).map fun items => ⟨itemSize, 0, items⟩

/-- `data_field_set_item_size` -/
def dataFieldSetItemSize (heap : ItemHeap) (obj : DataField) (seq itemBufSize : ℤ) :
    Option (Code × DataField) :=
  if obj.itemSize ≤ seq then some (.err, obj)
  else
    match obj.item seq with
    | none => none
    | some ⟨_, _, .wild⟩ => none
    | some _ =>
      if itemBufSize ≤ 0 then some (.ok, obj.setItem seq .zero)
      else
        match heap.data seq.toNat with
        | none => some (.err, obj.setItem seq .zero)
        | some mem =>
          let mem := Mem.store mem 0 (List.replicate itemBufSize.toNat 0)
          some (.ok, obj.setItem seq ⟨itemBufSize, 0, .block itemBufSize mem⟩)

/-- Clear an item: its text is empty. -/
def DataItem.clean (item : DataItem) : Option DataItem :=
  match item.data with
  | .null => some { item with len := 0 }
  | .block room mem =>
    if 0 < room then some { item with len := 0, data := .block room (Mem.store mem 0 [0]) }
    else none
  | .wild => none

/-- The loop of `data_field_clean_items` over the first items. -/
def cleanItems : ℕ → List DataItem → Option (List DataItem)
  | 0, items => some items
  | _ + 1, [] => none
  | n + 1, item :: items => do
    let item ← item.clean
    let items ← cleanItems n items
    some (item :: items)

/-- `data_field_clean_items` -/
def dataFieldCleanItems (obj : DataField) : Option DataField :=
  (cleanItems obj.itemNum.toNat obj.pItems).map fun items =>
    { obj with itemNum := 0, pItems := items }

/-- Make the array longer when it is full. The items behind the old ones are not cleared. -/
def growItems (heap : ItemHeap) (obj : DataField) : Option (Code × DataField) :=
  if obj.itemNum < obj.itemSize then some (.ok, obj)
  else
    let newItemSize := obj.itemSize + 4
    if newItemSize < 0 then some (.err, obj)
    else
      match heap.array obj.itemNum.toNat with
      | none => some (.err, obj)
      | some cells =>
        if obj.itemSize < 0 then none
        else
          let old := obj.pItems.take obj.itemSize.toNat
          some (.ok, { obj with
            itemSize := i8 newItemSize
            pItems := old ++ (List.range 4).map cells })

/-- `memcpy(data, pb, n); data[n] = '\0'; len = n` -/
def DataItem.copy (item : DataItem) (mem : ℤ → Option UInt8) (pb n : ℤ) : Option DataItem :=
  if n < 0 then none
  else do
    let bs ← Block.read mem pb n.toNat
    match item.data with
    | .block room m =>
      if n + 1 ≤ room then
        some { item with len := i32 n, data := .block room (Mem.store m 0 (bs ++ [0])) }
      else none
    | _ => none

/-- Make the buffer of the next item larger when a text of length `n` does not fit. -/
def itemRoom (heap : ItemHeap) (obj : DataField) (n : ℤ) : Option (Code × DataField) := do
  let item ← obj.item obj.itemNum
  if item.size ≤ n + 1 then dataFieldSetItemSize heap obj obj.itemNum (i32 (n + 1 + 1))
  else some (.ok, obj)

/-- The next item is the text of length `n` at `pb`. -/
def copyItem (obj : DataField) (mem : ℤ → Option UInt8) (pb n : ℤ) : Option DataField := do
  let item ← obj.item obj.itemNum
  let item ← item.copy mem pb n
  some { obj.setItem obj.itemNum item with itemNum := i8 (obj.itemNum + 1) }

/-- `data_field_add_item` -/
def dataFieldAddItem (heap : ItemHeap) (obj : DataField) (mem : ℤ → Option UInt8) (pb pe : ℤ) :
    Option (Code × DataField) :=
  match growItems heap obj with
  | none => none
  | some (.err, obj) => some (.err, obj)
  | some (.ok, obj) =>
    match itemRoom heap obj (pe - pb) with
    | none => none
    | some (.err, obj) => some (.err, obj)
    | some (.ok, obj) => (copyItem obj mem pb (pe - pb)).map fun obj => (.ok, obj)

/-- The loop of `data_field_read_buf`, with a bound on its turns. -/
def readFields (heap : ItemHeap) (mem : ℤ → Option UInt8) (pbufEnd : ℤ) (sep : List UInt8) :
    ℕ → DataField → ℤ → Option (Code × DataField)
  | 0, _, _ => none
  | turns + 1, obj, pb =>
    if pb = pbufEnd then some (.ok, obj)
    else
      match findStr mem pb pbufEnd sep with
      | none => none
      | some loc =>
        let pe := loc.getD 0
        match dataFieldAddItem heap obj mem pb pe with
        | none => none
        | some (.err, obj) => some (.err, obj)
        | some (.ok, obj) =>
          readFields heap mem pbufEnd sep turns obj
            (if pe = pbufEnd then pbufEnd else pe + sep.length)

/-- `data_field_read_buf`. A separator that is not empty is passed in each turn. -/
def dataFieldReadBuf (heap : ItemHeap) (obj : DataField) (mem : ℤ → Option UInt8)
    (pbuf pbufEnd : ℤ) (sep : List UInt8) : Option (Code × DataField) :=
  readFields heap mem pbufEnd sep ((pbufEnd - pbuf).toNat + 1) obj pbuf

/-- The string at `data`, when it ends in the block. -/
def DataItem.str (item : DataItem) : Option (List UInt8) :=
  match item.data with
  | .block room mem => stringIn mem room.toNat
  | _ => none

/-- `data_field_get_i32` -/
def dataFieldGetI32 (obj : DataField) (seq : ℤ) (base : ℕ) : Option ℤ :=
  if obj.itemNum ≤ seq then some (-1)
  else do
    let item ← obj.item seq
    let s ← item.str
    some (i32 (strtol base s).1)

/-- `data_field_copy_str`: what it writes to `buf`, or nothing when there is no such item. -/
def dataFieldCopyStr (obj : DataField) (seq bufSize : ℤ) : Option (Option (List UInt8)) :=
  if obj.itemNum ≤ seq then some none
  else do
    let item ← obj.item seq
    let len := if bufSize < item.len then bufSize else item.len
    match item.data with
    | .block room mem =>
      if 0 ≤ len ∧ len ≤ room then some (some (Mem.slice mem 0 len.toNat ++ [0])) else none
    | _ => none

/-! ### Items -/

/-- The size of an item is that of its block, and no block is empty. -/
def DataItem.Ok (item : DataItem) : Prop :=
  item.size < 2 ^ 31 ∧
    match item.data with
    | .null => item.size = 0
    | .block room _ => item.size = room ∧ 0 < room
    | .wild => False

/-- **The item is a text**, with its length and a zero behind it. -/
def DataItem.Denotes (item : DataItem) (s : List UInt8) : Prop :=
  item.len = s.length ∧ ∃ room m, item.data = .block room m ∧ s.length + 1 ≤ room ∧
    Mem.slice m 0 (s.length + 1) = s ++ [0]

theorem DataItem.zero_ok : zero.Ok := ⟨by norm_num [zero], rfl⟩

/-- Nothing is copied to an item that is too small, and nothing of a negative length. -/
theorem DataItem.copy_eq_none {item : DataItem} (h : item.Ok) {mem : ℤ → Option UInt8} {pb n : ℤ}
    (hn : n < 0 ∨ item.size < n + 1) : item.copy mem pb n = none := by
  rw [copy]
  split_ifs with hneg
  · rfl
  · have hsize := hn.resolve_left hneg
    cases Block.read mem pb n.toNat with
    | none => rfl
    | some bs =>
      obtain ⟨-, h⟩ := h
      rw [Option.bind_eq_bind, Option.bind_some]
      split
      · rename_i room m hdata
        rw [hdata] at h
        exact if_neg (by omega)
      · rfl

/-- **A text that fits** is copied. -/
theorem DataItem.copy_spec {item : DataItem} (h : item.Ok) {mem : ℤ → Option UInt8} {pb : ℤ}
    {s : List UInt8} (hs : Holds mem pb s) (hsize : s.length + 1 ≤ item.size) :
    ∃ item', item.copy mem pb s.length = some item' ∧ item'.Denotes s := by
  obtain ⟨hlt, h⟩ := h
  cases hdata : item.data with
  | null =>
    rw [hdata] at h
    omega
  | wild =>
    rw [hdata] at h
    exact h.elim
  | block room m =>
    rw [hdata] at h
    have hroom : (s.length : ℤ) + 1 ≤ room := by omega
    refine ⟨⟨item.size, i32 s.length, .block room (Mem.store m 0 (s ++ [0]))⟩, ?_, ?_⟩
    · rw [copy, if_neg (by omega), Int.toNat_natCast, read_holds hs, Option.bind_eq_bind,
        Option.bind_some, hdata]
      exact if_pos hroom
    · have hcopied := Mem.slice_store_self m 0 (s ++ [0])
      rw [List.length_append, List.length_singleton] at hcopied
      have hlen : i32 s.length = s.length := i32_of_range (by omega) (by omega)
      rw [hlen]
      exact ⟨rfl, room, _, rfl, hroom, hcopied⟩

/-- What is copied leaves an item in order. -/
theorem DataItem.copy_ok {item item' : DataItem} (h : item.Ok) {mem : ℤ → Option UInt8} {pb n : ℤ}
    (hcopy : item.copy mem pb n = some item') : item'.Ok := by
  rw [copy] at hcopy
  split_ifs at hcopy
  obtain ⟨bs, -, hcopy⟩ := Option.bind_eq_some_iff.1 hcopy
  obtain ⟨hlt, h⟩ := h
  split at hcopy
  · rename_i room m hdata
    rw [hdata] at h
    split_ifs at hcopy
    cases hcopy
    exact ⟨hlt, h⟩
  · cases hcopy

/-- The items are the strings, in their order, and `item_num` is their number. -/
def DataField.HasStrings (obj : DataField) (strings : List (List UInt8)) : Prop :=
  obj.itemNum = strings.length ∧
    ∀ (k : ℕ) s, strings[k]? = some s → ∃ item, obj.pItems[k]? = some item ∧ item.Denotes s

theorem DataItem.Denotes.str {item : DataItem} {s : List UInt8} (h : item.Denotes s) :
    item.str = some (cstr s) := by
  obtain ⟨-, room, m, hdata, hroom, hslice⟩ := h
  obtain ⟨k, hk⟩ := Int.eq_ofNat_of_zero_le (sub_nonneg.2 hroom)
  have hlen : room.toNat = s.length + 1 + k := by omega
  rw [DataItem.str, hdata]
  change stringIn m room.toNat = some (cstr s)
  rw [stringIn, hlen, Mem.slice_add, hslice, if_pos (by simp), List.append_assoc,
    List.singleton_append, cstr_append_zero]

/-- The number in a field. -/
theorem DataField.HasStrings.getI32 {obj : DataField} {fs : List (List UInt8)}
    (h : obj.HasStrings fs) (k base : ℕ) : dataFieldGetI32 obj k base =
      some (fs[k]?.elim (-1) fun s => i32 (strtol base (cstr s)).1) := by
  obtain ⟨hnum, hitems⟩ := h
  rw [dataFieldGetI32, hnum]
  cases hget : fs[k]? with
  | none =>
    rw [List.getElem?_eq_none_iff] at hget
    exact if_pos (by omega)
  | some s =>
    obtain ⟨hlt, -⟩ := List.getElem?_eq_some_iff.1 hget
    obtain ⟨item, hitem, hden⟩ := hitems k s hget
    rw [if_neg (by omega), DataField.item, if_neg (by omega), Int.toNat_natCast, hitem]
    simp only [Option.bind_eq_bind, Option.bind_some, hden.str, Option.elim_some]

/-- The text of a field, cut off when it is too long. -/
theorem DataField.HasStrings.copyStr {obj : DataField} {fs : List (List UInt8)}
    (h : obj.HasStrings fs) (k size : ℕ) : dataFieldCopyStr obj k size =
      some (fs[k]?.map fun s => s.take size ++ [0]) := by
  obtain ⟨hnum, hitems⟩ := h
  rw [dataFieldCopyStr, hnum]
  cases hget : fs[k]? with
  | none =>
    rw [List.getElem?_eq_none_iff] at hget
    exact if_pos (by omega)
  | some s =>
    obtain ⟨hlt, -⟩ := List.getElem?_eq_some_iff.1 hget
    obtain ⟨item, hitem, hlen, room, m, hdata, hroom, hslice⟩ := hitems k s hget
    rw [if_neg (by omega), DataField.item, if_neg (by omega), Int.toNat_natCast, hitem,
      Option.bind_eq_bind, Option.bind_some, hlen, hdata]
    have hmin : (if (size : ℤ) < s.length then (size : ℤ) else s.length) =
        (min size s.length : ℕ) := by
      split_ifs <;> omega
    dsimp only
    have htext : Mem.slice m 0 (min size s.length) = s.take size := by
      have htake := Mem.take_slice m 0 (Nat.le_succ_of_le (Nat.min_le_right size s.length))
      rw [Nat.succ_eq_add_one, hslice,
        List.take_append_of_le_length (Nat.min_le_right _ _)] at htake
      rw [← htake, List.take_eq_take_iff]
      simp
    rw [hmin, if_pos (by omega), Int.toNat_natCast, Option.map_some, htext]

/-! ### Adding an item -/

/-- **The fields are in order**: the array has the room that it is said to have, and so have the
items. -/
structure DataField.Ok (obj : DataField) : Prop where
  size : obj.itemSize = obj.pItems.length
  size_le : obj.itemSize ≤ 127
  num_nonneg : 0 ≤ obj.itemNum
  num_le : obj.itemNum ≤ obj.itemSize
  items : ∀ item ∈ obj.pItems, item.Ok

theorem DataField.Ok.setItem {obj : DataField} (h : obj.Ok) (seq : ℤ) {item : DataItem}
    (hitem : item.Ok) : (obj.setItem seq item).Ok where
  size := by simp [DataField.setItem, h.size]
  size_le := h.size_le
  num_nonneg := h.num_nonneg
  num_le := h.num_le
  items := fun x hx => (List.mem_or_eq_of_mem_set hx).elim (h.items x) fun heq => heq ▸ hitem

/-- The next item, when there is room for it. -/
theorem DataField.Ok.next {obj : DataField} (h : obj.Ok) (hroom : obj.itemNum < obj.itemSize) :
    ∃ item, obj.item obj.itemNum = some item ∧ item.Ok := by
  have hnum := h.num_nonneg
  have hsize := h.size
  have hlt : obj.itemNum.toNat < obj.pItems.length := by omega
  refine ⟨obj.pItems[obj.itemNum.toNat], ?_, h.items _ (List.getElem_mem hlt)⟩
  rw [item, if_neg (by omega), List.getElem?_eq_getElem hlt]

theorem DataField.item_setItem {obj : DataField} (h : obj.Ok) (hroom : obj.itemNum < obj.itemSize)
    (item : DataItem) : (obj.setItem obj.itemNum item).item obj.itemNum = some item := by
  have hnum := h.num_nonneg
  have hsize := h.size
  have hlt : obj.itemNum.toNat < obj.pItems.length := by omega
  rw [DataField.item, if_neg (by omega), setItem, List.getElem?_set_self hlt]

/-- An overflow makes a length smaller than what it is the length of. -/
theorem i32_lt_of_overflow {n : ℤ} (h : 2 ^ 31 ≤ n + 2) : i32 (n + 1 + 1) < n + 1 := by
  have hlt := i32_lt (n + 1 + 1)
  have hmod := i32_emod (n + 1 + 1)
  omega

theorem setItemSize_eq (heap : ItemHeap) {obj : DataField} {seq : ℤ} {item : DataItem}
    (hseq : seq < obj.itemSize) (hitem : obj.item seq = some item) (hok : item.Ok) (n : ℤ) :
    dataFieldSetItemSize heap obj seq n =
      if n ≤ 0 then some (.ok, obj.setItem seq .zero)
      else
        match heap.data seq.toNat with
        | none => some (.err, obj.setItem seq .zero)
        | some mem => some (.ok, obj.setItem seq
            ⟨n, 0, .block n (Mem.store mem 0 (List.replicate n.toNat 0))⟩) := by
  rw [dataFieldSetItemSize, if_neg (by omega), hitem]
  obtain ⟨size, len, data⟩ := item
  cases data with
  | wild => exact hok.2.elim
  | null => rfl
  | block room m => rfl

/-- **What room is made**: the next item is replaced by one that is in order; where `malloc` returns
a block, the text fits, unless its length overflows. -/
theorem itemRoom_spec (heap : ItemHeap) {obj : DataField} (h : obj.Ok)
    (hroom : obj.itemNum < obj.itemSize) (n : ℤ) :
    ∃ code item, itemRoom heap obj n = some (code, obj.setItem obj.itemNum item) ∧ item.Ok ∧
      ((heap.data obj.itemNum.toNat).isSome → code = .ok ∧
        (0 ≤ n → n + 2 < 2 ^ 31 → n + 1 < item.size) ∧ (2 ^ 31 ≤ n + 2 → item.size < n + 1)) := by
  obtain ⟨item, hitem, hok⟩ := h.next hroom
  have hsize := hok.1
  have hself : obj.setItem obj.itemNum item = obj := by
    rw [DataField.item] at hitem
    split_ifs at hitem
    obtain ⟨hlt, hget⟩ := List.getElem?_eq_some_iff.1 hitem
    rw [DataField.setItem, ← hget, List.set_getElem_self]
  rw [itemRoom, hitem, Option.bind_eq_bind, Option.bind_some]
  split_ifs with hsmall
  · have hover := @i32_lt_of_overflow n
    have hlt := i32_lt (n + 1 + 1)
    rw [setItemSize_eq heap hroom hitem hok]
    have hfits (h0 : 0 ≤ n) (h1 : n + 2 < 2 ^ 31) : i32 (n + 1 + 1) = n + 2 := by
      rw [i32_of_range (by omega) (by omega)]
      ring
    generalize i32 (n + 1 + 1) = size at hover hlt hfits
    split_ifs with hneg
    · have hzero : DataItem.zero.size = 0 := rfl
      exact ⟨.ok, .zero, rfl, DataItem.zero_ok, fun _ => ⟨rfl, by omega, by omega⟩⟩
    · cases hdata : heap.data obj.itemNum.toNat with
      | none => exact ⟨.err, .zero, rfl, DataItem.zero_ok, fun hsome => absurd hsome (by simp)⟩
      | some mem =>
        refine ⟨.ok, ⟨size, 0, .block size _⟩, rfl, ⟨hlt, rfl, by omega⟩, fun _ => ⟨rfl, ?_⟩⟩
        dsimp only
        exact ⟨by omega, by omega⟩
  · refine ⟨.ok, item, by rw [hself], hok, fun _ => ⟨rfl, by omega, by omega⟩⟩

/-- The fields after the next item has been set. -/
def DataField.push (obj : DataField) (item : DataItem) : DataField :=
  { obj.setItem obj.itemNum item with itemNum := obj.itemNum + 1 }

theorem DataField.Ok.push {obj : DataField} (h : obj.Ok) (hroom : obj.itemNum < obj.itemSize)
    {item : DataItem} (hitem : item.Ok) : (obj.push item).Ok where
  size := (h.setItem obj.itemNum hitem).size
  size_le := h.size_le
  num_nonneg := Int.add_nonneg h.num_nonneg zero_le_one
  num_le := hroom
  items := (h.setItem obj.itemNum hitem).items

theorem DataField.Ok.push_self {obj : DataField} (h : obj.Ok) (hroom : obj.itemNum < obj.itemSize)
    (item : DataItem) : (obj.push item).pItems[obj.itemNum.toNat]? = some item := by
  have hnum := h.num_nonneg
  have hsize := h.size
  have hlt : obj.itemNum.toNat < obj.pItems.length := by omega
  exact List.getElem?_set_self hlt

theorem DataField.push_of_lt {obj : DataField} {k : ℕ} (hk : k < obj.itemNum.toNat)
    (item : DataItem) : (obj.push item).pItems[k]? = obj.pItems[k]? :=
  List.getElem?_set_ne (by omega)

/-- Once there is room, the text is copied to the item. -/
theorem copyItem_setItem {obj : DataField} (h : obj.Ok) (hroom : obj.itemNum < obj.itemSize)
    (item : DataItem) (mem : ℤ → Option UInt8) (pb n : ℤ) :
    copyItem (obj.setItem obj.itemNum item) mem pb n = (item.copy mem pb n).map obj.push := by
  have hnum : i8 (obj.itemNum + 1) = obj.itemNum + 1 := by
    have h1 := h.num_nonneg
    have h2 := h.size_le
    exact i8_of_range (by omega) (by omega)
  have hitem : (obj.setItem obj.itemNum item).item (obj.setItem obj.itemNum item).itemNum =
    some item := DataField.item_setItem h hroom item
  rw [copyItem, hitem, Option.bind_eq_bind, Option.bind_some]
  cases item.copy mem pb n with
  | none => rfl
  | some item' =>
    rw [Option.bind_some, Option.map_some, DataField.push]
    simp only [DataField.setItem, List.set_set, hnum]

/-- **The outcome of `data_field_add_item`** while there is room in the array. -/
theorem addItem_eq (heap : ItemHeap) {obj : DataField} (h : obj.Ok)
    (hroom : obj.itemNum < obj.itemSize) {mem : ℤ → Option UInt8} {pb pe : ℤ} {code : Code}
    {item : DataItem} (hitem : itemRoom heap obj (pe - pb) =
      some (code, obj.setItem obj.itemNum item)) :
    dataFieldAddItem heap obj mem pb pe =
      if code = .err then some (.err, obj.setItem obj.itemNum item)
      else (item.copy mem pb (pe - pb)).map fun item' => (.ok, obj.push item') := by
  have hgrow : growItems heap obj = some (.ok, obj) := if_pos hroom
  rw [dataFieldAddItem, hgrow]
  dsimp only
  rw [hitem]
  cases code with
  | err => rfl
  | ok =>
    dsimp only
    rw [copyItem_setItem h hroom, Option.map_map, if_neg (by decide)]
    rfl

/-- A text is added as the next item. -/
theorem addItem_text {heap : ItemHeap} {obj : DataField} (h : obj.Ok)
    (hroom : obj.itemNum < obj.itemSize) (hdata : (heap.data obj.itemNum.toNat).isSome)
    {mem : ℤ → Option UInt8} {pb : ℤ} {s : List UInt8} (hs : Holds mem pb s)
    (hlen : s.length + 2 < 2 ^ 31) :
    ∃ item, dataFieldAddItem heap obj mem pb (pb + s.length) = some (.ok, obj.push item) ∧
      item.Ok ∧ item.Denotes s := by
  have hn : pb + (s.length : ℤ) - pb = s.length := by ring
  obtain ⟨code, item, hitem, hok, hspec⟩ := itemRoom_spec heap h hroom (pb + s.length - pb)
  obtain ⟨rfl, hfits, -⟩ := hspec hdata
  have hsize := hfits (by omega) (by omega)
  rw [hn] at hsize
  obtain ⟨item', hcopy, hden⟩ := item.copy_spec hok hs hsize.le
  refine ⟨item', ?_, item.copy_ok hok hcopy, hden⟩
  rw [addItem_eq heap h hroom hitem, if_neg (by decide), hn, hcopy]
  rfl

/-- **Nothing is added** when there is no separator, or when the length of the text overflows. -/
theorem addItem_eq_none {heap : ItemHeap} {obj : DataField} (h : obj.Ok)
    (hroom : obj.itemNum < obj.itemSize) (hdata : (heap.data obj.itemNum.toNat).isSome)
    {mem : ℤ → Option UInt8} {pb pe : ℤ} (hn : pe - pb < 0 ∨ 2 ^ 31 ≤ pe - pb + 2) :
    dataFieldAddItem heap obj mem pb pe = none := by
  obtain ⟨code, item, hitem, hok, hspec⟩ := itemRoom_spec heap h hroom (pe - pb)
  obtain ⟨rfl, -, hover⟩ := hspec hdata
  rw [addItem_eq heap h hroom hitem, if_neg (by decide), item.copy_eq_none hok (hn.imp_right hover)]
  rfl

/-- Whatever `data_field_add_item` returns, the fields are in order. -/
theorem addItem_ok {heap : ItemHeap} {obj obj' : DataField} (h : obj.Ok)
    (hroom : obj.itemNum < obj.itemSize) {mem : ℤ → Option UInt8} {pb pe : ℤ} {code : Code}
    (hadd : dataFieldAddItem heap obj mem pb pe = some (code, obj')) :
    obj'.Ok ∧ obj'.itemSize = obj.itemSize ∧ obj'.itemNum ≤ obj.itemNum + 1 := by
  obtain ⟨code', item, hitem, hok, -⟩ := itemRoom_spec heap h hroom (pe - pb)
  rw [addItem_eq heap h hroom hitem] at hadd
  split_ifs at hadd
  · cases hadd
    exact ⟨h.setItem _ hok, rfl, Int.le_add_one le_rfl⟩
  · obtain ⟨item', hcopy, heq⟩ := Option.map_eq_some_iff.1 hadd
    cases heq
    exact ⟨h.push hroom (item.copy_ok hok hcopy), rfl, le_rfl⟩

/-- Without a separator nothing is added. -/
theorem addItem_null (heap : ItemHeap) (mem : ℤ → Option UInt8) {obj : DataField} (h : obj.Ok)
    (hroom : obj.itemNum < obj.itemSize) {pb pe : ℤ} (hn : pe - pb < 0)
    (obj' : DataField) : dataFieldAddItem heap obj mem pb pe ≠ some (.ok, obj') := by
  obtain ⟨code, item, hitem, hok, -⟩ := itemRoom_spec heap h hroom (pe - pb)
  rw [addItem_eq heap h hroom hitem, item.copy_eq_none hok (.inl hn)]
  split_ifs
  · simp
  · simp

/-! ### The loop -/

section

variable {heap : ItemHeap} {mem : ℤ → Option UInt8} {sep w : List UInt8} {pb : ℤ}

/-- A turn, in which a separator is found at `i`. -/
theorem readFields_next (hshort : sep.length < 512) (hsep : sep ≠ []) (hw : Holds mem pb w) {i : ℕ}
    (hat : firstAt sep w = some i) (turns : ℕ) (obj : DataField) :
    readFields heap mem (pb + w.length) sep (turns + 1) obj pb =
      match dataFieldAddItem heap obj mem pb (pb + i) with
      | none => none
      | some (.err, obj) => some (.err, obj)
      | some (.ok, obj) => readFields heap mem
          (pb + i + sep.length + (w.drop (i + sep.length)).length) sep turns obj
            (pb + i + sep.length) := by
  have hpos := List.length_pos_iff.2 hsep
  have hle := firstAt_le hat
  have hend : pb + (w.length : ℤ) =
      pb + i + sep.length + (w.drop (i + sep.length)).length := by
    rw [List.length_drop]
    omega
  rw [readFields, if_neg (by omega), findStr_spec hshort hw, hat]
  dsimp only [Option.map_some, Option.getD_some]
  rw [if_neg (by omega), ← hend]

/-- The last turn, when there is text behind the last separator. -/
theorem readFields_last (hshort : sep.length < 512) (hw : Holds mem pb w) (hpb : 0 < pb)
    (hne : w ≠ []) (hat : firstAt sep w = none) (turns : ℕ) {obj : DataField} (h : obj.Ok)
    (hroom : obj.itemNum < obj.itemSize) :
    readFields heap mem (pb + w.length) sep (turns + 1) obj pb =
      dataFieldAddItem heap obj mem pb 0 := by
  have hpos := List.length_pos_iff.2 hne
  have hnull := addItem_null heap mem h hroom (show 0 - pb < 0 by omega)
  rw [readFields, if_neg (by omega), findStr_spec hshort hw, hat]
  dsimp only [Option.map_none, Option.getD_none]
  split
  · rename_i hadd
    exact hadd.symm
  · rename_i hadd
    exact hadd.symm
  · rename_i hadd
    exact absurd hadd (hnull _)

/-- The text that a separator is found behind. -/
theorem holds_split (hw : Holds mem pb w) {i : ℕ} (hat : firstAt sep w = some i) :
    Holds mem pb (w.take i) ∧ (w.take i).length = i ∧
      Holds mem (pb + i + sep.length) (w.drop (i + sep.length)) := by
  have hle := firstAt_le hat
  have hlen : (w.take i).length = i := List.length_take_of_le (by omega)
  rw [firstAt_split hat, holds_append, holds_append, hlen] at hw
  exact ⟨hw.1, hlen, hw.2.2⟩

/-- **Whatever `data_field_read_buf` returns**, the fields are in order. -/
theorem readFields_ok (hshort : sep.length < 512) (hsep : sep ≠ []) {turns : ℕ}
    {obj obj' : DataField} {code : Code} (h : obj.Ok) (hw : Holds mem pb w) (hpb : 0 < pb)
    (hroom : obj.itemNum + (segments sep w).length ≤ obj.itemSize)
    (hread : readFields heap mem (pb + w.length) sep turns obj pb = some (code, obj')) :
    obj'.Ok ∧ obj'.itemSize = obj.itemSize := by
  induction turns generalizing obj pb w with
  | zero => cases hread
  | succ turns ih =>
    by_cases hne : w = []
    · rw [hne, readFields, if_pos (by simp)] at hread
      cases hread
      exact ⟨h, rfl⟩
    · cases hat : firstAt sep w with
      | none =>
        rw [segments_of_none hat hne, List.length_singleton] at hroom
        rw [readFields_last hshort hw hpb hne hat turns h (by omega)] at hread
        have hadd := addItem_ok h (by omega) hread
        exact ⟨hadd.1, hadd.2.1⟩
      | some i =>
        obtain ⟨-, -, hrest⟩ := holds_split hw hat
        rw [segments_of_some hsep hat, List.length_cons, Nat.cast_add, Nat.cast_one] at hroom
        rw [readFields_next hshort hsep hw hat] at hread
        split at hread
        · cases hread
        · rename_i obj1 hadd
          cases hread
          have hadd := addItem_ok h (by omega) hadd
          exact ⟨hadd.1, hadd.2.1⟩
        · rename_i obj1 hadd
          obtain ⟨h1, hsize, hnum⟩ := addItem_ok h (by omega) hadd
          have hih := ih h1 hrest (by omega) (by omega) hread
          exact ⟨hih.1, hih.2.trans hsize⟩

/-- **A line that ends with a separator** is split into its fields. -/
theorem readFields_fields (hshort : sep.length < 512) (hsep : sep ≠ [])
    (hheap : ∀ i, (heap.data i).isSome) {turns : ℕ} {obj : DataField} (h : obj.Ok)
    (hw : Holds mem pb w) (hpb : 0 < pb) (hturns : w.length < turns)
    (hroom : obj.itemNum + (segments sep w).length ≤ obj.itemSize) (hrest : (fields sep w).2 = [])
    (hlen : ∀ s ∈ segments sep w, s.length + 2 < 2 ^ 31) :
    ∃ obj', readFields heap mem (pb + w.length) sep turns obj pb = some (.ok, obj') ∧
      obj'.itemNum = obj.itemNum + (segments sep w).length ∧
      (∀ k < obj.itemNum.toNat, obj'.pItems[k]? = obj.pItems[k]?) ∧
      ∀ (k : ℕ) s, (segments sep w)[k]? = some s →
        ∃ item, obj'.pItems[obj.itemNum.toNat + k]? = some item ∧ item.Denotes s := by
  induction turns generalizing obj pb w with
  | zero => omega
  | succ turns ih =>
    by_cases hne : w = []
    · subst hne
      refine ⟨obj, if_pos (by simp), ?_, fun _ _ => rfl, ?_⟩
      · rw [segments_nil hsep]
        exact (add_zero _).symm
      · simp [segments_nil hsep]
    · cases hat : firstAt sep w with
      | none =>
        rw [fields_of_none hat] at hrest
        exact absurd hrest hne
      | some i =>
        obtain ⟨htext, hi, hbehind⟩ := holds_split hw hat
        have hlt : (w.drop (i + sep.length)).length < turns := by
          have hpos := List.length_pos_iff.2 hsep
          have hle := firstAt_le hat
          rw [List.length_drop]
          omega
        have hnum := h.num_nonneg
        rw [fields_of_some hsep hat] at hrest
        rw [segments_of_some hsep hat] at hroom hlen ⊢
        rw [List.length_cons, Nat.cast_add, Nat.cast_one] at hroom ⊢
        have hshortText := hlen _ List.mem_cons_self
        obtain ⟨item, hadd, hitem, hden⟩ := addItem_text h (by omega) (hheap _) htext hshortText
        rw [hi] at hadd
        have hpush := h.push (by omega) hitem
        have hnext : (obj.push item).itemNum = obj.itemNum + 1 := rfl
        have hsize : (obj.push item).itemSize = obj.itemSize := rfl
        obtain ⟨obj', hread, hnum', hold, hnew⟩ := ih hpush hbehind (by omega) hlt (by omega) hrest
          fun s hs => hlen s (List.mem_cons_of_mem _ hs)
        refine ⟨obj', ?_, by omega, fun k hk => ?_, fun k s hk => ?_⟩
        · rw [readFields_next hshort hsep hw hat, hadd]
          exact hread
        · rw [hold k (by omega), DataField.push_of_lt hk]
        · cases k with
          | zero =>
            cases hk
            exact ⟨item, (hold _ (by omega)).trans (h.push_self (by omega) item), hden⟩
          | succ k =>
            obtain ⟨item', hget, hden'⟩ := hnew k s hk
            have hat' : (obj.push item).itemNum.toNat + k = obj.itemNum.toNat + (k + 1) := by omega
            exact ⟨item', hat' ▸ hget, hden'⟩

/-- **Any other line** has no result: a text of which the length overflows, or the text behind the
last separator, cannot be copied. -/
theorem readFields_eq_none (hshort : sep.length < 512) (hsep : sep ≠ [])
    (hheap : ∀ i, (heap.data i).isSome) {turns : ℕ} {obj : DataField} (h : obj.Ok)
    (hw : Holds mem pb w) (hpb : 0 < pb)
    (hroom : obj.itemNum + (segments sep w).length ≤ obj.itemSize)
    (hbad : ¬ ((fields sep w).2 = [] ∧ ∀ s ∈ segments sep w, s.length + 2 < 2 ^ 31)) :
    readFields heap mem (pb + w.length) sep turns obj pb = none := by
  induction turns generalizing obj pb w with
  | zero => rfl
  | succ turns ih =>
    by_cases hne : w = []
    · have hnil : firstAt sep [] = none := if_neg hsep
      exact absurd (by simp [hne, fields_of_none hnil, segments_nil hsep]) hbad
    · cases hat : firstAt sep w with
      | none =>
        rw [segments_of_none hat hne, List.length_singleton] at hroom
        rw [readFields_last hshort hw hpb hne hat turns h (by omega)]
        exact addItem_eq_none h (by omega) (hheap _) (.inl (by omega))
      | some i =>
        obtain ⟨htext, hi, hbehind⟩ := holds_split hw hat
        rw [fields_of_some hsep hat, segments_of_some hsep hat, List.forall_mem_cons] at hbad
        rw [segments_of_some hsep hat, List.length_cons, Nat.cast_add, Nat.cast_one] at hroom
        rw [readFields_next hshort hsep hw hat]
        by_cases hlong : i + 2 < 2 ^ 31
        · obtain ⟨item, hadd, hitem, -⟩ := addItem_text h (by omega) (hheap _) htext (by omega)
          rw [hi] at hadd
          have hpush := h.push (by omega) hitem
          have hnext : (obj.push item).itemNum = obj.itemNum + 1 := rfl
          have hsize : (obj.push item).itemSize = obj.itemSize := rfl
          rw [hadd]
          exact ih hpush hbehind (by omega) (by omega) fun hgood =>
            hbad ⟨hgood.1, by rw [hi]; exact hlong, hgood.2⟩
        · rw [addItem_eq_none h (by omega) (hheap _) (.inr (by omega))]

end

/-! ### Reuse -/

theorem initItems_ok {heap : ItemHeap} {itemBufSize : ℤ} (hpos : 0 < itemBufSize)
    (hlt : itemBufSize < 2 ^ 31) {n : ℕ} {items : List DataItem}
    (h : initItems heap itemBufSize n = some items) :
    items.length = n ∧ ∀ item ∈ items, item.Ok := by
  induction n generalizing items with
  | zero =>
    cases h
    exact ⟨rfl, by simp⟩
  | succ n ih =>
    obtain ⟨items', hitems, h⟩ := Option.bind_eq_some_iff.1 h
    obtain ⟨mem, -, h⟩ := Option.bind_eq_some_iff.1 h
    obtain ⟨hlen, hok⟩ := ih hitems
    cases h
    refine ⟨by simp [hlen], fun item hitem => ?_⟩
    rcases List.mem_append.1 hitem with hold | hnew
    · exact hok item hold
    · rw [List.mem_singleton.1 hnew]
      exact ⟨hlt, rfl, hpos⟩

/-- New fields are in order, and there are none yet. -/
theorem dataFieldInit_ok {heap : ItemHeap} {itemSize itemBufSize : ℤ} (hsize : itemSize ≤ 127)
    (hlt : itemBufSize < 2 ^ 31) {obj : DataField}
    (h : dataFieldInit heap itemSize itemBufSize = some obj) : obj.Ok ∧ obj.itemNum = 0 := by
  rw [dataFieldInit] at h
  split_ifs at h with herr hempty
  · cases h
    refine ⟨⟨?_, hsize, le_rfl, ?_, fun item hitem => ?_⟩, rfl⟩
    · simp
      omega
    · show (0 : ℤ) ≤ itemSize
      omega
    · rw [List.eq_of_mem_replicate hitem]
      exact DataItem.zero_ok
  · obtain ⟨items, hitems, rfl⟩ := Option.map_eq_some_iff.1 h
    obtain ⟨hlen, hok⟩ := initItems_ok (by omega) hlt hitems
    refine ⟨⟨?_, hsize, le_rfl, ?_, hok⟩, rfl⟩
    · simp [hlen]
      omega
    · show (0 : ℤ) ≤ itemSize
      omega

theorem DataItem.clean_ok {item : DataItem} (h : item.Ok) :
    ∃ item', item.clean = some item' ∧ item'.Ok := by
  obtain ⟨size, len, data⟩ := item
  obtain ⟨hlt, h⟩ := h
  cases data with
  | null => exact ⟨_, rfl, hlt, h⟩
  | block room m => exact ⟨_, if_pos h.2, hlt, h⟩
  | wild => exact h.elim

theorem cleanItems_ok {n : ℕ} {items : List DataItem} (hn : n ≤ items.length)
    (h : ∀ item ∈ items, item.Ok) :
    ∃ items', cleanItems n items = some items' ∧ items'.length = items.length ∧
      ∀ item ∈ items', item.Ok := by
  induction n generalizing items with
  | zero => exact ⟨items, rfl, rfl, h⟩
  | succ n ih =>
    obtain ⟨item, items, rfl⟩ := List.exists_cons_of_length_pos (Nat.zero_lt_of_lt hn)
    rw [List.forall_mem_cons] at h
    obtain ⟨item', hitem, hok⟩ := item.clean_ok h.1
    obtain ⟨items', hitems, hlen, hoks⟩ := ih (Nat.le_of_succ_le_succ hn) h.2
    refine ⟨item' :: items', ?_, by simp [hlen], List.forall_mem_cons.2 ⟨hok, hoks⟩⟩
    rw [cleanItems, hitem, Option.bind_eq_bind, Option.bind_some, hitems]
    rfl

/-- Fields that have been cleaned are in order, and there are none. -/
theorem dataFieldCleanItems_ok {obj obj' : DataField} (h : obj.Ok)
    (hclean : dataFieldCleanItems obj = some obj') : obj'.Ok ∧ obj'.itemNum = 0 := by
  have hnum := h.num_nonneg
  have hle := h.num_le
  have hsize := h.size
  obtain ⟨items, hitems, hlen, hok⟩ := cleanItems_ok (show obj.itemNum.toNat ≤ _ by omega) h.items
  rw [dataFieldCleanItems, hitems] at hclean
  cases hclean
  exact ⟨⟨by rw [hlen]; exact hsize, h.size_le, le_rfl, hnum.trans hle, hok⟩, rfl⟩

/-- **Fields that a line can be read to**: they are new, or they have been cleaned after a line with
no more segments than there is room for, whatever `data_field_read_buf` returned for it. -/
inductive Reusable : DataField → Prop
  | init {heap : ItemHeap} {itemSize itemBufSize : ℤ} {obj : DataField} (hsize : itemSize ≤ 127)
      (hlt : itemBufSize < 2 ^ 31) (h : dataFieldInit heap itemSize itemBufSize = some obj) :
      Reusable obj
  | clean {heap : ItemHeap} {mem : ℤ → Option UInt8} {p : ℤ} {w sep : List UInt8} {code : Code}
      {obj obj' obj'' : DataField} (h : Reusable obj) (hp : 0 < p) (hw : Holds mem p w)
      (hsep : sep ≠ []) (hshort : sep.length < 512)
      (hroom : (segments sep w).length ≤ obj.itemSize)
      (hread : dataFieldReadBuf heap obj mem p (p + w.length) sep = some (code, obj'))
      (hclean : dataFieldCleanItems obj' = some obj'') : Reusable obj''

theorem Reusable.ok {obj : DataField} (h : Reusable obj) : obj.Ok ∧ obj.itemNum = 0 := by
  induction h with
  | init hsize hlt h => exact dataFieldInit_ok hsize hlt h
  | clean h hp hw hsep hshort hroom hread hclean ih =>
    have hread := readFields_ok hshort hsep ih.1 hw hp (by omega) hread
    exact dataFieldCleanItems_ok hread.1 hclean

/-- **The line is split**: the items are its segments, in their order. -/
def IsSplit (heap : ItemHeap) (obj : DataField) (mem : ℤ → Option UInt8) (p : ℤ)
    (w sep : List UInt8) : Prop :=
  ∃ obj', dataFieldReadBuf heap obj mem p (p + w.length) sep = some (.ok, obj') ∧
    obj'.itemNum = (segments sep w).length ∧
    ∀ (k : ℕ) s, (segments sep w)[k]? = some s →
      ∃ item, obj'.pItems[k]? = some item ∧ item.Denotes s

/-- **When a line is split**: it ends with a separator or is empty, and the length of every segment
and its zero is an `i32_t`. -/
theorem splits_iff {heap : ItemHeap} {obj : DataField} {mem : ℤ → Option UInt8} {p : ℤ}
    {w sep : List UInt8} (h : Reusable obj) (hp : 0 < p) (hw : Holds mem p w) (hsep : sep ≠ [])
    (hshort : sep.length < 512) (hroom : (segments sep w).length ≤ obj.itemSize)
    (hheap : ∀ i, (heap.data i).isSome) :
    IsSplit heap obj mem p w sep ↔
      (fields sep w).2 = [] ∧ ∀ s ∈ segments sep w, s.length + 2 < 2 ^ 31 := by
  obtain ⟨hok, hnum⟩ := h.ok
  constructor
  · rintro ⟨obj', hread, -⟩
    by_contra hbad
    rw [dataFieldReadBuf, readFields_eq_none hshort hsep hheap hok hw hp (by omega) hbad] at hread
    cases hread
  · rintro ⟨hrest, hlen⟩
    obtain ⟨obj', hread, hnum', -, hitems⟩ := readFields_fields hshort hsep hheap hok hw hp
      (show w.length < (p + w.length - p).toNat + 1 by omega) (by omega) hrest hlen
    rw [hnum, zero_add] at hnum'
    refine ⟨obj', hread, hnum', fun k s hk => ?_⟩
    obtain ⟨item, hget, hden⟩ := hitems k s hk
    rw [hnum, Int.toNat_zero, Nat.zero_add] at hget
    exact ⟨item, hget, hden⟩

/-- A line of two fields, each with a separator behind it. -/
theorem splits_two : ∃ obj,
    dataFieldInit ⟨fun _ => some fun _ => 7, fun _ => some fun _ => .zero⟩ 2 0 = some obj ∧
      (IsSplit ⟨fun _ => some fun _ => 7, fun _ => some fun _ => .zero⟩ obj
          (ofList ([0] ++ ascii "a;b;")) 1 (ascii "a;b;") (ascii ";") ↔
        (fields (ascii ";") (ascii "a;b;")).2 = [] ∧
          ∀ s ∈ segments (ascii ";") (ascii "a;b;"), s.length + 2 < 2 ^ 31) := by
  have hsep : ascii ";" ≠ [] := by decide
  have hroom : (segments (ascii ";") (ascii "a;b;")).length = 2 := by
    have h1 : firstAt (ascii ";") (ascii "a;b;") = some 1 := by decide
    have h2 : firstAt (ascii ";") (ascii "b;") = some 1 := by decide
    have hrest : segments (ascii ";") (ascii "b;") = [ascii "b"] :=
      (segments_of_some hsep h2).trans (congrArg _ (segments_nil hsep))
    rw [segments_of_some hsep h1]
    exact congrArg (List.length ∘ List.cons _) hrest
  have hinit : dataFieldInit ⟨fun _ => some fun _ => 7, fun _ => some fun _ => .zero⟩ 2 0 =
      some ⟨2, 0, List.replicate 2 .zero⟩ := rfl
  have hnew :=
    Reusable.init (show (2 : ℤ) ≤ 127 by norm_num) (show (0 : ℤ) < 2 ^ 31 by norm_num) hinit
  refine ⟨_, hinit, splits_iff hnew (by decide) (holds_ofList [0] (ascii "a;b;")) hsep (by decide)
    ?_ fun _ => rfl⟩
  rw [hroom]
  rfl

/-- **A line that does not end with a separator**: its last field is copied up to `NULL`. -/
theorem last_field_faults : ∃ obj,
    dataFieldInit ⟨fun _ => some fun _ => 7, fun _ => some fun _ => .zero⟩ 2 0 = some obj ∧
      segments (ascii ";") (ascii "a;b") = [ascii "a", ascii "b"] ∧
      dataFieldReadBuf ⟨fun _ => some fun _ => 7, fun _ => some fun _ => .zero⟩ obj
        (ofList ([0] ++ ascii "a;b")) 1 (1 + (ascii "a;b").length) (ascii ";") = none ∧
      ¬ IsSplit ⟨fun _ => some fun _ => 7, fun _ => some fun _ => .zero⟩ obj
          (ofList ([0] ++ ascii "a;b")) 1 (ascii "a;b") (ascii ";") := by
  have hsep : ascii ";" ≠ [] := by decide
  have hsegments : segments (ascii ";") (ascii "a;b") = [ascii "a", ascii "b"] := by
    have h1 : firstAt (ascii ";") (ascii "a;b") = some 1 := by decide
    have h2 : firstAt (ascii ";") (ascii "b") = none := by decide
    have hrest : segments (ascii ";") (ascii "b") = [ascii "b"] :=
      segments_of_none h2 (by decide)
    exact (segments_of_some hsep h1).trans (congrArg _ hrest)
  have hnone : dataFieldReadBuf ⟨fun _ => some fun _ => 7, fun _ => some fun _ => .zero⟩
      ⟨2, 0, List.replicate 2 .zero⟩ (ofList ([0] ++ ascii "a;b")) 1 (1 + (ascii "a;b").length)
        (ascii ";") = none := by rfl
  refine ⟨_, rfl, hsegments, hnone, ?_⟩
  rintro ⟨obj', hread, -⟩
  exact absurd (hnone.symm.trans hread) (by simp)

end F1Goal
