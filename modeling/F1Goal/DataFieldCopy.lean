import F1Goal.DataField

/-!
# Copying an item out (`f1g_data_op.c`)

`data_field_copy_str` cuts an item to the size of the buffer and puts a zero behind it. The zero of
an item that fills the buffer, or would, comes behind the buffer (`copy_bounded_iff`).
-/

namespace F1Goal

/-- A call for an item of the field that holds this text. -/
structure CopyCall where
  obj : DataField
  strings : List (List UInt8)
  holds : obj.HasStrings strings
  seq : ℕ
  text : List UInt8
  stored : strings[seq]? = some text
  bufSize : ℕ
  size_pos : 1 ≤ bufSize

namespace CopyCall

variable (c : CopyCall)

/-- **The copy is bounded**: what is written from the start of the buffer on stays inside of it, and
is the text, cut off where it has no room, with a zero. -/
def Bounded : Prop :=
  ∃ bs, dataFieldCopyStr c.obj c.seq c.bufSize = some (some bs) ∧ bs.length ≤ c.bufSize ∧
    bs = c.text.take (c.bufSize - 1) ++ [0]

/-- What is written: the text, cut off behind the buffer, with a zero. -/
theorem copyStr_eq :
    dataFieldCopyStr c.obj c.seq c.bufSize = some (some (c.text.take c.bufSize ++ [0])) := by
  rw [c.holds.copyStr, c.stored, Option.map_some]

/-- The zero behind a text that fills the buffer is the first byte behind it. -/
theorem zero_behind (hfills : c.bufSize ≤ c.text.length) :
    (c.text.take c.bufSize ++ [0])[c.bufSize]? = some 0 := by
  have hlen : (c.text.take c.bufSize).length = c.bufSize := List.length_take_of_le hfills
  rw [List.getElem?_append_right hlen.le, hlen, Nat.sub_self]
  rfl

end CopyCall

/-- **When the copy is bounded**: the text is shorter than the buffer. -/
theorem copy_bounded_iff (c : CopyCall) : c.Bounded ↔ c.text.length < c.bufSize := by
  constructor
  · rintro ⟨bs, hcopy, hlen, -⟩
    rw [c.copyStr_eq] at hcopy
    cases hcopy
    by_contra hfills
    have hzero := c.zero_behind (not_lt.1 hfills)
    obtain ⟨hlt, -⟩ := List.getElem?_eq_some_iff.1 hzero
    omega
  · intro hshort
    have hwhole : c.text.take c.bufSize = c.text := List.take_of_length_le hshort.le
    have hcut : c.text.take (c.bufSize - 1) = c.text := List.take_of_length_le (by omega)
    refine ⟨_, c.copyStr_eq, ?_, ?_⟩
    · rw [hwhole, List.length_append, List.length_singleton]
      exact hshort
    · rw [hwhole, hcut]

/-- An item of two bytes. -/
def twoByteItem : DataItem := ⟨3, 2, .block 3 (Mem.store (fun _ => 7) 0 [97, 98, 0])⟩

theorem twoByteItem_denotes : twoByteItem.Denotes [97, 98] :=
  ⟨rfl, 3, _, rfl, by decide, Mem.slice_store_self _ 0 [97, 98, 0]⟩

theorem twoByteItem_hasStrings : DataField.HasStrings ⟨1, 1, [twoByteItem]⟩ [[97, 98]] := by
  refine ⟨rfl, fun k s hk => ?_⟩
  cases k with
  | zero =>
    cases hk
    exact ⟨twoByteItem, rfl, twoByteItem_denotes⟩
  | succ k => cases hk

/-- The item of two bytes, copied to a buffer of two bytes. -/
def copyTwoBytes : CopyCall :=
  ⟨⟨1, 1, [twoByteItem]⟩, [[97, 98]], twoByteItem_hasStrings, 0, [97, 98], rfl, 2, by decide⟩

/-- Three bytes are written to the buffer. -/
theorem zero_behind_buffer :
    dataFieldCopyStr copyTwoBytes.obj 0 2 = some (some [97, 98, 0]) ∧ ¬copyTwoBytes.Bounded := by
  refine ⟨copyTwoBytes.copyStr_eq, ?_⟩
  rintro ⟨bs, hcopy, hlen, -⟩
  rw [copyTwoBytes.copyStr_eq] at hcopy
  cases hcopy
  exact absurd hlen (by decide)

end F1Goal
