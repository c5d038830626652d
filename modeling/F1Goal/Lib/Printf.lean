import F1Goal.Lib.Mem

/-!
# Formatted text in a bounded place

`snprintf` writes a text to a place of `size` bytes and ends it with a zero there: the last byte of
a text that is as long as the place, or longer, is lost.
-/

namespace Printf

/-- What `snprintf(buf + off, size, ..)` leaves, for a format that gives this text. -/
def snprintf (buf : ℤ → UInt8) (off : ℤ) (size : ℕ) (text : List UInt8) : ℤ → UInt8 :=
  if size = 0 then buf else Mem.store buf off (text.take (size - 1) ++ [0])

/-- How many bytes it stores. -/
def stored (size : ℕ) (text : List UInt8) : ℕ :=
  if size = 0 then 0 else min text.length (size - 1) + 1

variable {buf : ℤ → UInt8} {off : ℤ} {size : ℕ} {text : List UInt8}

theorem snprintf_of_lt {i : ℤ} (h : i < off) : snprintf buf off size text i = buf i := by
  unfold snprintf
  split_ifs
  · rfl
  · exact Mem.store_of_lt h

/-- A text that is shorter than the place is there. -/
theorem slice_snprintf_of_lt (h : text.length < size) :
    Mem.slice (snprintf buf off size text) off text.length = text := by
  have hself := Mem.slice_store_self buf off (text ++ [0])
  rw [List.length_append, List.length_singleton, Mem.slice_add] at hself
  rw [snprintf, if_neg (by omega), List.take_of_length_le (by omega)]
  exact (List.append_inj hself (by simp)).1

/-- A text that is as long as the place loses its last byte. -/
theorem slice_snprintf_of_eq (h : text.length = size) (h0 : text ≠ []) :
    Mem.slice (snprintf buf off size text) off text.length = text.dropLast ++ [0] := by
  have hpos := List.length_pos_iff.2 h0
  have hself := Mem.slice_store_self buf off (text.dropLast ++ [0])
  have hlen : (text.dropLast ++ [0]).length = text.length := by
    rw [List.length_append, List.length_dropLast, List.length_singleton]
    omega
  rw [hlen] at hself
  rw [snprintf, if_neg (by omega), ← h, ← List.dropLast_eq_take]
  exact hself

/-- **When a text that is no longer than the place is there**: it is shorter, or it ends with a
zero of its own. -/
theorem slice_snprintf_iff (h : text.length ≤ size) :
    Mem.slice (snprintf buf off size text) off text.length = text ↔
      text.length < size ∨ text = [] ∨ text.getLast? = some 0 := by
  rcases Nat.lt_or_eq_of_le h with hlt | heq
  · exact iff_of_true (slice_snprintf_of_lt hlt) (.inl hlt)
  by_cases hnil : text = []
  · subst hnil
    exact iff_of_true rfl (.inr (.inl rfl))
  rw [slice_snprintf_of_eq heq hnil]
  have hlast := List.dropLast_append_getLast hnil
  constructor
  · intro hdrop
    right; right
    rw [← hdrop, List.getLast?_concat]
  · rintro (hlt | hnil' | hzero)
    · omega
    · exact absurd hnil' hnil
    · rw [List.getLast?_eq_some_getLast hnil, Option.some.injEq] at hzero
      rw [← hzero]
      exact hlast

theorem stored_le (size : ℕ) (text : List UInt8) : stored size text ≤ size := by
  unfold stored
  split_ifs <;> omega

/-- The bytes of a text from position `size - 1` on, which `snprintf` does not put, are zeros. -/
def CutZeros (size : ℕ) (text : List UInt8) : Prop := ∀ b ∈ text.drop (size - 1), b = 0

instance (size : ℕ) (text : List UInt8) : Decidable (CutZeros size text) :=
  inferInstanceAs (Decidable (∀ b ∈ _, _))

theorem cutZeros_iff (hpos : 0 < size) (h : text.length ≤ size) :
    CutZeros size text ↔ text.length < size ∨ text = [] ∨ text.getLast? = some 0 := by
  rcases Nat.lt_or_eq_of_le h with hlt | heq
  · rw [CutZeros, List.drop_eq_nil_of_le (by omega)]
    exact iff_of_true (by simp) (.inl hlt)
  · have hne : text ≠ [] := by
      rintro rfl
      exact absurd heq (Nat.ne_of_lt hpos)
    rw [CutZeros, ← heq, List.drop_length_sub_one hne, List.forall_mem_singleton,
      List.getLast?_eq_some_getLast hne, Option.some.injEq]
    simp [hne]

/-- Behind a place filled with zeros there are zeros: what is read is the text with the bytes cut
off replaced by them. -/
theorem slice_snprintf_zeros (hpos : 0 < size) (text : List UInt8) :
    Mem.slice (snprintf (fun _ => 0) 0 size text) 0 text.length = text ↔ CutZeros size text := by
  have hread : Mem.slice (snprintf (fun _ => 0) 0 size text) 0 text.length =
      text.take (size - 1) ++ List.replicate (text.length - (size - 1)) 0 := by
    rw [snprintf, if_neg (Nat.ne_of_gt hpos)]
    apply List.ext_getElem (by simp; omega)
    intro i h1 h2
    rw [Mem.length_slice] at h1
    rw [Mem.getElem_slice]
    by_cases hi : i < size - 1
    · rw [Mem.store_add (by simp; omega), List.getElem_append_left (by simp; omega),
        List.getElem_append_left (by simp; omega)]
    · rw [List.getElem_append_right (by simp; omega), List.getElem_replicate]
      by_cases hterm : i < (text.take (size - 1) ++ [0]).length
      · rw [Mem.store_add hterm, List.getElem_append_right (by simp; omega)]
        simp
      · exact Mem.store_of_le (by omega)
  rw [hread]
  conv_lhs => rhs; rw [← List.take_append_drop (size - 1) text]
  rw [List.append_cancel_left_eq, eq_comm, List.eq_replicate_iff, CutZeros, List.length_drop]
  simp

end Printf
