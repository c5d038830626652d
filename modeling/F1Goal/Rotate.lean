import F1Goal.BasicTypes
import F1Goal.Lib.Mem

/-!
# Rotating an array (`basic_alg.c`)

`rotate_by_seq` moves each element one place to the left, and the first one to the end, once for
each place. Its inner loop goes one element too far: it copies what stands behind the array to the
place of the last element, where the first one comes next. So the array is rotated
(`rotates_iff`), but what stands behind it has been read (`stays_inside_iff`). The offsets are
products of two `int`, which overflow in an array of more than 2 GiB.
-/

namespace F1Goal

/-- The rotate methods of `basic_alg.h`; any other number is `other`. -/
inductive RotateMethod
  | seq
  | threeT
  | blkSwp
  | gcd
  | other
  deriving DecidableEq, Repr

/-- `extra_info_t` -/
structure ExtraInfo where
  method : RotateMethod
  elemSize : ℤ

/-- What a call works on: the memory, in which the array begins at 0, the temporary, and where the
blocks begin that it has read from the array or written to it. -/
structure Rotating where
  arr : ℤ → UInt8
  temp : List UInt8
  touched : List ℤ

namespace Rotating

/-- `memcpy(temp, arr+src, blk_size)` -/
def save (s : Rotating) (size : ℕ) (src : ℤ) : Rotating :=
  { s with temp := Mem.slice s.arr src size, touched := s.touched ++ [src] }

/-- `memcpy(arr+dst, arr+src, blk_size)` -/
def move (s : Rotating) (size : ℕ) (dst src : ℤ) : Rotating :=
  { s with
    arr := Mem.store s.arr dst (Mem.slice s.arr src size)
    touched := s.touched ++ [src, dst] }

/-- `memcpy(arr+dst, temp, blk_size)` -/
def restore (s : Rotating) (dst : ℤ) : Rotating :=
  { s with arr := Mem.store s.arr dst s.temp, touched := s.touched ++ [dst] }

/-- `for (j=0; j<arr_size; j++)`, with the number of turns to go. -/
def moveBlocks (size : ℕ) : ℕ → ℕ → Rotating → Rotating
  | 0, _, s => s
  | turns + 1, j, s =>
    let nextPos := i32 (j * size)
    moveBlocks size turns (j + 1) (s.move size nextPos (nextPos + size))

/-- A turn of the outer loop. Behind the inner loop `j` is `arr_size`. -/
def rotateOnce (arrSize size : ℕ) (s : Rotating) : Rotating :=
  (moveBlocks size arrSize 0 (s.save size 0)).restore (i32 ((arrSize - 1) * size))

/-- `for (i=0; i<left_k; i++)`, with the number of turns to go. -/
def rotateTurns (arrSize size : ℕ) : ℕ → Rotating → Rotating
  | 0, s => s
  | turns + 1, s => rotateTurns arrSize size turns (rotateOnce arrSize size s)

end Rotating

/-- `rotate_by_seq`, when `malloc` returns a block or not. It returns none of a negative size. -/
def rotateBySeq (alloc : Bool) (arr : ℤ → UInt8) (arrSize leftK : ℤ) (extra : ExtraInfo) :
    ℤ × Rotating :=
  if !alloc ∨ extra.elemSize < 0 then (-1, ⟨arr, [], []⟩)
  else
    (0, Rotating.rotateTurns arrSize.toNat extra.elemSize.toNat leftK.toNat
      ⟨arr, List.replicate extra.elemSize.toNat 0, []⟩)

/-- `array_rotate`, which divides by `arr_size`. -/
def arrayRotate (alloc : Bool) (arr : ℤ → UInt8) (arrSize leftK : ℤ) (extra : ExtraInfo) :
    Option (ℤ × Rotating) :=
  if arrSize = 0 then none
  else
    match extra.method with
    | .seq => some (rotateBySeq alloc arr arrSize (leftK.tmod arrSize) extra)
    | .other => some (-1, ⟨arr, [], []⟩)
    | _ => some (0, ⟨arr, [], []⟩)

/-! ### Offsets that do not overflow -/

namespace Rotating

variable {size n j turns k : ℕ} {s : Rotating} {x : ℤ}

@[simp] theorem moveBlocks_temp (size turns j : ℕ) (s : Rotating) :
    (moveBlocks size turns j s).temp = s.temp := by
  induction turns generalizing j s with
  | zero => rfl
  | succ turns ih => exact ih _ _

/-- A product of which the next place is still in an array of at most 2 GiB. -/
theorem i32_offset (hj : j < n) (hn : ((n - 1 : ℕ) : ℤ) * size < 2 ^ 31) :
    i32 (j * size) = j * size := by
  have hle : (j : ℤ) * size ≤ ((n - 1 : ℕ) : ℤ) * size :=
    mul_le_mul_of_nonneg_right (by omega) (Int.natCast_nonneg size)
  have hnonneg : (0 : ℤ) ≤ j * size := by positivity
  exact i32_of_range (by omega) (by omega)

/-- Where the array ends, behind its last element. -/
theorem end_eq (hpos : 1 ≤ n) : (n : ℤ) * size = ((n - 1 : ℕ) : ℤ) * size + size := by
  rw [Nat.cast_sub hpos, Nat.cast_one]
  ring

/-- **The inner loop** has moved the elements from `j` on, and nothing else. -/
theorem moveBlocks_arr (hj : j + turns ≤ n) (hn : ((n - 1 : ℕ) : ℤ) * size < 2 ^ 31) :
    (moveBlocks size turns j s).arr x =
      if (j : ℤ) * size ≤ x ∧ x < ((j + turns : ℕ) : ℤ) * size then s.arr (x + size)
      else s.arr x := by
  induction turns generalizing j s with
  | zero =>
    rw [if_neg (by rw [Nat.add_zero]; omega)]
    rfl
  | succ turns ih =>
    have hoff : i32 (j * size) = j * size := i32_offset (by omega) hn
    have hmove (y : ℤ) : (s.move size (j * size) (j * size + size)).arr y =
        if (j : ℤ) * size ≤ y ∧ y < j * size + size then s.arr (y + size) else s.arr y := by
      rw [move]
      dsimp only
      rw [Mem.store_slice, show (j : ℤ) * size + size + (y - j * size) = y + size by ring]
    have hturns : (0 : ℤ) ≤ turns * size :=
      mul_nonneg (Int.natCast_nonneg turns) (Int.natCast_nonneg size)
    rw [moveBlocks, ih (by omega), hoff, hmove, hmove]
    push_cast
    simp only [add_mul, one_mul]
    -- the others of these elements are moved in the turns to go, and the first one is moved now
    by_cases hrest : (j : ℤ) * size + size ≤ x ∧ x < j * size + size + turns * size
    · rw [if_pos hrest, if_neg (by omega), if_pos (by omega)]
    · rw [if_neg hrest]
      by_cases hfirst : (j : ℤ) * size ≤ x ∧ x < j * size + size
      · rw [if_pos hfirst, if_pos (by omega)]
      · rw [if_neg hfirst, if_neg (by omega)]

/-- **A turn of the outer loop** rotates the array by one place, and leaves what stands behind it as
it was. -/
theorem rotateOnce_arr (hn : ((n - 1 : ℕ) : ℤ) * size < 2 ^ 31) (hpos : 1 ≤ n) :
    (rotateOnce n size s).arr x =
      if ((n - 1 : ℕ) : ℤ) * size ≤ x ∧ x < ((n - 1 : ℕ) : ℤ) * size + size then
        s.arr (x - ((n - 1 : ℕ) : ℤ) * size)
      else if 0 ≤ x ∧ x < ((n - 1 : ℕ) : ℤ) * size then s.arr (x + size)
      else s.arr x := by
  have hoff : i32 (((n : ℤ) - 1) * size) = ((n - 1 : ℕ) : ℤ) * size := by
    rw [← i32_offset (show n - 1 < n by omega) hn, Nat.cast_sub hpos, Nat.cast_one]
  rw [rotateOnce, restore, hoff, moveBlocks_temp, save]
  dsimp only
  rw [Mem.store_slice, moveBlocks_arr (by omega) hn, Nat.zero_add, end_eq hpos, Nat.cast_zero,
    zero_mul]
  simp only [zero_add]
  -- the place of the last element, which the inner loop has written to, is written to again
  split_ifs <;> first | rfl | omega

theorem rotateOnce_elem (hn : ((n - 1 : ℕ) : ℤ) * size < 2 ^ 31) {i : ℕ} (hi : i < n) :
    Mem.elem (rotateOnce n size s).arr size i = Mem.elem s.arr size ((i + 1) % n) := by
  refine Mem.elem_eq_iff.2 fun t ht => ?_
  have hplace : 0 ≤ ((i * size : ℕ) : ℤ) := Int.natCast_nonneg _
  rw [rotateOnce_arr hn (by omega)]
  rcases Nat.lt_or_ge (i + 1) n with hlt | hge
  · -- an element that is moved to the place before its own
    have hle : ((i * size : ℕ) : ℤ) + size ≤ ((n - 1 : ℕ) : ℤ) * size := by
      have hmul : (i + 1) * size ≤ (n - 1) * size := Nat.mul_le_mul_right size (by omega)
      rw [Nat.add_one_mul] at hmul
      exact_mod_cast hmul
    have hnext : ((i * size : ℕ) : ℤ) + t + size = (((i + 1) * size : ℕ) : ℤ) + t := by
      push_cast
      ring
    rw [Nat.mod_eq_of_lt hlt, if_neg (by omega), if_pos (by omega), hnext]
  · obtain rfl : i = n - 1 := by omega
    have hlast : (((n - 1) * size : ℕ) : ℤ) = ((n - 1 : ℕ) : ℤ) * size := Nat.cast_mul _ _
    have hfirst : (n - 1 + 1) % n = 0 := by
      rw [Nat.sub_add_cancel (by omega), Nat.mod_self]
    rw [hlast, hfirst, if_pos (by omega), add_sub_cancel_left, Nat.zero_mul, Nat.cast_zero, zero_add]

/-- **The run of the outer loop** rotates the array by as many places as it has turns. -/
theorem rotateTurns_elem (hn : ((n - 1 : ℕ) : ℤ) * size < 2 ^ 31) {i : ℕ} (hi : i < n) :
    Mem.elem (rotateTurns n size k s).arr size i = Mem.elem s.arr size ((i + k) % n) := by
  induction k generalizing s with
  | zero => rw [Nat.add_zero, Nat.mod_eq_of_lt hi, rotateTurns]
  | succ k ih =>
    rw [rotateTurns, ih, rotateOnce_elem hn (Nat.mod_lt _ (by omega)), Nat.mod_add_mod, add_assoc]

theorem rotateTurns_behind (hn : ((n - 1 : ℕ) : ℤ) * size < 2 ^ 31) (hpos : 1 ≤ n)
    (hx : (n : ℤ) * size ≤ x) : (rotateTurns n size k s).arr x = s.arr x := by
  rw [end_eq hpos] at hx
  have hplace : (0 : ℤ) ≤ ((n - 1 : ℕ) : ℤ) * size :=
    mul_nonneg (Int.natCast_nonneg _) (Int.natCast_nonneg size)
  induction k generalizing s with
  | zero => rfl
  | succ k ih =>
    rw [rotateTurns, ih, rotateOnce_arr hn hpos, if_neg (by omega), if_neg (by omega)]

/-! ### Offsets that overflow -/

/-- No offset is more than an `i32_t`, so that nothing is written from there on. -/
theorem store_far {m : ℤ → UInt8} {bs : List UInt8} (v : ℤ) (hlen : bs.length = size)
    (hx : 2 ^ 31 + (size : ℤ) ≤ x + 1) : Mem.store m (i32 v) bs x = m x := by
  have hlt := i32_lt v
  exact Mem.store_of_le (by omega)

theorem moveBlocks_far (hx : 2 ^ 31 + (size : ℤ) ≤ x + 1) :
    (moveBlocks size turns j s).arr x = s.arr x := by
  induction turns generalizing j s with
  | zero => rfl
  | succ turns ih => exact ih.trans (store_far _ (Mem.length_slice _ _ _) hx)

theorem rotateTurns_far (hx : 2 ^ 31 + (size : ℤ) ≤ x + 1) :
    (rotateTurns n size k s).arr x = s.arr x := by
  induction k generalizing s with
  | zero => rfl
  | succ k ih =>
    rw [rotateTurns, ih, rotateOnce, restore, moveBlocks_temp]
    exact (store_far _ (Mem.length_slice _ _ _) hx).trans (moveBlocks_far hx)

/-! ### The blocks that are read and written -/

/-- Where the blocks begin that one turn of the inner loop reads and writes. -/
def moveOffsets (size j : ℕ) : List ℤ := [i32 (j * size) + size, i32 (j * size)]

/-- Where the blocks begin that a turn of the outer loop reads and writes. -/
def turnOffsets (n size : ℕ) : List ℤ :=
  0 :: (List.range' 0 n).flatMap (moveOffsets size) ++ [i32 ((n - 1) * size)]

theorem moveBlocks_touched (size turns j : ℕ) (s : Rotating) :
    (moveBlocks size turns j s).touched =
      s.touched ++ (List.range' j turns).flatMap (moveOffsets size) := by
  induction turns generalizing j s with
  | zero => simp [moveBlocks]
  | succ turns ih =>
    rw [moveBlocks, ih, List.range'_succ, List.flatMap_cons, ← List.append_assoc]
    rfl

theorem rotateOnce_touched (n size : ℕ) (s : Rotating) :
    (rotateOnce n size s).touched = s.touched ++ turnOffsets n size := by
  rw [rotateOnce, restore]
  dsimp only
  rw [moveBlocks_touched, save, turnOffsets]
  simp

/-- Each turn reads and writes the same blocks. -/
theorem mem_touched_iff {off : ℤ} : off ∈ (rotateTurns n size k s).touched ↔
    off ∈ s.touched ∨ k ≠ 0 ∧ off ∈ turnOffsets n size := by
  induction k generalizing s with
  | zero => simp [rotateTurns]
  | succ k ih =>
    rw [rotateTurns, ih, rotateOnce_touched, List.mem_append]
    simp only [ne_eq, Nat.add_one_ne_zero, not_false_eq_true, true_and]
    tauto

/-- The block at this offset is inside of the array. -/
def Inside (n size : ℕ) (off : ℤ) : Prop := 0 ≤ off ∧ off + size ≤ n * size

/-- The first multiple that is as large as `m`. -/
theorem exists_mul_ge (hsize : 1 ≤ size) (m : ℕ) : ∃ j, m ≤ j * size ∧ j * size < m + size := by
  have hdiv := Nat.div_add_mod (m + size - 1) size
  have hmod := Nat.mod_lt (m + size - 1) hsize
  refine ⟨(m + size - 1) / size, ?_⟩
  rw [mul_comm]
  omega

/-- **A turn leaves the array**: behind its end, or before its start when an offset overflows. -/
theorem exists_outside (hn : 1 ≤ n) (hsize : 1 ≤ size) (hlt : size < 2 ^ 31) :
    ∃ off ∈ turnOffsets n size, ¬Inside n size off := by
  have hmem : ∀ j < n, ∀ off ∈ moveOffsets size j, off ∈ turnOffsets n size := by
    intro j hj off hoff
    refine List.mem_append_left _ (List.mem_cons_of_mem _ (List.mem_flatMap.2 ⟨j, ?_, hoff⟩))
    exact List.mem_range'_1.2 ⟨Nat.zero_le j, by omega⟩
  by_cases hfits : ((n - 1 : ℕ) : ℤ) * size < 2 ^ 31
  · refine ⟨_, hmem (n - 1) (by omega) _ List.mem_cons_self, fun hinside => ?_⟩
    have hend := hinside.2
    rw [i32_offset (show n - 1 < n by omega) hfits, end_eq hn] at hend
    omega
  · -- the first offset that overflows is negative
    obtain ⟨j, hlow, hhigh⟩ := exists_mul_ge hsize (2 ^ 31)
    have hj : j < n := by
      by_contra hge
      have hmul : (n - 1 : ℕ) * size + size ≤ j * size := by
        rw [← Nat.add_one_mul]
        exact Nat.mul_le_mul_right size (by omega)
      have hlarge : 2 ^ 31 ≤ (n - 1) * size := by exact_mod_cast not_lt.1 hfits
      omega
    refine ⟨_, hmem j hj _ (List.mem_cons_of_mem _ List.mem_cons_self), fun hinside => ?_⟩
    have hnonneg := hinside.1
    have hcast : ((j * size : ℕ) : ℤ) = j * size := Nat.cast_mul j size
    rw [i32_of_ge (by omega) (by omega)] at hnonneg
    omega

end Rotating

/-! ### Calls of `array_rotate` -/

/-- A call with `METHOD_SEQ`: the number of elements, their size, and by how many places the array
is rotated. -/
structure RotateCall where
  n : ℕ
  size : ℕ
  k : ℕ
  n_pos : 1 ≤ n
  size_pos : 1 ≤ size
  n_lt : n < 2 ^ 31
  size_lt : size < 2 ^ 31
  k_lt : k < 2 ^ 31

namespace RotateCall

open Rotating

variable (c : RotateCall)

/-- The call for an array with these contents, and whatever stands behind it. -/
def run (alloc : Bool) (arr : ℤ → UInt8) : Option (ℤ × Rotating) :=
  arrayRotate alloc arr c.n c.k ⟨.seq, c.size⟩

theorem run_true (arr : ℤ → UInt8) : c.run true arr =
    some (0, rotateTurns c.n c.size (c.k % c.n) ⟨arr, List.replicate c.size 0, []⟩) := by
  have hpos := c.n_pos
  have hmod : ((c.k : ℤ).tmod c.n).toNat = c.k % c.n := by
    rw [← Int.ofNat_tmod, Int.toNat_natCast]
  rw [run, arrayRotate, if_neg (by omega)]
  dsimp only
  rw [rotateBySeq, if_neg (by simp), hmod]
  rfl

/-- A call without a temporary does nothing. -/
theorem run_false (arr : ℤ → UInt8) : c.run false arr = some (-1, ⟨arr, [], []⟩) := by
  have hpos := c.n_pos
  rw [run, arrayRotate, if_neg (by omega)]
  rfl

/-- **The array is rotated**: each element is the one that stood `k` places behind it, going round,
and what stands behind the array is as it was. -/
def Rotates : Prop :=
  ∀ arr, ∃ s, c.run true arr = some (0, s) ∧
    (∀ i < c.n, Mem.elem s.arr c.size i = Mem.elem arr c.size ((i + c.k) % c.n)) ∧
      ∀ x, (c.n : ℤ) * c.size ≤ x → s.arr x = arr x

/-- **The call stays inside of the array**: so do all blocks that it reads or writes. -/
def StaysInside : Prop :=
  ∀ alloc arr code s, c.run alloc arr = some (code, s) → ∀ off ∈ s.touched, Inside c.n c.size off

variable {c}

/-- The last element comes from the place before. -/
theorem place_of_last (hturn : c.k % c.n ≠ 0) : (c.n - 1 + c.k) % c.n = c.k % c.n - 1 := by
  have hn := c.n_pos
  have hlt := Nat.mod_lt c.k hn
  have hlast : (c.n - 1) % c.n = c.n - 1 := Nat.mod_eq_of_lt (by omega)
  have hsum : c.n - 1 + c.k % c.n = c.k % c.n - 1 + c.n := by omega
  rw [Nat.add_mod, hlast, hsum, Nat.add_mod_right, Nat.mod_eq_of_lt (by omega)]

/-- The last byte of a large array stays where it is. -/
theorem not_rotates_far (hturn : c.k % c.n ≠ 0) (hover : 2 ^ 31 ≤ ((c.n - 1 : ℕ) : ℤ) * c.size) :
    ¬c.Rotates := by
  intro h
  have hn := c.n_pos
  have hsize := c.size_pos
  obtain ⟨arr, hone, hzero⟩ : ∃ arr : ℤ → UInt8, arr ((c.n : ℤ) * c.size - 1) = 1 ∧
      ∀ x ≠ (c.n : ℤ) * c.size - 1, arr x = 0 :=
    ⟨fun x => if x = (c.n : ℤ) * c.size - 1 then 1 else 0, if_pos rfl, fun x hx => if_neg hx⟩
  obtain ⟨s, hrun, helem, -⟩ := h arr
  rw [c.run_true] at hrun
  cases hrun
  have hlast : (c.n : ℤ) * c.size - 1 = (((c.n - 1) * c.size : ℕ) : ℤ) + (c.size - 1 : ℕ) := by
    push_cast [hn, hsize]
    ring
  have hbyte := Mem.elem_eq_iff.1 (helem (c.n - 1) (by omega)) (c.size - 1) (by omega)
  rw [place_of_last hturn, ← hlast, rotateTurns_far (by push_cast at hover; omega)] at hbyte
  change arr _ = arr _ at hbyte
  -- the byte that should have come to the last place is another one
  have hother : ((c.k % c.n - 1) * c.size : ℕ) + c.size ≤ (c.n - 1) * c.size := by
    have hlt := Nat.mod_lt c.k hn
    rw [← Nat.add_one_mul]
    exact Nat.mul_le_mul_right c.size (by omega)
  rw [hone, hzero _ (by omega)] at hbyte
  exact absurd hbyte (by decide)

end RotateCall

open Rotating RotateCall in
/-- **When the array is rotated**: there is nothing to do, or the offset of the last element is an
`i32_t`. -/
theorem rotates_iff (c : RotateCall) :
    c.Rotates ↔ c.k % c.n = 0 ∨ ((c.n - 1 : ℕ) : ℤ) * c.size < 2 ^ 31 := by
  have hpos := c.n_pos
  constructor
  · intro h
    by_contra hbad
    rw [not_or, not_lt] at hbad
    obtain ⟨hturn, hover⟩ := hbad
    exact not_rotates_far hturn hover h
  · intro h arr
    refine ⟨_, c.run_true arr, fun i hi => ?_, fun x hx => ?_⟩
    · rcases h with hnone | hfits
      · rw [hnone, Nat.add_mod, hnone, Nat.add_zero, Nat.mod_mod, Nat.mod_eq_of_lt hi]
        rfl
      · rw [rotateTurns_elem hfits hi, Nat.add_mod_mod]
    · rcases h with hnone | hfits
      · rw [hnone]
        rfl
      · exact rotateTurns_behind hfits hpos hx

/-- The numbers of the calls below are `int`. -/
theorem numbers_lt : (1 < 2 ^ 31 ∧ 2 < 2 ^ 31) ∧ 3 < 2 ^ 31 ∧ 2 ^ 30 < 2 ^ 31 := by decide

/-- Three elements of 1 GiB, rotated by one place. -/
def threeGiB : RotateCall where
  n := 3
  size := 2 ^ 30
  k := 1
  n_pos := Nat.le_add_left 1 2
  size_pos := Nat.one_le_two_pow
  n_lt := numbers_lt.2.1
  size_lt := numbers_lt.2.2
  k_lt := numbers_lt.1.1

/-- The last element is looked for 2 GiB before the array. -/
theorem large_array_not_rotated : i32 (2 * 2 ^ 30) = -2 ^ 31 ∧ ¬threeGiB.Rotates :=
  ⟨by decide, RotateCall.not_rotates_far (by decide) (by decide)⟩

/-- **When the call stays inside of the array**: there is nothing to do. -/
theorem stays_inside_iff (c : RotateCall) : c.StaysInside ↔ c.k % c.n = 0 := by
  constructor
  · intro h
    by_contra hturn
    obtain ⟨off, hoff, hout⟩ := Rotating.exists_outside c.n_pos c.size_pos c.size_lt
    exact hout (h true (fun _ => 0) _ _ (c.run_true _) off
      (Rotating.mem_touched_iff.2 (.inr ⟨hturn, hoff⟩)))
  · intro hnone alloc arr code s hrun off hoff
    cases alloc with
    | true =>
      rw [c.run_true, hnone] at hrun
      cases hrun
      cases hoff
    | false =>
      rw [c.run_false] at hrun
      cases hrun
      cases hoff

/-- Two elements of one byte, rotated by one place: the byte behind them is read. -/
def twoElems : RotateCall where
  n := 2
  size := 1
  k := 1
  n_pos := Nat.le_add_left 1 1
  size_pos := Nat.le_refl 1
  n_lt := numbers_lt.1.2
  size_lt := numbers_lt.1.1
  k_lt := numbers_lt.1.1

theorem byte_behind_is_read : ¬twoElems.StaysInside := by
  intro h
  have hinside := h true (fun _ => 0) _ _ (twoElems.run_true _) 2 (by decide)
  exact absurd hinside.2 (by decide)

end F1Goal
