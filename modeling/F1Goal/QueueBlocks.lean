import F1Goal.Server

/-!
# The addresses of the blocks (`f1g_queue.c`)

`que_obj_init` computes the size of the allocation in a `size_t`, and the macros `BLK_ADDR`,
`HEAD_BLK_ADDR` and `TAIL_BLK_ADDR` the place of a block in an `int`. `malloc` may give more than
2 GiB, so that nothing but the numbers of the caller keeps the two together
(`addresses_exact_iff`). Where they do, the queue is a bounded FIFO, at the addresses that are
computed (`que_bounded_fifo`).
-/

namespace F1Goal

/-- `que_obj_init` and the number of bytes that it asks for; `none` is `F1G_ERR`. -/
def queObjInitRoom (malloc : ℕ → Option (ℤ → Block)) (blkSize blkNum : ℤ) : Option (Que × ℕ) :=
  let room := sizeT (sizeT (blkSize + elemSize) * sizeT blkNum)
  (malloc room).map fun buffer => (queObjInitI32 blkSize blkNum buffer, room)

namespace Que

/-- `BLK_ADDR(pos, p_obj)`, from the start of `buffer`. -/
def blkAddr (q : Que) (pos : ℤ) : ℤ := i32 (pos * q.blkSize)

/-- `TAIL_BLK_ADDR(p_obj)` -/
def tailBlkAddr (q : Que) : ℤ := i32 (q.tail * q.blkSize)

/-- `HEAD_BLK_ADDR(p_obj)` -/
def headBlkAddr (q : Que) : ℤ := i32 (q.front * q.blkSize)

/-- The bytes of the block at `pos`. -/
def blkBytes (q : Que) (pos : ℤ) : Set ℤ := Set.Ico (q.blkAddr pos) (q.blkAddr pos + q.blkSize)

end Que

/-- A queue for which `que_obj_init` has returned `F1G_OK`. -/
structure QueMade where
  malloc : ℕ → Option (ℤ → Block)
  blkSize : ℤ
  blkNum : ℤ
  size_nonneg : 0 ≤ blkSize
  size_lt : blkSize < 2 ^ 31
  num_pos : 1 ≤ blkNum
  num_lt : blkNum < 2 ^ 31
  que : Que
  room : ℕ
  made : queObjInitRoom malloc blkSize blkNum = some (que, room)

/-- **The addresses are exact**: the size of a block is stored, no offset overflows, and the blocks
are apart from each other and inside of the allocation. -/
structure AddressesExact (c : QueMade) : Prop where
  size : c.que.blkSize = c.blkSize + elemSize
  blk : ∀ pos ∈ Set.Ico 0 c.blkNum, c.que.blkAddr pos = pos * c.que.blkSize
  head : ∀ pos ∈ Set.Ico 0 c.blkNum,
    Que.headBlkAddr { c.que with front := pos } = pos * c.que.blkSize
  tail : ∀ pos ∈ Set.Ico 0 c.blkNum,
    Que.tailBlkAddr { c.que with tail := pos } = pos * c.que.blkSize
  apart : ∀ pos ∈ Set.Ico 0 c.blkNum, ∀ pos' ∈ Set.Ico 0 c.blkNum, pos ≠ pos' →
    ∀ x ∈ c.que.blkBytes pos, x ∉ c.que.blkBytes pos'
  inside : ∀ pos ∈ Set.Ico 0 c.blkNum, c.que.blkBytes pos ⊆ Set.Ico 0 c.room

namespace QueMade

variable {c : QueMade}

/-- The queue is an empty one, with what `malloc` has returned. -/
theorem exists_buffer (c : QueMade) :
    ∃ buffer, c.que = queObjInitI32 c.blkSize c.blkNum buffer := by
  obtain ⟨buffer, -, heq⟩ := Option.map_eq_some_iff.1 c.made
  exact ⟨buffer, (congrArg Prod.fst heq).symm⟩

theorem que_blkSize (c : QueMade) : c.que.blkSize = i32 (c.blkSize + elemSize) := by
  obtain ⟨buffer, hque⟩ := c.exists_buffer
  rw [hque]
  rfl

/-- The allocation has room for the blocks: no size that can be asked for is too large for a
`size_t`. -/
theorem room_eq (c : QueMade) : (c.room : ℤ) = c.blkNum * (c.blkSize + elemSize) := by
  have hsize := c.size_nonneg
  have hsize' := c.size_lt
  have hnum := c.num_pos
  have hnum' := c.num_lt
  have hnonneg : 0 ≤ (c.blkSize + elemSize) * c.blkNum := by
    unfold elemSize
    exact mul_nonneg (by omega) (by omega)
  have hlt : (c.blkSize + elemSize) * c.blkNum < 2 ^ 64 := by
    have hle : (c.blkSize + elemSize) * c.blkNum ≤ 2 ^ 32 * 2 ^ 31 := by
      unfold elemSize
      exact mul_le_mul (by omega) (by omega) (by omega) (by norm_num)
    omega
  obtain ⟨buffer, -, heq⟩ := Option.map_eq_some_iff.1 c.made
  have hroom : c.room = sizeT (sizeT (c.blkSize + elemSize) * sizeT c.blkNum) :=
    (congrArg Prod.snd heq).symm
  have hblock : ((sizeT (c.blkSize + elemSize) : ℕ) : ℤ) = c.blkSize + elemSize := by
    unfold elemSize
    rw [sizeT_of_range (by omega) (by omega), Int.toNat_of_nonneg (by omega)]
  have hblocks : ((sizeT c.blkNum : ℕ) : ℤ) = c.blkNum := by
    rw [sizeT_of_range (by omega) (by omega), Int.toNat_of_nonneg (by omega)]
  rw [hroom, hblock, hblocks, sizeT_of_range hnonneg hlt, Int.toNat_of_nonneg hnonneg, mul_comm]

/-- **An address that does not overflow**: the last block begins below 2 GiB. -/
theorem blkAddr_eq (hsize : c.que.blkSize = c.blkSize + elemSize)
    (hlast : (c.blkNum - 1) * (c.blkSize + elemSize) < 2 ^ 31) {pos : ℤ}
    (hpos : pos ∈ Set.Ico 0 c.blkNum) : c.que.blkAddr pos = pos * c.que.blkSize := by
  have hnonneg : 0 ≤ c.blkSize + elemSize := by
    have hnonneg := c.size_nonneg
    unfold elemSize
    omega
  have hlow : 0 ≤ pos * (c.blkSize + elemSize) := mul_nonneg hpos.1 hnonneg
  have hhigh : pos * (c.blkSize + elemSize) ≤ (c.blkNum - 1) * (c.blkSize + elemSize) :=
    mul_le_mul_of_nonneg_right (Int.le_sub_one_of_lt hpos.2) hnonneg
  rw [Que.blkAddr, hsize]
  exact i32_of_range (by omega) (by omega)

/-- The bytes of a block, when its address does not overflow. -/
theorem blkBytes_eq {pos : ℤ} (haddr : c.que.blkAddr pos = pos * c.que.blkSize) :
    c.que.blkBytes pos = Set.Ico (pos • c.que.blkSize) ((pos + 1) • c.que.blkSize) := by
  rw [Que.blkBytes, haddr, smul_eq_mul, smul_eq_mul, add_mul, one_mul]

/-- An offset of the last block that is an `int` is enough. -/
theorem exact_of_last (c : QueMade) (hfits : c.blkSize + elemSize < 2 ^ 31)
    (hlast : (c.blkNum - 1) * (c.blkSize + elemSize) < 2 ^ 31) : AddressesExact c := by
  have hnonneg := c.size_nonneg
  have hsize : c.que.blkSize = c.blkSize + elemSize := by
    rw [c.que_blkSize]
    exact i32_of_range (by unfold elemSize; omega) hfits
  have haddr : ∀ pos ∈ Set.Ico 0 c.blkNum, c.que.blkAddr pos = pos * c.que.blkSize :=
    fun pos hpos => blkAddr_eq hsize hlast hpos
  refine ⟨hsize, haddr, haddr, haddr, fun pos hpos pos' hpos' hne x hx => ?_, fun pos hpos => ?_⟩
  · rw [blkBytes_eq (haddr pos hpos)] at hx
    rw [blkBytes_eq (haddr pos' hpos')]
    exact Set.disjoint_left.1 (Set.pairwise_disjoint_Ico_zsmul c.que.blkSize hne) hx
  · have hpositive : 0 ≤ c.que.blkSize := by
      rw [hsize]
      unfold elemSize
      omega
    rw [blkBytes_eq (haddr pos hpos), c.room_eq, ← hsize]
    refine Set.Ico_subset_Ico (mul_nonneg hpos.1 hpositive) ?_
    exact mul_le_mul_of_nonneg_right (by simpa using hpos.2) hpositive

end QueMade

/-- **When the addresses are exact**: the size of a block is an `int`, and so is the offset of the
last one. -/
theorem addresses_exact_iff (c : QueMade) : AddressesExact c ↔
    c.blkSize + elemSize < 2 ^ 31 ∧ (c.blkNum - 1) * (c.blkSize + elemSize) < 2 ^ 31 := by
  have hnum := c.num_pos
  constructor
  · intro h
    refine ⟨?_, ?_⟩
    · rw [← h.size, c.que_blkSize]
      exact i32_lt _
    · rw [← h.size, ← h.blk (c.blkNum - 1) ⟨by omega, by omega⟩]
      exact i32_lt _
  · rintro ⟨hfits, hlast⟩
    exact c.exact_of_last hfits hlast

/-- 4096 blocks of 1 MiB. -/
def fourGiBQueue : QueMade where
  malloc := fun _ => some fun _ => ⟨0, 0, []⟩
  blkSize := 2 ^ 20 - 8
  blkNum := 4096
  size_nonneg := by decide
  size_lt := by decide
  num_pos := by decide
  num_lt := by decide
  que := queObjInitI32 (2 ^ 20 - 8) 4096 fun _ => ⟨0, 0, []⟩
  room := 2 ^ 32
  made := rfl

/-- The block in the middle is looked for 2 GiB before the first one. -/
theorem offset_overflows :
    fourGiBQueue.que.blkAddr 2048 = -2 ^ 31 ∧ ¬AddressesExact fourGiBQueue := by
  have haddr : fourGiBQueue.que.blkAddr 2048 = -2 ^ 31 := by decide
  refine ⟨haddr, fun hexact => ?_⟩
  have hoffset := hexact.blk 2048 ⟨by decide, by decide⟩
  rw [haddr, hexact.size] at hoffset
  exact absurd hoffset (by decide)

/-! ### The blocks in a run -/

/-- The test of `que_obj_add`: the sizes are compared as `size_t`. -/
def Que.Refuses (q : Que) (dataSize : ℤ) : Prop := sizeT (q.blkSize - elemSize) < sizeT dataSize

/-- **The blocks at a moment of a run**: every address that is computed is that of the block meant,
inside of the allocation, and `que_obj_add` refuses what is negative or does not fit. -/
structure BlocksExact (c : QueMade) (q : Que) : Prop where
  blkSize : q.blkSize = c.blkSize + elemSize
  head : q.headBlkAddr = q.front * q.blkSize ∧ q.blkBytes q.front ⊆ Set.Ico 0 c.room
  tail : q.tailBlkAddr = q.tail * q.blkSize ∧ q.blkBytes q.tail ⊆ Set.Ico 0 c.room
  last : ∀ pos, queObjTail q = some pos →
    q.blkAddr pos = pos * q.blkSize ∧ q.blkBytes pos ⊆ Set.Ico 0 c.room
  refuses : ∀ dataSize, IsI32 dataSize →
    (q.Refuses dataSize ↔ dataSize < 0 ∨ q.blkSize - elemSize < dataSize)

/-- The block of the last live element has that element. -/
def TailGives (s : QueSys) : Prop :=
  ∀ e, s.live.getLast? = some e → ∃ p, queObjTail s.que = some p ∧ (s.que.buffer p).elem = e

/-- A queue that was made, before its first call. -/
theorem QueMade.start_inv (c : QueMade) : QueInv c.blkNum (queStart c.que) := by
  obtain ⟨buffer, hque⟩ := c.exists_buffer
  have hinit : queObjInitI32 c.blkSize c.blkNum buffer =
      queObjInit (i32 (c.blkSize + elemSize) - elemSize) c.blkNum buffer := by
    simp only [queObjInitI32, queObjInit, Int.sub_add_cancel]
  rw [hque, hinit]
  exact queStart_inv _ buffer c.num_pos

/-- A negative size is a large `size_t`. -/
theorem Que.refuses_iff {q : Que} (hlow : elemSize ≤ q.blkSize) (hhigh : q.blkSize < 2 ^ 31)
    {dataSize : ℤ} (h : IsI32 dataSize) :
    q.Refuses dataSize ↔ dataSize < 0 ∨ q.blkSize - elemSize < dataSize := by
  obtain ⟨hsize, hsize'⟩ := h
  have hroom : sizeT (q.blkSize - elemSize) = (q.blkSize - elemSize).toNat :=
    sizeT_of_range (by omega) (by unfold elemSize; omega)
  rw [Que.Refuses, hroom]
  by_cases hneg : dataSize < 0
  · have hwrap : sizeT dataSize = (dataSize + 2 ^ 64).toNat := by
      rw [sizeT, ← Int.add_emod_right, Int.emod_eq_of_lt (by omega) (by omega)]
    rw [hwrap]
    exact iff_of_true (by unfold elemSize; omega) (.inl hneg)
  · rw [sizeT_of_range (by omega) (by omega)]
    omega

section Run

variable {c : QueMade} {acts : List QueAct} {s : QueSys}

theorem QueMade.run_inv (hrun : Lts.run queStep (queStart c.que) acts = some s) :
    QueInv c.blkNum s :=
  Lts.run_invariant (fun _ _ _ h hst => queStep_inv h hst) c.start_inv hrun

theorem QueMade.run_blkSize (hrun : Lts.run queStep (queStart c.que) acts = some s) :
    s.que.blkSize = c.que.blkSize :=
  Lts.run_invariant (I := fun t => t.que.blkSize = c.que.blkSize)
    (fun _ _ _ h hst => (queStep_blkSize hst).trans h) rfl hrun

/-- **In every run** of a queue with exact addresses the blocks are where they are meant to be. -/
theorem run_addresses (hexact : AddressesExact c)
    (hrun : Lts.run queStep (queStart c.que) acts = some s) : BlocksExact c s.que := by
  have hinv := QueMade.run_inv hrun
  have hsize := QueMade.run_blkSize hrun
  have hblk (pos : ℤ) : s.que.blkAddr pos = c.que.blkAddr pos ∧
      s.que.blkBytes pos = c.que.blkBytes pos := by
    rw [Que.blkBytes, Que.blkBytes, Que.blkAddr, Que.blkAddr, hsize]
    exact ⟨rfl, rfl⟩
  have hplace (pos : ℤ) (hpos : pos ∈ Set.Ico 0 c.blkNum) :
      s.que.blkAddr pos = pos * s.que.blkSize ∧ s.que.blkBytes pos ⊆ Set.Ico 0 c.room := by
    rw [(hblk pos).1, (hblk pos).2, hsize]
    exact ⟨hexact.blk pos hpos, hexact.inside pos hpos⟩
  have hlow := c.size_nonneg
  have hmeant : s.que.blkSize = c.blkSize + elemSize := hsize.trans hexact.size
  refine
    { blkSize := hmeant
      head := hplace _ ⟨hinv.front_nonneg, hinv.front_lt⟩
      tail := hplace _ ⟨hinv.tail_nonneg, hinv.tail_lt⟩
      last := fun pos hpos => ?_
      refuses := fun dataSize h => Que.refuses_iff (by omega) ?_ h }
  · cases hlive : s.live.getLast? with
    | none =>
      rw [hinv.fifo.tail_empty (List.getLast?_eq_none_iff.1 hlive)] at hpos
      cases hpos
    | some e =>
      rw [(hinv.fifo.tail_last e hlive).1] at hpos
      cases hpos
      exact hplace _ ⟨Ring.pos_nonneg hinv.n_pos _, Ring.pos_lt hinv.n_pos _⟩
  · rw [hsize, c.que_blkSize]
    exact i32_lt _

end Run

/-- **The ring queue is a bounded FIFO**: after every interleaving of the statements of one producer
and one consumer, on a queue whose last block begins below 2 GiB. -/
theorem que_bounded_fifo (c : QueMade) (hsize : c.blkSize + elemSize < 2 ^ 31)
    (hlast : (c.blkNum - 1) * (c.blkSize + elemSize) < 2 ^ 31) (acts : List QueAct) (s : QueSys)
    (hrun : Lts.run queStep (queStart c.que) acts = some s) :
    QueFifo c.blkNum s ∧ BlocksExact c s.que :=
  ⟨(QueMade.run_inv hrun).fifo, run_addresses (c.exact_of_last hsize hlast) hrun⟩

/-- Two blocks of eight bytes. -/
def twoBlockQueue : QueMade where
  malloc := fun _ => some fun _ => ⟨0, 0, []⟩
  blkSize := 8
  blkNum := 2
  size_nonneg := by decide
  size_lt := by decide
  num_pos := by decide
  num_lt := by decide
  que := queObjInitI32 8 2 fun _ => ⟨0, 0, []⟩
  room := 32
  made := rfl

/-- The producer publishes an element of one byte, the consumer executes `n` statements, and the
producer calls `que_obj_tail`. -/
def oneByteActs (n : ℕ) : List QueAct :=
  .add [65] :: (List.replicate 5 .prod ++ List.replicate n .cons ++ [.last, .prod])

/-- The consumer goes once around. -/
theorem que_bounded_fifo_two : ∃ s, (QueFifo 2 s ∧ BlocksExact twoBlockQueue s.que) ∧
    s.seen = [⟨1, [65]⟩] ∧ s.popped = 1 :=
  ⟨_, que_bounded_fifo twoBlockQueue (by decide) (by decide) (oneByteActs 10) _ rfl, rfl, rfl⟩

/-- The consumer stands in `que_obj_pop`, behind `p_elem->data_len = 0`: the block that
`que_obj_tail` returns has no bytes, and the element is live. -/
theorem tail_gives_cleared : ∃ s,
    Lts.run queStep (queStart twoBlockQueue.que) (oneByteActs 8) = some s ∧
      s.live = [⟨1, [65]⟩] ∧ s.last = some 0 ∧ (s.que.buffer 0).elem = ⟨0, []⟩ ∧
      ¬TailGives s := by
  refine ⟨_, rfl, rfl, rfl, rfl, fun h => ?_⟩
  obtain ⟨p, hp, he⟩ := h _ rfl
  cases hp
  cases he

end F1Goal
