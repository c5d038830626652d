import F1Goal.BasicTypes
import F1Goal.Lib.Lts

/-!
# The ring queue (`f1g_queue.c`)

A queue is a ring of `blk_num` blocks of `blk_size` bytes, each a header `elem_t` and a data region.
`front` is the position of the oldest element, `tail` the position behind the newest one, and one
block is always left free. A block is addressed by its position, and `buffer` maps a position to
the block there: the addresses of the blocks are taken to be exact, that is the offset of the last
block, which is computed as an `int`, not to overflow (`F1Goal.QueueBlocks`), and `blk_num` to be
positive.

After the functions of the file, each run to its end, comes the queue between one producer and one
consumer: `queStep` lets either of them execute its next statement that reads or writes `front`,
`tail` or a block. `add_run`, `moveNext_run`, `head_run` and `pop_run` say that the statements of a
call that is not interrupted compute what the function does.
-/

namespace F1Goal

/-- A block: the header `elem_t` and the bytes of the data region. -/
structure Block where
  status : ℤ
  dataLen : ℤ
  data : List UInt8
  deriving DecidableEq, Repr

/-- An element of the queue: its length and its bytes. -/
structure Elem where
  dataLen : ℤ
  data : List UInt8
  deriving DecidableEq, Repr

/-- The element that a block shows: `data_len` and that many bytes of the region. -/
def Block.elem (b : Block) : Elem := ⟨b.dataLen, b.data.take b.dataLen.toNat⟩

/-- `memcpy` to the start of the data region. -/
def Block.copyIn (b : Block) (d : List UInt8) : Block := { b with data := d ++ b.data.drop d.length }

/-- `que_obj_t`; `blkSize` counts the header. -/
structure Que where
  front : ℤ
  tail : ℤ
  blkSize : ℤ
  blkNum : ℤ
  buffer : ℤ → Block

/-- `sizeof(elem_t)` -/
def elemSize : ℤ := 8

/-- `que_obj_init` with the block that `malloc` returns. -/
def queObjInit (blkSize blkNum : ℤ) (buffer : ℤ → Block) : Que :=
  { front := 0, tail := 0, blkSize := blkSize + elemSize, blkNum := blkNum, buffer := buffer }

/-- `(pos + 1) % blk_num`. A position is below `blk_num`, so that the sum is an `i32_t`. -/
def Que.next (q : Que) (pos : ℤ) : ℤ := (pos + 1).tmod q.blkNum

/-- `que_obj_empty` -/
def queObjEmpty (q : Que) : Bool := q.front = q.tail

/-- `que_obj_full` -/
def queObjFull (q : Que) : Bool := q.front = q.next q.tail

/-- An assignment to the block at `p`. -/
def Que.setBlock (q : Que) (p : ℤ) (b : Block) : Que :=
  { q with buffer := Function.update q.buffer p b }

/-- `que_obj_pop` -/
def queObjPop (q : Que) : Que :=
  if q.front ≠ q.tail then
    { q.setBlock q.front { q.buffer q.front with dataLen := 0, status := 0 } with
      front := q.next q.front }
  else q

/-- `BLK_SIZE(p_obj) < data_size` -/
def Que.TooLong (q : Que) (d : List UInt8) : Prop := q.blkSize - elemSize < d.length

instance (q : Que) (d : List UInt8) : Decidable (q.TooLong d) :=
  inferInstanceAs (Decidable (_ < _))

/-- The block that `que_obj_add` stores `d` in. -/
def Block.store (b : Block) (d : List UInt8) : Block :=
  { b with dataLen := d.length, status := 1 }.copyIn d

/-- `que_obj_add` of the `data_size` bytes `d`. (A negative `data_size` is refused like one that is
too long: the sizes are compared as `size_t`.) -/
def queObjAdd (q : Que) (d : List UInt8) : Code × Que :=
  if q.TooLong d then (.err, q)
  else if q.next q.tail ≠ q.front then
    (.ok, { q.setBlock q.tail ((q.buffer q.tail).store d) with tail := q.next q.tail })
  else (.ok, q)

/-- `que_obj_head`: the position of the block returned. -/
def queObjHead (q : Que) : Option ℤ := if !queObjEmpty q then some q.front else none

/-- `que_obj_tail`: the position of the block returned. -/
def queObjTail (q : Que) : Option ℤ :=
  let tail := q.tail - 1
  if !queObjEmpty q then some (if tail < 0 then q.blkNum - 1 else tail) else none

/-- `que_obj_next_freeblk`: the position of the block returned. -/
def queObjNextFreeblk (q : Que) : ℤ := q.tail

/-- `que_obj_move_next` -/
def queObjMoveNext (q : Que) : Code × Que :=
  if queObjFull q then (.err, q) else (.ok, { q with tail := q.next q.tail })

/-! ### One producer, one consumer -/

/-- Where the producer stands: between two calls, holding the block of `que_obj_next_freeblk`, or at
a statement of a call. -/
inductive ProdPc
  | idle
  /-- holds the block at `p` -/
  | free (p : ℤ)
  /-- `que_obj_add`: at `p_elem = TAIL_BLK_ADDR(p_obj)` -/
  | addElem (d : List UInt8)
  /-- at `p_elem->data_len = data_size` -/
  | addLen (d : List UInt8) (p : ℤ)
  /-- at `p_elem->status = 0x01` -/
  | addStatus (d : List UInt8) (p : ℤ)
  /-- at `memcpy` -/
  | addData (d : List UInt8) (p : ℤ)
  /-- at `p_obj->tail = …` -/
  | addTail (d : List UInt8)
  /-- `que_obj_move_next`: at `p_obj->tail = …` -/
  | moveTail
  /-- `que_obj_tail`: at `que_obj_empty`, with the local `tail` -/
  | lastEmpty (tail : ℤ)
  deriving DecidableEq, Repr

/-- Where the consumer stands. -/
inductive ConsPc
  /-- at `que_obj_empty` -/
  | idle
  /-- `que_obj_head`: at `que_obj_empty` -/
  | headEmpty
  /-- at `HEAD_BLK_ADDR(p_obj)` -/
  | headAddr
  /-- has the block at `p`: at `BLK_DATA_LEN` -/
  | readLen (p : ℤ)
  /-- at `BLK_DATA` -/
  | readData (p len : ℤ)
  /-- `que_obj_pop`: at `p_obj->front != p_obj->tail`, still holding `p` -/
  | popTest (p : ℤ)
  /-- at `p_elem = BLK_ADDR(p_obj->front, p_obj)` -/
  | popElem
  /-- at `p_elem->data_len = 0` -/
  | popLen (p : ℤ)
  /-- at `p_elem->status = 0x00` -/
  | popStatus (p : ℤ)
  /-- at `p_obj->front = …` -/
  | popFront
  /-- `que_obj_head` has returned `NULL`, which is read -/
  | fault
  deriving DecidableEq, Repr

/-- The queue, the two sides, and the history: the elements handed in so far that have become live,
the number popped, the elements seen by the consumer, for each returned call of `que_obj_add` or
`que_obj_move_next` its code and whether its element became live, and what the last call of
`que_obj_tail` has returned. -/
structure QueSys where
  que : Que
  prod : ProdPc
  cons : ConsPc
  published : List Elem
  popped : ℕ
  seen : List Elem
  rets : List (Code × Bool)
  last : Option ℤ

/-- The system around a fresh queue. -/
def queStart (q : Que) : QueSys :=
  { que := q, prod := .idle, cons := .idle, published := [], popped := 0, seen := [], rets := [],
    last := none }

/-- The steps: the producer calls a function, writes the block it holds, or goes on with its call;
the consumer executes its next statement. -/
inductive QueAct
  | add (d : List UInt8)
  | nextFreeblk
  | write (b : Block)
  | moveNext
  | last
  | prod
  | cons
  deriving DecidableEq, Repr

/-- The producer is between two calls. -/
def ProdPc.ready : ProdPc → Bool
  | .idle => true
  | .free _ => true
  | _ => false

/-- `p_obj->tail = (p_obj->tail + 1) % p_obj->blk_num`, by which the element `e` becomes live; the
call returns `F1G_OK`. -/
def QueSys.moveTail (s : QueSys) (e : Elem) : QueSys :=
  { s with
    que := { s.que with tail := s.que.next s.que.tail }, prod := .idle
    published := s.published ++ [e], rets := s.rets ++ [(.ok, true)] }

/-- The next statement of the producer's call. -/
def prodStep (s : QueSys) : Option QueSys :=
  match s.prod with
  | .idle => none
  | .free _ => none
  | .addElem d => some { s with prod := .addLen d s.que.tail }
  | .addLen d p =>
    some { s with
      que := s.que.setBlock p { s.que.buffer p with dataLen := d.length }, prod := .addStatus d p }
  | .addStatus d p =>
    some { s with
      que := s.que.setBlock p { s.que.buffer p with status := 1 }, prod := .addData d p }
  | .addData d p =>
    some { s with que := s.que.setBlock p ((s.que.buffer p).copyIn d), prod := .addTail d }
  | .addTail d => some (s.moveTail ⟨d.length, d⟩)
  | .moveTail => some (s.moveTail (s.que.buffer s.que.tail).elem)
  | .lastEmpty tail =>
    let pos := if tail < 0 then s.que.blkNum - 1 else tail
    some { s with prod := .idle, last := if !queObjEmpty s.que then some pos else none }

/-- The next statement of the consumer. -/
def consStep (s : QueSys) : Option QueSys :=
  match s.cons with
  | .idle => some (if queObjEmpty s.que then s else { s with cons := .headEmpty })
  | .headEmpty =>
    some (if queObjEmpty s.que then { s with cons := .fault } else { s with cons := .headAddr })
  | .headAddr => some { s with cons := .readLen s.que.front }
  | .readLen p => some { s with cons := .readData p (s.que.buffer p).dataLen }
  | .readData p len =>
    some { s with
      cons := .popTest p, seen := s.seen ++ [⟨len, (s.que.buffer p).data.take len.toNat⟩] }
  | .popTest _ =>
    some (if s.que.front ≠ s.que.tail then { s with cons := .popElem } else { s with cons := .idle })
  | .popElem => some { s with cons := .popLen s.que.front }
  | .popLen p =>
    some { s with
      que := s.que.setBlock p { s.que.buffer p with dataLen := 0 }, cons := .popStatus p }
  | .popStatus p =>
    some { s with que := s.que.setBlock p { s.que.buffer p with status := 0 }, cons := .popFront }
  | .popFront =>
    some { s with
      que := { s.que with front := s.que.next s.que.front }, cons := .idle, popped := s.popped + 1 }
  | .fault => none

/-- One step of the system. -/
def queStep (s : QueSys) : QueAct → Option QueSys
  | .add d =>
    if s.prod.ready then
      if s.que.TooLong d then some { s with prod := .idle, rets := s.rets ++ [(.err, false)] }
      else if s.que.next s.que.tail ≠ s.que.front then some { s with prod := .addElem d }
      else some { s with prod := .idle, rets := s.rets ++ [(.ok, false)] }
    else none
  | .nextFreeblk =>
    if s.prod.ready then some { s with prod := .free (queObjNextFreeblk s.que) } else none
  | .write b =>
    match s.prod with
    | .free p => some { s with que := s.que.setBlock p b }
    | _ => none
  | .moveNext =>
    if s.prod.ready then
      if queObjFull s.que then some { s with rets := s.rets ++ [(.err, false)] }
      else some { s with prod := .moveTail }
    else none
  | .last => if s.prod.ready then some { s with prod := .lastEmpty (s.que.tail - 1) } else none
  | .prod => prodStep s
  | .cons => consStep s

/-! ### Calls that are not interrupted -/

@[simp] theorem Que.setBlock_front (q : Que) (p : ℤ) (b : Block) :
    (q.setBlock p b).front = q.front := rfl

@[simp] theorem Que.setBlock_tail (q : Que) (p : ℤ) (b : Block) :
    (q.setBlock p b).tail = q.tail := rfl

@[simp] theorem Que.setBlock_blkNum (q : Que) (p : ℤ) (b : Block) :
    (q.setBlock p b).blkNum = q.blkNum := rfl

@[simp] theorem Que.setBlock_blkSize (q : Que) (p : ℤ) (b : Block) :
    (q.setBlock p b).blkSize = q.blkSize := rfl

@[simp] theorem Que.setBlock_buffer (q : Que) (p : ℤ) (b : Block) :
    (q.setBlock p b).buffer = Function.update q.buffer p b := rfl

@[simp] theorem Que.setBlock_next (q : Que) (p : ℤ) (b : Block) (i : ℤ) :
    (q.setBlock p b).next i = q.next i := rfl

/-- The statements of `que_obj_add`, run to the end of the call. -/
theorem add_run (s : QueSys) (d : List UInt8) (h : s.prod.ready = true) :
    ∃ k t, Lts.run queStep s (.add d :: List.replicate k .prod) = some t ∧
      t.que = (queObjAdd s.que d).2 ∧ t.prod = .idle := by
  unfold queObjAdd
  by_cases hlong : s.que.TooLong d
  · exact ⟨0, _, by simp only [List.replicate_zero, Lts.run, queStep, if_pos h, if_pos hlong]; rfl,
      by rw [if_pos hlong], rfl⟩
  by_cases hroom : s.que.next s.que.tail ≠ s.que.front
  · refine ⟨5, _, by
      simp only [List.replicate, Lts.run, queStep, if_pos h, if_neg hlong, if_pos hroom]
      rfl, ?_, rfl⟩
    rw [if_neg hlong, if_pos hroom]
    simp [QueSys.moveTail, Block.store]
  · exact ⟨0, _, by
      simp only [List.replicate_zero, Lts.run, queStep, if_pos h, if_neg hlong, if_neg hroom]; rfl,
      by rw [if_neg hlong, if_neg hroom], rfl⟩

/-- The statements of `que_obj_move_next`, run to the end of the call. -/
theorem moveNext_run (s : QueSys) (h : s.prod.ready = true) :
    ∃ k t, Lts.run queStep s (.moveNext :: List.replicate k .prod) = some t ∧
      t.que = (queObjMoveNext s.que).2 ∧
      t.rets = s.rets ++ [((queObjMoveNext s.que).1, !queObjFull s.que)] := by
  unfold queObjMoveNext
  by_cases hfull : queObjFull s.que = true
  · exact ⟨0, _, by simp only [List.replicate_zero, Lts.run, queStep, if_pos h, if_pos hfull]; rfl,
      by rw [if_pos hfull], by rw [if_pos hfull, hfull]; rfl⟩
  · refine ⟨1, _, by simp only [List.replicate, Lts.run, queStep, if_pos h, if_neg hfull]; rfl, ?_, ?_⟩
    · rw [if_neg hfull]
      rfl
    · rw [if_neg hfull, Bool.eq_false_iff.2 hfull]
      rfl

/-- The statements of `que_obj_head`, run to the end of the call. -/
theorem head_run (s : QueSys) (h : s.cons = .headEmpty) {p : ℤ} (hp : queObjHead s.que = some p) :
    Lts.run queStep s (List.replicate 2 .cons) = some { s with cons := .readLen p } := by
  unfold queObjHead at hp
  split_ifs at hp with hne
  cases hp
  have hsome : ¬queObjEmpty s.que = true := by simpa using hne
  simp only [List.replicate, Lts.run, queStep, consStep, h, if_neg hsome]
  rfl

/-- The statements of `que_obj_pop` on a queue that is not empty, run to the end of the call. -/
theorem pop_run (s : QueSys) (p : ℤ) (h : s.cons = .popTest p) (hne : s.que.front ≠ s.que.tail) :
    ∃ t, Lts.run queStep s (List.replicate 5 .cons) = some t ∧ t.que = queObjPop s.que ∧
      t.cons = .idle := by
  refine ⟨_, by simp only [List.replicate, Lts.run, queStep, consStep, h, if_pos hne]; rfl, ?_, rfl⟩
  simp [queObjPop, hne]

end F1Goal
