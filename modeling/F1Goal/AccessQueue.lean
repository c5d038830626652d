import F1Goal.Access
import F1Goal.QueueFifo

/-!
# From the access loop to the queues

`access_cb_dft` copies each record that `accessor_check_status` hands out to the free block of the
queue that the address selects, and publishes the block with `que_obj_move_next`. `accStep` lets the
loop and the workers execute their statements in any order; the queues are those of `queStep`.

`que_obj_move_next` reports a full queue, but the loop does not look at what it returns, and
`que_obj_add` does not report one at all. `no_event_dropped_iff` says that nothing else is lost.
-/

namespace F1Goal

/-! ### Records as bytes -/

/-- The value of `sock_status`. -/
def SockStatus.toNat : SockStatus → ℕ
  | .init => 0
  | .dataIn => 1
  | .dataOut => 2
  | .disc => 3
  | .err => 4
  | .unknown => 5

/-- `sizeof(sock_info_t)` -/
def sockInfoSize : ℤ := 12

/-- The bytes of a `sock_info_t`. -/
def SockInfo.bytes (r : SockInfo) : List UInt8 :=
  LittleEndian.bytes 4 (r.fd % 2 ^ 32).toNat ++ LittleEndian.bytes 4 r.srcIp.toNat ++
    LittleEndian.bytes 2 r.srcPort.toNat ++ LittleEndian.bytes 2 r.sockStatus.toNat

/-- The element that a record is sent as. -/
def SockInfo.elem (r : SockInfo) : Elem := ⟨sockInfoSize, r.bytes⟩

theorem SockInfo.length_bytes (r : SockInfo) : r.bytes.length = 12 := by
  simp [SockInfo.bytes]

theorem SockStatus.toNat_inj {a b : SockStatus} (h : a.toNat = b.toNat) : a = b := by
  cases a <;> cases b <;> first | rfl | cases h

/-- Records are told apart by their bytes. -/
theorem SockInfo.bytes_inj {r r' : SockInfo} (h1 : -2 ^ 31 ≤ r.fd ∧ r.fd < 2 ^ 31)
    (h2 : -2 ^ 31 ≤ r'.fd ∧ r'.fd < 2 ^ 31) (h : r.bytes = r'.bytes) : r = r' := by
  unfold SockInfo.bytes at h
  obtain ⟨h, hst⟩ := List.append_inj' h (by simp)
  obtain ⟨h, hport⟩ := List.append_inj' h (by simp)
  obtain ⟨hfd, hip⟩ := List.append_inj' h (by simp)
  have hstatus : r.sockStatus = r'.sockStatus := by
    apply SockStatus.toNat_inj
    have := congrArg LittleEndian.value hst
    rwa [LittleEndian.value_bytes (by cases r.sockStatus <;> decide),
      LittleEndian.value_bytes (by cases r'.sockStatus <;> decide)] at this
  have hport' : r.srcPort = r'.srcPort := by
    apply UInt16.toNat_inj.1
    have := congrArg LittleEndian.value hport
    rwa [LittleEndian.value_bytes (UInt16.toNat_lt _), LittleEndian.value_bytes (UInt16.toNat_lt _)]
      at this
  have hip' : r.srcIp = r'.srcIp := by
    apply UInt32.toNat_inj.1
    have := congrArg LittleEndian.value hip
    rwa [LittleEndian.value_bytes (UInt32.toNat_lt _), LittleEndian.value_bytes (UInt32.toNat_lt _)]
      at this
  have hfd' : r.fd = r'.fd := by
    have := congrArg LittleEndian.value hfd
    rw [LittleEndian.value_bytes (by omega), LittleEndian.value_bytes (by omega)] at this
    omega
  cases r
  cases r'
  simp only [SockInfo.mk.injEq]
  exact ⟨hfd', hip', hport', hstatus⟩

/-! ### The access loop and the workers -/

/-- Where the access loop stands, with the record in hand and the number of the queue selected. -/
inductive AccPc
  /-- at `while (accessor_check_status(…))` -/
  | top
  /-- at `que_obj_next_freeblk` -/
  | freeblk (r : SockInfo) (k : ℕ)
  /-- at `memcpy`, with `buff.buf` the block at `p` -/
  | copy (r : SockInfo) (k : ℕ) (p : ℤ)
  /-- at `BLK_DATA_LEN(buff.buf) = …` -/
  | len (r : SockInfo) (k : ℕ) (p : ℤ)
  /-- `que_obj_move_next`: at `que_obj_full` -/
  | move (r : SockInfo) (k : ℕ)
  /-- at `p_obj->tail = …` -/
  | tail (r : SockInfo) (k : ℕ)
  /-- `memcpy` has left the block -/
  | fault
  deriving DecidableEq, Repr

/-- The queues, the access loop, and the records handed out for each queue. -/
structure AccSys where
  ques : ℕ → QueSys
  queNum : ℕ
  pc : AccPc
  handed : ℕ → List SockInfo

/-- Fresh queues for `que_size` and `que_cap`. -/
def accStart (queNum : ℕ) (queSize queCap : ℤ) (buffers : ℕ → ℤ → Block) : AccSys :=
  { ques := fun k => queStart (queObjInit queSize queCap (buffers k)), queNum := queNum, pc := .top,
    handed := fun _ => [] }

/-- The steps: `accessor_check_status` hands out a record, the access loop executes its next
statement, or the worker of a queue does. -/
inductive AccAct
  | check (r : SockInfo)
  | acc
  | cons (k : ℕ)
  deriving DecidableEq, Repr

/-- A statement that acts on the queue `k`, after which the access loop stands at `pc`. -/
def AccSys.onQueue (s : AccSys) (k : ℕ) (a : QueAct) (pc : AccPc) : Option AccSys :=
  (queStep (s.ques k) a).map fun q => { s with ques := Function.update s.ques k q, pc := pc }

/-- One step. -/
def accStep (s : AccSys) : AccAct → Option AccSys
  | .check r =>
    match s.pc with
    | .top =>
      let k := selQueByIp r.srcIp s.queNum
      some { s with
        pc := .freeblk r k, handed := Function.update s.handed k (s.handed k ++ [r]) }
    | _ => none
  | .acc =>
    match s.pc with
    | .top => none
    | .freeblk r k => s.onQueue k .nextFreeblk (.copy r k (queObjNextFreeblk (s.ques k).que))
    | .copy r k p =>
      if (s.ques k).que.blkSize - elemSize < sockInfoSize then some { s with pc := .fault }
      else s.onQueue k (.write (((s.ques k).que.buffer p).copyIn r.bytes)) (.len r k p)
    | .len r k p =>
      s.onQueue k (.write { (s.ques k).que.buffer p with dataLen := sockInfoSize }) (.move r k)
    | .move r k =>
      -- what `que_obj_move_next` returns is dropped
      s.onQueue k .moveNext (if queObjFull (s.ques k).que then .top else .tail r k)
    | .tail _ k => s.onQueue k .prod .top
    | .fault => none
  | .cons k => s.onQueue k .cons s.pc

/-- The elements popped from a queue, and those still live. -/
def QueSys.popsThenLive (s : QueSys) : List Elem := s.published.take s.popped ++ s.live

/-- No write has left its block, and between two turns of the access loop the records handed out for
a queue are those popped from it and those live in it. -/
def AccSafe (s : AccSys) : Prop :=
  s.pc ≠ .fault ∧
    (s.pc = .top → ∀ k, (s.handed k).map SockInfo.elem = (s.ques k).popsThenLive)

/-- The block that the record is copied to holds a record, and the test of `que_obj_move_next` finds
room. -/
def AccRoom (s : AccSys) (a : AccAct) : Prop :=
  a = .acc →
    match s.pc with
    | .copy _ k _ => sockInfoSize ≤ (s.ques k).que.blkSize - elemSize
    | .move _ k => queObjFull (s.ques k).que = false
    | _ => True

instance (s : AccSys) (a : AccAct) : Decidable (AccRoom s a) := by
  unfold AccRoom
  cases s.pc <;> infer_instance

/-- Each returned call that has reported `F1G_OK` has made its element live. -/
def RetsTrue (s : QueSys) : Prop := ∀ r ∈ s.rets, r.1 = .ok → r.2 = true

/-- The test of `que_obj_add` finds room. -/
def AddRoom (s : QueSys) (a : QueAct) : Prop :=
  ∀ d, a = .add d → ¬ s.que.TooLong d → queObjFull s.que = false

/-! ### The invariant -/

/-- The record that the access loop has in hand for the queue `k`. -/
def AccPc.pending (k : ℕ) : AccPc → List SockInfo
  | .freeblk r j => if j = k then [r] else []
  | .copy r j _ => if j = k then [r] else []
  | .len r j _ => if j = k then [r] else []
  | .move r j => if j = k then [r] else []
  | .tail r j => if j = k then [r] else []
  | _ => []

/-- What the access loop has established where it stands. -/
def AccFacts (ques : ℕ → QueSys) : AccPc → Prop
  | .top => True
  | .freeblk _ k => (ques k).prod.ready = true
  | .copy _ k p => (ques k).prod = .free p
  | .len r k p =>
    (ques k).prod = .free p ∧ ((ques k).que.buffer (ques k).que.tail).data.take 12 = r.bytes
  | .move r k =>
    (∃ p, (ques k).prod = .free p) ∧ ((ques k).que.buffer (ques k).que.tail).elem = r.elem
  | .tail r k =>
    (ques k).prod = .moveTail ∧ ((ques k).que.buffer (ques k).que.tail).elem = r.elem
  | .fault => False

/-- The invariant of the access loop and its queues of `n` blocks. -/
structure AccInv (n : ℤ) (s : AccSys) : Prop where
  ques : ∀ k, QueInv n (s.ques k)
  handed : ∀ k, (s.handed k).map SockInfo.elem =
    (s.ques k).published ++ (s.pc.pending k).map SockInfo.elem
  facts : AccFacts s.ques s.pc
  ready : ∀ k, s.pc.pending k = [] → (s.ques k).prod.ready = true

variable {n : ℤ}

theorem QueSys.popsThenLive_eq (s : QueSys) : s.popsThenLive = s.published :=
  List.take_append_drop _ _

theorem AccInv.safe {s : AccSys} (h : AccInv n s) : AccSafe s := by
  constructor
  · intro hpc
    have hf := h.facts
    rw [hpc] at hf
    exact hf
  · intro hpc k
    have hk := h.handed k
    rw [hpc] at hk
    rw [QueSys.popsThenLive_eq, hk]
    exact List.append_nil _

theorem AccFacts.congr {ques ques' : ℕ → QueSys} {pc : AccPc}
    (hprod : ∀ k, (ques' k).prod = (ques k).prod)
    (htail : ∀ k, (ques' k).que.tail = (ques k).que.tail)
    (hbuf : ∀ k, (ques' k).que.buffer (ques k).que.tail = (ques k).que.buffer (ques k).que.tail)
    (h : AccFacts ques pc) : AccFacts ques' pc := by
  cases pc with
  | top => trivial
  | fault => exact h
  | _ => simpa only [AccFacts, hprod, htail, hbuf] using h

/-- A step on the queue `k` that keeps what the access loop has in hand for the other queues. -/
theorem AccInv.onQueue {s : AccSys} (h : AccInv n s) {k : ℕ} {q : QueSys} {pc : AccPc}
    (hq : QueInv n q) (hpend : ∀ j, j ≠ k → pc.pending j = s.pc.pending j)
    (hhanded : (s.handed k).map SockInfo.elem = q.published ++ (pc.pending k).map SockInfo.elem)
    (hready : pc.pending k = [] → q.prod.ready = true)
    (hfacts : AccFacts (Function.update s.ques k q) pc) :
    AccInv n { s with ques := Function.update s.ques k q, pc := pc } where
  ques j := by
    rcases eq_or_ne j k with rfl | hj
    · simpa using hq
    · simpa [hj] using h.ques j
  handed j := by
    rcases eq_or_ne j k with rfl | hj
    · simpa using hhanded
    · simpa [hj, hpend j hj] using h.handed j
  facts := hfacts
  ready j hj := by
    rcases eq_or_ne j k with rfl | hne
    · simpa using hready hj
    · simpa [hne] using h.ready j (hpend j hne ▸ hj)

theorem onQueue_eq_some {s t : AccSys} {k : ℕ} {a : QueAct} {pc : AccPc}
    (h : s.onQueue k a pc = some t) :
    ∃ q, queStep (s.ques k) a = some q ∧
      t = { s with ques := Function.update s.ques k q, pc := pc } := by
  obtain ⟨q, hq, rfl⟩ := Option.map_eq_some_iff.1 h
  exact ⟨q, hq, rfl⟩

/-- A worker's statement. -/
theorem accStep_cons_inv {s t : AccSys} {k : ℕ} (h : AccInv n s)
    (hst : accStep s (.cons k) = some t) : AccInv n t := by
  obtain ⟨q, hq, rfl⟩ := onQueue_eq_some hst
  obtain ⟨hprod, hpub, -, htail, -, hbuf⟩ := consStep_frame (h.ques k) hq
  refine h.onQueue (queStep_inv (h.ques k) hq) (fun _ _ => rfl) ?_ ?_ ?_
  · rw [hpub]
    exact h.handed k
  · rw [hprod]
    exact h.ready k
  · refine h.facts.congr (fun j => ?_) (fun j => ?_) fun j => ?_ <;>
      rcases eq_or_ne j k with rfl | hj <;> simp [*]

/-- A record is handed out. -/
theorem accStep_check_inv {s t : AccSys} {r : SockInfo} (h : AccInv n s)
    (hst : accStep s (.check r) = some t) : AccInv n t := by
  unfold accStep at hst
  cases hpc : s.pc with
  | top =>
    simp only [hpc, Option.some.injEq] at hst
    subst hst
    have hpend : ∀ k, s.pc.pending k = [] := fun k => by rw [hpc]; rfl
    refine { h with
      handed := fun j => ?_
      facts := h.ready _ (hpend _)
      ready := fun j _ => h.ready j (hpend j) }
    have hj := h.handed j
    rw [hpend j, List.map_nil, List.append_nil] at hj
    rcases eq_or_ne j (selQueByIp r.srcIp s.queNum) with rfl | hne
    · simp [AccPc.pending, hj]
    · simp [AccPc.pending, hne, hne.symm, hj]
  | _ => simp [hpc] at hst

/-- A step on the queue `k` with the record still in hand. -/
theorem AccInv.inHand {s : AccSys} (h : AccInv n s) {r : SockInfo} {k : ℕ} {a : QueAct} {q : QueSys}
    {pc : AccPc} (hpend : ∀ j, s.pc.pending j = if k = j then [r] else [])
    (hpend' : ∀ j, pc.pending j = if k = j then [r] else [])
    (hq : queStep (s.ques k) a = some q) (hpub : q.published = (s.ques k).published)
    (hfacts : AccFacts (Function.update s.ques k q) pc) :
    AccInv n { s with ques := Function.update s.ques k q, pc := pc } := by
  refine h.onQueue (queStep_inv (h.ques k) hq) (fun j _ => (hpend' j).trans (hpend j).symm) ?_ ?_
    hfacts
  · rw [hpub, hpend' k, ← hpend k]
    exact h.handed k
  · simp [hpend']

/-- A statement of the access loop that finds room. -/
theorem accStep_acc_inv {s t : AccSys} (h : AccInv n s) (hroom : AccRoom s .acc)
    (hst : accStep s .acc = some t) : AccInv n t := by
  have hf := h.facts
  have hroom := hroom rfl
  simp only [accStep] at hst
  cases hpc : s.pc with
  | top => simp [hpc] at hst
  | fault => simp [hpc] at hst
  | freeblk r k =>
    simp only [hpc, AccFacts] at hst hf
    obtain ⟨q, hq, rfl⟩ := onQueue_eq_some hst
    have hstep := hq
    simp only [queStep, if_pos hf, Option.some.injEq] at hstep
    subst hstep
    exact h.inHand (fun j => by rw [hpc]; rfl) (fun _ => rfl) hq rfl (by simp [AccFacts])
  | copy r k p =>
    -- the block is the one at `tail`, which is not live
    simp only [hpc] at hroom
    simp only [hpc, AccFacts, if_neg (not_lt.2 hroom)] at hst hf
    obtain ⟨q, hq, rfl⟩ := onQueue_eq_some hst
    have hp : p = (s.ques k).que.tail := by
      have := (h.ques k).prodFacts
      rwa [hf] at this
    have hstep := hq
    simp only [queStep, hf, Option.some.injEq] at hstep
    subst hstep
    exact h.inHand (fun j => by rw [hpc]; rfl) (fun _ => rfl) hq rfl
      (by simp [AccFacts, hp, Block.copyIn, ← r.length_bytes])
  | len r k p =>
    simp only [hpc, AccFacts] at hst hf
    obtain ⟨q, hq, rfl⟩ := onQueue_eq_some hst
    have hp : p = (s.ques k).que.tail := by
      have := (h.ques k).prodFacts
      rwa [hf.1] at this
    have hstep := hq
    simp only [queStep, hf.1, Option.some.injEq] at hstep
    subst hstep
    refine h.inHand (fun j => by rw [hpc]; rfl) (fun _ => rfl) hq rfl ?_
    subst hp
    simpa [AccFacts, hf.1, Block.elem, SockInfo.elem, sockInfoSize] using hf.2
  | move r k =>
    -- there is room, so that `que_obj_move_next` goes on to its assignment of `tail`
    have hnfull : queObjFull (s.ques k).que = false := by simpa only [hpc] using hroom
    simp only [hpc, AccFacts, hnfull, if_neg Bool.false_ne_true] at hst hf
    obtain ⟨q, hq, rfl⟩ := onQueue_eq_some hst
    obtain ⟨⟨p, hp⟩, hb⟩ := hf
    have hrdy : (s.ques k).prod.ready = true := by rw [hp]; rfl
    have hstep := hq
    simp only [queStep, if_pos hrdy, hnfull, if_neg Bool.false_ne_true, Option.some.injEq] at hstep
    subst hstep
    exact h.inHand (fun j => by rw [hpc]; rfl) (fun _ => rfl) hq rfl (by simpa [AccFacts] using hb)
  | tail r k =>
    -- the record becomes live
    simp only [hpc, AccFacts] at hst hf
    obtain ⟨q, hq, rfl⟩ := onQueue_eq_some hst
    have hinv := queStep_inv (h.ques k) hq
    simp only [queStep, prodStep, hf.1, Option.some.injEq] at hq
    subst hq
    refine h.onQueue hinv (fun j hj => ?_) ?_ ?_ trivial
    · simp [hpc, AccPc.pending, hj.symm]
    · have hk := h.handed k
      rw [hpc] at hk
      simpa [AccPc.pending, QueSys.moveTail, hf.2] using hk
    · intro _
      rfl

/-- A statement of the access loop that finds no room loses the record, or leaves the block. -/
theorem accStep_acc_loses {s t : AccSys} (h : AccInv n s) (hroom : ¬ AccRoom s .acc)
    (hst : accStep s .acc = some t) : ¬ AccSafe t := by
  have hf := h.facts
  simp only [accStep] at hst
  cases hpc : s.pc with
  | copy r k p =>
    have hlt : (s.ques k).que.blkSize - elemSize < sockInfoSize := by
      by_contra hge
      exact hroom fun _ => by simpa only [hpc] using not_lt.1 hge
    simp only [hpc, if_pos hlt, Option.some.injEq] at hst
    subst hst
    exact fun hs => hs.1 rfl
  | move r k =>
    have hfull : queObjFull (s.ques k).que = true := by
      by_contra hn
      exact hroom fun _ => by simpa only [hpc] using Bool.not_eq_true _ ▸ hn
    simp only [hpc, AccFacts, hfull, if_true] at hst hf
    obtain ⟨q, hq, rfl⟩ := onQueue_eq_some hst
    obtain ⟨⟨p, hp⟩, -⟩ := hf
    have hrdy : (s.ques k).prod.ready = true := by rw [hp]; rfl
    simp only [queStep, if_pos hrdy, hfull, if_true, Option.some.injEq] at hq
    subst hq
    intro hs
    have hk := hs.2 rfl k
    have hk' := h.handed k
    rw [hpc] at hk'
    simp only [Function.update_self, QueSys.popsThenLive_eq] at hk
    rw [hk'] at hk
    simp [AccPc.pending] at hk
  | _ => exact absurd (fun _ => by simp only [hpc]) hroom

/-- **One step loses nothing exactly when it finds room.** -/
theorem accStep_spec {s t : AccSys} {a : AccAct} (h : AccInv n s) (hst : accStep s a = some t) :
    (AccRoom s a ∧ AccInv n t) ∨ (¬ AccRoom s a ∧ ¬ AccSafe t) := by
  by_cases hroom : AccRoom s a
  · refine .inl ⟨hroom, ?_⟩
    cases a with
    | check r => exact accStep_check_inv h hst
    | acc => exact accStep_acc_inv h hroom hst
    | cons k => exact accStep_cons_inv h hst
  · refine .inr ⟨hroom, ?_⟩
    cases a with
    | check r => exact absurd (fun ha => by cases ha) hroom
    | acc => exact accStep_acc_loses h hroom hst
    | cons k => exact absurd (fun ha => by cases ha) hroom

theorem accStart_inv (queNum : ℕ) (queSize : ℤ) (buffers : ℕ → ℤ → Block) (hn : 1 ≤ n) :
    AccInv n (accStart queNum queSize n buffers) where
  ques k := queStart_inv queSize (buffers k) hn
  handed _ := rfl
  facts := trivial
  ready _ _ := rfl

/-- The access loop is never held up: away from `accessor_check_status` it can go on. -/
theorem accStep_enabled {s : AccSys} (h : AccInv n s) (hpc : s.pc ≠ .top) :
    ∃ t, accStep s .acc = some t := by
  have hf := h.facts
  simp only [accStep]
  cases hp : s.pc with
  | top => exact absurd hp hpc
  | fault =>
    rw [hp] at hf
    exact hf.elim
  | freeblk r k =>
    rw [hp] at hf
    simp [AccSys.onQueue, queStep, show (s.ques k).prod.ready = true from hf]
  | copy r k p =>
    rw [hp] at hf
    dsimp only
    split_ifs
    · exact ⟨_, rfl⟩
    · simp [AccSys.onQueue, queStep, show (s.ques k).prod = .free p from hf]
  | len r k p =>
    rw [hp] at hf
    simp [AccSys.onQueue, queStep, hf.1]
  | move r k =>
    rw [hp] at hf
    obtain ⟨⟨p, hfree⟩, -⟩ := hf
    simp only [AccSys.onQueue, queStep, hfree, ProdPc.ready, if_true]
    split_ifs <;> exact ⟨_, rfl⟩
  | tail r k =>
    rw [hp] at hf
    simp [AccSys.onQueue, queStep, prodStep, hf.1]

/-! ### What the calls return -/

theorem retsTrue_of_eq {s t : QueSys} (h : RetsTrue s) (ht : t.rets = s.rets) : RetsTrue t := by
  rw [RetsTrue, ht]
  exact h

theorem retsTrue_of_append {s t : QueSys} {c : Code} {live : Bool} (h : RetsTrue s)
    (ht : t.rets = s.rets ++ [(c, live)]) : RetsTrue t ↔ (c = .ok → live = true) := by
  rw [RetsTrue, ht, List.forall_mem_append, List.forall_mem_singleton]
  exact and_iff_right h

theorem consStep_rets {s t : QueSys} (hst : consStep s = some t) : t.rets = s.rets := by
  unfold consStep at hst
  cases hpc : s.cons with
  | fault => simp [hpc] at hst
  | _ =>
    simp only [hpc, Option.some.injEq] at hst
    subst hst
    first
      | rfl
      | split_ifs <;> rfl

theorem prodStep_rets {s t : QueSys} (hst : prodStep s = some t) :
    t.rets = s.rets ∨ t.rets = s.rets ++ [(.ok, true)] := by
  unfold prodStep at hst
  cases hpc : s.prod with
  | idle => simp [hpc] at hst
  | free p => simp [hpc] at hst
  | _ =>
    simp only [hpc, Option.some.injEq] at hst
    subst hst
    first
      | exact .inl rfl
      | exact .inr rfl

/-- **One step reports truthfully exactly when `que_obj_add` finds room.** -/
theorem queStep_rets {s t : QueSys} {a : QueAct} (h : RetsTrue s) (hst : queStep s a = some t) :
    RetsTrue t ↔ AddRoom s a := by
  cases a with
  | add d =>
    simp only [queStep] at hst
    split_ifs at hst with hr hlong hroom <;> cases hst
    · refine iff_of_true ((retsTrue_of_append h rfl).2 fun hc => by cases hc) ?_
      rintro d' hd hnot
      cases hd
      exact absurd hlong hnot
    · refine iff_of_true (retsTrue_of_eq h rfl) ?_
      rintro d' hd -
      cases hd
      exact decide_eq_false (Ne.symm hroom)
    · refine iff_of_false (fun ht => ?_) fun hroom' => ?_
      · exact Bool.false_ne_true ((retsTrue_of_append h rfl).1 ht rfl)
      · exact hroom fun heq => of_decide_eq_false (hroom' d rfl hlong) heq.symm
  | nextFreeblk =>
    refine iff_of_true ?_ fun d hd => by cases hd
    simp only [queStep] at hst
    split_ifs at hst
    cases hst
    exact retsTrue_of_eq h rfl
  | write b =>
    refine iff_of_true ?_ fun d hd => by cases hd
    simp only [queStep] at hst
    split at hst <;> cases hst
    exact retsTrue_of_eq h rfl
  | moveNext =>
    refine iff_of_true ?_ fun d hd => by cases hd
    simp only [queStep] at hst
    split_ifs at hst <;> cases hst
    · exact (retsTrue_of_append h rfl).2 fun hc => by cases hc
    · exact retsTrue_of_eq h rfl
  | last =>
    refine iff_of_true ?_ fun d hd => by cases hd
    simp only [queStep] at hst
    split_ifs at hst
    cases hst
    exact retsTrue_of_eq h rfl
  | prod =>
    refine iff_of_true ?_ fun d hd => by cases hd
    rcases prodStep_rets hst with ht | ht
    · exact retsTrue_of_eq h ht
    · exact (retsTrue_of_append h ht).2 fun _ => rfl
  | cons =>
    refine iff_of_true ?_ fun d hd => by cases hd
    exact retsTrue_of_eq h (consStep_rets hst)

/-- **No event is dropped exactly as long as the queues have room**: between two turns of the access
loop the records handed out are those popped and those live, and a call returns `F1G_OK` only when
its element has become live, if and only if each test for a full queue finds room. -/
theorem no_event_dropped_iff (queNum : ℕ) (queSize queCap : ℤ) (buffers : ℕ → ℤ → Block)
    (hcap : 1 ≤ queCap) :
    (∀ acts, Lts.SafePrefixes accStep AccSafe (accStart queNum queSize queCap buffers) acts ↔
        Lts.Guarded accStep AccRoom (accStart queNum queSize queCap buffers) acts) ∧
      ∀ buffer acts,
        Lts.SafePrefixes queStep RetsTrue (queStart (queObjInit queSize queCap buffer)) acts ↔
          Lts.Guarded queStep AddRoom (queStart (queObjInit queSize queCap buffer)) acts := by
  constructor
  · have hstart := accStart_inv queNum queSize buffers hcap
    refine Lts.safe_prefixes_iff_guarded (AccInv queCap) (fun s a t h hst => ?_)
      (fun s a t h hst hsafe => ?_) hstart hstart.safe
    · rcases accStep_spec h hst with ⟨hroom, hinv⟩ | ⟨hroom, hlost⟩
      · exact iff_of_true hinv.safe hroom
      · exact iff_of_false hlost hroom
    · rcases accStep_spec h hst with ⟨-, hinv⟩ | ⟨-, hlost⟩
      · exact hinv
      · exact absurd hsafe hlost
  · intro buffer
    exact Lts.safe_prefixes_iff_guarded RetsTrue (fun _ _ _ h hst => queStep_rets h hst)
      (fun _ _ _ _ _ hsafe => hsafe) (fun _ hr => absurd hr List.not_mem_nil)
      fun _ hr => absurd hr List.not_mem_nil

/-- A queue of two blocks takes a record. -/
theorem no_event_dropped_iff_two : Lts.SafePrefixes accStep AccSafe
    (accStart 1 512 2 fun _ _ => ⟨0, 0, []⟩)
      (.check ⟨5, 16777343, 1, .init⟩ :: List.replicate 5 .acc) :=
  ((no_event_dropped_iff 1 512 2 (fun _ _ => ⟨0, 0, []⟩) (by decide)).1 _).2 (by decide)

/-- Two blocks, and two records before the worker takes its first step: the second is dropped. -/
theorem event_dropped : ¬ ∀ (queNum : ℕ) (queSize queCap : ℤ) (buffers : ℕ → ℤ → Block)
    (acts : List AccAct), 1 ≤ queCap →
      Lts.SafePrefixes accStep AccSafe (accStart queNum queSize queCap buffers) acts := by
  intro h
  have hs := h 1 512 2 (fun _ _ => ⟨0, 0, []⟩)
    (.check ⟨5, 16777343, 1, .init⟩ :: (List.replicate 5 .acc ++
      .check ⟨6, 16777343, 2, .init⟩ :: List.replicate 4 .acc)) (by decide) _ (List.prefix_refl _)
    _ rfl
  have hk := congrArg List.length (hs.2 rfl 0)
  revert hk
  decide

end F1Goal
