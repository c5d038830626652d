import F1Goal.AccessQueue
import F1Goal.ServerConf

/-!
# A server and its configuration (`serv_create` and the threads of `f1g_server.c`)

`serv_create` makes a queue for each worker from the numbers of the configuration, of which none is
tested. `StepOk` says of a statement of a thread that it divides by no zero, selects a queue that
there is, and copies a record inside of a block. `serv_runs_iff` says of which configurations all
statements are so, in whatever order the threads run.
-/

namespace F1Goal

open CString

/-- `serv_object_t`: the number of queues, the bytes that each has room for, and the queues. -/
structure ServObject where
  queNum : ℤ
  room : ℤ
  ques : ℕ → Que

/-- `que_obj_init` with the types of the source: `blk_size` is an `i32_t`. -/
def queObjInitI32 (blkSize blkNum : ℤ) (buffer : ℤ → Block) : Que :=
  { queObjInit blkSize blkNum buffer with blkSize := i32 (blkSize + elemSize) }

/-- `serv_create`, where `malloc` fails only for a negative number of bytes, and the socket is
created. The contents of the blocks are `buffers`. -/
def servCreate (conf : ServerConf) (buffers : ℕ → ℤ → Block) : Option ServObject :=
  if conf.workerNum < 0 then none
  else
    let room := (conf.queSize + elemSize) * conf.queCap
    -- `que_obj_create` is called for each worker
    if 0 < conf.workerNum ∧ room < 0 then none
    else
      some {
        queNum := conf.workerNum, room := room
        ques := fun k => queObjInitI32 conf.queSize conf.queCap (buffers k) }

/-- The threads of `serv_run` before their first statements. -/
def servStart (serv : ServObject) : AccSys :=
  { ques := fun k => queStart (serv.ques k), queNum := serv.queNum.toNat, pc := .top
    handed := fun _ => [] }

/-- `sel_que_by_ip` with the types of the source: the remainder is that of two `u32_t`. Nothing is
divided by zero. -/
def selQueByIpI32 (ip : UInt32) (queNum : ℤ) : Option ℤ :=
  if queNum % 2 ^ 32 = 0 then none
  else some (i32 ((digHash 0 (LittleEndian.bytes 4 ip.toNat)).toNat % (queNum % 2 ^ 32)))

/-- A record at the data of the block at `p` is inside of this block, and the block inside of the
queue; `pos * blk_size` does not overflow. -/
def Que.CopyIn (q : Que) (room p : ℤ) : Prop :=
  i32 (p * q.blkSize) = p * q.blkSize ∧ 0 ≤ p * q.blkSize ∧ (p + 1) * q.blkSize ≤ room ∧
    elemSize + sockInfoSize ≤ q.blkSize

/-- **The statement is safe.** -/
def StepOk (serv : ServObject) (s : AccSys) : AccAct → Prop
  | .check r => ∃ k ∈ selQueByIpI32 r.srcIp serv.queNum, 0 ≤ k ∧ k < serv.queNum
  | .acc =>
    match s.pc with
    | .copy _ k p => (s.ques k).que.CopyIn serv.room p
    -- `que_obj_full` and the assignment of `tail` divide by `blk_num`
    | .move _ k => (s.ques k).que.blkNum ≠ 0
    | .tail _ k => (s.ques k).que.blkNum ≠ 0
    | _ => True
  | .cons k =>
    match (s.ques k).cons with
    | .popFront => (s.ques k).que.blkNum ≠ 0
    | _ => True

/-- **A server runs safely**: all statements of its threads are safe, in whatever order. -/
def RunsSafely (serv : ServObject) : Prop :=
  ∀ acts, Lts.Guarded accStep (StepOk serv) (servStart serv) acts

/-- **A configuration that can be run**: there is a worker, a record fits into a block, there is a
block, and the addresses of the blocks are 32-bit integers. -/
def Runnable (conf : ServerConf) : Prop :=
  1 ≤ conf.workerNum ∧ sockInfoSize ≤ conf.queSize ∧ conf.queSize + elemSize < 2 ^ 31 ∧
    1 ≤ conf.queCap ∧ (conf.queCap - 1) * (conf.queSize + elemSize) < 2 ^ 31

instance (conf : ServerConf) : Decidable (Runnable conf) :=
  inferInstanceAs (Decidable (_ ∧ _))

/-! ### A configuration that can be run -/

/-- The threads of a server for `conf`. -/
structure ServInv (conf : ServerConf) (s : AccSys) : Prop where
  ques : ∀ k, QueInv conf.queCap (s.ques k)
  blkSize : ∀ k, (s.ques k).que.blkSize = conf.queSize + elemSize
  copy : ∀ r k p, s.pc = .copy r k p → 0 ≤ p ∧ p < conf.queCap

theorem servCreate_eq {conf : ServerConf} {buffers : ℕ → ℤ → Block} {serv : ServObject}
    (h : servCreate conf buffers = some serv) :
    0 ≤ conf.workerNum ∧ serv = {
      queNum := conf.workerNum
      room := (conf.queSize + elemSize) * conf.queCap
      ques := fun k => queObjInitI32 conf.queSize conf.queCap (buffers k) } := by
  dsimp only [servCreate] at h
  split_ifs at h with hneg
  cases h
  exact ⟨not_lt.1 hneg, rfl⟩

/-- The number of queues is used as it is meant. -/
theorem selQueByIpI32_eq (ip : UInt32) {n : ℤ} (h1 : 1 ≤ n) (h2 : n < 2 ^ 31) :
    selQueByIpI32 ip n = some (selQueByIp ip n.toNat : ℤ) := by
  have hmod : n % 2 ^ 32 = n := Int.emod_eq_of_lt (by omega) (by omega)
  rw [selQueByIpI32, hmod, if_neg (by omega), selQueByIp]
  generalize (digHash 0 (LittleEndian.bytes 4 ip.toNat)).toNat = m
  have hcast : (m : ℤ) % n = ((m % n.toNat : ℕ) : ℤ) := by
    rw [Int.natCast_emod, Int.toNat_of_nonneg (by omega)]
  have hlt := Int.emod_lt_of_pos (m : ℤ) (show 0 < n by omega)
  have hnonneg := Int.emod_nonneg (m : ℤ) (show n ≠ 0 by omega)
  rw [i32_of_range (by omega) (by omega), hcast]

theorem prodStep_blkSize {s t : QueSys} (h : prodStep s = some t) :
    t.que.blkSize = s.que.blkSize := by
  unfold prodStep at h
  cases hpc : s.prod with
  | idle => simp [hpc] at h
  | free p => simp [hpc] at h
  | _ =>
    simp only [hpc, Option.some.injEq] at h
    subst h
    rfl

theorem consStep_blkSize {s t : QueSys} (h : consStep s = some t) :
    t.que.blkSize = s.que.blkSize := by
  unfold consStep at h
  cases hpc : s.cons with
  | fault => simp [hpc] at h
  | _ =>
    simp only [hpc, Option.some.injEq] at h
    subst h
    first
      | rfl
      | split_ifs <;> rfl

/-- No statement changes the size of a block. -/
theorem queStep_blkSize {s t : QueSys} {a : QueAct} (h : queStep s a = some t) :
    t.que.blkSize = s.que.blkSize := by
  cases a with
  | prod => exact prodStep_blkSize h
  | cons => exact consStep_blkSize h
  | write b =>
    simp only [queStep] at h
    split at h
    · cases h
      rfl
    · cases h
  | _ =>
    simp only [queStep] at h
    split_ifs at h <;> cases h <;> rfl

/-- A step on a queue. -/
theorem ServInv.onQueue {conf : ServerConf} {s t : AccSys} (h : ServInv conf s) {k : ℕ} {a : QueAct}
    {pc : AccPc} (hst : s.onQueue k a pc = some t)
    (hcopy : ∀ r k p, pc = .copy r k p → 0 ≤ p ∧ p < conf.queCap) : ServInv conf t := by
  obtain ⟨q, hq, rfl⟩ := onQueue_eq_some hst
  refine ⟨fun j => ?_, fun j => ?_, hcopy⟩
  · rcases eq_or_ne j k with rfl | hj
    · simpa using queStep_inv (h.ques j) hq
    · simpa [hj] using h.ques j
  · rcases eq_or_ne j k with rfl | hj
    · simpa using (queStep_blkSize hq).trans (h.blkSize j)
    · simpa [hj] using h.blkSize j

/-- **The step lemma.** -/
theorem accStep_servInv {conf : ServerConf} {s t : AccSys} {a : AccAct} (h : ServInv conf s)
    (hst : accStep s a = some t) : ServInv conf t := by
  cases a with
  | check r =>
    simp only [accStep] at hst
    split at hst
    · cases hst
      exact ⟨h.ques, h.blkSize, by simp⟩
    · cases hst
  | cons k => exact h.onQueue hst h.copy
  | acc =>
    simp only [accStep] at hst
    split at hst
    · cases hst
    · rename_i r k hpc
      refine h.onQueue hst fun r' k' p hp => ?_
      cases hp
      exact ⟨(h.ques k).tail_nonneg, (h.ques k).tail_lt⟩
    · split_ifs at hst
      · cases hst
        exact ⟨h.ques, h.blkSize, by simp⟩
      · exact h.onQueue hst (by simp)
    · exact h.onQueue hst (by simp)
    · refine h.onQueue hst fun r' k' p hp => ?_
      split_ifs at hp
    · exact h.onQueue hst (by simp)
    · cases hst

/-- The size of a block is what it is meant to be. -/
theorem queObjInitI32_eq {conf : ServerConf} (hsize : IsI32 conf.queSize)
    (hfits : conf.queSize + elemSize < 2 ^ 31) (buffer : ℤ → Block) :
    queObjInitI32 conf.queSize conf.queCap buffer = queObjInit conf.queSize conf.queCap buffer := by
  have hlow : -2 ^ 31 ≤ conf.queSize + elemSize :=
    hsize.1.trans (Int.le_add_of_nonneg_right (by decide))
  rw [queObjInitI32, i32_of_range hlow hfits]
  rfl

theorem servStart_inv {conf : ServerConf} {buffers : ℕ → ℤ → Block} {serv : ServObject}
    (h : servCreate conf buffers = some serv) (hsize : IsI32 conf.queSize) (hrun : Runnable conf) :
    ServInv conf (servStart serv) := by
  obtain ⟨-, rfl⟩ := servCreate_eq h
  obtain ⟨-, -, hfits, hcap, -⟩ := hrun
  refine ⟨fun k => ?_, fun k => ?_, by simp [servStart]⟩
  · change QueInv conf.queCap (queStart (queObjInitI32 conf.queSize conf.queCap (buffers k)))
    rw [queObjInitI32_eq hsize hfits]
    exact queStart_inv conf.queSize (buffers k) hcap
  · change (queObjInitI32 conf.queSize conf.queCap (buffers k)).blkSize = _
    rw [queObjInitI32_eq hsize hfits]
    rfl

/-- The blocks of a queue are inside of it, and a record is inside of its block. -/
theorem ServInv.copyIn {conf : ServerConf} (hrun : Runnable conf) {s : AccSys}
    (h : ServInv conf s) (k : ℕ) {p : ℤ} (hp0 : 0 ≤ p) (hp1 : p < conf.queCap) :
    (s.ques k).que.CopyIn ((conf.queSize + elemSize) * conf.queCap) p := by
  obtain ⟨-, hrecord, hfits, -, haddr⟩ := hrun
  have hpos : 0 ≤ conf.queSize + elemSize := by
    unfold sockInfoSize at hrecord
    unfold elemSize
    omega
  have hlow : 0 ≤ p * (conf.queSize + elemSize) := mul_nonneg hp0 hpos
  have hhigh : p * (conf.queSize + elemSize) ≤ (conf.queCap - 1) * (conf.queSize + elemSize) :=
    mul_le_mul_of_nonneg_right (by omega) hpos
  have hroom : (p + 1) * (conf.queSize + elemSize) ≤ (conf.queSize + elemSize) * conf.queCap := by
    rw [mul_comm (conf.queSize + elemSize)]
    exact mul_le_mul_of_nonneg_right (by omega) hpos
  rw [Que.CopyIn, h.blkSize k]
  exact ⟨i32_of_range (by omega) (by omega), hlow, hroom, by omega⟩

/-- Every statement is safe where the invariant holds. -/
theorem ServInv.stepOk {conf : ServerConf} {buffers : ℕ → ℤ → Block} {serv : ServObject}
    (hcreate : servCreate conf buffers = some serv) (hworker : IsI32 conf.workerNum)
    (hrun : Runnable conf) {s : AccSys} (h : ServInv conf s) (a : AccAct) : StepOk serv s a := by
  obtain ⟨-, rfl⟩ := servCreate_eq hcreate
  have hone := hrun.1
  have hcap := hrun.2.2.2.1
  have hnum (k : ℕ) : (s.ques k).que.blkNum ≠ 0 := by
    rw [(h.ques k).blkNum]
    omega
  cases a with
  | check r =>
    have hlt : selQueByIp r.srcIp conf.workerNum.toNat < conf.workerNum.toNat :=
      Nat.mod_lt _ (by omega)
    refine ⟨_, selQueByIpI32_eq r.srcIp hone hworker.2, by omega, ?_⟩
    dsimp only
    omega
  | cons k =>
    dsimp only [StepOk]
    split
    · exact hnum k
    · trivial
  | acc =>
    dsimp only [StepOk]
    split
    · rename_i r k p hpc
      obtain ⟨hp0, hp1⟩ := h.copy r k p hpc
      exact h.copyIn hrun k hp0 hp1
    · exact hnum _
    · exact hnum _
    · trivial

/-! ### A configuration that cannot be run -/

/-- The state in which the access loop stands at `pc`, the queue `k` is `q`, and all else is as in
`s`. -/
def AccSys.setQueue (s : AccSys) (k : ℕ) (q : QueSys) (pc : AccPc) : AccSys :=
  { s with ques := Function.update s.ques k q, pc := pc }

/-- A record is copied to a block. -/
theorem copy_step (s : AccSys) (r : SockInfo) {k : ℕ} {q : QueSys} {p : ℤ} (hprod : q.prod = .free p)
    (hsize : ¬ q.que.blkSize - elemSize < sockInfoSize) :
    accStep (s.setQueue k q (.copy r k p)) .acc = some (s.setQueue k
      { q with que := q.que.setBlock p ((q.que.buffer p).copyIn r.bytes) } (.len r k p)) := by
  simp [accStep, AccSys.setQueue, AccSys.onQueue, queStep, hprod, hsize]

/-- Its length is stored. -/
theorem len_step (s : AccSys) (r : SockInfo) {k : ℕ} {q : QueSys} {p : ℤ}
    (hprod : q.prod = .free p) :
    accStep (s.setQueue k q (.len r k p)) .acc = some (s.setQueue k
      { q with que := q.que.setBlock p { q.que.buffer p with dataLen := sockInfoSize } }
        (.move r k)) := by
  simp [accStep, AccSys.setQueue, AccSys.onQueue, queStep, hprod]

/-- The queue is not full. -/
theorem move_step (s : AccSys) (r : SockInfo) {k : ℕ} {q : QueSys} {p : ℤ} (hprod : q.prod = .free p)
    (hroom : queObjFull q.que = false) :
    accStep (s.setQueue k q (.move r k)) .acc =
      some (s.setQueue k { q with prod := .moveTail } (.tail r k)) := by
  simp [accStep, AccSys.setQueue, AccSys.onQueue, queStep, hprod, hroom, ProdPc.ready]

/-- `tail` is moved. -/
theorem tail_step (s : AccSys) (r : SockInfo) {k : ℕ} {q : QueSys} (hprod : q.prod = .moveTail) :
    accStep (s.setQueue k q (.tail r k)) .acc =
      some (s.setQueue k (q.moveTail (q.que.buffer q.que.tail).elem) .top) := by
  simp [accStep, AccSys.setQueue, AccSys.onQueue, queStep, prodStep, hprod]

/-- The statements from the copy of a record to the new `tail` of a queue that is not full. -/
theorem move_run (s : AccSys) (r : SockInfo) {k : ℕ} {q : QueSys} {p : ℤ} (hprod : q.prod = .free p)
    (hsize : ¬ q.que.blkSize - elemSize < sockInfoSize) (hroom : queObjFull q.que = false) :
    ∃ q', Lts.run accStep (s.setQueue k q (.copy r k p)) [.acc, .acc, .acc, .acc] =
        some (s.setQueue k q' .top) ∧ q'.prod.ready = true ∧
      q'.que.tail = q.que.next q.que.tail ∧ q'.que.front = q.que.front ∧
      q'.que.blkNum = q.que.blkNum ∧ q'.que.blkSize = q.que.blkSize := by
  let q1 := { q with que := q.que.setBlock p ((q.que.buffer p).copyIn r.bytes) }
  let q2 := { q1 with
    que := q1.que.setBlock p { q1.que.buffer p with dataLen := sockInfoSize }, prod := .moveTail }
  refine ⟨q2.moveTail (q2.que.buffer q2.que.tail).elem, ?_, rfl, rfl, rfl, rfl, rfl⟩
  rw [Lts.run_cons, copy_step s r hprod hsize, Option.bind_some, Lts.run_cons,
    len_step s r (by exact hprod), Option.bind_some, Lts.run_cons,
    move_step s r (by exact hprod) (by exact hroom), Option.bind_some, Lts.run_cons,
    tail_step s r rfl]
  rfl

/-- The statements from a record to the block that it is copied to. -/
theorem check_run {s : AccSys} {r : SockInfo} {k : ℕ} (hk : selQueByIp r.srcIp s.queNum = k)
    (hpc : s.pc = .top) (hready : (s.ques k).prod.ready = true) :
    ∃ s' : AccSys, Lts.run accStep s [.check r, .acc] = some (s'.setQueue k
        { s.ques k with prod := .free (s.ques k).que.tail } (.copy r k (s.ques k).que.tail)) ∧
      s'.queNum = s.queNum := by
  refine ⟨{ s with handed := Function.update s.handed k (s.handed k ++ [r]) }, ?_, rfl⟩
  simp [Lts.run, accStep, hpc, hk, AccSys.onQueue, queStep, hready, AccSys.setQueue,
    queObjNextFreeblk]

/-- **The queue can be filled**: `tail` comes to each block. -/
theorem fill_run {serv : ServObject} {r : SockInfo} {k : ℕ} {n : ℤ}
    (hk : selQueByIp r.srcIp serv.queNum.toNat = k) (hfront : (serv.ques k).front = 0)
    (htail : (serv.ques k).tail = 0) (hnum : (serv.ques k).blkNum = n)
    (hsize : ¬ (serv.ques k).blkSize - elemSize < sockInfoSize) {j : ℕ} (hj : (j : ℤ) < n) :
    ∃ acts s, Lts.run accStep (servStart serv) acts = some s ∧ s.pc = .top ∧
      s.queNum = serv.queNum.toNat ∧ (s.ques k).prod.ready = true ∧ (s.ques k).que.tail = j ∧
      (s.ques k).que.front = 0 ∧ (s.ques k).que.blkNum = n ∧
      (s.ques k).que.blkSize = (serv.ques k).blkSize := by
  induction j with
  | zero => exact ⟨[], _, rfl, rfl, rfl, rfl, htail, hfront, hnum, rfl⟩
  | succ j ih =>
    obtain ⟨acts, s, hrun, hpc, hques, hready, htail', hfront', hnum', hsize'⟩ := ih (by omega)
    obtain ⟨s', hcheck, hques'⟩ := check_run (hques ▸ hk) hpc hready
    have hnext : (s.ques k).que.next (s.ques k).que.tail = (j + 1 : ℕ) := by
      rw [Que.next, hnum', htail', Int.tmod_eq_of_lt (by omega) (by omega)]
      rfl
    have hroom : queObjFull (s.ques k).que = false := by
      rw [queObjFull, hnext, hfront']
      exact decide_eq_false (by omega)
    obtain ⟨q', hmove, hready', htail'', hfront'', hnum'', hsize''⟩ := move_run s' r
      (q := { s.ques k with prod := .free (s.ques k).que.tail }) rfl (by rw [hsize']; exact hsize)
      hroom
    refine ⟨acts ++ [.check r, .acc] ++ [.acc, .acc, .acc, .acc], s'.setQueue k q' .top, ?_, rfl,
      hques'.trans hques, ?_⟩
    · rw [Lts.run_append, Lts.run_append, hrun, Option.bind_some, hcheck, Option.bind_some, hmove]
    · simp only [AccSys.setQueue, Function.update_self]
      exact ⟨hready', htail''.trans hnext, hfront''.trans hfront', hnum''.trans hnum',
        hsize''.trans hsize'⟩

/-- A run that comes back to `accessor_check_status` can be followed by the copy of a record, which
is then safe. -/
theorem RunsSafely.copyIn {serv : ServObject} (h : RunsSafely serv) {acts : List AccAct} {s : AccSys}
    {r : SockInfo} {k : ℕ} (hrun : Lts.run accStep (servStart serv) acts = some s)
    (hk : selQueByIp r.srcIp s.queNum = k) (hpc : s.pc = .top)
    (hready : (s.ques k).prod.ready = true) :
    (s.ques k).que.CopyIn serv.room (s.ques k).que.tail := by
  obtain ⟨s', hcheck, -⟩ := check_run hk hpc hready
  have hrun' : Lts.run accStep (servStart serv) (acts ++ [.check r, .acc]) = some (s'.setQueue k
      { s.ques k with prod := .free (s.ques k).que.tail } (.copy r k (s.ques k).que.tail)) := by
    rw [Lts.run_append, hrun, Option.bind_some, hcheck]
  obtain ⟨t, ht⟩ : ∃ t, accStep (s'.setQueue k { s.ques k with prod := .free (s.ques k).que.tail }
      (.copy r k (s.ques k).que.tail)) .acc = some t := by
    by_cases hsize : (s.ques k).que.blkSize - elemSize < sockInfoSize
    · simp [accStep, AccSys.setQueue, hsize]
    · exact ⟨_, copy_step s' r rfl hsize⟩
  have hok := ((h (acts ++ [.check r, .acc] ++ [.acc])).rest hrun' t ht).1
  simpa [StepOk, AccSys.setQueue] using hok

/-- The first record: there is a worker to select. -/
theorem RunsSafely.queNum_pos {serv : ServObject} (h : RunsSafely serv) : 1 ≤ serv.queNum := by
  obtain ⟨k, -, h0, h1⟩ := (h [.check ⟨0, 0, 0, .init⟩] _ rfl).1
  omega

/-! ### Which configurations can be run -/

theorem runsSafely_of_runnable {conf : ServerConf} {buffers : ℕ → ℤ → Block} {serv : ServObject}
    (hcreate : servCreate conf buffers = some serv) (hworker : IsI32 conf.workerNum)
    (hsize : IsI32 conf.queSize) (hrun : Runnable conf) : RunsSafely serv :=
  Lts.guarded_of_invariant (fun _ _ _ h ht => accStep_servInv h ht)
    (fun _ a h => h.stepOk hcreate hworker hrun a) (servStart_inv hcreate hsize hrun)

/-- The client that selects the queue `0`. -/
theorem selQueByIp_zero (n : ℕ) : selQueByIp 0 n = 0 := by
  rw [selQueByIp, show (digHash 0 (LittleEndian.bytes 4 (0 : UInt32).toNat)).toNat = 0 by decide]
  exact Nat.zero_mod n

/-- If a record fits into a block then `blk_size` is what it is meant to be. -/
theorem blkSize_of_record {queSize : ℤ} (hsize : IsI32 queSize)
    (hrecord : elemSize + sockInfoSize ≤ i32 (queSize + elemSize)) :
    queSize + elemSize < 2 ^ 31 ∧ i32 (queSize + elemSize) = queSize + elemSize := by
  obtain ⟨hlow, hhigh⟩ := hsize
  unfold elemSize sockInfoSize at *
  by_cases hfits : queSize + 8 < 2 ^ 31
  · exact ⟨hfits, i32_of_range (by omega) hfits⟩
  · -- the sum is folded back to a negative number
    have hmod := i32_emod (queSize + 8)
    have hlt := i32_lt (queSize + 8)
    omega

theorem runnable_of_runsSafely {conf : ServerConf} {buffers : ℕ → ℤ → Block} {serv : ServObject}
    (hcreate : servCreate conf buffers = some serv) (hsize : IsI32 conf.queSize)
    (h : RunsSafely serv) : Runnable conf := by
  obtain ⟨-, rfl⟩ := servCreate_eq hcreate
  have hone := h.queNum_pos
  set serv := (⟨conf.workerNum, (conf.queSize + elemSize) * conf.queCap,
    fun k => queObjInitI32 conf.queSize conf.queCap (buffers k)⟩ : ServObject)
  let r : SockInfo := ⟨0, 0, 0, .init⟩
  have hk (n : ℕ) : selQueByIp r.srcIp n = 0 := selQueByIp_zero n
  have hfirst : (serv.ques 0).CopyIn serv.room 0 :=
    h.copyIn (show Lts.run accStep (servStart serv) [] = some _ from rfl) (hk _) rfl rfl
  obtain ⟨-, -, hroom, hrecord⟩ := hfirst
  change elemSize + sockInfoSize ≤ i32 (conf.queSize + elemSize) at hrecord
  change (0 + 1) * i32 (conf.queSize + elemSize) ≤ (conf.queSize + elemSize) * conf.queCap at hroom
  obtain ⟨hfits, hblk⟩ := blkSize_of_record hsize hrecord
  rw [hblk] at hrecord hroom
  have hcap : 1 ≤ conf.queCap := by
    by_contra hcap
    have hle : (conf.queSize + elemSize) * conf.queCap ≤ 0 :=
      mul_nonpos_of_nonneg_of_nonpos (le_trans (by decide) hrecord) (by omega)
    have hpos : 0 < elemSize + sockInfoSize := by decide
    omega
  -- `tail` comes to the last block
  have hlarge : ¬ (serv.ques 0).blkSize - elemSize < sockInfoSize := by
    change ¬ i32 (conf.queSize + elemSize) - elemSize < sockInfoSize
    omega
  have hlast : ((conf.queCap - 1).toNat : ℤ) = conf.queCap - 1 := Int.toNat_of_nonneg (by omega)
  obtain ⟨acts, s, hrun, hpc, -, hready, htail, -, -, hsize'⟩ := fill_run (hk _)
    (show (serv.ques 0).front = 0 from rfl) rfl (show _ = conf.queCap from rfl) hlarge
    (show ((conf.queCap - 1).toNat : ℤ) < conf.queCap by omega)
  obtain ⟨haddr, -, -, -⟩ := h.copyIn hrun (hk _) hpc hready
  rw [htail, hsize', hlast] at haddr
  change i32 ((conf.queCap - 1) * i32 (conf.queSize + elemSize)) = _ * i32 _ at haddr
  rw [hblk] at haddr
  exact ⟨hone, by omega, hfits, hcap, haddr ▸ i32_lt _⟩

/-- **A configuration that is accepted can be run exactly when there is a worker, a record fits into
a block, there is a block, and the addresses of the blocks are 32-bit integers**: then, and only
then, whatever the clients send and in whatever order the threads run, each statement divides by no
zero, selects a queue that there is, and copies a record inside of a block. -/
theorem serv_runs_iff {bufSize : ℕ} {buf : ℤ → UInt8} {want : ℕ → ℕ} {content : List UInt8}
    {conf : ServerConf} {buffers : ℕ → ℤ → Block} {serv : ServObject}
    (hload : servLoad bufSize buf want content = some conf)
    (hcreate : servCreate conf buffers = some serv) : RunsSafely serv ↔ Runnable conf := by
  obtain ⟨hworker, hsize, -⟩ := servLoad_isI32 hload
  exact ⟨runnable_of_runsSafely hcreate hsize, runsSafely_of_runnable hcreate hworker hsize⟩

/-- A file without any of the numbers. -/
theorem serv_runs_iff_defaults :
    RunsSafely ⟨1, 532480, fun _ => queObjInitI32 512 1024 fun _ => ⟨0, 0, []⟩⟩ ↔
      Runnable ⟨0, 1, 1, 512, 1024, 0, [], 0⟩ :=
  @serv_runs_iff 4096 (fun _ => 0) (fun _ => 4096) (ascii "[sys]\n") _ (fun _ _ => ⟨0, 0, []⟩) _
    (by decide +kernel) rfl

/-- No worker: the first record is divided among `0` queues. -/
theorem no_worker_divides : ¬ ∀ (bufSize : ℕ) (buf : ℤ → UInt8) (want : ℕ → ℕ)
    (content : List UInt8) (conf : ServerConf) (buffers : ℕ → ℤ → Block) (serv : ServObject),
    servLoad bufSize buf want content = some conf → servCreate conf buffers = some serv →
      RunsSafely serv := by
  intro h
  have hload : servLoad 4096 (fun _ => 0) (fun _ => 4096) (ascii "[sys]\nworker_num = 0\n") =
      some ⟨0, 0, 1, 512, 1024, 0, [], 0⟩ := by
    decide +kernel
  have hpos := (h _ _ _ _ _ (fun _ _ => ⟨0, 0, []⟩) _ hload rfl).queNum_pos
  exact absurd hpos (by decide)

end F1Goal
