import F1Goal.Access
import F1Goal.Lib.Lts

/-!
# Descriptors between the access loop and the workers

The access loop and the workers close descriptors on their own: `accessor_check_status` on
`EPOLLHUP` and `EPOLLERR`, `worker_cb_dft` on `RECV_DISC`. `descStep` lets them make their calls on
descriptors one at a time, in any order; between them the queues hold the records. A queue is a FIFO
list here, which by `queStep_fifo` is what the ring of blocks amounts to.

`no_use_after_close` gives a condition on the steps of a run under which no call is made on a
descriptor that has been closed.
-/

namespace F1Goal

/-- What has become of a descriptor: never returned by `accept`, returned and not closed since, or
closed. -/
inductive FdState
  | unused
  | isOpen
  | closed
  deriving DecidableEq, Repr

/-- The call receives from, sends to or closes the descriptor `f`. -/
def FdOp.Uses (f : ℤ) : FdOp → Prop
  | .accept _ => False
  | .recv g => g = f
  | .send g => g = f
  | .close g => g = f

/-- The call closes its descriptor. -/
def FdOp.closes : FdOp → Bool
  | .close _ => true
  | _ => false

/-- The access loop with `*p_si`, the calls it still has to make for the event in hand and the
record it will then enqueue; the queues; each worker with the calls it still has to make for the
record in hand; the descriptors; whether a closed one has been used; and each record handed out,
with whether its event closed its descriptor. -/
structure DescSys (Ctx : Type) where
  acc : Accessor
  si : SockInfo
  accOps : List FdOp
  out : Option SockInfo
  queNum : ℕ
  ques : ℕ → List SockInfo
  workers : ℕ → Worker Ctx
  pend : ℕ → List FdOp
  fds : ℤ → FdState
  misused : Bool
  delivered : List (Bool × SockInfo)

variable {Ctx : Type}

/-- Before the first batch: only the listening socket is open. `*p_si` is not initialised. -/
def descStart (listenFd : ℤ) (si : SockInfo) (queNum : ℕ) (workers : ℕ → Worker Ctx) :
    DescSys Ctx :=
  { acc := ⟨listenFd, [], 0⟩, si := si, accOps := [], out := none, queNum := queNum,
    ques := fun _ => [], workers := workers, pend := fun _ => [],
    fds := Function.update (fun _ => .unused) listenFd .isOpen, misused := false, delivered := [] }

/-- The steps: `epoll_wait` returns a batch; `accessor_check_status` is called; the access loop
makes its next call on a descriptor; it enqueues the record, if the queue has room; a worker takes
the next record, whose receive goes as `rx`; it makes its next call on a descriptor. -/
inductive DescAct
  | detect (events : List EpollEvent)
  | check (o : Outcome)
  | accOp
  | enqueue (room : Bool)
  | take (k : ℕ) (rx : List RecvRes)
  | workOp (k : ℕ)
  deriving DecidableEq, Repr

/-- A call on a descriptor. -/
def DescSys.perform (s : DescSys Ctx) : FdOp → DescSys Ctx
  | .accept f => { s with fds := Function.update s.fds f .isOpen }
  | .recv f => { s with misused := s.misused || s.fds f = .closed }
  | .send f => { s with misused := s.misused || s.fds f = .closed }
  | .close f =>
    { s with fds := Function.update s.fds f .closed, misused := s.misused || s.fds f = .closed }

/-- `accessor_check_status` and the test of what it returns; on 0 `accessor_clear` follows. The
descriptor that `accept` returns is not one that is open. -/
def DescSys.check (s : DescSys Ctx) (o : Outcome) : Option (DescSys Ctx) :=
  let c := accessorCheckStatus s.acc s.si o
  if ∀ a ∈ o.accept, s.fds a.1 ≠ .isOpen then
    if c.ret = 0 then
      some { s with acc := accessorClear c.acc, si := c.si, accOps := c.ops }
    else
      some { s with
        acc := c.acc, si := c.si, accOps := c.ops, out := some c.si
        delivered := s.delivered ++ [(c.ops.any FdOp.closes, c.si)] }
  else none

/-- One step. `epoll_wait` reports sockets that are open. -/
def descStep (proc : ProcFn Ctx) (s : DescSys Ctx) : DescAct → Option (DescSys Ctx)
  | .detect events =>
    if s.accOps = [] ∧ s.out = none ∧ s.acc.events = [] ∧
        ∀ ev ∈ events, s.fds ev.info.fd = .isOpen then
      some { s with acc := accessorDetect s.acc events }
    else none
  | .check o => if s.accOps = [] ∧ s.out = none then s.check o else none
  | .accOp =>
    match s.accOps with
    | [] => none
    | op :: ops => some ({ s with accOps := ops }.perform op)
  | .enqueue room =>
    match s.accOps, s.out with
    | [], some r =>
      let k := selQueByIp r.srcIp s.queNum
      let que := if room then s.ques k ++ [r] else s.ques k
      some { s with ques := Function.update s.ques k que, out := none }
    | _, _ => none
  | .take k rx =>
    match s.pend k, s.ques k with
    | [], r :: rs =>
      if (s.workers k).running then
        let t := workerTurn proc (s.workers k) r rx
        some { s with
          ques := Function.update s.ques k rs, workers := Function.update s.workers k t.1
          pend := Function.update s.pend k t.2.ops }
      else none
    | _, _ => none
  | .workOp k =>
    match s.pend k with
    | [] => none
    | op :: ops => some ({ s with pend := Function.update s.pend k ops }.perform op)

/-- No closed descriptor has been used, and a record handed out for an event that closed its
descriptor says so. -/
def DescSafe (s : DescSys Ctx) : Prop :=
  s.misused = false ∧
    ∀ d ∈ s.delivered, d.1 = true → d.2.sockStatus = .disc ∨ d.2.sockStatus = .err

/-- Nothing outstanding will use the descriptor `f`: no event of the batch that is still to be
handled, no record that is to be received from, and no call still to be made. -/
structure Quiet (s : DescSys Ctx) (f : ℤ) : Prop where
  events : ∀ ev ∈ s.acc.events.drop s.acc.nextEvent, ev.info.fd ≠ f
  out : ∀ r, s.out = some r → r.sockStatus = .dataIn → r.fd ≠ f
  waiting : ∀ k, ∀ r ∈ s.ques k, r.sockStatus = .dataIn → r.fd ≠ f
  accOps : ∀ op ∈ s.accOps, ¬ op.Uses f
  pend : ∀ k, ∀ op ∈ s.pend k, ¬ op.Uses f

/-- The event under the cursor and the answers `o` of the system: an event that closes its socket
and is handed out carries neither `EPOLLIN` nor `EPOLLOUT`, and `accept` does not fail while `*p_si`
still holds a record of status `SST_DATA_IN` for a closed descriptor. -/
def CheckOk (s : DescSys Ctx) (o : Outcome) : Prop :=
  ∀ ev, s.acc.events[s.acc.nextEvent]? = some ev →
    if ev.info.fd = s.acc.listenFd then
      o.accept = none → ¬(s.si.sockStatus = .dataIn ∧ s.fds s.si.fd = .closed)
    else
      (ev.epollhup = true ∨ ev.epollerr = true) → (ev.epollhup = true → o.ctlDelHup = true) →
        (ev.epollerr = true → o.ctlDelErr = true) → ev.epollin = false ∧ ev.epollout = false

/-- **The condition on a step.** A descriptor is closed only when nothing else that is outstanding
will use it; a record that is not received from and names a closed descriptor finds no request to
send left over; and `CheckOk`. -/
def DescOk (s : DescSys Ctx) : DescAct → Prop
  | .detect _ => True
  | .check o => CheckOk s o
  | .accOp => ∀ f ops, s.accOps = .close f :: ops → Quiet { s with accOps := ops } f
  | .enqueue _ => True
  | .take k _ =>
    ∀ r rs, s.ques k = r :: rs → r.sockStatus ≠ .dataIn → s.fds r.fd = .closed →
      (s.workers k).procStat ≠ .sendbuf
  | .workOp k =>
    ∀ f ops, s.pend k = .close f :: ops →
      Quiet { s with pend := Function.update s.pend k ops } f

/-! ### The invariant -/

/-- Nothing outstanding will use a descriptor that is closed. -/
structure DescInv (s : DescSys Ctx) : Prop where
  safe : DescSafe s
  quiet : ∀ f, s.fds f = .closed → Quiet s f

theorem descStart_inv (listenFd : ℤ) (si : SockInfo) (queNum : ℕ) (workers : ℕ → Worker Ctx) :
    DescInv (descStart listenFd si queNum workers) where
  safe := ⟨rfl, fun _ hd => absurd hd List.not_mem_nil⟩
  quiet f hf := by
    rcases eq_or_ne f listenFd with rfl | hne
    · simp [descStart] at hf
    · simp [descStart, hne] at hf

/-! ### Calls -/

@[simp] theorem perform_acc (s : DescSys Ctx) (op : FdOp) : (s.perform op).acc = s.acc := by
  cases op <;> rfl

@[simp] theorem perform_out (s : DescSys Ctx) (op : FdOp) : (s.perform op).out = s.out := by
  cases op <;> rfl

@[simp] theorem perform_ques (s : DescSys Ctx) (op : FdOp) : (s.perform op).ques = s.ques := by
  cases op <;> rfl

@[simp] theorem perform_accOps (s : DescSys Ctx) (op : FdOp) :
    (s.perform op).accOps = s.accOps := by
  cases op <;> rfl

@[simp] theorem perform_pend (s : DescSys Ctx) (op : FdOp) : (s.perform op).pend = s.pend := by
  cases op <;> rfl

@[simp] theorem perform_delivered (s : DescSys Ctx) (op : FdOp) :
    (s.perform op).delivered = s.delivered := by
  cases op <;> rfl

theorem Quiet.perform {s : DescSys Ctx} {f : ℤ} (h : Quiet s f) (op : FdOp) :
    Quiet (s.perform op) f where
  events := by simpa using h.events
  out := by simpa using h.out
  waiting := by simpa using h.waiting
  accOps := by simpa using h.accOps
  pend := by simpa using h.pend

/-- A call on a descriptor that is not closed is no misuse. -/
theorem perform_misused {s : DescSys Ctx} {op : FdOp} (hs : s.misused = false)
    (hop : ∀ f, op.Uses f → s.fds f ≠ .closed) : (s.perform op).misused = false := by
  cases op with
  | accept f => exact hs
  | recv f => simpa [DescSys.perform, hs] using hop f rfl
  | send f => simpa [DescSys.perform, hs] using hop f rfl
  | close f => simpa [DescSys.perform, hs] using hop f rfl

theorem perform_closed {s : DescSys Ctx} {op : FdOp} {f : ℤ}
    (h : (s.perform op).fds f = .closed) : s.fds f = .closed ∨ op = .close f := by
  cases op with
  | accept g =>
    rcases eq_or_ne f g with rfl | hne
    · simp [DescSys.perform] at h
    · exact .inl (by simpa [DescSys.perform, hne] using h)
  | recv g => exact .inl h
  | send g => exact .inl h
  | close g =>
    rcases eq_or_ne f g with rfl | hne
    · exact .inr rfl
    · exact .inl (by simpa [DescSys.perform, hne] using h)

/-- The next call of either side, `s` being the state without it. -/
theorem DescInv.perform {s : DescSys Ctx} {op : FdOp} (hsafe : DescSafe s)
    (hquiet : ∀ f, s.fds f = .closed → Quiet s f ∧ ¬ op.Uses f)
    (hclose : ∀ f, op = .close f → Quiet s f) : DescInv (s.perform op) where
  safe := by
    refine ⟨perform_misused hsafe.1 fun f hf hcl => (hquiet f hcl).2 hf, ?_⟩
    rw [perform_delivered]
    exact hsafe.2
  quiet f hf := by
    rcases perform_closed hf with hcl | rfl
    · exact (hquiet f hcl).1.perform op
    · exact (hclose f rfl).perform _

theorem accOp_inv {proc : ProcFn Ctx} {s t : DescSys Ctx} (h : DescInv s)
    (hok : DescOk s .accOp) (hst : descStep proc s .accOp = some t) : DescInv t := by
  simp only [descStep] at hst
  cases hops : s.accOps with
  | nil => simp [hops] at hst
  | cons op ops =>
    simp only [hops, Option.some.injEq] at hst
    subst hst
    refine DescInv.perform (s := { s with accOps := ops }) h.safe (fun f hf => ?_) fun f hop => ?_
    · have hq := h.quiet f hf
      have hall := hq.accOps
      rw [hops, List.forall_mem_cons] at hall
      exact ⟨{ hq with accOps := hall.2 }, hall.1⟩
    · exact hok f ops (hop ▸ hops)

theorem workOp_inv {proc : ProcFn Ctx} {s t : DescSys Ctx} {k : ℕ} (h : DescInv s)
    (hok : DescOk s (.workOp k)) (hst : descStep proc s (.workOp k) = some t) : DescInv t := by
  simp only [descStep] at hst
  cases hops : s.pend k with
  | nil => simp [hops] at hst
  | cons op ops =>
    simp only [hops, Option.some.injEq] at hst
    subst hst
    refine DescInv.perform (s := { s with pend := Function.update s.pend k ops }) h.safe
      (fun f hf => ?_) fun f hop => ?_
    · have hq := h.quiet f hf
      have hall := hq.pend k
      rw [hops, List.forall_mem_cons] at hall
      refine ⟨{ hq with pend := fun j => ?_ }, hall.1⟩
      rcases eq_or_ne j k with rfl | hne
      · simpa using hall.2
      · simpa [hne] using hq.pend j
    · exact hok f ops (hop ▸ hops)

/-! ### A record -/

theorem workerSwitch_ops (w : Worker Ctx) (r : SockInfo) (appended : Option (List UInt8))
    (ops : List FdOp) : (workerSwitch w r appended ops).2.ops =
      if w.procStat = .sendbuf then ops ++ [.send r.fd] else ops := by
  unfold workerSwitch
  cases w.procStat <;> rfl

theorem workerDataIn_ops (proc : ProcFn Ctx) (w : Worker Ctx) (fd : ℤ) (rx : List RecvRes) :
    ∀ op ∈ (workerDataIn proc w fd rx).ops, op = .recv fd ∨ op = .close fd := by
  unfold workerDataIn
  dsimp only
  intro op hop
  split_ifs at hop <;>
    simp only [List.mem_append, List.mem_replicate, List.mem_singleton, List.not_mem_nil] at hop <;>
    tauto

/-- The calls of a worker's turn are on the descriptor of its record. -/
theorem workerTurn_ops (proc : ProcFn Ctx) (w : Worker Ctx) (r : SockInfo) (rx : List RecvRes)
    {f : ℤ} (hne : r.fd ≠ f) : ∀ op ∈ (workerTurn proc w r rx).2.ops, ¬ op.Uses f := by
  have hin : ∀ op ∈ (workerDataIn proc w r.fd rx).ops, ¬ op.Uses f := by
    intro op hop
    rcases workerDataIn_ops proc w r.fd rx op hop with rfl | rfl <;> exact hne
  have hsw : ∀ (u : Worker Ctx) (app : Option (List UInt8)) (ops : List FdOp),
      (∀ op ∈ ops, ¬ op.Uses f) → ∀ op ∈ (workerSwitch u r app ops).2.ops, ¬ op.Uses f := by
    intro u app ops hops
    rw [workerSwitch_ops]
    split_ifs
    · exact List.forall_mem_append.2 ⟨hops, List.forall_mem_singleton.2 hne⟩
    · exact hops
  unfold workerTurn
  dsimp only
  by_cases hr : r.sockStatus = .dataIn
  · rw [if_pos hr]
    split_ifs
    · exact hin
    · exact hsw _ _ _ hin
  · rw [if_neg hr, if_neg Bool.false_ne_true]
    exact hsw _ _ _ fun op hop => absurd hop List.not_mem_nil

/-- A record that is not received from and finds no request to send needs no calls. -/
theorem workerTurn_ops_nil (proc : ProcFn Ctx) (w : Worker Ctx) (r : SockInfo) (rx : List RecvRes)
    (hr : r.sockStatus ≠ .dataIn) (hp : w.procStat ≠ .sendbuf) :
    (workerTurn proc w r rx).2.ops = [] := by
  unfold workerTurn
  dsimp only
  rw [if_neg hr, if_neg Bool.false_ne_true, workerSwitch_ops, if_neg hp]

theorem take_inv {proc : ProcFn Ctx} {s t : DescSys Ctx} {k : ℕ} {rx : List RecvRes}
    (h : DescInv s) (hok : DescOk s (.take k rx)) (hst : descStep proc s (.take k rx) = some t) :
    DescInv t := by
  simp only [descStep] at hst
  cases hpend : s.pend k with
  | cons op ops => simp [hpend] at hst
  | nil =>
    cases hque : s.ques k with
    | nil => simp [hpend, hque] at hst
    | cons r rs =>
      simp only [hpend, hque] at hst
      split_ifs at hst
      cases hst
      refine ⟨h.safe, fun f hf => ?_⟩
      have hq := h.quiet f hf
      have hall := hq.waiting k
      rw [hque, List.forall_mem_cons] at hall
      refine { hq with waiting := fun j => ?_, pend := fun j => ?_ }
      · rcases eq_or_ne j k with rfl | hne
        · simpa using hall.2
        · simpa [hne] using hq.waiting j
      · rcases eq_or_ne j k with rfl | hne
        · simp only [Function.update_self]
          rcases eq_or_ne r.fd f with rfl | hfd
          · have hr : r.sockStatus ≠ .dataIn := fun hr => hall.1 hr rfl
            rw [workerTurn_ops_nil proc _ r rx hr (hok r rs hque hr hf)]
            exact fun op hop => absurd hop List.not_mem_nil
          · exact workerTurn_ops proc _ r rx hfd
        · simpa [hne] using hq.pend j

theorem enqueue_inv {proc : ProcFn Ctx} {s t : DescSys Ctx} {room : Bool} (h : DescInv s)
    (hst : descStep proc s (.enqueue room) = some t) : DescInv t := by
  simp only [descStep] at hst
  cases hops : s.accOps with
  | cons op ops => simp [hops] at hst
  | nil =>
    cases hout : s.out with
    | none => simp [hops, hout] at hst
    | some r =>
      simp only [hops, hout, Option.some.injEq] at hst
      subst hst
      refine ⟨h.safe, fun f hf => ?_⟩
      have hq := h.quiet f hf
      refine { hq with
        out := fun _ hr => (by cases hr), waiting := fun j => ?_, accOps := hops ▸ hq.accOps }
      rcases eq_or_ne j (selQueByIp r.srcIp s.queNum) with rfl | hne
      · simp only [Function.update_self]
        split_ifs
        · rw [List.forall_mem_append, List.forall_mem_singleton]
          exact ⟨hq.waiting _, hq.out r hout⟩
        · exact hq.waiting _
      · simpa [hne] using hq.waiting j

theorem detect_inv {proc : ProcFn Ctx} {s t : DescSys Ctx} {events : List EpollEvent}
    (h : DescInv s) (hst : descStep proc s (.detect events) = some t) : DescInv t := by
  simp only [descStep] at hst
  split_ifs at hst with hcond
  cases hst
  refine ⟨h.safe, fun f hf => { h.quiet f hf with events := fun ev hev => ?_ }⟩
  rintro rfl
  have hopen := hcond.2.2.2 ev (List.mem_of_mem_drop hev)
  rw [show s.fds ev.info.fd = .closed from hf] at hopen
  cases hopen

/-! ### An event -/

theorem checkClient_ops (acc : Accessor) (ev : EpollEvent) (o : Outcome) :
    ∀ op ∈ (checkClient acc ev o).ops, op = .close ev.info.fd := by
  unfold checkClient
  dsimp only
  intro op hop
  split_ifs at hop <;>
    simp only [Accessor.advance, List.mem_append, List.mem_singleton, List.not_mem_nil] at hop <;>
    tauto

theorem checkListener_ops (acc : Accessor) (si : SockInfo) (o : Outcome) :
    ∀ op ∈ (checkListener acc si o).ops, ∃ fd, op = .accept fd := by
  unfold checkListener
  rcases o.accept with _ | ⟨fd, ip, port⟩
  · exact fun op hop => absurd hop List.not_mem_nil
  · dsimp only
    split_ifs <;> exact List.forall_mem_singleton.2 ⟨fd, rfl⟩

/-- A call makes calls only on the descriptor of its event, or accepts. -/
theorem accessorCheckStatus_ops {acc : Accessor} {si : SockInfo} {o : Outcome} {f : ℤ}
    (hev : ∀ ev, acc.events[acc.nextEvent]? = some ev → ev.info.fd ≠ f) :
    ∀ op ∈ (accessorCheckStatus acc si o).ops, ¬ op.Uses f := by
  unfold accessorCheckStatus
  cases hget : acc.events[acc.nextEvent]? with
  | none => exact fun op hop => absurd hop List.not_mem_nil
  | some ev =>
    dsimp only
    intro op hop
    split_ifs at hop
    · obtain ⟨fd, rfl⟩ := checkListener_ops acc si o op hop
      exact not_false
    · rw [checkClient_ops acc ev o op hop]
      exact hev ev hget

/-- What is handed out under the condition `CheckOk`: a record that is to be received from and names
a closed descriptor is about the event under the cursor, and an event that closes says so. -/
theorem check_out {s : DescSys Ctx} {o : Outcome} (hok : CheckOk s o)
    (h : (accessorCheckStatus s.acc s.si o).ret ≠ 0) :
    ((accessorCheckStatus s.acc s.si o).si.sockStatus = .dataIn →
      s.fds (accessorCheckStatus s.acc s.si o).si.fd = .closed →
        ∃ ev, s.acc.events[s.acc.nextEvent]? = some ev ∧
          ev.info.fd = (accessorCheckStatus s.acc s.si o).si.fd) ∧
      ((accessorCheckStatus s.acc s.si o).ops.any FdOp.closes = true →
        (accessorCheckStatus s.acc s.si o).si.sockStatus = .disc ∨
          (accessorCheckStatus s.acc s.si o).si.sockStatus = .err) := by
  unfold accessorCheckStatus at h ⊢
  cases hget : s.acc.events[s.acc.nextEvent]? with
  | none =>
    rw [hget] at h
    exact absurd rfl h
  | some ev =>
    have hev := hok ev hget
    rw [hget] at h
    dsimp only at h ⊢
    split_ifs at h hev ⊢
    · -- the listening socket: only when `accept` fails is the record an old one
      unfold checkListener at h ⊢
      rcases haccept : o.accept with _ | ⟨fd, ip, port⟩
      · exact ⟨fun hst hcl => absurd ⟨hst, hcl⟩ (hev haccept), fun hany => (by cases hany)⟩
      · rw [haccept] at h
        dsimp only at h ⊢
        split_ifs at h ⊢
        · exact absurd rfl h
        · exact absurd rfl h
        · exact ⟨fun hst => (by cases hst), fun hany => (by cases hany)⟩
    · -- a client: the status is that of the event under the cursor
      obtain ⟨hhup, herr⟩ := checkClient_ctls h
      rw [checkClient_eq _ _ _ hhup herr]
      refine ⟨fun _ _ => ⟨ev, rfl, rfl⟩, fun hany => ?_⟩
      have hclose : ev.epollhup = true ∨ ev.epollerr = true := by
        cases hf : ev.epollhup
        · cases he : ev.epollerr
          · simp [Accessor.advance, hf, he] at hany
          · exact .inr rfl
        · exact .inl rfl
      obtain ⟨hin, hout⟩ := hev hclose hhup herr
      simp only [Accessor.advance, EpollEvent.status, hin, hout, if_neg Bool.false_ne_true]
      rcases hclose with hf | hf
      · cases ev.epollerr <;> simp [hf]
      · simp [hf]

theorem Quiet.under_cursor {s : DescSys Ctx} {f : ℤ} (h : Quiet s f) {ev : EpollEvent}
    (hev : s.acc.events[s.acc.nextEvent]? = some ev) : ev.info.fd ≠ f := by
  obtain ⟨hlt, rfl⟩ := List.getElem?_eq_some_iff.1 hev
  refine h.events _ ?_
  rw [List.drop_eq_getElem_cons hlt]
  exact List.mem_cons_self

theorem check_inv {proc : ProcFn Ctx} {s t : DescSys Ctx} {o : Outcome} (h : DescInv s)
    (hok : DescOk s (.check o)) (hst : descStep proc s (.check o) = some t) : DescInv t := by
  simp only [descStep] at hst
  split_ifs at hst with hidle
  unfold DescSys.check at hst
  have hops : ∀ f, s.fds f = .closed → ∀ op ∈ (accessorCheckStatus s.acc s.si o).ops, ¬ op.Uses f :=
    fun f hf => accessorCheckStatus_ops fun _ hev => (h.quiet f hf).under_cursor hev
  dsimp only at hst
  split_ifs at hst with haccept hret <;> cases hst
  · refine ⟨h.safe, fun f hf => { h.quiet f hf with events := ?_, accOps := hops f hf }⟩
    exact fun ev hev => absurd hev (by simp [accessorClear])
  · obtain ⟨hout, hclose⟩ := check_out hok hret
    refine ⟨⟨h.safe.1, ?_⟩, fun f hf => ?_⟩
    · rw [List.forall_mem_append, List.forall_mem_singleton]
      exact ⟨h.safe.2, hclose⟩
    · refine { h.quiet f hf with events := ?_, out := ?_, accOps := hops f hf }
      · rw [accessorCheckStatus_acc hret]
        exact fun ev hev => (h.quiet f hf).events ev
          (List.mem_of_mem_drop (i := 1) (by rwa [List.drop_drop]))
      · rintro r hr hst rfl
        cases hr
        obtain ⟨ev, hev, heq⟩ := hout hst hf
        exact (h.quiet _ hf).under_cursor hev heq

/-! ### Runs -/

/-- **The step lemma.** -/
theorem descStep_inv {proc : ProcFn Ctx} {s t : DescSys Ctx} {a : DescAct} (h : DescInv s)
    (hok : DescOk s a) (hst : descStep proc s a = some t) : DescInv t := by
  cases a with
  | detect events => exact detect_inv h hst
  | check o => exact check_inv h hok hst
  | accOp => exact accOp_inv h hok hst
  | enqueue room => exact enqueue_inv h hst
  | take k rx => exact take_inv h hok hst
  | workOp k => exact workOp_inv h hok hst

/-- **No use of a closed descriptor**, in every state of a run all of whose steps meet the condition
`DescOk`: nothing is received from, sent to or closes a descriptor that has been closed and that
`accept` has not returned again, and a record handed out for an event that closed its descriptor has
status `SST_DISC` or `SST_ERR`. -/
theorem no_use_after_close (proc : ProcFn Ctx) (listenFd : ℤ) (si : SockInfo) (queNum : ℕ)
    (workers : ℕ → Worker Ctx) (acts : List DescAct) (s : DescSys Ctx)
    (hok : Lts.Guarded (descStep proc) DescOk (descStart listenFd si queNum workers) acts)
    (hrun : Lts.run (descStep proc) (descStart listenFd si queNum workers) acts = some s) :
    DescSafe s :=
  (Lts.guarded_invariant (fun _ _ _ h hok hst => descStep_inv h hok hst)
    (descStart_inv listenFd si queNum workers) hok hrun).safe

/-- The answers of the system when there is nothing to accept. -/
def noAccept : Outcome := ⟨none, true, true, true, true, true⟩

/-- The listening socket 4 is ready, and `accept` returns 5. -/
def acceptFive : List DescAct :=
  [.detect [⟨false, false, true, false, ⟨4, 0, 0, .init⟩⟩],
    .check { noAccept with accept := some (5, 16777343, 1) }, .accOp, .enqueue true, .check noAccept]

/-- The next batch is the event `ev`. -/
def nextEvent (ev : EpollEvent) : List DescAct := [.detect [ev], .check noAccept, .accOp]

/-- Descriptor 5 is accepted and closed on `EPOLLHUP`. -/
theorem no_use_after_close_hup : ∃ s : DescSys Unit, DescSafe s ∧ s.fds 5 = .closed := by
  let b : Buffer := ⟨.allo, 2048, 0, fun _ => 0, false⟩
  refine ⟨_, no_use_after_close workerDataFprocDft 4 ⟨0, 0, 0, .unknown⟩ 1
    (fun _ => workerStart () b b)
    (acceptFive ++ nextEvent ⟨true, false, false, false, ⟨5, 16777343, 1, .init⟩⟩) _ ?_ rfl, rfl⟩
  refine fun t ht => ⟨trivial, ?_⟩
  cases ht
  refine fun t ht => ⟨?_, ?_⟩
  · rintro ev hev
    cases hev
    intro h
    cases h
  cases ht
  refine fun t ht => ⟨?_, ?_⟩
  · rintro f ops hops
    cases hops
  cases ht
  refine fun t ht => ⟨trivial, ?_⟩
  cases ht
  refine fun t ht => ⟨?_, ?_⟩
  · rintro ev hev
    cases hev
  cases ht
  refine fun t ht => ⟨trivial, ?_⟩
  cases ht
  refine fun t ht => ⟨?_, ?_⟩
  · rintro ev hev
    cases hev
    exact fun _ _ _ => ⟨rfl, rfl⟩
  cases ht
  refine fun t ht => ⟨?_, trivial⟩
  rintro f ops hops
  cases hops
  refine ⟨fun ev hev => (by cases hev), ?_, ?_, fun op hop => (by cases hop),
    fun k op hop => (by cases hop)⟩
  · rintro r hr hst
    cases hr
    cases hst
  · rintro k r hr hst
    have hall : ∀ j, ∀ r ∈ Function.update (fun _ : ℕ => ([] : List SockInfo))
        (selQueByIp 16777343 1) [⟨5, 16777343, 1, .init⟩] j, r.sockStatus = .init := by
      intro j r hr
      rcases eq_or_ne j (selQueByIp 16777343 1) with rfl | hne
      · rw [Function.update_self] at hr
        rw [List.mem_singleton.1 hr]
      · rw [Function.update_of_ne hne] at hr
        cases hr
    rw [hall k r hr] at hst
    cases hst

/-- Descriptor 5 reports `EPOLLHUP` together with `EPOLLIN`: it is closed, a record of status
`SST_DATA_IN` is handed out, and the worker receives from it. -/
theorem closed_descriptor_is_read : ¬ ∀ (proc : ProcFn Unit) (listenFd : ℤ) (si : SockInfo)
    (queNum : ℕ) (workers : ℕ → Worker Unit) (acts : List DescAct) (s : DescSys Unit),
    Lts.run (descStep proc) (descStart listenFd si queNum workers) acts = some s → DescSafe s := by
  intro h
  let b : Buffer := ⟨.allo, 2048, 0, fun _ => 0, false⟩
  let start := descStart 4 ⟨0, 0, 0, .unknown⟩ 1 fun _ => workerStart () b b
  have hmisused : (Lts.run (descStep workerDataFprocDft) start
      (acceptFive ++ nextEvent ⟨true, false, true, false, ⟨5, 16777343, 1, .init⟩⟩ ++
        [.enqueue true, .take 0 [], .take 0 [], .workOp 0])).map DescSys.misused = some true := by
    decide
  obtain ⟨s, hrun, hs⟩ := Option.map_eq_some_iff.1 hmisused
  have hsafe := (h _ _ _ _ _ _ s hrun).1
  rw [hs] at hsafe
  cases hsafe

end F1Goal
