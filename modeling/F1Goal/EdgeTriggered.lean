import F1Goal.Access
import F1Goal.Lib.Lts
import F1Goal.Receive

/-!
# Edge-triggered events

The sockets are added to epoll with `EPOLLET`: an event is reported when something has arrived since
the last report, and not because something is still waiting. `edgeStep` lets connections and bytes
arrive at any time between the steps of the access loop, which accepts one connection for each event
of the listening socket, and those of the workers, which receive until the buffer is full, three
reads have been put off, or a read has failed. Every `recvfrom` is a step of its own.

`Drained` says that behind an event that has been handled nothing is left waiting unless a further
event is on its way, and `EdgeOk` is a condition on a step.
-/

namespace F1Goal

/-! ### The system -/

/-- The access loop with `*p_si` and the record that it will enqueue; the queues; each worker with
the record that it is receiving for and the outcomes so far; and the system: the connections that
have not been accepted, with the descriptors that they will get; the bytes that have not been
received; the descriptors that an event is pending for; the clients, which are added to epoll, and
their addresses. `handled` says of a descriptor that an event of it has been handled, and none has
been reported or dropped since. -/
structure EdgeSys (Ctx : Type) where
  acc : Accessor
  si : SockInfo
  out : Option SockInfo
  queNum : ℕ
  ques : ℕ → List SockInfo
  workers : ℕ → Worker Ctx
  reading : ℕ → Option (SockInfo × List RecvRes)
  backlog : List (ℤ × UInt32 × UInt16)
  unread : ℤ → List UInt8
  edge : ℤ → Bool
  client : ℤ → Bool
  addr : ℤ → UInt32 × UInt16
  handled : ℤ → Bool

variable {Ctx : Type}

/-- Before the first batch. The record of the listening socket has any address `addr`, and `*p_si`
is not initialised. -/
def edgeStart (listenFd : ℤ) (addr : UInt32 × UInt16) (si : SockInfo) (queNum : ℕ)
    (workers : ℕ → Worker Ctx) : EdgeSys Ctx :=
  { acc := ⟨listenFd, [], 0⟩, si := si, out := none, queNum := queNum, ques := fun _ => []
    workers := workers, reading := fun _ => none, backlog := [], unread := fun _ => []
    edge := fun _ => false, client := fun _ => false, addr := fun _ => addr
    handled := fun _ => false }

/-- How a `recvfrom` goes: it is answered as the socket is, it is interrupted, or it fails. -/
inductive Answer
  | plain | interrupted | failed
  deriving DecidableEq, Repr

/-- What happens: a connection arrives at the listening socket; bytes arrive at another one;
`epoll_wait` reports some descriptors; `accessor_check_status` is called; the access loop enqueues
the record, if the queue has room; a worker takes the next record; it makes its next `recvfrom`. -/
inductive EdgeAct
  | connect (peer : ℤ × UInt32 × UInt16)
  | arrive (fd : ℤ) (bs : List UInt8)
  | detect (fds : List ℤ)
  | check (o : Outcome)
  | enqueue (room : Bool)
  | take (k : ℕ)
  | recv (k : ℕ) (answer : Answer)
  deriving DecidableEq, Repr

/-- The `EPOLLIN` event of a descriptor. -/
def EdgeSys.event (s : EdgeSys Ctx) (fd : ℤ) : EpollEvent :=
  ⟨false, false, true, false, ⟨fd, (s.addr fd).1, (s.addr fd).2, .init⟩⟩

/-- The event under the cursor is that of the listening socket. -/
def EdgeSys.atListener (s : EdgeSys Ctx) : Bool :=
  (s.acc.events[s.acc.nextEvent]?).any fun ev => ev.info.fd = s.acc.listenFd

/-- The events behind the cursor. -/
def EdgeSys.later (s : EdgeSys Ctx) : List EpollEvent := s.acc.events.drop (s.acc.nextEvent + 1)

/-- `accept` takes the first connection; when its socket is added to epoll, what has already arrived
there makes an event. -/
def EdgeSys.accepted (s : EdgeSys Ctx) (o : Outcome) : EdgeSys Ctx :=
  match o.accept with
  | none => s
  | some (fd, ip, port) =>
    if o.malloc ∧ o.ctlAdd then
      { s with
        backlog := s.backlog.tail
        client := Function.update s.client fd true
        addr := Function.update s.addr fd (ip, port)
        edge := Function.update s.edge fd (decide (s.unread fd ≠ []))
        handled := Function.update s.handled fd false }
    else { s with backlog := s.backlog.tail }

/-- The access loop goes by what `accessor_check_status` returns. On 0 it drops the events behind
the cursor, which are not handled then. -/
def EdgeSys.checked (s : EdgeSys Ctx) (c : Checked) : EdgeSys Ctx :=
  if c.ret = 0 then
    { s with
      acc := accessorClear c.acc, si := c.si
      handled := fun f => s.handled f && !s.later.any fun ev => ev.info.fd = f }
  else { s with acc := c.acc, si := c.si, out := some c.si }

/-- The outcome of a `recvfrom`. It fails on what is no client. -/
def EdgeSys.outcome (s : EdgeSys Ctx) (fd : ℤ) (answer : Answer) : RecvRes :=
  if s.client fd = false then .fail
  else
    match answer with
    | .plain => if s.unread fd = [] then .again else .data (s.unread fd)
    | .interrupted => .again
    | .failed => .fail

/-- What is left of the waiting bytes by a `recvfrom` that is offered some room. -/
def RecvRes.left (waiting : List UInt8) (room : ℕ) : RecvRes → List UInt8
  | .data _ => waiting.drop room
  | _ => waiting

/-- The receive is over: the worker finishes the turn of its loop. -/
def EdgeSys.finish (proc : ProcFn Ctx) (s : EdgeSys Ctx) (k : ℕ) (r : SockInfo)
    (rx : List RecvRes) : EdgeSys Ctx :=
  { s with
    workers := Function.update s.workers k (workerTurn proc (s.workers k) r rx).1
    reading := Function.update s.reading k none
    handled :=
      if r.sockStatus = .dataIn ∧ s.client r.fd = true then Function.update s.handled r.fd true
      else s.handled }

/-- One step. `epoll_wait` reports descriptors that an event is pending for, each of them once, and
at most as many as there is room for. -/
def edgeStep (proc : ProcFn Ctx) (s : EdgeSys Ctx) : EdgeAct → Option (EdgeSys Ctx)
  | .connect peer =>
    if peer.1 ≠ s.acc.listenFd ∧ s.client peer.1 = false ∧ peer.1 ∉ s.backlog.map Prod.fst then
      some { s with
        backlog := s.backlog ++ [peer], edge := Function.update s.edge s.acc.listenFd true }
    else none
  | .arrive fd bs =>
    if bs ≠ [] ∧ fd ≠ s.acc.listenFd ∧ (s.client fd = true ∨ fd ∈ s.backlog.map Prod.fst) then
      -- what has not been accepted has not been added to epoll: no event yet
      some { s with
        unread := Function.update s.unread fd (s.unread fd ++ bs)
        edge := Function.update s.edge fd (s.client fd) }
    else none
  | .detect fds =>
    if s.acc.events = [] ∧ s.out = none ∧ fds.length ≤ 512 ∧ fds.Nodup ∧
        ∀ f ∈ fds, s.edge f = true then
      some { s with
        acc := accessorDetect s.acc (fds.map s.event)
        edge := fun f => s.edge f && decide (f ∉ fds)
        handled := fun f => s.handled f && decide (f ∉ fds) }
    else none
  | .check o =>
    if s.out = none ∧
        (s.atListener = true → o.accept = none ∨ o.accept = s.backlog.head?) then
      let c := accessorCheckStatus s.acc s.si o
      if s.atListener then
        some (({ s.accepted o with
          handled := Function.update (s.accepted o).handled s.acc.listenFd true }).checked c)
      else some (s.checked c)
    else none
  | .enqueue room =>
    match s.out with
    | none => none
    | some r =>
      let k := selQueByIp r.srcIp s.queNum
      -- a full queue drops the record, whose event is not handled then
      if room then
        some { s with ques := Function.update s.ques k (s.ques k ++ [r]), out := none }
      else some { s with out := none, handled := Function.update s.handled r.fd false }
  | .take k =>
    match s.reading k, s.ques k with
    | none, r :: rs =>
      if (s.workers k).running then
        let t := { s with ques := Function.update s.ques k rs }
        -- a receive into a buffer without room is over at once
        if r.sockStatus = .dataIn ∧ ¬ RecvOver (bufferClear (s.workers k).rdbuf) [] then
          some { t with reading := Function.update s.reading k (some (r, [])) }
        else some (t.finish proc k r [])
      else none
    | _, _ => none
  | .recv k answer =>
    match s.reading k with
    | none => none
    | some (r, rx) =>
      let b := bufferClear (s.workers k).rdbuf
      let res := s.outcome r.fd answer
      -- `recvfrom` is offered the room that is left
      let t := { s with
        unread := Function.update s.unread r.fd (res.left (s.unread r.fd) (recvRoom b rx)) }
      if RecvOver b (rx ++ [res]) then some (t.finish proc k r (rx ++ [res]))
      else some { t with reading := Function.update s.reading k (some (r, rx ++ [res])) }

/-! ### What is waiting and what is on its way -/

/-- Something has arrived and has not been taken. -/
def EdgeSys.Waiting (s : EdgeSys Ctx) (f : ℤ) : Prop :=
  if f = s.acc.listenFd then s.backlog ≠ [] else s.unread f ≠ []

/-- The descriptor is that of a record to receive from: on its way to a queue, in one, or in the
hand of a worker. -/
structure EdgeSys.Idle (s : EdgeSys Ctx) (f : ℤ) : Prop where
  out : ∀ r, s.out = some r → r.sockStatus = .dataIn → r.fd ≠ f
  ques : ∀ k, ∀ r ∈ s.ques k, r.sockStatus = .dataIn → r.fd ≠ f
  reading : ∀ k r rx, s.reading k = some (r, rx) → r.fd ≠ f

/-- A further event has been reported and is still to be handled. -/
def EdgeSys.Owed (s : EdgeSys Ctx) (f : ℤ) : Prop :=
  (∃ ev ∈ s.acc.events.drop s.acc.nextEvent, ev.info.fd = f) ∨ (f ≠ s.acc.listenFd ∧ ¬ s.Idle f)

/-- **Drained.** Behind an event that has been handled, nothing is left waiting, or a further event
is pending or reported. -/
def Drained (s : EdgeSys Ctx) : Prop :=
  ∀ f, s.handled f = true → s.Waiting f → s.edge f = true ∨ s.Owed f

/-- A further event for `f` is pending or reported, not counting what worker `k` has in hand. -/
def EdgeSys.Further (s : EdgeSys Ctx) (k : ℕ) (f : ℤ) : Prop :=
  s.edge f = true ∨ EdgeSys.Owed { s with reading := Function.update s.reading k none } f

/-- A `recvfrom` leaves nothing waiting if the receive ends with it. -/
def RecvFits (rx : List RecvRes) (room : ℕ) (waiting : List UInt8) : Answer → Prop
  | .plain => waiting.length ≤ room
  | .interrupted => putOffs rx + 1 < 3 ∨ waiting = []
  | .failed => waiting = []

/-- **The condition on a step.** When the event of the listening socket is handled, at most the one
connection that is accepted is waiting, or a further event is pending. When bytes are received, they
fit into the room that is left, the receive does not end with an interruption, and none fails while
bytes are waiting, or there is a further event. -/
def EdgeOk (s : EdgeSys Ctx) : EdgeAct → Prop
  | .check o =>
    s.atListener = true →
      s.backlog.length ≤ (if o.accept = none then 0 else 1) ∨ s.edge s.acc.listenFd = true
  | .take k =>
    ∀ r rs, s.ques k = r :: rs → r.sockStatus = .dataIn → s.client r.fd = true →
      (0 < (s.workers k).rdbuf.size ∨ s.unread r.fd = []) ∨
        EdgeSys.Further { s with ques := Function.update s.ques k rs } k r.fd
  | .recv k answer =>
    ∀ r rx, s.reading k = some (r, rx) → s.client r.fd = true →
      RecvFits rx (recvRoom (bufferClear (s.workers k).rdbuf) rx) (s.unread r.fd) answer ∨
        s.Further k r.fd
  | _ => True

end F1Goal
