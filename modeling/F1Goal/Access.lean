import F1Goal.Lib.LittleEndian
import F1Goal.Worker

/-!
# The access loop (`f1g_accessor.c`, `access_cb_dft` of `f1g_server.c`)

`accessor_detect` fetches a batch of epoll events, and `accessor_check_status` handles the event
under its cursor: it accepts a connection or closes a socket as the flags say and leaves in `*p_si`
the record of what has happened. `access_cb_dft` calls it until it returns 0, and after each other
return copies `*p_si` to the queue that the address selects.

What the calls of the system return is collected in an `Outcome` for each call of
`accessor_check_status`.
-/

namespace F1Goal

/-- A `struct epoll_event`: its flags, and the record that `data.ptr` points to. -/
structure EpollEvent where
  epollhup : Bool
  epollerr : Bool
  epollin : Bool
  epollout : Bool
  info : SockInfo
  deriving DecidableEq, Repr

/-- `epoller_t`, with the events of the current batch; `event_num` is the length of `events`. -/
structure Accessor where
  listenFd : ℤ
  events : List EpollEvent
  nextEvent : ℕ
  deriving DecidableEq, Repr

/-- What the system answers during one call of `accessor_check_status`: the descriptor and peer that
`accept` returns, whether `malloc` returns a block, and whether `epoll_ctl` succeeds in adding the
new socket and in deleting the old one for `EPOLLHUP` and for `EPOLLERR`; and whether
`que_obj_move_next` then finds room. -/
structure Outcome where
  accept : Option (ℤ × UInt32 × UInt16)
  malloc : Bool
  ctlAdd : Bool
  ctlDelHup : Bool
  ctlDelErr : Bool
  room : Bool
  deriving DecidableEq, Repr

/-- `accessor_detect` after `epoll_wait` has stored the batch `events`. -/
def accessorDetect (acc : Accessor) (events : List EpollEvent) : Accessor :=
  { acc with events := events, nextEvent := 0 }

/-- `accessor_clear` -/
def accessorClear (acc : Accessor) : Accessor := { acc with events := [], nextEvent := 0 }

/-- What a call of `accessor_check_status` returns and leaves behind, and the calls on descriptors
that it makes. -/
structure Checked where
  ret : ℕ
  acc : Accessor
  si : SockInfo
  ops : List FdOp
  deriving DecidableEq, Repr

/-- `p_ep->next_event++` and the return of the cursor. -/
def Accessor.advance (acc : Accessor) (si : SockInfo) (ops : List FdOp) : Checked :=
  ⟨acc.nextEvent + 1, { acc with nextEvent := acc.nextEvent + 1 }, si, ops⟩

/-- The branch of the listening socket. -/
def checkListener (acc : Accessor) (si : SockInfo) (o : Outcome) : Checked :=
  match o.accept with
  -- `*p_si` is left as it was, and is enqueued again
  | none => acc.advance si []
  | some (fd, ip, port) =>
    if o.malloc = false then ⟨0, acc, si, [.accept fd]⟩
    else
      let si : SockInfo := ⟨fd, ip, port, .init⟩
      if o.ctlAdd = false then ⟨0, acc, si, [.accept fd]⟩ else acc.advance si [.accept fd]

/-- The last status that the flags write to `*p_si`. -/
def EpollEvent.status (ev : EpollEvent) : SockStatus :=
  if ev.epollout then .dataOut
  else if ev.epollin then .dataIn
  else if ev.epollerr then .err
  else if ev.epollhup then .disc
  else .unknown

/-- The branch of a client socket. -/
def checkClient (acc : Accessor) (ev : EpollEvent) (o : Outcome) : Checked :=
  let fd := ev.info.fd
  let si := { ev.info with sockStatus := .unknown }
  -- one flag after the other: the last one decides about the status
  let si := if ev.epollhup then { si with sockStatus := .disc } else si
  if ev.epollhup ∧ o.ctlDelHup = false then ⟨0, acc, si, []⟩
  else
    let ops := if ev.epollhup then [FdOp.close fd] else []
    let si := if ev.epollerr then { si with sockStatus := .err } else si
    if ev.epollerr ∧ o.ctlDelErr = false then ⟨0, acc, si, ops⟩
    else
      let ops := ops ++ if ev.epollerr then [FdOp.close fd] else []
      let si := if ev.epollin then { si with sockStatus := .dataIn } else si
      let si := if ev.epollout then { si with sockStatus := .dataOut } else si
      acc.advance si ops

/-- `accessor_check_status`, with `si` the contents of `*p_si` before the call. -/
def accessorCheckStatus (acc : Accessor) (si : SockInfo) (o : Outcome) : Checked :=
  match acc.events[acc.nextEvent]? with
  -- the end of the batch
  | none => ⟨0, { acc with nextEvent := 0 }, si, []⟩
  | some ev =>
    if ev.info.fd = acc.listenFd then checkListener acc si o else checkClient acc ev o

/-- The loop of `dig_hash`; a `char` is signed. -/
def digHash (val : UInt32) : List UInt8 → UInt32
  | [] => val
  | b :: bs => digHash ((val <<< 5) + b.toInt8.toInt32.toUInt32) bs

/-- `sel_que_by_ip` -/
def selQueByIp (ip : UInt32) (queNum : ℕ) : ℕ :=
  (digHash 0 (LittleEndian.bytes 4 ip.toNat)).toNat % queNum

/-! ### What a call does -/

/-- The branch of a client socket when every `epoll_ctl` that it makes succeeds. -/
theorem checkClient_eq (acc : Accessor) (ev : EpollEvent) (o : Outcome)
    (hhup : ev.epollhup = true → o.ctlDelHup = true)
    (herr : ev.epollerr = true → o.ctlDelErr = true) :
    checkClient acc ev o = acc.advance { ev.info with sockStatus := ev.status }
      ((if ev.epollhup then [.close ev.info.fd] else []) ++
        if ev.epollerr then [.close ev.info.fd] else []) := by
  have h1 : ¬(ev.epollhup = true ∧ o.ctlDelHup = false) := by
    rintro ⟨hf, hd⟩
    rw [hhup hf] at hd
    cases hd
  have h2 : ¬(ev.epollerr = true ∧ o.ctlDelErr = false) := by
    rintro ⟨hf, hd⟩
    rw [herr hf] at hd
    cases hd
  simp only [checkClient, EpollEvent.status, if_neg h1, if_neg h2]
  cases ev.epollhup <;> cases ev.epollerr <;> cases ev.epollin <;> cases ev.epollout <;> rfl

/-- It stops when one of them fails. -/
theorem checkClient_stops (acc : Accessor) (ev : EpollEvent) (o : Outcome)
    (h : (ev.epollhup = true ∧ o.ctlDelHup = false) ∨
      (ev.epollerr = true ∧ o.ctlDelErr = false)) : (checkClient acc ev o).ret = 0 := by
  unfold checkClient
  rcases h with h | h
  · simp only [if_pos h]
  · simp only [if_pos h, apply_ite Checked.ret, ite_self]

/-- When it does not stop, every `epoll_ctl` that it makes has succeeded. -/
theorem checkClient_ctls {acc : Accessor} {ev : EpollEvent} {o : Outcome}
    (h : (checkClient acc ev o).ret ≠ 0) :
    (ev.epollhup = true → o.ctlDelHup = true) ∧ (ev.epollerr = true → o.ctlDelErr = true) := by
  constructor
  · intro hf
    by_contra hd
    exact h (checkClient_stops _ _ _ (.inl ⟨hf, Bool.eq_false_iff.2 hd⟩))
  · intro hf
    by_contra hd
    exact h (checkClient_stops _ _ _ (.inr ⟨hf, Bool.eq_false_iff.2 hd⟩))

theorem checkClient_acc {acc : Accessor} {ev : EpollEvent} {o : Outcome}
    (h : (checkClient acc ev o).ret ≠ 0) :
    (checkClient acc ev o).acc = { acc with nextEvent := acc.nextEvent + 1 } := by
  obtain ⟨hhup, herr⟩ := checkClient_ctls h
  rw [checkClient_eq _ _ _ hhup herr]
  rfl

theorem checkListener_acc {acc : Accessor} {si : SockInfo} {o : Outcome}
    (h : (checkListener acc si o).ret ≠ 0) :
    (checkListener acc si o).acc = { acc with nextEvent := acc.nextEvent + 1 } := by
  unfold checkListener at h ⊢
  rcases haccept : o.accept with _ | ⟨fd, ip, port⟩
  · rfl
  · rw [haccept] at h
    dsimp only at h ⊢
    split_ifs at h ⊢ <;> first | rfl | exact absurd rfl h

/-- A call that does not return 0 moves the cursor by one. -/
theorem accessorCheckStatus_acc {acc : Accessor} {si : SockInfo} {o : Outcome}
    (h : (accessorCheckStatus acc si o).ret ≠ 0) :
    (accessorCheckStatus acc si o).acc = { acc with nextEvent := acc.nextEvent + 1 } := by
  unfold accessorCheckStatus at h ⊢
  cases hget : acc.events[acc.nextEvent]? with
  | none =>
    rw [hget] at h
    exact absurd rfl h
  | some ev =>
    rw [hget] at h
    dsimp only at h ⊢
    split_ifs at h ⊢
    · exact checkListener_acc h
    · exact checkClient_acc h

end F1Goal
