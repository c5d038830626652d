import F1Goal.Access

/-!
# One batch of events through the access loop

`accessLoop` is the inner loop of `access_cb_dft`: it calls `accessor_check_status` until that
returns 0 and enqueues `*p_si` after each other return. Its trace names the events visited and what
was enqueued for each. `batch_delivered_iff` says for which batches and answers of the system the
trace is the one it should be: every event once, with the socket that the event is about.
-/

namespace F1Goal

/-- A call of `accessor_check_status` that found an event: the index of the event, and the record
enqueued after the call. -/
structure Visit where
  event : ℕ
  record : Option SockInfo
  deriving DecidableEq, Repr

/-- The loop `while (accessor_check_status(…))`, with the calls counted from `k`; `none` when it
does not end within `fuel` calls. -/
def accessLoop (o : ℕ → Outcome) : ℕ → ℕ → Accessor → SockInfo → Option (List Visit)
  | 0, _, _, _ => none
  | fuel + 1, k, acc, si =>
    let c := accessorCheckStatus acc si (o k)
    if c.ret = 0 then
      some (if acc.nextEvent < acc.events.length then [⟨acc.nextEvent, none⟩] else [])
    else
      -- a full queue: the code of `que_obj_move_next` is not looked at
      let record := if (o k).room then some c.si else none
      (accessLoop o fuel (k + 1) c.acc c.si).map (⟨acc.nextEvent, record⟩ :: ·)

/-- The loop over the batch `events`. -/
def accessBatch (acc : Accessor) (events : List EpollEvent) (si : SockInfo) (o : ℕ → Outcome) :
    Option (List Visit) :=
  accessLoop o (events.length + 1) 0 (accessorDetect acc events) si

/-- A socket: descriptor and peer. -/
abbrev SockAddr := ℤ × UInt32 × UInt16

/-- The socket that a record names. -/
def SockInfo.addr (si : SockInfo) : SockAddr := (si.fd, si.srcIp, si.srcPort)

/-- The socket that an event is about: the one accepted, for the listener's. -/
def EpollEvent.socket (listenFd : ℤ) (ev : EpollEvent) (o : Outcome) : Option SockAddr :=
  if ev.info.fd = listenFd then o.accept else some ev.info.addr

/-- What a visit says about sockets. -/
def Visit.socket (v : Visit) : ℕ × Option SockAddr := (v.event, v.record.map SockInfo.addr)

/-- The trace of a batch handled as it should be, from the event `i` on, for `m` events. -/
def dueFrom (listenFd : ℤ) (events : List EpollEvent) (o : ℕ → Outcome) (i m : ℕ) :
    List (ℕ × Option SockAddr) :=
  (List.range' i m).map fun j => (j, events[j]?.bind fun ev => ev.socket listenFd (o j))

/-- Every event of the batch is visited, once and in order, and enqueues its own socket. -/
def BatchDelivered (acc : Accessor) (events : List EpollEvent) (si : SockInfo)
    (o : ℕ → Outcome) : Prop :=
  (accessBatch acc events si o).map (List.map Visit.socket) =
    some (dueFrom acc.listenFd events o 0 events.length)

instance (acc : Accessor) (events : List EpollEvent) (si : SockInfo) (o : ℕ → Outcome) :
    Decidable (BatchDelivered acc events si o) :=
  inferInstanceAs (Decidable (_ = _))

/-- All that the system is asked for during the event succeeds. (The record that a failed `accept`
leaves in `*p_si` does no harm when the queue refuses it.) -/
def EventOk (listenFd : ℤ) (ev : EpollEvent) (o : Outcome) : Prop :=
  if ev.info.fd = listenFd then
    if o.accept = none then o.room = false
    else o.malloc = true ∧ o.ctlAdd = true ∧ o.room = true
  else (ev.epollhup = true → o.ctlDelHup = true) ∧ (ev.epollerr = true → o.ctlDelErr = true) ∧
    o.room = true

/-! ### One event -/

variable {acc : Accessor} {si : SockInfo} {o : Outcome} {ev : EpollEvent}

/-- What is enqueued after a call that has not returned 0. -/
def enqueued (o : Outcome) (c : Checked) : Option SockInfo := if o.room then some c.si else none

/-- The call goes on and enqueues the socket `due`. -/
def Goes (o : Outcome) (c : Checked) (due : Option SockAddr) : Prop :=
  c.ret ≠ 0 ∧ (enqueued o c).map SockInfo.addr = due

theorem checkListener_goes :
    Goes o (checkListener acc si o) o.accept ↔
      if o.accept = none then o.room = false
      else o.malloc = true ∧ o.ctlAdd = true ∧ o.room = true := by
  unfold checkListener Goes enqueued
  rcases o.accept with _ | ⟨fd, ip, port⟩
  · cases o.room <;> simp [Accessor.advance]
  · cases o.malloc <;> cases o.ctlAdd <;> cases o.room <;>
      simp [Accessor.advance, SockInfo.addr]

theorem checkClient_goes :
    Goes o (checkClient acc ev o) (some ev.info.addr) ↔
      (ev.epollhup = true → o.ctlDelHup = true) ∧ (ev.epollerr = true → o.ctlDelErr = true) ∧
        o.room = true := by
  by_cases h : (ev.epollhup = true → o.ctlDelHup = true) ∧ (ev.epollerr = true → o.ctlDelErr = true)
  · rw [checkClient_eq acc ev o h.1 h.2, Goes, enqueued, ← and_assoc, and_iff_right h]
    cases o.room <;> simp [Accessor.advance, SockInfo.addr]
  · exact iff_of_false (fun hg => h (checkClient_ctls hg.1)) fun hc => h ⟨hc.1, hc.2.1⟩

/-- **One event** is delivered exactly when all that the system is asked for succeeds. -/
theorem accessorCheckStatus_goes (hev : acc.events[acc.nextEvent]? = some ev) :
    Goes o (accessorCheckStatus acc si o) (ev.socket acc.listenFd o) ↔
      EventOk acc.listenFd ev o := by
  unfold accessorCheckStatus EpollEvent.socket EventOk
  rw [hev]
  dsimp only
  split_ifs with h
  · rw [checkListener_goes, if_pos ‹_›]
  · rw [checkListener_goes, if_neg ‹_›]
  · exact checkClient_goes

/-- A call that finds an event and returns 0 owes a record. -/
theorem accessorCheckStatus_owes (hev : acc.events[acc.nextEvent]? = some ev)
    (h : (accessorCheckStatus acc si o).ret = 0) : ev.socket acc.listenFd o ≠ none := by
  unfold accessorCheckStatus at h
  rw [hev] at h
  unfold EpollEvent.socket
  dsimp only at h
  split_ifs at h ⊢
  · rintro hnone
    rw [checkListener, hnone] at h
    cases h
  · exact Option.some_ne_none _

/-! ### The batch -/

theorem dueFrom_succ (lfd : ℤ) (events : List EpollEvent) (o : ℕ → Outcome) (i m : ℕ) :
    dueFrom lfd events o i (m + 1) =
      (i, events[i]?.bind fun ev => ev.socket lfd (o i)) :: dueFrom lfd events o (i + 1) m := by
  rw [dueFrom, List.range'_succ, List.map_cons]
  rfl

/-- A first visit and what follows. -/
theorem map_cons_eq_some {r : Option (List Visit)} {v : Visit} {x : ℕ × Option SockAddr}
    {xs : List (ℕ × Option SockAddr)} :
    (r.map (v :: ·)).map (List.map Visit.socket) = some (x :: xs) ↔
      v.socket = x ∧ r.map (List.map Visit.socket) = some xs := by
  cases r with
  | none => simp
  | some vs => simp

/-- The loop from the event `acc.nextEvent` on, with `m` events to go. The induction is on `m`: the
cursor grows by one with each call that does not return 0. -/
theorem accessLoop_iff (o : ℕ → Outcome) (m : ℕ) (acc : Accessor) (si : SockInfo)
    (hm : acc.nextEvent + m = acc.events.length) :
    (accessLoop o (m + 1) acc.nextEvent acc si).map (List.map Visit.socket) =
        some (dueFrom acc.listenFd acc.events o acc.nextEvent m) ↔
      ∀ i (h : i < acc.events.length),
        acc.nextEvent ≤ i → EventOk acc.listenFd acc.events[i] (o i) := by
  induction m generalizing acc si with
  | zero =>
    refine iff_of_true ?_ fun i h hi => absurd h (by omega)
    simp [accessLoop, accessorCheckStatus, dueFrom, ← hm]
  | succ m ih =>
    have hlt : acc.nextEvent < acc.events.length := by omega
    have hev : acc.events[acc.nextEvent]? = some acc.events[acc.nextEvent] :=
      List.getElem?_eq_getElem hlt
    have hgoes : Goes (o acc.nextEvent) (accessorCheckStatus acc si (o acc.nextEvent)) _ ↔ _ :=
      accessorCheckStatus_goes hev
    rw [dueFrom_succ, hev, Option.bind_some, accessLoop]
    by_cases hret : (accessorCheckStatus acc si (o acc.nextEvent)).ret = 0
    · rw [if_pos hret, if_pos hlt]
      constructor
      · intro h
        have howes := accessorCheckStatus_owes hev hret
        simp only [Option.map_some, List.map_cons, Visit.socket, Option.map_none, Option.some.injEq,
          List.cons.injEq, Prod.mk.injEq, true_and] at h
        exact absurd h.1.symm howes
      · intro h
        exact absurd hret (hgoes.2 (h _ hlt le_rfl)).1
    · have hacc := accessorCheckStatus_acc hret
      have hrest := ih (accessorCheckStatus acc si (o acc.nextEvent)).acc
        (accessorCheckStatus acc si (o acc.nextEvent)).si
      rw [hacc] at hrest
      rw [if_neg hret, map_cons_eq_some, hacc, hrest (by dsimp only; omega)]
      have hfirst : (⟨acc.nextEvent, enqueued (o acc.nextEvent)
          (accessorCheckStatus acc si (o acc.nextEvent))⟩ : Visit).socket =
            (acc.nextEvent, acc.events[acc.nextEvent].socket acc.listenFd (o acc.nextEvent)) ↔
          EventOk acc.listenFd acc.events[acc.nextEvent] (o acc.nextEvent) := by
        rw [← hgoes, Goes, and_iff_right hret, Visit.socket, Prod.mk.injEq, and_iff_right rfl]
      constructor
      · rintro ⟨h1, h2⟩ i hi hle
        rcases hle.eq_or_lt with rfl | hlt'
        · exact hfirst.1 h1
        · exact h2 i hi hlt'
      · intro h
        exact ⟨hfirst.2 (h _ hlt le_rfl), fun i hi hle => h i hi (by dsimp only at hle; omega)⟩

/-- **A batch is delivered as it should be exactly when every call of the system succeeds**: every
`accept`, `malloc` and `epoll_ctl` made for one of its events, and each `que_obj_move_next`. -/
theorem batch_delivered_iff (acc : Accessor) (events : List EpollEvent) (si : SockInfo)
    (o : ℕ → Outcome) :
    BatchDelivered acc events si o ↔
      ∀ i (h : i < events.length), EventOk acc.listenFd events[i] (o i) := by
  have h := accessLoop_iff o events.length (accessorDetect acc events) si (Nat.zero_add _)
  exact h.trans ⟨fun hall i hi => hall i hi (Nat.zero_le i), fun hall i hi _ => hall i hi⟩

/-- Data on descriptor 7, then a connection that is gone before it is accepted: the record of
descriptor 7 is enqueued once more. -/
theorem batch_not_always_delivered : ¬ ∀ (acc : Accessor) (events : List EpollEvent)
    (si : SockInfo) (o : ℕ → Outcome), BatchDelivered acc events si o := by
  intro h
  have hd := h ⟨4, [], 0⟩
    [⟨false, false, true, false, ⟨7, 16777343, 1, .init⟩⟩,
      ⟨false, false, true, false, ⟨4, 0, 0, .init⟩⟩]
    ⟨0, 0, 0, .init⟩ (fun _ => ⟨none, true, true, true, true, true⟩)
  revert hd
  decide

end F1Goal
