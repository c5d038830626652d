import F1Goal.EdgeTriggered

/-!
# What holds in every state

The invariant `EdgeInv` of the steps of `edgeStep`, and what a call of `accessor_check_status` does
to a state.
-/

namespace F1Goal

variable {Ctx : Type}

/-- What holds in every state: a batch reports each descriptor once, and only `EPOLLIN`; the
listening socket is no client; only events of these are handled; and a worker that receives is not
done. -/
structure EdgeInv (s : EdgeSys Ctx) : Prop where
  nodup : ((s.acc.events.drop s.acc.nextEvent).map fun ev => ev.info.fd).Nodup
  flags : ∀ ev ∈ s.acc.events.drop s.acc.nextEvent,
    ev.epollhup = false ∧ ev.epollerr = false ∧ ev.epollin = true ∧ ev.epollout = false
  listener : s.client s.acc.listenFd = false
  backlog : ∀ peer ∈ s.backlog, peer.1 ≠ s.acc.listenFd
  handled : ∀ f, s.handled f = true → f = s.acc.listenFd ∨ s.client f = true
  reading : ∀ k r rx, s.reading k = some (r, rx) →
    r.sockStatus = .dataIn ∧ ¬ RecvOver (bufferClear (s.workers k).rdbuf) rx

theorem edgeStart_inv (listenFd : ℤ) (addr : UInt32 × UInt16) (si : SockInfo) (queNum : ℕ)
    (workers : ℕ → Worker Ctx) : EdgeInv (edgeStart listenFd addr si queNum workers) where
  nodup := List.nodup_nil
  flags _ hev := absurd hev List.not_mem_nil
  listener := rfl
  backlog _ hpeer := absurd hpeer List.not_mem_nil
  handled _ hf := nomatch hf
  reading _ _ _ hr := nomatch hr

/-! ### What a step does -/

variable {proc : ProcFn Ctx} {s t : EdgeSys Ctx} {k : ℕ}

/-- The record leaves the access loop. -/
theorem edgeStep_enqueue {room : Bool} (hst : edgeStep proc s (.enqueue room) = some t) :
    ∃ r, s.out = some r ∧
      ((room = true ∧ t = { s with
          ques := Function.update s.ques (selQueByIp r.srcIp s.queNum)
            (s.ques (selQueByIp r.srcIp s.queNum) ++ [r])
          out := none }) ∨
        room = false ∧
          t = { s with out := none, handled := Function.update s.handled r.fd false }) := by
  cases hout : s.out with
  | none => simp [edgeStep, hout] at hst
  | some r =>
    simp only [edgeStep, hout] at hst
    split_ifs at hst with hroom <;> cases hst
    · exact ⟨r, rfl, .inl ⟨hroom, rfl⟩⟩
    · exact ⟨r, rfl, .inr ⟨Bool.eq_false_iff.2 hroom, rfl⟩⟩

/-- A worker takes the first record of its queue, and receives for it or is done with it. -/
theorem edgeStep_take (hst : edgeStep proc s (.take k) = some t) :
    ∃ r rs, s.reading k = none ∧ s.ques k = r :: rs ∧
      ((r.sockStatus = .dataIn ∧ ¬ RecvOver (bufferClear (s.workers k).rdbuf) [] ∧ t = { s with
          ques := Function.update s.ques k rs
          reading := Function.update s.reading k (some (r, [])) }) ∨
        ¬ (r.sockStatus = .dataIn ∧ ¬ RecvOver (bufferClear (s.workers k).rdbuf) []) ∧
          t = EdgeSys.finish proc { s with ques := Function.update s.ques k rs } k r []) := by
  rcases hread : s.reading k with _ | p
  swap
  · simp [edgeStep, hread] at hst
  rcases hque : s.ques k with _ | ⟨r, rs⟩
  · simp [edgeStep, hread, hque] at hst
  simp only [edgeStep, hread, hque] at hst
  split_ifs at hst with hrun hstart <;> cases hst
  · exact ⟨r, rs, rfl, rfl, .inl ⟨hstart.1, hstart.2, rfl⟩⟩
  · exact ⟨r, rs, rfl, rfl, .inr ⟨hstart, rfl⟩⟩

/-- A worker makes a `recvfrom`, and goes on receiving or is done. -/
theorem edgeStep_recv {answer : Answer} (hst : edgeStep proc s (.recv k answer) = some t) :
    ∃ r rx u, s.reading k = some (r, rx) ∧
      u = { s with
        unread := Function.update s.unread r.fd ((s.outcome r.fd answer).left (s.unread r.fd)
          (recvRoom (bufferClear (s.workers k).rdbuf) rx)) } ∧
      ((RecvOver (bufferClear (s.workers k).rdbuf) (rx ++ [s.outcome r.fd answer]) ∧
          t = u.finish proc k r (rx ++ [s.outcome r.fd answer])) ∨
        ¬ RecvOver (bufferClear (s.workers k).rdbuf) (rx ++ [s.outcome r.fd answer]) ∧
          t = { u with
            reading := Function.update s.reading k (some (r, rx ++ [s.outcome r.fd answer])) }) := by
  rcases hread : s.reading k with _ | ⟨r, rx⟩
  · simp [edgeStep, hread] at hst
  simp only [edgeStep, hread] at hst
  split_ifs at hst with hover <;> cases hst
  · exact ⟨r, rx, _, rfl, rfl, .inl ⟨hover, rfl⟩⟩
  · exact ⟨r, rx, _, rfl, rfl, .inr ⟨hover, rfl⟩⟩

/-! ### The call of `accessor_check_status` -/

/-- What `accept` leaves alone. -/
@[simp] theorem accepted_rest (s : EdgeSys Ctx) (o : Outcome) :
    (s.accepted o).acc = s.acc ∧ (s.accepted o).out = s.out ∧ (s.accepted o).ques = s.ques ∧
      (s.accepted o).reading = s.reading ∧ (s.accepted o).unread = s.unread ∧
        (s.accepted o).workers = s.workers := by
  unfold EdgeSys.accepted
  split
  · simp
  · split_ifs <;> simp

theorem accepted_none {o : Outcome} (s : EdgeSys Ctx) (h : o.accept = none) : s.accepted o = s := by
  rw [EdgeSys.accepted, h]

theorem accepted_backlog (s : EdgeSys Ctx) (o : Outcome) :
    (s.accepted o).backlog = if o.accept = none then s.backlog else s.backlog.tail := by
  rcases haccept : o.accept with _ | ⟨fd, ip, port⟩
  · rw [accepted_none s haccept, if_pos rfl]
  · rw [EdgeSys.accepted, haccept, if_neg (Option.some_ne_none _)]
    dsimp only
    split_ifs <;> rfl

/-- No event of a new client has been handled, and the other descriptors are as before. -/
theorem accepted_other {s : EdgeSys Ctx} {o : Outcome} {f : ℤ}
    (hf : (s.accepted o).handled f = true) :
    s.handled f = true ∧ (s.accepted o).edge f = s.edge f := by
  rcases haccept : o.accept with _ | ⟨fd, ip, port⟩
  · rw [accepted_none s haccept] at hf ⊢
    exact ⟨hf, rfl⟩
  · rw [EdgeSys.accepted, haccept] at hf ⊢
    dsimp only at hf ⊢
    split_ifs at hf ⊢
    · -- the new client has just been marked as not handled
      have hne : f ≠ fd := by
        rintro rfl
        simp at hf
      exact ⟨by simpa [hne] using hf, Function.update_of_ne hne _ _⟩
    · exact ⟨hf, rfl⟩

theorem accepted_client {s : EdgeSys Ctx} {f : ℤ} (o : Outcome) (hf : s.client f = true) :
    (s.accepted o).client f = true := by
  rcases haccept : o.accept with _ | ⟨fd, ip, port⟩
  · rwa [accepted_none s haccept]
  · rw [EdgeSys.accepted, haccept]
    dsimp only
    split_ifs
    · by_cases hne : f = fd
      · rw [hne]
        exact Function.update_self ..
      · exact (Function.update_of_ne hne _ _).trans hf
    · exact hf

/-- A new client is not the listening socket. -/
theorem accepted_listener {s : EdgeSys Ctx} {o : Outcome} (hinv : EdgeInv s)
    (hfits : o.accept = none ∨ o.accept = s.backlog.head?) :
    (s.accepted o).edge s.acc.listenFd = s.edge s.acc.listenFd ∧
      (s.accepted o).client s.acc.listenFd = false := by
  rcases haccept : o.accept with _ | ⟨fd, ip, port⟩
  · rw [accepted_none s haccept]
    exact ⟨rfl, hinv.listener⟩
  · rw [haccept] at hfits
    have hhead : s.backlog.head? = some (fd, ip, port) := (hfits.resolve_left (by simp)).symm
    have hne : s.acc.listenFd ≠ fd := (hinv.backlog _ (List.mem_of_mem_head? hhead)).symm
    rw [EdgeSys.accepted, haccept]
    dsimp only
    split_ifs
    · exact ⟨Function.update_of_ne hne _ _, by simpa [hne] using hinv.listener⟩
    · exact ⟨rfl, hinv.listener⟩

/-- After `accept`, when the event of the listening socket counts as handled. -/
def EdgeSys.listened (s : EdgeSys Ctx) (o : Outcome) : EdgeSys Ctx :=
  { s.accepted o with handled := Function.update (s.accepted o).handled s.acc.listenFd true }

theorem listened_acc (s : EdgeSys Ctx) (o : Outcome) : (s.listened o).acc = s.acc :=
  (accepted_rest s o).1

/-- The batch from the cursor on. -/
theorem events_cursor {s : EdgeSys Ctx} {ev : EpollEvent}
    (hev : s.acc.events[s.acc.nextEvent]? = some ev) :
    s.acc.events.drop s.acc.nextEvent = ev :: s.later := by
  obtain ⟨hlt, rfl⟩ := List.getElem?_eq_some_iff.1 hev
  exact List.drop_eq_getElem_cons hlt

theorem checkListener_listenFd (acc : Accessor) (si : SockInfo) (o : Outcome) :
    (checkListener acc si o).acc.listenFd = acc.listenFd := by
  unfold checkListener
  rcases o.accept with _ | ⟨fd, ip, port⟩
  · rfl
  · dsimp only
    split_ifs <;> rfl

/-- What is known of a state after a call of `accessor_check_status`: the batch is dropped, or its
cursor has moved on. -/
theorem checked_cases (s : EdgeSys Ctx) {c : Checked}
    (hacc : c.ret ≠ 0 → c.acc = { s.acc with nextEvent := s.acc.nextEvent + 1 }) :
    (c.ret = 0 ∧ (s.checked c).acc.events.drop (s.checked c).acc.nextEvent = [] ∧
        ∀ f, (s.checked c).handled f = true ↔
          s.handled f = true ∧ ∀ ev ∈ s.later, ev.info.fd ≠ f) ∨
      (c.ret ≠ 0 ∧ (s.checked c).acc.events.drop (s.checked c).acc.nextEvent = s.later ∧
        (s.checked c).handled = s.handled) := by
  unfold EdgeSys.checked
  by_cases hret : c.ret = 0
  · refine .inl ⟨hret, ?_, fun f => ?_⟩
    · rw [if_pos hret]
      rfl
    · rw [if_pos hret]
      simp
  · refine .inr ⟨hret, ?_, ?_⟩
    · rw [if_neg hret]
      show c.acc.events.drop c.acc.nextEvent = s.later
      rw [hacc hret]
      rfl
    · rw [if_neg hret]

/-- What the access loop leaves alone. -/
theorem checked_rest (s : EdgeSys Ctx) (c : Checked) :
    (s.checked c).ques = s.ques ∧ (s.checked c).reading = s.reading ∧
      (s.checked c).backlog = s.backlog ∧ (s.checked c).unread = s.unread ∧
        (s.checked c).edge = s.edge ∧ (s.checked c).client = s.client ∧
          (s.checked c).workers = s.workers := by
  unfold EdgeSys.checked
  split_ifs <;> simp

theorem checked_listenFd (s : EdgeSys Ctx) {c : Checked} (hfd : c.acc.listenFd = s.acc.listenFd) :
    (s.checked c).acc.listenFd = s.acc.listenFd := by
  unfold EdgeSys.checked
  split_ifs <;> exact hfd

/-! ### The steps keep the invariant -/

theorem accessorCheckStatus_listenFd (acc : Accessor) (si : SockInfo) (o : Outcome) :
    (accessorCheckStatus acc si o).acc.listenFd = acc.listenFd := by
  unfold accessorCheckStatus
  cases hev : acc.events[acc.nextEvent]? with
  | none => rfl
  | some ev =>
    dsimp only
    split_ifs
    · exact checkListener_listenFd acc si o
    · unfold checkClient
      dsimp only
      split_ifs <;> rfl

theorem EdgeInv.checked {s : EdgeSys Ctx} (h : EdgeInv s) {c : Checked}
    (hacc : c.ret ≠ 0 → c.acc = { s.acc with nextEvent := s.acc.nextEvent + 1 })
    (hlisten : c.acc.listenFd = s.acc.listenFd) : EdgeInv (s.checked c) := by
  obtain ⟨-, hreading, hbacklog, -, -, hclient, hworkers⟩ := checked_rest s c
  have hfd := checked_listenFd s hlisten
  have hsub : ((s.checked c).acc.events.drop (s.checked c).acc.nextEvent).Sublist
      (s.acc.events.drop s.acc.nextEvent) := by
    rcases checked_cases s hacc with ⟨-, hdrop, -⟩ | ⟨-, hdrop, -⟩ <;> rw [hdrop]
    · exact List.nil_sublist _
    · rw [EdgeSys.later, ← List.drop_drop]
      exact List.drop_sublist _ _
  have hhandled : ∀ f, (s.checked c).handled f = true → s.handled f = true := by
    intro f hf
    rcases checked_cases s hacc with ⟨-, -, hiff⟩ | ⟨-, -, heq⟩
    · exact ((hiff f).1 hf).1
    · rwa [← heq]
  exact
    { nodup := h.nodup.sublist (hsub.map _)
      flags := fun ev hev => h.flags ev (hsub.subset hev)
      listener := by rw [hclient, hfd]; exact h.listener
      backlog := by rw [hbacklog, hfd]; exact h.backlog
      handled := fun f hf => by rw [hclient, hfd]; exact h.handled f (hhandled f hf)
      reading := by rw [hreading, hworkers]; exact h.reading }

theorem EdgeInv.listened {s : EdgeSys Ctx} (h : EdgeInv s) {o : Outcome}
    (hfits : o.accept = none ∨ o.accept = s.backlog.head?) : EdgeInv (s.listened o) where
  nodup := by simpa [listened_acc] using h.nodup
  flags := by simpa [listened_acc] using h.flags
  listener := by simpa [EdgeSys.listened] using (accepted_listener h hfits).2
  backlog peer hpeer := by
    rw [listened_acc]
    have hmem : peer ∈ (s.accepted o).backlog := hpeer
    rw [accepted_backlog] at hmem
    split_ifs at hmem
    · exact h.backlog peer hmem
    · exact h.backlog peer (List.mem_of_mem_tail hmem)
  handled f hf := by
    rw [listened_acc]
    by_cases hl : f = s.acc.listenFd
    · exact .inl hl
    · have hset : (s.accepted o).handled f = true := by simpa [EdgeSys.listened, hl] using hf
      exact (h.handled f (accepted_other hset).1).imp_right (accepted_client o)
  reading := by simpa [EdgeSys.listened] using h.reading

theorem EdgeInv.finish {proc : ProcFn Ctx} {s : EdgeSys Ctx} (h : EdgeInv s) (k : ℕ) (r : SockInfo)
    (rx : List RecvRes) : EdgeInv (s.finish proc k r rx) where
  nodup := h.nodup
  flags := h.flags
  listener := h.listener
  backlog := h.backlog
  handled f hf := by
    simp only [EdgeSys.finish] at hf ⊢
    split_ifs at hf with hc
    · by_cases hfd : f = r.fd
      · exact .inr (hfd ▸ hc.2)
      · exact h.handled f (by simpa [hfd] using hf)
    · exact h.handled f hf
  reading j r' rx' hr' := by
    have hj : j ≠ k := by
      rintro rfl
      simp [EdgeSys.finish] at hr'
    simp only [EdgeSys.finish, Function.update_of_ne hj] at hr' ⊢
    exact h.reading j r' rx' hr'

theorem edge_detect_inv {proc : ProcFn Ctx} {s t : EdgeSys Ctx} {fds : List ℤ} (h : EdgeInv s)
    (hst : edgeStep proc s (.detect fds) = some t) : EdgeInv t := by
  simp only [edgeStep] at hst
  split_ifs at hst with hcond
  cases hst
  obtain ⟨-, -, -, hnodup, -⟩ := hcond
  have hfds : (fds.map s.event).map (fun ev => ev.info.fd) = fds := by
    rw [List.map_map]
    exact List.map_id fds
  exact
    { nodup := by simpa [accessorDetect, hfds] using hnodup
      flags := by
        intro ev hev
        obtain ⟨f, -, rfl⟩ := List.mem_map.1 (show ev ∈ fds.map s.event from hev)
        exact ⟨rfl, rfl, rfl, rfl⟩
      listener := h.listener
      backlog := h.backlog
      handled := fun f hf => h.handled f (Bool.and_eq_true_iff.1 hf).1
      reading := h.reading }

theorem edge_check_inv {proc : ProcFn Ctx} {s t : EdgeSys Ctx} {o : Outcome} (h : EdgeInv s)
    (hst : edgeStep proc s (.check o) = some t) : EdgeInv t := by
  simp only [edgeStep] at hst
  split_ifs at hst with hcond hlisten <;> cases hst
  · refine (h.listened (hcond.2 hlisten)).checked ?_ ?_
    · simpa [listened_acc] using @accessorCheckStatus_acc s.acc s.si o
    · simpa [listened_acc] using accessorCheckStatus_listenFd s.acc s.si o
  · exact h.checked accessorCheckStatus_acc (accessorCheckStatus_listenFd _ _ _)

/-- **The step lemma** of the invariant. -/
theorem edgeStep_inv {proc : ProcFn Ctx} {s t : EdgeSys Ctx} {a : EdgeAct} (h : EdgeInv s)
    (hst : edgeStep proc s a = some t) : EdgeInv t := by
  cases a with
  | connect peer =>
    simp only [edgeStep] at hst
    split_ifs at hst with hcond
    cases hst
    refine { h with backlog := ?_ }
    exact List.forall_mem_append.2 ⟨h.backlog, List.forall_mem_singleton.2 hcond.1⟩
  | arrive fd bs =>
    simp only [edgeStep] at hst
    split_ifs at hst
    cases hst
    exact { h with }
  | detect fds => exact edge_detect_inv h hst
  | check o => exact edge_check_inv h hst
  | enqueue room =>
    obtain ⟨r, -, ⟨-, rfl⟩ | ⟨-, rfl⟩⟩ := edgeStep_enqueue hst
    · exact { h with }
    · refine { h with handled := fun f hf => h.handled f ?_ }
      by_cases hfd : f = r.fd
      · simp [hfd] at hf
      · simpa [hfd] using hf
  | take k =>
    obtain ⟨r, rs, -, -, ⟨hr, hmore, rfl⟩ | ⟨-, rfl⟩⟩ := edgeStep_take hst
    · refine { h with reading := fun j r' rx' hr' => ?_ }
      by_cases hj : j = k
      · subst hj
        obtain ⟨rfl, rfl⟩ : r = r' ∧ rx' = [] := by simpa using hr'
        exact ⟨hr, hmore⟩
      · exact h.reading j r' rx' (by simpa [hj] using hr')
    · have hu : EdgeInv { s with ques := Function.update s.ques k rs } := { h with }
      exact hu.finish k r []
  | recv k answer =>
    obtain ⟨r, rx, u, hread, hu, hnext⟩ := edgeStep_recv hst
    have hinv : EdgeInv u := by
      rw [hu]
      exact { h with }
    rcases hnext with ⟨-, rfl⟩ | ⟨hmore, rfl⟩
    · exact hinv.finish k r _
    · refine { hinv with reading := fun j r' rx' hr' => ?_ }
      by_cases hj : j = k
      · subst hj
        obtain ⟨rfl, rfl⟩ : r = r' ∧ rx ++ [s.outcome r.fd answer] = rx' := by simpa using hr'
        exact ⟨(h.reading j r rx hread).1, by rw [hu]; exact hmore⟩
      · exact hinv.reading j r' rx' (by rw [hu]; simpa [hj] using hr')

end F1Goal
