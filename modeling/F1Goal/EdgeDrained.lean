import F1Goal.EdgeInvariant

/-!
# What an event leaves behind

A step leaves nothing behind exactly when it meets the condition `EdgeOk`: the event of the
listening socket (`listener_drained_iff`), the end of a receive (`finish_drained_iff`), and the
other steps, which leave things as they are. `drained_iff` carries this along the runs.
-/

namespace F1Goal

variable {Ctx : Type} {proc : ProcFn Ctx} {s t : EdgeSys Ctx} {k : ℕ}

/-! ### Steps that handle nothing -/

/-- What a step may do to a descriptor without leaving anything behind. -/
theorem Drained.mono (h : Drained s)
    (hkeep : ∀ f, t.handled f = true → t.Waiting f → t.edge f = true ∨ t.Owed f ∨
      (s.handled f = true ∧ s.Waiting f ∧ (s.edge f = true → t.edge f = true) ∧
        (s.Owed f → t.Owed f))) : Drained t := by
  intro f hf hwait
  rcases hkeep f hf hwait with hedge | howed | ⟨hf', hwait', hedge, howed⟩
  · exact .inl hedge
  · exact .inr howed
  · exact (h f hf' hwait').imp hedge howed

/-- What is on its way stays on its way. -/
theorem EdgeSys.Owed.mono {f : ℤ} (h : s.Owed f) (hacc : t.acc = s.acc)
    (hidle : t.Idle f → s.Idle f) : t.Owed f := by
  rw [EdgeSys.Owed, hacc]
  exact h.imp_right fun hhand => ⟨hhand.1, fun hf => hhand.2 (hidle hf)⟩

/-- It depends on the batch and the records only. -/
theorem EdgeSys.Owed.same {f : ℤ} (h : s.Owed f) (hacc : t.acc = s.acc) (hout : t.out = s.out)
    (hques : t.ques = s.ques) (hreading : t.reading = s.reading) : t.Owed f :=
  h.mono hacc fun hidle => ⟨hout ▸ hidle.out, hques ▸ hidle.ques, hreading ▸ hidle.reading⟩

theorem connect_drained {peer : ℤ × UInt32 × UInt16} (h : Drained s)
    (hst : edgeStep proc s (.connect peer) = some t) : Drained t := by
  simp only [edgeStep] at hst
  split_ifs at hst
  cases hst
  apply h.mono
  intro f hf hwait
  by_cases hlisten : f = s.acc.listenFd
  · subst hlisten
    exact .inl (by simp)
  · refine .inr (.inr ⟨hf, ?_, fun hedge => by simpa [hlisten] using hedge, fun howed => ?_⟩)
    · simpa [EdgeSys.Waiting, hlisten] using hwait
    · exact howed.same rfl rfl rfl rfl

theorem arrive_drained {fd : ℤ} {bs : List UInt8} (hinv : EdgeInv s) (h : Drained s)
    (hst : edgeStep proc s (.arrive fd bs) = some t) : Drained t := by
  simp only [edgeStep] at hst
  split_ifs at hst with hcond
  cases hst
  apply h.mono
  intro f hf hwait
  by_cases hfd : f = fd
  · -- only a client has been handled, and for a client the bytes make an event
    subst hfd
    refine .inl ?_
    have hclient := (hinv.handled f hf).resolve_left hcond.2.1
    simpa using hclient
  · refine .inr (.inr ⟨hf, ?_, fun hedge => by simpa [hfd] using hedge, fun howed => ?_⟩)
    · simpa [EdgeSys.Waiting, hfd] using hwait
    · exact howed.same rfl rfl rfl rfl

theorem detect_drained {fds : List ℤ} (h : Drained s)
    (hst : edgeStep proc s (.detect fds) = some t) : Drained t := by
  simp only [edgeStep] at hst
  split_ifs at hst with hcond
  cases hst
  apply h.mono
  intro f hf hwait
  simp only [Bool.and_eq_true, decide_eq_true_eq] at hf
  refine .inr (.inr ⟨hf.1, hwait, fun hedge => by simp [hedge, hf.2], ?_⟩)
  rintro (⟨ev, hev, -⟩ | hhand)
  · rw [hcond.1, List.drop_nil] at hev
    exact absurd hev List.not_mem_nil
  · exact .inr ⟨hhand.1, fun hidle => hhand.2 ⟨hidle.out, hidle.ques, hidle.reading⟩⟩

theorem enqueue_drained {room : Bool} (h : Drained s)
    (hst : edgeStep proc s (.enqueue room) = some t) : Drained t := by
  obtain ⟨r, hout, hnext⟩ := edgeStep_enqueue hst
  rcases hnext with ⟨-, rfl⟩ | ⟨-, rfl⟩ <;> apply h.mono <;> intro f hf hwait
  · -- the record goes from the access loop to its queue, so that it stays on its way
    refine .inr (.inr ⟨hf, hwait, id, fun howed => howed.mono rfl fun hidle => ?_⟩)
    refine ⟨fun r' hr' hin => ?_, fun k r' hr' => ?_, hidle.reading⟩
    · obtain rfl : r = r' := Option.some.inj (hout.symm.trans hr')
      refine hidle.ques (selQueByIp r.srcIp s.queNum) r ?_ hin
      simp
    · by_cases hk : k = selQueByIp r.srcIp s.queNum
      · subst hk
        exact hidle.ques (selQueByIp r.srcIp s.queNum) r' (by simp [hr'])
      · refine hidle.ques k r' ?_
        simpa [hk] using hr'
  · -- the record is dropped, and its descriptor does not count as handled any more
    have hfd : f ≠ r.fd := by
      rintro rfl
      simp at hf
    have hf' : s.handled f = true := by simpa [hfd] using hf
    refine .inr (.inr ⟨hf', hwait, id, fun howed => howed.mono rfl fun hidle => ?_⟩)
    refine ⟨fun r' hr' _ => ?_, hidle.ques, hidle.reading⟩
    obtain rfl : r = r' := Option.some.inj (hout.symm.trans hr')
    exact hfd.symm

/-! ### An event -/

/-- What `EdgeOk` asks of the backlog: nothing is left of it. -/
theorem accepted_backlog_nil {s : EdgeSys Ctx} {o : Outcome} :
    (s.accepted o).backlog = [] ↔ s.backlog.length ≤ if o.accept = none then 0 else 1 := by
  rw [accepted_backlog]
  split_ifs
  · rw [Nat.le_zero, List.length_eq_zero_iff]
  · rw [← List.length_eq_zero_iff, List.length_tail]
    omega

section Listener

/-! The access loop has called `accessor_check_status` for the listening socket, whose event `ev` is
under the cursor. -/

variable {o : Outcome} {ev : EpollEvent} {c : Checked}

/-- The listening socket is reported once. -/
theorem later_ne_listener (hinv : EdgeInv s) (hev : s.acc.events[s.acc.nextEvent]? = some ev)
    (hfd : ev.info.fd = s.acc.listenFd) : ∀ ev' ∈ s.later, ev'.info.fd ≠ s.acc.listenFd := by
  have hnodup := hinv.nodup
  rw [events_cursor hev, List.map_cons, List.nodup_cons, hfd, List.mem_map] at hnodup
  exact fun ev' hmem heq => hnodup.1 ⟨ev', hmem, heq⟩

theorem listened_cases (hacc : c.ret ≠ 0 → c.acc = { s.acc with nextEvent := s.acc.nextEvent + 1 })
    {u : EdgeSys Ctx} (hu : u = (s.listened o).checked c) :
    (u.acc.events.drop u.acc.nextEvent = [] ∧ ∀ f, u.handled f = true ↔
        (s.listened o).handled f = true ∧ ∀ ev ∈ s.later, ev.info.fd ≠ f) ∨
      (u.acc.events.drop u.acc.nextEvent = s.later ∧ u.handled = (s.listened o).handled) := by
  have hlater : (s.listened o).later = s.later := by
    rw [EdgeSys.later, EdgeSys.later, listened_acc]
  have hcases := checked_cases (s.listened o) (c := c) (by rwa [listened_acc])
  rw [hlater, ← hu] at hcases
  rcases hcases with ⟨-, hdrop, hhandled⟩ | ⟨-, hdrop, hhandled⟩
  · exact .inl ⟨hdrop, hhandled⟩
  · exact .inr ⟨hdrop, hhandled⟩

theorem listened_listenFd (hlisten : c.acc.listenFd = s.acc.listenFd) :
    ((s.listened o).checked c).acc.listenFd = s.acc.listenFd := by
  rw [checked_listenFd _ (by rw [listened_acc, hlisten]), listened_acc]

/-- The listening socket after the call: no event of it is on its way that was not pending
before. -/
theorem listener_after (hinv : EdgeInv s) (hfits : o.accept = none ∨ o.accept = s.backlog.head?)
    (hev : s.acc.events[s.acc.nextEvent]? = some ev) (hfd : ev.info.fd = s.acc.listenFd)
    (hacc : c.ret ≠ 0 → c.acc = { s.acc with nextEvent := s.acc.nextEvent + 1 })
    (hlisten : c.acc.listenFd = s.acc.listenFd) {u : EdgeSys Ctx}
    (hu : u = (s.listened o).checked c) :
    u.edge s.acc.listenFd = s.edge s.acc.listenFd ∧ u.handled s.acc.listenFd = true ∧
      (u.Waiting s.acc.listenFd ↔ (s.accepted o).backlog ≠ []) ∧ ¬ u.Owed s.acc.listenFd := by
  have honce := later_ne_listener hinv hev hfd
  have hcases := listened_cases hacc hu
  have hfdu : u.acc.listenFd = s.acc.listenFd := hu ▸ listened_listenFd hlisten
  obtain ⟨-, -, hbacklog, -, hedges, -, -⟩ := checked_rest (s.listened o) c
  rw [← hu] at hbacklog hedges
  have hset : (s.listened o).handled s.acc.listenFd = true := Function.update_self ..
  refine ⟨?_, ?_, ?_, ?_⟩
  · rw [hedges]
    exact (accepted_listener hinv hfits).1
  · rcases hcases with ⟨-, hiff⟩ | ⟨-, heq⟩
    · exact (hiff _).2 ⟨hset, honce⟩
    · rw [heq]
      exact hset
  · rw [EdgeSys.Waiting, if_pos hfdu.symm, hbacklog]
    rfl
  · rintro (⟨ev', hmem, heq⟩ | ⟨hne, -⟩)
    · rcases hcases with ⟨hdrop, -⟩ | ⟨hdrop, -⟩ <;> rw [hdrop] at hmem
      · exact absurd hmem List.not_mem_nil
      · exact honce ev' hmem heq
    · exact hne hfdu.symm

/-- The other descriptors are as before. -/
theorem others_after (h : Drained s) (hout : s.out = none)
    (hev : s.acc.events[s.acc.nextEvent]? = some ev) (hfd : ev.info.fd = s.acc.listenFd)
    (hacc : c.ret ≠ 0 → c.acc = { s.acc with nextEvent := s.acc.nextEvent + 1 })
    (hlisten : c.acc.listenFd = s.acc.listenFd) {u : EdgeSys Ctx}
    (hu : u = (s.listened o).checked c) {f : ℤ} (hl : f ≠ s.acc.listenFd)
    (hf : u.handled f = true) (hwait : u.Waiting f) : u.edge f = true ∨ u.Owed f := by
  have hcases := listened_cases hacc hu
  have hfdu : u.acc.listenFd = s.acc.listenFd := hu ▸ listened_listenFd hlisten
  obtain ⟨hques, hreading, -, hunread, hedges, -, -⟩ := checked_rest (s.listened o) c
  rw [← hu] at hques hreading hunread hedges
  obtain ⟨-, -, hquesA, hreadingA, hunreadA, -⟩ := accepted_rest s o
  have hset : (s.listened o).handled f = true := by
    rcases hcases with ⟨-, hiff⟩ | ⟨-, heq⟩
    · exact ((hiff f).1 hf).1
    · rwa [← heq]
  have hfu : (s.accepted o).handled f = true := by simpa [EdgeSys.listened, hl] using hset
  obtain ⟨hfs, hedgef⟩ := accepted_other hfu
  have hwaits : s.Waiting f := by
    rw [EdgeSys.Waiting, if_neg hl]
    rw [EdgeSys.Waiting, hfdu, if_neg hl, hunread] at hwait
    exact hunreadA ▸ hwait
  rcases h f hfs hwaits with hedge | ⟨ev', hmem, heq⟩ | ⟨-, hidle⟩
  · refine .inl ?_
    rw [hedges]
    exact hedgef.trans hedge
  · -- the event is behind the cursor
    rw [events_cursor hev] at hmem
    have hmem' : ev' ∈ s.later := (List.mem_cons.1 hmem).resolve_left fun h' => hl (heq ▸ h' ▸ hfd)
    rcases hcases with ⟨-, hiff⟩ | ⟨hdrop, -⟩
    · exact absurd heq (((hiff f).1 hf).2 ev' hmem')
    · exact .inr (.inl ⟨ev', hdrop ▸ hmem', heq⟩)
  · -- a record is on its way
    refine .inr (.inr ⟨by rwa [hfdu], fun hidle' => hidle ⟨fun r hr => ?_, fun k r hr => ?_, ?_⟩⟩)
    · rw [hout] at hr
      cases hr
    · refine hidle'.ques k r ?_
      rw [hques]
      exact hquesA ▸ hr
    · intro k r rx hr
      refine hidle'.reading k r rx ?_
      rw [hreading]
      exact hreadingA ▸ hr

/-- **The event of the listening socket** leaves nothing behind when at most one connection was
waiting. -/
theorem listener_drained_iff (hinv : EdgeInv s) (h : Drained s) (hout : s.out = none)
    (hfits : o.accept = none ∨ o.accept = s.backlog.head?)
    (hev : s.acc.events[s.acc.nextEvent]? = some ev) (hfd : ev.info.fd = s.acc.listenFd)
    (hacc : c.ret ≠ 0 → c.acc = { s.acc with nextEvent := s.acc.nextEvent + 1 })
    (hlisten : c.acc.listenFd = s.acc.listenFd) :
    Drained ((s.listened o).checked c) ↔
      (s.backlog.length ≤ (if o.accept = none then 0 else 1) ∨ s.edge s.acc.listenFd = true) := by
  obtain ⟨hedge, hhandled, hwaiting, howed⟩ :=
    listener_after hinv hfits hev hfd hacc hlisten rfl
  rw [← accepted_backlog_nil]
  constructor
  · intro ht
    by_cases hnil : (s.accepted o).backlog = []
    · exact .inl hnil
    · have hnext := ht _ hhandled (hwaiting.2 hnil)
      rw [hedge] at hnext
      exact .inr (hnext.resolve_right howed)
  · intro hok f hf hwait
    by_cases hl : f = s.acc.listenFd
    · subst hl
      rw [hedge]
      exact .inl (hok.resolve_left (hwaiting.1 hwait))
    · exact others_after h hout hev hfd hacc hlisten rfl hl hf hwait

end Listener

/-- **The event of a client** goes on as a record. -/
theorem client_drained {o : Outcome} (hinv : EdgeInv s) (h : Drained s)
    (hout : s.out = none) {ev : EpollEvent} (hev : s.acc.events[s.acc.nextEvent]? = some ev)
    (hfd : ev.info.fd ≠ s.acc.listenFd) : Drained (s.checked (checkClient s.acc ev o)) := by
  have hcursor := events_cursor hev
  obtain ⟨hhup, herr, hin, hepollout⟩ := hinv.flags ev (hcursor ▸ List.mem_cons_self)
  have hchecked : s.checked (checkClient s.acc ev o) = { s with
      acc := { s.acc with nextEvent := s.acc.nextEvent + 1 }
      si := { ev.info with sockStatus := .dataIn }
      out := some { ev.info with sockStatus := .dataIn } } := by
    rw [checkClient_eq _ _ _ (by simp [hhup]) (by simp [herr])]
    simp [EdgeSys.checked, Accessor.advance, EpollEvent.status, hin, hepollout]
  rw [hchecked]
  apply h.mono
  intro f hf hwait
  refine .inr (.inr ⟨hf, hwait, id, ?_⟩)
  rintro (⟨ev', hmem, heq⟩ | ⟨hne, hidle⟩)
  · rw [hcursor] at hmem
    rcases List.mem_cons.1 hmem with rfl | hmem'
    · exact .inr ⟨heq ▸ hfd, fun hidle => hidle.out _ rfl rfl heq⟩
    · exact .inl ⟨ev', hmem', heq⟩
  · refine .inr ⟨hne, fun hidle' => hidle ⟨fun r hr => ?_, hidle'.ques, hidle'.reading⟩⟩
    rw [hout] at hr
    cases hr

theorem atListener_iff :
    s.atListener = true ↔
      ∃ ev, s.acc.events[s.acc.nextEvent]? = some ev ∧ ev.info.fd = s.acc.listenFd := by
  simp [EdgeSys.atListener, Option.any_eq_true]

/-- The call of `accessor_check_status`. -/
theorem check_drained_iff {o : Outcome} (hinv : EdgeInv s) (h : Drained s)
    (hst : edgeStep proc s (.check o) = some t) :
    Drained t ↔ EdgeOk s (.check o) := by
  simp only [edgeStep] at hst
  split_ifs at hst with hcond hlisten
  · obtain ⟨hout, hfits⟩ := hcond
    obtain ⟨ev, hev, hfd⟩ := atListener_iff.1 hlisten
    have hcall : accessorCheckStatus s.acc s.si o = checkListener s.acc s.si o := by
      rw [accessorCheckStatus, hev]
      exact if_pos hfd
    rw [hcall] at hst
    cases hst
    have hiff := listener_drained_iff hinv h hout (hfits hlisten) hev hfd
      (c := checkListener s.acc s.si o) checkListener_acc (checkListener_listenFd _ _ _)
    exact ⟨fun hd _ => hiff.1 hd, fun hok => hiff.2 (hok hlisten)⟩
  · cases hst
    refine iff_of_true ?_ fun hl => absurd hl hlisten
    cases hev : s.acc.events[s.acc.nextEvent]? with
    | some ev =>
      have hfd : ev.info.fd ≠ s.acc.listenFd := fun hfd => hlisten (atListener_iff.2 ⟨ev, hev, hfd⟩)
      have hcall : accessorCheckStatus s.acc s.si o = checkClient s.acc ev o := by
        rw [accessorCheckStatus, hev]
        exact if_neg hfd
      rw [hcall]
      exact client_drained hinv h hcond.1 hev hfd
    | none =>
      -- the end of the batch
      have hcall :
          accessorCheckStatus s.acc s.si o = ⟨0, { s.acc with nextEvent := 0 }, s.si, []⟩ := by
        rw [accessorCheckStatus, hev]
      have hend : s.acc.events.drop s.acc.nextEvent = [] :=
        List.drop_eq_nil_iff.2 (List.getElem?_eq_none_iff.1 hev)
      rw [hcall]
      apply h.mono
      intro f hf hwait
      refine .inr (.inr ⟨?_, hwait, id, ?_⟩)
      · exact (Bool.and_eq_true_iff.1 hf).1
      · rintro (⟨ev', hmem, -⟩ | ⟨hne, hidle⟩)
        · rw [hend] at hmem
          exact absurd hmem List.not_mem_nil
        · exact .inr ⟨hne, fun hidle' => hidle ⟨hidle'.out, hidle'.ques, hidle'.reading⟩⟩

/-! ### A receive -/

/-- A client is not the listening socket. -/
theorem EdgeInv.client_ne (h : EdgeInv s) {f : ℤ} (hf : s.client f = true) : f ≠ s.acc.listenFd := by
  rintro rfl
  rw [h.listener] at hf
  cases hf

/-- What worker `k` has in hand holds up its own descriptor only. -/
theorem idle_of_update {f : ℤ} {r : SockInfo} {rx : List RecvRes}
    {x : Option (SockInfo × List RecvRes)} (hread : s.reading k = some (r, rx)) (hf : f ≠ r.fd)
    (hi : EdgeSys.Idle { s with reading := Function.update s.reading k x } f) : s.Idle f := by
  refine ⟨hi.out, hi.ques, fun j r' rx' hr' => ?_⟩
  by_cases hj : j = k
  · subst hj
    obtain ⟨rfl, -⟩ := Prod.mk.inj (Option.some.inj (hread.symm.trans hr'))
    exact hf.symm
  · exact hi.reading j r' rx' (by simpa [hj] using hr')

section Finish

/-! The receive for the record `r` ends, and `waiting` is left unread. -/

variable {r : SockInfo} {rx : List RecvRes} {ques : ℕ → List SockInfo} {waiting : List UInt8}
  {u : EdgeSys Ctx}

theorem finish_owed_iff (f : ℤ) : (u.finish proc k r rx).Owed f ↔
    EdgeSys.Owed { u with reading := Function.update u.reading k none } f :=
  ⟨fun ho => ho.same rfl rfl rfl rfl, fun ho => ho.same rfl rfl rfl rfl⟩

/-- The other descriptors are as before. -/
theorem finish_other (h : Drained s)
    (hu : u = { s with ques := ques, unread := Function.update s.unread r.fd waiting })
    (hidle : ∀ f, f ≠ r.fd →
      EdgeSys.Idle { u with reading := Function.update u.reading k none } f → s.Idle f)
    {f : ℤ} (hf : f ≠ r.fd) (hfh : (u.finish proc k r rx).handled f = true)
    (hwait : (u.finish proc k r rx).Waiting f) :
    (u.finish proc k r rx).edge f = true ∨ (u.finish proc k r rx).Owed f := by
  have hacc : u.acc = s.acc := by rw [hu]
  have hedge : u.edge = s.edge := by rw [hu]
  have hfs : s.handled f = true := by
    have hsame : u.handled = s.handled := by rw [hu]
    rw [← hsame]
    simp only [EdgeSys.finish] at hfh
    split_ifs at hfh
    · simpa [hf] using hfh
    · exact hfh
  have hwaitS : s.Waiting f := by
    have hbacklog : u.backlog = s.backlog := by rw [hu]
    have hwaits : u.unread = Function.update s.unread r.fd waiting := by rw [hu]
    simp only [EdgeSys.Waiting, EdgeSys.finish, hacc, hbacklog, hwaits] at hwait ⊢
    simpa [hf] using hwait
  refine (h f hfs hwaitS).imp (fun he => hedge ▸ he) fun ho => (finish_owed_iff f).2 ?_
  exact ho.mono hacc (hidle f hf)

/-- What is no client has not been handled, unless it is the listening socket, which no receive
changes. -/
theorem finish_no_client (hinv : EdgeInv s) (h : Drained s)
    (hu : u = { s with ques := ques, unread := Function.update s.unread r.fd waiting })
    (hc : ¬ s.client r.fd = true) (hfh : (u.finish proc k r rx).handled r.fd = true)
    (hwait : (u.finish proc k r rx).Waiting r.fd) :
    (u.finish proc k r rx).edge r.fd = true ∨ (u.finish proc k r rx).Owed r.fd := by
  subst hu
  have hfs : s.handled r.fd = true := by simpa [EdgeSys.finish, hc] using hfh
  have hl : r.fd = s.acc.listenFd := (hinv.handled _ hfs).resolve_right hc
  have hwaitS : s.Waiting r.fd := by
    rw [EdgeSys.Waiting, if_pos hl]
    simpa [EdgeSys.Waiting, EdgeSys.finish, hl] using hwait
  refine (h _ hfs hwaitS).imp id ?_
  rintro (hbatch | ⟨hne, -⟩)
  · exact .inl hbatch
  · exact absurd hl hne

/-- **The end of a receive** leaves nothing behind when nothing is left unread or there is a further
event. -/
theorem finish_drained_iff (hinv : EdgeInv s) (h : Drained s) (hr : r.sockStatus = .dataIn)
    (hu : u = { s with ques := ques, unread := Function.update s.unread r.fd waiting })
    (hidle : ∀ f, f ≠ r.fd →
      EdgeSys.Idle { u with reading := Function.update u.reading k none } f → s.Idle f) :
    Drained (u.finish proc k r rx) ↔ (s.client r.fd = true → waiting = [] ∨ u.Further k r.fd) := by
  by_cases hc : s.client r.fd = true
  · have hne := hinv.client_ne hc
    have hset : (u.finish proc k r rx).handled r.fd = true := by simp [EdgeSys.finish, hu, hr, hc]
    have hwait : (u.finish proc k r rx).Waiting r.fd ↔ waiting ≠ [] := by
      simp [EdgeSys.Waiting, EdgeSys.finish, hu, hne]
    constructor
    · intro ht _
      by_cases hnil : waiting = []
      · exact .inl hnil
      · exact .inr ((ht r.fd hset (hwait.2 hnil)).imp id (finish_owed_iff r.fd).1)
    · intro hok f hfh hfw
      by_cases hf : f = r.fd
      · subst hf
        have hfurther := (hok hc).resolve_left (hwait.1 hfw)
        exact hfurther.imp id (finish_owed_iff r.fd).2
      · exact finish_other h hu hidle hf hfh hfw
  · refine iff_of_true (fun f hfh hfw => ?_) fun hc' => absurd hc' hc
    by_cases hf : f = r.fd
    · subst hf
      exact finish_no_client hinv h hu hc hfh hfw
    · exact finish_other h hu hidle hf hfh hfw

end Finish

/-- What `EdgeOk` asks of a `recvfrom`: nothing is left if it ends the receive. -/
theorem recvFits_iff {fd : ℤ} (hc : s.client fd = true) {b : Buffer}
    {rx : List RecvRes} (hmore : ¬ RecvOver b rx) (answer : Answer) :
    RecvFits rx (recvRoom b rx) (s.unread fd) answer ↔
      (RecvOver b (rx ++ [s.outcome fd answer]) →
        (s.outcome fd answer).left (s.unread fd) (recvRoom b rx) = []) := by
  have hroom := recvRoom_pos hmore
  have hclient : ¬ s.client fd = false := by simp [hc]
  rw [recvOver_snoc hmore]
  unfold EdgeSys.outcome
  rw [if_neg hclient]
  cases answer with
  | plain =>
    by_cases hnil : s.unread fd = []
    · simp [RecvFits, hnil, RecvRes.left]
    · simp only [RecvFits, if_neg hnil, Ends, RecvRes.left, List.drop_eq_nil_iff]
      constructor
      · exact fun hfits _ => hfits
      · intro hleft
        by_contra hlong
        exact hlong (hleft (.inr (by omega)))
  | interrupted =>
    simp only [RecvFits, Ends, RecvRes.left]
    constructor
    · rintro (hmany | hnil) hlast
      · omega
      · exact hnil
    · intro hleft
      by_cases hlast : 3 ≤ putOffs rx + 1
      · exact .inr (hleft hlast)
      · exact .inl (not_le.1 hlast)
  | failed => simp [RecvFits, Ends, RecvRes.left]

/-- A `recvfrom`. -/
theorem recv_drained_iff {answer : Answer} (hinv : EdgeInv s) (h : Drained s)
    (hst : edgeStep proc s (.recv k answer) = some t) : Drained t ↔ EdgeOk s (.recv k answer) := by
  obtain ⟨r, rx, u, hread, hu, hnext⟩ := edgeStep_recv hst
  obtain ⟨hr, hmore⟩ := hinv.reading k r rx hread
  have hok : EdgeOk s (.recv k answer) ↔ (s.client r.fd = true →
      RecvFits rx (recvRoom (bufferClear (s.workers k).rdbuf) rx) (s.unread r.fd) answer ∨
        s.Further k r.fd) := by
    constructor
    · exact fun hok => hok r rx hread
    · rintro hok r' rx' hread'
      obtain ⟨rfl, rfl⟩ := Prod.mk.inj (Option.some.inj (hread.symm.trans hread'))
      exact hok
  rw [hok]
  rcases hnext with ⟨hover, rfl⟩ | ⟨hover, rfl⟩
  · rw [finish_drained_iff hinv h hr hu]
    · refine forall_congr' fun hc => or_congr ?_ ?_
      · rw [recvFits_iff hc hmore]
        exact ⟨fun hnil _ => hnil, fun hnil => hnil hover⟩
      · subst hu
        exact or_congr Iff.rfl ⟨fun ho => ho.same rfl rfl rfl rfl, fun ho => ho.same rfl rfl rfl rfl⟩
    · subst hu
      exact fun f hf hi => idle_of_update hread hf ⟨hi.out, hi.ques, hi.reading⟩
  · -- the receive goes on, so that its record is still in hand
    have hclient : s.client r.fd = true := by
      by_contra hc
      refine hover ((recvOver_snoc hmore _).2 ?_)
      have hfail : s.outcome r.fd answer = .fail := if_pos (Bool.eq_false_iff.2 hc)
      rw [hfail]
      trivial
    refine iff_of_true ?_ fun _ =>
      .inl ((recvFits_iff hclient hmore answer).2 fun hend => absurd hend hover)
    have hne := hinv.client_ne hclient
    subst hu
    apply h.mono
    intro f hf hwait
    by_cases hfd : f = r.fd
    · subst hfd
      exact .inr (.inl (.inr ⟨hne, fun hi => hi.reading k r _ (Function.update_self ..) rfl⟩))
    · refine .inr (.inr ⟨hf, ?_, id, fun ho => ho.mono rfl fun hi => ?_⟩)
      · simpa [EdgeSys.Waiting, hfd] using hwait
      · exact idle_of_update hread hfd ⟨hi.out, hi.ques, hi.reading⟩

/-- The records are those of before but for the one that is taken. -/
theorem idle_of_take {r : SockInfo} {rs : List SockInfo} {f : ℤ}
    {x : Option (SockInfo × List RecvRes)} (hread : s.reading k = none) (hque : s.ques k = r :: rs)
    (hi : EdgeSys.Idle { s with
      ques := Function.update s.ques k rs, reading := Function.update s.reading k x } f)
    (hr : r.sockStatus = .dataIn → r.fd ≠ f) : s.Idle f := by
  refine ⟨hi.out, fun j r' hr' hin => ?_, fun j r' rx' hr' => ?_⟩
  · by_cases hj : j = k
    · subst hj
      rw [hque, List.mem_cons] at hr'
      rcases hr' with rfl | hrs
      · exact hr hin
      · exact hi.ques j r' (by simpa using hrs) hin
    · exact hi.ques j r' (by simpa [hj] using hr') hin
  · have hj : j ≠ k := by
      rintro rfl
      rw [hread] at hr'
      cases hr'
    exact hi.reading j r' rx' (by simpa [hj] using hr')

/-- A worker takes a record. -/
theorem take_drained_iff (hinv : EdgeInv s) (h : Drained s)
    (hst : edgeStep proc s (.take k) = some t) : Drained t ↔ EdgeOk s (.take k) := by
  obtain ⟨r, rs, hread, hque, hnext⟩ := edgeStep_take hst
  have hok : EdgeOk s (.take k) ↔ (r.sockStatus = .dataIn → s.client r.fd = true →
      (0 < (s.workers k).rdbuf.size ∨ s.unread r.fd = []) ∨
        EdgeSys.Further { s with ques := Function.update s.ques k rs } k r.fd) := by
    constructor
    · exact fun hok => hok r rs hque
    · rintro hok r' rs' hque'
      obtain ⟨rfl, rfl⟩ := List.cons.inj (hque.symm.trans hque')
      exact hok
  have hsize : ¬ RecvOver (bufferClear (s.workers k).rdbuf) [] ↔ 0 < (s.workers k).rdbuf.size := by
    rw [recvOver_nil, not_le]
    rfl
  rw [hok]
  rcases hnext with ⟨hr, hmore, rfl⟩ | ⟨hstart, rfl⟩
  · refine iff_of_true (h.mono fun f hf hwait => ?_) fun _ _ => .inl (.inl (hsize.1 hmore))
    refine .inr (.inr ⟨hf, hwait, id, fun ho => ho.mono rfl fun hi => ?_⟩)
    exact idle_of_take hread hque hi fun _ => hi.reading k r [] (Function.update_self ..)
  · by_cases hr : r.sockStatus = .dataIn
    · have hfull : ¬ 0 < (s.workers k).rdbuf.size := fun hpos => hstart ⟨hr, hsize.2 hpos⟩
      have hleft : { s with ques := Function.update s.ques k rs } = { s with
          ques := Function.update s.ques k rs
          unread := Function.update s.unread r.fd (s.unread r.fd) } := by
        rw [Function.update_eq_self]
      rw [finish_drained_iff hinv h hr hleft]
      · simp [hr, hfull]
      · exact fun f hf hi => idle_of_take hread hque hi fun _ => hf.symm
    · -- a record without data is not received for
      refine iff_of_true (h.mono fun f hf hwait => ?_) fun hin => absurd hin hr
      have hf' : s.handled f = true := by simpa [EdgeSys.finish, hr] using hf
      refine .inr (.inr ⟨hf', hwait, id, fun ho => ho.mono rfl fun hi => ?_⟩)
      exact idle_of_take (x := none) hread hque ⟨hi.out, hi.ques, hi.reading⟩ fun hin => absurd hin hr

/-! ### Runs -/

/-- **The step lemma**: after a step nothing is left behind exactly when it meets the condition. -/
theorem edgeStep_drained_iff {a : EdgeAct} (hinv : EdgeInv s) (h : Drained s)
    (hst : edgeStep proc s a = some t) : Drained t ↔ EdgeOk s a := by
  cases a with
  | connect peer => exact iff_of_true (connect_drained h hst) trivial
  | arrive fd bs => exact iff_of_true (arrive_drained hinv h hst) trivial
  | detect fds => exact iff_of_true (detect_drained h hst) trivial
  | check o => exact check_drained_iff hinv h hst
  | enqueue room => exact iff_of_true (enqueue_drained h hst) trivial
  | take k => exact take_drained_iff hinv h hst
  | recv k answer => exact recv_drained_iff hinv h hst

/-- **Edge-triggered events are drained**, all along a run and in whatever order connections and
bytes arrive, exactly when every step of the run meets the condition `EdgeOk`. -/
theorem drained_iff (proc : ProcFn Ctx) (listenFd : ℤ) (addr : UInt32 × UInt16) (si : SockInfo)
    (queNum : ℕ) (workers : ℕ → Worker Ctx) (acts : List EdgeAct) :
    Lts.SafePrefixes (edgeStep proc) Drained (edgeStart listenFd addr si queNum workers) acts ↔
      Lts.Guarded (edgeStep proc) EdgeOk (edgeStart listenFd addr si queNum workers) acts := by
  have hstart : Drained (edgeStart listenFd addr si queNum workers) := fun f hf => nomatch hf
  refine Lts.safe_prefixes_iff_guarded (fun s => EdgeInv s ∧ Drained s) ?_ ?_
    ⟨edgeStart_inv listenFd addr si queNum workers, hstart⟩ hstart acts
  · exact fun s a t hs hst => edgeStep_drained_iff hs.1 hs.2 hst
  · exact fun s a t hs hst ht => ⟨edgeStep_inv hs.1 hst, ht⟩

/-- Two connections arrive before the event of the listening socket 4 is reported, and the first one
is accepted. -/
def twoBeforeOne : List EdgeAct :=
  [.connect (5, 16777343, 1), .connect (6, 16777343, 2), .detect [4],
    .check ⟨some (5, 16777343, 1), true, true, true, true, true⟩]

/-- The second connection is left in the backlog, and no event is pending. -/
theorem connection_left_behind : ¬ ∀ (proc : ProcFn Unit) (listenFd : ℤ) (addr : UInt32 × UInt16)
    (si : SockInfo) (queNum : ℕ) (workers : ℕ → Worker Unit) (acts : List EdgeAct),
    Lts.SafePrefixes (edgeStep proc) Drained (edgeStart listenFd addr si queNum workers) acts := by
  intro h
  let b : Buffer := ⟨.allo, 2048, 0, fun _ => 0, false⟩
  let start := edgeStart 4 (0, 0) ⟨0, 0, 0, .unknown⟩ 1 fun _ => workerStart () b b
  have hend : (Lts.run (edgeStep workerDataFprocDft) start twoBeforeOne).map (fun s =>
      (s.handled 4, s.acc.listenFd, s.backlog, s.edge 4, s.acc.events.drop s.acc.nextEvent)) =
        some (true, 4, [(6, 16777343, 2)], false, []) :=
    rfl
  obtain ⟨s, hrun, hs⟩ := Option.map_eq_some_iff.1 hend
  simp only [Prod.mk.injEq] at hs
  obtain ⟨hhandled, hlisten, hbacklog, hedge, hevents⟩ := hs
  have hwaiting : s.Waiting 4 := by
    rw [EdgeSys.Waiting, if_pos hlisten.symm, hbacklog]
    exact List.cons_ne_nil _ _
  rcases h _ _ _ _ _ _ _ _ (List.prefix_refl _) s hrun 4 hhandled hwaiting with he | ⟨ev, hev, -⟩ | ho
  · rw [hedge] at he
    cases he
  · rw [hevents] at hev
    cases hev
  · exact ho.1 hlisten.symm

end F1Goal
