import F1Goal.Server

/-!
# What the workers see of a client (`f1g_server.c`)

Between the access loop and the workers a record can get lost when a queue is full, but that is all
that can happen to it. `sent` are the records of a queue whose `que_obj_move_next` has returned
`F1G_OK`. `server_keeps_order` says of every interleaving of the threads that a worker sees these
records, in the order in which they were handed out and each once, and that the records of one
client all come to one worker. `worker_drains` says that a worker that is not stopped sees all of
them, within ten statements for each.

The invariant is that of `AccInv` for the records that have not been refused.
-/

namespace F1Goal

open CString

/-- The records for which a call has returned `F1G_OK`, when each record has its call. -/
def sentOf (handed : List SockInfo) (rets : List (Code × Bool)) : List SockInfo :=
  ((handed.zip rets).filter fun p => p.2.1 = .ok).map Prod.fst

/-- The records of the queue `k` whose `que_obj_move_next` has returned `F1G_OK`. -/
def AccSys.sent (s : AccSys) (k : ℕ) : List SockInfo := sentOf (s.handed k) (s.ques k).rets

/-- The calls of `que_obj_move_next` that have returned `F1G_ERR`. -/
def QueSys.refusals (s : QueSys) : ℕ := s.rets.countP fun ret => ret.1 = .err

/-- The records that `accessor_check_status` has handed out. -/
def handedOut (acts : List AccAct) : List SockInfo :=
  acts.filterMap fun a => match a with
    | .check r => some r
    | _ => none

/-- The records of a client. -/
def ofClient (ip : UInt32) (records : List SockInfo) : List SockInfo :=
  records.filter fun r => r.srcIp = ip

/-- **What the workers see of the records** that were handed out. -/
structure KeepsOrder (records : List SockInfo) (s : AccSys) : Prop where
  /-- each once and in order, those whose call has returned `F1G_OK` -/
  seen : ∀ k, (s.ques k).seen <+: (s.sent k).map SockInfo.elem
  /-- those of a client in the order in which they were handed out -/
  order : ∀ k ip, (ofClient ip (s.sent k)).Sublist (ofClient ip records)
  /-- at the worker that its address selects -/
  own : ∀ k, ∀ r ∈ s.sent k, selQueByIp r.srcIp s.queNum = k
  /-- a record that is not sent has its refusal -/
  refused : s.pc = .top → ∀ k, (records.filter fun r => selQueByIp r.srcIp s.queNum = k).length =
    (s.sent k).length + (s.ques k).refusals

/-! ### Records and calls -/

@[simp] theorem sentOf_nil (handed : List SockInfo) : sentOf handed [] = [] := by
  simp [sentOf]

theorem sentOf_append {handed : List SockInfo} {rets : List (Code × Bool)}
    (h : handed.length = rets.length) (more : List SockInfo) (rest : List (Code × Bool)) :
    sentOf (handed ++ more) (rets ++ rest) = sentOf handed rets ++ sentOf more rest := by
  rw [sentOf, List.zip_append h, List.filter_append, List.map_append]
  rfl

/-- A record that has no call yet is not sent. -/
theorem sentOf_more {handed more : List SockInfo} {rets : List (Code × Bool)}
    (h : handed.length = rets.length) : sentOf (handed ++ more) rets = sentOf handed rets := by
  have happ := sentOf_append h more []
  rwa [List.append_nil, sentOf_nil, List.append_nil] at happ

theorem sentOf_singleton (r : SockInfo) (ret : Code × Bool) :
    sentOf [r] [ret] = if ret.1 = .ok then [r] else [] := by
  by_cases hok : ret.1 = .ok <;> simp [sentOf, hok]

theorem sentOf_sublist (handed : List SockInfo) (rets : List (Code × Bool)) :
    (sentOf handed rets).Sublist handed := by
  induction handed generalizing rets with
  | nil => simp [sentOf]
  | cons r handed ih =>
    cases rets with
    | nil => simp
    | cons ret rets =>
      have hone : sentOf ([r] ++ handed) ([ret] ++ rets) = _ := sentOf_append rfl handed rets
      rw [List.singleton_append, List.singleton_append] at hone
      rw [hone, sentOf_singleton]
      have hsub : (if ret.1 = .ok then [r] else []).Sublist [r] := by
        split_ifs <;> simp
      exact hsub.append (ih rets)

/-- Each call has returned `F1G_OK` or `F1G_ERR`. -/
theorem length_sentOf {handed : List SockInfo} {rets : List (Code × Bool)}
    (h : handed.length = rets.length) :
    (sentOf handed rets).length + rets.countP (fun ret => ret.1 = .err) = handed.length := by
  induction handed generalizing rets with
  | nil =>
    obtain rfl := List.length_eq_zero_iff.1 h.symm
    rfl
  | cons r handed ih =>
    obtain ⟨ret, rets, rfl⟩ := List.exists_cons_of_length_eq_add_one h.symm
    have ih := ih (Nat.succ.inj h)
    obtain ⟨code, live⟩ := ret
    cases code <;> simp [sentOf] at ih ⊢ <;> omega

theorem onQueue_rest {s t : AccSys} {k : ℕ} {a : QueAct} {pc : AccPc}
    (h : s.onQueue k a pc = some t) : t.queNum = s.queNum ∧ t.handed = s.handed := by
  obtain ⟨q, -, rfl⟩ := onQueue_eq_some h
  exact ⟨rfl, rfl⟩

theorem accStep_handed {s t : AccSys} {a : AccAct} (h : accStep s a = some t) :
    t.queNum = s.queNum ∧ ∀ k, t.handed k =
      s.handed k ++ (handedOut [a]).filter fun r => selQueByIp r.srcIp s.queNum = k := by
  cases a with
  | check r =>
    simp only [accStep] at h
    split at h <;> cases h
    refine ⟨rfl, fun k => ?_⟩
    by_cases hk : selQueByIp r.srcIp s.queNum = k
    · subst hk
      simp [handedOut]
    · simp [handedOut, hk, Ne.symm hk]
  | cons k =>
    obtain ⟨q, -, rfl⟩ := onQueue_eq_some h
    exact ⟨rfl, fun k => (List.append_nil _).symm⟩
  | acc =>
    suffices hs : t.queNum = s.queNum ∧ t.handed = s.handed from
      ⟨hs.1, fun k => by rw [hs.2]; exact (List.append_nil _).symm⟩
    simp only [accStep] at h
    split at h
    · cases h
    · exact onQueue_rest h
    · split_ifs at h
      · cases h
        exact ⟨rfl, rfl⟩
      · exact onQueue_rest h
    · exact onQueue_rest h
    · exact onQueue_rest h
    · exact onQueue_rest h
    · cases h

/-- The records that the access loop hands out in a run. -/
theorem handed_of_run {s t : AccSys} {acts : List AccAct} (h : Lts.run accStep s acts = some t) :
    t.queNum = s.queNum ∧ ∀ k, t.handed k =
      s.handed k ++ (handedOut acts).filter fun r => selQueByIp r.srcIp s.queNum = k := by
  induction acts generalizing s with
  | nil =>
    cases h
    simp [handedOut]
  | cons a acts ih =>
    obtain ⟨u, hu, hrun⟩ := Option.bind_eq_some_iff.1 h
    obtain ⟨hnum, hhanded⟩ := ih hrun
    have hstep := accStep_handed hu
    refine ⟨hnum.trans hstep.1, fun k => ?_⟩
    rw [hhanded k, hstep.2 k, hstep.1, List.append_assoc, ← List.filter_append]
    congr 2
    exact List.filterMap_append.symm

/-! ### The invariant -/

/-- The system in which only the records that have not been refused were handed out. -/
def AccSys.kept (s : AccSys) : AccSys :=
  { s with handed := fun k => s.sent k ++ s.pc.pending k }

/-- The invariant of the threads, also behind a queue that was full. -/
structure OrderInv (n : ℤ) (s : AccSys) : Prop where
  kept : AccInv n s.kept
  calls : ∀ k, ∃ done, s.handed k = done ++ s.pc.pending k ∧ done.length = (s.ques k).rets.length
  size : ∀ k, sockInfoSize ≤ (s.ques k).que.blkSize - elemSize

@[simp] theorem pending_top (k : ℕ) : AccPc.top.pending k = [] := rfl

variable {n : ℤ} {s t : AccSys}

/-- A statement of a thread does not look at what was handed out. -/
theorem accStep_kept {a : AccAct} (ha : ∀ r, a ≠ .check r) (h : accStep s a = some t) :
    accStep s.kept a = some { t with handed := s.kept.handed } := by
  cases a with
  | check r => exact absurd rfl (ha r)
  | cons k =>
    obtain ⟨q, hq, rfl⟩ := onQueue_eq_some h
    simp only [accStep, AccSys.onQueue, AccSys.kept, hq, Option.map_some]
  | acc =>
    simp only [accStep] at h
    cases hpc : s.pc with
    | top => simp [hpc] at h
    | fault => simp [hpc] at h
    | copy r k p =>
      simp only [hpc] at h
      split_ifs at h with hsize
      · cases h
        simp [accStep, AccSys.kept, hpc, hsize]
      · obtain ⟨q, hq, rfl⟩ := onQueue_eq_some h
        simp [accStep, AccSys.onQueue, AccSys.kept, hpc, hsize, hq]
    | _ =>
      simp only [hpc] at h
      obtain ⟨q, hq, rfl⟩ := onQueue_eq_some h
      simp [accStep, AccSys.onQueue, AccSys.kept, hpc, hq]

/-- A statement after which the records in hand and the calls are the same. -/
theorem OrderInv.goes (h : OrderInv n s) (hhanded : t.handed = s.handed)
    (hrets : ∀ k, (t.ques k).rets = (s.ques k).rets)
    (hpend : ∀ k, t.pc.pending k = s.pc.pending k)
    (hsize : ∀ k, (t.ques k).que.blkSize = (s.ques k).que.blkSize)
    (hinv : AccInv n { t with handed := s.kept.handed }) : OrderInv n t where
  kept := by
    have hkept : t.kept = { t with handed := s.kept.handed } := by
      simp only [AccSys.kept, AccSys.sent, hhanded, hrets, hpend]
    rw [hkept]
    exact hinv
  calls k := by
    rw [hhanded, hrets, hpend]
    exact h.calls k
  size k := by
    rw [hsize]
    exact h.size k

/-- A call ends for the record `r`, which was in hand. -/
theorem OrderInv.ends (h : OrderInv n s) {r : SockInfo} {k : ℕ} {q : QueSys} (ret : Code × Bool)
    (hpend : ∀ j, s.pc.pending j = if k = j then [r] else [])
    (hrets : q.rets = (s.ques k).rets ++ [ret]) (hsize : q.que.blkSize = (s.ques k).que.blkSize)
    (hready : q.prod.ready = true) (hinv : QueInv n q)
    (hpub : q.published = (s.ques k).published ++ if ret.1 = .ok then [r.elem] else []) :
    OrderInv n { s with ques := Function.update s.ques k q, pc := .top } := by
  obtain ⟨done, hdone, hlen⟩ := h.calls k
  rw [hpend, if_pos rfl] at hdone
  have hsent : s.sent k = sentOf done (s.ques k).rets := by
    rw [AccSys.sent, hdone, sentOf_more hlen]
  have hkept : (sentOf done (s.ques k).rets).map SockInfo.elem = (s.ques k).published := by
    have hk := h.kept.handed k
    simp only [AccSys.kept, hpend, if_true, hsent, List.map_append] at hk
    exact List.append_cancel_right hk
  refine ⟨⟨fun j => ?_, fun j => ?_, trivial, fun j _ => ?_⟩, fun j => ?_, fun j => ?_⟩
  · rcases eq_or_ne j k with rfl | hj
    · simpa [AccSys.kept] using hinv
    · simpa [AccSys.kept, hj] using h.kept.ques j
  · rcases eq_or_ne j k with rfl | hj
    · simp only [AccSys.kept, AccSys.sent, pending_top, List.append_nil, List.map_nil,
        Function.update_self, hdone, hrets, hpub]
      rw [sentOf_append hlen, List.map_append, hkept, sentOf_singleton]
      split_ifs <;> simp
    · have hk := h.kept.handed j
      simpa [AccSys.kept, AccSys.sent, pending_top, hj, hpend, hj.symm] using hk
  · rcases eq_or_ne j k with rfl | hj
    · simpa [AccSys.kept] using hready
    · simpa [AccSys.kept, hj] using h.kept.ready j (by simp [AccSys.kept, hpend, hj.symm])
  · rcases eq_or_ne j k with rfl | hj
    · exact ⟨done ++ [r], by simp [pending_top, hdone], by simp [hrets, hlen]⟩
    · have hk := h.calls j
      simpa [pending_top, hj, hpend, hj.symm] using hk
  · rcases eq_or_ne j k with rfl | hj
    · simpa [hsize] using h.size j
    · simpa [hj] using h.size j

/-- A statement that acts on a queue and ends no call. -/
theorem OrderInv.onQueue (h : OrderInv n s) {k : ℕ} {a : QueAct} {pc : AccPc}
    (hst : s.onQueue k a pc = some t)
    (hrets : ∀ q, queStep (s.ques k) a = some q → q.rets = (s.ques k).rets)
    (hpend : ∀ j, pc.pending j = s.pc.pending j)
    (hinv : AccInv n { t with handed := s.kept.handed }) : OrderInv n t := by
  obtain ⟨q, hq, rfl⟩ := onQueue_eq_some hst
  refine h.goes rfl (fun j => ?_) hpend (fun j => ?_) hinv
  · rcases eq_or_ne j k with rfl | hj
    · simpa using hrets q hq
    · simp [hj]
  · rcases eq_or_ne j k with rfl | hj
    · simpa using queStep_blkSize hq
    · simp [hj]

/-- A record is handed out. -/
theorem accStep_check_orderInv {r : SockInfo} (h : OrderInv n s)
    (hst : accStep s (.check r) = some t) : OrderInv n t := by
  simp only [accStep] at hst
  split at hst
  · rename_i hpc
    cases hst
    have hcalls (k : ℕ) : (s.handed k).length = (s.ques k).rets.length := by
      obtain ⟨done, hdone, hlen⟩ := h.calls k
      rw [hdone, hpc, pending_top, List.append_nil, hlen]
    have hinv := accStep_check_inv (r := r) h.kept (by simp only [accStep, AccSys.kept, hpc]; rfl)
    refine ⟨{ hinv with handed := fun j => (congrArg _ ?_).trans (hinv.handed j) }, fun k => ?_,
      h.size⟩
    · by_cases hj : j = selQueByIp r.srcIp s.queNum
      · subst hj
        simp [AccSys.kept, AccSys.sent, sentOf_more (hcalls _), AccPc.pending]
      · simp [AccSys.kept, AccSys.sent, hj, AccPc.pending, Ne.symm hj]
    · by_cases hk : k = selQueByIp r.srcIp s.queNum
      · subst hk
        exact ⟨_, by simp [AccPc.pending], hcalls _⟩
      · exact ⟨s.handed k, by simp [hk, AccPc.pending, Ne.symm hk], hcalls k⟩
  · cases hst

/-- A statement of the access loop. -/
theorem accStep_acc_orderInv (h : OrderInv n s) (hst : accStep s .acc = some t) :
    OrderInv n t := by
  have hf : AccFacts s.ques s.pc := h.kept.facts
  have hst' := accStep_kept (fun _ => by simp) hst
  have hinv (hroom : AccRoom s.kept .acc) := accStep_acc_inv h.kept hroom hst'
  simp only [accStep] at hst
  cases hpc : s.pc with
  | top => simp [hpc] at hst
  | fault => simp [hpc] at hst
  | freeblk r k =>
    simp only [hpc] at hst
    refine h.onQueue hst (fun q hq => ?_) (fun j => by rw [hpc]; rfl)
      (hinv fun _ => by simp [AccSys.kept, hpc])
    simp only [queStep] at hq
    split_ifs at hq
    cases hq
    rfl
  | copy r k p =>
    simp only [hpc, if_neg (not_lt.2 (h.size k))] at hst
    refine h.onQueue hst (fun q hq => ?_) (fun j => by rw [hpc]; rfl) (hinv fun _ => ?_)
    · simp only [queStep] at hq
      split at hq <;> cases hq
      rfl
    · simpa [AccSys.kept, hpc] using h.size k
  | len r k p =>
    simp only [hpc] at hst
    refine h.onQueue hst (fun q hq => ?_) (fun j => by rw [hpc]; rfl)
      (hinv fun _ => by simp [AccSys.kept, hpc])
    simp only [queStep] at hq
    split at hq <;> cases hq
    rfl
  | move r k =>
    simp only [hpc, AccFacts] at hst hf
    obtain ⟨⟨p, hfree⟩, -⟩ := hf
    have hready : (s.ques k).prod.ready = true := by rw [hfree]; rfl
    by_cases hfull : queObjFull (s.ques k).que = true
    · -- the record is refused, and nobody looks at the code
      obtain ⟨q, hq, rfl⟩ := onQueue_eq_some hst
      have hqinv := queStep_inv (h.kept.ques k) hq
      simp only [queStep, if_pos hready, if_pos hfull, Option.some.injEq] at hq
      subst hq
      rw [if_pos hfull]
      exact h.ends (.err, false) (fun j => by rw [hpc]; rfl) rfl rfl hready hqinv
        (List.append_nil _).symm
    · rw [if_neg hfull] at hst
      refine h.onQueue hst (fun q hq => ?_) (fun j => by rw [hpc]; rfl)
        (hinv fun _ => by simpa [AccSys.kept, hpc] using hfull)
      simp only [queStep, if_pos hready, if_neg hfull, Option.some.injEq] at hq
      subst hq
      rfl
  | tail r k =>
    simp only [hpc, AccFacts] at hst hf
    obtain ⟨q, hq, rfl⟩ := onQueue_eq_some hst
    have hqinv := queStep_inv (h.kept.ques k) hq
    simp only [queStep, prodStep, hf.1, Option.some.injEq] at hq
    subst hq
    exact h.ends (.ok, true) (fun j => by rw [hpc]; rfl) rfl rfl rfl hqinv
      (by rw [if_pos rfl, ← hf.2]; rfl)

/-- **The step lemma.** -/
theorem accStep_orderInv {a : AccAct} (h : OrderInv n s) (hst : accStep s a = some t) :
    OrderInv n t := by
  cases a with
  | check r => exact accStep_check_orderInv h hst
  | acc => exact accStep_acc_orderInv h hst
  | cons k =>
    exact h.onQueue hst (fun q hq => consStep_rets hq) (fun _ => rfl)
      (accStep_cons_inv h.kept (accStep_kept (fun _ => by simp) hst))

theorem servStart_orderInv {conf : ServerConf} {buffers : ℕ → ℤ → Block} {serv : ServObject}
    (h : servCreate conf buffers = some serv) (hsize : IsI32 conf.queSize) (hrun : Runnable conf) :
    OrderInv conf.queCap (servStart serv) := by
  have hserv := servStart_inv h hsize hrun
  obtain ⟨-, rfl⟩ := servCreate_eq h
  refine ⟨⟨hserv.ques, fun k => ?_, trivial, fun k _ => rfl⟩, fun k => ⟨[], rfl, rfl⟩, fun k => ?_⟩
  · simp [AccSys.kept, servStart, AccSys.sent, queStart]
  · rw [hserv.blkSize k, add_sub_cancel_right]
    exact hrun.2.1

theorem OrderInv.inOrder {records : List SockInfo} (h : OrderInv n s)
    (hrecords : ∀ k, s.handed k = records.filter fun r => selQueByIp r.srcIp s.queNum = k) :
    KeepsOrder records s where
  seen k := by
    have hk := h.kept.handed k
    simp only [AccSys.kept, List.map_append] at hk
    rw [List.append_cancel_right hk]
    exact (h.kept.ques k).fifo.seen_prefix
  order k ip := by
    have hhanded : (s.handed k).Sublist records := by
      rw [hrecords k]
      exact List.filter_sublist
    exact ((sentOf_sublist _ _).trans hhanded).filter _
  own k r hr := by
    have hmem := (sentOf_sublist _ _).subset hr
    rw [hrecords k, List.mem_filter] at hmem
    exact of_decide_eq_true hmem.2
  refused hpc k := by
    obtain ⟨done, hdone, hlen⟩ := h.calls k
    rw [hpc, pending_top, List.append_nil] at hdone
    rw [← hrecords k, AccSys.sent, QueSys.refusals, length_sentOf (hdone ▸ hlen)]

theorem servRun_orderInv {bufSize : ℕ} {buf : ℤ → UInt8} {want : ℕ → ℕ} {content : List UInt8}
    {conf : ServerConf} {buffers : ℕ → ℤ → Block} {serv : ServObject}
    (hload : servLoad bufSize buf want content = some conf)
    (hcreate : servCreate conf buffers = some serv) (hconf : Runnable conf) {acts : List AccAct}
    (hrun : Lts.run accStep (servStart serv) acts = some s) : OrderInv conf.queCap s :=
  Lts.run_invariant (fun _ _ _ h hst => accStep_orderInv h hst)
    (servStart_orderInv hcreate (servLoad_isI32 hload).2.1 hconf) hrun

/-- **The order of a client is kept**: in every interleaving of the threads of a server whose
configuration can be run, also with queues that are full, what the workers see is in order. -/
theorem server_keeps_order {bufSize : ℕ} {buf : ℤ → UInt8} {want : ℕ → ℕ} {content : List UInt8}
    {conf : ServerConf} {buffers : ℕ → ℤ → Block} {serv : ServObject}
    (hload : servLoad bufSize buf want content = some conf)
    (hcreate : servCreate conf buffers = some serv) (hconf : Runnable conf) (acts : List AccAct)
    (hrun : Lts.run accStep (servStart serv) acts = some s) : KeepsOrder (handedOut acts) s := by
  obtain ⟨hnum, hhanded⟩ := handed_of_run hrun
  refine (servRun_orderInv hload hcreate hconf hrun).inOrder fun k => ?_
  rw [hhanded k, hnum]
  rfl

/-- Two workers, and queues of three blocks for one record each. -/
def twoWorkers : ServerConf := ⟨0, 2, 1, 12, 3, 0, [], 0⟩

theorem twoWorkers_load : servLoad 4096 (fun _ => 0) (fun _ => 4096)
    (ascii "[sys]\nworker_num=2\nque_size=12\nque_cap=3\n") = some twoWorkers := by
  decide +kernel

/-- The statements that send a record. -/
def sendActs (r : SockInfo) : List AccAct := .check r :: List.replicate 5 .acc

/-- Records of 127.0.0.1 and 127.0.0.3 for one worker, and of 127.0.0.2 for the other. The queue of
the former is then full: another record of 127.0.0.1 is refused, and the worker takes a record away
before the next one is sent. -/
def threeClients : List AccAct :=
  sendActs ⟨5, 16777343, 1, .dataIn⟩ ++ sendActs ⟨6, 33554559, 2, .dataIn⟩ ++
    sendActs ⟨7, 50331775, 3, .dataIn⟩ ++
    (.check ⟨5, 16777343, 1, .disc⟩ :: List.replicate 4 .acc) ++
    List.replicate 10 (.cons 1) ++ List.replicate 5 (.cons 0) ++ sendActs ⟨8, 16777343, 4, .dataIn⟩ ++
    List.replicate 5 (.cons 1)

theorem server_keeps_order_full : ∃ s, KeepsOrder (handedOut threeClients) s ∧
    (s.ques 0).seen = [SockInfo.elem ⟨6, 33554559, 2, .dataIn⟩] ∧
    (s.ques 1).seen = [SockInfo.elem ⟨5, 16777343, 1, .dataIn⟩,
      SockInfo.elem ⟨7, 50331775, 3, .dataIn⟩] ∧
    (s.ques 1).refusals = 1 :=
  ⟨_, @server_keeps_order _ 4096 (fun _ => 0) (fun _ => 4096) _ twoWorkers
    (fun _ _ => ⟨0, 0, []⟩) _ twoWorkers_load rfl (by decide) threeClients rfl, rfl, rfl, rfl⟩

/-! ### A worker that goes on -/

/-- The statements that the worker has executed for the element in hand. -/
def ConsPc.steps : ConsPc → ℕ
  | .idle => 0
  | .headEmpty => 1
  | .headAddr => 2
  | .readLen _ => 3
  | .readData _ _ => 4
  | .popTest _ => 5
  | .popElem => 6
  | .popLen _ => 7
  | .popStatus _ => 8
  | .popFront => 9
  | .fault => 0

/-- While an element is live the worker is not held up, and ten statements take one away. -/
theorem consStep_progress {q : QueSys} (h : QueInv n q) (hlive : 0 < q.live.length) :
    ∃ q', consStep q = some q' ∧
      10 * q'.live.length + q.cons.steps + 1 = 10 * q.live.length + q'.cons.steps := by
  have hne : q.que.front ≠ q.que.tail := fun heq => hlive.ne' (h.empty_iff.1 heq)
  have hempty : queObjEmpty q.que = false := decide_eq_false hne
  have hc := h.consFacts
  cases hpc : q.cons with
  | fault =>
    rw [hpc] at hc
    exact hc.elim
  | popFront =>
    refine ⟨_, by simp only [consStep, hpc]; rfl, ?_⟩
    obtain ⟨hlt, hcons⟩ := h.live_cons hlive
    rw [hcons]
    simp only [QueSys.live, ConsPc.steps, List.length_cons]
    ring
  | _ =>
    refine ⟨_, by simp only [consStep, hpc, hempty, if_pos hne]; rfl, ?_⟩
    simp only [QueSys.live, ConsPc.steps, Bool.false_eq_true, if_false]
    try rfl

theorem steps_le {q : QueSys} (h : QueInv n q) : q.cons.steps ≤ 10 * q.live.length := by
  have hle : q.cons.steps ≤ 9 := by cases q.cons <;> simp [ConsPc.steps]
  rcases Nat.eq_zero_or_pos q.live.length with hzero | hpos
  · -- nothing is live: the worker waits for an element
    have hc := h.consFacts
    rw [hzero] at hc
    cases hpc : q.cons <;> simp [hpc, ConsFacts, ConsPc.steps] at hc ⊢
  · omega

/-- A worker that is not stopped comes to the end of its queue. The induction is on the statements
that are left: ten for each live element, but for those executed. -/
theorem cons_drains {q : QueSys} {left : ℕ} (h : QueInv n q)
    (hleft : 10 * q.live.length = left + q.cons.steps) :
    ∃ q', Lts.run queStep q (List.replicate left .cons) = some q' ∧ q'.live = [] := by
  induction left generalizing q with
  | zero =>
    refine ⟨q, rfl, ?_⟩
    have hle : q.cons.steps ≤ 9 := by cases q.cons <;> simp [ConsPc.steps]
    exact List.length_eq_zero_iff.1 (by omega)
  | succ left ih =>
    obtain ⟨q', hstep, hcount⟩ := consStep_progress h (by omega)
    obtain ⟨q'', hrun, hlive⟩ := ih (consStep_inv h hstep) (by omega)
    exact ⟨q'', by rw [List.replicate_succ, Lts.run_cons]; simp [queStep, hstep, hrun], hlive⟩

/-- Statements of one worker alone. -/
theorem worker_run {k m : ℕ} {q' : QueSys}
    (h : Lts.run queStep (s.ques k) (List.replicate m .cons) = some q') :
    Lts.run accStep s (List.replicate m (.cons k)) =
      some { s with ques := Function.update s.ques k q' } := by
  induction m generalizing s with
  | zero =>
    cases h
    simp [Lts.run]
  | succ m ih =>
    obtain ⟨q, hq, hrun⟩ := Option.bind_eq_some_iff.1 h
    have hstep : accStep s (.cons k) = some { s with ques := Function.update s.ques k q } := by
      simp only [accStep, AccSys.onQueue, hq, Option.map_some]
    rw [List.replicate_succ, Lts.run_cons, hstep, Option.bind_some]
    rw [ih (s := { s with ques := Function.update s.ques k q }) (by simpa using hrun)]
    simp

theorem cons_run_frame {q q' : QueSys} {m : ℕ} (h : QueInv n q)
    (hrun : Lts.run queStep q (List.replicate m .cons) = some q') :
    QueInv n q' ∧ q'.published = q.published := by
  induction m generalizing q with
  | zero =>
    cases hrun
    exact ⟨h, rfl⟩
  | succ m ih =>
    obtain ⟨u, hu, hrun⟩ := Option.bind_eq_some_iff.1 hrun
    obtain ⟨hinv, hpub⟩ := ih (consStep_inv h hu) hrun
    exact ⟨hinv, hpub.trans (consStep_frame h hu).2.1⟩

/-- **No record that was sent is left lying**: from every state that the threads of such a server
can reach, at most ten statements of a worker for each element of its queue bring it to the end of
the queue, where it has seen all that was sent to it. -/
theorem worker_drains {bufSize : ℕ} {buf : ℤ → UInt8} {want : ℕ → ℕ} {content : List UInt8}
    {conf : ServerConf} {buffers : ℕ → ℤ → Block} {serv : ServObject}
    (hload : servLoad bufSize buf want content = some conf)
    (hcreate : servCreate conf buffers = some serv) (hconf : Runnable conf) (acts : List AccAct)
    (hrun : Lts.run accStep (servStart serv) acts = some s) (k : ℕ) :
    ∃ m ≤ 10 * (s.ques k).live.length, ∃ q,
      Lts.run accStep s (List.replicate m (.cons k)) =
        some { s with ques := Function.update s.ques k q } ∧
      queObjEmpty q.que = true ∧ q.seen = (s.sent k).map SockInfo.elem := by
  have hinv := servRun_orderInv hload hcreate hconf hrun
  have hq := hinv.kept.ques k
  obtain ⟨q, hdrain, hlive⟩ :=
    cons_drains (n := conf.queCap) hq (Nat.sub_add_cancel (steps_le hq)).symm
  obtain ⟨hqinv, hpub⟩ := cons_run_frame hq hdrain
  have hempty : queObjEmpty q.que = true := decide_eq_true (hqinv.empty_iff.2 (by rw [hlive]; rfl))
  refine ⟨_, Nat.sub_le _ _, q, worker_run hdrain, hempty, ?_⟩
  have hk := hinv.kept.handed k
  simp only [AccSys.kept, List.map_append] at hk
  rw [hqinv.seen_all hempty, hpub, List.append_cancel_right hk]
  rfl

/-- The worker of the full queue, when a record has been taken away and one put in its place. -/
theorem worker_drains_full : ∃ q : QueSys, queObjEmpty q.que = true ∧
    q.seen = [SockInfo.elem ⟨5, 16777343, 1, .dataIn⟩, SockInfo.elem ⟨7, 50331775, 3, .dataIn⟩,
      SockInfo.elem ⟨8, 16777343, 4, .dataIn⟩] := by
  obtain ⟨m, -, q, -, hempty, hseen⟩ := @worker_drains _ 4096 (fun _ => 0) (fun _ => 4096) _
    twoWorkers (fun _ _ => ⟨0, 0, []⟩) _ twoWorkers_load rfl (by decide) threeClients rfl 1
  exact ⟨q, hempty, hseen⟩

end F1Goal
