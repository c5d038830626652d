import F1Goal.Lib.Ledger

/-!
# The memory of a server (`f1g_server.c`, `f1g_queue.c`, `f1g_accessor.c`)

`serv_create` makes a server of many blocks, `serv_set_work_cb` gives each worker a context, and
`serv_destroy` frees what it finds. `serv_memory` follows every block: nothing is freed twice or used
behind its end, whichever requests for memory fail; but `que_obj_destroy` and the accessor free
nothing, and a context is lost when it has no function that cleans it, or is set again.
-/

open Ledger

namespace F1Goal

/-- The pointers of a `worker_t`, with the buffer of its queue. -/
structure WorkerBlocks where
  ctx : Ptr
  /-- there is a `p_ctx_clean_f` -/
  cleans : Bool
  que : Ptr
  queBuffer : Ptr
  rdbuf : Ptr
  wrbuf : Ptr

/-- The pointers of an `accessor_t`, with those of its `epoller_t`. -/
structure AccessorBlocks where
  rdbuf : Ptr
  wrbuf : Ptr
  linker : Ptr
  /-- the `sock_info_t` of the listening socket, which `epoll` holds -/
  addInfo : Ptr
  events : Ptr

/-- The pointers of a server. `lost` are the contexts that have been replaced, which the server does
not know any more. -/
structure ServBlocks where
  obj : Ptr
  access : Ptr
  workers : Ptr
  ques : Ptr
  slots : List WorkerBlocks
  accessor : AccessorBlocks
  lost : List Ptr

/-- Which calls of the system for the listening socket succeed. -/
structure EpollerSys where
  create : Bool
  nonblk : Bool
  add : Bool
  bind : Bool
  listen : Bool

/-- A call of `serv_set_work_cb`: whether there is a context with a size, and a function that cleans
it. -/
structure WorkCb where
  ctx : Bool
  cleans : Bool

section Functions

variable (grants : ℕ → Bool)

/-- `que_obj_create`, with `que_obj_init`: the queue and its buffer. -/
def queObjCreateBlocks : Prog (Option (Ptr × Ptr)) := do
  let obj ← malloc grants
  if obj = none then pure none
  else do
    let buffer ← malloc grants
    if buffer = none then do
      free obj
      pure none
    else pure (some (obj, buffer))

/-- A turn of the loop of `serv_create`. -/
def servWorker (ques workers : Ptr) : Prog (Option WorkerBlocks) := do
  let que ← queObjCreateBlocks grants
  match que with
  | none => pure none
  | some (que, queBuffer) => do
    touch workers
    touch ques
    let rdbuf ← malloc grants
    let wrbuf ← malloc grants
    pure (some ⟨none, false, que, queBuffer, rdbuf, wrbuf⟩)

/-- The loop of `serv_create`: the workers that it makes, and whether all of them are made. -/
def servWorkers (ques workers : Ptr) : ℕ → Prog (List WorkerBlocks × Bool)
  | 0 => pure ([], true)
  | n + 1 => do
    let slot ← servWorker grants ques workers
    match slot with
    | none => pure ([], false)
    | some slot => do
      let (slots, done) ← servWorkers ques workers n
      pure (slot :: slots, done)

/-- `epoller_init`: its two blocks, and whether it succeeds. -/
def epollerInit (sys : EpollerSys) : Prog ((Ptr × Ptr) × Bool) :=
  if !sys.create || !sys.nonblk then pure ((none, none), false)
  else do
    let addInfo ← malloc grants
    if addInfo = none then pure ((none, none), false)
    else if !sys.add || !sys.bind || !sys.listen then pure ((addInfo, none), false)
    else do
      let events ← malloc grants
      pure ((addInfo, events), events.isSome)

/-- `accessor_init` for `LINKER_EPOLL`. -/
def accessorInit (sys : EpollerSys) : Prog (AccessorBlocks × Bool) := do
  let rdbuf ← malloc grants
  let wrbuf ← malloc grants
  let linker ← malloc grants
  if linker = none then pure (⟨rdbuf, wrbuf, none, none, none⟩, false)
  else do
    let ((addInfo, events), done) ← epollerInit grants sys
    pure (⟨rdbuf, wrbuf, linker, addInfo, events⟩, done)

/-- `serv_create`: what it has made, and whether it returns it. -/
def servCreateBlocks (workerNum : ℤ) (sys : EpollerSys) : Prog (ServBlocks × Bool) := do
  let noAccessor : AccessorBlocks := ⟨none, none, none, none, none⟩
  let obj ← malloc grants
  if obj = none then pure (⟨obj, none, none, none, [], noAccessor, []⟩, false)
  else do
    let access ← malloc grants
    if access = none then pure (⟨obj, access, none, none, [], noAccessor, []⟩, false)
    else do
      let workers ← malloc grants
      if workers = none then pure (⟨obj, access, workers, none, [], noAccessor, []⟩, false)
      else do
        let ques ← malloc grants
        if ques = none then pure (⟨obj, access, workers, ques, [], noAccessor, []⟩, false)
        else do
          let (slots, made) ← servWorkers grants ques workers workerNum.toNat
          if !made then pure (⟨obj, access, workers, ques, slots, noAccessor, []⟩, false)
          else do
            let (accessor, done) ← accessorInit grants sys
            pure (⟨obj, access, workers, ques, slots, accessor, []⟩, done)

/-- The loop of `serv_set_work_cb`: the workers, and the contexts that they had. -/
def setWorkCb (workers : Ptr) (cb : WorkCb) :
    List WorkerBlocks → Prog (List WorkerBlocks × List Ptr)
  | [] => pure ([], [])
  | slot :: slots => do
    touch workers
    if !cb.ctx then do
      let (slots, lost) ← setWorkCb workers cb slots
      pure (slot :: slots, lost)
    else do
      let p ← malloc grants
      if p = none then pure (slot :: slots, [])
      else do
        touch workers
        let (slots, lost) ← setWorkCb workers cb slots
        pure ({ slot with ctx := p, cleans := cb.cleans } :: slots, slot.ctx :: lost)

/-- `serv_set_work_cb` -/
def servSetWorkCb (s : ServBlocks) (cb : WorkCb) : Prog ServBlocks := do
  touch s.obj
  let (slots, lost) ← setWorkCb grants s.workers cb s.slots
  pure { s with slots := slots, lost := s.lost ++ lost }

end Functions

/-- The first loop of `serv_destroy`. -/
def freeContexts (workers : Ptr) : List WorkerBlocks → Prog Unit
  | [] => pure ()
  | slot :: slots => do
    touch workers
    if slot.ctx ≠ none ∧ slot.cleans then free slot.ctx
    freeContexts workers slots

/-- The second loop; `que_obj_destroy` does nothing. -/
def freeQueues (ques : Ptr) : List WorkerBlocks → Prog Unit
  | [] => pure ()
  | slot :: slots => do
    touch ques
    free slot.que
    freeQueues ques slots

/-- `serv_destroy`; the context of the access loop is never set. -/
def servDestroyBlocks (s : ServBlocks) : Prog Unit := do
  touch s.obj
  freeContexts s.workers s.slots
  free s.workers
  if s.access ≠ none then do
    touch s.access
    freeQueues s.ques s.slots
    free s.access

/-- A server from its beginning to its end, and what it was made of: it is created, contexts are set,
it is destroyed, and the caller frees the object. -/
def servSession (grants : ℕ → Bool) (workerNum : ℤ) (sys : EpollerSys) (cbs : List WorkCb) :
    Prog (Option ServBlocks) := do
  let (s, made) ← servCreateBlocks grants workerNum sys
  if !made then pure none
  else do
    let s ← cbs.foldlM (servSetWorkCb grants) s
    servDestroyBlocks s
    free s.obj
    pure (some s)

/-! ### What belongs to a server -/

def WorkerBlocks.ptrs (w : WorkerBlocks) : List Ptr :=
  [w.ctx, w.que, w.queBuffer, w.rdbuf, w.wrbuf]

def AccessorBlocks.ptrs (a : AccessorBlocks) : List Ptr :=
  [a.rdbuf, a.wrbuf, a.linker, a.addInfo, a.events]

/-- All blocks of a server. -/
def ServBlocks.ptrs (s : ServBlocks) : List Ptr :=
  [s.obj, s.access, s.workers, s.ques] ++ s.slots.flatMap WorkerBlocks.ptrs ++ s.accessor.ptrs ++
    s.lost

/-- What a worker leaves behind: the buffer of its queue, its own buffers, and a context that nothing
cleans. -/
def WorkerBlocks.leaked (w : WorkerBlocks) : List Ptr :=
  [w.queBuffer, w.rdbuf, w.wrbuf] ++ if w.ctx ≠ none ∧ w.cleans then [] else [w.ctx]

/-- What a server leaves behind: the array of its queues, the blocks of the workers and of the
accessor, and the contexts that were replaced. -/
def ServBlocks.leaked (s : ServBlocks) : List Ptr :=
  s.ques :: s.slots.flatMap WorkerBlocks.leaked ++ s.accessor.ptrs ++ s.lost

/-- The blocks that `serv_create` has looked at are there. -/
structure ServBlocks.Made (s : ServBlocks) : Prop where
  obj : s.obj ≠ none
  access : s.access ≠ none
  workers : s.workers ≠ none
  ques : s.ques ≠ none

/-! ### Creating -/

section Create

variable {grants : ℕ → Bool} {own : Multiset ℕ}

theorem spec_queObjCreateBlocks :
    Spec own (queObjCreateBlocks grants) fun r own' =>
      own' = (r.elim 0 fun q => blocks q.1 + blocks q.2) + own := by
  refine (spec_malloc grants).bind fun obj own₁ h => ?_
  subst h
  split_ifs with hobj
  · exact Spec.pure (by simp [hobj])
  · refine (spec_malloc grants).bind fun buffer own₂ h => ?_
    subst h
    split_ifs with hbuffer
    · rw [hbuffer, blocks_none, zero_add]
      refine (spec_free obj).bind fun _ own₃ h => Spec.pure ?_
      rw [h, Option.elim_none, zero_add]
    · exact Spec.pure (by rw [Option.elim_some]; abel)

theorem spec_servWorker {ques workers : ℕ} (hques : ques ∈ own) (hworkers : workers ∈ own) :
    Spec own (servWorker grants (some ques) (some workers)) fun r own' =>
      own' = (r.elim 0 fun w => blocksOf w.ptrs) + own := by
  refine spec_queObjCreateBlocks.bind fun r own₁ h => ?_
  subst h
  cases r with
  | none => exact Spec.pure rfl
  | some q =>
    refine (spec_touch rfl (Multiset.mem_add.2 (.inr hworkers))).bind fun _ own₂ h => ?_
    subst h
    refine (spec_touch rfl (Multiset.mem_add.2 (.inr hques))).bind fun _ own₃ h => ?_
    subst h
    refine (spec_malloc grants).bind fun rdbuf own₄ h => ?_
    subst h
    refine (spec_malloc grants).bind fun wrbuf own₅ h => Spec.pure ?_
    subst h
    simp only [Option.elim_some, WorkerBlocks.ptrs, blocksOf_cons, blocksOf_nil, blocks_none]
    abel

theorem spec_servWorkers {ques workers : ℕ} (n : ℕ) (hques : ques ∈ own) (hworkers : workers ∈ own) :
    Spec own (servWorkers grants (some ques) (some workers) n) fun r own' =>
      own' = blocksOf (r.1.flatMap WorkerBlocks.ptrs) + own := by
  induction n generalizing own with
  | zero => exact Spec.pure (by simp)
  | succ n ih =>
    refine (spec_servWorker hques hworkers).bind fun r own₁ h => ?_
    subst h
    cases r with
    | none => exact Spec.pure (by simp)
    | some slot =>
      refine (ih (Multiset.mem_add.2 (.inr hques)) (Multiset.mem_add.2 (.inr hworkers))).bind
        fun r own₂ h => Spec.pure ?_
      subst h
      rw [List.flatMap_cons, blocksOf_append, Option.elim_some]
      abel

theorem spec_epollerInit (sys : EpollerSys) :
    Spec own (epollerInit grants sys) fun r own' => own' = blocks r.1.1 + blocks r.1.2 + own := by
  unfold epollerInit
  by_cases hsys : (!sys.create || !sys.nonblk) = true
  · rw [if_pos hsys]
    exact Spec.pure (by simp)
  · rw [if_neg hsys]
    refine (spec_malloc grants).bind fun addInfo own₁ h => ?_
    subst h
    split_ifs with hinfo
    · exact Spec.pure (by simp [hinfo])
    · exact Spec.pure (by simp)
    · refine (spec_malloc grants).bind fun events own₂ h => Spec.pure ?_
      subst h
      abel

theorem spec_accessorInit (sys : EpollerSys) :
    Spec own (accessorInit grants sys) fun r own' => own' = blocksOf r.1.ptrs + own := by
  refine (spec_malloc grants).bind fun rdbuf own₁ h => ?_
  subst h
  refine (spec_malloc grants).bind fun wrbuf own₂ h => ?_
  subst h
  refine (spec_malloc grants).bind fun linker own₃ h => ?_
  subst h
  split_ifs with hlinker
  · refine Spec.pure ?_
    simp only [hlinker, AccessorBlocks.ptrs, blocksOf_cons, blocksOf_nil, blocks_none]
    abel
  · refine (spec_epollerInit sys).bind fun r own₄ h => Spec.pure ?_
    subst h
    simp only [AccessorBlocks.ptrs, blocksOf_cons, blocksOf_nil]
    abel

/-- `serv_create` loses no block of those that it has made. -/
theorem spec_servCreateBlocks (workerNum : ℤ) (sys : EpollerSys) :
    Spec 0 (servCreateBlocks grants workerNum sys) fun r own' =>
      own' = blocksOf r.1.ptrs ∧ (r.2 → r.1.Made) := by
  refine (spec_malloc grants).bind fun obj own₁ h => ?_
  subst h
  split_ifs with hobj
  · exact Spec.pure ⟨by simp [hobj, ServBlocks.ptrs, AccessorBlocks.ptrs], by simp⟩
  refine (spec_malloc grants).bind fun access own₂ h => ?_
  subst h
  split_ifs with haccess
  · exact Spec.pure ⟨by simp [haccess, ServBlocks.ptrs, AccessorBlocks.ptrs], by simp⟩
  refine (spec_malloc grants).bind fun workers own₃ h => ?_
  subst h
  split_ifs with hworkers
  · exact Spec.pure ⟨by
      simp only [hworkers, ServBlocks.ptrs, AccessorBlocks.ptrs, blocksOf_append, blocksOf_cons,
        blocksOf_nil, blocks_none, List.flatMap_nil]
      abel, by simp⟩
  refine (spec_malloc grants).bind fun ques own₄ h => ?_
  subst h
  split_ifs with hques
  · exact Spec.pure ⟨by
      simp only [hques, ServBlocks.ptrs, AccessorBlocks.ptrs, blocksOf_append, blocksOf_cons,
        blocksOf_nil, blocks_none, List.flatMap_nil]
      abel, by simp⟩
  obtain ⟨q, rfl⟩ := Option.ne_none_iff_exists'.1 hques
  obtain ⟨w, rfl⟩ := Option.ne_none_iff_exists'.1 hworkers
  refine (spec_servWorkers _ (by simp) (by simp)).bind fun r own₅ h => ?_
  subst h
  obtain ⟨slots, made⟩ := r
  dsimp only
  split_ifs with hmade
  · exact Spec.pure ⟨by
      simp only [ServBlocks.ptrs, AccessorBlocks.ptrs, blocksOf_append, blocksOf_cons,
        blocksOf_nil, blocks_none]
      abel, by simp⟩
  refine (spec_accessorInit sys).bind fun r own₆ h =>
    Spec.pure ⟨?_, fun _ => ⟨hobj, haccess, hworkers, hques⟩⟩
  subst h
  simp only [ServBlocks.ptrs, blocksOf_append, blocksOf_cons, blocksOf_nil]
  abel

end Create

/-! ### Setting contexts -/

section Contexts

variable {grants : ℕ → Bool} {own : Multiset ℕ} {workers : ℕ}

theorem spec_setWorkCb (cb : WorkCb) (slots : List WorkerBlocks) (hworkers : workers ∈ own) :
    Spec (blocksOf (slots.flatMap WorkerBlocks.ptrs) + own)
      (setWorkCb grants (some workers) cb slots) fun r own' =>
        own' = blocksOf (r.1.flatMap WorkerBlocks.ptrs) + blocksOf r.2 + own := by
  induction slots generalizing own with
  | nil => exact Spec.pure (by simp)
  | cons slot slots ih =>
    have hmem : ∀ own₁ : Multiset ℕ, workers ∈ own₁ + own := fun own₁ =>
      Multiset.mem_add.2 (.inr hworkers)
    refine (spec_touch rfl (hmem _)).bind fun _ own₁ h => ?_
    subst h
    by_cases hctx : (!cb.ctx) = true
    · rw [if_pos hctx, List.flatMap_cons, blocksOf_append, add_comm (blocksOf slot.ptrs), add_assoc]
      refine (ih (hmem _)).bind fun r own₂ h => Spec.pure ?_
      subst h
      rw [List.flatMap_cons, blocksOf_append]
      abel
    · rw [if_neg hctx]
      refine (spec_malloc grants).bind fun p own₂ h => ?_
      subst h
      split_ifs with hp
      · exact Spec.pure (by simp [hp])
      refine (spec_touch rfl (Multiset.mem_add.2 (.inr (hmem _)))).bind fun _ own₃ h => ?_
      subst h
      rw [List.flatMap_cons, blocksOf_append, add_comm (blocksOf slot.ptrs), add_assoc,
        add_left_comm (blocks p)]
      refine (ih (Multiset.mem_add.2 (.inr (hmem _)))).bind fun r own₄ h => Spec.pure ?_
      subst h
      simp only [List.flatMap_cons, blocksOf_append, WorkerBlocks.ptrs, blocksOf_cons, blocksOf_nil]
      abel

theorem spec_servSetWorkCb (s : ServBlocks) (cb : WorkCb) (hs : s.Made) :
    Spec (blocksOf s.ptrs) (servSetWorkCb grants s cb) fun s' own' =>
      own' = blocksOf s'.ptrs ∧ s'.Made := by
  obtain ⟨b, hb⟩ := Option.ne_none_iff_exists'.1 hs.obj
  obtain ⟨w, hw⟩ := Option.ne_none_iff_exists'.1 hs.workers
  refine (spec_touch hb (by simp [ServBlocks.ptrs, hb])).bind fun _ own₁ h => ?_
  subst h
  have hsplit : blocksOf s.ptrs = blocksOf (s.slots.flatMap WorkerBlocks.ptrs) +
      (blocksOf [s.obj, s.access, s.workers, s.ques] + blocksOf s.accessor.ptrs +
        blocksOf s.lost) := by
    simp only [ServBlocks.ptrs, blocksOf_append]
    abel
  rw [hsplit, hw]
  refine (spec_setWorkCb cb s.slots (by simp)).bind fun r own₂ h => Spec.pure ⟨?_, ?_⟩
  · subst h
    simp only [ServBlocks.ptrs, blocksOf_append]
    abel
  · exact ⟨hs.obj, hs.access, nofun, hs.ques⟩

theorem spec_setWorkCbs (cbs : List WorkCb) (s : ServBlocks) (hs : s.Made) :
    Spec (blocksOf s.ptrs) (cbs.foldlM (servSetWorkCb grants) s) fun s' own' =>
      own' = blocksOf s'.ptrs ∧ s'.Made := by
  induction cbs generalizing s with
  | nil => exact Spec.pure ⟨rfl, hs⟩
  | cons cb cbs ih =>
    rw [List.foldlM_cons]
    refine (spec_servSetWorkCb s cb hs).bind fun s' own' h => ?_
    obtain ⟨rfl, hs'⟩ := h
    exact ih s' hs'

end Contexts

/-! ### Destroying -/

/-- A context that is cleaned is freed. -/
def WorkerBlocks.cleaned (w : WorkerBlocks) : Ptr :=
  if w.ctx ≠ none ∧ w.cleans then w.ctx else none

section Destroy

variable {own : Multiset ℕ}

theorem spec_freeContexts {workers : ℕ} (slots : List WorkerBlocks) (hworkers : workers ∈ own) :
    Spec (blocksOf (slots.map WorkerBlocks.cleaned) + own) (freeContexts (some workers) slots)
      fun _ own' => own' = own := by
  induction slots with
  | nil => exact Spec.pure (by simp)
  | cons slot slots ih =>
    refine (spec_touch rfl (Multiset.mem_add.2 (.inr hworkers))).bind fun _ own₁ h => ?_
    subst h
    rw [List.map_cons, blocksOf_cons, WorkerBlocks.cleaned, add_assoc]
    split_ifs with hclean
    · refine (spec_free slot.ctx).bind fun _ own₂ h => ?_
      subst h
      exact ih
    · rw [blocks_none, zero_add]
      exact ih

theorem spec_freeQueues {ques : ℕ} (slots : List WorkerBlocks) (hques : ques ∈ own) :
    Spec (blocksOf (slots.map WorkerBlocks.que) + own) (freeQueues (some ques) slots)
      fun _ own' => own' = own := by
  induction slots with
  | nil => exact Spec.pure (by simp)
  | cons slot slots ih =>
    refine (spec_touch rfl (Multiset.mem_add.2 (.inr hques))).bind fun _ own₁ h => ?_
    subst h
    rw [List.map_cons, blocksOf_cons, add_assoc]
    refine (spec_free slot.que).bind fun _ own₂ h => ?_
    subst h
    exact ih

/-- The blocks of a worker are its context, if it is cleaned, its queue and what it leaves. -/
theorem blocksOf_worker (slots : List WorkerBlocks) :
    blocksOf (slots.flatMap WorkerBlocks.ptrs) = blocksOf (slots.map WorkerBlocks.cleaned) +
      (blocksOf (slots.map WorkerBlocks.que) + blocksOf (slots.flatMap WorkerBlocks.leaked)) := by
  induction slots with
  | nil => rfl
  | cons slot slots ih =>
    rw [List.flatMap_cons, blocksOf_append, ih, List.map_cons, List.map_cons, List.flatMap_cons,
      blocksOf_cons, blocksOf_cons, blocksOf_append, WorkerBlocks.ptrs, WorkerBlocks.cleaned,
      WorkerBlocks.leaked]
    split_ifs
    · simp only [blocksOf_append, blocksOf_cons, blocksOf_nil]
      abel
    · simp only [blocksOf_append, blocksOf_cons, blocksOf_nil, blocks_none]
      abel

/-- `serv_destroy` frees each block of the server that it finds, once. -/
theorem spec_servDestroyBlocks (s : ServBlocks) (hs : s.Made) :
    Spec (blocksOf s.ptrs) (servDestroyBlocks s) fun _ own' =>
      own' = blocks s.obj + blocksOf s.leaked := by
  obtain ⟨b, hb⟩ := Option.ne_none_iff_exists'.1 hs.obj
  obtain ⟨w, hw⟩ := Option.ne_none_iff_exists'.1 hs.workers
  obtain ⟨a, ha⟩ := Option.ne_none_iff_exists'.1 hs.access
  obtain ⟨q, hq⟩ := Option.ne_none_iff_exists'.1 hs.ques
  have hsplit : blocksOf s.ptrs = blocksOf (s.slots.map WorkerBlocks.cleaned) +
      (blocks s.workers + (blocksOf (s.slots.map WorkerBlocks.que) +
        (blocks s.access + (blocks s.obj + blocksOf s.leaked)))) := by
    rw [ServBlocks.ptrs, blocksOf_append, blocksOf_append, blocksOf_append, blocksOf_worker,
      ServBlocks.leaked]
    simp only [blocksOf_append, blocksOf_cons, blocksOf_nil, List.cons_append]
    abel
  refine (spec_touch hb (by simp [ServBlocks.ptrs, hb])).bind fun _ own₁ h => ?_
  subst h
  rw [hsplit, hw]
  refine (spec_freeContexts s.slots (by simp)).bind fun _ own₂ h => ?_
  subst h
  refine (spec_free (some w)).bind fun _ own₃ h => ?_
  subst h
  rw [if_pos hs.access]
  refine (spec_touch ha (by simp [ha])).bind fun _ own₄ h => ?_
  subst h
  rw [hq]
  refine (spec_freeQueues s.slots (by simp [ServBlocks.leaked, hq])).bind fun _ own₅ h => ?_
  subst h
  exact spec_free s.access

end Destroy

/-- **The memory of a server**, whichever requests for memory and calls of the system fail: nothing
is freed twice or used behind its end, and what is left in the end is the array of the queues, their
buffers, those of the workers and of the accessor, and each context that has no function that cleans
it or has been replaced. -/
theorem serv_memory (grants : ℕ → Bool) (workerNum : ℤ) (sys : EpollerSys) (cbs : List WorkCb) :
    Spec 0 (servSession grants workerNum sys cbs) fun r own' =>
      ∀ s, r = some s → own' = blocksOf s.leaked := by
  refine (spec_servCreateBlocks workerNum sys).bind fun r own₁ h => ?_
  obtain ⟨s, made⟩ := r
  obtain ⟨rfl, hmade⟩ := h
  dsimp only at hmade ⊢
  split_ifs with hno
  · exact Spec.pure nofun
  refine (spec_setWorkCbs cbs s (hmade (by simpa using hno))).bind fun s' own₂ h => ?_
  obtain ⟨rfl, hs'⟩ := h
  refine (spec_servDestroyBlocks s' hs').bind fun _ own₃ h => ?_
  subst h
  refine (spec_free s'.obj).bind fun _ own₄ h => Spec.pure ?_
  subst h
  rintro _ ⟨⟩
  rfl

end F1Goal
