import F1Goal.Lib.Lts
import F1Goal.Socket

/-!
# The worker loop (`worker_cb_dft` of `f1g_server.c`)

A worker takes one record after the other from its queue. For a record of status `SST_DATA_IN` it
receives into its read buffer, clears its write buffer and calls the data callback `p_proc_f` when
bytes have come in; then, for every record, it acts on `proc_stat`. The buffers and `proc_stat` live
as long as the worker does, so what one record leaves in them is there when the next one is handled.

`worker_safe_iff` says when each response goes to the connection whose record caused it.
-/

namespace F1Goal

/-- `PROC_ST_INIT` … `PROC_ST_ERR`; a callback may store any other value. -/
inductive ProcStat
  | init
  | brkout
  | sendbuf
  | err
  | other (n : ℤ)
  deriving DecidableEq, Repr

/-- What a data callback returns and leaves behind. -/
structure ProcOut (Ctx : Type) where
  ret : ℤ
  ctx : Ctx
  rdbuf : Buffer
  wrbuf : Buffer
  procStat : ProcStat

/-- A data callback `worker_data_fproc_p`: context, read buffer, write buffer and status. -/
abbrev ProcFn (Ctx : Type) := Ctx → Buffer → Buffer → ProcStat → ProcOut Ctx

/-- The bytes of the answer of `worker_data_fproc_dft`. -/
def response : List UInt8 :=
  [10, 9, 32, 115, 111, 32, 105, 116, 39, 115, 32, 109, 121, 32, 114, 101, 115, 112, 111, 110, 115,
    101]

/-- `worker_data_fproc_dft`: echo what was read, add the answer, ask for it to be sent. -/
def workerDataFprocDft {Ctx : Type} : ProcFn Ctx := fun ctx rdbuf wrbuf _ =>
  let wrbuf := (bufferAppend wrbuf (some rdbuf.contents)).2
  let wrbuf := (bufferAppend wrbuf (some response)).2
  { ret := 0, ctx := ctx, rdbuf := rdbuf, wrbuf := wrbuf, procStat := .sendbuf }

/-- A system call on a descriptor. -/
inductive FdOp
  | accept (fd : ℤ)
  | recv (fd : ℤ)
  | send (fd : ℤ)
  | close (fd : ℤ)
  deriving DecidableEq, Repr

/-- What the worker did with one record: the bytes that the callback, if called, has appended to the
write buffer; the response sent; and the calls on descriptors, in order. -/
structure Handled where
  record : SockInfo
  appended : Option (List UInt8)
  sent : Option Sent
  ops : List FdOp

/-- `worker_t` with the locals of `worker_cb_dft` that outlive a record; `running` is cleared when
the loop is left, and `log` keeps what has been done. -/
structure Worker (Ctx : Type) where
  ctx : Ctx
  rdbuf : Buffer
  wrbuf : Buffer
  procStat : ProcStat
  running : Bool
  log : List Handled

variable {Ctx : Type}

/-- A worker before its first record. -/
def workerStart (ctx : Ctx) (rdbuf wrbuf : Buffer) : Worker Ctx :=
  { ctx := ctx, rdbuf := rdbuf, wrbuf := wrbuf, procStat := .init, running := true, log := [] }

/-- The worker after the `SST_DATA_IN` branch, and what it did there; `broke` says that the callback
refused the data, so that the loop was left by `break`. -/
structure DataIn (Ctx : Type) where
  worker : Worker Ctx
  appended : Option (List UInt8)
  broke : Bool
  ops : List FdOp

/-- The `SST_DATA_IN` branch: receive, call the callback on what came in, close on `RECV_DISC`. -/
def workerDataIn (proc : ProcFn Ctx) (w : Worker Ctx) (fd : ℤ) (rx : List RecvRes) : DataIn Ctx :=
  let got := nonblkRecvfrom (bufferClear w.rdbuf) rx
  let rdbuf := got.2.1
  let wrbuf := bufferClear w.wrbuf
  let recvs := List.replicate got.2.2 (FdOp.recv fd)
  let closes := if got.1.disc then [FdOp.close fd] else []
  if got.1.ok ∧ 0 < rdbuf.len then
    let out := proc w.ctx rdbuf wrbuf w.procStat
    let w := { w with
      ctx := out.ctx, rdbuf := out.rdbuf, wrbuf := out.wrbuf, procStat := out.procStat }
    let appended := out.wrbuf.contents.drop wrbuf.contents.length
    if out.ret ≠ 0 then ⟨{ w with running := false }, some appended, true, recvs⟩
    else ⟨w, some appended, false, recvs ++ closes⟩
  else ⟨{ w with rdbuf := rdbuf, wrbuf := wrbuf }, none, false, recvs ++ closes⟩

/-- `switch (proc_stat)`, after the bytes `appended` and the calls `ops`. -/
def workerSwitch (w : Worker Ctx) (r : SockInfo) (appended : Option (List UInt8))
    (ops : List FdOp) : Worker Ctx × Handled :=
  match w.procStat with
  | .init => (w, ⟨r, appended, none, ops⟩)
  | .brkout => ({ w with running := false }, ⟨r, appended, none, ops⟩)
  | .sendbuf =>
    (w, ⟨r, appended, some (nonblkSendto r.fd r.srcIp r.srcPort w.wrbuf), ops ++ [.send r.fd]⟩)
  | .err => (w, ⟨r, appended, none, ops⟩)
  | .other _ => (w, ⟨r, appended, none, ops⟩)

/-- One turn of the loop of `worker_cb_dft`: the record `r`, whose receive goes as `rx`. -/
def workerTurn (proc : ProcFn Ctx) (w : Worker Ctx) (r : SockInfo) (rx : List RecvRes) :
    Worker Ctx × Handled :=
  let d := if r.sockStatus = .dataIn then workerDataIn proc w r.fd rx else ⟨w, none, false, []⟩
  if d.broke then (d.worker, ⟨r, d.appended, none, d.ops⟩)
  else workerSwitch d.worker r d.appended d.ops

/-- The loop as a machine: the label is the next record of the queue and how its receive goes. -/
def workerStep (proc : ProcFn Ctx) (w : Worker Ctx) (a : SockInfo × List RecvRes) :
    Option (Worker Ctx) :=
  if w.running then
    let t := workerTurn proc w a.1 a.2
    some { t.1 with log := t.1.log ++ [t.2] }
  else none

/-- A response is made of bytes that the callback appended for the same record. -/
def Handled.Own (h : Handled) : Prop :=
  ∀ s, h.sent = some s → ∃ app, h.appended = some app ∧ s.bytes <:+: app

/-- Every response sent so far went to the connection whose record caused it. -/
def WorkerSafe (w : Worker Ctx) : Prop := ∀ h ∈ w.log, h.Own

/-- The callback is called for the record `r`: its receive reports bytes and no error. -/
def ProcCalled (w : Worker Ctx) (r : SockInfo) (rx : List RecvRes) : Prop :=
  r.sockStatus = .dataIn ∧ (nonblkRecvfrom (bufferClear w.rdbuf) rx).1.ok = true ∧
    0 < (nonblkRecvfrom (bufferClear w.rdbuf) rx).2.1.len

/-- The record finds no request to send left over from an earlier one, or has the callback called,
which answers for itself. -/
def NoStaleSend (w : Worker Ctx) (a : SockInfo × List RecvRes) : Prop :=
  w.procStat = .sendbuf → ProcCalled w a.1 a.2

/-! ### One record -/

theorem bufferClear_contents (b : Buffer) : (bufferClear b).contents = [] := rfl

theorem workerDataIn_called (proc : ProcFn Ctx) {w : Worker Ctx} {r : SockInfo} {rx : List RecvRes}
    (h : ProcCalled w r rx) :
    (workerDataIn proc w r.fd rx).appended =
      some (workerDataIn proc w r.fd rx).worker.wrbuf.contents := by
  unfold workerDataIn
  simp only [if_pos h.2, bufferClear_contents, List.length_nil, List.drop_zero]
  split_ifs <;> rfl

theorem workerDataIn_not_called (proc : ProcFn Ctx) {w : Worker Ctx} {r : SockInfo}
    {rx : List RecvRes} (hr : r.sockStatus = .dataIn) (h : ¬ ProcCalled w r rx) :
    (workerDataIn proc w r.fd rx).appended = none ∧
      (workerDataIn proc w r.fd rx).broke = false ∧
      (workerDataIn proc w r.fd rx).worker.procStat = w.procStat := by
  unfold workerDataIn
  simp only [if_neg (fun hc => h ⟨hr, hc⟩), and_self]

theorem workerSwitch_sent (w : Worker Ctx) (r : SockInfo) (appended : Option (List UInt8))
    (ops : List FdOp) : (workerSwitch w r appended ops).2.sent =
      if w.procStat = .sendbuf then some (nonblkSendto r.fd r.srcIp r.srcPort w.wrbuf)
      else none := by
  unfold workerSwitch
  cases w.procStat <;> rfl

theorem workerSwitch_appended (w : Worker Ctx) (r : SockInfo) (appended : Option (List UInt8))
    (ops : List FdOp) : (workerSwitch w r appended ops).2.appended = appended := by
  unfold workerSwitch
  cases w.procStat <;> rfl

/-- A record that has the callback called is answered from what the callback appended. -/
theorem own_of_called {proc : ProcFn Ctx} {w : Worker Ctx} {r : SockInfo} {rx : List RecvRes}
    (h : ProcCalled w r rx) : (workerTurn proc w r rx).2.Own := by
  intro s hs
  have happ := workerDataIn_called proc h
  simp only [workerTurn, if_pos h.1] at hs ⊢
  generalize workerDataIn proc w r.fd rx = d at happ hs ⊢
  by_cases hb : d.broke = true
  · simp only [if_pos hb] at hs
    cases hs
  · simp only [if_neg hb, workerSwitch_sent, workerSwitch_appended] at hs ⊢
    split_ifs at hs
    cases hs
    exact ⟨_, happ, List.infix_rfl⟩

/-- A record that does not have the callback called is answered exactly when an earlier one has
left the request to send. -/
theorem own_iff_of_not_called {proc : ProcFn Ctx} {w : Worker Ctx} {r : SockInfo}
    {rx : List RecvRes} (h : ¬ ProcCalled w r rx) :
    (workerTurn proc w r rx).2.Own ↔ w.procStat ≠ .sendbuf := by
  have hturn : ∃ d : DataIn Ctx, d.appended = none ∧ d.worker.procStat = w.procStat ∧
      workerTurn proc w r rx = workerSwitch d.worker r d.appended d.ops := by
    by_cases hr : r.sockStatus = .dataIn
    · obtain ⟨h1, h2, h3⟩ := workerDataIn_not_called proc hr h
      exact ⟨_, h1, h3, by simp only [workerTurn, if_pos hr, h2, if_neg Bool.false_ne_true]⟩
    · exact ⟨⟨w, none, false, []⟩, rfl, rfl,
        by simp only [workerTurn, if_neg hr, if_neg Bool.false_ne_true]⟩
  obtain ⟨d, h1, h2, heq⟩ := hturn
  rw [heq, Handled.Own, workerSwitch_sent, workerSwitch_appended, h1, h2]
  by_cases hp : w.procStat = .sendbuf <;> simp [hp]

/-- **One record is answered from its own data exactly when it finds no stale request to send.** -/
theorem own_iff (proc : ProcFn Ctx) (w : Worker Ctx) (a : SockInfo × List RecvRes) :
    (workerTurn proc w a.1 a.2).2.Own ↔ NoStaleSend w a := by
  by_cases h : ProcCalled w a.1 a.2
  · exact iff_of_true (own_of_called h) fun _ => h
  · rw [own_iff_of_not_called h]
    exact ⟨fun hne heq => absurd heq hne, fun hs heq => h (hs heq)⟩

/-! ### Runs -/

theorem workerDataIn_log (proc : ProcFn Ctx) (w : Worker Ctx) (fd : ℤ) (rx : List RecvRes) :
    (workerDataIn proc w fd rx).worker.log = w.log := by
  unfold workerDataIn
  dsimp only
  split_ifs <;> rfl

theorem workerTurn_log (proc : ProcFn Ctx) (w : Worker Ctx) (r : SockInfo) (rx : List RecvRes) :
    (workerTurn proc w r rx).1.log = w.log := by
  have hsw : ∀ (u : Worker Ctx) (app : Option (List UInt8)) (ops : List FdOp),
      (workerSwitch u r app ops).1.log = u.log := by
    intro u app ops
    unfold workerSwitch
    cases u.procStat <;> rfl
  unfold workerTurn
  dsimp only
  by_cases hr : r.sockStatus = .dataIn
  · rw [if_pos hr]
    split_ifs
    · exact workerDataIn_log proc w r.fd rx
    · rw [hsw, workerDataIn_log]
  · rw [if_neg hr, if_neg Bool.false_ne_true, hsw]

theorem workerStep_safe_iff {proc : ProcFn Ctx} {w w' : Worker Ctx} {a : SockInfo × List RecvRes}
    (hw : WorkerSafe w) (h : workerStep proc w a = some w') : WorkerSafe w' ↔ NoStaleSend w a := by
  unfold workerStep at h
  split_ifs at h
  cases h
  simp only [WorkerSafe, workerTurn_log, List.forall_mem_append, List.forall_mem_singleton]
  rw [own_iff]
  exact and_iff_right hw

/-- **No response crosses connections exactly as long as no request to send is left over.** Whatever
the callback and the receives do, a worker sends at every moment of its run only bytes that the
callback appended for the same record, if and only if no record that does not have the callback
called is taken while `proc_stat` is still `PROC_ST_SENDBUF`. -/
theorem worker_safe_iff (proc : ProcFn Ctx) (ctx : Ctx) (rdbuf wrbuf : Buffer)
    (records : List (SockInfo × List RecvRes)) :
    Lts.SafePrefixes (workerStep proc) WorkerSafe (workerStart ctx rdbuf wrbuf) records ↔
      Lts.Guarded (workerStep proc) NoStaleSend (workerStart ctx rdbuf wrbuf) records :=
  Lts.safe_prefixes_iff_guarded WorkerSafe
    (fun _ _ _ hs ht => workerStep_safe_iff hs ht) (fun _ _ _ _ _ ht => ht)
    (fun _ hm => absurd hm List.not_mem_nil) (fun _ hm => absurd hm List.not_mem_nil) records

/-- A byte `A` from descriptor 5, then a connection accepted as descriptor 6. -/
def crossing : List (SockInfo × List RecvRes) :=
  [(⟨5, 16777343, 1, .dataIn⟩, [.data [65]]), (⟨6, 16777343, 2, .init⟩, [])]

/-- The answer to descriptor 5 is sent to descriptor 6 as well. -/
theorem worker_answer_crosses : ¬ ∀ (proc : ProcFn Unit) (rdbuf wrbuf : Buffer)
    (records : List (SockInfo × List RecvRes)),
    Lts.SafePrefixes (workerStep proc) WorkerSafe (workerStart () rdbuf wrbuf) records := by
  intro h
  let b : Buffer := ⟨.allo, 2048, 0, fun _ => 0, false⟩
  have hs := h workerDataFprocDft b b crossing _ (List.prefix_refl _) _ rfl
  have hown := hs _ (List.mem_append_right _ (List.mem_singleton.2 rfl)) _ rfl
  obtain ⟨app, happ, -⟩ := hown
  cases happ

end F1Goal
