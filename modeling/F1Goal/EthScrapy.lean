import F1Goal.Lib.Lts

/-!
# Starting and stopping a capture (`f1g_eth_scrapy.c`)

`eth_scrapy_start` starts a thread that captures while `run_flag` says so, and `ETH_SCRAPY_STOP` sets
the flag and waits a while. Nothing joins a thread, and it sets the flag itself when it begins. So a
stop is lost when a thread has not begun yet (`stop_sticks_iff`), and it is safe to close the
interface behind it exactly when no thread has anything left to capture (`stop_destroy_safe_iff`).
The main program cannot see to that: once it has started a thread, no calls that close the interface
are safe (`scrapy_safe_iff`).

A step is a statement of a thread. A handle of an open interface is a number; a capture on a handle
that is not open, or that is closed meanwhile, is a fault.
-/

namespace F1Goal

/-- `SCRAPY_INIT`, `SCRAPY_RUNNING`, `SCRAPY_OFF` -/
inductive RunFlag
  | init
  | running
  | off
  deriving DecidableEq

/-- Where a thread is in `eth_scrapy_callback`. -/
inductive ScrapyPc
  /-- before the flag is set -/
  | start
  /-- at the head of the loop -/
  | test
  /-- before `pcap_dispatch` -/
  | call
  /-- in `pcap_dispatch` with a handle -/
  | inside (handle : ℕ)
  /-- behind the loop -/
  | leave
  | ended
  deriving DecidableEq

structure Scrapy where
  runFlag : RunFlag
  /-- `sg_scraper` -/
  scraper : Option ℕ
  /-- how many handles `pcap` has given -/
  opened : ℕ
  threads : List ScrapyPc
  fault : Bool

/-- How far a call of `eth_scrapy_init` gets. -/
inductive InitRes
  /-- the type or the network of the interface is not known -/
  | refused
  /-- there is no handle -/
  | notOpened
  /-- the handle is closed again, behind `pcap_setnonblock` to `pcap_setfilter` -/
  | notSet
  | ok

/-- `eth_scrapy_init` -/
def ethScrapyInit (s : Scrapy) : InitRes → Scrapy
  | .refused => s
  | .notOpened => { s with scraper := none }
  | .notSet => { s with scraper := none, opened := s.opened + 1 }
  | .ok => { s with scraper := some s.opened, opened := s.opened + 1, runFlag := .init }

/-- `eth_scrapy_start`, when the thread can be created or not. -/
def ethScrapyStart (s : Scrapy) (created : Bool) : Scrapy :=
  if created then { s with threads := s.threads ++ [.start] } else s

/-- `eth_scrapy_control(ETH_SCRAPY_STOP)` -/
def ethScrapyStop (s : Scrapy) : Scrapy := { s with runFlag := .off }

/-- `eth_scrapy_control(ETH_SCRAPY_START)` -/
def ethScrapyResume (s : Scrapy) : Scrapy := { s with runFlag := .running }

/-- `eth_scrapy_destroy` -/
def ethScrapyDestroy (s : Scrapy) : Scrapy :=
  match s.scraper with
  | none => { s with fault := true }
  | some handle =>
    { s with scraper := none, fault := decide (ScrapyPc.inside handle ∈ s.threads) }

def Scrapy.at (s : Scrapy) (k : ℕ) (pc : ScrapyPc) : Scrapy :=
  { s with threads := s.threads.set k pc }

/-- A statement of `eth_scrapy_callback` in the thread `k`, where `err` says that `pcap_dispatch`
returns -1. -/
def ethScrapyCallback (s : Scrapy) : ℕ × Bool → Option Scrapy
  | (k, err) =>
    if s.fault then none else
      match s.threads[k]? with
      | some .start => some { s.at k .test with runFlag := .running }
      | some .test => some (s.at k (if s.runFlag = .running then .call else .leave))
      | some .call =>
        match s.scraper with
        | some handle => some (s.at k (.inside handle))
        | none => some { s with fault := true }
      | some (.inside _) => some (s.at k (if err then .leave else .test))
      | some .leave => some { s.at k .ended with runFlag := .off }
      | some .ended => none
      | none => none

/-- A call of the main program, with its outcome. -/
inductive ScrapyCall
  | init (res : InitRes)
  | start (created : Bool)
  | stop
  | resume
  | destroy

/-- What a call does. -/
def ScrapyCall.run (s : Scrapy) : ScrapyCall → Scrapy
  | .init res => ethScrapyInit s res
  | .start created => ethScrapyStart s created
  | .stop => ethScrapyStop s
  | .resume => ethScrapyResume s
  | .destroy => ethScrapyDestroy s

/-- A call of the main program, or a statement of a thread. -/
def scrapyStep (s : Scrapy) : ScrapyCall ⊕ (ℕ × Bool) → Option Scrapy
  | .inl call => if s.fault then none else some (call.run s)
  | .inr act => ethScrapyCallback s act

/-- How many statements a thread has left behind a stop, once it has begun. -/
def ScrapyPc.left : ScrapyPc → ℕ
  | .start => 0
  | .test => 2
  | .call => 4
  | .inside _ => 3
  | .leave => 1
  | .ended => 0

/-- What the thread `k` has left. -/
def Scrapy.left (s : Scrapy) (k : ℕ) : ℕ := s.threads[k]?.elim 0 ScrapyPc.left

/-- The threads run alone. -/
abbrev Scrapy.Runs (s t : Scrapy) : Prop :=
  ∃ acts : List (ℕ × Bool), Lts.run ethScrapyCallback s acts = some t

variable {s t : Scrapy} {k : ℕ} {err : Bool} {pc : ScrapyPc}

/-! ### A statement of a thread -/

@[simp] theorem at_runFlag : (s.at k pc).runFlag = s.runFlag := rfl

@[simp] theorem at_scraper : (s.at k pc).scraper = s.scraper := rfl

@[simp] theorem at_fault : (s.at k pc).fault = s.fault := rfl

theorem at_threads {old : ScrapyPc} (h : s.threads[k]? = some old) :
    (s.at k pc).threads[k]? = some pc :=
  List.getElem?_set_self (List.getElem?_eq_some_iff.1 h).1

/-- The threads behind a statement of one of them. -/
theorem mem_at {pc' : ScrapyPc} (h : pc' ∈ (s.at k pc).threads) : pc' ∈ s.threads ∨ pc' = pc :=
  List.mem_or_eq_of_mem_set h

/-- **What a statement of a thread does**: it goes on, with the flag as it was unless it is the
first or the last statement, or it captures on no handle. -/
theorem callback_cases (h : ethScrapyCallback s (k, err) = some t) :
    s.fault = false ∧ ∃ old, s.threads[k]? = some old ∧ match old with
      | .start => t = { s.at k .test with runFlag := .running }
      | .test => t = s.at k (if s.runFlag = .running then .call else .leave)
      | .call => (∃ handle, s.scraper = some handle ∧ t = s.at k (.inside handle)) ∨
          s.scraper = none ∧ t = { s with fault := true }
      | .inside _ => t = s.at k (if err then .leave else .test)
      | .leave => t = { s.at k .ended with runFlag := .off }
      | .ended => False := by
  cases hfault : s.fault with
  | true => simp [ethScrapyCallback, hfault] at h
  | false =>
    refine ⟨rfl, ?_⟩
    simp only [ethScrapyCallback, hfault, Bool.false_eq_true, if_false] at h
    cases hpc : s.threads[k]? with
    | none => simp [hpc] at h
    | some old =>
      refine ⟨old, rfl, ?_⟩
      rw [hpc] at h
      cases old with
      | call =>
        cases hscraper : s.scraper with
        | none =>
          rw [hscraper] at h
          exact .inr ⟨rfl, (Option.some.inj h).symm⟩
        | some handle =>
          rw [hscraper] at h
          exact .inl ⟨handle, rfl, (Option.some.inj h).symm⟩
      | ended => cases h
      | _ => exact (Option.some.inj h).symm

theorem callback_start (hfault : s.fault = false) (h : s.threads[k]? = some .start) :
    ethScrapyCallback s (k, err) = some { s.at k .test with runFlag := .running } := by
  simp [ethScrapyCallback, hfault, h]

theorem callback_test (err : Bool) (hfault : s.fault = false) (h : s.threads[k]? = some .test)
    (hflag : s.runFlag = .running) : ethScrapyCallback s (k, err) = some (s.at k .call) := by
  simp [ethScrapyCallback, hfault, h, hflag]

theorem callback_call (hfault : s.fault = false) (h : s.threads[k]? = some .call)
    (hscraper : s.scraper = none) :
    ethScrapyCallback s (k, err) = some { s with fault := true } := by
  simp [ethScrapyCallback, hfault, h, hscraper]

/-! ### Behind a stop -/

/-- The flag is off, and no thread sets it. -/
structure Scrapy.Stopped (s : Scrapy) : Prop where
  off : s.runFlag = .off
  begun : ScrapyPc.start ∉ s.threads

theorem left_of {old : ScrapyPc} (h : s.threads[k]? = some old) : s.left k = old.left := by
  rw [Scrapy.left, h]
  rfl

theorem left_at_self {old : ScrapyPc} (h : s.threads[k]? = some old) :
    (s.at k pc).left k = pc.left := left_of (at_threads h)

theorem left_at_ne {j : ℕ} (h : k ≠ j) : (s.at k pc).left j = s.left j := by
  rw [Scrapy.left, Scrapy.left, Scrapy.at, List.getElem?_set_ne h]

/-- **A stop stays one**, and each statement is one of those that its thread has left. -/
theorem Scrapy.Stopped.step (h : s.Stopped) (hstep : ethScrapyCallback s (k, err) = some t) (j : ℕ) :
    t.Stopped ∧ (if k = j then 1 else 0) + (if t.fault then 0 else t.left j) ≤ s.left j := by
  obtain ⟨hfault, old, hold, hcases⟩ := callback_cases hstep
  have hmem := List.mem_of_getElem? hold
  -- the thread goes on to `pc`, which leaves it fewer statements
  have hgo {pc : ScrapyPc} (hbegun : pc ≠ .start) (hless : pc.left < old.left) :
      (s.at k pc).Stopped ∧
        (if k = j then 1 else 0) + (if (s.at k pc).fault then 0 else (s.at k pc).left j) ≤
          s.left j := by
    refine ⟨⟨h.off, fun hmem => (mem_at hmem).elim h.begun hbegun.symm⟩, ?_⟩
    rw [at_fault, hfault, if_neg Bool.false_ne_true]
    by_cases hj : k = j
    · subst hj
      rw [if_pos rfl, left_at_self hold, left_of hold]
      omega
    · rw [if_neg hj, left_at_ne hj]
      omega
  cases old with
  | start => exact absurd hmem h.begun
  | ended => exact hcases.elim
  | test =>
    rw [h.off] at hcases
    subst hcases
    exact hgo ScrapyPc.noConfusion (by decide)
  | call =>
    rcases hcases with ⟨handle, -, rfl⟩ | ⟨-, rfl⟩
    · exact hgo ScrapyPc.noConfusion (by simp [ScrapyPc.left])
    · refine ⟨⟨h.off, h.begun⟩, ?_⟩
      rw [if_pos rfl]
      by_cases hj : k = j
      · subst hj
        rw [if_pos rfl, left_of hold]
        decide
      · rw [if_neg hj]
        exact Nat.zero_le _
  | inside handle =>
    subst hcases
    cases err with
    | false => exact hgo ScrapyPc.noConfusion (by simp [ScrapyPc.left])
    | true => exact hgo ScrapyPc.noConfusion (by simp [ScrapyPc.left])
  | leave =>
    subst hcases
    obtain ⟨hstopped, hleft⟩ := @hgo .ended ScrapyPc.noConfusion (by decide)
    exact ⟨⟨rfl, hstopped.begun⟩, hleft⟩

theorem Scrapy.Stopped.run (h : s.Stopped) {acts : List (ℕ × Bool)}
    (hrun : Lts.run ethScrapyCallback s acts = some t) (j : ℕ) :
    t.Stopped ∧ (acts.map Prod.fst).count j + (if t.fault then 0 else t.left j) ≤ s.left j := by
  induction acts generalizing s with
  | nil =>
    cases hrun
    refine ⟨h, ?_⟩
    rw [List.map_nil, List.count_nil]
    split_ifs <;> omega
  | cons a acts ih =>
    obtain ⟨k, err⟩ := a
    obtain ⟨u, hu, hrun⟩ := Option.bind_eq_some_iff.1 hrun
    obtain ⟨hstopped, hleft⟩ := h.step hu j
    obtain ⟨ht, hcount⟩ := ih hstopped hrun
    refine ⟨ht, ?_⟩
    simp only [List.map_cons, List.count_cons, beq_iff_eq]
    cases hfault : u.fault with
    | false =>
      rw [hfault, if_neg Bool.false_ne_true] at hleft
      omega
    | true =>
      -- behind a fault there is no statement
      cases acts with
      | nil =>
        cases hrun
        rw [hfault, if_pos rfl] at hleft ⊢
        simpa using hleft
      | cons b acts =>
        obtain ⟨v, hv, -⟩ := Option.bind_eq_some_iff.1 hrun
        have hno := (callback_cases hv).1
        rw [hfault] at hno
        cases hno

/-- A thread that has not ended goes on. -/
theorem exists_callback (hfault : s.fault = false) (hk : s.threads[k]? = some pc)
    (hpc : pc ≠ .ended) (err : Bool) : ∃ t, ethScrapyCallback s (k, err) = some t := by
  simp only [ethScrapyCallback, hfault, Bool.false_eq_true, if_false, hk]
  cases pc with
  | call => cases s.scraper <;> exact ⟨_, rfl⟩
  | ended => exact absurd rfl hpc
  | _ => exact ⟨_, rfl⟩

/-- **A stop that sticks**, at a moment behind it: the flag is off, no thread has executed more than
four statements, and one that has none left has ended, unless a capture was a fault. -/
structure Scrapy.Sticks (t : Scrapy) (acts : List (ℕ × Bool)) : Prop where
  off : t.runFlag = .off
  four : ∀ k, (acts.map Prod.fst).count k ≤ 4
  ends : t.fault = false → ∀ k pc, t.threads[k]? = some pc →
    (∀ err, ethScrapyCallback t (k, err) = none) → pc = .ended

theorem Scrapy.Stopped.sticks (h : s.Stopped) {acts : List (ℕ × Bool)}
    (hrun : Lts.run ethScrapyCallback s acts = some t) : t.Sticks acts where
  off := (h.run hrun 0).1.off
  four k := by
    have hcount := (h.run hrun k).2
    have hfour : s.left k ≤ 4 := by
      rw [Scrapy.left]
      cases s.threads[k]? with
      | none => exact Nat.zero_le 4
      | some pc => cases pc <;> simp [ScrapyPc.left]
    omega
  ends hfault k pc hk hnone := by
    by_contra hpc
    obtain ⟨u, hu⟩ := exists_callback hfault hk hpc false
    rw [hnone] at hu
    cases hu

/-- **When a stop sticks**, however the threads go on: exactly when all of them have begun. One that
begins later sets the flag. -/
theorem stop_sticks_iff (s : Scrapy) (hfault : s.fault = false) :
    ((∀ acts t, Lts.run ethScrapyCallback (ethScrapyStop s) acts = some t → t.Sticks acts) ↔
        ScrapyPc.start ∉ s.threads) ∧
      ∀ acts t, Lts.run ethScrapyCallback (ethScrapyStop s) acts = some t → t.fault = false →
        ∀ k, t.threads[k]? = some .start → ∀ err, ∃ u,
          ethScrapyCallback t (k, err) = some u ∧ u.runFlag = .running := by
  refine ⟨⟨fun h hmem => ?_, fun hbegun acts t hrun => ?_⟩, fun acts t _ hno k hk err => ?_⟩
  · obtain ⟨k, hk⟩ := List.getElem?_of_mem hmem
    have hstep : ethScrapyCallback (ethScrapyStop s) (k, false) = _ := callback_start hfault hk
    have hrun := (h [(k, false)] _ (by rw [Lts.run_cons, hstep]; rfl)).off
    cases hrun
  · have hstopped : (ethScrapyStop s).Stopped := ⟨rfl, hbegun⟩
    exact hstopped.sticks hrun
  · exact ⟨_, callback_start hno hk, rfl⟩

/-- Two threads that have begun, and one that has not and takes the stop back. -/
theorem stop_sticks_two_threads :
    (∀ acts t, Lts.run ethScrapyCallback
        (ethScrapyStop ⟨.running, some 0, 1, [.inside 0, .test], false⟩) acts = some t →
          t.Sticks acts) ∧
      ¬ ∀ acts t, Lts.run ethScrapyCallback
        (ethScrapyStop ⟨.running, some 0, 1, [.inside 0, .start], false⟩) acts = some t →
          t.Sticks acts :=
  ⟨(stop_sticks_iff ⟨.running, some 0, 1, [.inside 0, .test], false⟩ rfl).1.2 (by decide),
    fun h => (stop_sticks_iff ⟨.running, some 0, 1, [.inside 0, .start], false⟩ rfl).1.1 h
      (by decide)⟩

/-! ### Closing the interface -/

/-- The interface can be closed: whatever the threads do then, there is no fault. -/
def Scrapy.DestroySafe (s : Scrapy) : Prop :=
  (ethScrapyDestroy s).fault = false ∧ ∀ t, (ethScrapyDestroy s).Runs t → t.fault = false

/-- A thread has nothing left to capture on the handle `scraper`. -/
def ScrapyPc.Idle (scraper : Option ℕ) (pc : ScrapyPc) : Prop :=
  pc ≠ .start ∧ pc ≠ .call ∧ ∀ handle, pc = .inside handle → some handle ≠ scraper

/-- No thread captures on the interface any more. -/
structure Scrapy.Calm (s : Scrapy) : Prop where
  off : s.runFlag = .off
  fault : s.fault = false
  idle : ∀ pc ∈ s.threads, pc.Idle s.scraper

theorem Scrapy.Calm.step (h : s.Calm) (hstep : ethScrapyCallback s (k, err) = some t) :
    t.Calm ∧ t.scraper = s.scraper := by
  obtain ⟨-, old, hold, hcases⟩ := callback_cases hstep
  have hidle := h.idle old (List.mem_of_getElem? hold)
  have hgo : ∀ pc, pc = .test ∨ pc = .leave ∨ pc = .ended →
      ∀ pc' ∈ (s.at k pc).threads, pc'.Idle s.scraper := by
    intro pc hpc pc' hmem
    rcases mem_at hmem with hmem | rfl
    · exact h.idle pc' hmem
    · rcases hpc with rfl | rfl | rfl <;> exact ⟨nofun, nofun, nofun⟩
  cases old with
  | start => exact absurd rfl hidle.1
  | call => exact absurd rfl hidle.2.1
  | ended => exact hcases.elim
  | test =>
    rw [h.off] at hcases
    subst hcases
    exact ⟨⟨h.off, h.fault, hgo _ (by simp)⟩, rfl⟩
  | inside handle =>
    subst hcases
    exact ⟨⟨h.off, h.fault, hgo _ (by cases err <;> simp)⟩, rfl⟩
  | leave =>
    subst hcases
    exact ⟨⟨rfl, h.fault, hgo _ (by simp)⟩, rfl⟩

theorem Scrapy.Calm.runs (h : s.Calm) (hrun : s.Runs t) : t.Calm ∧ t.scraper = s.scraper := by
  obtain ⟨acts, hrun⟩ := hrun
  exact Lts.run_invariant (I := fun u => u.Calm ∧ u.scraper = s.scraper)
    (fun u a v hu hstep => by
      obtain ⟨hv, hscraper⟩ := hu.1.step hstep
      exact ⟨hv, hscraper.trans hu.2⟩) ⟨h, rfl⟩ hrun

theorem Scrapy.Calm.destroySafe (h : s.Calm) (hscraper : s.scraper.isSome) : s.DestroySafe := by
  obtain ⟨handle, hhandle⟩ := Option.isSome_iff_exists.1 hscraper
  have hdestroy : (ethScrapyDestroy s).Calm := by
    rw [ethScrapyDestroy, hhandle]
    refine ⟨h.off, decide_eq_false fun hmem => ?_, fun pc hpc => ?_⟩
    · exact (h.idle _ hmem).2.2 handle rfl hhandle.symm
    · obtain ⟨h1, h2, -⟩ := h.idle pc hpc
      exact ⟨h1, h2, nofun⟩
  exact ⟨hdestroy.fault, fun t ht => (hdestroy.runs ht).1.fault⟩

/-- A thread before `pcap_dispatch` runs into a fault when there is no handle. -/
theorem faults_of_call (hfault : s.fault = false) (hscraper : s.scraper = none)
    (hk : s.threads[k]? = some .call) : ∃ t, s.Runs t ∧ t.fault = true :=
  ⟨{ s with fault := true }, ⟨[(k, false)], by
    rw [Lts.run_cons, callback_call hfault hk hscraper]
    rfl⟩, rfl⟩

/-- So does a thread that has not begun: it sets the flag. -/
theorem faults_of_start (hfault : s.fault = false) (hscraper : s.scraper = none)
    (hk : s.threads[k]? = some .start) : ∃ t, s.Runs t ∧ t.fault = true := by
  have hstart : ethScrapyCallback s (k, false) = some { s.at k .test with runFlag := .running } :=
    callback_start hfault hk
  have hk1 : ({ s.at k .test with runFlag := .running } : Scrapy).threads[k]? = some .test :=
    at_threads hk
  have htest := @callback_test { s.at k .test with runFlag := .running } _ false hfault hk1 rfl
  obtain ⟨t, ⟨acts, hrun⟩, ht⟩ := faults_of_call
    (s := Scrapy.at { s.at k .test with runFlag := .running } k .call) hfault hscraper
    (at_threads hk1)
  refine ⟨t, ⟨(k, false) :: (k, false) :: acts, ?_⟩, ht⟩
  rw [Lts.run_cons, hstart, Option.bind_some, Lts.run_cons, htest, Option.bind_some, hrun]

/-- A thread that still captures can run into a fault. -/
theorem Scrapy.DestroySafe.idle (h : s.DestroySafe) (pc : ScrapyPc) (hpc : pc ∈ s.threads) :
    s.scraper.isSome ∧ pc.Idle s.scraper := by
  obtain ⟨hno, hsafe⟩ := h
  obtain ⟨k, hk⟩ := List.getElem?_of_mem hpc
  cases hscraper : s.scraper with
  | none => simp [ethScrapyDestroy, hscraper] at hno
  | some handle =>
    have hdestroy : ethScrapyDestroy s = { s with scraper := none, fault := false } := by
      rw [ethScrapyDestroy, hscraper] at hno ⊢
      simpa using hno
    rw [hdestroy] at hsafe
    refine ⟨rfl, ?_, ?_, ?_⟩
    · rintro rfl
      obtain ⟨t, hrun, ht⟩ :=
        faults_of_start (s := { s with scraper := none, fault := false }) rfl rfl hk
      rw [hsafe t hrun] at ht
      cases ht
    · rintro rfl
      obtain ⟨t, hrun, ht⟩ :=
        faults_of_call (s := { s with scraper := none, fault := false }) rfl rfl hk
      rw [hsafe t hrun] at ht
      cases ht
    · rintro handle' rfl hsame
      cases hsame
      simp [ethScrapyDestroy, hscraper, hpc] at hno

/-- **When the interface can be closed behind a stop**, however long the main program waits: exactly
when all threads have begun, and none of them is on its way to the interface or captures on it. -/
theorem stop_destroy_safe_iff (s : Scrapy) (handle : ℕ) (hscraper : s.scraper = some handle)
    (hfault : s.fault = false) :
    (∀ t, (ethScrapyStop s).Runs t → t.DestroySafe) ↔
      ∀ pc ∈ s.threads, pc ≠ .start ∧ pc ≠ .call ∧ pc ≠ .inside handle := by
  constructor
  · intro h pc hpc
    obtain ⟨-, h1, h2, h3⟩ := (h _ ⟨[], rfl⟩).idle pc hpc
    exact ⟨h1, h2, fun hin => h3 handle hin hscraper.symm⟩
  · intro h t ht
    have hcalm : (ethScrapyStop s).Calm := by
      refine ⟨rfl, hfault, fun pc hpc => ?_⟩
      obtain ⟨h1, h2, h3⟩ := h pc hpc
      refine ⟨h1, h2, fun handle' hin hsame => h3 ?_⟩
      have hhandle : some handle' = some handle := hsame.trans hscraper
      rw [hin, Option.some.inj hhandle]
    obtain ⟨ht, hsame⟩ := hcalm.runs ht
    exact ht.destroySafe (by rw [hsame]; exact Option.isSome_iff_exists.2 ⟨handle, hscraper⟩)

/-- A thread at the head of its loop sees the stop in time, one that is about to capture does not. -/
theorem stop_destroy_safe_at_test :
    (∀ t, (ethScrapyStop ⟨.running, some 0, 1, [.test, .ended], false⟩).Runs t → t.DestroySafe) ∧
      ¬ ∀ t, (ethScrapyStop ⟨.running, some 0, 1, [.call, .ended], false⟩).Runs t →
        t.DestroySafe :=
  ⟨(stop_destroy_safe_iff ⟨.running, some 0, 1, [.test, .ended], false⟩ 0 rfl rfl).2 (by decide),
    fun h => absurd
      ((stop_destroy_safe_iff ⟨.running, some 0, 1, [.call, .ended], false⟩ 0 rfl rfl).1 h)
      (by decide)⟩

/-! ### The whole program -/

/-- Before the first call. -/
def Scrapy.fresh : Scrapy := ⟨.init, none, 0, [], false⟩

/-- Whether the interface is open behind a call. -/
def ScrapyCall.opens (isOpen : Bool) : ScrapyCall → Bool
  | .init .notOpened => false
  | .init .notSet => false
  | .init .ok => true
  | .destroy => false
  | _ => isOpen

/-- Whether a thread has been started. -/
def ScrapyCall.starts (started : Bool) : ScrapyCall → Bool
  | .start created => started || created
  | _ => started

/-- **A safe call**: a thread is started on an open interface, and once one has been started the
interface is neither closed nor given up by an `eth_scrapy_init` that fails. -/
def ScrapyCall.Safe (isOpen started : Bool) : ScrapyCall → Prop
  | .init .notOpened => started = false
  | .init .notSet => started = false
  | .start created => created = true → isOpen = true
  | .destroy => isOpen = true ∧ started = false
  | _ => True

/-- Calls that are safe one behind the other. A stop makes no difference. -/
def CallsSafe : Bool → Bool → List ScrapyCall → Prop
  | _, _, [] => True
  | isOpen, started, call :: calls =>
    call.Safe isOpen started ∧ CallsSafe (call.opens isOpen) (call.starts started) calls

/-- The calls of the main program in a run. -/
def callsOf (acts : List (ScrapyCall ⊕ (ℕ × Bool))) : List ScrapyCall := acts.filterMap Sum.getLeft?

variable {isOpen started : Bool} {call : ScrapyCall} {calls : List ScrapyCall}

/-- Between safe calls: the interface is open if a thread has been started. -/
structure Scrapy.InUse (isOpen started : Bool) (s : Scrapy) : Prop where
  fault : s.fault = false
  scraper : s.scraper.isSome = isOpen
  threads : started = false → s.threads = []
  used : started = true → isOpen = true

/-- A statement of a thread captures on an open interface. -/
theorem Scrapy.InUse.thread (h : s.InUse isOpen started) {act : ℕ × Bool}
    (hstep : ethScrapyCallback s act = some t) : t.InUse isOpen started := by
  obtain ⟨k, err⟩ := act
  obtain ⟨-, old, hold, hcases⟩ := callback_cases hstep
  have hstarted : started = true := by
    by_contra hnot
    rw [h.threads (Bool.eq_false_of_not_eq_true hnot)] at hold
    cases hold
  have hempty {ts : List ScrapyPc} : started = false → ts = [] := fun hnot => by
    rw [hstarted] at hnot
    cases hnot
  cases old with
  | ended => exact hcases.elim
  | call =>
    rcases hcases with ⟨handle, -, rfl⟩ | ⟨hnone, -⟩
    · exact ⟨h.fault, h.scraper, hempty, h.used⟩
    · have hscraper := h.scraper
      rw [hnone, h.used hstarted] at hscraper
      cases hscraper
  | start | test | inside handle | leave =>
    subst hcases
    exact ⟨h.fault, h.scraper, hempty, h.used⟩

theorem Scrapy.InUse.step (h : s.InUse isOpen started) (hsafe : call.Safe isOpen started) :
    (call.run s).InUse (call.opens isOpen) (call.starts started) := by
  cases call with
  | init res =>
    cases res with
    | refused => exact h
    | notOpened | notSet =>
      refine ⟨h.fault, rfl, h.threads, fun hstarted => ?_⟩
      exact absurd (hstarted.symm.trans hsafe) Bool.noConfusion
    | ok => exact ⟨h.fault, rfl, h.threads, fun _ => rfl⟩
  | start created =>
    cases created with
    | false =>
      rw [ScrapyCall.starts, Bool.or_false]
      exact h
    | true =>
      rw [ScrapyCall.starts, Bool.or_true]
      exact ⟨h.fault, h.scraper, Bool.noConfusion, fun _ => hsafe rfl⟩
  | stop | resume => exact ⟨h.fault, h.scraper, h.threads, h.used⟩
  | destroy =>
    obtain ⟨hopen, hstarted⟩ := hsafe
    obtain ⟨handle, hhandle⟩ := Option.isSome_iff_exists.1 (h.scraper.trans hopen)
    have hnone : ScrapyPc.inside handle ∉ s.threads := by
      rw [h.threads hstarted]
      exact List.not_mem_nil
    rw [ScrapyCall.run, ethScrapyDestroy, hhandle]
    refine ⟨decide_eq_false hnone, rfl, h.threads, fun htrue => ?_⟩
    exact absurd (htrue.symm.trans hstarted) Bool.noConfusion

/-- However the threads go on between safe calls, there is no fault. -/
theorem Scrapy.InUse.run (h : s.InUse isOpen started) (hsafe : CallsSafe isOpen started calls)
    {acts : List (ScrapyCall ⊕ (ℕ × Bool))} (hcalls : callsOf acts <+: calls)
    (hrun : Lts.run scrapyStep s acts = some t) : t.fault = false := by
  induction acts generalizing s isOpen started calls with
  | nil =>
    cases hrun
    exact h.fault
  | cons a acts ih =>
    obtain ⟨u, hu, hrest⟩ := Option.bind_eq_some_iff.1 hrun
    cases a with
    | inl call =>
      obtain ⟨rest, rfl⟩ := hcalls
      rw [scrapyStep, h.fault, if_neg Bool.false_ne_true] at hu
      cases hu
      exact ih (h.step hsafe.1) hsafe.2 (List.prefix_append _ _) hrest
    | inr act => exact ih (h.thread hu) hsafe hcalls hrest

/-! ### Calls that are not safe -/

/-- There is a run, with no other calls than these, that goes wrong. -/
def Scrapy.CanFault (s : Scrapy) (calls : List ScrapyCall) : Prop :=
  ∃ acts t, callsOf acts <+: calls ∧ Lts.run scrapyStep s acts = some t ∧ t.fault = true

theorem Scrapy.CanFault.cons (hfault : s.fault = false) (h : (call.run s).CanFault calls) :
    s.CanFault (call :: calls) := by
  obtain ⟨acts, t, hcalls, hrun, ht⟩ := h
  refine ⟨.inl call :: acts, t, (List.prefix_cons_inj call).2 hcalls, ?_, ht⟩
  rw [Lts.run_cons, scrapyStep, hfault]
  exact hrun

theorem run_threads {acts : List (ℕ × Bool)} (hrun : Lts.run ethScrapyCallback s acts = some t) :
    Lts.run scrapyStep s (acts.map .inr) = some t := by
  induction acts generalizing s with
  | nil => exact hrun
  | cons a acts ih =>
    obtain ⟨u, hu, hrest⟩ := Option.bind_eq_some_iff.1 hrun
    rw [List.map_cons, Lts.run_cons, scrapyStep, hu]
    exact ih hrest

/-- A thread that has not begun sets the flag, whether the capture has been stopped or not, and
finds no interface. -/
theorem canFault_of_start (hscraper : s.scraper = none) (hstart : .start ∈ s.threads) :
    s.CanFault calls := by
  cases hfault : s.fault with
  | true => exact ⟨[], s, List.nil_prefix, rfl, hfault⟩
  | false =>
    obtain ⟨k, hk⟩ := List.getElem?_of_mem hstart
    obtain ⟨t, ⟨acts, hrun⟩, ht⟩ := faults_of_start hfault hscraper hk
    refine ⟨acts.map .inr, t, ?_, run_threads hrun, ht⟩
    have hnone : callsOf (acts.map .inr) = [] := by
      rw [callsOf, List.filterMap_map]
      exact List.filterMap_eq_nil_iff.2 fun _ _ => rfl
    exact hnone ▸ List.nil_prefix

/-- Between calls, when no thread has moved. -/
structure Scrapy.Waits (isOpen started : Bool) (s : Scrapy) : Prop where
  fault : s.fault = false
  scraper : s.scraper.isSome = isOpen
  threads : ∀ pc ∈ s.threads, pc = .start
  start : started = true → .start ∈ s.threads

/-- A call that is not safe goes wrong, at once or when a thread begins behind it. -/
theorem Scrapy.Waits.canFault (h : s.Waits isOpen started) (hnot : ¬call.Safe isOpen started) :
    (call.run s).CanFault calls := by
  cases call with
  | init res =>
    cases res with
    | refused => exact absurd trivial hnot
    | ok => exact absurd trivial hnot
    | notOpened | notSet => exact canFault_of_start rfl (h.start (Bool.eq_true_of_not_eq_false hnot))
  | start created =>
    rw [ScrapyCall.Safe, Classical.not_imp] at hnot
    obtain ⟨rfl, hclosed⟩ := hnot
    have hscraper : s.scraper = none := by
      rw [← Option.not_isSome_iff_eq_none, h.scraper]
      exact hclosed
    exact canFault_of_start hscraper (List.mem_append_right _ (List.mem_singleton_self _))
  | stop => exact absurd trivial hnot
  | resume => exact absurd trivial hnot
  | destroy =>
    rw [ScrapyCall.run, ethScrapyDestroy]
    cases hscraper : s.scraper with
    | none => exact ⟨[], _, List.nil_prefix, rfl, rfl⟩
    | some handle =>
      have hopen : isOpen = true := by
        rw [← h.scraper, hscraper]
        rfl
      have hstarted : started = true := by
        by_contra hno
        exact hnot ⟨hopen, Bool.eq_false_of_not_eq_true hno⟩
      exact canFault_of_start rfl (h.start hstarted)

theorem Scrapy.Waits.step (h : s.Waits isOpen started) (hsafe : call.Safe isOpen started) :
    (call.run s).Waits (call.opens isOpen) (call.starts started) := by
  cases call with
  | init res => cases res <;> exact ⟨h.fault, by first | exact h.scraper | rfl, h.threads, h.start⟩
  | start created =>
    cases created with
    | false =>
      rw [ScrapyCall.starts, Bool.or_false]
      exact h
    | true =>
      refine ⟨h.fault, h.scraper, fun pc hpc => ?_, fun _ => ?_⟩
      · rcases List.mem_append.1 hpc with hpc | hpc
        · exact h.threads pc hpc
        · exact List.mem_singleton.1 hpc
      · exact List.mem_append_right _ (List.mem_singleton_self _)
  | stop | resume => exact ⟨h.fault, h.scraper, h.threads, h.start⟩
  | destroy =>
    obtain ⟨handle, hhandle⟩ := Option.isSome_iff_exists.1 (h.scraper.trans hsafe.1)
    rw [ScrapyCall.run, ethScrapyDestroy, hhandle]
    exact ⟨decide_eq_false fun hmem => ScrapyPc.noConfusion (h.threads _ hmem), rfl, h.threads,
      h.start⟩

/-- The first call that is not safe shows in some run. -/
theorem Scrapy.Waits.canFault_of_not (h : s.Waits isOpen started)
    (hnot : ¬CallsSafe isOpen started calls) : s.CanFault calls := by
  induction calls generalizing s isOpen started with
  | nil => exact absurd trivial hnot
  | cons call calls ih =>
    refine Scrapy.CanFault.cons h.fault ?_
    by_cases hsafe : call.Safe isOpen started
    · exact ih (h.step hsafe) fun hrest => hnot ⟨hsafe, hrest⟩
    · exact h.canFault hsafe

/-- **When the calls of the main program are safe**, however the threads go on between them: there is
no fault in any interleaving exactly when a thread is started on an open interface only, and the
interface is not closed or given up any more once a thread has been started. -/
theorem scrapy_safe_iff (calls : List ScrapyCall) :
    (∀ acts t, callsOf acts <+: calls → Lts.run scrapyStep .fresh acts = some t →
      t.fault = false) ↔ CallsSafe false false calls := by
  constructor
  · intro h
    by_contra hnot
    have hwaits : Scrapy.fresh.Waits false false :=
      ⟨rfl, rfl, fun _ hpc => absurd hpc List.not_mem_nil, Bool.noConfusion⟩
    obtain ⟨acts, t, hcalls, hrun, ht⟩ := hwaits.canFault_of_not hnot
    rw [h acts t hcalls hrun] at ht
    cases ht
  · intro hsafe acts t hcalls hrun
    have huse : Scrapy.fresh.InUse false false := ⟨rfl, rfl, fun _ => rfl, Bool.noConfusion⟩
    exact huse.run hsafe hcalls hrun

/-- A receiver that stops its capture before it closes the interface is not safe. -/
example : ¬CallsSafe false false [.init .ok, .start true, .stop, .destroy] := fun h =>
  Bool.noConfusion h.2.2.2.1.2

end F1Goal
