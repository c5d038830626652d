import F1Goal.BasicTypes
import F1Goal.Lib.CString
import F1Goal.Lib.Lts

/-!
# Performance points (`perf_mon.c`)

A monitor point is a list of nodes with a cursor: the start and the end of an interval are noted in
the node at the cursor, which then goes on, and the list grows when it is used up. A report writes
the nodes that have both, clears them, and puts the cursor back to the head, also inside of an
interval. `PerfOk` is the condition on a call under which each interval is written once, by the
first report behind its end: `perf_once_iff`. Files can be opened, `write()` is complete, and
`malloc` succeeds.
-/

namespace F1Goal

open CString

/-! ### Points -/

/-- `mon_time_t`, without the pointer to the next one. -/
structure MonTime where
  tb : Timeval
  te : Timeval
  status : ℕ
  deriving DecidableEq, Repr

/-- A node filled with zeros. -/
def MonTime.zero : MonTime := { tb := ⟨0, 0⟩, te := ⟨0, 0⟩, status := 0 }

/-- `mon_point_t`: the nodes of the list in their order, and the place of `p_cur` among them, where
it is not `NULL`. -/
structure MonPoint where
  id : ℤ
  name : List UInt8
  size : ℤ
  nodes : List MonTime
  cur : Option ℕ

/-- `perf_mon_t` -/
structure PerfMon where
  max : ℤ
  num : ℕ
  pid : ℤ
  monPoints : ℕ → MonPoint

/-- `POINT_NAME_SIZE` -/
def pointNameSize : ℕ := 512

/-- `ST_START` -/
def stStart : ℕ := 1

/-- `ST_END` -/
def stEnd : ℕ := 2

/-- `linklist_create` -/
def linklistCreate (elemNum : ℤ) : List MonTime := List.replicate elemNum.toNat .zero

/-- The first node of a list. -/
def headOf (nodes : List MonTime) : Option ℕ := if nodes = [] then none else some 0

/-- `perf_mon_init` -/
def perfMonInit (pid maxPoint presetTimes : ℤ) : PerfMon :=
  let size := if presetTimes < 0 then 50000 else presetTimes
  { max := if presetTimes < 0 then 64 else maxPoint
    num := 0
    pid := pid
    monPoints := fun _ =>
      { id := 0, name := [], size := size, nodes := linklistCreate size
        cur := headOf (linklistCreate size) } }

/-- `perf_mon_add` -/
def perfMonAdd (mon : PerfMon) (id : ℤ) (name : List UInt8) : ℤ × PerfMon :=
  if mon.max ≤ mon.num then (1, mon)
  else (0, { mon with
    monPoints := Function.update mon.monPoints mon.num
      { mon.monPoints mon.num with id := id, name := (cstr name).take pointNameSize }
    num := mon.num + 1 })

/-- Note the start of an interval; `none` when `p_cur` is `NULL`. -/
def MonPoint.start (p : MonPoint) (now : Timeval) : Option MonPoint :=
  match p.cur with
  | none => none
  | some k =>
    some { p with
      nodes := p.nodes.modify k fun node =>
        { node with tb := now, status := node.status ||| stStart } }

/-- Note the end of an interval, and go on to the next node; `none` when `p_cur` is `NULL`. -/
def MonPoint.stop (p : MonPoint) (now : Timeval) : Option MonPoint :=
  match p.cur with
  | none => none
  | some k =>
    let nodes := p.nodes.modify k fun node =>
      { node with te := now, status := node.status ||| stEnd }
    if k + 1 = nodes.length then
      let more := linklistCreate (p.size.tdiv 2 + 1)
      some { p with
        nodes := nodes ++ more
        size := i32 (p.size + (p.size.tdiv 2 + 1))
        cur := if more = [] then none else some (k + 1) }
    else some { p with nodes := nodes, cur := some (k + 1) }

/-- `perf_mon_here` at the time `now`; `none` when `p_cur` is `NULL`. -/
def perfMonHere (mon : PerfMon) (id : ℕ) (status : ℤ) (now : Timeval) : Option (ℤ × PerfMon) :=
  let put (p : MonPoint) : ℤ × PerfMon :=
    (0, { mon with monPoints := Function.update mon.monPoints id p })
  if status = stStart then ((mon.monPoints id).start now).map put
  else if status = stEnd then ((mon.monPoints id).stop now).map put
  else some (-1, mon)

/-! ### Reports -/

/-- An interval: when it started, and when it ended. -/
structure Interval where
  tb : Timeval
  te : Timeval
  deriving DecidableEq, Repr

/-- The interval noted in a node. -/
def MonTime.interval (node : MonTime) : Interval := { tb := node.tb, te := node.te }

/-- The loop over the nodes, from the one at the place `i` on: the intervals that are written, and
the nodes after it. -/
def statisLoop (cur : Option ℕ) : ℕ → List MonTime → List Interval × List MonTime
  | _, [] => ([], [])
  | i, node :: rest =>
    let written := if node.status = 3 then [node.interval] else []
    let node := { node with status := 0 }
    if cur = (if rest = [] then none else some (i + 1)) then (written, node :: rest)
    else
      let (more, rest) := statisLoop cur (i + 1) rest
      (written ++ more, node :: rest)

/-- The intervals of a point that a report writes. -/
def MonPoint.report (p : MonPoint) : List Interval := (statisLoop p.cur 0 p.nodes).1

/-- The point after a report. -/
def MonPoint.rewound (p : MonPoint) : MonPoint :=
  { p with nodes := (statisLoop p.cur 0 p.nodes).2, cur := headOf p.nodes }

/-- What `%d` and `%ld` print. -/
def decimal (n : ℤ) : List UInt8 :=
  (if n < 0 then [45] else []) ++ (Nat.toDigits 10 n.natAbs).map fun c => UInt8.ofNat c.toNat

/-- `struct tm`, as far as a report uses it. -/
structure Tm where
  year : ℤ
  mon : ℤ
  mday : ℤ
  hour : ℤ
  min : ℤ
  sec : ℤ

/-- `"%d-%d-%d_%d.%d.%d"`: the directory of a report. -/
def reportPath (now : Tm) : List UInt8 :=
  decimal (2000 + now.year - 100) ++ ascii "-" ++ decimal (now.mon + 1) ++ ascii "-" ++
    decimal now.mday ++ ascii "_" ++ decimal now.hour ++ ascii "." ++ decimal now.min ++
      ascii "." ++ decimal now.sec

/-- `"%s/%d.%d.%s.perf"`: the file of a point. -/
def MonPoint.file (p : MonPoint) (pid : ℤ) (now : Tm) : List UInt8 :=
  reportPath now ++ ascii "/" ++ decimal pid ++ ascii "." ++ decimal p.id ++ ascii "." ++ p.name ++
    ascii ".perf"

/-- `"%d|%d|%s|%ld.%ld|%ld.%ld\n"`: the line of an interval. -/
def MonPoint.line (p : MonPoint) (pid : ℤ) (v : Interval) : List UInt8 :=
  decimal pid ++ ascii "|" ++ decimal p.id ++ ascii "|" ++ p.name ++ ascii "|" ++
    decimal v.tb.sec ++ ascii "." ++ decimal v.tb.usec ++ ascii "|" ++
      decimal v.te.sec ++ ascii "." ++ decimal v.te.usec ++ ascii "\n"

/-- What a report does for a point: it writes the name of the file to `file_list`, and the lines to
the file. -/
structure PerfFile where
  name : List UInt8
  lines : List (List UInt8)

/-- The texts are whole in `file` and `buf`, which have 512 bytes. `write()` is given the length of
the text that was to be printed: of a text that does not fit it reads what is behind the buffer. -/
def PerfFile.Whole (f : PerfFile) : Prop :=
  f.name.length < 512 ∧ ∀ line ∈ f.lines, line.length < 512

instance (f : PerfFile) : Decidable f.Whole := inferInstanceAs (Decidable (_ ∧ _))

/-- `perf_statis`: what is written for each point, and the points after it. -/
def perfStatis (mon : PerfMon) (now : Tm) : (ℕ → PerfFile) × PerfMon :=
  (fun i =>
    { name := (mon.monPoints i).file mon.pid now
      lines := (mon.monPoints i).report.map ((mon.monPoints i).line mon.pid) },
    { mon with
      monPoints := fun i => if i < mon.num then (mon.monPoints i).rewound else mon.monPoints i })

/-! ### Runs -/

/-- What has happened at a point: the start of the interval that has not ended, whether a report
came since then, the intervals that ended since the last report, the lines that reports should have
written, and those they have. -/
structure PointHistory where
  opened : Option Timeval
  cut : Bool
  pending : List Interval
  expected : List (List UInt8)
  written : List (List UInt8)

/-- The points, and what has happened at each; `fault` says that `NULL` has been followed, or that
`write()` has read behind a buffer. -/
structure PerfRun where
  mon : PerfMon
  hist : ℕ → PointHistory
  fault : Bool

/-- The state before the first call. -/
def PerfRun.start (mon : PerfMon) : PerfRun :=
  { mon := mon
    hist := fun _ =>
      { opened := none, cut := false, pending := [], expected := [], written := [] }
    fault := false }

/-- A call. -/
inductive PerfOp
  | here (id : ℕ) (status : ℤ) (now : Timeval)
  | statis (now : Tm)

/-- What an interval that starts or ends changes in the history of its point. -/
def PointHistory.here (h : PointHistory) (status : ℤ) (now : Timeval) : PointHistory :=
  if status = stStart then { h with opened := some now, cut := false }
  else if status = stEnd then
    { h with opened := none, pending := h.pending ++ (h.opened.map fun tb => ⟨tb, now⟩).toList }
  else h

/-- What a report changes: all that is pending should be written, and `file` is what it writes. -/
def PointHistory.report (h : PointHistory) (line : Interval → List UInt8) (file : PerfFile) :
    PointHistory :=
  { h with
    cut := h.cut || h.opened.isSome
    pending := []
    expected := h.expected ++ h.pending.map line
    written := h.written ++ file.lines }

/-- The state after a call of `perf_mon_here`, which returns this; `hist` is the history of the
point after it. -/
def PerfRun.put (s : PerfRun) (id : ℕ) (hist : PointHistory) : Option (ℤ × PerfMon) → PerfRun
  | none => { s with fault := true }
  | some (_, mon) => { s with mon := mon, hist := Function.update s.hist id hist }

/-- One more call. Calls are for points that have been added, and start and end alternate. -/
def perfStep (s : PerfRun) : PerfOp → Option PerfRun
  | .here id status now =>
    if s.mon.num ≤ id ∨ status = stStart ∧ (s.hist id).opened.isSome ∨
        status = stEnd ∧ (s.hist id).opened = none then none
    else some (s.put id ((s.hist id).here status now) (perfMonHere s.mon id status now))
  | .statis now =>
    let (files, mon) := perfStatis s.mon now
    some {
      mon := mon
      hist := fun i =>
        if i < s.mon.num then (s.hist i).report ((s.mon.monPoints i).line s.mon.pid) (files i)
        else s.hist i
      fault := s.fault || decide (∃ i < s.mon.num, ¬ (files i).Whole) }

/-- **Intervals are written once**: the lines written are those of the intervals that had ended
before the report, and a report at this moment writes those that have ended since the last one. -/
def PerfRun.Right (s : PerfRun) : Prop :=
  s.fault = false ∧ ∀ i < s.mon.num,
    (s.hist i).written = (s.hist i).expected ∧ (s.mon.monPoints i).report = (s.hist i).pending

/-- **The condition on a call**: no interval starts at a point whose nodes have run out, none ends
behind a report that came after its start, and the name of each file and the lines of the intervals
that are pending have fewer than 512 bytes. -/
def PerfOk (s : PerfRun) : PerfOp → Prop
  | .here id status _ =>
    (status = stStart → (s.mon.monPoints id).cur ≠ none) ∧
      (status = stEnd → (s.hist id).cut = false)
  | .statis now =>
    ∀ i < s.mon.num, ((s.mon.monPoints i).file s.mon.pid now).length < 512 ∧
      ∀ v ∈ (s.hist i).pending, ((s.mon.monPoints i).line s.mon.pid v).length < 512

instance (s : PerfRun) : ∀ op, Decidable (PerfOk s op)
  | .here _ _ _ => inferInstanceAs (Decidable (_ ∧ _))
  | .statis _ => inferInstanceAs (Decidable (∀ i < s.mon.num, _))

/-! ### The loop of a report -/

/-- The intervals of the nodes that have a start and an end. -/
def doneIntervals (nodes : List MonTime) : List Interval :=
  (nodes.filter fun node => node.status = 3).map MonTime.interval

/-- The nodes with their status cleared. -/
def cleared (nodes : List MonTime) : List MonTime := nodes.map fun node => { node with status := 0 }

theorem doneIntervals_cons (node : MonTime) (nodes : List MonTime) :
    doneIntervals (node :: nodes) =
      (if node.status = 3 then [node.interval] else []) ++ doneIntervals nodes := by
  unfold doneIntervals
  by_cases h : node.status = 3 <;> simp [h]

/-- **The loop stops at the cursor** when the cursor is behind the first node. -/
theorem statisLoop_front {front back : List MonTime} (hfront : front ≠ []) {cur : Option ℕ} {i : ℕ}
    (hcur : cur = if back = [] then none else some (i + front.length)) :
    statisLoop cur i (front ++ back) = (doneIntervals front, cleared front ++ back) := by
  induction front generalizing i with
  | nil => exact absurd rfl hfront
  | cons node front ih =>
    rw [List.cons_append, statisLoop, doneIntervals_cons]
    cases front with
    | nil =>
      rw [if_pos (by simpa using hcur)]
      simp [doneIntervals, cleared]
    | cons node' front =>
      have hnext : cur ≠ if node' :: front ++ back = [] then none else some (i + 1) := by
        rw [hcur, List.cons_append, if_neg (List.cons_ne_nil _ _)]
        split_ifs
        · simp
        · simp only [List.length_cons, ne_eq, Option.some.injEq]
          omega
      have hrest : statisLoop cur (i + 1) (node' :: front ++ back) = _ :=
        ih (List.cons_ne_nil _ _) (by rw [hcur, List.length_cons, add_right_comm]; rfl)
      rw [if_neg hnext, hrest]
      rfl

/-- **The loop goes through all nodes** when the cursor is at the head. -/
theorem statisLoop_all {nodes : List MonTime} {cur : Option ℕ} {i : ℕ}
    (hcur : ∃ k ≤ i, cur = some k) :
    statisLoop cur i nodes = (doneIntervals nodes, cleared nodes) := by
  obtain ⟨k, hk, rfl⟩ := hcur
  induction nodes generalizing i with
  | nil => rfl
  | cons node rest ih =>
    have hnext : some k ≠ if rest = [] then none else some (i + 1) := by
      split_ifs
      · simp
      · simp only [ne_eq, Option.some.injEq]
        omega
    rw [statisLoop, if_neg hnext, ih (Nat.le_succ_of_le hk), doneIntervals_cons]
    rfl

/-! ### The invariant of a point -/

/-- **The list at the cursor**: in front of it stand the intervals that are pending, and behind it
no node has an end. The node at the cursor has the start of the interval that is open, unless a
report came since then: then the cursor is at the head, where the start has been cleared. -/
structure PointSplit (p : MonPoint) (h : PointHistory) (front back : List MonTime) : Prop where
  nodes : p.nodes = front ++ back
  ne : p.nodes ≠ []
  cur : p.cur = if back = [] then none else some front.length
  full : ∀ node ∈ front, node.status = 3
  pending : front.map MonTime.interval = h.pending
  free : ∀ node ∈ back, node.status < 2
  opened : ∀ tb, h.opened = some tb → h.cut = false →
    ∃ node rest, back = node :: rest ∧ node.status = 1 ∧ node.tb = tb
  cut : h.cut = true → h.opened.isSome ∧ front = [] ∧ ∃ node rest, back = node :: rest ∧
    node.status = 0

/-- The history of a point is in its list. -/
def PointOk (p : MonPoint) (h : PointHistory) : Prop := ∃ front back, PointSplit p h front back

theorem doneIntervals_full {nodes : List MonTime} (h : ∀ node ∈ nodes, node.status = 3) :
    doneIntervals nodes = nodes.map MonTime.interval := by
  rw [doneIntervals, List.filter_eq_self.2 fun node hmem => decide_eq_true (h node hmem)]

theorem doneIntervals_free {nodes : List MonTime} (h : ∀ node ∈ nodes, node.status < 2) :
    doneIntervals nodes = [] := by
  rw [doneIntervals, List.filter_eq_nil_iff.2, List.map_nil]
  intro node hmem
  have := h node hmem
  simp only [decide_eq_true_eq]
  omega

/-- **What a report does at a point**: it writes what is pending, and starts from the head of a list
without intervals. -/
theorem statisLoop_split {p : MonPoint} {h : PointHistory} {front back : List MonTime}
    (hp : PointSplit p h front back) :
    p.report = h.pending ∧ p.rewound.nodes = cleared front ++ (if front = [] then cleared back
      else back) ∧ p.rewound.cur = some 0 := by
  have hhead : headOf p.nodes = some 0 := if_neg hp.ne
  rw [MonPoint.report, MonPoint.rewound]
  cases front with
  | nil =>
    have hback : back ≠ [] := fun hnil => hp.ne (by rw [hp.nodes, hnil]; rfl)
    have hcur : p.cur = some 0 := by rw [hp.cur, if_neg hback]; rfl
    rw [hp.nodes, List.nil_append, statisLoop_all ⟨0, le_rfl, hcur⟩, doneIntervals_free hp.free,
      ← hp.pending]
    rw [hp.nodes] at hhead
    exact ⟨rfl, rfl, hhead⟩
  | cons node front =>
    rw [hp.nodes] at hhead ⊢
    rw [statisLoop_front (List.cons_ne_nil _ _) (by rw [hp.cur, Nat.zero_add]),
      doneIntervals_full hp.full]
    exact ⟨hp.pending, rfl, hhead⟩

theorem PointOk.report_eq {p : MonPoint} {h : PointHistory} (hp : PointOk p h) :
    p.report = h.pending := by
  obtain ⟨front, back, hp⟩ := hp
  exact (statisLoop_split hp).1

/-! ### One call at a point -/

theorem modify_front {α : Type*} (front rest : List α) (a : α) (f : α → α) :
    (front ++ a :: rest).modify front.length f = front ++ f a :: rest := by
  induction front with
  | nil => rfl
  | cons b front ih => rw [List.cons_append, List.length_cons, List.modify_succ_cons, ih]; rfl

/-- An interval starts at the node at the cursor. -/
theorem PointOk.start {p : MonPoint} {h : PointHistory} (hp : PointOk p h) (hcur : p.cur ≠ none)
    (now : Timeval) :
    ∃ p', p.start now = some p' ∧ PointOk p' { h with opened := some now, cut := false } := by
  obtain ⟨front, back, hp⟩ := hp
  cases back with
  | nil => exact absurd (by rw [hp.cur]; rfl) hcur
  | cons node rest =>
    have hcur : p.cur = some front.length := by rw [hp.cur]; rfl
    rw [MonPoint.start, hcur]
    refine ⟨_, rfl, front, { node with tb := now, status := node.status ||| stStart } :: rest, ?_⟩
    have hfree := hp.free node List.mem_cons_self
    have hstatus : node.status ||| stStart = 1 := by
      interval_cases node.status <;> rfl
    refine ⟨?_, ?_, rfl, hp.full, hp.pending, ?_, ?_, fun hcut => absurd hcut (by simp)⟩
    · simp only [hp.nodes, modify_front]
    · simp only [hp.nodes, modify_front]
      simp
    · intro node' hmem
      rcases List.mem_cons.1 hmem with rfl | hmem
      · simp [hstatus]
      · exact hp.free node' (List.mem_cons_of_mem _ hmem)
    · rintro tb htb -
      exact ⟨_, rest, rfl, hstatus, Option.some.inj htb⟩

/-- The nodes and the cursor when the interval at the cursor has ended. -/
theorem MonPoint.stop_eq {p : MonPoint} {front rest : List MonTime} {node : MonTime}
    (hnodes : p.nodes = front ++ node :: rest) (hcur : p.cur = some front.length) (now : Timeval) :
    ∃ p' more, p.stop now = some p' ∧
      p'.nodes =
        front ++ { node with te := now, status := node.status ||| stEnd } :: (rest ++ more) ∧
      p'.cur = (if rest ++ more = [] then none else some (front.length + 1)) ∧
      (∀ node ∈ more, node = .zero) := by
  rw [MonPoint.stop, hcur]
  simp only [hnodes, modify_front]
  cases rest with
  | nil =>
    refine ⟨_, linklistCreate (p.size.tdiv 2 + 1), if_pos (by simp), ?_, rfl,
      fun node hmem => List.eq_of_mem_replicate hmem⟩
    simp
  | cons node' rest =>
    refine ⟨_, [], if_neg (by simp), ?_, ?_, fun _ hmem => absurd hmem List.not_mem_nil⟩
    · simp
    · simp

/-- An interval ends: it is pending from now on. -/
theorem PointOk.stop {p : MonPoint} {h : PointHistory} (hp : PointOk p h) {tb : Timeval}
    (hopened : h.opened = some tb) (hcut : h.cut = false) (now : Timeval) :
    ∃ p', p.stop now = some p' ∧
      PointOk p' { h with opened := none, pending := h.pending ++ [⟨tb, now⟩] } := by
  obtain ⟨front, back, hp⟩ := hp
  obtain ⟨node, rest, rfl, hstatus, rfl⟩ := hp.opened tb hopened hcut
  obtain ⟨p', more, hstop, hnodes, hcur, hmore⟩ :=
    MonPoint.stop_eq hp.nodes (by rw [hp.cur]; rfl) now
  refine ⟨p', hstop, front ++ [{ node with te := now, status := node.status ||| stEnd }],
    rest ++ more, ?_, ?_, ?_, ?_, ?_, ?_, ?_, ?_⟩
  · rw [hnodes, List.append_assoc]
    rfl
  · rw [hnodes]
    simp
  · rw [hcur]
    simp
  · intro node' hmem
    rcases List.mem_append.1 hmem with hmem | hmem
    · exact hp.full node' hmem
    · rw [List.mem_singleton.1 hmem, hstatus]
      rfl
  · rw [List.map_append, hp.pending]
    rfl
  · intro node' hmem
    rcases List.mem_append.1 hmem with hmem | hmem
    · exact hp.free node' (List.mem_cons_of_mem _ hmem)
    · rw [hmore node' hmem]
      exact Nat.zero_lt_two
  · intro _ hnone
    cases hnone
  · intro htrue
    exact absurd (hcut.symm.trans htrue) (by simp)

/-- **An interval that ends behind a report is lost**: no report will write it. -/
theorem PointOk.stop_cut {p : MonPoint} {h : PointHistory} (hp : PointOk p h)
    (hcut : h.cut = true) (now : Timeval) :
    ∃ p', p.stop now = some p' ∧ p'.report = [] ∧ h.pending = [] := by
  obtain ⟨front, back, hp⟩ := hp
  obtain ⟨-, rfl, node, rest, rfl, hstatus⟩ := hp.cut hcut
  obtain ⟨p', more, hstop, hnodes, hcur, -⟩ :=
    MonPoint.stop_eq hp.nodes (by rw [hp.cur]; rfl) now
  refine ⟨p', hstop, ?_, hp.pending.symm⟩
  -- the loop stops behind the head, which has no start
  have hloop : statisLoop p'.cur 0
      ([{ node with te := now, status := node.status ||| stEnd }] ++ (rest ++ more)) = _ :=
    statisLoop_front (List.cons_ne_nil _ _) (by rw [hcur]; rfl)
  rw [MonPoint.report, hnodes]
  refine (congrArg Prod.fst hloop).trans ?_
  rw [doneIntervals_cons, hstatus]
  rfl

theorem status_of_mem_cleared {nodes : List MonTime} {node : MonTime} (h : node ∈ cleared nodes) :
    node.status = 0 := by
  obtain ⟨node', -, rfl⟩ := List.mem_map.1 h
  rfl

/-- The list of nodes keeps its length, and no node in it is complete any more. -/
theorem PointSplit.rewound_nodes {p : MonPoint} {h : PointHistory} {front back : List MonTime}
    (hp : PointSplit p h front back) :
    p.rewound.nodes ≠ [] ∧ ∀ node ∈ p.rewound.nodes, node.status < 2 := by
  obtain ⟨-, hnodes, -⟩ := statisLoop_split hp
  constructor
  · intro hnil
    have hlen : p.rewound.nodes.length = p.nodes.length := by
      rw [hnodes, hp.nodes]
      split_ifs <;> simp [cleared]
    rw [hnil] at hlen
    exact hp.ne (List.length_eq_zero_iff.1 hlen.symm)
  · rw [hnodes]
    intro node hmem
    rcases List.mem_append.1 hmem with hmem | hmem
    · rw [status_of_mem_cleared hmem]
      exact Nat.zero_lt_two
    · split_ifs at hmem
      · rw [status_of_mem_cleared hmem]
        exact Nat.zero_lt_two
      · exact hp.free node hmem

/-- A report writes what is pending, and cuts the interval that is open. -/
theorem PointOk.report {p : MonPoint} {h : PointHistory} (hp : PointOk p h)
    (line : Interval → List UInt8) (file : PerfFile) : PointOk p.rewound (h.report line file) := by
  obtain ⟨front, back, hp⟩ := hp
  obtain ⟨-, hnodes, hcur⟩ := statisLoop_split hp
  obtain ⟨hne, hfree⟩ := hp.rewound_nodes
  refine ⟨[], p.rewound.nodes, rfl, hne, by rw [hcur, if_neg hne]; rfl,
    fun _ hmem => absurd hmem List.not_mem_nil, rfl, hfree, fun tb htb hcut => ?_, fun hcut => ?_⟩
  · -- an interval that is open now has been cut
    have htb : h.opened = some tb := htb
    have hcut : (h.cut || h.opened.isSome) = false := hcut
    rw [htb, Option.isSome_some, Bool.or_true] at hcut
    cases hcut
  · have hcut : (h.cut || h.opened.isSome) = true := hcut
    have hopened : h.opened.isSome := by
      rcases Bool.or_eq_true_iff.1 hcut with hcut | hopened
      · exact (hp.cut hcut).1
      · exact hopened
    refine ⟨hopened, rfl, ?_⟩
    -- the head has been cleared
    obtain ⟨node, rest, hhead⟩ := List.exists_cons_of_ne_nil hne
    refine ⟨node, rest, hhead, ?_⟩
    rw [hnodes] at hhead
    cases front with
    | nil =>
      have hhead : cleared back = node :: rest := hhead
      exact status_of_mem_cleared (hhead ▸ List.mem_cons_self)
    | cons node' front =>
      have hmem : node ∈ cleared (node' :: front) :=
        List.mem_of_mem_head? (by rw [← (List.cons.inj hhead).1]; rfl)
      exact status_of_mem_cleared hmem

/-! ### Runs -/

/-- **The invariant of a run.** -/
def PerfRun.Ok (s : PerfRun) : Prop :=
  s.fault = false ∧ ∀ i < s.mon.num,
    (s.hist i).written = (s.hist i).expected ∧ PointOk (s.mon.monPoints i) (s.hist i)

theorem PerfRun.Ok.right {s : PerfRun} (h : s.Ok) : s.Right :=
  ⟨h.1, fun i hi => ⟨(h.2 i hi).1, (h.2 i hi).2.report_eq⟩⟩

/-- A call at one point keeps the invariant when it keeps that of the point. -/
theorem PerfRun.Ok.update {s : PerfRun} (h : s.Ok) {id : ℕ} {p : MonPoint} {hist : PointHistory}
    (hlines : hist.written = (s.hist id).written ∧ hist.expected = (s.hist id).expected)
    (hp : PointOk p hist) :
    PerfRun.Ok { s with
      mon := { s.mon with monPoints := Function.update s.mon.monPoints id p }
      hist := Function.update s.hist id hist } := by
  refine ⟨h.1, fun i hi => ?_⟩
  by_cases hid : i = id
  · subst hid
    simp only [Function.update_self]
    exact ⟨by rw [hlines.1, hlines.2]; exact (h.2 i hi).1, hp⟩
  · simp only [Function.update_of_ne hid]
    exact h.2 i hi

/-- The state after a call of `perf_mon_here` that is enabled. -/
theorem perfStep_here {s t : PerfRun} {id : ℕ} {status : ℤ} {now : Timeval}
    (hstep : perfStep s (.here id status now) = some t) :
    id < s.mon.num ∧ (status = stStart → (s.hist id).opened = none) ∧
      (status = stEnd → ∃ tb, (s.hist id).opened = some tb) ∧
      t = s.put id ((s.hist id).here status now) (perfMonHere s.mon id status now) := by
  rw [perfStep] at hstep
  split at hstep
  · cases hstep
  rename_i henabled
  simp only [not_or, not_and] at henabled
  obtain ⟨hid, hstart, hend⟩ := henabled
  exact ⟨Nat.lt_of_not_le hid, fun hs => by simpa using hstart hs,
    fun hs => Option.ne_none_iff_exists'.1 (hend hs), (Option.some.inj hstep).symm⟩

theorem perfStep_start {s t : PerfRun} {id : ℕ} {now : Timeval} (h : s.Ok)
    (hstep : perfStep s (.here id stStart now) = some t) :
    ((s.mon.monPoints id).cur ≠ none → t.Ok) ∧ (t.Right → (s.mon.monPoints id).cur ≠ none) := by
  obtain ⟨hid, -, -, ht⟩ := perfStep_here hstep
  rw [perfMonHere, if_pos rfl] at ht
  constructor
  · intro hcur
    obtain ⟨p', hp', hok⟩ := (h.2 id hid).2.start hcur now
    rw [hp'] at ht
    rw [ht]
    exact h.update ⟨rfl, rfl⟩ hok
  · rintro ⟨hfault, -⟩ hnone
    have hp' : (s.mon.monPoints id).start now = none := by rw [MonPoint.start, hnone]
    rw [hp'] at ht
    rw [ht] at hfault
    cases hfault

theorem perfStep_stop {s t : PerfRun} {id : ℕ} {now : Timeval} (h : s.Ok)
    (hstep : perfStep s (.here id stEnd now) = some t) :
    ((s.hist id).cut = false → t.Ok) ∧ (t.Right → (s.hist id).cut = false) := by
  obtain ⟨hid, -, hopened, ht⟩ := perfStep_here hstep
  obtain ⟨tb, hopened⟩ := hopened rfl
  rw [perfMonHere, if_neg (by decide), if_pos rfl] at ht
  have hhist : (s.hist id).here stEnd now =
      { s.hist id with opened := none, pending := (s.hist id).pending ++ [⟨tb, now⟩] } := by
    rw [PointHistory.here, if_neg (by decide), if_pos rfl, hopened]
    rfl
  rw [hhist] at ht
  constructor
  · intro hcut
    obtain ⟨p', hp', hok⟩ := (h.2 id hid).2.stop hopened hcut now
    rw [hp'] at ht
    rw [ht]
    exact h.update ⟨rfl, rfl⟩ hok
  · rintro ⟨-, hright⟩
    by_contra hcut
    obtain ⟨p', hp', hreport, -⟩ := (h.2 id hid).2.stop_cut (Bool.eq_true_of_not_eq_false hcut) now
    rw [hp'] at ht
    have hpoint : t.mon.monPoints id = p' := by rw [ht]; exact Function.update_self ..
    have hpending : (t.hist id).pending = (s.hist id).pending ++ [⟨tb, now⟩] := by
      rw [ht]
      simp [PerfRun.put]
    have hlost := (hright id (by rw [ht]; exact hid)).2
    rw [hpoint, hreport, hpending] at hlost
    simp at hlost

theorem perfStep_statis {s t : PerfRun} {now : Tm} (h : s.Ok)
    (hstep : perfStep s (.statis now) = some t) :
    (PerfOk s (.statis now) → t.Ok) ∧ (t.Right → PerfOk s (.statis now)) := by
  cases hstep
  -- what is written for each point is what is pending
  have hwhole (i : ℕ) (hi : i < s.mon.num) : ((perfStatis s.mon now).1 i).Whole ↔
      ((s.mon.monPoints i).file s.mon.pid now).length < 512 ∧
        ∀ v ∈ (s.hist i).pending, ((s.mon.monPoints i).line s.mon.pid v).length < 512 := by
    rw [← (h.2 i hi).2.report_eq]
    exact and_congr_right fun _ => List.forall_mem_map
  constructor
  · intro hok
    refine ⟨?_, fun i hi => ?_⟩
    · rw [h.1, Bool.false_or, decide_eq_false_iff_not]
      rintro ⟨i, hi, hbroken⟩
      exact hbroken ((hwhole i hi).2 (hok i hi))
    · simp only [if_pos (show i < s.mon.num from hi)]
      obtain ⟨hlines, hp⟩ := h.2 i hi
      refine ⟨?_, hp.report _ _⟩
      simp only [PointHistory.report, hp.report_eq, hlines]
  · rintro ⟨hfault, -⟩ i hi
    refine (hwhole i hi).1 ?_
    by_contra hbroken
    have hex : ∃ i < s.mon.num, ¬ ((perfStatis s.mon now).1 i).Whole := ⟨i, hi, hbroken⟩
    have hfault := (Bool.or_eq_false_iff.1 hfault).2
    exact (decide_eq_false_iff_not.1 hfault) hex

/-- **The condition decides** whether intervals are still written once after the call. -/
theorem perfStep_right_iff {s t : PerfRun} {op : PerfOp} (h : s.Ok)
    (hstep : perfStep s op = some t) : (PerfOk s op → t.Ok) ∧ (t.Right → PerfOk s op) := by
  cases op with
  | statis now => exact perfStep_statis h hstep
  | here id status now =>
    by_cases hstart : status = stStart
    · subst hstart
      obtain ⟨hto, hfrom⟩ := perfStep_start h hstep
      exact ⟨fun hok => hto (hok.1 rfl), fun hright => ⟨fun _ => hfrom hright,
        fun hend => absurd hend (by decide)⟩⟩
    by_cases hend : status = stEnd
    · subst hend
      obtain ⟨hto, hfrom⟩ := perfStep_stop h hstep
      exact ⟨fun hok => hto (hok.2 rfl), fun hright => ⟨fun hstart => absurd hstart (by decide),
        fun _ => hfrom hright⟩⟩
    -- any other status is refused
    obtain ⟨hid, -, -, ht⟩ := perfStep_here hstep
    rw [perfMonHere, if_neg hstart, if_neg hend, PointHistory.here, if_neg hstart,
      if_neg hend] at ht
    have ht : t = s := by
      rw [ht, PerfRun.put, Function.update_eq_self]
    exact ⟨fun _ => ht ▸ h, fun _ => ⟨fun hs => absurd hs hstart, fun hs => absurd hs hend⟩⟩

/-- The points of a program: `perf_mon_init`, and a call of `perf_mon_add` for each. -/
def perfSetup (pid maxPoint presetTimes : ℤ) (points : List (ℤ × List UInt8)) : PerfMon :=
  points.foldl (fun mon point => (perfMonAdd mon point.1 point.2).2)
    (perfMonInit pid maxPoint presetTimes)

/-- A point has nodes, none in use, and the cursor at the head. -/
def MonPoint.Fresh (p : MonPoint) : Prop :=
  p.nodes ≠ [] ∧ p.cur = some 0 ∧ ∀ node ∈ p.nodes, node.status = 0

theorem perfSetup_fresh {pid maxPoint presetTimes : ℤ} (h : 1 ≤ presetTimes)
    (points : List (ℤ × List UInt8)) (i : ℕ) :
    ((perfSetup pid maxPoint presetTimes points).monPoints i).Fresh := by
  suffices hall : ∀ mon : PerfMon, (∀ i, (mon.monPoints i).Fresh) →
      ∀ i, ((points.foldl (fun mon point => (perfMonAdd mon point.1 point.2).2) mon).monPoints
        i).Fresh by
    refine hall _ (fun i => ?_) i
    have hne : linklistCreate presetTimes ≠ [] := by
      rw [linklistCreate, ne_eq, List.replicate_eq_nil_iff]
      omega
    rw [perfMonInit]
    simp only [if_neg (show ¬ presetTimes < 0 by omega)]
    refine ⟨hne, if_neg hne, fun node hmem => ?_⟩
    rw [List.eq_of_mem_replicate hmem]
    rfl
  induction points with
  | nil => exact fun _ hmon => hmon
  | cons point points ih =>
    refine fun mon hmon => ih _ fun i => ?_
    show ((perfMonAdd mon point.1 point.2).2.monPoints i).Fresh
    unfold perfMonAdd
    split_ifs
    · exact hmon i
    · by_cases hi : i = mon.num
      · subst hi
        simp only [Function.update_self]
        exact hmon mon.num
      · simp only [Function.update_of_ne hi]
        exact hmon i

/-- **Intervals are written once, by the first report behind their end**, with their own times and
without other lines, at each moment of a run exactly when all its calls meet the condition. -/
theorem perf_once_iff {pid maxPoint presetTimes : ℤ} (h : 1 ≤ presetTimes)
    (points : List (ℤ × List UInt8)) (ops : List PerfOp) :
    Lts.SafePrefixes perfStep PerfRun.Right
        (PerfRun.start (perfSetup pid maxPoint presetTimes points)) ops ↔
      Lts.Guarded perfStep PerfOk
        (PerfRun.start (perfSetup pid maxPoint presetTimes points)) ops := by
  have hok : (PerfRun.start (perfSetup pid maxPoint presetTimes points)).Ok := by
    refine ⟨rfl, fun i _ => ⟨rfl, [],
      ((perfSetup pid maxPoint presetTimes points).monPoints i).nodes, ?_⟩⟩
    obtain ⟨hne, hcur, hfree⟩ := @perfSetup_fresh pid maxPoint presetTimes h points i
    refine ⟨rfl, hne, hcur.trans (if_neg hne).symm, fun _ hmem => absurd hmem List.not_mem_nil,
      rfl, fun node hmem => ?_, fun _ hnone => ?_, fun hcut => ?_⟩
    · rw [hfree node hmem]
      exact Nat.zero_lt_two
    · cases hnone
    · cases hcut
  exact Lts.safe_prefixes_iff_guarded PerfRun.Ok
    (fun s op t hs hst => ⟨(perfStep_right_iff hs hst).2,
      fun hguard => ((perfStep_right_iff hs hst).1 hguard).right⟩)
    (fun s op t hs hst ht => (perfStep_right_iff hs hst).1 ((perfStep_right_iff hs hst).2 ht))
    hok hok.right ops

/-- Two intervals at a point with one node, with a report behind each. -/
theorem perf_once_iff_twoIntervals :
    Lts.SafePrefixes perfStep PerfRun.Right
      (PerfRun.start (perfSetup 7 5 1 [(0, ascii "test0")]))
      [.here 0 1 ⟨1, 100⟩, .here 0 2 ⟨1, 200⟩, .statis ⟨113, 3, 13, 10, 0, 0⟩,
        .here 0 1 ⟨2, 100⟩, .here 0 2 ⟨2, 200⟩, .statis ⟨113, 3, 13, 10, 0, 1⟩] :=
  (perf_once_iff (by decide) _ _).2 (by decide)

/-- **A report inside of an interval loses it**: the end is noted at the head of the list, where the
start has been cleared, and the report behind it writes no line. -/
theorem report_loses_interval :
    ∃ s, Lts.run perfStep (PerfRun.start (perfSetup 7 5 10 [(0, ascii "test0")]))
        [.here 0 1 ⟨1, 100⟩, .statis ⟨113, 3, 13, 10, 0, 0⟩, .here 0 2 ⟨1, 200⟩,
          .statis ⟨113, 3, 13, 10, 0, 1⟩] = some s ∧
      (s.hist 0).expected = [ascii "7|0|test0|1.100|1.200\n"] ∧ (s.hist 0).written = [] ∧
        ¬ s.Right := by
  refine ⟨_, rfl, by decide, by decide, fun hright => ?_⟩
  exact absurd (hright.2 0 (by decide)).1 (by decide)

end F1Goal
