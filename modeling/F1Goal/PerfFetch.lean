import F1Goal.Lib.Python
import F1Goal.PerfMon
import F1Goal.TimeInterval

/-!
# From a report to the statistics (`perf_mon.c`, `tools/Perf_statis.py`)

A report of `perf_statis` is a directory with a file for each point and the list of their names.
`fetch_data` reads the list and the files back into a dictionary of intervals. `fetch_report` says
that this works: behind any calls that meet the condition of a report, what `fetch_data` finds under
a name are the intervals that have ended at the points of this name since the last report, in
order, as seconds and less than a million microseconds.
-/

namespace F1Goal

open CString Decimal Python

/-! ### Files -/

/-- What each path holds, where there is a file. -/
abbrev Files := List UInt8 → Option (List UInt8)

/-- `open()` with `O_CREAT`, and `write()` from the start: what the file held behind these bytes is
left there. -/
def writeFile (fs : Files) (path bytes : List UInt8) : Files :=
  Function.update fs path (some (bytes ++ ((fs path).getD []).drop bytes.length))

/-- `"%s/file_list"` -/
def fileList (now : Tm) : List UInt8 := reportPath now ++ ascii "/file_list"

/-- The files after a report; `none` when `write()` has read behind a text that does not fit. -/
def reportFiles (mon : PerfMon) (now : Tm) (fs : Files) : Option Files :=
  let files := (perfStatis mon now).1
  let points := List.range mon.num
  if ∀ i ∈ points, (files i).Whole then
    some (points.foldl (fun fs i => writeFile fs (files i).name (files i).lines.flatten)
      (writeFile fs (fileList now) (points.flatMap fun i => (files i).name ++ ascii "\n")))
  else none

/-- The names of the points can be told from the rest of a line and of a path. -/
def MonPoint.Named (p : MonPoint) : Prop := ∀ c ∈ p.name, c ≠ 10 ∧ c ≠ 124 ∧ c ≠ 47

instance (p : MonPoint) : Decidable p.Named := List.decidableBAll _ p.name

/-! ### `fetch_data` -/

/-- The dictionary of intervals: those of each module, as seconds and microseconds. -/
abbrev ModsData := List (List UInt8 × List (ℤ × ℤ))

/-- The difference of two texts. -/
def intDiff (te tb : Option (List UInt8)) : Option ℤ := do
  let e ← int (← te)
  let b ← int (← tb)
  return e - b

/-- A turn of the inner loop of `fetch_data`, for a line without its newline; `none` is an
exception. -/
def fetchLine (mods : ModsData) (line : List UInt8) : Option ModsData :=
  let segs := line.splitOn 124
  if segs.length < 5 then some mods
  else do
    let tb := (segs.getD 3 []).splitOn 46
    let te := (segs.getD 4 []).splitOn 46
    let sec ← intDiff te[0]? tb[0]?
    let usec ← intDiff te[1]? tb[1]?
    return appendTo mods (segs.getD 2 [])
      (if usec < 0 then (sec - 1, usec + 1000000) else (sec, usec))

/-- `fetch_data`; `none` is an exception. -/
def fetchData (fs : Files) (filelist : List UInt8) : Option ModsData := do
  let list ← fs filelist
  (segments [10] list).foldlM (fun mods fileName => do
    let text ← fs fileName
    (segments [10] text).foldlM fetchLine mods) []

/-! ### A line -/

/-- How long an interval is, in seconds and less than a million microseconds. -/
def Interval.elapsed (v : Interval) : ℤ × ℤ :=
  ((v.te.micros - v.tb.micros) / 1000000, (v.te.micros - v.tb.micros) % 1000000)

/-- Both times of an interval are as `gettimeofday` makes them. -/
def Interval.Normal (v : Interval) : Prop := v.tb.Normal ∧ v.te.Normal

/-- `"%ld.%ld"` -/
def timeText (tv : Timeval) : List UInt8 := print tv.sec ++ 46 :: print tv.usec

/-- The line of an interval, without its newline. -/
def MonPoint.row (p : MonPoint) (pid : ℤ) (v : Interval) : List UInt8 :=
  [124].intercalate [print pid, print p.id, p.name, timeText v.tb, timeText v.te]

theorem MonPoint.line_eq (p : MonPoint) (pid : ℤ) (v : Interval) :
    p.line pid v = p.row pid v ++ [10] := by
  simp [MonPoint.line, MonPoint.row, timeText, List.intercalate, List.intersperse, decimal, print,
    digits, ascii]

theorem splitOn_time (tv : Timeval) :
    (timeText tv).splitOn 46 = [print tv.sec, print tv.usec] := by
  have htext : timeText tv = [46].intercalate [print tv.sec, print tv.usec] := by
    simp [timeText, List.intercalate]
  rw [htext]
  refine List.splitOn_intercalate 46 ?_ (List.cons_ne_nil _ _)
  simp only [List.mem_cons, List.not_mem_nil, or_false, forall_eq_or_imp, forall_eq]
  exact ⟨notMem_print (by decide) (by decide), notMem_print (by decide) (by decide)⟩

/-- A byte that is no digit, sign or dot does not stand in a time. -/
theorem notMem_time {tv : Timeval} {c : UInt8} (h1 : c ≠ 45) (h2 : c ≠ 46) (h3 : c < 48 ∨ 57 < c) :
    c ∉ timeText tv := by
  rw [timeText, List.mem_append, List.mem_cons]
  rintro (h | h | h)
  · exact notMem_print h1 h3 h
  · exact h2 h
  · exact notMem_print h1 h3 h

/-- The fields of a line. -/
theorem splitOn_row {p : MonPoint} (hname : 124 ∉ p.name) (pid : ℤ) (v : Interval) :
    (p.row pid v).splitOn 124 =
      [print pid, print p.id, p.name, timeText v.tb, timeText v.te] := by
  refine List.splitOn_intercalate 124 ?_ (List.cons_ne_nil _ _)
  simp only [List.mem_cons, List.not_mem_nil, or_false, forall_eq_or_imp, forall_eq]
  exact ⟨notMem_print (by decide) (by decide), notMem_print (by decide) (by decide), hname,
    notMem_time (by decide) (by decide) (by decide),
    notMem_time (by decide) (by decide) (by decide)⟩

theorem intDiff_print (a b : ℤ) : intDiff (some (print a)) (some (print b)) = some (a - b) := by
  simp [intDiff, int_print]

/-- The borrow of `fetch_data`. -/
theorem elapsed_eq {v : Interval} (hv : v.Normal) :
    (if v.te.usec - v.tb.usec < 0 then
      (v.te.sec - v.tb.sec - 1, v.te.usec - v.tb.usec + 1000000)
      else (v.te.sec - v.tb.sec, v.te.usec - v.tb.usec)) = v.elapsed := by
  obtain ⟨hb, he⟩ := hv
  have hb1 := hb.usec_nonneg
  have hb2 := hb.usec_lt
  have he1 := he.usec_nonneg
  have he2 := he.usec_lt
  unfold Interval.elapsed Timeval.micros
  split_ifs with hneg <;> refine Prod.ext ?_ ?_ <;> dsimp only <;> omega

/-- **A line is read back** as the interval that it was written for. -/
theorem fetchLine_row {p : MonPoint} (hname : 124 ∉ p.name) (pid : ℤ) {v : Interval}
    (hv : v.Normal) (mods : ModsData) :
    fetchLine mods (p.row pid v) = some (appendTo mods p.name v.elapsed) := by
  rw [fetchLine, splitOn_row hname, ← elapsed_eq hv]
  simp [splitOn_time, intDiff_print]

theorem newline_notMem_row {p : MonPoint} (hname : 10 ∉ p.name) (pid : ℤ) (v : Interval) :
    10 ∉ p.row pid v := by
  have hrow : p.row pid v = print pid ++ 124 :: (print p.id ++ 124 :: (p.name ++ 124 ::
      (timeText v.tb ++ 124 :: timeText v.te))) := by
    simp [MonPoint.row, List.intercalate]
  have hnum (n : ℤ) : 10 ∉ print n := notMem_print (by decide) (by decide)
  have htime (tv : Timeval) : 10 ∉ timeText tv :=
    notMem_time (by decide) (by decide) (by decide)
  simp [hrow, hnum, htime, hname]

/-! ### A file -/

/-- **A file is read back** as the intervals that it was written for. -/
theorem fetch_lines {p : MonPoint} (hp : p.Named) (pid : ℤ) {vs : List Interval}
    (hvs : ∀ v ∈ vs, v.Normal) (mods : ModsData) :
    (segments [10] (vs.map (p.line pid)).flatten).foldlM fetchLine mods =
      some (vs.foldl (fun mods v => appendTo mods p.name v.elapsed) mods) := by
  have hlines : (vs.map (p.line pid)).flatten = (vs.map (p.row pid)).flatMap fun row => row ++ [10] := by
    rw [List.flatMap_map, ← List.flatMap_def]
    congr 1
    funext v
    exact p.line_eq pid v
  rw [hlines, segments_flatMap]
  · clear hlines
    induction vs generalizing mods with
    | nil => rfl
    | cons v vs ih =>
      obtain ⟨hv, hrest⟩ := List.forall_mem_cons.1 hvs
      rw [List.map_cons, List.foldlM_cons, fetchLine_row (fun h => (hp _ h).2.1 rfl) pid hv]
      exact ih hrest _
  · rintro row hrow
    obtain ⟨v, -, rfl⟩ := List.mem_map.1 hrow
    exact newline_notMem_row (fun h => (hp _ h).1 rfl) pid v

/-! ### The directory -/

theorem file_eq (p : MonPoint) (pid : ℤ) (now : Tm) : p.file pid now = reportPath now ++
    47 :: (print pid ++ 46 :: (print p.id ++ 46 :: (p.name ++ ascii ".perf"))) := by
  simp [MonPoint.file, decimal, print, digits, ascii]

theorem fileList_eq (now : Tm) : fileList now = reportPath now ++ 47 :: ascii "file_list" := rfl

/-- The name of a file tells the identifier of its point. -/
theorem file_inj {p q : MonPoint} {pid : ℤ} {now : Tm} (h : p.file pid now = q.file pid now) :
    p.id = q.id := by
  rw [file_eq, file_eq] at h
  have h := (List.cons.inj (List.append_cancel_left (List.cons.inj (List.append_cancel_left h)).2)).2
  have hread (n : ℤ) (rest : List UInt8) := readNumber_print n (46 :: rest) (by simp; decide)
  have hnum := (hread p.id _).symm.trans ((congrArg (readNumber 10) h).trans (hread q.id _))
  simp only [Prod.mk.injEq] at hnum
  rw [← signed_natAbs p.id, ← signed_natAbs q.id, hnum.1, hnum.2.1]

theorem file_ne_list (p : MonPoint) (pid : ℤ) (now : Tm) : p.file pid now ≠ fileList now := by
  rw [file_eq, fileList_eq]
  intro h
  have h := (List.cons.inj (List.append_cancel_left h)).2
  -- the one goes on with a digit or a sign
  obtain ⟨c, rest, hpid⟩ := List.exists_cons_of_ne_nil (print_ne_nil pid)
  rw [hpid] at h
  have hc : c = 102 := (List.cons.inj h).1
  have hmem : c ∈ print pid := by
    rw [hpid]
    exact List.mem_cons_self
  rw [hc] at hmem
  exact notMem_print (by decide) (by decide) hmem

theorem newline_notMem_path (now : Tm) : 10 ∉ reportPath now := by
  have hnum (n : ℤ) : 10 ∉ print n := notMem_print (by decide) (by decide)
  change 10 ∉ print _ ++ ascii "-" ++ print _ ++ ascii "-" ++ print _ ++ ascii "_" ++ print _ ++
    ascii "." ++ print _ ++ ascii "." ++ print _
  simp [hnum, ascii]

theorem newline_notMem_file {p : MonPoint} (hname : 10 ∉ p.name) (pid : ℤ) (now : Tm) :
    10 ∉ p.file pid now := by
  have hnum (n : ℤ) : 10 ∉ print n := notMem_print (by decide) (by decide)
  rw [file_eq]
  simp [hnum, newline_notMem_path, hname, ascii]

/-- Files that are written to different paths, none of which is there before. -/
theorem foldl_writeFile {ι : Type*} {path : ι → List UInt8} (bytes : ι → List UInt8) {is : List ι}
    {fs : Files} (hnew : ∀ i ∈ is, fs (path i) = none) (hnodup : (is.map path).Nodup) :
    (∀ i ∈ is, is.foldl (fun fs i => writeFile fs (path i) (bytes i)) fs (path i) =
        some (bytes i)) ∧
      ∀ f, (∀ i ∈ is, f ≠ path i) →
        is.foldl (fun fs i => writeFile fs (path i) (bytes i)) fs f = fs f := by
  induction is generalizing fs with
  | nil => exact ⟨fun _ h => absurd h List.not_mem_nil, fun _ _ => rfl⟩
  | cons j is ih =>
    obtain ⟨hj, hnodup⟩ := List.nodup_cons.1 hnodup
    have hne (i : ι) (hi : i ∈ is) : path i ≠ path j := fun h => hj (h ▸ List.mem_map_of_mem hi)
    obtain ⟨hin, hout⟩ := @ih (writeFile fs (path j) (bytes j))
      (fun i hi => (Function.update_of_ne (hne i hi) _ _).trans
        (hnew i (List.mem_cons_of_mem _ hi))) hnodup
    refine ⟨fun i hi => ?_, fun f hf => ?_⟩
    · rcases List.mem_cons.1 hi with rfl | hi
      · rw [List.foldl_cons, hout _ fun k hk => (hne k hk).symm, writeFile, Function.update_self,
          hnew i List.mem_cons_self]
        simp
      · exact hin i hi
    · rw [List.foldl_cons, hout f fun i hi => hf i (List.mem_cons_of_mem _ hi)]
      exact Function.update_of_ne (hf j List.mem_cons_self) _ _

/-- The files of some points, one after the other. -/
theorem fetch_files {mon : PerfMon} {path : ℕ → List UInt8} {fs : Files} {is : List ℕ}
    (hfile : ∀ i ∈ is, fs (path i) =
      some ((mon.monPoints i).report.map ((mon.monPoints i).line mon.pid)).flatten)
    (hnamed : ∀ i ∈ is, (mon.monPoints i).Named)
    (hnormal : ∀ i ∈ is, ∀ v ∈ (mon.monPoints i).report, v.Normal) (mods : ModsData) :
    (is.map path).foldlM (fun mods fileName => do
        let text ← fs fileName
        (segments [10] text).foldlM fetchLine mods) mods =
      some (is.foldl (fun mods i => (mon.monPoints i).report.foldl
        (fun mods v => appendTo mods (mon.monPoints i).name v.elapsed) mods) mods) := by
  induction is generalizing mods with
  | nil => rfl
  | cons i is ih =>
    simp only [List.forall_mem_cons] at hfile hnamed hnormal
    simp only [List.map_cons, List.foldlM_cons, hfile.1, Option.bind_eq_bind, Option.bind_some,
      fetch_lines hnamed.1 mon.pid hnormal.1, List.foldl_cons]
    exact ih hfile.2 hnamed.2 hnormal.2 _

/-- What the dictionary holds behind some points. -/
theorem listOf_points (mon : PerfMon) (is : List ℕ) (mods : ModsData) (name : List UInt8) :
    listOf (is.foldl (fun mods i => (mon.monPoints i).report.foldl
        (fun mods v => appendTo mods (mon.monPoints i).name v.elapsed) mods) mods) name =
      listOf mods name ++ (is.filter fun i => (mon.monPoints i).name = name).flatMap fun i =>
        (mon.monPoints i).report.map Interval.elapsed := by
  induction is generalizing mods with
  | nil => simp
  | cons i is ih =>
    have hone := listOf_foldl_appendTo
      ((mon.monPoints i).report.map fun v => ((mon.monPoints i).name, v.elapsed)) mods name
    rw [List.foldl_map] at hone
    rw [List.foldl_cons, ih, hone, List.append_assoc, List.filter_cons]
    congr 1
    by_cases h : (mon.monPoints i).name = name <;> simp [h, List.filter_map, Function.comp_def]

/-- **A report is read back**: what `fetch_data` finds under a name are the intervals that were
written for the points of this name. -/
theorem fetch_reportFiles {mon : PerfMon} {now : Tm} {fs : Files}
    (hwhole : ∀ i < mon.num, ((perfStatis mon now).1 i).Whole)
    (hfresh : ∀ f, reportPath now ++ [47] <+: f → fs f = none)
    (hid : ∀ i < mon.num, ∀ j < mon.num, (mon.monPoints i).id = (mon.monPoints j).id → i = j)
    (hnamed : ∀ i < mon.num, (mon.monPoints i).Named)
    (hnormal : ∀ i < mon.num, ∀ v ∈ (mon.monPoints i).report, v.Normal) :
    ∃ fs' mods, reportFiles mon now fs = some fs' ∧ fetchData fs' (fileList now) = some mods ∧
      ∀ name, listOf mods name =
        ((List.range mon.num).filter fun i => (mon.monPoints i).name = name).flatMap fun i =>
          (mon.monPoints i).report.map Interval.elapsed := by
  let path (i : ℕ) : List UInt8 := (mon.monPoints i).file mon.pid now
  let bytes (i : ℕ) : List UInt8 :=
    ((mon.monPoints i).report.map ((mon.monPoints i).line mon.pid)).flatten
  let listing : List UInt8 := (List.range mon.num).flatMap fun i => path i ++ ascii "\n"
  -- the list and the files are new, and different from each other
  have hinside (w : List UInt8) : reportPath now ++ [47] <+: reportPath now ++ 47 :: w :=
    (List.prefix_append_right_inj _).2 (List.cons_prefix_cons.2 ⟨rfl, List.nil_prefix⟩)
  have hlist : fs (fileList now) = none := hfresh _ (hinside _)
  have hnew (i : ℕ) : writeFile fs (fileList now) listing (path i) = none := by
    rw [writeFile, Function.update_of_ne (file_ne_list _ _ _)]
    exact hfresh _ ((file_eq _ _ _).symm ▸ hinside _)
  have hnodup : ((List.range mon.num).map path).Nodup := by
    refine List.Nodup.map_on (fun i hi j hj h => ?_) List.nodup_range
    exact hid i (List.mem_range.1 hi) j (List.mem_range.1 hj) (file_inj h)
  obtain ⟨hfile, hrest⟩ := foldl_writeFile bytes (fun i _ => hnew i) hnodup
  have hlisting := hrest (fileList now) fun i _ => (file_ne_list _ _ _).symm
  have hnames : segments [10] listing = (List.range mon.num).map path := by
    have hflat : listing = ((List.range mon.num).map path).flatMap fun f => f ++ [10] := by
      rw [List.flatMap_map]
      rfl
    rw [hflat, segments_flatMap]
    intro f hf
    obtain ⟨i, hi, rfl⟩ := List.mem_map.1 hf
    exact newline_notMem_file (fun h => (hnamed i (List.mem_range.1 hi) _ h).1 rfl) mon.pid now
  have hlisted : writeFile fs (fileList now) listing (fileList now) = some listing := by
    rw [writeFile, Function.update_self, hlist, Option.getD_none, List.drop_nil, List.append_nil]
  have hfiles : reportFiles mon now fs = some ((List.range mon.num).foldl
      (fun fs i => writeFile fs (path i) (bytes i)) (writeFile fs (fileList now) listing)) :=
    if_pos fun i hi => hwhole i (List.mem_range.1 hi)
  refine ⟨_, _, hfiles, Option.bind_eq_some_iff.2 ⟨listing, hlisting.trans hlisted, ?_⟩,
    fun name => (listOf_points mon (List.range mon.num) [] name).trans (List.nil_append _)⟩
  rw [hnames]
  exact fetch_files hfile (fun i hi => hnamed i (List.mem_range.1 hi))
    (fun i hi => hnormal i (List.mem_range.1 hi)) []

/-! ### Runs -/

/-- The time of a call is as `gettimeofday` makes it. -/
def PerfOp.Normal : PerfOp → Prop
  | .here _ _ now => now.Normal
  | .statis _ => True

instance (tv : Timeval) : Decidable tv.Normal :=
  decidable_of_iff ((-2 ^ 63 ≤ tv.sec ∧ tv.sec < 2 ^ 63) ∧ 0 ≤ tv.usec ∧ tv.usec < 1000000)
    ⟨fun h => ⟨h.1.1, h.1.2, h.2.1, h.2.2⟩,
      fun h => ⟨⟨h.sec_ge, h.sec_lt⟩, h.usec_nonneg, h.usec_lt⟩⟩

instance : ∀ op : PerfOp, Decidable op.Normal
  | .here _ _ now => inferInstanceAs (Decidable now.Normal)
  | .statis _ => inferInstanceAs (Decidable True)

/-- The times in the history of a point are. -/
def PointHistory.Normal (h : PointHistory) : Prop :=
  (∀ tb, h.opened = some tb → tb.Normal) ∧ ∀ v ∈ h.pending, v.Normal

theorem PointHistory.Normal.here {h : PointHistory} (hh : h.Normal) (status : ℤ) {now : Timeval}
    (hnow : now.Normal) : (h.here status now).Normal := by
  unfold PointHistory.here
  split_ifs
  · exact ⟨fun tb htb => Option.some.inj htb ▸ hnow, hh.2⟩
  · refine ⟨fun _ hnone => (by cases hnone), fun v hv => ?_⟩
    rcases List.mem_append.1 hv with hv | hv
    · exact hh.2 v hv
    · obtain ⟨tb, htb, rfl⟩ := Option.map_eq_some_iff.1 (Option.mem_toList.1 hv)
      exact ⟨hh.1 tb htb, hnow⟩
  · exact hh

theorem perfStep_normal {s t : PerfRun} {op : PerfOp} (h : ∀ i, (s.hist i).Normal)
    (hop : op.Normal) (hstep : perfStep s op = some t) (i : ℕ) : (t.hist i).Normal := by
  cases op with
  | statis now =>
    cases hstep
    dsimp only
    split_ifs
    · exact ⟨(h i).1, fun _ hv => absurd hv List.not_mem_nil⟩
    · exact h i
  | here id status now =>
    obtain ⟨-, -, -, rfl⟩ := perfStep_here hstep
    unfold PerfRun.put
    split
    · exact h i
    · by_cases hi : i = id
      · subst hi
        simp only [Function.update_self]
        exact (h i).here status hop
      · simp only [Function.update_of_ne hi]
        exact h i

theorem perfStart_ok {pid maxPoint presetTimes : ℤ} (h : 1 ≤ presetTimes)
    (points : List (ℤ × List UInt8)) :
    (PerfRun.start (perfSetup pid maxPoint presetTimes points)).Ok := by
  refine ⟨rfl, fun i _ => ⟨rfl, [],
    ((perfSetup pid maxPoint presetTimes points).monPoints i).nodes, ?_⟩⟩
  obtain ⟨hne, hcur, hfree⟩ := @perfSetup_fresh pid maxPoint presetTimes h points i
  exact {
    nodes := rfl
    ne := hne
    cur := hcur.trans (if_neg hne).symm
    full := fun _ hmem => absurd hmem List.not_mem_nil
    pending := rfl
    free := fun node hmem => (hfree node hmem).symm ▸ Nat.zero_lt_two
    opened := fun _ hnone => by cases hnone
    cut := fun hcut => by cases hcut }

/-- **From the points to the statistics**: behind any calls that meet the condition of a report, the
next report leaves files in which `fetch_data` finds, under the name of a module, the intervals that
have ended at its points since the last report, with the time between their start and their end. -/
theorem fetch_report {pid maxPoint presetTimes : ℤ} (h : 1 ≤ presetTimes)
    (points : List (ℤ × List UInt8)) (ops : List PerfOp) {s : PerfRun}
    (hrun : Lts.run perfStep (PerfRun.start (perfSetup pid maxPoint presetTimes points)) ops = some s)
    (hops : Lts.Guarded perfStep (fun s op => PerfOk s op ∧ op.Normal)
      (PerfRun.start (perfSetup pid maxPoint presetTimes points)) ops)
    (hid : ∀ i < s.mon.num, ∀ j < s.mon.num,
      (s.mon.monPoints i).id = (s.mon.monPoints j).id → i = j)
    (hnamed : ∀ i < s.mon.num, (s.mon.monPoints i).Named) {now : Tm} {fs : Files}
    (hnow : PerfOk s (.statis now)) (hfresh : ∀ f, reportPath now ++ [47] <+: f → fs f = none) :
    ∃ fs' mods, reportFiles s.mon now fs = some fs' ∧ fetchData fs' (fileList now) = some mods ∧
      ∀ name, listOf mods name =
        ((List.range s.mon.num).filter fun i => (s.mon.monPoints i).name = name).flatMap fun i =>
          (s.hist i).pending.map Interval.elapsed := by
  obtain ⟨⟨-, hok⟩, hnormal⟩ := Lts.guarded_invariant
    (I := fun s : PerfRun => s.Ok ∧ ∀ i, (s.hist i).Normal)
    (fun s op t hs hop hst => ⟨(perfStep_right_iff hs.1 hst).1 hop.1,
      perfStep_normal hs.2 hop.2 hst⟩)
    ⟨perfStart_ok h points, fun i => ⟨fun _ hnone => (by cases hnone),
      fun _ hv => absurd hv List.not_mem_nil⟩⟩ hops hrun
  have hreport (i : ℕ) (hi : i < s.mon.num) : (s.mon.monPoints i).report = (s.hist i).pending :=
    (hok i hi).2.report_eq
  have hwhole (i : ℕ) (hi : i < s.mon.num) : ((perfStatis s.mon now).1 i).Whole := by
    obtain ⟨hname, hlines⟩ := hnow i hi
    refine ⟨hname, List.forall_mem_map.2 fun v hv => hlines v ?_⟩
    rwa [← hreport i hi]
  obtain ⟨fs', mods, hfiles, hmods, hlist⟩ := fetch_reportFiles hwhole hfresh hid hnamed
    fun i hi v hv => (hnormal i).2 v (hreport i hi ▸ hv)
  refine ⟨fs', mods, hfiles, hmods, fun name => (hlist name).trans ?_⟩
  refine List.flatMap_congr fun i hi => ?_
  rw [hreport i (List.mem_range.1 (List.mem_of_mem_filter hi))]

/-- Two points of one module and one of another. -/
def threePoints : List (ℤ × List UInt8) := [(0, ascii "net"), (1, ascii "disk"), (4, ascii "net")]

/-- Intervals at all points, one over the end of a second, a report, and intervals behind it. -/
def twoReports : List PerfOp :=
  [.here 0 1 ⟨1, 999900⟩, .here 1 1 ⟨2, 0⟩, .here 0 2 ⟨2, 100⟩, .here 1 2 ⟨2, 50⟩,
    .statis ⟨113, 3, 13, 10, 0, 0⟩, .here 2 1 ⟨3, 10⟩, .here 0 1 ⟨3, 20⟩, .here 2 2 ⟨3, 40⟩,
    .here 0 2 ⟨5, 20⟩, .here 0 1 ⟨6, 999999⟩, .here 0 2 ⟨7, 1⟩]

/-- The second report is read back: the intervals of both points under the name of their module. -/
theorem fetch_report_twoReports : ∃ fs' mods,
    fetchData fs' (fileList ⟨113, 3, 13, 10, 0, 8⟩) = some mods ∧
      listOf mods (ascii "net") = [(2, 0), (0, 2), (0, 30)] ∧ listOf mods (ascii "disk") = [] := by
  obtain ⟨fs', mods, -, hmods, hlist⟩ := @fetch_report 7 5 10 (by decide) threePoints
    twoReports _ rfl (by decide) (by decide) (by decide) ⟨113, 3, 13, 10, 0, 8⟩ (fun _ => none)
    (by decide) (fun _ _ => rfl)
  exact ⟨fs', mods, hmods, (hlist _).trans (by decide), (hlist _).trans (by decide)⟩

end F1Goal
