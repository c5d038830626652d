import Mathlib.Tactic

/-!
# Statistics of the performance points (`tools/Perf_statis.py`)

`statis` adds up the intervals of a module as seconds and microseconds. When there are more than a
million microseconds, it carries a second but keeps the quotient where the remainder belongs. So the
sum is right when there is no carry, or when the carries make up for each other
(`statis_exact_iff`). The least and the greatest interval begin with `0xffffffff` and 0.
-/

namespace F1Goal

/-- An interval of `mods_data`, with less than a second of microseconds. -/
structure Elapsed where
  sec : ℤ
  usec : ℕ
  usec_lt : usec < 1000000

/-- The interval in microseconds. -/
def Elapsed.micros (e : Elapsed) : ℤ := e.sec * 1000000 + e.usec

/-- What `statis` keeps of a module. -/
structure Statis where
  sec : ℤ
  usec : ℕ
  minUsecs : ℤ
  maxUsecs : ℤ
  realNum : ℕ
  zeroCount : ℕ
  deriving DecidableEq, Repr

namespace Statis

def init : Statis :=
  { sec := 0, usec := 0, minUsecs := 0xffffffff, maxUsecs := 0, realNum := 0, zeroCount := 0 }

/-- A turn of the loop. -/
def add (s : Statis) (e : Elapsed) : Statis :=
  let usecs := e.sec * 1000000 + e.usec
  if usecs = 0 then { s with zeroCount := s.zeroCount + 1 }
  else
    let minUsecs := if s.minUsecs > usecs then usecs else s.minUsecs
    let maxUsecs := if s.maxUsecs < usecs then usecs else s.maxUsecs
    let sec := s.sec + e.sec
    let usec := s.usec + e.usec
    if 1000000 ≤ usec then
      { s with
        sec := sec + (usec / 1000000 : ℕ), usec := usec / 1000000, minUsecs := minUsecs,
        maxUsecs := maxUsecs, realNum := s.realNum + 1 }
    else
      { s with
        sec := sec, usec := usec, minUsecs := minUsecs, maxUsecs := maxUsecs,
        realNum := s.realNum + 1 }

/-- The time that is kept, in microseconds. -/
def micros (s : Statis) : ℤ := s.sec * 1000000 + s.usec

end Statis

/-- The loop of `statis` for a module, `for i in range(1, num)`. -/
def statis (data : List Elapsed) : Statis := data.tail.foldl Statis.add .init

/-- The intervals that count: all but the first, unless they are 0. -/
def counted (data : List Elapsed) : List ℤ := (data.tail.map Elapsed.micros).filter (· ≠ 0)

/-- **The statistics are exact**: the time kept is the sum of the intervals that count, and when
there is one, the others are the least and the greatest of them. -/
def StatisExact (data : List Elapsed) : Prop :=
  (statis data).micros = (counted data).sum ∧
    (counted data ≠ [] → IsLeast {v | v ∈ counted data} (statis data).minUsecs ∧
      IsGreatest {v | v ∈ counted data} (statis data).maxUsecs)

/-! ### The time that is kept -/

/-- The microseconds of intervals, without their seconds. -/
def usecsOf (data : List Elapsed) : ℕ := (data.map Elapsed.usec).sum

/-- The intervals begin with groups that fill a second each, counting from `v` in the first group
and from 1 in the others. -/
inductive FillSeconds : ℕ → List Elapsed → List (List Elapsed) → Prop
  | rest {v : ℕ} {data : List Elapsed} (less : v + usecsOf data < 1000000) :
    FillSeconds v data []
  | group {v : ℕ} {g data : List Elapsed} {e : Elapsed} {groups : List (List Elapsed)}
    (less : v + usecsOf g < 1000000) (full : 1000000 ≤ v + usecsOf g + e.usec)
    (next : FillSeconds 1 data groups) : FillSeconds v (g ++ e :: data) ((g ++ [e]) :: groups)

/-- **The carries cancel**: no second is filled, or the groups have one microsecond more than the
seconds that they fill. -/
def CarriesCancel (data : List Elapsed) : Prop :=
  ∃ groups, FillSeconds 0 data.tail groups ∧
    (groups = [] ∨ usecsOf groups.flatten = 1000000 * groups.length + 1)

@[simp] theorem usecsOf_nil : usecsOf [] = 0 := rfl

@[simp] theorem usecsOf_cons (e : Elapsed) (data : List Elapsed) :
    usecsOf (e :: data) = e.usec + usecsOf data := by
  simp [usecsOf]

@[simp] theorem usecsOf_append (data more : List Elapsed) :
    usecsOf (data ++ more) = usecsOf data + usecsOf more := by
  simp [usecsOf]

/-- Any intervals can be cut into such groups. -/
theorem exists_fillSeconds {v : ℕ} (data : List Elapsed) (hv : v < 1000000) :
    ∃ groups, FillSeconds v data groups := by
  induction data generalizing v with
  | nil => exact ⟨[], .rest hv⟩
  | cons e data ih =>
    rcases Nat.lt_or_ge (v + e.usec) 1000000 with hless | hfull
    · obtain ⟨groups, hgroups⟩ := ih hless
      cases hgroups with
      | rest less => exact ⟨[], .rest (by rw [usecsOf_cons]; omega)⟩
      | @group _ g data e' groups less full next =>
        refine ⟨(e :: g ++ [e']) :: groups, .group (g := e :: g) ?_ ?_ next⟩
        · rw [usecsOf_cons]
          omega
        · rw [usecsOf_cons]
          omega
    · obtain ⟨groups, hgroups⟩ := ih (show 1 < 1000000 by decide)
      exact ⟨([] ++ [e]) :: groups, .group (g := []) hv hfull hgroups⟩

namespace Statis

variable {s : Statis} {e : Elapsed} {data : List Elapsed}

/-- An interval that does not count. -/
theorem add_uncounted (hzero : e.micros = 0) : s.add e = { s with zeroCount := s.zeroCount + 1 } :=
  if_pos hzero

/-- An interval that fills no second. -/
theorem add_less (hless : s.usec + e.usec < 1000000) :
    (s.add e).micros = s.micros + e.micros ∧ (s.add e).usec = s.usec + e.usec := by
  by_cases hzero : e.micros = 0
  · have hnone : e.usec = 0 := by
      have hlt := e.usec_lt
      rw [Elapsed.micros] at hzero
      omega
    rw [add_uncounted hzero, hzero, hnone]
    exact ⟨(Int.add_zero _).symm, rfl⟩
  · rw [Elapsed.micros] at hzero ⊢
    rw [add]
    dsimp only
    rw [if_neg hzero, if_neg (by omega), micros, micros]
    refine ⟨?_, rfl⟩
    push_cast
    ring

/-- An interval that fills a second: a second is carried, and 1 is kept. -/
theorem add_full (husec : s.usec < 1000000) (hfull : 1000000 ≤ s.usec + e.usec) :
    (s.add e).micros = s.micros + e.micros + 1000001 - (s.usec + e.usec) ∧ (s.add e).usec = 1 := by
  have hlt := e.usec_lt
  have hquot : (s.usec + e.usec) / 1000000 = 1 := by omega
  have hzero : e.sec * 1000000 + e.usec ≠ 0 := by omega
  rw [add]
  dsimp only
  rw [if_neg hzero, if_pos hfull, hquot, micros, micros, Elapsed.micros]
  refine ⟨?_, rfl⟩
  push_cast
  ring

/-- Intervals that fill no second. -/
theorem run_less (hless : s.usec + usecsOf data < 1000000) :
    (data.foldl add s).micros = s.micros + (data.map Elapsed.micros).sum ∧
      (data.foldl add s).usec = s.usec + usecsOf data := by
  induction data generalizing s with
  | nil => simp
  | cons e data ih =>
    rw [usecsOf_cons] at hless
    obtain ⟨hmicros, husec⟩ := add_less (s := s) (e := e) (by omega)
    obtain ⟨hrun, hrunUsec⟩ := ih (s := s.add e) (by omega)
    rw [List.foldl_cons, hrun, hrunUsec, hmicros, husec, usecsOf_cons, List.map_cons, List.sum_cons]
    constructor
    · ring
    · omega

/-- **The run of the loop**: for each group 1000001 comes in the place of its microseconds, and of
what was there before it. -/
theorem run_micros {groups : List (List Elapsed)} (h : FillSeconds s.usec data groups) :
    (data.foldl add s).micros = s.micros + (data.map Elapsed.micros).sum +
      if groups = [] then 0
      else 1000000 * (groups.length : ℤ) + 1 - (s.usec + usecsOf groups.flatten) := by
  generalize hv : s.usec = v at h
  induction h generalizing s with
  | rest less =>
    subst hv
    rw [(run_less less).1, if_pos rfl, add_zero]
  | @group v g data e groups less full next ih =>
    subst hv
    obtain ⟨hmicros, husec⟩ := run_less less
    obtain ⟨hfull, hone⟩ := add_full (s := g.foldl add s) (e := e) (by omega) (by omega)
    rw [List.foldl_append, List.foldl_cons, ih hone, hfull, hmicros, husec,
      if_neg (List.cons_ne_nil _ groups), List.flatten_cons, usecsOf_append, usecsOf_append,
      usecsOf_cons, usecsOf_nil]
    simp only [List.map_append, List.map_cons, List.sum_append, List.sum_cons, List.length_cons]
    by_cases hlast : groups = []
    · rw [if_pos hlast, hlast]
      simp
      ring
    · rw [if_neg hlast]
      push_cast
      ring

/-! ### The least and the greatest interval -/

/-- An interval of 0 adds nothing to the sum. -/
theorem sum_filter_ne_zero (vs : List ℤ) : (vs.filter (· ≠ 0)).sum = vs.sum := by
  induction vs with
  | nil => rfl
  | cons v vs ih =>
    by_cases hv : v = 0
    · rw [List.filter_cons_of_neg (by simpa using hv), ih, hv, List.sum_cons, zero_add]
    · rw [List.filter_cons_of_pos (by simpa using hv), List.sum_cons, List.sum_cons, ih]

/-- An interval that counts. -/
theorem add_bounds (hcounts : e.micros ≠ 0) :
    (s.add e).minUsecs = min s.minUsecs e.micros ∧
      (s.add e).maxUsecs = max s.maxUsecs e.micros := by
  rw [Elapsed.micros] at hcounts ⊢
  rw [add]
  dsimp only
  rw [if_neg hcounts]
  constructor <;> split_ifs <;> dsimp only <;> omega

theorem run_bounds (s : Statis) (data : List Elapsed) :
    (data.foldl add s).minUsecs =
        ((data.map Elapsed.micros).filter (· ≠ 0)).foldl min s.minUsecs ∧
      (data.foldl add s).maxUsecs =
        ((data.map Elapsed.micros).filter (· ≠ 0)).foldl max s.maxUsecs := by
  induction data generalizing s with
  | nil => exact ⟨rfl, rfl⟩
  | cons e data ih =>
    rw [List.foldl_cons, (ih _).1, (ih _).2, List.map_cons]
    by_cases hzero : e.micros = 0
    · rw [List.filter_cons_of_neg (by simpa using hzero), add_uncounted hzero]
      exact ⟨rfl, rfl⟩
    · rw [List.filter_cons_of_pos (by simpa using hzero), List.foldl_cons, List.foldl_cons,
        (add_bounds hzero).1, (add_bounds hzero).2]
      exact ⟨rfl, rfl⟩

end Statis

/-- The least of a list and of `a` is the least of the list. -/
theorem isLeast_foldl_min_iff {α : Type*} [LinearOrder α] {vs : List α} {a : α} (hne : vs ≠ []) :
    IsLeast {v | v ∈ vs} (vs.foldl min a) ↔ ∃ v ∈ vs, v ≤ a := by
  have hleast : IsLeast {v | v ∈ vs} (vs.min hne) :=
    ⟨List.min_mem hne, fun v hv => List.min_le_of_mem hv⟩
  rw [List.foldl_min_eq_min hne]
  constructor
  · intro h
    exact ⟨_, h.1, min_le_left _ _⟩
  · rintro ⟨v, hv, hle⟩
    rw [min_eq_right ((hleast.2 hv).trans hle)]
    exact hleast

theorem isGreatest_foldl_max_iff {α : Type*} [LinearOrder α] {vs : List α} {a : α}
    (hne : vs ≠ []) : IsGreatest {v | v ∈ vs} (vs.foldl max a) ↔ ∃ v ∈ vs, a ≤ v :=
  isLeast_foldl_min_iff (α := αᵒᵈ) hne

/-- **When the statistics are exact**: the carries cancel, and among the intervals that count there
are one of at most `0xffffffff` and one that is not negative. -/
theorem statis_exact_iff (data : List Elapsed) : StatisExact data ↔
    CarriesCancel data ∧ (counted data ≠ [] →
      (∃ v ∈ counted data, v ≤ 0xffffffff) ∧ ∃ v ∈ counted data, 0 ≤ v) := by
  obtain ⟨hmin, hmax⟩ := Statis.run_bounds .init data.tail
  have htotal {groups : List (List Elapsed)} (h : FillSeconds 0 data.tail groups) :
      (statis data).micros = (counted data).sum ↔
        groups = [] ∨ usecsOf groups.flatten = 1000000 * groups.length + 1 := by
    rw [statis, Statis.run_micros (s := .init) h, counted, Statis.sum_filter_ne_zero]
    by_cases hnone : groups = []
    · rw [if_pos hnone]
      simp [hnone, Statis.micros, Statis.init]
    · rw [if_neg hnone]
      simp only [hnone, Statis.micros, Statis.init, false_or]
      omega
  have hsum : (statis data).micros = (counted data).sum ↔ CarriesCancel data := by
    constructor
    · intro heq
      obtain ⟨groups, hgroups⟩ := exists_fillSeconds data.tail (show 0 < 1000000 by decide)
      exact ⟨groups, hgroups, (htotal hgroups).1 heq⟩
    · rintro ⟨groups, hgroups, hcancel⟩
      exact (htotal hgroups).2 hcancel
  rw [StatisExact, hsum]
  refine and_congr_right fun _ => forall_congr' fun hne => ?_
  rw [statis, hmin, hmax]
  exact and_congr (isLeast_foldl_min_iff hne) (isGreatest_foldl_max_iff hne)

/-- Three intervals, of which the last two have 0.6 seconds. -/
def threeIntervals : List Elapsed :=
  [⟨0, 1, by decide⟩, ⟨0, 600000, by decide⟩, ⟨0, 600000, by decide⟩]

/-- Their sum is 1.2 seconds, but the time kept is 1.000001 seconds. -/
theorem remainder_lost : (statis threeIntervals).micros = 1000001 ∧
    (counted threeIntervals).sum = 1200000 ∧ ¬StatisExact threeIntervals := by
  have hkept : (statis threeIntervals).micros = 1000001 := by decide
  have hsum : (counted threeIntervals).sum = 1200000 := by decide
  refine ⟨hkept, hsum, fun hexact => ?_⟩
  have htotal := hexact.1
  rw [hkept, hsum] at htotal
  exact absurd htotal (by decide)

end F1Goal
