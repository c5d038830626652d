import F1Goal.BasicTypes

/-!
# Intervals of time (`f1g_basic_funcs.c`)

`time_interval_tv` takes one time from another, with a borrow from the seconds, and `time_interval`
gives the result in microseconds. It computes them in a `long` and returns an `i32_t`, so that it
is right up to 2147 seconds (`interval_exact_iff`).
-/

namespace F1Goal

/-- The value of a `long` after an overflow: two's complement, 64 bits. -/
def i64 (n : ℤ) : ℤ := n.bmod (2 ^ 64)

theorem i64_of_range {n : ℤ} (h1 : -2 ^ 63 ≤ n) (h2 : n < 2 ^ 63) : i64 n = n := by
  unfold i64
  exact Int.bmod_eq_of_le (by omega) (by omega)

namespace Timeval

/-- The time in microseconds. -/
def micros (tv : Timeval) : ℤ := tv.sec * 1000000 + tv.usec

/-- A time with two `long`, the microseconds being less than a second. -/
structure Normal (tv : Timeval) : Prop where
  sec_ge : -2 ^ 63 ≤ tv.sec
  sec_lt : tv.sec < 2 ^ 63
  usec_nonneg : 0 ≤ tv.usec
  usec_lt : tv.usec < 1000000

end Timeval

/-- `time_interval_tv` -/
def timeIntervalTv (tvb tve : Timeval) : Timeval :=
  let sec := i64 (tve.sec - tvb.sec)
  let usec := i64 (tve.usec - tvb.usec)
  if usec < 0 then ⟨i64 (sec - 1), usec + 1000000⟩ else ⟨sec, usec⟩

/-- `time_interval` -/
def timeInterval (tvb tve : Timeval) : ℤ :=
  let tv := timeIntervalTv tvb tve
  i32 (i64 (i64 (tv.sec * 1000000) + tv.usec))

/-- Two normalised times, the first of them not behind the second. -/
structure TimeSpan where
  tvb : Timeval
  tve : Timeval
  tvb_normal : tvb.Normal
  tve_normal : tve.Normal
  tvb_le : tvb.micros ≤ tve.micros

namespace TimeSpan

variable (s : TimeSpan)

/-- The difference in microseconds. -/
def micros : ℤ := s.tve.micros - s.tvb.micros

/-- **The interval is exact**, as a normalised time and as a number. -/
def Exact : Prop :=
  (timeIntervalTv s.tvb s.tve).Normal ∧ (timeIntervalTv s.tvb s.tve).micros = s.micros ∧
    timeInterval s.tvb s.tve = s.micros

variable {s}

/-- **The borrow**: the result of `time_interval_tv` is exact when the difference of the seconds is a
`long`. -/
theorem timeIntervalTv_exact (hsec : s.tve.sec - s.tvb.sec < 2 ^ 63) :
    (timeIntervalTv s.tvb s.tve).Normal ∧ (timeIntervalTv s.tvb s.tve).micros = s.micros := by
  obtain ⟨hb1, hb2, hb3, hb4⟩ := s.tvb_normal
  obtain ⟨he1, he2, he3, he4⟩ := s.tve_normal
  have hle := s.tvb_le
  rw [micros, Timeval.micros, Timeval.micros] at *
  have hdiff : i64 (s.tve.sec - s.tvb.sec) = s.tve.sec - s.tvb.sec :=
    i64_of_range (by omega) hsec
  have hdiffU : i64 (s.tve.usec - s.tvb.usec) = s.tve.usec - s.tvb.usec :=
    i64_of_range (by omega) (by omega)
  rw [timeIntervalTv, hdiff, hdiffU]
  by_cases hborrow : s.tve.usec - s.tvb.usec < 0
  · -- then the later time has more seconds, and one of them is borrowed
    rw [if_pos hborrow, i64_of_range (by omega) (by omega)]
    refine ⟨⟨?_, ?_, ?_, ?_⟩, ?_⟩ <;> dsimp only [Timeval.micros] <;> omega
  · rw [if_neg hborrow]
    refine ⟨⟨?_, ?_, ?_, ?_⟩, ?_⟩ <;> dsimp only [Timeval.micros] <;> omega

theorem micros_nonneg : 0 ≤ s.micros := by
  have hle := s.tvb_le
  rw [micros]
  omega

theorem sec_fits (hfits : s.micros < 2 ^ 63) : s.tve.sec - s.tvb.sec < 2 ^ 63 := by
  have hb := s.tvb_normal.usec_lt
  have he := s.tve_normal.usec_nonneg
  rw [micros, Timeval.micros, Timeval.micros] at hfits
  omega

/-- An interval of fewer than `2 ^ 63` microseconds, in an `i32_t`. -/
theorem timeInterval_eq (hfits : s.micros < 2 ^ 63) :
    timeInterval s.tvb s.tve = i32 s.micros := by
  have hnonneg : 0 ≤ s.micros := micros_nonneg
  obtain ⟨hnormal, hmicros⟩ := timeIntervalTv_exact (sec_fits hfits)
  have husec := hnormal.usec_nonneg
  have husec' := hnormal.usec_lt
  rw [Timeval.micros] at hmicros
  have hprod : i64 ((timeIntervalTv s.tvb s.tve).sec * 1000000) =
      (timeIntervalTv s.tvb s.tve).sec * 1000000 := i64_of_range (by omega) (by omega)
  rw [timeInterval, hprod, hmicros, i64_of_range (by omega) hfits]

end TimeSpan

/-- **When the interval is exact**: the microseconds of it are an `i32_t`. -/
theorem interval_exact_iff (s : TimeSpan) : s.Exact ↔ s.micros < 2 ^ 31 := by
  constructor
  · rintro ⟨-, -, hmicros⟩
    rw [← hmicros, timeInterval]
    exact i32_lt _
  · intro hlt
    have hnonneg : 0 ≤ s.micros := TimeSpan.micros_nonneg
    have hfits : s.micros < 2 ^ 63 := by omega
    obtain ⟨hnormal, hmicros⟩ := TimeSpan.timeIntervalTv_exact (TimeSpan.sec_fits hfits)
    refine ⟨hnormal, hmicros, ?_⟩
    rw [TimeSpan.timeInterval_eq hfits, i32_of_range (by omega) hlt]

/-- One hour. -/
def oneHour : TimeSpan where
  tvb := ⟨0, 0⟩
  tve := ⟨3600, 0⟩
  tvb_normal := ⟨by decide, by decide, by decide, by decide⟩
  tve_normal := ⟨by decide, by decide, by decide, by decide⟩
  tvb_le := by decide

/-- The hour has 3600000000 microseconds, which are taken for a negative number. -/
theorem hour_not_exact : timeInterval ⟨0, 0⟩ ⟨3600, 0⟩ = -694967296 ∧ ¬oneHour.Exact := by
  have hvalue : timeInterval ⟨0, 0⟩ ⟨3600, 0⟩ = -694967296 := by decide
  refine ⟨hvalue, fun hexact => ?_⟩
  have hmicros : timeInterval ⟨0, 0⟩ ⟨3600, 0⟩ = 3600000000 := hexact.2.2
  rw [hvalue] at hmicros
  exact absurd hmicros (by decide)

end F1Goal
