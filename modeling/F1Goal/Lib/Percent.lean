import Mathlib.Tactic

/-!
# Escapes of two digits

A text over an alphabet with an escape character `esc` and digits: an escape is `esc` with two
digits behind it, and stands for the letter `join` makes of them. What a text means is told by
positions, without reading it in some order: each `esc` is `Escaped`, one is `Broken`, a digit is
loose. A decoder reads from left to right; `front_induction` takes a text apart as it does, and
each notion has a rule for a letter and for an escape at the front. `esc` is no digit.
-/

namespace Percent

variable {α δ : Type*} (esc : α) (digit : α → Option δ)

/-- Each `esc` is followed by two digits. -/
def Escaped (s : List α) : Prop :=
  ∀ i, s[i]? = some esc → (∃ a, s[i + 1]?.bind digit = some a) ∧ ∃ b, s[i + 2]?.bind digit = some b

/-- Behind some `esc`, and at most one digit, stands a letter that is no digit. -/
def Broken (s : List α) : Prop :=
  ∃ i c, s[i]? = some esc ∧ digit c = none ∧
    (s[i + 1]? = some c ∨ (∃ a, s[i + 1]?.bind digit = some a) ∧ s[i + 2]? = some c)

/-- Each digit is one of the two letters behind an `esc`. -/
def NoLooseDigit (s : List α) : Prop :=
  ∀ i a, s[i]?.bind digit = some a → ∃ j, s[j]? = some esc ∧ j < i ∧ i ≤ j + 2

/-- The letters that the two digits behind an `esc` stand for, in their places. -/
def decode [DecidableEq α] (join : δ → δ → α) : List α → List α
  | c :: x :: y :: s =>
    if c = esc then
      match digit x, digit y with
      | some a, some b => join a b :: decode join s
      | _, _ => c :: decode join (x :: y :: s)
    else c :: decode join (x :: y :: s)
  | s => s

/-- **A text is taken apart from the front**: a letter, an escape, or an `esc` that is broken or
comes too close to the end. -/
theorem front_induction {P : List α → Prop} (nil : P [])
    (letter : ∀ c s, c ≠ esc → P s → P (c :: s))
    (escape : ∀ x y a b s, digit x = some a → digit y = some b → P s → P (esc :: x :: y :: s))
    (first : ∀ x s, digit x = none → P (esc :: x :: s))
    (second : ∀ x a y s, digit x = some a → digit y = none → P (esc :: x :: y :: s))
    (cut : P [esc]) (cutDigit : ∀ x a, digit x = some a → P [esc, x]) : ∀ s, P s
  | [] => nil
  | c :: s => by
    classical
    have hrest (t : List α) (ht : t.length ≤ s.length) : P t :=
      front_induction nil letter escape first second cut cutDigit t
    by_cases hc : c = esc
    · subst hc
      match s with
      | [] => exact cut
      | x :: s =>
        cases hx : digit x with
        | none => exact first x s hx
        | some a =>
          match s with
          | [] => exact cutDigit x a hx
          | y :: s =>
            cases hy : digit y with
            | none => exact second x a y s hx hy
            | some b =>
              exact escape x y a b s hx hy (hrest s (by simp only [List.length_cons]; omega))
    · exact letter c s hc (hrest s le_rfl)
termination_by s => s.length
decreasing_by exact Nat.lt_succ_of_le ht

variable {esc digit}

/-! ### A letter at the front -/

theorem escaped_cons {c : α} {s : List α} (hc : c ≠ esc) :
    Escaped esc digit (c :: s) ↔ Escaped esc digit s := by
  constructor
  · exact fun h i hi => h (i + 1) hi
  · intro h i hi
    cases i with
    | zero => exact absurd (Option.some.inj hi) hc
    | succ i => exact h i hi

theorem broken_cons {c : α} {s : List α} (hc : c ≠ esc) :
    Broken esc digit (c :: s) ↔ Broken esc digit s := by
  constructor
  · rintro ⟨i, d, hi, hd, hbehind⟩
    cases i with
    | zero => exact absurd (Option.some.inj hi) hc
    | succ i => exact ⟨i, d, hi, hd, hbehind⟩
  · rintro ⟨i, d, hi, hd, hbehind⟩
    exact ⟨i + 1, d, hi, hd, hbehind⟩

theorem noLooseDigit_cons {c : α} {s : List α} (hc : c ≠ esc) :
    NoLooseDigit esc digit (c :: s) ↔ digit c = none ∧ NoLooseDigit esc digit s := by
  constructor
  · intro h
    refine ⟨Option.eq_none_iff_forall_ne_some.2 fun a ha => ?_, fun i a hi => ?_⟩
    · obtain ⟨j, -, hlt, -⟩ := h 0 a ha
      exact absurd hlt (Nat.not_lt_zero j)
    · obtain ⟨j, hj, hlt, hle⟩ := h (i + 1) a hi
      cases j with
      | zero => exact absurd (Option.some.inj hj) hc
      | succ j => exact ⟨j, hj, by omega, by omega⟩
  · rintro ⟨hnone, h⟩ i a hi
    cases i with
    | zero =>
      have hi : digit c = some a := hi
      rw [hnone] at hi
      cases hi
    | succ i =>
      obtain ⟨j, hj, hlt, hle⟩ := h i a hi
      exact ⟨j + 1, hj, by omega, by omega⟩

theorem decode_cons [DecidableEq α] {join : δ → δ → α} {c : α} (s : List α) (hc : c ≠ esc) :
    decode esc digit join (c :: s) = c :: decode esc digit join s := by
  match s with
  | [] => rfl
  | [_] => rfl
  | _ :: _ :: _ => rw [decode, if_neg hc]

/-! ### An escape at the front -/

section Escape

variable {x y : α} {a b : δ} {s : List α}

/-- A digit is not the escape character. -/
theorem ne_esc (hesc : digit esc = none) (hx : digit x = some a) : x ≠ esc := by
  rintro rfl
  rw [hesc] at hx
  cases hx

theorem escaped_escape (hesc : digit esc = none) (hx : digit x = some a) (hy : digit y = some b) :
    Escaped esc digit (esc :: x :: y :: s) ↔ Escaped esc digit s := by
  have hrest : Escaped esc digit (x :: y :: s) ↔ Escaped esc digit s := by
    rw [escaped_cons (ne_esc hesc hx), escaped_cons (ne_esc hesc hy)]
  constructor
  · exact fun h => hrest.1 fun i hi => h (i + 1) hi
  · intro h i hi
    cases i with
    | zero => exact ⟨⟨a, hx⟩, b, hy⟩
    | succ i => exact hrest.2 h i hi

theorem broken_escape (hesc : digit esc = none) (hx : digit x = some a) (hy : digit y = some b) :
    Broken esc digit (esc :: x :: y :: s) ↔ Broken esc digit s := by
  have hrest : Broken esc digit (x :: y :: s) ↔ Broken esc digit s := by
    rw [broken_cons (ne_esc hesc hx), broken_cons (ne_esc hesc hy)]
  constructor
  · rintro ⟨i, c, hi, hc, hbehind⟩
    cases i with
    | zero =>
      rcases hbehind with hfirst | ⟨-, hsecond⟩
      · rw [Option.some.inj hfirst, hc] at hx
        cases hx
      · rw [Option.some.inj hsecond, hc] at hy
        cases hy
    | succ i => exact hrest.1 ⟨i, c, hi, hc, hbehind⟩
  · intro h
    obtain ⟨i, c, hi, hc, hbehind⟩ := hrest.2 h
    exact ⟨i + 1, c, hi, hc, hbehind⟩

theorem noLooseDigit_escape (hesc : digit esc = none) (hx : digit x = some a)
    (hy : digit y = some b) :
    NoLooseDigit esc digit (esc :: x :: y :: s) ↔ NoLooseDigit esc digit s := by
  constructor
  · intro h i a hi
    obtain ⟨j, hj, hlt, hle⟩ := h (i + 3) a hi
    match j with
    | 0 => omega
    | 1 => exact absurd (Option.some.inj hj) (ne_esc hesc hx)
    | 2 => exact absurd (Option.some.inj hj) (ne_esc hesc hy)
    | j + 3 => exact ⟨j, hj, by omega, by omega⟩
  · intro h i a hi
    match i with
    | 0 =>
      have hi : digit esc = some a := hi
      rw [hesc] at hi
      cases hi
    | 1 => exact ⟨0, rfl, by omega, by omega⟩
    | 2 => exact ⟨0, rfl, by omega, by omega⟩
    | i + 3 =>
      obtain ⟨j, hj, hlt, hle⟩ := h i a hi
      exact ⟨j + 3, hj, by omega, by omega⟩

theorem decode_escape [DecidableEq α] {join : δ → δ → α} (hx : digit x = some a)
    (hy : digit y = some b) :
    decode esc digit join (esc :: x :: y :: s) = join a b :: decode esc digit join s := by
  rw [decode, if_pos rfl, hx, hy]

end Escape

/-! ### Texts with an `esc` that is no escape -/

/-- What stands behind an `esc` at the front of a text that is escaped. -/
theorem Escaped.front {s : List α} (h : Escaped esc digit (esc :: s)) :
    ∃ x y t a b, s = x :: y :: t ∧ digit x = some a ∧ digit y = some b := by
  obtain ⟨⟨a, ha⟩, b, hb⟩ := h 0 rfl
  match s with
  | [] => cases ha
  | [_] => cases hb
  | x :: y :: t => exact ⟨x, y, t, a, b, rfl, ha, hb⟩

theorem Escaped.not_broken {s : List α} (h : Escaped esc digit s) : ¬ Broken esc digit s := by
  rintro ⟨i, c, hi, hc, hbehind⟩
  obtain ⟨⟨a, ha⟩, b, hb⟩ := h i hi
  rcases hbehind with hfirst | ⟨-, hsecond⟩
  · rw [hfirst, Option.bind_some, hc] at ha
    cases ha
  · rw [hsecond, Option.bind_some, hc] at hb
    cases hb

theorem broken_first {x : α} {s : List α} (hx : digit x = none) :
    Broken esc digit (esc :: x :: s) :=
  ⟨0, x, rfl, hx, .inl rfl⟩

theorem broken_second {x y : α} {a : δ} {s : List α} (hx : digit x = some a)
    (hy : digit y = none) : Broken esc digit (esc :: x :: y :: s) :=
  ⟨0, y, rfl, hy, .inr ⟨⟨a, hx⟩, rfl⟩⟩

theorem not_broken_cut : ¬ Broken esc digit [esc] := by
  rintro ⟨i, c, hi, -, hbehind⟩
  cases i with
  | zero =>
    rcases hbehind with hfirst | ⟨-, hsecond⟩
    · cases hfirst
    · cases hsecond
  | succ i => cases hi

theorem not_broken_cutDigit {x : α} {a : δ} (hesc : digit esc = none) (hx : digit x = some a) :
    ¬ Broken esc digit [esc, x] := by
  rintro ⟨i, c, hi, hc, hbehind⟩
  match i with
  | 0 =>
    rcases hbehind with hfirst | ⟨-, hsecond⟩
    · rw [Option.some.inj hfirst, hc] at hx
      cases hx
    · cases hsecond
  | 1 => exact absurd (Option.some.inj hi) (ne_esc hesc hx)
  | i + 2 => cases hi

end Percent
