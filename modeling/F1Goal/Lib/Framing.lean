import Mathlib.Tactic

/-!
# Loops that take units off their input

A loop reads its input from the front, unit by unit: each unit that it takes leaves some cells
behind those written before. `TakesUnits` collects what such a loop does at the front of its input
when `size` cells are enough: it takes a unit off, or it fails in the way `stop` in front of an
input that is `bad`, or it fails in another way. What it does with a whole input follows from that:

* `TakesUnits.ok_iff`: it succeeds when the input splits into units;
* `TakesUnits.stop_iff`: it fails with `stop` when a bad rest stands behind units.

`TakesFitting` is about any number of cells: a unit is taken off when it fits behind the cells that
are written, and where no further unit is taken off, the result has a property or has it not
(`TakesFitting.iff`).
-/

namespace Framing

variable {α β γ ε ρ : Type*}

/-- What a loop does at the front of its input. -/
structure TakesUnits (loop : List α → List β → Except ε ρ) (text : γ → List α) (bytes : γ → List β)
    (good : γ → Prop) (bad : List α → Prop) (stop : ε) (size : ℕ) : Prop where
  unit : ∀ {u rest out}, good u → out.length + (bytes u).length < size →
    loop (text u ++ rest) out = loop rest (out ++ bytes u)
  nil : ∀ {out}, out.length < size → ∃ r, loop [] out = .ok r
  bad_stop : ∀ {s out}, bad s → out.length + s.length < size → loop s out = .error stop
  front : ∀ {s out}, s ≠ [] → out.length + s.length < size →
    (∃ u rest, good u ∧ s = text u ++ rest) ∨ bad s ∨ ∃ e, e ≠ stop ∧ loop s out = .error e
  short : ∀ {u}, good u → (bytes u).length ≤ (text u).length
  text_ne_nil : ∀ {u}, good u → text u ≠ []

/-- An input that is made of units. -/
def Splits (text : γ → List α) (good : γ → Prop) (s : List α) : Prop :=
  ∃ us : List γ, (∀ u ∈ us, good u) ∧ s = us.flatMap text

/-- An input that is made of units and a bad rest. -/
def StopsAt (text : γ → List α) (good : γ → Prop) (bad : List α → Prop) (s : List α) : Prop :=
  ∃ (us : List γ) (rest : List α), (∀ u ∈ us, good u) ∧ bad rest ∧ s = us.flatMap text ++ rest

namespace TakesUnits

variable {loop : List α → List β → Except ε ρ} {text : γ → List α} {bytes : γ → List β}
  {good : γ → Prop} {bad : List α → Prop} {stop : ε} {size : ℕ}

/-- **Units are read** one after the other. -/
theorem units (h : TakesUnits loop text bytes good bad stop size) {us : List γ} {rest : List α}
    {out : List β} (hus : ∀ u ∈ us, good u)
    (hroom : out.length + (us.flatMap bytes).length < size) :
    loop (us.flatMap text ++ rest) out = loop rest (out ++ us.flatMap bytes) := by
  induction us generalizing out with
  | nil => simp
  | cons u us ih =>
    rw [List.forall_mem_cons] at hus
    rw [List.flatMap_cons, List.length_append] at hroom
    rw [List.flatMap_cons, List.append_assoc, h.unit hus.1 (by omega),
      ih hus.2 (by rw [List.length_append]; omega), List.flatMap_cons, List.append_assoc]

theorem length_flatMap_le (h : TakesUnits loop text bytes good bad stop size) {us : List γ}
    (hus : ∀ u ∈ us, good u) : (us.flatMap bytes).length ≤ (us.flatMap text).length := by
  induction us with
  | nil => rfl
  | cons u us ih =>
    rw [List.forall_mem_cons] at hus
    have hu := h.short hus.1
    have hrest := ih hus.2
    rw [List.flatMap_cons, List.flatMap_cons, List.length_append, List.length_append]
    omega

theorem ok_of_splits (h : TakesUnits loop text bytes good bad stop size) {s : List α} {out : List β}
    (hroom : out.length + s.length < size) (hs : Splits text good s) : ∃ r, loop s out = .ok r := by
  obtain ⟨us, hus, rfl⟩ := hs
  have hle := h.length_flatMap_le hus
  have hread : loop (us.flatMap text ++ []) out = loop [] (out ++ us.flatMap bytes) :=
    h.units hus (by omega)
  rw [List.append_nil] at hread
  rw [hread]
  exact h.nil (by rw [List.length_append]; omega)

theorem stop_of_stopsAt (h : TakesUnits loop text bytes good bad stop size) {s : List α}
    {out : List β} (hroom : out.length + s.length < size) (hs : StopsAt text good bad s) :
    loop s out = .error stop := by
  obtain ⟨us, rest, hus, hrest, rfl⟩ := hs
  have hle := h.length_flatMap_le hus
  rw [List.length_append] at hroom
  rw [h.units hus (by omega)]
  exact h.bad_stop hrest (by rw [List.length_append]; omega)

/-- A whole input is made of units, or of units and a bad rest, or the loop fails otherwise. -/
theorem cases (h : TakesUnits loop text bytes good bad stop size) {s : List α} {out : List β}
    (hroom : out.length + s.length < size) :
    Splits text good s ∨ StopsAt text good bad s ∨ ∃ e, e ≠ stop ∧ loop s out = .error e := by
  induction hn : s.length using Nat.strong_induction_on generalizing s out with
  | _ n ih =>
    by_cases hnil : s = []
    · exact .inl ⟨[], by simp, by simp [hnil]⟩
    rcases h.front hnil hroom with ⟨u, rest, hu, rfl⟩ | hbad | herr
    · have hshort := h.short hu
      have hpos := List.length_pos_iff.2 (h.text_ne_nil hu)
      rw [List.length_append] at hroom hn
      have hlt : rest.length < n := by omega
      have hrest : (out ++ bytes u).length + rest.length < size := by
        rw [List.length_append]
        omega
      rw [h.unit hu (by omega)]
      rcases ih _ hlt hrest rfl with
        ⟨us, hus, hrest⟩ | ⟨us, tail, hus, htail, hrest⟩ | herr
      · exact .inl ⟨u :: us, List.forall_mem_cons.2 ⟨hu, hus⟩, by rw [List.flatMap_cons, ← hrest]⟩
      · refine .inr (.inl ⟨u :: us, tail, List.forall_mem_cons.2 ⟨hu, hus⟩, htail, ?_⟩)
        rw [List.flatMap_cons, List.append_assoc, ← hrest]
      · exact .inr (.inr herr)
    · exact .inr (.inl ⟨[], s, by simp, hbad, by simp⟩)
    · exact .inr (.inr herr)

/-- **The loop succeeds** exactly on the inputs that are made of units. -/
theorem ok_iff (h : TakesUnits loop text bytes good bad stop size) {s : List α} {out : List β}
    (hroom : out.length + s.length < size) : (∃ r, loop s out = .ok r) ↔ Splits text good s := by
  refine ⟨fun ⟨r, hr⟩ => ?_, h.ok_of_splits hroom⟩
  rcases h.cases hroom with hs | hs | ⟨e, -, he⟩
  · exact hs
  · rw [h.stop_of_stopsAt hroom hs] at hr
    cases hr
  · rw [he] at hr
    cases hr

/-- **The loop stops** exactly on the inputs that are made of units and a bad rest. -/
theorem stop_iff (h : TakesUnits loop text bytes good bad stop size) {s : List α} {out : List β}
    (hroom : out.length + s.length < size) :
    loop s out = .error stop ↔ StopsAt text good bad s := by
  refine ⟨fun hstop => ?_, h.stop_of_stopsAt hroom⟩
  rcases h.cases hroom with hs | hs | ⟨e, hne, he⟩
  · obtain ⟨r, hr⟩ := h.ok_of_splits hroom hs
    rw [hstop] at hr
    cases hr
  · exact hs
  · rw [hstop] at he
    cases he
    exact absurd rfl hne

end TakesUnits

/-! ### Units that fit -/

/-- Each unit fits behind those in front of it, the first one behind `n` cells. -/
def FitInTurn (bytes : γ → List β) (fits : ℕ → γ → Prop) : ℕ → List γ → Prop
  | _, [] => True
  | n, u :: us => fits n u ∧ FitInTurn bytes fits (n + (bytes u).length) us

/-- What a loop does at the front of its input, behind any number of cells: it takes a unit off that
fits, or it stops with the property `P`, or it ends without it. -/
structure TakesFitting {σ : Type*} (loop : List α → List β → σ) (text : γ → List α)
    (bytes : γ → List β) (good : γ → Prop) (fits : ℕ → γ → Prop) (stops : ℕ → List α → Prop)
    (P : σ → Prop) : Prop where
  unit : ∀ {u rest out}, good u → fits out.length u →
    loop (text u ++ rest) out = loop rest (out ++ bytes u)
  stop : ∀ {s out}, stops out.length s → P (loop s out)
  front : ∀ s out, (∃ u rest, good u ∧ fits out.length u ∧ s = text u ++ rest) ∨
    stops out.length s ∨ ¬P (loop s out)
  text_ne_nil : ∀ {u}, good u → text u ≠ []

namespace TakesFitting

variable {σ : Type*} {loop : List α → List β → σ} {text : γ → List α} {bytes : γ → List β}
  {good : γ → Prop} {fits : ℕ → γ → Prop} {stops : ℕ → List α → Prop} {P : σ → Prop}

/-- **Units that fit are read** one after the other. -/
theorem units (h : TakesFitting loop text bytes good fits stops P) {us : List γ} {rest : List α}
    {out : List β} (hus : ∀ u ∈ us, good u) (hfit : FitInTurn bytes fits out.length us) :
    loop (us.flatMap text ++ rest) out = loop rest (out ++ us.flatMap bytes) := by
  induction us generalizing out with
  | nil => simp
  | cons u us ih =>
    rw [List.forall_mem_cons] at hus
    rw [List.flatMap_cons, List.append_assoc, h.unit hus.1 hfit.1,
      ih hus.2 (by rw [List.length_append]; exact hfit.2), List.flatMap_cons, List.append_assoc]

/-- **The result has the property** exactly when the loop stops behind units that fit. -/
theorem iff (h : TakesFitting loop text bytes good fits stops P) {s : List α} {out : List β} :
    P (loop s out) ↔ ∃ (us : List γ) (rest : List α), (∀ u ∈ us, good u) ∧
      FitInTurn bytes fits out.length us ∧ stops (out.length + (us.flatMap bytes).length) rest ∧
        s = us.flatMap text ++ rest := by
  constructor
  · intro hP
    induction hn : s.length using Nat.strong_induction_on generalizing s out with
    | _ n ih =>
      rcases h.front s out with ⟨u, rest, hu, hfit, rfl⟩ | hstop | hnot
      · have hpos := List.length_pos_iff.2 (h.text_ne_nil hu)
        rw [List.length_append] at hn
        have hlt : rest.length < n := by omega
        rw [h.unit hu hfit] at hP
        obtain ⟨us, tail, hus, hfits, hstop, rfl⟩ := ih _ hlt hP rfl
        rw [List.length_append] at hfits hstop
        refine ⟨u :: us, tail, List.forall_mem_cons.2 ⟨hu, hus⟩, ⟨hfit, hfits⟩, ?_, ?_⟩
        · rw [List.flatMap_cons, List.length_append, ← Nat.add_assoc]
          exact hstop
        · rw [List.flatMap_cons, List.append_assoc]
      · exact ⟨[], s, by simp, trivial, hstop, rfl⟩
      · exact absurd hP hnot
  · rintro ⟨us, rest, hus, hfit, hstop, rfl⟩
    rw [h.units hus hfit]
    exact h.stop (by rw [List.length_append]; exact hstop)

end TakesFitting

end Framing
