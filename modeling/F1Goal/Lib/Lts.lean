import Mathlib.Tactic

/-!
# Machines and guarded runs

A machine is a partial step function on labels: `none` says that the label is not enabled.
`run` follows a list of labels; `Guarded` says that every step of a run meets a condition on the
state before the step. Three rules carry an invariant along a run:

* `guarded_invariant`: what every guarded step preserves holds at the end of a guarded run;
* `guarded_of_invariant`: when every good state meets the guard and every step keeps a state good,
  every run is guarded;
* `safe_prefixes_iff_guarded`: when the guard decides, at every good state, whether the step keeps
  the run safe, a run is safe at each of its moments exactly when all its steps are guarded.

`Meets` says that every label of a run meets a condition on the state before it, also a label that
is not enabled: a step that must not fail is stated with it. `meets_iff` compares two conditions on
a run.
-/

namespace Lts

variable {σ α : Type*}

/-- The state after the labels `as`. -/
def run (step : σ → α → Option σ) : σ → List α → Option σ
  | s, [] => some s
  | s, a :: as => (step s a).bind fun t => run step t as

/-- Every step of the run from `s` on the labels `as` meets the condition `ok`. -/
def Guarded (step : σ → α → Option σ) (ok : σ → α → Prop) : σ → List α → Prop
  | _, [] => True
  | s, a :: as => ∀ t, step s a = some t → ok s a ∧ Guarded step ok t as

variable {step : σ → α → Option σ} {ok : σ → α → Prop}

theorem run_cons (s : σ) (a : α) (as : List α) :
    run step s (a :: as) = (step s a).bind fun t => run step t as := rfl

theorem guarded_cons {s : σ} {a : α} {as : List α} :
    Guarded step ok s (a :: as) ↔ ∀ t, step s a = some t → ok s a ∧ Guarded step ok t as :=
  Iff.rfl

/-- Whether a run is guarded can be computed when the guard can. -/
instance decidableGuarded [∀ s a, Decidable (ok s a)] :
    ∀ (s : σ) (as : List α), Decidable (Guarded step ok s as)
  | _, [] => .isTrue trivial
  | s, a :: as =>
    match h : step s a with
    | none => .isTrue fun t ht => by rw [h] at ht; cases ht
    | some t =>
      have := decidableGuarded t as
      decidable_of_iff (ok s a ∧ Guarded step ok t as)
        ⟨fun hg u hu => by rw [h] at hu; cases hu; exact hg, fun hg => hg t h⟩

/-- **The invariant rule**: what every guarded step preserves holds at the end of a guarded
run. -/
theorem guarded_invariant {I : σ → Prop}
    (hstep : ∀ s a t, I s → ok s a → step s a = some t → I t) {s t : σ} {as : List α}
    (hs : I s) (hg : Guarded step ok s as) (hrun : run step s as = some t) : I t := by
  induction as generalizing s with
  | nil => cases hrun; exact hs
  | cons a as ih =>
    obtain ⟨u, hu, hrun⟩ := Option.bind_eq_some_iff.1 hrun
    obtain ⟨ha, hrest⟩ := hg u hu
    exact ih (hstep s a u hs ha hu) hrest hrun

/-- **The rule for a condition that an invariant of all steps gives**: every run is guarded. -/
theorem guarded_of_invariant {I : σ → Prop} (hstep : ∀ s a t, I s → step s a = some t → I t)
    (hok : ∀ s a, I s → ok s a) {s : σ} (hs : I s) (as : List α) : Guarded step ok s as := by
  induction as generalizing s with
  | nil => trivial
  | cons a as ih => exact fun t ht => ⟨hok s a hs, ih (hstep s a t hs ht)⟩

/-- An invariant of all steps holds at the end of every run. -/
theorem run_invariant {I : σ → Prop} (hstep : ∀ s a t, I s → step s a = some t → I t)
    {s t : σ} {as : List α} (hs : I s) (hrun : run step s as = some t) : I t := by
  induction as generalizing s with
  | nil => cases hrun; exact hs
  | cons a as ih =>
    obtain ⟨u, hu, hrun⟩ := Option.bind_eq_some_iff.1 hrun
    exact ih (hstep s a u hs hu) hrun

/-- What the steps of some labels keep holds at the end of every run of these labels. -/
theorem run_invariant_of_mem {I : σ → Prop} {p : α → Prop}
    (hstep : ∀ s a t, I s → p a → step s a = some t → I t) {s t : σ} {as : List α} (hs : I s)
    (hp : ∀ a ∈ as, p a) (hrun : run step s as = some t) : I t := by
  induction as generalizing s with
  | nil => cases hrun; exact hs
  | cons a as ih =>
    obtain ⟨u, hu, hrun⟩ := Option.bind_eq_some_iff.1 hrun
    exact ih (hstep s a u hs (hp a List.mem_cons_self) hu)
      (fun b hb => hp b (List.mem_cons_of_mem _ hb)) hrun

theorem run_append (s : σ) (as bs : List α) :
    run step s (as ++ bs) = (run step s as).bind fun t => run step t bs := by
  induction as generalizing s with
  | nil => rfl
  | cons a as ih =>
    rw [List.cons_append, run_cons, run_cons, Option.bind_assoc]
    congr 1
    funext t
    exact ih t

/-- What is left of a guarded run is guarded. -/
theorem Guarded.rest {s t : σ} {as bs : List α} (h : Guarded step ok s (as ++ bs))
    (hrun : run step s as = some t) : Guarded step ok t bs := by
  induction as generalizing s with
  | nil =>
    cases hrun
    exact h
  | cons a as ih =>
    obtain ⟨u, hu, hrun⟩ := Option.bind_eq_some_iff.1 hrun
    exact ih (h u hu).2 hrun

/-- The state after every prefix of the labels `as` is safe. -/
def SafePrefixes (step : σ → α → Option σ) (safe : σ → Prop) (s : σ) (as : List α) : Prop :=
  ∀ bs, bs <+: as → ∀ t, run step s bs = some t → safe t

theorem safePrefixes_cons {safe : σ → Prop} {s : σ} {a : α} {as : List α} :
    SafePrefixes step safe s (a :: as) ↔
      safe s ∧ ∀ t, step s a = some t → SafePrefixes step safe t as := by
  constructor
  · intro h
    refine ⟨h [] (List.nil_prefix) s rfl, fun t ht bs hbs u hu => ?_⟩
    refine h (a :: bs) (List.cons_prefix_cons.2 ⟨rfl, hbs⟩) u ?_
    rw [run_cons, ht]
    exact hu
  · rintro ⟨hs, h⟩ bs hbs u hu
    cases bs with
    | nil => cases hu; exact hs
    | cons b bs =>
      obtain ⟨rfl, hpre⟩ := List.cons_prefix_cons.1 hbs
      obtain ⟨t, ht, hu⟩ := Option.bind_eq_some_iff.1 hu
      exact h t ht bs hpre u hu

/-- **The safety rule**: what every guarded step preserves holds at each moment of a guarded
run. -/
theorem safe_prefixes_of_guarded {I safe : σ → Prop}
    (hstep : ∀ s a t, I s → ok s a → step s a = some t → I t) (hsafe : ∀ s, I s → safe s) {s : σ}
    {as : List α} (hs : I s) (hg : Guarded step ok s as) : SafePrefixes step safe s as := by
  induction as generalizing s with
  | nil =>
    intro bs hbs t ht
    obtain rfl := List.prefix_nil.1 hbs
    cases ht
    exact hsafe s hs
  | cons a as ih =>
    refine safePrefixes_cons.2 ⟨hsafe s hs, fun t ht => ?_⟩
    obtain ⟨ha, hrest⟩ := hg t ht
    exact ih (hstep s a t hs ha ht) hrest

/-- **Safety is the guard**: if at every good state the guard decides whether the next state is
safe, and a safe next state is good again, then a run is safe at each of its moments exactly when
all its steps are guarded. -/
theorem safe_prefixes_iff_guarded {safe : σ → Prop} (good : σ → Prop)
    (hok : ∀ s a t, good s → step s a = some t → (safe t ↔ ok s a))
    (hgood : ∀ s a t, good s → step s a = some t → safe t → good t)
    {s : σ} (hs : good s) (hsafe : safe s) (as : List α) :
    SafePrefixes step safe s as ↔ Guarded step ok s as := by
  induction as generalizing s with
  | nil =>
    refine ⟨fun _ => trivial, fun _ bs hbs t ht => ?_⟩
    obtain rfl := List.prefix_nil.1 hbs
    cases ht
    exact hsafe
  | cons a as ih =>
    rw [safePrefixes_cons, guarded_cons]
    cases hst : step s a with
    | none =>
      exact ⟨fun _ t ht => (by cases ht), fun _ => ⟨hsafe, fun t ht => (by cases ht)⟩⟩
    | some t =>
      have hiff := hok s a t hs hst
      constructor
      · rintro ⟨-, h⟩
        have ht : safe t := h t rfl [] List.nil_prefix t rfl
        intro u hu
        cases hu
        exact ⟨hiff.1 ht, (ih (hgood s a t hs hst ht) ht).1 (h t rfl)⟩
      · intro h
        obtain ⟨ha, h⟩ := h t rfl
        have ht : safe t := hiff.2 ha
        refine ⟨hsafe, fun u hu => ?_⟩
        cases hu
        exact (ih (hgood s a t hs hst ht) ht).2 h

/-- Every label of the run from `s` on the labels `as` meets the condition `ok`, the last one of a
run that stops as well. -/
def Meets (step : σ → α → Option σ) (ok : σ → α → Prop) : σ → List α → Prop
  | _, [] => True
  | s, a :: as => ok s a ∧ ∀ t, step s a = some t → Meets step ok t as

theorem meets_cons {s : σ} {a : α} {as : List α} :
    Meets step ok s (a :: as) ↔ ok s a ∧ ∀ t, step s a = some t → Meets step ok t as :=
  Iff.rfl

/-- Whether a run meets a condition can be computed when the condition can. -/
instance decidableMeets [∀ s a, Decidable (ok s a)] :
    ∀ (s : σ) (as : List α), Decidable (Meets step ok s as)
  | _, [] => .isTrue trivial
  | s, a :: as =>
    match h : step s a with
    | none => decidable_of_iff (ok s a)
        ⟨fun hok => ⟨hok, fun t ht => by rw [h] at ht; cases ht⟩, fun hm => hm.1⟩
    | some t =>
      have := decidableMeets t as
      decidable_of_iff (ok s a ∧ Meets step ok t as)
        ⟨fun hm => ⟨hm.1, fun u hu => by rw [h] at hu; cases hu; exact hm.2⟩,
          fun hm => ⟨hm.1, hm.2 t h⟩⟩

/-- **The rule of consequence**: a run that meets a condition meets what the condition gives in the
states that it keeps good. -/
theorem Meets.consequence {good : σ → Prop} {ok ok' : σ → α → Prop}
    (hok : ∀ s a, good s → ok s a → ok' s a)
    (hgood : ∀ s a t, good s → ok s a → step s a = some t → good t) {s : σ} {as : List α}
    (hs : good s) (h : Meets step ok s as) : Meets step ok' s as := by
  induction as generalizing s with
  | nil => trivial
  | cons a as ih =>
    obtain ⟨ha, hrest⟩ := h
    exact ⟨hok s a hs ha, fun t ht => ih (hgood s a t hs ha ht) (hrest t ht)⟩

/-- What every good state gives holds along every run from one. -/
theorem meets_of_invariant {good : σ → Prop} (hok : ∀ s a, good s → ok s a)
    (hgood : ∀ s a t, good s → step s a = some t → good t) {s : σ} (hs : good s) (as : List α) :
    Meets step ok s as := by
  induction as generalizing s with
  | nil => trivial
  | cons a as ih => exact ⟨hok s a hs, fun t ht => ih (hgood s a t hs ht)⟩

/-- **The comparison rule**: two conditions that say the same of every good state hold along the
same runs, when a step that meets them keeps a state good. -/
theorem meets_iff {good : σ → Prop} {ok ok' : σ → α → Prop}
    (hok : ∀ s a, good s → (ok s a ↔ ok' s a))
    (hgood : ∀ s a t, good s → ok s a → step s a = some t → good t) {s : σ} (hs : good s)
    (as : List α) : Meets step ok s as ↔ Meets step ok' s as :=
  ⟨Meets.consequence (fun s a h => (hok s a h).1) hgood hs,
    Meets.consequence (fun s a h => (hok s a h).2) (fun s a t h ha => hgood s a t h ((hok s a h).2 ha))
      hs⟩

/-- **When a run goes through**: exactly when each of its labels meets the condition that decides
whether it is enabled. -/
theorem isSome_run_iff {good : σ → Prop} {ok : σ → α → Prop}
    (hok : ∀ s a, good s → ((step s a).isSome ↔ ok s a))
    (hgood : ∀ s a t, good s → step s a = some t → good t) {s : σ} (hs : good s) (as : List α) :
    (run step s as).isSome ↔ Meets step ok s as := by
  induction as generalizing s with
  | nil => exact iff_of_true rfl trivial
  | cons a as ih =>
    rw [run_cons, meets_cons, ← hok s a hs]
    cases hstep : step s a with
    | none => simp
    | some t =>
      rw [Option.bind_some, ih (hgood s a t hs hstep)]
      simp

end Lts
