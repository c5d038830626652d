import Mathlib.Tactic

/-!
# Computations that return

A computation in `Option` has no result where the program would read outside of its memory.
`Returns x P` says that `x` has one and that it satisfies `P`: a triple of total correctness
without a precondition. `Ensures x P` says that a result of `x` satisfies `P`, which is partial
correctness. The rules follow the way in which a `do` block is put together.
-/

universe u

variable {α β : Type u} {x : Option α} {P Q : α → Prop} {R : β → Prop}

/-- The computation returns, and what it returns satisfies `P`. -/
def Returns (x : Option α) (P : α → Prop) : Prop := ∃ a, x = some a ∧ P a

namespace Returns

theorem of_eq {a : α} (hx : x = some a) (ha : P a) : Returns x P := ⟨a, hx, ha⟩

@[simp] theorem some_iff {a : α} : Returns (some a) P ↔ P a :=
  ⟨fun ⟨_, heq, hb⟩ => Option.some.inj heq ▸ hb, of_eq rfl⟩

@[simp] theorem pure_iff {a : α} : Returns (pure a) P ↔ P a := some_iff

theorem mono (h : Returns x P) (hPQ : ∀ a, P a → Q a) : Returns x Q := by
  obtain ⟨a, hx, ha⟩ := h
  exact of_eq hx (hPQ a ha)

/-- Sequence. -/
theorem bind {f : α → Option β} (h : Returns x P) (hf : ∀ a, P a → Returns (f a) R) :
    Returns (x >>= f) R := by
  obtain ⟨a, rfl, ha⟩ := h
  exact hf a ha

/-- A test that reads. -/
theorem bind_ite {γ : Type} {b : Option Bool} {y z : Option γ} {S : γ → Prop}
    (hb : Returns b fun _ => True) (hy : Returns y S) (hz : Returns z S) :
    Returns (b >>= fun c => if c = true then y else z) S := by
  apply hb.bind
  rintro (_ | _) -
  · exact hz
  · exact hy

/-- A test that does not read. -/
theorem ite {c : Prop} [Decidable c] {y : Option α} (hx : c → Returns x P) (hy : ¬ c → Returns y P) :
    Returns (if c then x else y) P := by
  by_cases hc : c
  · rw [if_pos hc]
    exact hx hc
  · rw [if_neg hc]
    exact hy hc

end Returns

/-- What the computation returns satisfies `P`, if it returns. -/
def Ensures (x : Option α) (P : α → Prop) : Prop := ∀ a, x = some a → P a

namespace Ensures

theorem some_iff {a : α} : Ensures (some a) P ↔ P a :=
  ⟨fun h => h a rfl, fun ha _ heq => Option.some.inj heq ▸ ha⟩

theorem pure_iff {a : α} : Ensures (pure a) P ↔ P a := some_iff

/-- Sequence. -/
theorem bind {f : α → Option β} (hf : ∀ a, Ensures (f a) R) : Ensures (x >>= f) R := by
  intro b heq
  obtain ⟨a, -, hb⟩ := Option.bind_eq_some_iff.1 heq
  exact hf a b hb

/-- A test. -/
theorem ite {c : Prop} [Decidable c] {y : Option α} (hx : Ensures x P) (hy : Ensures y P) :
    Ensures (if c then x else y) P := by
  split
  · exact hx
  · exact hy

/-- A test that reads. -/
theorem bind_ite {γ : Type} {b : Option Bool} {y z : Option γ} {S : γ → Prop} (hy : Ensures y S)
    (hz : Ensures z S) : Ensures (b >>= fun c => if c = true then y else z) S :=
  bind fun _ => ite hy hz

end Ensures
