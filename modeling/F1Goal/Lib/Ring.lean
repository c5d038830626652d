import Mathlib.Tactic

/-!
# Rings of cells

The cells `0 … n - 1` of a memory are used as a ring: `pos n f i` is the `i`-th cell from `f` on.
`HoldsFrom view mem n f k xs` says that the cells from `f` on show the list `xs`, the first `k` of
them left out. The rules below say how writing a free cell, publishing it, clearing the first cell
and stepping over it change what the ring shows.
-/

namespace Ring

variable {β γ : Type*} {n f : ℤ}

/-- The `i`-th cell from `f` on. -/
def pos (n f : ℤ) (i : ℕ) : ℤ := (f + i) % n

theorem pos_nonneg (hn : 0 < n) (i : ℕ) : 0 ≤ pos n f i := Int.emod_nonneg _ hn.ne'

theorem pos_lt (hn : 0 < n) (i : ℕ) : pos n f i < n := Int.emod_lt_of_pos _ hn

theorem pos_zero (h0 : 0 ≤ f) (h : f < n) : pos n f 0 = f := by
  rw [pos, Nat.cast_zero, add_zero, Int.emod_eq_of_lt h0 h]

theorem pos_add_one_emod (n f : ℤ) (i : ℕ) : (pos n f i + 1) % n = pos n f (i + 1) := by
  rw [pos, pos, Int.emod_add_emod, Nat.cast_add, Nat.cast_one, add_assoc]

theorem pos_pos_one (n f : ℤ) (i : ℕ) : pos n (pos n f 1) i = pos n f (i + 1) := by
  rw [pos, pos, pos, Int.emod_add_emod]
  congr 1
  push_cast
  ring

/-- The cell before a cell, with the turn written out. -/
theorem pos_pred (hn : 0 < n) (f : ℤ) (i : ℕ) :
    (if pos n f (i + 1) - 1 < 0 then n - 1 else pos n f (i + 1) - 1) = pos n f i := by
  have h0 := pos_nonneg (f := f) hn i
  have h1 := pos_lt (f := f) hn i
  rw [← pos_add_one_emod]
  rcases Int.lt_or_eq_of_le (Int.add_one_le_of_lt h1) with hlt | heq
  · rw [Int.emod_eq_of_lt (by omega) hlt, if_neg (by omega)]
    omega
  · rw [heq, Int.emod_self, if_pos (by omega)]
    omega

/-- Cells less than a whole turn away are different. -/
theorem pos_inj {i j : ℕ} (hi : (i : ℤ) < n) (hj : (j : ℤ) < n) (h : pos n f i = pos n f j) :
    i = j := by
  have hdvd : n ∣ (f + i) - (f + j) := Int.ModEq.dvd h.symm
  have hzero : (f + i) - (f + j) = (0 : ℤ) := by
    refine Int.eq_zero_of_abs_lt_dvd hdvd ?_
    rw [abs_lt]
    constructor <;> omega
  omega

/-- The cells from `f` on show `xs`, apart from the first `k`. -/
def HoldsFrom (view : β → γ) (mem : ℤ → β) (n f : ℤ) (k : ℕ) (xs : List γ) : Prop :=
  ∀ (i : ℕ) (h : i < xs.length), k ≤ i → view (mem (pos n f i)) = xs[i]

variable {view : β → γ} {mem : ℤ → β} {xs : List γ} {k : ℕ}

@[simp] theorem holdsFrom_nil : HoldsFrom view mem n f k [] :=
  fun _ h => absurd h (Nat.not_lt_zero _)

theorem HoldsFrom.mono {l : ℕ} (hkl : k ≤ l) (h : HoldsFrom view mem n f k xs) :
    HoldsFrom view mem n f l xs :=
  fun i hi hl => h i hi (hkl.trans hl)

/-- The first cell shows the first element. -/
theorem HoldsFrom.head {x : γ} (h0 : 0 ≤ f) (hf : f < n)
    (h : HoldsFrom view mem n f 0 (x :: xs)) : view (mem f) = x := by
  have := h 0 (Nat.succ_pos _) le_rfl
  rwa [pos_zero h0 hf] at this

/-- Writing the cell behind the last one does not show. -/
theorem HoldsFrom.update_free {p : ℤ} {b : β} (hp : p = pos n f xs.length)
    (hroom : (xs.length : ℤ) < n) (h : HoldsFrom view mem n f k xs) :
    HoldsFrom view (Function.update mem p b) n f k xs := by
  intro i hi hk
  have hne : pos n f i ≠ p := by
    rintro heq
    have := pos_inj (by omega) hroom (heq.trans hp)
    omega
  rw [Function.update_of_ne hne]
  exact h i hi hk

/-- Publishing the cell behind the last one adds what it shows. -/
theorem HoldsFrom.push {x : γ} (h : HoldsFrom view mem n f k xs)
    (hx : view (mem (pos n f xs.length)) = x) : HoldsFrom view mem n f k (xs ++ [x]) := by
  intro i hi hk
  rw [List.getElem_append]
  split_ifs with hlt
  · exact h i hlt hk
  · have hlen : i = xs.length := by
      rw [List.length_append, List.length_singleton] at hi
      omega
    simp [hlen, hx]

/-- Writing the first cell does not show in the others. -/
theorem HoldsFrom.update_head {p : ℤ} {b : β} (hp : p = pos n f 0) (hlen : (xs.length : ℤ) ≤ n)
    (h : HoldsFrom view mem n f 1 xs) : HoldsFrom view (Function.update mem p b) n f 1 xs := by
  intro i hi hk
  have hne : pos n f i ≠ p := by
    rintro heq
    have := pos_inj (by omega) (by omega) (heq.trans hp)
    omega
  rw [Function.update_of_ne hne]
  exact h i hi hk

/-- Stepping over the first cell. -/
theorem HoldsFrom.tail {x : γ} (h : HoldsFrom view mem n f 1 (x :: xs)) :
    HoldsFrom view mem n (pos n f 1) 0 xs := by
  intro i hi _
  rw [pos_pos_one]
  exact h (i + 1) (Nat.succ_lt_succ hi) (Nat.succ_pos i)

end Ring
