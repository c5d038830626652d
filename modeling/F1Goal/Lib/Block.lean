import F1Goal.Lib.Mem

/-!
# Blocks that can be read

A block gives the cell at an address, or nothing outside of it. `Holds m p s` says that the cells
`s` stand at address `p` of the block `m`, so that they can be read there.
-/

namespace Block

variable {β : Type*}

/-- The cells `s` stand at `p`. -/
def Holds (m : ℤ → Option β) : ℤ → List β → Prop
  | _, [] => True
  | p, c :: s => m p = some c ∧ Holds m (p + 1) s

/-- The `n` cells of a memory from address `off` on. -/
def view (m : ℤ → β) (off : ℤ) (n : ℤ) : ℤ → Option β :=
  fun i => if off ≤ i ∧ i < off + n then some (m i) else none

/-- The cells of a list, from address 0 on. -/
def ofList (s : List β) : ℤ → Option β := fun i => if 0 ≤ i then s[i.toNat]? else none

/-- The `n` cells from `p` on, when all of them can be read. -/
def read (m : ℤ → Option β) : ℤ → ℕ → Option (List β)
  | _, 0 => some []
  | p, n + 1 => do
    let c ← m p
    let s ← read m (p + 1) n
    some (c :: s)

@[simp] theorem holds_nil (m : ℤ → Option β) (p : ℤ) : Holds m p [] := trivial

@[simp] theorem holds_cons {m : ℤ → Option β} {p : ℤ} {c : β} {s : List β} :
    Holds m p (c :: s) ↔ m p = some c ∧ Holds m (p + 1) s :=
  Iff.rfl

@[simp] theorem holds_append {m : ℤ → Option β} {p : ℤ} {s t : List β} :
    Holds m p (s ++ t) ↔ Holds m p s ∧ Holds m (p + s.length) t := by
  induction s generalizing p with
  | nil => simp
  | cons c s ih =>
    rw [List.cons_append, holds_cons, holds_cons, ih, and_assoc, List.length_cons,
      Nat.cast_succ, add_comm (s.length : ℤ) 1, add_assoc]

/-- What stands at an address can be read from its start on. -/
theorem Holds.of_prefix {m : ℤ → Option β} {p : ℤ} {s t : List β} (h : Holds m p s)
    (hpre : t <+: s) :
    Holds m p t := by
  obtain ⟨rest, rfl⟩ := hpre
  exact (holds_append.1 h).1

/-- What stands at an address can be read from any of its cells on. -/
theorem Holds.drop {m : ℤ → Option β} {p : ℤ} {s : List β} (h : Holds m p s) (n : ℕ)
    (hn : n ≤ s.length) : Holds m (p + n) (s.drop n) := by
  rw [← List.take_append_drop n s, holds_append, List.length_take_of_le hn] at h
  exact h.2

/-- A cell of what stands at an address. -/
theorem Holds.cell {m : ℤ → Option β} {p : ℤ} {s : List β} (h : Holds m p s) {n : ℕ}
    (hn : n < s.length) : m (p + n) = some s[n] := by
  have hdrop := Holds.drop h n hn.le
  rw [List.drop_eq_getElem_cons hn] at hdrop
  exact hdrop.1

/-- Only one list of a length stands at an address. -/
theorem Holds.eq_of_length {m : ℤ → Option β} {p : ℤ} {s t : List β} (hs : Holds m p s)
    (ht : Holds m p t) (hlen : s.length = t.length) : s = t := by
  induction s generalizing t p with
  | nil => exact (List.length_eq_zero_iff.1 hlen.symm).symm
  | cons c s ih =>
    obtain ⟨d, t, rfl⟩ := List.exists_cons_of_length_eq_add_one hlen.symm
    obtain ⟨hc, hs⟩ := hs
    obtain ⟨hd, ht⟩ := ht
    rw [Option.some.inj (hc.symm.trans hd), ih hs ht (Nat.succ.inj hlen)]

theorem read_holds {m : ℤ → Option β} {p : ℤ} {s : List β} (h : Holds m p s) :
    read m p s.length = some s := by
  induction s generalizing p with
  | nil => rfl
  | cons c s ih => rw [List.length_cons, read, h.1, ih h.2]; rfl

theorem holds_slice {m : ℤ → β} {off n p : ℤ} (k : ℕ) (h1 : off ≤ p) (h2 : p + k ≤ off + n) :
    Holds (view m off n) p (Mem.slice m p k) := by
  induction k generalizing p with
  | zero => trivial
  | succ k ih =>
    push_cast at h2
    rw [Mem.slice_succ, holds_cons]
    exact ⟨if_pos ⟨h1, by omega⟩, ih (by omega) (by omega)⟩

theorem holds_ofList (s t : List β) : Holds (ofList (s ++ t)) s.length t := by
  induction t generalizing s with
  | nil => trivial
  | cons c t ih =>
    refine ⟨by simp [ofList], ?_⟩
    simpa using ih (s ++ [c])

theorem holds_ofList_self (s : List β) : Holds (ofList s) 0 s := holds_ofList [] s

end Block
