import Mathlib.Tactic

/-!
# Memory as a function of the address

A memory maps every address to a cell; `store` writes consecutive cells and `slice` reads them.
Addresses are integers, so that a write below the start or past the end of a block has a meaning
and can be told from one inside it.
-/

namespace Mem

variable {β : Type*}

/-- Write the cells `bs` from address `off` on. -/
def store (m : ℤ → β) (off : ℤ) (bs : List β) : ℤ → β :=
  fun i => if off ≤ i then (bs[(i - off).toNat]?).getD (m i) else m i

/-- The `n` cells from address `off` on. -/
def slice (m : ℤ → β) (off : ℤ) (n : ℕ) : List β :=
  (List.range n).map fun i : ℕ => m (off + i)

@[simp] theorem slice_zero (m : ℤ → β) (off : ℤ) : slice m off 0 = [] := rfl

@[simp] theorem length_slice (m : ℤ → β) (off : ℤ) (n : ℕ) : (slice m off n).length = n := by
  simp [slice]

@[simp] theorem getElem_slice (m : ℤ → β) (off : ℤ) (n i : ℕ) (h : i < (slice m off n).length) :
    (slice m off n)[i] = m (off + i) := by
  simp [slice]

theorem slice_congr {m m' : ℤ → β} {off off' : ℤ} {n : ℕ}
    (h : ∀ i : ℕ, i < n → m (off + i) = m' (off' + i)) : slice m off n = slice m' off' n :=
  List.map_congr_left fun i hi => h i (List.mem_range.1 hi)

theorem slice_add (m : ℤ → β) (off : ℤ) (n k : ℕ) :
    slice m off (n + k) = slice m off n ++ slice m (off + n) k := by
  apply List.ext_getElem (by simp)
  intro i h1 h2
  rw [List.getElem_append]
  split
  · simp
  · rename_i h
    have hi : n ≤ i := by simpa using h
    simp only [getElem_slice, length_slice]
    congr 1
    omega

theorem slice_succ (m : ℤ → β) (off : ℤ) (n : ℕ) :
    slice m off (n + 1) = m off :: slice m (off + 1) n := by
  rw [Nat.add_comm, slice_add]
  simp [slice]

theorem take_slice (m : ℤ → β) (off : ℤ) {n k : ℕ} (h : k ≤ n) :
    (slice m off n).take k = slice m off k := by
  obtain ⟨j, rfl⟩ := Nat.exists_eq_add_of_le h
  rw [slice_add, List.take_left' (length_slice m off k)]

theorem store_of_lt {m : ℤ → β} {off i : ℤ} {bs : List β} (h : i < off) :
    store m off bs i = m i :=
  if_neg (by omega)

theorem store_of_le {m : ℤ → β} {off i : ℤ} {bs : List β} (h : off + bs.length ≤ i) :
    store m off bs i = m i := by
  rw [store, if_pos (by omega), List.getElem?_eq_none (by omega)]
  rfl

theorem store_add {m : ℤ → β} {off : ℤ} {bs : List β} {i : ℕ} (h : i < bs.length) :
    store m off bs (off + i) = bs[i] := by
  rw [store, if_pos (by omega), show (off + (i : ℤ) - off).toNat = i by omega,
    List.getElem?_eq_getElem h]
  rfl

@[simp] theorem store_nil (m : ℤ → β) (off : ℤ) : store m off [] = m := by
  funext i
  simp [store]

/-- What was stored is read back. -/
@[simp] theorem slice_store_self (m : ℤ → β) (off : ℤ) (bs : List β) :
    slice (store m off bs) off bs.length = bs := by
  apply List.ext_getElem (by simp)
  intro i h1 h2
  rw [getElem_slice, store_add]

/-- Cells outside the stored range keep their contents. -/
theorem slice_store_of_disjoint {m : ℤ → β} {off a : ℤ} {n : ℕ} {bs : List β}
    (h : a + n ≤ off ∨ off + bs.length ≤ a) : slice (store m off bs) a n = slice m a n := by
  refine slice_congr fun i hi => ?_
  rcases h with h | h
  · exact store_of_lt (by omega)
  · exact store_of_le (by omega)

/-- What is read where cells have been stored: those, and the old ones behind them. -/
theorem slice_store (m : ℤ → β) (off : ℤ) (bs : List β) (k : ℕ) :
    slice (store m off bs) off k = bs.take k ++ slice m (off + bs.length) (k - bs.length) := by
  rcases Nat.le_total k bs.length with hle | hge
  · rw [Nat.sub_eq_zero_of_le hle, slice_zero, List.append_nil]
    apply List.ext_getElem (by simp [hle])
    intro i h1 h2
    rw [length_slice] at h1
    rw [getElem_slice, store_add (by omega), List.getElem_take]
  · obtain ⟨n, rfl⟩ := Nat.exists_eq_add_of_le hge
    rw [slice_add, slice_store_self, List.take_of_length_le hge, Nat.add_sub_cancel_left,
      slice_store_of_disjoint (.inr le_rfl)]

/-- Two stores, the second one behind the first. -/
theorem store_store (m : ℤ → β) (off : ℤ) (as bs : List β) :
    store (store m off as) (off + as.length) bs = store m off (as ++ bs) := by
  funext x
  rcases lt_or_ge x off with hlt | hge
  · rw [store_of_lt (by omega), store_of_lt hlt, store_of_lt hlt]
  obtain ⟨i, hi⟩ := Int.eq_ofNat_of_zero_le (sub_nonneg.2 hge)
  obtain rfl : x = off + (i : ℤ) := by omega
  rcases Nat.lt_or_ge i as.length with hfirst | hsecond
  · rw [store_of_lt (by omega), store_add hfirst,
      store_add (by rw [List.length_append]; omega), List.getElem_append_left hfirst]
  rcases Nat.lt_or_ge (i - as.length) bs.length with hin | hout
  · have hadd : store (store m off as) (off + as.length) bs
        (off + as.length + (i - as.length : ℕ)) = bs[i - as.length] := store_add hin
    rw [show off + (as.length : ℤ) + ((i - as.length : ℕ) : ℤ) = off + i by omega] at hadd
    rw [hadd, store_add (by rw [List.length_append]; omega), List.getElem_append_right hsecond]
  · rw [store_of_le (by omega), store_of_le (by omega),
      store_of_le (by rw [List.length_append]; omega)]

/-! ### Copies, and arrays of elements -/

/-- The cells behind a copy of `n` cells from `src` to `dst`. -/
theorem store_slice (m m' : ℤ → β) (dst src : ℤ) (n : ℕ) (x : ℤ) :
    store m dst (slice m' src n) x = if dst ≤ x ∧ x < dst + n then m' (src + (x - dst)) else m x := by
  split_ifs with h
  · obtain ⟨i, hi⟩ := Int.eq_ofNat_of_zero_le (sub_nonneg.2 h.1)
    obtain rfl : x = dst + (i : ℤ) := by omega
    rw [store_add (by rw [length_slice]; omega), getElem_slice, add_sub_cancel_left]
  · rcases lt_or_ge x dst with hlt | hge
    · exact store_of_lt hlt
    · exact store_of_le (by rw [length_slice]; omega)

/-- The element `i` of an array of elements of `size` cells, which begins at address 0. -/
def elem (m : ℤ → β) (size i : ℕ) : List β := slice m (i * size : ℕ) size

theorem elem_eq_iff {m m' : ℤ → β} {size i i' : ℕ} :
    elem m size i = elem m' size i' ↔
      ∀ t : ℕ, t < size → m ((i * size : ℕ) + t) = m' ((i' * size : ℕ) + t) := by
  refine ⟨fun h t ht => ?_, slice_congr⟩
  have hcell := congrArg (·[t]?) h
  simpa [elem, slice, ht] using hcell

/-! ### Several stores -/

/-- Write several lists of cells, one after the other. -/
def storeAll (m : ℤ → β) : List (ℤ × List β) → ℤ → β
  | [] => m
  | p :: ps => storeAll (store m p.1 p.2) ps

theorem storeAll_append (m : ℤ → β) (ps qs : List (ℤ × List β)) :
    storeAll m (ps ++ qs) = storeAll (storeAll m ps) qs := by
  induction ps generalizing m with
  | nil => rfl
  | cons p ps ih => exact ih (store m p.1 p.2)

/-- Cells before all of them keep their contents. -/
theorem storeAll_of_lt {m : ℤ → β} {ps : List (ℤ × List β)} {i : ℤ} (h : ∀ p ∈ ps, i < p.1) :
    storeAll m ps i = m i := by
  induction ps generalizing m with
  | nil => rfl
  | cons p ps ih =>
    rw [List.forall_mem_cons] at h
    rw [storeAll, ih h.2, store_of_lt h.1]

/-- What is stored stays when nothing is stored before its end later on. -/
theorem slice_storeAll_cons {m : ℤ → β} {p : ℤ × List β} {ps : List (ℤ × List β)}
    (h : ∀ q ∈ ps, p.1 + (p.2.length : ℤ) ≤ q.1) :
    slice (storeAll m (p :: ps)) p.1 p.2.length = p.2 := by
  rw [storeAll]
  conv_rhs => rw [← slice_store_self m p.1 p.2]
  refine slice_congr fun i hi => storeAll_of_lt fun q hq => ?_
  have hle := h q hq
  omega

/-- Stores one behind the other can all be read back. -/
theorem slice_storeAll {m : ℤ → β} {ps : List (ℤ × List β)}
    (h : ps.Pairwise fun p q => p.1 + (p.2.length : ℤ) ≤ q.1) {p : ℤ × List β} (hp : p ∈ ps) :
    slice (storeAll m ps) p.1 p.2.length = p.2 := by
  induction ps generalizing m with
  | nil => cases hp
  | cons q ps ih =>
    rw [List.pairwise_cons] at h
    rcases List.mem_cons.1 hp with rfl | hp
    · exact slice_storeAll_cons h.1
    · exact ih h.2 hp

end Mem
