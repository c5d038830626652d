import Mathlib.Tactic

/-!
# The blocks of a program

A program that calls `malloc` and `free`, seen by the blocks that it holds: `none` is a program that
frees a block that is not live, or uses one. Blocks are numbered in the order in which they are
asked for, and which requests `malloc` grants is a parameter.

`Spec own m post` says that `m` goes right when the blocks `own` are live, that it leaves all other
blocks alone, and that the blocks that it leaves in place of `own` meet `post`. So a block that is
lost shows in `post`. The frame is in the definition, as the frame rule holds for every program.
-/

namespace Ledger

/-- A pointer: `NULL`, or the number of a block. -/
abbrev Ptr := Option ℕ

/-- The block of a pointer. -/
def blocks : Ptr → Multiset ℕ
  | none => 0
  | some b => {b}

@[simp] theorem blocks_none : blocks none = 0 := rfl

@[simp] theorem blocks_some (b : ℕ) : blocks (some b) = {b} := rfl

/-- The blocks of several pointers. -/
def blocksOf (ps : List Ptr) : Multiset ℕ := (ps.map blocks).sum

@[simp] theorem blocksOf_nil : blocksOf [] = 0 := rfl

@[simp] theorem blocksOf_cons (p : Ptr) (ps : List Ptr) :
    blocksOf (p :: ps) = blocks p + blocksOf ps := by simp [blocksOf]

@[simp] theorem blocksOf_append (ps qs : List Ptr) :
    blocksOf (ps ++ qs) = blocksOf ps + blocksOf qs := by simp [blocksOf]

/-- One of the pointers is replaced. -/
theorem blocksOf_set {ps : List Ptr} {i : ℕ} {p : Ptr} (hp : ps[i]? = some p) (q : Ptr) :
    blocksOf (ps.set i q) + blocks p = blocksOf ps + blocks q := by
  induction ps generalizing i with
  | nil => cases hp
  | cons p₀ ps ih =>
    cases i with
    | zero =>
      obtain rfl : p₀ = p := by simpa using hp
      rw [List.set_cons_zero, blocksOf_cons, blocksOf_cons]
      abel
    | succ i =>
      rw [List.set_cons_succ, blocksOf_cons, blocksOf_cons, add_assoc, add_assoc]
      rw [ih (by simpa using hp)]

@[simp] theorem blocksOf_replicate_none (n : ℕ) : blocksOf (List.replicate n none) = 0 := by
  simp [blocksOf]

structure Heap where
  /-- the number of the next block -/
  next : ℕ
  live : Multiset ℕ
  deriving DecidableEq

namespace Heap

/-- No block before the first request. -/
def empty : Heap := ⟨0, 0⟩

/-- Each block is live once, and a new block is not live yet. -/
structure Ok (h : Heap) : Prop where
  nodup : h.live.Nodup
  lt : ∀ b ∈ h.live, b < h.next

theorem ok_empty : empty.Ok := ⟨Multiset.nodup_zero, by simp [empty]⟩

/-- A request that is granted. -/
def add (h : Heap) : Heap := ⟨h.next + 1, h.next ::ₘ h.live⟩

/-- A request that is not. -/
def skip (h : Heap) : Heap := ⟨h.next + 1, h.live⟩

/-- The block of a pointer is freed. -/
def remove (h : Heap) (p : Ptr) : Heap := ⟨h.next, h.live - blocks p⟩

@[simp] theorem next_remove (h : Heap) (p : Ptr) : (h.remove p).next = h.next := rfl

@[simp] theorem live_remove (h : Heap) (p : Ptr) : (h.remove p).live = h.live - blocks p := rfl

@[simp] theorem next_add (h : Heap) : h.add.next = h.next + 1 := rfl

@[simp] theorem next_skip (h : Heap) : h.skip.next = h.next + 1 := rfl

@[simp] theorem live_add (h : Heap) : h.add.live = h.next ::ₘ h.live := rfl

@[simp] theorem live_skip (h : Heap) : h.skip.live = h.live := rfl

/-- A heap that comes from another: no number is used again. -/
structure Later (h h' : Heap) : Prop where
  ok : h'.Ok
  next_le : h.next ≤ h'.next
  old_or_new : ∀ b ∈ h'.live, b ∈ h.live ∨ h.next ≤ b

variable {h h' h'' : Heap}

theorem Ok.add (hok : h.Ok) : h.add.Ok where
  nodup := Multiset.nodup_cons.2 ⟨fun hmem => lt_irrefl _ (hok.lt _ hmem), hok.nodup⟩
  lt b hb := by
    rcases Multiset.mem_cons.1 hb with rfl | hb
    · exact Nat.lt_succ_self _
    · exact (hok.lt b hb).trans (Nat.lt_succ_self _)

theorem Ok.skip (hok : h.Ok) : h.skip.Ok :=
  ⟨hok.nodup, fun b hb => (hok.lt b hb).trans (Nat.lt_succ_self _)⟩

theorem Ok.remove (hok : h.Ok) (p : Ptr) : (h.remove p).Ok :=
  ⟨Multiset.nodup_of_le (Multiset.sub_le_self _ _) hok.nodup,
    fun b hb => hok.lt b (Multiset.mem_of_le (Multiset.sub_le_self _ _) hb)⟩

theorem Ok.later (hok : h.Ok) : h.Later h := ⟨hok, le_refl _, fun _ => .inl⟩

theorem Later.trans (h₁ : h.Later h') (h₂ : h'.Later h'') : h.Later h'' where
  ok := h₂.ok
  next_le := h₁.next_le.trans h₂.next_le
  old_or_new b hb := (h₂.old_or_new b hb).elim (h₁.old_or_new b) fun hb =>
    .inr (h₁.next_le.trans hb)

end Heap

/-- A program with the result `α`. -/
abbrev Prog (α : Type) := StateT Heap Option α

section Operations

/-- `malloc`, which grants the requests `grants`. -/
def malloc (grants : ℕ → Bool) : Prog Ptr := fun h =>
  if grants h.next then some (some h.next, h.add) else some (none, h.skip)

/-- `free`; nothing is done for `NULL`. -/
def free : Ptr → Prog Unit
  | none => fun h => some ((), h)
  | some b => fun h => if b ∈ h.live then some ((), { h with live := h.live.erase b }) else none

/-- An access to the block of a pointer. -/
def touch : Ptr → Prog Unit
  | none => fun _ => none
  | some b => fun h => if b ∈ h.live then some ((), h) else none

/-- One `free` for each pointer. -/
def freeAll : List Ptr → Prog Unit
  | [] => pure ()
  | p :: ps => do
    free p
    freeAll ps

end Operations

/-- **`m` goes right on the blocks `own`**: it leaves the others alone, and `post` holds of its result
and of the blocks that it leaves in place of `own`. -/
def Spec {α : Type} (own : Multiset ℕ) (m : Prog α) (post : α → Multiset ℕ → Prop) : Prop :=
  ∀ (frame : Multiset ℕ) (h : Heap), h.Ok → h.live = own + frame →
    ∃ a own' h', m h = some (a, h') ∧ h.Later h' ∧ h'.live = own' + frame ∧ post a own'

variable {α β : Type} {own rest : Multiset ℕ} {m : Prog α} {post : α → Multiset ℕ → Prop}

/-! ### Runs -/

@[simp] theorem pure_apply (a : α) (h : Heap) : (pure a : Prog α) h = some (a, h) := rfl

theorem bind_apply (m : Prog α) (f : α → Prog β) (h : Heap) :
    (m >>= f) h = (m h).bind fun p => f p.1 p.2 := rfl

theorem free_eq {p : Ptr} {h : Heap} (hp : blocks p ≤ h.live) :
    free p h = some ((), h.remove p) := by
  cases p with
  | none => simp [free, Heap.remove]
  | some b =>
    have hmem : b ∈ h.live := Multiset.singleton_le.1 hp
    rw [Heap.remove, blocks_some, Multiset.sub_singleton]
    exact if_pos hmem

theorem touch_live {b : ℕ} {h : Heap} (hb : b ∈ h.live) : touch (some b) h = some ((), h) :=
  if_pos hb

@[simp] theorem touch_null (h : Heap) : touch none h = none := rfl

theorem touch_dead {b : ℕ} {h : Heap} (hb : b ∉ h.live) : touch (some b) h = none := if_neg hb

/-- What a specification says of a run from the empty heap. -/
theorem Spec.run (h : Spec 0 m post) :
    ∃ a heap, m .empty = some (a, heap) ∧ post a heap.live := by
  obtain ⟨a, own', heap, hrun, -, hlive, hpost⟩ := h 0 .empty Heap.ok_empty (by simp [Heap.empty])
  rw [add_zero] at hlive
  exact ⟨a, heap, hrun, hlive ▸ hpost⟩

/-! ### Rules -/

theorem Spec.pure {a : α} (h : post a own) : Spec own (Pure.pure a) post :=
  fun _ heap hok hlive => ⟨a, own, heap, rfl, hok.later, hlive, h⟩

/-- **The rule of consequence.** -/
theorem Spec.mono {post' : α → Multiset ℕ → Prop} (h : Spec own m post)
    (hpost : ∀ a own', post a own' → post' a own') : Spec own m post' := fun frame heap hok hlive =>
  let ⟨a, own', heap', hrun, hok', hlive', hp⟩ := h frame heap hok hlive
  ⟨a, own', heap', hrun, hok', hlive', hpost a own' hp⟩

/-- **The rule of sequence.** -/
theorem Spec.bind {f : α → Prog β} {post' : β → Multiset ℕ → Prop} (h : Spec own m post)
    (hf : ∀ a own', post a own' → Spec own' (f a) post') : Spec own (m >>= f) post' := by
  intro frame heap hok hlive
  obtain ⟨a, own', heap', hrun, hlater, hlive', hp⟩ := h frame heap hok hlive
  obtain ⟨b, own'', heap'', hrun', hlater', hrest⟩ := hf a own' hp frame heap' hlater.ok hlive'
  refine ⟨b, own'', heap'', ?_, hlater.trans hlater', hrest⟩
  change (m heap).bind (fun p => f p.1 p.2) = some (b, heap'')
  rw [hrun, Option.bind_some, hrun']

/-- **The frame rule.** -/
theorem Spec.frame (h : Spec own m post) (rest : Multiset ℕ) :
    Spec (own + rest) m fun a own' => ∃ own₁, post a own₁ ∧ own' = own₁ + rest := by
  intro frame heap hok hlive
  rw [add_assoc] at hlive
  obtain ⟨a, own', heap', hrun, hok', hlive', hp⟩ := h (rest + frame) heap hok hlive
  exact ⟨a, own' + rest, heap', hrun, hok', by rw [hlive', add_assoc], own', hp, rfl⟩

/-- `malloc` adds a block or nothing. -/
theorem spec_malloc (grants : ℕ → Bool) :
    Spec own (malloc grants) fun p own' => own' = blocks p + own := by
  intro frame heap hok hlive
  rw [malloc]
  split_ifs with hgrant
  · refine ⟨some heap.next, {heap.next} + own, _, rfl, ⟨hok.add, Nat.le_succ _, ?_⟩, ?_, rfl⟩
    · intro b hb
      exact (Multiset.mem_cons.1 hb).elim (fun hb => .inr hb.ge) .inl
    · rw [Heap.live_add, hlive, Multiset.singleton_add, Multiset.cons_add]
  · exact ⟨none, own, _, rfl, ⟨hok.skip, Nat.le_succ _, fun _ => .inl⟩, hlive, (zero_add own).symm⟩

/-- `free` takes the block of its pointer. -/
theorem spec_free (p : Ptr) : Spec (blocks p + own) (free p) fun _ own' => own' = own := by
  intro frame heap hok hlive
  cases p with
  | none =>
    rw [blocks_none, zero_add] at hlive
    exact ⟨(), own, heap, rfl, hok.later, hlive, rfl⟩
  | some b =>
    have hcons : heap.live = b ::ₘ (own + frame) := by
      rw [hlive, blocks_some, add_assoc, Multiset.singleton_add]
    have herase : heap.live.erase b = own + frame := by rw [hcons, Multiset.erase_cons_head]
    have hmem : b ∈ heap.live := by simp [hcons]
    have hok' : Heap.Ok { heap with live := heap.live.erase b } :=
      ⟨hok.nodup.erase b, fun c hc => hok.lt c (Multiset.mem_of_mem_erase hc)⟩
    exact ⟨(), own, _, if_pos hmem,
      ⟨hok', le_refl _, fun c hc => .inl (Multiset.mem_of_mem_erase hc)⟩, herase, rfl⟩

/-- A block that is owned can be used. -/
theorem spec_touch {p : Ptr} {b : ℕ} (hp : p = some b) (hb : b ∈ own) :
    Spec own (touch p) fun _ own' => own' = own := by
  intro frame heap hok hlive
  subst hp
  have hmem : b ∈ heap.live := by
    rw [hlive]
    exact Multiset.mem_add.2 (.inl hb)
  exact ⟨(), own, heap, if_pos hmem, hok.later, hlive, rfl⟩

theorem spec_freeAll (ps : List Ptr) :
    Spec (blocksOf ps + own) (freeAll ps) fun _ own' => own' = own := by
  induction ps with
  | nil => exact Spec.pure (by simp)
  | cons p ps ih =>
    rw [blocksOf_cons, add_assoc]
    refine (spec_free p).bind fun _ own' hown => ?_
    rw [hown]
    exact ih

end Ledger
