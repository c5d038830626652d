import F1Goal.Lib.Ring
import F1Goal.Queue

/-!
# The ring queue is a bounded FIFO

`QueInv` ties the ring to its history: `tail` is as many positions behind `front` as elements are
live, the live blocks show these elements, and each side holds at its statement what the ones before
have established. Every step of either side preserves it (`queStep_inv`). `queStep_fifo` reads a
step as one of a bounded FIFO: it leaves the live elements alone, adds one behind them while there
is room, or takes the first one away. `QueInv.fifo` says what holds at every moment.
-/

namespace F1Goal

open Ring

/-- The elements that are live: published and not yet popped. -/
def QueSys.live (s : QueSys) : List Elem := s.published.drop s.popped

/-- The consumer has begun to clear the header of the first block. -/
def ConsPc.clearing : ConsPc → ℕ
  | .popStatus _ => 1
  | .popFront => 1
  | _ => 0

/-- The consumer has seen the first live element and not yet removed it. -/
def ConsPc.ahead : ConsPc → ℕ
  | .popTest _ => 1
  | .popElem => 1
  | .popLen _ => 1
  | .popStatus _ => 1
  | .popFront => 1
  | _ => 0

/-- What the producer has established where it stands, in a ring of `n` blocks with `k` live
elements. -/
def ProdFacts (q : Que) (n : ℤ) (k : ℕ) : ProdPc → Prop
  | .idle => True
  | .free p => p = q.tail
  | .addElem _ => (k : ℤ) + 1 < n
  | .addLen _ p => (k : ℤ) + 1 < n ∧ p = q.tail
  | .addStatus d p => (k : ℤ) + 1 < n ∧ p = q.tail ∧ (q.buffer p).dataLen = d.length
  | .addData d p => (k : ℤ) + 1 < n ∧ p = q.tail ∧ (q.buffer p).dataLen = d.length
  | .addTail d => (k : ℤ) + 1 < n ∧ (q.buffer q.tail).elem = ⟨d.length, d⟩
  | .moveTail => (k : ℤ) + 1 < n
  | .lastEmpty tail => tail = q.tail - 1

/-- What the consumer has established where it stands, with `k` live elements. -/
def ConsFacts (q : Que) (k : ℕ) : ConsPc → Prop
  | .idle => True
  | .headEmpty => 0 < k
  | .headAddr => 0 < k
  | .readLen p => 0 < k ∧ p = q.front
  | .readData p len => 0 < k ∧ p = q.front ∧ len = (q.buffer p).dataLen
  | .popTest p => 0 < k ∧ p = q.front
  | .popElem => 0 < k
  | .popLen p => 0 < k ∧ p = q.front
  | .popStatus p => 0 < k ∧ p = q.front
  | .popFront => 0 < k
  | .fault => False

/-- The invariant of a queue of `n` blocks between one producer and one consumer. -/
structure QueInv (n : ℤ) (s : QueSys) : Prop where
  blkNum : s.que.blkNum = n
  front_nonneg : 0 ≤ s.que.front
  front_lt : s.que.front < n
  room : (s.live.length : ℤ) < n
  tail_eq : s.que.tail = pos n s.que.front s.live.length
  holds : HoldsFrom Block.elem s.que.buffer n s.que.front s.cons.clearing s.live
  prodFacts : ProdFacts s.que n s.live.length s.prod
  consFacts : ConsFacts s.que s.live.length s.cons
  popped_le : s.popped ≤ s.published.length
  seen_eq : s.seen = s.published.take (s.popped + s.cons.ahead)

variable {n : ℤ} {s t : QueSys}

namespace QueInv

theorem n_pos (h : QueInv n s) : 0 < n := h.front_nonneg.trans_lt h.front_lt

theorem tail_nonneg (h : QueInv n s) : 0 ≤ s.que.tail := h.tail_eq ▸ pos_nonneg h.n_pos _

theorem tail_lt (h : QueInv n s) : s.que.tail < n := h.tail_eq ▸ pos_lt h.n_pos _

theorem front_eq (h : QueInv n s) : s.que.front = pos n s.que.front 0 :=
  (pos_zero h.front_nonneg h.front_lt).symm

theorem next_eq (h : QueInv n s) {p : ℤ} (hp : 0 ≤ p) : s.que.next p = (p + 1) % n := by
  rw [Que.next, h.blkNum, Int.tmod_eq_emod_of_nonneg (by omega)]

theorem next_tail (h : QueInv n s) :
    s.que.next s.que.tail = pos n s.que.front (s.live.length + 1) := by
  rw [h.next_eq h.tail_nonneg, h.tail_eq, pos_add_one_emod]

theorem next_front (h : QueInv n s) : s.que.next s.que.front = pos n s.que.front 1 := by
  rw [h.next_eq h.front_nonneg, pos, Nat.cast_one]

/-- `que_obj_empty` tests whether an element is live. -/
theorem empty_iff (h : QueInv n s) : s.que.front = s.que.tail ↔ s.live.length = 0 := by
  constructor
  · intro heq
    have h0 := h.n_pos
    have hpos : pos n s.que.front 0 = pos n s.que.front s.live.length := by
      rw [← h.front_eq, heq]
      exact heq ▸ h.tail_eq
    exact (pos_inj (by omega) h.room hpos).symm
  · intro h0
    rw [h.tail_eq, h0, ← h.front_eq]

/-- `que_obj_full` tests whether all blocks but one are in use. -/
theorem full_iff (h : QueInv n s) :
    s.que.front = s.que.next s.que.tail ↔ (s.live.length : ℤ) + 1 = n := by
  rw [h.next_tail]
  constructor
  · intro heq
    by_contra hne
    have hlt : ((s.live.length + 1 : ℕ) : ℤ) < n := by
      have := h.room
      push_cast
      omega
    have h0 := h.n_pos
    have := pos_inj (i := 0) (by omega) hlt (h.front_eq.symm.trans heq)
    omega
  · intro heq
    rw [pos, Nat.cast_add, Nat.cast_one, heq, Int.add_emod_right,
      Int.emod_eq_of_lt h.front_nonneg h.front_lt]

theorem live_length (h : QueInv n s) : s.live.length + s.popped = s.published.length := by
  have := h.popped_le
  rw [QueSys.live, List.length_drop]
  omega

end QueInv

/-! ### What each kind of step preserves -/

theorem ProdFacts.congr {q q' : Que} {k k' : ℕ} {pc : ProdPc} (ht : q'.tail = q.tail)
    (hb : q'.buffer q.tail = q.buffer q.tail) (hk : k' ≤ k) (h : ProdFacts q n k pc) :
    ProdFacts q' n k' pc := by
  cases pc with
  | idle => trivial
  | free p => exact h.trans ht.symm
  | addElem d => simp only [ProdFacts] at h ⊢; omega
  | addLen d p => exact ⟨by have := h.1; omega, h.2.trans ht.symm⟩
  | addStatus d p =>
    obtain ⟨h1, rfl, h3⟩ := h
    exact ⟨by omega, ht.symm, by rw [hb, h3]⟩
  | addData d p =>
    obtain ⟨h1, rfl, h3⟩ := h
    exact ⟨by omega, ht.symm, by rw [hb, h3]⟩
  | addTail d => exact ⟨by have := h.1; omega, by rw [ht, hb]; exact h.2⟩
  | moveTail => simp only [ProdFacts] at h ⊢; omega
  | lastEmpty tail => exact h.trans (by rw [ht])

theorem ConsFacts.congr {q q' : Que} {k k' : ℕ} {pc : ConsPc} (hf : q'.front = q.front)
    (hb : 0 < k → q'.buffer q.front = q.buffer q.front) (hk : k ≤ k') (h : ConsFacts q k pc) :
    ConsFacts q' k' pc := by
  cases pc with
  | idle => trivial
  | headEmpty => exact h.trans_le hk
  | headAddr => exact h.trans_le hk
  | readLen p => exact ⟨h.1.trans_le hk, h.2.trans hf.symm⟩
  | readData p len =>
    obtain ⟨h1, rfl, h3⟩ := h
    exact ⟨h1.trans_le hk, hf.symm, by rw [hb h1, h3]⟩
  | popTest p => exact ⟨h.1.trans_le hk, h.2.trans hf.symm⟩
  | popElem => exact h.trans_le hk
  | popLen p => exact ⟨h.1.trans_le hk, h.2.trans hf.symm⟩
  | popStatus p => exact ⟨h.1.trans_le hk, h.2.trans hf.symm⟩
  | popFront => exact h.trans_le hk
  | fault => exact h.elim

namespace QueInv

theorem live_pos_of_ahead (h : QueInv n s) (ha : s.cons.ahead = 1) : 0 < s.live.length := by
  have hc := h.consFacts
  cases hpc : s.cons with
  | popElem => rw [hpc] at hc; exact hc
  | popFront => rw [hpc] at hc; exact hc
  | popTest p => rw [hpc] at hc; exact hc.1
  | popLen p => rw [hpc] at hc; exact hc.1
  | popStatus p => rw [hpc] at hc; exact hc.1
  | _ => simp [hpc, ConsPc.ahead] at ha

/-- The consumer has not seen more than has been published. -/
theorem ahead_le (h : QueInv n s) : s.popped + s.cons.ahead ≤ s.published.length := by
  have hl := h.live_length
  have hle : s.cons.ahead ≤ 1 := by
    cases s.cons <;> simp [ConsPc.ahead]
  rcases Nat.le_one_iff_eq_zero_or_eq_one.1 hle with h0 | h1
  · omega
  · have := h.live_pos_of_ahead h1
    omega

/-- The producer moves on without touching the queue. -/
theorem prod_goes (h : QueInv n s) {pc : ProdPc} (rets : List (Code × Bool)) (last : Option ℤ)
    (hpc : ProdFacts s.que n s.live.length pc) :
    QueInv n { s with prod := pc, rets := rets, last := last } :=
  { h with prodFacts := hpc }

/-- The producer writes the block behind the last live one. -/
theorem write_free (h : QueInv n s) {p : ℤ} (b : Block) {pc : ProdPc} (hp : p = s.que.tail)
    (hpc : ProdFacts (s.que.setBlock p b) n s.live.length pc) :
    QueInv n { s with que := s.que.setBlock p b, prod := pc } := by
  have hcons : ConsFacts (s.que.setBlock p b) s.live.length s.cons := by
    refine ConsFacts.congr (q := s.que) rfl (fun hk => ?_) le_rfl h.consFacts
    have hne : s.que.front ≠ p := by
      rintro heq
      have := h.empty_iff.1 (heq.trans hp)
      omega
    exact Function.update_of_ne hne _ _
  exact
    { h with
      holds := h.holds.update_free (hp.trans h.tail_eq) h.room
      prodFacts := hpc
      consFacts := hcons }

/-- The producer advances `tail`: the block behind the last live one becomes live. -/
theorem moveTail (h : QueInv n s) {e : Elem} (hroom : (s.live.length : ℤ) + 1 < n)
    (he : (s.que.buffer s.que.tail).elem = e) : QueInv n (s.moveTail e) := by
  have hlive : (s.moveTail e).live = s.live ++ [e] := List.drop_append_of_le_length h.popped_le
  have hlen : (s.moveTail e).live.length = s.live.length + 1 := by
    rw [hlive, List.length_append, List.length_singleton]
  exact
    { blkNum := h.blkNum
      front_nonneg := h.front_nonneg
      front_lt := h.front_lt
      room := by rw [hlen]; push_cast; exact hroom
      tail_eq := by rw [hlen]; exact h.next_tail
      holds := by
        rw [hlive]
        exact h.holds.push (by rw [← h.tail_eq, he])
      prodFacts := trivial
      consFacts := h.consFacts.congr rfl (fun _ => rfl) (by omega)
      popped_le := by
        have := h.popped_le
        simp only [QueSys.moveTail, List.length_append, List.length_singleton]
        omega
      seen_eq := by
        change s.seen = (s.published ++ [e]).take (s.popped + s.cons.ahead)
        rw [List.take_append_of_le_length h.ahead_le]
        exact h.seen_eq }

/-- The consumer moves on without touching the queue. -/
theorem cons_goes (h : QueInv n s) {pc : ConsPc} (hc : pc.clearing = s.cons.clearing)
    (ha : pc.ahead = s.cons.ahead) (hpc : ConsFacts s.que s.live.length pc) :
    QueInv n { s with cons := pc } :=
  { h with
    holds := hc ▸ h.holds
    consFacts := hpc
    seen_eq := ha ▸ h.seen_eq }

/-- The consumer clears a field of the header of the first block. -/
theorem clear_head (h : QueInv n s) {p : ℤ} (b : Block) {pc : ConsPc} (hc : pc.clearing = 1)
    (ha : pc.ahead = s.cons.ahead) (hk : 0 < s.live.length) (hp : p = s.que.front)
    (hpc : ConsFacts (s.que.setBlock p b) s.live.length pc) :
    QueInv n { s with que := s.que.setBlock p b, cons := pc } := by
  have hprod : ProdFacts (s.que.setBlock p b) n s.live.length s.prod := by
    refine ProdFacts.congr (q := s.que) rfl ?_ le_rfl h.prodFacts
    have hne : s.que.tail ≠ p := by
      rintro heq
      have := h.empty_iff.1 (heq.trans hp).symm
      omega
    exact Function.update_of_ne hne _ _
  have hle : s.cons.clearing ≤ 1 := by
    cases s.cons <;> simp [ConsPc.clearing]
  exact
    { h with
      holds := by
        rw [hc]
        exact (h.holds.mono hle).update_head (hp.trans h.front_eq) h.room.le
      prodFacts := hprod
      consFacts := hpc
      seen_eq := ha ▸ h.seen_eq }

/-- The first live element is the one behind those that were popped. -/
theorem live_cons (h : QueInv n s) (hlive : 0 < s.live.length) :
    ∃ hlt : s.popped < s.published.length,
      s.live = s.published[s.popped] :: s.published.drop (s.popped + 1) := by
  have hlen := h.live_length
  have hlt : s.popped < s.published.length := by omega
  exact ⟨hlt, List.drop_eq_getElem_cons hlt⟩

/-- The consumer has read the first block: it has seen the first live element. -/
theorem readData (h : QueInv n s) {p len : ℤ} (hcons : s.cons = .readData p len) :
    QueInv n { s with
      cons := .popTest p, seen := s.seen ++ [⟨len, (s.que.buffer p).data.take len.toNat⟩] } := by
  have hc := h.consFacts
  have hh := h.holds
  have hs := h.seen_eq
  rw [hcons] at hc hh hs
  obtain ⟨hk, rfl, rfl⟩ := hc
  obtain ⟨hlt, hlive⟩ := h.live_cons hk
  have he : (s.que.buffer s.que.front).elem = s.published[s.popped] := by
    rw [hlive] at hh
    exact hh.head h.front_nonneg h.front_lt
  exact
    { h with
      holds := hh
      consFacts := ⟨hk, rfl⟩
      seen_eq := by
        change s.seen ++ [(s.que.buffer s.que.front).elem] = s.published.take (s.popped + 1)
        rw [hs, he]
        exact List.take_append_getElem hlt }

/-- The consumer advances `front`: the first live element is gone. -/
theorem popFront (h : QueInv n s) (hcons : s.cons = .popFront) :
    QueInv n { s with
      que := { s.que with front := s.que.next s.que.front }, cons := .idle,
      popped := s.popped + 1 } := by
  have hk := h.consFacts
  have hh := h.holds
  have hs := h.seen_eq
  rw [hcons] at hk hh hs
  obtain ⟨hlt, hlive⟩ := h.live_cons hk
  have hlen : s.live.length = (s.published.drop (s.popped + 1)).length + 1 := by
    rw [hlive, List.length_cons]
  have hfront := h.next_front
  exact
    { blkNum := h.blkNum
      front_nonneg := by
        change 0 ≤ s.que.next s.que.front
        rw [hfront]
        exact pos_nonneg h.n_pos 1
      front_lt := by
        change s.que.next s.que.front < n
        rw [hfront]
        exact pos_lt h.n_pos 1
      room := by
        have := h.room
        change ((s.published.drop (s.popped + 1)).length : ℤ) < n
        omega
      tail_eq := by
        change s.que.tail = pos n (s.que.next s.que.front) (s.published.drop (s.popped + 1)).length
        rw [hfront, pos_pos_one, ← hlen]
        exact h.tail_eq
      holds := by
        rw [hlive] at hh
        change HoldsFrom Block.elem s.que.buffer n (s.que.next s.que.front) 0 _
        rw [hfront]
        exact hh.tail
      prodFacts := by
        refine h.prodFacts.congr rfl rfl ?_
        change (s.published.drop (s.popped + 1)).length ≤ _
        omega
      consFacts := trivial
      popped_le := hlt
      seen_eq := hs }

end QueInv

/-! ### Steps and runs -/

theorem prodStep_inv (h : QueInv n s) (hst : prodStep s = some t) : QueInv n t := by
  unfold prodStep at hst
  have hp := h.prodFacts
  cases hpc : s.prod with
  | idle => simp [hpc] at hst
  | free p => simp [hpc] at hst
  | addElem d =>
    simp only [hpc, Option.some.injEq] at hst hp
    subst hst
    exact h.prod_goes _ _ ⟨hp, rfl⟩
  | addLen d p =>
    simp only [hpc, Option.some.injEq] at hst hp
    subst hst
    exact h.write_free _ hp.2 ⟨hp.1, hp.2, by simp⟩
  | addStatus d p =>
    simp only [hpc, Option.some.injEq] at hst hp
    subst hst
    exact h.write_free _ hp.2.1 ⟨hp.1, hp.2.1, by simp [hp.2.2]⟩
  | addData d p =>
    simp only [hpc, Option.some.injEq] at hst hp
    subst hst
    refine h.write_free _ hp.2.1 ⟨hp.1, ?_⟩
    obtain ⟨-, rfl, hlen⟩ := hp
    simp [Block.elem, Block.copyIn, hlen]
  | addTail d =>
    simp only [hpc, Option.some.injEq] at hst hp
    subst hst
    exact h.moveTail hp.1 hp.2
  | moveTail =>
    simp only [hpc, Option.some.injEq] at hst hp
    subst hst
    exact h.moveTail hp rfl
  | lastEmpty tail =>
    simp only [hpc, Option.some.injEq] at hst
    subst hst
    exact h.prod_goes _ _ trivial

theorem consStep_inv (h : QueInv n s) (hst : consStep s = some t) : QueInv n t := by
  unfold consStep at hst
  have hc := h.consFacts
  have hempty : queObjEmpty s.que = false ↔ 0 < s.live.length := by
    rw [queObjEmpty, decide_eq_false_iff_not, h.empty_iff]
    omega
  cases hpc : s.cons with
  | idle =>
    simp only [hpc, Option.some.injEq] at hst
    subst hst
    split_ifs with he
    · exact h
    · exact h.cons_goes (by rw [hpc]; rfl) (by rw [hpc]; rfl)
        (hempty.1 (Bool.eq_false_iff.2 he))
  | headEmpty =>
    -- the producer only adds elements, so the queue is still not empty
    simp only [hpc, Option.some.injEq] at hst hc
    have he : queObjEmpty s.que = false := hempty.2 hc
    rw [he, if_neg Bool.false_ne_true] at hst
    subst hst
    exact h.cons_goes (by rw [hpc]; rfl) (by rw [hpc]; rfl) hc
  | headAddr =>
    simp only [hpc, Option.some.injEq] at hst hc
    subst hst
    exact h.cons_goes (by rw [hpc]; rfl) (by rw [hpc]; rfl) ⟨hc, rfl⟩
  | readLen p =>
    simp only [hpc, Option.some.injEq] at hst hc
    subst hst
    exact h.cons_goes (by rw [hpc]; rfl) (by rw [hpc]; rfl) ⟨hc.1, hc.2, rfl⟩
  | readData p len =>
    simp only [hpc, Option.some.injEq] at hst
    subst hst
    exact h.readData hpc
  | popTest p =>
    -- the element in hand is live until `front` moves, so the test holds
    simp only [hpc, Option.some.injEq] at hst hc
    have hne : s.que.front ≠ s.que.tail := fun heq => hc.1.ne' (h.empty_iff.1 heq)
    rw [if_pos hne] at hst
    subst hst
    exact h.cons_goes (by rw [hpc]; rfl) (by rw [hpc]; rfl) hc.1
  | popElem =>
    simp only [hpc, Option.some.injEq] at hst hc
    subst hst
    exact h.cons_goes (by rw [hpc]; rfl) (by rw [hpc]; rfl) ⟨hc, rfl⟩
  | popLen p =>
    simp only [hpc, Option.some.injEq] at hst hc
    subst hst
    exact h.clear_head _ rfl (by rw [hpc]; rfl) hc.1 hc.2 hc
  | popStatus p =>
    simp only [hpc, Option.some.injEq] at hst hc
    subst hst
    exact h.clear_head _ rfl (by rw [hpc]; rfl) hc.1 hc.2 hc.1
  | popFront =>
    simp only [hpc, Option.some.injEq] at hst
    subst hst
    exact h.popFront hpc
  | fault => simp [hpc] at hst

/-- A statement of the consumer leaves the producer's side alone: where it stands, `tail`, the block
there, and what has been published. -/
theorem consStep_frame (h : QueInv n s) (hst : consStep s = some t) :
    t.prod = s.prod ∧ t.published = s.published ∧ t.rets = s.rets ∧ t.que.tail = s.que.tail ∧
      t.que.blkSize = s.que.blkSize ∧ t.que.buffer s.que.tail = s.que.buffer s.que.tail := by
  have hc := h.consFacts
  have hfree : ∀ p, 0 < s.live.length ∧ p = s.que.front → s.que.tail ≠ p := by
    rintro p ⟨hk, rfl⟩ heq
    have := h.empty_iff.1 heq.symm
    omega
  unfold consStep at hst
  cases hpc : s.cons with
  | popLen p =>
    simp only [hpc, Option.some.injEq] at hst hc
    subst hst
    exact ⟨rfl, rfl, rfl, rfl, rfl, Function.update_of_ne (hfree p hc) _ _⟩
  | popStatus p =>
    simp only [hpc, Option.some.injEq] at hst hc
    subst hst
    exact ⟨rfl, rfl, rfl, rfl, rfl, Function.update_of_ne (hfree p hc) _ _⟩
  | fault => simp [hpc] at hst
  | _ =>
    simp only [hpc, Option.some.injEq] at hst
    subst hst
    first
      | exact ⟨rfl, rfl, rfl, rfl, rfl, rfl⟩
      | split_ifs <;> exact ⟨rfl, rfl, rfl, rfl, rfl, rfl⟩

/-- The test of `que_obj_add` and `que_obj_move_next` finds room. -/
theorem QueInv.room_of_not_full (h : QueInv n s) (hfull : s.que.front ≠ s.que.next s.que.tail) :
    (s.live.length : ℤ) + 1 < n := by
  have hne : (s.live.length : ℤ) + 1 ≠ n := fun heq => hfull (h.full_iff.2 heq)
  have := h.room
  omega

/-- **The step lemma**: each statement of either side preserves the invariant. -/
theorem queStep_inv {a : QueAct} (h : QueInv n s) (hst : queStep s a = some t) : QueInv n t := by
  cases a with
  | add d =>
    simp only [queStep] at hst
    split_ifs at hst with hr hlong hroom <;> cases hst
    · exact h.prod_goes _ _ trivial
    · exact h.prod_goes _ _ (h.room_of_not_full (Ne.symm hroom))
    · exact h.prod_goes _ _ trivial
  | nextFreeblk =>
    simp only [queStep] at hst
    split_ifs at hst
    cases hst
    exact h.prod_goes _ _ rfl
  | write b =>
    have hp := h.prodFacts
    simp only [queStep] at hst
    cases hpc : s.prod with
    | free p =>
      simp only [hpc, Option.some.injEq] at hst hp
      subst hst
      exact h.write_free b hp hp
    | _ => simp [hpc] at hst
  | moveNext =>
    simp only [queStep] at hst
    split_ifs at hst with hr hfull <;> cases hst
    · exact h.prod_goes _ _ h.prodFacts
    · rw [queObjFull, decide_eq_true_iff] at hfull
      exact h.prod_goes _ _ (h.room_of_not_full hfull)
  | last =>
    simp only [queStep] at hst
    split_ifs at hst
    cases hst
    exact h.prod_goes _ _ rfl
  | prod => exact prodStep_inv h hst
  | cons => exact consStep_inv h hst

theorem queStart_inv (blkSize : ℤ) (buffer : ℤ → Block) (hn : 1 ≤ n) :
    QueInv n (queStart (queObjInit blkSize n buffer)) where
  blkNum := rfl
  front_nonneg := le_rfl
  front_lt := by change 0 < n; omega
  room := by change ((0 : ℕ) : ℤ) < n; omega
  tail_eq := by
    change 0 = pos n 0 0
    rw [pos_zero le_rfl (by omega)]
  holds := holdsFrom_nil
  prodFacts := trivial
  consFacts := trivial
  popped_le := le_rfl
  seen_eq := rfl

/-! ### The abstract queue -/

/-- A step of a FIFO that holds at most `cap` elements. -/
inductive FifoStep (cap : ℤ) : List Elem → List Elem → Prop
  | stay (xs : List Elem) : FifoStep cap xs xs
  | put (xs : List Elem) (e : Elem) (h : (xs.length : ℤ) < cap) : FifoStep cap xs (xs ++ [e])
  | take (e : Elem) (xs : List Elem) : FifoStep cap (e :: xs) xs

/-- What a step does to the history: nothing, or it publishes an element, or it pops one. -/
theorem queStep_history {a : QueAct} (hst : queStep s a = some t) :
    (t.published = s.published ∧ t.popped = s.popped) ∨
      (∃ e, t = s.moveTail e ∧ ((∃ d, s.prod = .addTail d) ∨ s.prod = .moveTail)) ∨
      (t.published = s.published ∧ t.popped = s.popped + 1 ∧ s.cons = .popFront) := by
  cases a with
  | add d => left; simp only [queStep] at hst; split_ifs at hst <;> cases hst <;> exact ⟨rfl, rfl⟩
  | nextFreeblk => left; simp only [queStep] at hst; split_ifs at hst; cases hst; exact ⟨rfl, rfl⟩
  | write b => left; simp only [queStep] at hst; split at hst <;> cases hst; exact ⟨rfl, rfl⟩
  | moveNext => left; simp only [queStep] at hst; split_ifs at hst <;> cases hst <;> exact ⟨rfl, rfl⟩
  | last => left; simp only [queStep] at hst; split_ifs at hst; cases hst; exact ⟨rfl, rfl⟩
  | prod =>
    simp only [queStep, prodStep] at hst
    cases hpc : s.prod with
    | addTail d =>
      simp only [hpc, Option.some.injEq] at hst
      exact .inr (.inl ⟨_, hst.symm, .inl ⟨d, rfl⟩⟩)
    | moveTail =>
      simp only [hpc, Option.some.injEq] at hst
      exact .inr (.inl ⟨_, hst.symm, .inr rfl⟩)
    | _ => left; simp only [hpc] at hst; cases hst <;> exact ⟨rfl, rfl⟩
  | cons =>
    simp only [queStep, consStep] at hst
    cases hpc : s.cons with
    | popFront =>
      simp only [hpc, Option.some.injEq] at hst
      subst hst
      exact .inr (.inr ⟨rfl, rfl, rfl⟩)
    | _ => left; simp only [hpc] at hst; cases hst <;> (try split_ifs) <;> exact ⟨rfl, rfl⟩

/-- **A step of the ring is one of a bounded FIFO.** -/
theorem queStep_fifo {a : QueAct} (h : QueInv n s) (hst : queStep s a = some t) :
    FifoStep (n - 1) s.live t.live := by
  rcases queStep_history hst with ⟨h1, h2⟩ | ⟨e, rfl, hpc⟩ | ⟨h1, h2, hpc⟩
  · rw [QueSys.live, QueSys.live, h1, h2]
    exact .stay _
  · have hroom : (s.live.length : ℤ) + 1 < n := by
      have hp := h.prodFacts
      rcases hpc with ⟨d, hpc⟩ | hpc <;> rw [hpc] at hp
      · exact hp.1
      · exact hp
    have hlive : (s.moveTail e).live = s.live ++ [e] := List.drop_append_of_le_length h.popped_le
    rw [hlive]
    exact .put _ _ (by omega)
  · have hk := h.consFacts
    rw [hpc] at hk
    obtain ⟨hlt, -⟩ := h.live_cons hk
    rw [QueSys.live, QueSys.live, h1, h2, List.drop_eq_getElem_cons hlt]
    exact .take _ _

/-! ### The queue between its two sides -/

/-- What holds at every moment of a queue of `n` blocks. -/
structure QueFifo (n : ℤ) (s : QueSys) : Prop where
  front_mem : 0 ≤ s.que.front ∧ s.que.front < n
  tail_mem : 0 ≤ s.que.tail ∧ s.que.tail < n
  live_le : (s.live.length : ℤ) ≤ n - 1
  no_fault : s.cons ≠ .fault
  /-- seen in order, unchanged, none twice -/
  seen_prefix : s.seen <+: s.published
  /-- none is popped unseen, and at most one is seen and not popped -/
  seen_popped : s.popped ≤ s.seen.length ∧ s.seen.length ≤ s.popped + 1
  /-- none is left out -/
  seen_all : queObjEmpty s.que = true → s.seen = s.published
  /-- the block that the consumer holds keeps the element seen -/
  held : ∀ p, s.cons = .popTest p → s.seen.getLast? = some (s.que.buffer p).elem
  tail_empty : s.live = [] → queObjTail s.que = none
  /-- the block of the last live element, which it shows unless it is the one being cleared -/
  tail_last : ∀ e, s.live.getLast? = some e →
    queObjTail s.que = some (pos n s.que.front (s.live.length - 1)) ∧
      (s.cons.clearing < s.live.length →
        (s.que.buffer (pos n s.que.front (s.live.length - 1))).elem = e)
  /-- `que_obj_tail` between the consumer's steps returns the same -/
  tail_call : ∀ tail, s.prod = .lastEmpty tail →
    ∃ t, queStep s .prod = some t ∧ t.last = queObjTail s.que

namespace QueInv

theorem seen_all (h : QueInv n s) (he : queObjEmpty s.que = true) : s.seen = s.published := by
  have h0 := h.empty_iff.1 (of_decide_eq_true he)
  have hl := h.live_length
  rw [h.seen_eq, List.take_of_length_le (by omega)]

theorem held (h : QueInv n s) {p : ℤ} (hpc : s.cons = .popTest p) :
    s.seen.getLast? = some (s.que.buffer p).elem := by
  have hc := h.consFacts
  have hh := h.holds
  rw [hpc] at hc hh
  obtain ⟨hk, rfl⟩ := hc
  obtain ⟨hlt, hlive⟩ := h.live_cons hk
  rw [hlive] at hh
  rw [h.seen_eq, hpc, hh.head h.front_nonneg h.front_lt]
  change (s.published.take (s.popped + 1)).getLast? = _
  rw [← List.take_append_getElem hlt, List.getLast?_concat]

theorem tail_last (h : QueInv n s) {e : Elem} (he : s.live.getLast? = some e) :
    queObjTail s.que = some (pos n s.que.front (s.live.length - 1)) ∧
      (s.cons.clearing < s.live.length →
        (s.que.buffer (pos n s.que.front (s.live.length - 1))).elem = e) := by
  have hne : s.live ≠ [] := by
    rintro hnil
    simp [hnil] at he
  obtain ⟨k, hk⟩ : ∃ k, s.live.length = k + 1 :=
    Nat.exists_eq_succ_of_ne_zero (by rwa [Ne, List.length_eq_zero_iff])
  have hempty : queObjEmpty s.que = false := by
    rw [queObjEmpty, decide_eq_false_iff_not, h.empty_iff]
    omega
  constructor
  · simp only [queObjTail, hempty, Bool.not_false, if_true, h.blkNum, h.tail_eq, hk]
    rw [pos_pred h.n_pos, Nat.add_sub_cancel]
  · intro hlt
    rw [h.holds (s.live.length - 1) (by omega) (by omega)]
    rw [List.getLast?_eq_getElem?, List.getElem?_eq_getElem (by omega)] at he
    exact Option.some.inj he

theorem fifo (h : QueInv n s) : QueFifo n s where
  front_mem := ⟨h.front_nonneg, h.front_lt⟩
  tail_mem := ⟨h.tail_nonneg, h.tail_lt⟩
  live_le := by
    have := h.room
    omega
  no_fault hpc := by
    have hc := h.consFacts
    rw [hpc] at hc
    exact hc
  seen_prefix := h.seen_eq ▸ List.take_prefix _ _
  seen_popped := by
    have hle : s.cons.ahead ≤ 1 := by
      cases s.cons <;> simp [ConsPc.ahead]
    rw [h.seen_eq, List.length_take, Nat.min_eq_left h.ahead_le]
    omega
  seen_all := h.seen_all
  held _ hpc := h.held hpc
  tail_empty hnil := by
    have he : queObjEmpty s.que = true := decide_eq_true (h.empty_iff.2 (by rw [hnil]; rfl))
    simp [queObjTail, he]
  tail_last _ he := h.tail_last he
  tail_call tail hpc := by
    have hp := h.prodFacts
    rw [hpc] at hp
    have ht : tail = s.que.tail - 1 := hp
    refine ⟨_, by simp only [queStep, prodStep, hpc]; rfl, ?_⟩
    rw [queObjTail, ← ht]

end QueInv

end F1Goal
