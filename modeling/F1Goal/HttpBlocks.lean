import F1Goal.HttpReset
import F1Goal.Lib.Ledger

/-!
# The memory of an object (`f1g_http.c`)

An object has a block for itself, one for its buffer and one for its bits. `http_object_reset_buffer`
frees the buffer before it has another one, and leaves `content` where it is. `http_memory_iff` says
for which calls no block is used behind its end, whichever requests for memory fail, and that an
object leaves nothing behind then.

What a call writes to a buffer is that of `HttpObject.op`. A buffer that a caller gives is a block of
the caller, which it hands over.
-/

open Ledger

namespace F1Goal

/-- An object with its blocks; `contentIn` is the block that `content` points to. -/
structure HttpCells where
  obj : HttpObject
  self : Ptr
  objBuf : Ptr
  bits : Ptr
  contentIn : Ptr

/-- A buffer of the caller, if it gives one. -/
def callerBuffer (grants : ℕ → Bool) (given : Option (ℤ → UInt8)) : Prog Ptr :=
  if given = none then pure none else malloc grants

/-- The buffer of a new object. -/
def newBuffer (grants : ℕ → Bool) (ext : Ptr) : Prog Ptr :=
  if ext = none then malloc grants else pure ext

/-- `http_object_create` with the buffer `ext` of the caller, whose bytes are `given`. -/
def httpObjectCreateBlocks (grants : ℕ → Bool) (ext : Ptr) (given : ℤ → UInt8) (bufSz : ℕ) :
    Prog (Option HttpCells) := do
  let self ← malloc grants
  if self = none then pure none
  else
    match httpObjectCreate (ext.map fun _ => given) bufSz with
    | none => do
      free self
      pure none
    | some obj => do
      let objBuf ← newBuffer grants ext
      if objBuf = none then do
        free self
        pure none
      else do
        let bits ← malloc grants
        if bits = none then do
          free objBuf
          free self
          pure none
        else pure (some ⟨obj, self, objBuf, bits, none⟩)

/-- `http_object_destroy`, with `bit_array_clean`. -/
def httpObjectDestroy (s : HttpCells) : Prog Unit :=
  if s.self = none then pure ()
  else do
    touch s.self
    free s.objBuf
    free s.bits
    free s.self

/-- `http_object_reset_buffer`. The caller keeps its buffer when the size is 0, and frees it. -/
def httpObjectResetBufferBlocks (grants : ℕ → Bool) (s : HttpCells)
    (given : Option (ℤ → UInt8)) (bufSz : UInt32) (block : ℤ → UInt8) : Prog HttpCells := do
  let ext ← callerBuffer grants given
  touch s.self
  if bufSz = 0 then do
    free ext
    pure s
  else do
    free s.objBuf
    if ext = none then do
      let objBuf ← malloc grants
      if objBuf = none then pure { s with objBuf := none }
      else
        let obj := (httpObjectResetBuffer s.obj none bufSz block).2
        pure { s with obj := obj, objBuf := objBuf }
    else
      let obj := (httpObjectResetBuffer s.obj given bufSz block).2
      pure { s with obj := obj, objBuf := ext }

/-- The block that content is written to. -/
def HttpCells.into (s : HttpCells) : Ptr := if s.obj.contentLen = 0 then s.objBuf else s.contentIn

/-- A call on an object. -/
def HttpCells.op (grants : ℕ → Bool) (s : HttpCells) : HttpOp → Prog HttpCells
  | .add (.header id arg) => do
    touch s.self
    if id < httpHdrNum then touch s.bits
    if s.obj.TakesHeader id arg then touch s.objBuf
    pure { s with obj := (httpObjectAddHeader s.obj id arg).2 }
  | .add (.content arg) => do
    touch s.self
    if s.obj.TakesContent arg then
      if arg.content ≠ [] then touch s.into
      pure { s with obj := (httpObjectAddContent s.obj arg).2, contentIn := s.into }
    else pure s
  | .reset => do
    touch s.self
    if 0 < s.obj.dataLen then touch s.objBuf
    touch s.bits
    pure { s with obj := (httpObjectReset s.obj).2, contentIn := none }
  | .resetBuffer given bufSz block => httpObjectResetBufferBlocks grants s given bufSz block

/-- **The condition on a call**: there is a buffer when something is written to it, and content goes
on in the buffer of the moment. -/
def HttpCells.Ok (s : HttpCells) : HttpOp → Prop
  | .add (.header id arg) => s.obj.TakesHeader id arg → s.objBuf ≠ none
  | .add (.content arg) =>
    s.obj.TakesContent arg → arg.content ≠ [] → s.objBuf ≠ none ∧ s.into = s.objBuf
  | .reset => 0 < s.obj.dataLen → s.objBuf ≠ none
  | .resetBuffer _ _ _ => True

/-- A call on an object in memory. -/
def httpCellsStep (grants : ℕ → Bool) (c : HttpCells × Heap) (op : HttpOp) :
    Option (HttpCells × Heap) := c.1.op grants op c.2

def HttpCells.ptrs (s : HttpCells) : List Ptr := [s.self, s.objBuf, s.bits]

/-- An object in memory: the live blocks are its own, and `content` points to a block that is its
buffer or dead. -/
structure HttpCells.InMemory (s : HttpCells) (h : Heap) : Prop where
  ok : h.Ok
  live : h.live = blocksOf s.ptrs
  self : s.self ≠ none
  bits : s.bits ≠ none
  content : ∀ b, s.contentIn = some b → b < h.next ∧ (b ∈ h.live → s.objBuf = some b)

variable {grants : ℕ → Bool} {s s' : HttpCells} {h h' : Heap}

/-! ### One call -/

namespace HttpCells.InMemory

theorem self_live (hs : s.InMemory h) : ∃ b, s.self = some b ∧ b ∈ h.live := by
  obtain ⟨b, hb⟩ := Option.ne_none_iff_exists'.1 hs.self
  exact ⟨b, hb, by rw [hs.live]; simp [ptrs, hb]⟩

theorem bits_live (hs : s.InMemory h) : ∃ b, s.bits = some b ∧ b ∈ h.live := by
  obtain ⟨b, hb⟩ := Option.ne_none_iff_exists'.1 hs.bits
  exact ⟨b, hb, by rw [hs.live]; simp [ptrs, hb]⟩

theorem touch_self (hs : s.InMemory h) : touch s.self h = some ((), h) := by
  obtain ⟨b, hb, hmem⟩ := hs.self_live
  rw [hb, touch_live hmem]

theorem touch_bits (hs : s.InMemory h) : touch s.bits h = some ((), h) := by
  obtain ⟨b, hb, hmem⟩ := hs.bits_live
  rw [hb, touch_live hmem]

/-- The buffer can be written to when there is one. -/
theorem touch_objBuf (hs : s.InMemory h) :
    touch s.objBuf h = if s.objBuf = none then none else some ((), h) := by
  cases hbuf : s.objBuf with
  | none => rfl
  | some b =>
    rw [if_neg nofun, touch_live]
    rw [hs.live]
    simp [ptrs, hbuf]

/-- Content goes on in the buffer of the moment only. -/
theorem touch_contentIn (hs : s.InMemory h) :
    touch s.contentIn h =
      if s.objBuf ≠ none ∧ s.contentIn = s.objBuf then some ((), h) else none := by
  cases hin : s.contentIn with
  | none =>
    rw [if_neg fun hand => hand.1 hand.2.symm]
    rfl
  | some b =>
    by_cases hmem : b ∈ h.live
    · have hbuf := (hs.content b hin).2 hmem
      rw [touch_live hmem, if_pos ⟨by rw [hbuf]; nofun, hbuf.symm⟩]
    · rw [touch_dead hmem, if_neg]
      rintro ⟨-, hsame⟩
      refine hmem ?_
      rw [hs.live]
      simp [ptrs, ← hsame]

/-- A call after which the blocks are the same. -/
theorem goes (hs : s.InMemory h) (hptrs : s'.ptrs = s.ptrs)
    (hin : s'.contentIn = s.contentIn ∨ s'.contentIn = s.objBuf ∨ s'.contentIn = none) :
    s'.InMemory h := by
  obtain ⟨hself, hbuf, hbits⟩ : s'.self = s.self ∧ s'.objBuf = s.objBuf ∧ s'.bits = s.bits := by
    simpa [ptrs] using hptrs
  refine ⟨hs.ok, by rw [hptrs]; exact hs.live, by rw [hself]; exact hs.self,
    by rw [hbits]; exact hs.bits, fun b hb => ?_⟩
  rw [hbuf]
  rcases hin with hin | hin | hin
  · exact hs.content b (hin ▸ hb)
  · rw [hin] at hb
    refine ⟨hs.ok.lt b ?_, fun _ => hb⟩
    rw [hs.live]
    simp [ptrs, hb]
  · rw [hin] at hb
    cases hb

end HttpCells.InMemory

/-- A header is added when there is a buffer for it. -/
theorem op_header (hs : s.InMemory h) {id : ℕ} {arg : HeaderArg} :
    s.op grants (.add (.header id arg)) h =
      if s.obj.TakesHeader id arg ∧ s.objBuf = none then none
      else some ({ s with obj := (httpObjectAddHeader s.obj id arg).2 }, h) := by
  simp only [HttpCells.op, bind_apply, hs.touch_self, Option.bind_some]
  by_cases htakes : s.obj.TakesHeader id arg
  · have hid : id < httpHdrNum := htakes.1
    rw [if_pos hid, if_pos htakes, bind_apply, hs.touch_bits, Option.bind_some, bind_apply,
      hs.touch_objBuf]
    by_cases hbuf : s.objBuf = none
    · rw [if_pos hbuf, if_pos ⟨htakes, hbuf⟩, Option.bind_none]
    · rw [if_neg hbuf, if_neg (not_and_of_not_right _ hbuf), Option.bind_some, pure_apply]
  · rw [if_neg htakes, if_neg (not_and_of_not_left _ htakes)]
    by_cases hid : id < httpHdrNum
    · rw [if_pos hid, bind_apply, hs.touch_bits, Option.bind_some, pure_apply]
    · rw [if_neg hid, pure_apply]

theorem touch_into (hs : s.InMemory h) :
    touch s.into h = if s.objBuf ≠ none ∧ s.into = s.objBuf then some ((), h) else none := by
  by_cases hlen : s.obj.contentLen = 0
  · have hinto : s.into = s.objBuf := if_pos hlen
    rw [hinto, hs.touch_objBuf]
    by_cases hbuf : s.objBuf = none <;> simp [hbuf]
  · have hinto : s.into = s.contentIn := if_neg hlen
    rw [hinto, hs.touch_contentIn]

/-- Content is added when it goes to the buffer of the moment. -/
theorem op_content (hs : s.InMemory h) {arg : ContentArg} (htakes : s.obj.TakesContent arg) :
    s.op grants (.add (.content arg)) h =
      if arg.content ≠ [] ∧ ¬ (s.objBuf ≠ none ∧ s.into = s.objBuf) then none
      else some ({ s with obj := (httpObjectAddContent s.obj arg).2, contentIn := s.into }, h) := by
  simp only [HttpCells.op, bind_apply, hs.touch_self, Option.bind_some, if_pos htakes]
  by_cases hnil : arg.content ≠ []
  · rw [if_pos hnil, bind_apply, touch_into hs]
    by_cases hbuf : s.objBuf ≠ none ∧ s.into = s.objBuf
    · rw [if_pos hbuf, if_neg (not_and_of_not_right _ (not_not.2 hbuf)), Option.bind_some,
        pure_apply]
    · rw [if_neg hbuf, if_pos ⟨hnil, hbuf⟩, Option.bind_none]
  · rw [if_neg hnil, if_neg (not_and_of_not_left _ hnil), pure_apply]

/-- A message is wiped when there is a buffer that it stands in. -/
theorem op_reset (hs : s.InMemory h) :
    s.op grants .reset h =
      if 0 < s.obj.dataLen ∧ s.objBuf = none then none
      else some ({ s with obj := (httpObjectReset s.obj).2, contentIn := none }, h) := by
  simp only [HttpCells.op, bind_apply, hs.touch_self, Option.bind_some]
  by_cases hlen : 0 < s.obj.dataLen
  · rw [if_pos hlen, bind_apply, hs.touch_objBuf]
    by_cases hbuf : s.objBuf = none
    · rw [if_pos hbuf, if_pos ⟨hlen, hbuf⟩, Option.bind_none]
    · rw [if_neg hbuf, if_neg (not_and_of_not_right _ hbuf), Option.bind_some, bind_apply,
        hs.touch_bits, Option.bind_some, pure_apply]
  · rw [if_neg hlen, if_neg (not_and_of_not_left _ hlen), bind_apply, hs.touch_bits,
      Option.bind_some, pure_apply]

theorem spec_callerBuffer {own : Multiset ℕ} (given : Option (ℤ → UInt8)) :
    Spec own (callerBuffer grants given) fun ext own' => own' = blocks ext + own := by
  unfold callerBuffer
  split_ifs
  · exact Spec.pure (by simp)
  · exact spec_malloc grants

/-- A change of the buffer goes right, and the object has its own blocks and maybe another buffer. -/
theorem spec_resetBuffer (hself : s.self ≠ none) (given : Option (ℤ → UInt8)) (bufSz : UInt32)
    (block : ℤ → UInt8) :
    Spec (blocksOf s.ptrs) (s.op grants (.resetBuffer given bufSz block)) fun s' own' =>
      own' = blocksOf s'.ptrs ∧ s'.self = s.self ∧ s'.bits = s.bits ∧
        s'.contentIn = s.contentIn := by
  obtain ⟨b, hb⟩ := Option.ne_none_iff_exists'.1 hself
  have hptrs : ∀ ext, blocks ext + blocksOf s.ptrs =
      blocks s.objBuf + (blocks ext + (blocks s.self + blocks s.bits)) := fun ext => by
    simp only [HttpCells.ptrs, blocksOf_cons, blocksOf_nil]
    abel
  refine (spec_callerBuffer given).bind fun ext own₁ h => ?_
  subst h
  refine (spec_touch hb (by simp [HttpCells.ptrs, hb])).bind fun _ own₂ h => ?_
  subst h
  by_cases hzero : bufSz = 0
  · rw [if_pos hzero]
    exact (spec_free ext).bind fun _ own₃ h => Spec.pure ⟨h, rfl, rfl, rfl⟩
  rw [if_neg hzero, hptrs]
  refine (spec_free s.objBuf).bind fun _ own₃ h => ?_
  subst h
  by_cases hnull : ext = none
  · rw [if_pos hnull, hnull, blocks_none, zero_add]
    refine (spec_malloc grants).bind fun objBuf own₄ h => ?_
    subst h
    split_ifs with hbuf
    · exact Spec.pure ⟨by simp [HttpCells.ptrs, hbuf], rfl, rfl, rfl⟩
    · refine Spec.pure ⟨?_, rfl, rfl, rfl⟩
      simp only [HttpCells.ptrs, blocksOf_cons, blocksOf_nil]
      abel
  · rw [if_neg hnull]
    refine Spec.pure ⟨?_, rfl, rfl, rfl⟩
    simp only [HttpCells.ptrs, blocksOf_cons, blocksOf_nil]
    abel

/-- What is behind a change of the buffer: `content` points to a block that is the buffer or dead, as
a new buffer has a new number. -/
theorem HttpCells.InMemory.resetBuffer (grants : ℕ → Bool) (hs : s.InMemory h)
    (given : Option (ℤ → UInt8)) (bufSz : UInt32) (block : ℤ → UInt8) :
    ∃ s' h', s.op grants (.resetBuffer given bufSz block) h = some (s', h') ∧ s'.InMemory h' := by
  obtain ⟨s', own', h', hrun, hlater, hlive, rfl, hself, hbits, hin⟩ :=
    spec_resetBuffer hs.self given bufSz block 0 h hs.ok (by rw [hs.live, add_zero])
  rw [add_zero] at hlive
  refine ⟨s', h', hrun, hlater.ok, hlive, by rw [hself]; exact hs.self,
    by rw [hbits]; exact hs.bits, fun b hb => ?_⟩
  rw [hin] at hb
  obtain ⟨hlt, hbuf⟩ := hs.content b hb
  refine ⟨hlt.trans_le hlater.next_le, fun hmem => ?_⟩
  have hold := (hlater.old_or_new b hmem).resolve_right (not_le.2 hlt)
  have hobjBuf := hbuf hold
  obtain ⟨b₁, hb₁⟩ := Option.ne_none_iff_exists'.1 hs.self
  obtain ⟨b₂, hb₂⟩ := Option.ne_none_iff_exists'.1 hs.bits
  -- the block was the buffer, so that it is not one of the other two
  have hnodup := hs.ok.nodup
  rw [hs.live] at hnodup
  rw [hlive] at hmem
  simp only [HttpCells.ptrs, blocksOf_cons, blocksOf_nil, hobjBuf, hb₁, hb₂, blocks_some,
    add_zero, Multiset.singleton_add, Multiset.nodup_cons, Multiset.mem_cons,
    Multiset.mem_singleton, not_or] at hnodup
  simp only [HttpCells.ptrs, blocksOf_cons, blocksOf_nil, hself, hbits, hb₁, hb₂, blocks_some,
    add_zero, Multiset.mem_add, Multiset.mem_singleton] at hmem
  rcases hmem with rfl | hmem | rfl
  · exact absurd rfl hnodup.1.1
  · cases hnew : s'.objBuf with
    | none =>
      rw [hnew] at hmem
      simp at hmem
    | some c =>
      rw [hnew, blocks_some, Multiset.mem_singleton] at hmem
      rw [hmem]
  · exact absurd rfl hnodup.2.1

/-! ### Runs -/

/-- **One call** goes right exactly when it is as it should be. -/
theorem httpCells_op (hs : s.InMemory h) (op : HttpOp) :
    ((s.op grants op h).isSome ↔ s.Ok op) ∧
      ∀ s' h', s.op grants op h = some (s', h') → s'.InMemory h' := by
  cases op with
  | add c =>
    cases c with
    | header id arg =>
      rw [op_header hs, HttpCells.Ok]
      split_ifs with hno
      · exact ⟨iff_of_false nofun fun hok => hok hno.1 hno.2, nofun⟩
      · refine ⟨iff_of_true rfl fun htakes hbuf => hno ⟨htakes, hbuf⟩, fun s' h' hrun => ?_⟩
        cases hrun
        exact hs.goes rfl (.inl rfl)
    | content arg =>
      rw [HttpCells.Ok]
      by_cases htakes : s.obj.TakesContent arg
      · rw [op_content hs htakes]
        split_ifs with hno
        · exact ⟨iff_of_false nofun fun hok => hno.2 (hok htakes hno.1), nofun⟩
        · refine ⟨iff_of_true rfl fun _ hne => not_not.1 fun hnot => hno ⟨hne, hnot⟩,
            fun s' h' hrun => ?_⟩
          cases hrun
          refine hs.goes rfl ?_
          change s.into = s.contentIn ∨ s.into = s.objBuf ∨ s.into = none
          unfold HttpCells.into
          split_ifs
          · exact .inr (.inl rfl)
          · exact .inl rfl
      · have hop : s.op grants (.add (.content arg)) h = some (s, h) := by
          simp only [HttpCells.op, bind_apply, hs.touch_self, Option.bind_some, if_neg htakes,
            pure_apply]
        rw [hop]
        refine ⟨iff_of_true rfl fun hyes => absurd hyes htakes, fun s' h' hrun => ?_⟩
        cases hrun
        exact hs
  | reset =>
    rw [op_reset hs, HttpCells.Ok]
    split_ifs with hno
    · exact ⟨iff_of_false nofun fun hok => hok hno.1 hno.2, nofun⟩
    · refine ⟨iff_of_true rfl fun hlen hbuf => hno ⟨hlen, hbuf⟩, fun s' h' hrun => ?_⟩
      cases hrun
      exact hs.goes rfl (.inr (.inr rfl))
  | resetBuffer given bufSz block =>
    obtain ⟨s₁, h₁, hrun, hs₁⟩ := hs.resetBuffer grants given bufSz block
    rw [hrun]
    refine ⟨iff_of_true rfl trivial, fun s' h' hsome => ?_⟩
    cases hsome
    exact hs₁

/-- A new object has its blocks; a refused one leaves the buffer of the caller alone or frees it. -/
theorem spec_httpObjectCreateBlocks (ext : Ptr) (given : ℤ → UInt8) (bufSz : ℕ) :
    Spec (blocks ext) (httpObjectCreateBlocks grants ext given bufSz) fun r own' =>
      (r = none → own' = blocks ext ∨ own' = 0) ∧ ∀ s, r = some s →
        own' = blocksOf s.ptrs ∧ s.self ≠ none ∧ s.bits ≠ none ∧ s.contentIn = none := by
  refine (spec_malloc grants).bind fun self own₁ h => ?_
  subst h
  by_cases hself : self = none
  · rw [if_pos hself]
    exact Spec.pure ⟨fun _ => .inl (by simp [hself]), nofun⟩
  rw [if_neg hself]
  cases httpObjectCreate (ext.map fun _ => given) bufSz with
  | none =>
    exact (spec_free self).bind fun _ own₂ h => Spec.pure ⟨fun _ => .inl h, nofun⟩
  | some obj =>
    have hbuf : Spec (blocks self + blocks ext) (newBuffer grants ext) fun objBuf own' =>
        own' = blocks objBuf + blocks self ∧ (objBuf = none → ext = none) := by
      unfold newBuffer
      split_ifs with hext
      · exact (spec_malloc grants).mono fun p own' h => ⟨by simp [h, hext], fun _ => hext⟩
      · exact Spec.pure ⟨add_comm _ _, id⟩
    refine hbuf.bind fun objBuf own₂ h => ?_
    obtain ⟨rfl, hnull⟩ := h
    by_cases hnone : objBuf = none
    · rw [if_pos hnone, hnone, blocks_none, zero_add, ← add_zero (blocks self)]
      exact (spec_free self).bind fun _ own₃ h => Spec.pure ⟨fun _ => .inr h, nofun⟩
    rw [if_neg hnone]
    refine (spec_malloc grants).bind fun bits own₃ h => ?_
    subst h
    by_cases hbits : bits = none
    · rw [if_pos hbits, hbits, blocks_none, zero_add]
      refine (spec_free objBuf).bind fun _ own₄ h => ?_
      rw [h, ← add_zero (blocks self)]
      exact (spec_free self).bind fun _ own₅ h => Spec.pure ⟨fun _ => .inr h, nofun⟩
    · rw [if_neg hbits]
      refine Spec.pure ⟨nofun, ?_⟩
      rintro _ ⟨⟩
      refine ⟨?_, hself, hbits, rfl⟩
      simp only [HttpCells.ptrs, blocksOf_cons, blocksOf_nil]
      abel

theorem spec_httpObjectDestroy (hself : s.self ≠ none) :
    Spec (blocksOf s.ptrs) (httpObjectDestroy s) fun _ own' => own' = 0 := by
  obtain ⟨b, hb⟩ := Option.ne_none_iff_exists'.1 hself
  have hptrs : blocksOf s.ptrs = blocks s.objBuf + (blocks s.bits + (blocks s.self + 0)) := by
    simp only [HttpCells.ptrs, blocksOf_cons, blocksOf_nil]
    abel
  rw [httpObjectDestroy, if_neg hself]
  refine (spec_touch hb (by simp [HttpCells.ptrs, hb])).bind fun _ own₁ h => ?_
  rw [h, hptrs]
  refine (spec_free s.objBuf).bind fun _ own₂ h => ?_
  rw [h]
  refine (spec_free s.bits).bind fun _ own₃ h => ?_
  rw [h]
  exact spec_free s.self

/-- An object of a caller that gives a buffer or none. -/
def httpObjectNew (grants : ℕ → Bool) (given : Option (ℤ → UInt8)) (bufSz : UInt32) :
    Prog (Option HttpCells) := do
  let ext ← callerBuffer grants given
  httpObjectCreateBlocks grants ext (given.getD fun _ => 0) bufSz.toNat

theorem httpObjectNew_inMemory {given : Option (ℤ → UInt8)} {bufSz : UInt32}
    (hnew : httpObjectNew grants given bufSz .empty = some (some s, h)) : s.InMemory h := by
  have hspec : Spec 0 (httpObjectNew grants given bufSz) fun r own' => ∀ s, r = some s →
      own' = blocksOf s.ptrs ∧ s.self ≠ none ∧ s.bits ≠ none ∧ s.contentIn = none := by
    refine (spec_callerBuffer given).bind fun ext own₁ h => ?_
    rw [h, add_zero]
    exact (spec_httpObjectCreateBlocks ext _ _).mono fun r own' h => h.2
  obtain ⟨r, own', h', hrun, hlater, hlive, hpost⟩ := hspec 0 .empty Heap.ok_empty rfl
  rw [hnew] at hrun
  cases hrun
  obtain ⟨rfl, hself, hbits, hin⟩ := hpost s rfl
  rw [add_zero] at hlive
  refine ⟨hlater.ok, hlive, hself, hbits, fun b hb => ?_⟩
  rw [hin] at hb
  cases hb

/-- **The memory of an object** in every sequence of calls, whichever requests for memory fail: no
block is used behind its end exactly when each call is as it should be; and then nothing is left
behind the object, and no block is freed twice. -/
theorem http_memory_iff (grants : ℕ → Bool) (given : Option (ℤ → UInt8)) (bufSz : UInt32)
    (s : HttpCells) (h : Heap) (hnew : httpObjectNew grants given bufSz .empty = some (some s, h))
    (ops : List HttpOp) :
    ((Lts.run (httpCellsStep grants) (s, h) ops).isSome ↔
        Lts.Meets (httpCellsStep grants) (fun c op => c.1.Ok op) (s, h) ops) ∧
      ∀ s' h', Lts.run (httpCellsStep grants) (s, h) ops = some (s', h') →
        ∃ h'', httpObjectDestroy s' h' = some ((), h'') ∧ h''.live = 0 := by
  have hs := httpObjectNew_inMemory hnew
  have hgood : ∀ c op c', c.1.InMemory c.2 → httpCellsStep grants c op = some c' →
      c'.1.InMemory c'.2 := fun c op c' hc hstep => (httpCells_op hc op).2 c'.1 c'.2 hstep
  have hok : ∀ c op, c.1.InMemory c.2 →
      ((httpCellsStep grants c op).isSome ↔ c.1.Ok op) := fun c op hc => (httpCells_op hc op).1
  refine ⟨Lts.isSome_run_iff hok hgood hs ops, fun s' h' hrun => ?_⟩
  have hs' : s'.InMemory h' :=
    Lts.run_invariant (I := fun c : HttpCells × Heap => c.1.InMemory c.2)
      (fun c op c' hc hstep => hgood c op c' hc hstep) hs hrun
  obtain ⟨_, own', h'', hdestroy, -, hlive, rfl⟩ :=
    spec_httpObjectDestroy hs'.self 0 h' hs'.ok (by rw [hs'.live, add_zero])
  exact ⟨h'', hdestroy, hlive⟩

/-- The buffer is to grow, and there is no memory for it. -/
def lostBuffer : List HttpOp := [.resetBuffer none 4096 (fun _ => 0), .reset]

theorem http_memory_iff_lostBuffer : ∃ s h,
    httpObjectNew (fun b => b ≠ 3) none 0 .empty = some (some s, h) ∧
      (((Lts.run (httpCellsStep fun b => b ≠ 3) (s, h) lostBuffer).isSome ↔
          Lts.Meets (httpCellsStep fun b => b ≠ 3) (fun c op => c.1.Ok op) (s, h) lostBuffer) ∧
        ∀ s' h', Lts.run (httpCellsStep fun b => b ≠ 3) (s, h) lostBuffer = some (s', h') →
          ∃ h'', httpObjectDestroy s' h' = some ((), h'') ∧ h''.live = 0) :=
  ⟨_, _, rfl, http_memory_iff _ none 0 _ _ rfl lostBuffer⟩

end F1Goal
