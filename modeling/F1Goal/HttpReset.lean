import F1Goal.HttpContent

/-!
# Using an object again (`f1g_http.c`, `f1g_bit_array.c`)

An object is emptied by `http_object_reset` and given another buffer by `http_object_reset_buffer`.
The second one looks at neither `data_len` nor `content`: the message may be longer than the new
buffer, and content goes on where the old buffer was. `RoomOk` is the condition on a call that
keeps all writes inside of the buffer, `ops_fit` says that it does in every run, and
`httpObject_frame` that `stores` lists all that a call writes.
-/

namespace F1Goal

open CString

/-! ### The calls -/

/-- `bit_array_reset` -/
def bitArrayReset (obj : BitArray) : BitArray :=
  let bytes := if obj.bitsNum % 8 ≠ 0 then obj.bitsNum / 8 + 1 else obj.bitsNum / 8
  { obj with bits := fun i => if i < bytes then 0 else obj.bits i }

/-- `http_object_reset_buffer`; `block` is what `malloc` returns. -/
def httpObjectResetBuffer (obj : HttpObject) (objBuf : Option (ℤ → UInt8)) (bufSz : UInt32)
    (block : ℤ → UInt8) : Code × HttpObject :=
  match objBuf with
  | some objBuf =>
    if 0 < bufSz then (.ok, { obj with objBuf := objBuf, bufSz := bufSz.toNat }) else (.ok, obj)
  | none =>
    if 0 < bufSz then (.ok, { obj with objBuf := block, bufSz := bufSz.toNat }) else (.ok, obj)

/-- `http_object_reset` -/
def httpObjectReset (obj : HttpObject) : Code × HttpObject :=
  (.ok, { obj with
    objBuf := Mem.store obj.objBuf 0 (List.replicate obj.dataLen 0), dataLen := 0
    hdrSet := fun _ => none, hdrLenSet := fun _ => 0, content := none, contentLen := 0
    status := bitArrayReset obj.status })

/-- A call on an object. -/
inductive HttpOp
  | add (c : HttpCall)
  | reset
  | resetBuffer (objBuf : Option (ℤ → UInt8)) (bufSz : UInt32) (block : ℤ → UInt8)

/-- What the call returns, and the object after it. -/
def HttpObject.op (obj : HttpObject) : HttpOp → Code × HttpObject
  | .add c => obj.call c
  | .reset => httpObjectReset obj
  | .resetBuffer objBuf bufSz block => httpObjectResetBuffer obj objBuf bufSz block

/-! ### What a call writes -/

/-- Bytes written: how many, from which offset, and whether in a buffer that has been freed. -/
structure HttpStore where
  old : Bool
  off : ℕ
  len : ℕ
  deriving DecidableEq, Repr

/-- All bytes are inside of a buffer of this size. -/
def HttpStore.Inside (size : ℕ) (st : HttpStore) : Prop :=
  st.len = 0 ∨ st.old = false ∧ st.off + st.len ≤ size

instance (size : ℕ) (st : HttpStore) : Decidable (st.Inside size) :=
  inferInstanceAs (Decidable (_ ∨ _ ∧ _))

/-- The byte at `i` is one of those written. -/
def HttpStore.Covers (st : HttpStore) (i : ℤ) : Prop := st.off ≤ i ∧ i < st.off + st.len

/-- What `put` writes. -/
def HttpObject.putStore (obj : HttpObject) (bs : List UInt8) : HttpStore :=
  { old := false, off := obj.dataLen, len := bs.length }

/-- What `http_object_add_header` writes when it takes the header. -/
def HttpObject.headerStores (obj : HttpObject) (id : ℕ) (arg : HeaderArg) : List HttpStore :=
  match getHttpHeaderInfo id with
  | none => []
  | some info =>
    let named := if 0 < info.headerSize then obj.put (info.header.take info.headerSize) else obj
    [obj.putStore (info.header.take info.headerSize), named.putStore arg.header,
      (named.put arg.header).putStore crlf]

/-- What `http_object_add_content` writes when it takes the content: the first content stands at the
end of the message, and content after it where `content` points, `old` telling whether that is in a
buffer that has been freed. -/
def HttpObject.contentStore (obj : HttpObject) (old : Bool) (arg : ContentArg) : HttpStore :=
  if obj.contentLen = 0 then { old := false, off := obj.dataLen, len := arg.content.length }
  else { old := old, off := obj.content.getD 0 + obj.contentLen, len := arg.content.length }

/-- What a call writes or clears. -/
def HttpObject.stores (obj : HttpObject) (old : Bool) : HttpOp → List HttpStore
  | .add (.header id arg) => if obj.TakesHeader id arg then obj.headerStores id arg else []
  | .add (.content arg) => if obj.TakesContent arg then [obj.contentStore old arg] else []
  | .reset => [{ old := false, off := 0, len := obj.dataLen }]
  | .resetBuffer _ _ _ => []

/-! ### Runs -/

/-- An object in use. -/
structure HttpSys where
  obj : HttpObject
  /-- `content`, where it is not `NULL`, points into a buffer that has been freed. -/
  contentOld : Bool
  /-- A byte has been written outside of the buffer of the moment. -/
  outside : Bool
  /-- The headers taken since the last `http_object_reset`. -/
  added : List ℕ

/-- The state behind `http_object_create`. -/
def HttpSys.start (obj : HttpObject) : HttpSys :=
  { obj := obj, contentOld := false, outside := false, added := [] }

/-- Whether `content` points into a buffer that is gone, after the call. -/
def HttpSys.contentOldAfter (s : HttpSys) : HttpOp → Bool
  | .add (.header _ _) => s.contentOld
  | .add (.content arg) =>
    if s.obj.TakesContent arg ∧ s.obj.contentLen = 0 then false else s.contentOld
  | .reset => false
  | .resetBuffer _ bufSz _ => if 0 < bufSz then true else s.contentOld

/-- The headers taken since the last reset, after the call. -/
def HttpSys.addedAfter (s : HttpSys) : HttpOp → List ℕ
  | .add (.header id arg) => if s.obj.TakesHeader id arg then id :: s.added else s.added
  | .add (.content _) => s.added
  | .reset => []
  | .resetBuffer _ _ _ => s.added

/-- One more call. -/
def opStep (s : HttpSys) (op : HttpOp) : Option HttpSys :=
  some
    { obj := (s.obj.op op).2
      contentOld := s.contentOldAfter op
      outside := s.outside || (s.obj.stores s.contentOld op).any fun st => !st.Inside s.obj.bufSz
      added := s.addedAfter op }

/-- **The message is within the buffer**, and no byte has been written outside of it. -/
def HttpSys.Safe (s : HttpSys) : Prop := s.obj.dataLen ≤ s.obj.bufSz ∧ s.outside = false

instance (s : HttpSys) : Decidable s.Safe := inferInstanceAs (Decidable (_ ∧ _))

/-- **The condition on a call**: the length of the message with the piece is a `u32_t`, no content
goes on with content from before a change of the buffer, and a new buffer holds the message. -/
def RoomOk (s : HttpSys) : HttpOp → Prop
  | .add (.header id arg) =>
    s.obj.TakesHeader id arg → s.obj.dataLen + (headerText id arg.header).length < 2 ^ 32
  | .add (.content arg) =>
    s.obj.TakesContent arg → s.obj.dataLen + arg.content.length < 2 ^ 32 ∧
      (arg.content = [] ∨ s.obj.contentLen = 0 ∨ s.contentOld = false)
  | .reset => True
  | .resetBuffer _ bufSz _ => bufSz = 0 ∨ s.obj.dataLen ≤ bufSz.toNat

instance (s : HttpSys) : ∀ op, Decidable (RoomOk s op)
  | .add (.header id arg) => inferInstanceAs (Decidable (s.obj.TakesHeader id arg → _))
  | .add (.content arg) => inferInstanceAs (Decidable (s.obj.TakesContent arg → _))
  | .reset => .isTrue trivial
  | .resetBuffer _ bufSz _ => inferInstanceAs (Decidable (bufSz = 0 ∨ _))

/-! ### One call -/

theorem HttpStore.frame (st : HttpStore) {m : ℤ → UInt8} {bs : List UInt8} {i : ℤ}
    (hlen : st.len = bs.length) (h : ¬ st.Covers i) : Mem.store m st.off bs i = m i := by
  by_cases hlt : i < st.off
  · exact Mem.store_of_lt hlt
  · refine Mem.store_of_le ?_
    by_contra hin
    exact h ⟨by omega, by omega⟩

theorem HttpObject.put_frame {obj : HttpObject} {bs : List UInt8} {i : ℤ}
    (h : ¬ (obj.putStore bs).Covers i) : (obj.put bs).objBuf i = obj.objBuf i :=
  (obj.putStore bs).frame rfl h

/-- A header that does not pass the tests is refused. -/
theorem httpObjectAddHeader_of_not {obj : HttpObject} {id : ℕ} {arg : HeaderArg}
    (h : ¬ obj.TakesHeader id arg) : httpObjectAddHeader obj id arg = (.err, obj) := by
  cases hcall : httpObjectAddHeader obj id arg with
  | mk code obj' =>
    cases code with
    | ok => exact absurd (takesHeader_of_ok hcall) h
    | err => rw [HttpObject.call_err (c := .header id arg) hcall]

/-- What a header that passes the tests does to the object. -/
theorem httpObjectAddHeader_of_takes {obj : HttpObject} {id : ℕ} {arg : HeaderArg}
    (h : obj.TakesHeader id arg) :
    ∃ info named, getHttpHeaderInfo id = some info ∧
      named = (if 0 < info.headerSize then obj.put (info.header.take info.headerSize) else obj) ∧
      httpObjectAddHeader obj id arg = (.ok,
        { (named.put arg.header).put crlf with
          hdrSet := Function.update named.hdrSet id (some named.dataLen)
          hdrLenSet := Function.update named.hdrLenSet id ((arg.header.length : ℤ).bmod (2 ^ 16))
          status := bitArraySetBit obj.status id }) := by
  obtain ⟨hid, hbit, info, hinfo, hfit⟩ := h
  refine ⟨info, _, hinfo, rfl, ?_⟩
  rw [httpObjectAddHeader, if_neg (Nat.not_le.2 hid), if_neg hbit, hinfo]
  simp only []
  rw [if_neg (Nat.not_le.2 hfit)]
  split_ifs <;> rfl

theorem httpObjectAddContent_of_not {obj : HttpObject} {arg : ContentArg}
    (h : ¬ obj.TakesContent arg) : httpObjectAddContent obj arg = (.err, obj) :=
  if_pos (Nat.lt_of_not_le h)

/-- What content that passes the test does to the object. -/
theorem httpObjectAddContent_of_takes {obj : HttpObject} {arg : ContentArg}
    (h : obj.TakesContent arg) (old : Bool) :
    httpObjectAddContent obj arg = (.ok, { obj with
      content := if obj.contentLen = 0 then some obj.dataLen else obj.content
      objBuf := Mem.store obj.objBuf (obj.contentStore old arg).off arg.content
      contentLen := u32 (obj.contentLen + arg.content.length)
      dataLen := u32 (obj.dataLen + arg.content.length) }) := by
  rw [httpObjectAddContent, if_neg (Nat.not_lt.2 h), HttpObject.contentStore]
  split_ifs with hzero
  · simp [hzero]
  · rfl

theorem HttpObject.contentStore_len (obj : HttpObject) (old : Bool) (arg : ContentArg) :
    (obj.contentStore old arg).len = arg.content.length := by
  unfold contentStore
  split_ifs <;> rfl

/-- **`stores` lists all that a call writes**: a byte in none of them keeps its value, unless the
call brings another buffer. -/
theorem httpObject_frame {obj : HttpObject} {old : Bool} {op : HttpOp} {i : ℤ}
    (hbuf : ∀ objBuf bufSz block, op ≠ .resetBuffer objBuf bufSz block)
    (h : ∀ st ∈ obj.stores old op, ¬ st.Covers i) : (obj.op op).2.objBuf i = obj.objBuf i := by
  cases op with
  | add c =>
    cases c with
    | header id arg =>
      rw [HttpObject.op, HttpObject.call]
      by_cases htakes : obj.TakesHeader id arg
      · obtain ⟨info, named, hinfo, hnamed, hcall⟩ := httpObjectAddHeader_of_takes htakes
        rw [hcall]
        simp only [HttpObject.stores, if_pos htakes, HttpObject.headerStores, hinfo] at h
        rw [← hnamed] at h
        have hname : named.objBuf i = obj.objBuf i := by
          rw [hnamed]
          split_ifs
          · exact HttpObject.put_frame (h _ (by simp))
          · rfl
        exact ((HttpObject.put_frame (h _ (by simp))).trans
          (HttpObject.put_frame (h _ (by simp)))).trans hname
      · rw [httpObjectAddHeader_of_not htakes]
    | content arg =>
      rw [HttpObject.op, HttpObject.call]
      by_cases htakes : obj.TakesContent arg
      · rw [HttpObject.stores, if_pos htakes] at h
        rw [httpObjectAddContent_of_takes htakes old]
        exact (obj.contentStore old arg).frame (obj.contentStore_len old arg)
          (h _ (List.mem_singleton.2 rfl))
      · rw [httpObjectAddContent_of_not htakes]
  | reset =>
    exact HttpStore.frame { old := false, off := 0, len := obj.dataLen } (by simp)
      (h _ (List.mem_singleton.2 rfl))
  | resetBuffer objBuf bufSz block => exact absurd rfl (hbuf objBuf bufSz block)

/-- **A header in a message of less than 2^32 bytes** is written inside of the buffer, and the
message ends inside of it. -/
theorem httpObjectAddHeader_inside {obj : HttpObject} {id : ℕ} {arg : HeaderArg}
    (htakes : obj.TakesHeader id arg)
    (hroom : obj.dataLen + (headerText id arg.header).length < 2 ^ 32) :
    (∀ st ∈ obj.headerStores id arg, st.Inside obj.bufSz) ∧
      ∃ obj', httpObjectAddHeader obj id arg = (.ok, obj') ∧ obj.dataLen ≤ obj'.dataLen ∧
        obj'.dataLen ≤ obj'.bufSz ∧ obj'.bufSz = obj.bufSz ∧ obj'.content = obj.content ∧
          obj'.contentLen = obj.contentLen := by
  obtain ⟨info, named, hinfo, hnamed, hcall⟩ := httpObjectAddHeader_of_takes htakes
  obtain ⟨-, hlen, -, -⟩ := httpObjectAddHeader_written hcall hroom
  have hsize := (header_size hinfo).1
  have hcrlf : crlf.length = 2 := rfl
  have htext : (headerText id arg.header).length = info.headerSize + arg.header.length + 2 := by
    rw [headerText, hinfo]
    simp only [List.length_append, hsize, hcrlf]
  obtain ⟨-, -, info', hinfo', hfit⟩ := htakes
  obtain rfl : info = info' := Option.some.inj (hinfo.symm.trans hinfo')
  rw [u32, Nat.mod_eq_of_lt (by omega)] at hfit
  have hname : named.dataLen = obj.dataLen + info.headerSize ∧ named.bufSz = obj.bufSz ∧
      named.content = obj.content ∧ named.contentLen = obj.contentLen := by
    rw [hnamed]
    split_ifs with hpos
    · refine ⟨?_, rfl, rfl, rfl⟩
      rw [HttpObject.put_dataLen (by omega), hsize]
    · exact ⟨by omega, rfl, rfl, rfl⟩
  obtain ⟨hname, hbufSz, hcontent, hcontentLen⟩ := hname
  have hvalue : (named.put arg.header).dataLen = named.dataLen + arg.header.length :=
    HttpObject.put_dataLen (by omega)
  refine ⟨fun st hst => ?_, _, hcall, by omega, ?_, hbufSz, hcontent, hcontentLen⟩
  · simp only [HttpObject.headerStores, hinfo] at hst
    rw [← hnamed] at hst
    simp only [List.mem_cons, List.not_mem_nil, or_false] at hst
    right
    rcases hst with rfl | rfl | rfl <;> refine ⟨rfl, ?_⟩ <;> simp only [HttpObject.putStore]
    · omega
    · omega
    · rw [hvalue, hcrlf]
      omega
  · rw [hlen]
    exact (show _ ≤ named.bufSz by omega)

/-- Content in a message of less than 2^32 bytes, where the content before it is in the buffer of
the moment, is written inside of the buffer. -/
theorem httpObjectAddContent_inside {obj : HttpObject} {old : Bool} {arg : ContentArg}
    (htakes : obj.TakesContent arg) (hroom : obj.dataLen + arg.content.length < 2 ^ 32)
    (hplace : arg.content = [] ∨ obj.contentLen = 0 ∨ old = false)
    (hcontent : old = false → obj.contentLen ≠ 0 →
      obj.content.getD 0 + obj.contentLen ≤ obj.dataLen) :
    (obj.contentStore old arg).Inside obj.bufSz := by
  rw [HttpObject.TakesContent, u32, Nat.mod_eq_of_lt hroom] at htakes
  unfold HttpObject.contentStore
  split_ifs with hzero
  · exact .inr ⟨rfl, htakes⟩
  · rcases hplace with hnil | hzero' | hnew
    · exact .inl (by rw [hnil]; rfl)
    · exact absurd hzero' hzero
    · have := hcontent hnew hzero
      exact .inr ⟨hnew, by simp only []; omega⟩

/-! ### Runs within the buffer -/

/-- **The invariant of a run**: besides safety, the size of the buffer is a `u32_t`, and content
that is not from before a change of the buffer ends within the message. -/
structure HttpSys.Fits (s : HttpSys) : Prop where
  safe : s.Safe
  size : s.obj.bufSz < 2 ^ 32
  content : s.contentOld = false → s.obj.contentLen ≠ 0 →
    s.obj.content.getD 0 + s.obj.contentLen ≤ s.obj.dataLen

/-- Where all bytes of a call are inside of the buffer, none is outside after it. -/
theorem outside_after {s : HttpSys} {op : HttpOp} (hs : s.outside = false)
    (hin : ∀ st ∈ s.obj.stores s.contentOld op, st.Inside s.obj.bufSz) :
    (s.outside || (s.obj.stores s.contentOld op).any
      fun st => !decide (st.Inside s.obj.bufSz)) = false := by
  rw [hs, Bool.false_or, List.any_eq_false]
  intro st hst
  simp [hin st hst]

/-- A call that writes nothing and leaves the object as it is. -/
theorem fits_of_unchanged {s t : HttpSys} {op : HttpOp} (h : s.Fits) (hstep : opStep s op = some t)
    (hobj : (s.obj.op op).2 = s.obj) (hstores : s.obj.stores s.contentOld op = [])
    (hold : s.contentOldAfter op = s.contentOld) : t.Fits := by
  have ht : t = { s with added := s.addedAfter op } := by
    rw [← Option.some.inj hstep, hobj, hstores, hold]
    simp
  subst ht
  exact ⟨h.safe, h.size, h.content⟩

theorem header_fits {s t : HttpSys} {id : ℕ} {arg : HeaderArg} (h : s.Fits)
    (hok : RoomOk s (.add (.header id arg))) (hstep : opStep s (.add (.header id arg)) = some t) :
    t.Fits := by
  by_cases htakes : s.obj.TakesHeader id arg
  · obtain ⟨hin, obj', hcall, hmore, hlen, hsz, hcont, hclen⟩ :=
      httpObjectAddHeader_inside htakes (hok htakes)
    have hop : (s.obj.op (.add (.header id arg))).2 = obj' := congrArg Prod.snd hcall
    cases hstep
    refine ⟨⟨?_, outside_after h.safe.2 ?_⟩, ?_, fun hnew hne => ?_⟩
    · simpa only [hop] using hlen
    · rwa [HttpObject.stores, if_pos htakes]
    · simpa only [hop, hsz] using h.size
    · simp only [hop, hclen, hcont] at hne ⊢
      exact (h.content hnew hne).trans hmore
  · exact fits_of_unchanged h hstep (congrArg Prod.snd (httpObjectAddHeader_of_not htakes))
      (if_neg htakes) rfl

theorem content_fits {s t : HttpSys} {arg : ContentArg} (h : s.Fits)
    (hok : RoomOk s (.add (.content arg))) (hstep : opStep s (.add (.content arg)) = some t) :
    t.Fits := by
  by_cases htakes : s.obj.TakesContent arg
  · obtain ⟨hroom, hplace⟩ := hok htakes
    have hin := httpObjectAddContent_inside htakes hroom hplace h.content
    have hop : (s.obj.op (.add (.content arg))).2 = _ :=
      congrArg Prod.snd (httpObjectAddContent_of_takes htakes s.contentOld)
    cases hstep
    refine ⟨⟨?_, outside_after h.safe.2 ?_⟩, ?_, fun hnew hne => ?_⟩
    · simp only [hop]
      exact htakes
    · rw [HttpObject.stores, if_pos htakes]
      intro st hst
      rw [List.mem_singleton.1 hst]
      exact hin
    · simpa only [hop] using h.size
    · -- the content ends where it did, or starts here
      have hle := Nat.mod_le (s.obj.contentLen + arg.content.length) (2 ^ 32)
      simp only [hop, HttpSys.contentOldAfter, u32] at hnew hne ⊢
      by_cases hzero : s.obj.contentLen = 0
      · rw [if_pos hzero, Option.getD_some]
        omega
      · rw [if_neg (fun hand => hzero hand.2)] at hnew
        rw [if_neg hzero]
        have := h.content hnew hzero
        omega
  · refine fits_of_unchanged h hstep (congrArg Prod.snd (httpObjectAddContent_of_not htakes))
      (if_neg htakes) (if_neg fun hand => htakes hand.1)

/-- What a change of the buffer does to the object. -/
theorem httpObjectResetBuffer_eq (obj : HttpObject) (objBuf : Option (ℤ → UInt8)) (bufSz : UInt32)
    (block : ℤ → UInt8) :
    httpObjectResetBuffer obj objBuf bufSz block = (.ok,
      if 0 < bufSz then { obj with objBuf := objBuf.getD block, bufSz := bufSz.toNat }
      else obj) := by
  cases objBuf with
  | none => exact (apply_ite (Prod.mk Code.ok) _ _ _).symm
  | some objBuf => exact (apply_ite (Prod.mk Code.ok) _ _ _).symm

theorem resetBuffer_fits {s t : HttpSys} {objBuf : Option (ℤ → UInt8)} {bufSz : UInt32}
    {block : ℤ → UInt8} (h : s.Fits) (hok : RoomOk s (.resetBuffer objBuf bufSz block))
    (hstep : opStep s (.resetBuffer objBuf bufSz block) = some t) : t.Fits := by
  have hop : (s.obj.op (.resetBuffer objBuf bufSz block)).2 = _ :=
    congrArg Prod.snd (httpObjectResetBuffer_eq s.obj objBuf bufSz block)
  by_cases hpos : 0 < bufSz
  · have hlen : s.obj.dataLen ≤ bufSz.toNat := by
      rcases hok with hzero | hlen
      · rw [hzero] at hpos
        exact absurd hpos (by decide)
      · exact hlen
    simp only [if_pos hpos] at hop
    cases hstep
    refine ⟨⟨by simpa only [hop] using hlen, outside_after h.safe.2 ?_⟩, ?_, fun hnew _ => ?_⟩
    · exact fun _ hst => absurd hst List.not_mem_nil
    · simpa only [hop] using bufSz.toNat_lt
    · rw [HttpSys.contentOldAfter, if_pos hpos] at hnew
      cases hnew
  · exact fits_of_unchanged h hstep (hop.trans (if_neg hpos)) rfl (if_neg hpos)

theorem reset_fits {s t : HttpSys} (h : s.Fits) (hstep : opStep s .reset = some t) : t.Fits := by
  cases hstep
  refine ⟨⟨Nat.zero_le _, outside_after h.safe.2 fun st hst => ?_⟩, h.size,
    fun _ hne => absurd rfl hne⟩
  rw [List.mem_singleton.1 hst]
  exact .inr ⟨rfl, by simpa using h.safe.1⟩

/-- A call keeps a run within the buffer when it meets the condition. -/
theorem opStep_fits {s t : HttpSys} {op : HttpOp} (h : s.Fits) (hok : RoomOk s op)
    (hstep : opStep s op = some t) : t.Fits := by
  cases op with
  | add c =>
    cases c with
    | header id arg => exact header_fits h hok hstep
    | content arg => exact content_fits h hok hstep
  | reset => exact reset_fits h hstep
  | resetBuffer objBuf bufSz block => exact resetBuffer_fits h hok hstep

/-- What `http_object_create` returns is an object without a message. -/
theorem httpObjectCreate_fresh {objBuf : Option (ℤ → UInt8)} {bufSz : UInt32} {obj : HttpObject}
    (h : httpObjectCreate objBuf bufSz.toNat = some obj) :
    ∃ buf size, obj = freshObject buf size ∧ size < 2 ^ 32 := by
  have hsize := bufSz.toNat_lt
  unfold httpObjectCreate at h
  split at h
  · split_ifs at h <;> cases h
    · exact ⟨_, _, rfl, by decide⟩
    · exact ⟨_, _, rfl, hsize⟩
  · split_ifs at h
    cases h
    exact ⟨_, _, rfl, hsize⟩

/-- **An HTTP object stays within its buffer** in every run whose calls meet the condition: at each
moment `data_len` is at most `buf_sz`, and no byte has been written or cleared outside of the buffer
of its moment. -/
theorem ops_fit {objBuf : Option (ℤ → UInt8)} {bufSz : UInt32} {obj : HttpObject}
    (h : httpObjectCreate objBuf bufSz.toNat = some obj) (ops : List HttpOp)
    (hok : Lts.Guarded opStep RoomOk (HttpSys.start obj) ops) :
    Lts.SafePrefixes opStep HttpSys.Safe (HttpSys.start obj) ops := by
  obtain ⟨buf, size, rfl, hsize⟩ := httpObjectCreate_fresh h
  exact Lts.safe_prefixes_of_guarded (fun _ _ _ h hok hst => opStep_fits h hok hst)
    (fun _ h => h.safe) ⟨⟨Nat.zero_le _, rfl⟩, hsize, fun _ hne => absurd rfl hne⟩ hok

/-- A message, a larger buffer, and another message. -/
theorem ops_fit_larger :
    Lts.SafePrefixes opStep HttpSys.Safe (HttpSys.start (freshObject (fun _ => 0) 2048))
      [.add (.header 8 ⟨ascii "GET / HTTP/1.1", by decide⟩), .add (.content ⟨ascii "x", by decide⟩),
        .resetBuffer none 4096 (fun _ => 0), .reset, .add (.content ⟨ascii "y", by decide⟩)] :=
  @ops_fit none 0 _ rfl _ (by decide)

/-- **A new buffer may be smaller than the message**: three bytes stand in a buffer of one byte, and
the next reset clears two bytes behind it. -/
theorem reset_clears_behind_buffer :
    httpObjectCreate none 0 = some (freshObject (fun _ => 0) 2048) ∧
      ¬ Lts.SafePrefixes opStep HttpSys.Safe (HttpSys.start (freshObject (fun _ => 0) 2048))
        [.add (.content ⟨ascii "abc", by decide⟩), .resetBuffer none 1 (fun _ => 0)] ∧
      ∃ s, Lts.run opStep (HttpSys.start (freshObject (fun _ => 0) 2048))
          [.add (.content ⟨ascii "abc", by decide⟩), .resetBuffer none 1 (fun _ => 0), .reset] =
            some s ∧ s.outside = true := by
  refine ⟨rfl, fun hsafe => ?_, _, rfl, by decide⟩
  exact absurd (hsafe _ List.prefix_rfl _ rfl).1 (by decide)

end F1Goal
