import F1Goal.HttpBuild
import F1Goal.Lib.Lts

/-!
# Headers and content of a message

Headers are written where the message ends, content where the content ends. The two agree as long
as all content stands in one piece behind the headers before it. `CallOk` is the condition on a call
of `http_object_add_header` or `http_object_add_content` under which it appends its bytes:
`calls_inOrder` says that the message is then made of the pieces of the calls in their order, at
each moment of a run.
-/

namespace F1Goal

open CString

/-- A call that adds something to the message. -/
inductive HttpCall
  | header (id : ℕ) (arg : HeaderArg)
  | content (arg : ContentArg)

/-- What the call returns, and the object after it. -/
def HttpObject.call (obj : HttpObject) : HttpCall → Code × HttpObject
  | .header id arg => httpObjectAddHeader obj id arg
  | .content arg => httpObjectAddContent obj arg

/-- The bytes that the call is to append. -/
def HttpCall.piece : HttpCall → List UInt8
  | .header id arg => headerText id arg.header
  | .content arg => arg.content

/-- An object, and the calls so far that returned `F1G_OK`. -/
structure HttpHistory where
  obj : HttpObject
  done : List HttpCall

/-- One more call. -/
def callStep (s : HttpHistory) (c : HttpCall) : Option HttpHistory :=
  match s.obj.call c with
  | (.ok, obj) => some { obj := obj, done := s.done ++ [c] }
  | (.err, obj) => some { s with obj := obj }

/-- `hdr_set` and `hdr_len_set` denote this value. -/
def HttpObject.Denotes (obj : HttpObject) (id : ℕ) (value : List UInt8) : Prop :=
  ∃ off, obj.hdrSet id = some off ∧ obj.hdrLenSet id = value.length ∧
    off + value.length ≤ obj.dataLen ∧ Mem.slice obj.objBuf off value.length = value

/-- **The pieces stand in the message in their order**, and every header added is denoted. -/
structure InOrder (s : HttpHistory) : Prop where
  written : s.obj.written = s.done.flatMap HttpCall.piece
  denotes : ∀ id arg, .header id arg ∈ s.done → s.obj.Denotes id arg.header

/-! ### The condition -/

/-- The header passes the tests of `http_object_add_header`: the constant exists, its bit is not
seen in the status, and the line fits. -/
def HttpObject.TakesHeader (obj : HttpObject) (id : ℕ) (arg : HeaderArg) : Prop :=
  id < httpHdrNum ∧ bitArrayBitValue obj.status id ≠ 1 ∧
    ∃ info ∈ getHttpHeaderInfo id,
      u32 (obj.dataLen + arg.header.length + 2 + info.headerSize) < obj.bufSz

instance (obj : HttpObject) (id : ℕ) (arg : HeaderArg) : Decidable (obj.TakesHeader id arg) :=
  inferInstanceAs (Decidable (_ ∧ _ ∧ _))

/-- The header is new, its length is an `i16_t`, and the length of the message a `u32_t`. -/
def HttpObject.HeaderOk (obj : HttpObject) (id : ℕ) (arg : HeaderArg) : Prop :=
  obj.hdrSet id = none ∧ arg.header.length < 2 ^ 15 ∧
    obj.dataLen + (headerText id arg.header).length < 2 ^ 32

instance (obj : HttpObject) (id : ℕ) (arg : HeaderArg) : Decidable (obj.HeaderOk id arg) :=
  inferInstanceAs (Decidable (_ ∧ _ ∧ _))

/-- The content passes the test of `http_object_add_content`. -/
def HttpObject.TakesContent (obj : HttpObject) (arg : ContentArg) : Prop :=
  u32 (obj.dataLen + arg.content.length) ≤ obj.bufSz

instance (obj : HttpObject) (arg : ContentArg) : Decidable (obj.TakesContent arg) :=
  inferInstanceAs (Decidable (_ ≤ _))

/-- The content so far ends where the message does, and the length of the message is a `u32_t`. -/
def HttpObject.ContentOk (obj : HttpObject) (arg : ContentArg) : Prop :=
  (arg.content = [] ∨ obj.contentLen = 0 ∨
    obj.content.map (· + obj.contentLen) = some obj.dataLen) ∧
  obj.dataLen + arg.content.length < 2 ^ 32

instance (obj : HttpObject) (arg : ContentArg) : Decidable (obj.ContentOk arg) :=
  inferInstanceAs (Decidable (_ ∧ _))

/-- **The condition on a call** that is not refused. -/
def CallOk (s : HttpHistory) : HttpCall → Prop
  | .header id arg => s.obj.TakesHeader id arg → s.obj.HeaderOk id arg
  | .content arg => s.obj.TakesContent arg → s.obj.ContentOk arg

instance (s : HttpHistory) : ∀ c, Decidable (CallOk s c)
  | .header id arg => inferInstanceAs (Decidable (s.obj.TakesHeader id arg → _))
  | .content arg => inferInstanceAs (Decidable (s.obj.TakesContent arg → _))

/-! ### One call -/

theorem HttpObject.slice_written {obj : HttpObject} {off n : ℕ} (h : off + n ≤ obj.dataLen) :
    Mem.slice obj.objBuf off n = (obj.written.drop off).take n := by
  apply List.ext_getElem (by simp [written]; omega)
  intro i h1 h2
  simp [written]

/-- A value is still denoted when bytes are appended behind it. -/
theorem HttpObject.Denotes.append {obj obj' : HttpObject} {id : ℕ} {value piece : List UInt8}
    (h : obj.Denotes id value) (hwritten : obj'.written = obj.written ++ piece)
    (hlen : obj'.dataLen = obj.dataLen + piece.length) (hset : obj'.hdrSet id = obj.hdrSet id)
    (hlens : obj'.hdrLenSet id = obj.hdrLenSet id) : obj'.Denotes id value := by
  obtain ⟨off, hoff, hvlen, hle, hval⟩ := h
  have hwlen : obj.written.length = obj.dataLen := Mem.length_slice _ _ _
  refine ⟨off, hset.trans hoff, hlens.trans hvlen, by omega, ?_⟩
  rw [slice_written hle] at hval
  rw [slice_written (by omega), hwritten, List.drop_append_of_le_length (by omega),
    List.take_append_of_le_length (by rw [List.length_drop]; omega), hval]

/-- **A header that is taken** appends its line, is denoted, and leaves the others as they are. -/
theorem httpObjectAddHeader_denotes {obj obj' : HttpObject} {id : ℕ} {arg : HeaderArg}
    (h : httpObjectAddHeader obj id arg = (.ok, obj')) (hok : obj.HeaderOk id arg) :
    obj'.written = obj.written ++ headerText id arg.header ∧ obj'.Denotes id arg.header ∧
      ∀ id' value, obj.Denotes id' value → obj'.Denotes id' value := by
  obtain ⟨hnew, hshort, hroom⟩ := hok
  obtain ⟨hwritten, hlen, ⟨info, hinfo, hset⟩, hlens⟩ := httpObjectAddHeader_written h hroom
  have htext : headerText id arg.header =
      info.header.take info.headerSize ++ arg.header ++ crlf := by
    rw [headerText, hinfo]
  have hsize := (header_size hinfo).1
  have hcrlf : crlf.length = 2 := rfl
  have hwlen : obj.written.length = obj.dataLen := Mem.length_slice _ _ _
  refine ⟨hwritten, ⟨obj.dataLen + info.headerSize, ?_, ?_, ?_, ?_⟩, fun id' value hden => ?_⟩
  · rw [hset, Function.update_self]
  · rw [hlens, Function.update_self, Int.bmod_eq_of_le (by omega) (by omega)]
  · rw [hlen, htext, List.length_append, List.length_append, hsize]
    omega
  · rw [HttpObject.slice_written, hwritten, htext]
    · generalize info.header.take info.headerSize = start at hsize ⊢
      rw [← hwlen, ← hsize, ← List.length_append, List.append_assoc start, ← List.append_assoc,
        List.drop_left, List.take_left]
    · rw [hlen, htext, List.length_append, List.length_append, hsize]
      omega
  · have hne : id' ≠ id := by
      rintro rfl
      obtain ⟨off, hoff, -⟩ := hden
      rw [hnew] at hoff
      cases hoff
    exact hden.append hwritten hlen (by rw [hset, Function.update_of_ne hne])
      (by rw [hlens, Function.update_of_ne hne])

/-- Content that is taken is appended. -/
theorem httpObjectAddContent_written {obj obj' : HttpObject} {arg : ContentArg}
    (h : httpObjectAddContent obj arg = (.ok, obj')) (hok : obj.ContentOk arg) :
    obj'.written = obj.written ++ arg.content ∧
      obj'.dataLen = obj.dataLen + arg.content.length ∧ obj'.hdrSet = obj.hdrSet ∧
        obj'.hdrLenSet = obj.hdrLenSet := by
  obtain ⟨hplace, hroom⟩ := hok
  rw [httpObjectAddContent] at h
  split at h
  · cases h
  obtain ⟨-, rfl⟩ := Prod.mk.inj h
  refine ⟨?_, Nat.mod_eq_of_lt hroom, rfl, rfl⟩
  have happend (off : ℕ) (hoff : arg.content = [] ∨ off = obj.dataLen) :
      Mem.store obj.objBuf off arg.content = Mem.store obj.objBuf obj.dataLen arg.content := by
    rcases hoff with hnil | rfl
    · rw [hnil, Mem.store_nil, Mem.store_nil]
    · rfl
  have hput := HttpObject.put_written hroom
  rw [HttpObject.written, HttpObject.put] at hput
  rw [HttpObject.written, happend, hput]
  rcases hplace with hnil | hzero | hplace
  · exact .inl hnil
  · right
    rw [if_pos hzero, hzero]
    rfl
  · right
    split_ifs with hzero
    · rw [hzero]
      rfl
    · obtain ⟨start, hstart, hend⟩ := Option.map_eq_some_iff.1 hplace
      rw [hstart]
      exact hend

/-- **A call that is refused** changes nothing. -/
theorem HttpObject.call_err {obj obj' : HttpObject} {c : HttpCall} (h : obj.call c = (.err, obj')) :
    obj' = obj := by
  cases c with
  | header id arg =>
    simp only [call, httpObjectAddHeader] at h
    split at h
    · exact (Prod.mk.inj h).2.symm
    split at h
    · exact (Prod.mk.inj h).2.symm
    split at h
    · exact (Prod.mk.inj h).2.symm
    split at h
    · exact (Prod.mk.inj h).2.symm
    · cases h
  | content arg =>
    simp only [call, httpObjectAddContent] at h
    split at h
    · exact (Prod.mk.inj h).2.symm
    · cases h

theorem takesHeader_of_ok {obj obj' : HttpObject} {id : ℕ} {arg : HeaderArg}
    (h : httpObjectAddHeader obj id arg = (.ok, obj')) : obj.TakesHeader id arg := by
  rw [httpObjectAddHeader] at h
  split at h
  · cases h
  rename_i hid
  split at h
  · cases h
  rename_i hbit
  split at h
  · cases h
  rename_i info hinfo
  split at h
  · cases h
  rename_i hfit
  exact ⟨Nat.lt_of_not_le hid, hbit, info, hinfo, Nat.lt_of_not_le hfit⟩

theorem takesContent_of_ok {obj obj' : HttpObject} {arg : ContentArg}
    (h : httpObjectAddContent obj arg = (.ok, obj')) : obj.TakesContent arg := by
  rw [httpObjectAddContent] at h
  split at h
  · cases h
  · rename_i hfit
    exact Nat.le_of_not_lt hfit

/-! ### Runs -/

/-- A call keeps the pieces in order when it meets the condition. -/
theorem callStep_inOrder {s t : HttpHistory} {c : HttpCall} (h : InOrder s) (hok : CallOk s c)
    (hstep : callStep s c = some t) : InOrder t := by
  rw [callStep] at hstep
  split at hstep
  · rename_i obj' hcall
    cases hstep
    cases c with
    | header id arg =>
      obtain ⟨hwritten, hnew, hold⟩ :=
        httpObjectAddHeader_denotes hcall (hok (takesHeader_of_ok hcall))
      refine ⟨?_, fun id' arg' hmem => ?_⟩
      · rw [List.flatMap_append, ← h.written, hwritten]
        simp [HttpCall.piece]
      · rcases List.mem_append.1 hmem with hmem | hmem
        · exact hold id' _ (h.denotes id' arg' hmem)
        · cases List.mem_singleton.1 hmem
          exact hnew
    | content arg =>
      obtain ⟨hwritten, hlen, hset, hlens⟩ :=
        httpObjectAddContent_written hcall (hok (takesContent_of_ok hcall))
      refine ⟨?_, fun id' arg' hmem => ?_⟩
      · rw [List.flatMap_append, ← h.written, hwritten]
        simp [HttpCall.piece]
      · have hmem : .header id' arg' ∈ s.done := by simpa using hmem
        exact (h.denotes id' arg' hmem).append hwritten hlen (by rw [hset]) (by rw [hlens])
  · rename_i obj' hcall
    cases hstep
    obtain rfl := HttpObject.call_err hcall
    exact h

theorem create_inOrder {objBuf : Option (ℤ → UInt8)} {bufSz : ℕ} {obj : HttpObject}
    (h : httpObjectCreate objBuf bufSz = some obj) : InOrder { obj := obj, done := [] } := by
  have hfresh : ∃ buf sz, obj = freshObject buf sz := by
    unfold httpObjectCreate at h
    split at h
    · split_ifs at h <;> cases h <;> exact ⟨_, _, rfl⟩
    · split_ifs at h
      cases h
      exact ⟨_, _, rfl⟩
  obtain ⟨buf, sz, rfl⟩ := hfresh
  exact ⟨rfl, fun _ _ hmem => absurd hmem List.not_mem_nil⟩

/-- **The HTTP object holds its pieces in order**: when every call that is not refused meets the
condition, the message is made of the pieces of the calls that returned `F1G_OK`, in their order,
every header added is denoted, and a call that is refused changes nothing. -/
theorem calls_inOrder {objBuf : Option (ℤ → UInt8)} {bufSz : ℕ} {obj : HttpObject}
    (h : httpObjectCreate objBuf bufSz = some obj) (calls : List HttpCall)
    (hok : Lts.Guarded callStep CallOk { obj := obj, done := [] } calls) :
    Lts.SafePrefixes callStep
      (fun s => InOrder s ∧ ∀ c obj', s.obj.call c = (.err, obj') → obj' = s.obj)
      { obj := obj, done := [] } calls :=
  Lts.safe_prefixes_of_guarded (fun _ _ _ h hok hst => callStep_inOrder h hok hst)
    (fun _ h => ⟨h, fun _ _ hcall => HttpObject.call_err hcall⟩) (create_inOrder h) hok

/-- A request line, a header and content in two pieces are in order. -/
theorem calls_inOrder_post :
    Lts.SafePrefixes callStep
      (fun s => InOrder s ∧ ∀ c obj', s.obj.call c = (.err, obj') → obj' = s.obj)
      { obj := freshObject (fun _ => 0) 2048, done := [] }
      [.header 8 ⟨ascii "POST / HTTP/1.1", by decide⟩, .header 3 ⟨ascii "a", by decide⟩,
        .header 7 ⟨[], by decide⟩, .content ⟨ascii "x=", by decide⟩,
        .content ⟨ascii "1", by decide⟩] :=
  calls_inOrder (show httpObjectCreate none 0 = some _ from rfl) _ (by decide)

/-- **A header between two pieces of content is overwritten**: the second piece goes behind the
first one, and the message ends with bytes that no call has written. -/
theorem content_overwrites_header :
    httpObjectCreate none 0 = some (freshObject (fun _ => 0) 2048) ∧
      ∃ s, Lts.run callStep { obj := freshObject (fun _ => 0) 2048, done := [] }
          [.content ⟨ascii "a", by decide⟩, .header 7 ⟨[], by decide⟩,
            .content ⟨ascii "b", by decide⟩] = some s ∧
        s.obj.written = [97, 98, 10, 0] ∧ ¬ InOrder s :=
  ⟨rfl, _, rfl, by decide, fun h => absurd h.written (by decide)⟩

end F1Goal
