import F1Goal.HttpObject

/-!
# The text of a message

`addHeaders_written` gives the bytes that calls of `http_object_add_header` leave in the buffer: one
line for each call, in their order. Lines are short, so that the 32 bits of `data_len` are enough.
-/

namespace F1Goal

open CString

/-- The bytes of the message so far. -/
def HttpObject.written (obj : HttpObject) : List UInt8 := Mem.slice obj.objBuf 0 obj.dataLen

/-- The line of a header. -/
def headerText (headerId : ℕ) (value : List UInt8) : List UInt8 :=
  match getHttpHeaderInfo headerId with
  | none => []
  | some info => info.header.take info.headerSize ++ value ++ crlf

/-- The calls of `http_object_add_header`, as long as they return `F1G_OK`. -/
def addHeaders (obj : HttpObject) : List (ℕ × HeaderArg) → Option HttpObject
  | [] => some obj
  | (id, arg) :: calls =>
    match httpObjectAddHeader obj id arg with
    | (.ok, obj) => addHeaders obj calls
    | (.err, _) => none

/-- The sizes in the table are within the strings, and small. -/
theorem header_size {id : ℕ} {info : HttpHeaderInfo} (h : getHttpHeaderInfo id = some info) :
    (info.header.take info.headerSize).length = info.headerSize ∧ info.headerSize ≤ 12 := by
  have hall : ∀ info ∈ httpHeaderInfo,
      (info.header.take info.headerSize).length = info.headerSize ∧ info.headerSize ≤ 12 := by
    decide
  exact hall info (List.mem_of_find?_eq_some h)

theorem HttpObject.put_dataLen {obj : HttpObject} {bs : List UInt8}
    (h : obj.dataLen + bs.length < 2 ^ 32) : (obj.put bs).dataLen = obj.dataLen + bs.length :=
  Nat.mod_eq_of_lt h

theorem HttpObject.put_written {obj : HttpObject} {bs : List UInt8}
    (h : obj.dataLen + bs.length < 2 ^ 32) : (obj.put bs).written = obj.written ++ bs := by
  rw [written, put_dataLen h, Mem.slice_add, zero_add]
  congr 1
  · exact Mem.slice_store_of_disjoint (.inl (by simp))
  · exact Mem.slice_store_self _ _ _

/-- A call that returns `F1G_OK` appends a line, and notes where the value stands in it. -/
theorem httpObjectAddHeader_written {obj obj' : HttpObject} {id : ℕ} {arg : HeaderArg}
    (h : httpObjectAddHeader obj id arg = (.ok, obj'))
    (hsmall : obj.dataLen + (headerText id arg.header).length < 2 ^ 32) :
    obj'.written = obj.written ++ headerText id arg.header ∧
      obj'.dataLen = obj.dataLen + (headerText id arg.header).length ∧
        (∃ info, getHttpHeaderInfo id = some info ∧
          obj'.hdrSet = Function.update obj.hdrSet id (some (obj.dataLen + info.headerSize))) ∧
        obj'.hdrLenSet =
          Function.update obj.hdrLenSet id ((arg.header.length : ℤ).bmod (2 ^ 16)) := by
  rw [httpObjectAddHeader] at h
  split at h
  · cases h
  split at h
  · cases h
  split at h
  · cases h
  rename_i info hinfo
  split at h
  · cases h
  obtain ⟨hsize, -⟩ := header_size hinfo
  have htext : headerText id arg.header =
      info.header.take info.headerSize ++ arg.header ++ crlf := by
    rw [headerText, hinfo]
  have hcrlf : crlf.length = 2 := rfl
  rw [htext, List.length_append, List.length_append, hsize, hcrlf] at hsmall ⊢
  obtain ⟨-, rfl⟩ := Prod.mk.inj h
  obtain ⟨obj₁, hobj₁, hlen₁, hwritten₁, hset₁, hlens₁⟩ : ∃ obj₁,
      (if 0 < info.headerSize then obj.put (info.header.take info.headerSize) else obj) = obj₁ ∧
        obj₁.dataLen = obj.dataLen + info.headerSize ∧
          obj₁.written = obj.written ++ info.header.take info.headerSize ∧
            obj₁.hdrSet = obj.hdrSet ∧ obj₁.hdrLenSet = obj.hdrLenSet := by
    split_ifs with hpos
    · refine ⟨_, rfl, ?_, HttpObject.put_written (by omega), rfl, rfl⟩
      rw [HttpObject.put_dataLen (by omega), hsize]
    · have hzero : info.headerSize = 0 := Nat.eq_zero_of_not_pos hpos
      exact ⟨_, rfl, by simp [hzero], by simp [hzero], rfl, rfl⟩
  have hlen₂ : (obj₁.put arg.header).dataLen = _ := HttpObject.put_dataLen (by omega)
  have hroom : (obj₁.put arg.header).dataLen + crlf.length < 2 ^ 32 := by
    rw [hlen₂, hlen₁, hcrlf]
    omega
  have hlen₃ := HttpObject.put_dataLen hroom
  have hwritten₃ := HttpObject.put_written hroom
  rw [hobj₁]
  refine ⟨hwritten₃.trans ?_, hlen₃.trans ?_, ⟨info, hinfo, ?_⟩, ?_⟩
  · rw [HttpObject.put_written (by omega), hwritten₁]
    simp only [List.append_assoc]
  · rw [hlen₂, hlen₁, hcrlf]
    omega
  · rw [← hset₁, ← hlen₁]
    rfl
  · rw [← hlens₁]
    rfl

theorem length_headerText_le (id : ℕ) (arg : HeaderArg) :
    (headerText id arg.header).length ≤ 65549 := by
  have hlen := arg.len_lt
  rw [headerText]
  split
  · exact Nat.zero_le _
  · rename_i info hinfo
    obtain ⟨hsize, h12⟩ := header_size hinfo
    rw [List.length_append, List.length_append, hsize, show crlf.length = 2 from rfl]
    omega

/-- Calls that return `F1G_OK` append their lines. -/
theorem addHeaders_written {calls : List (ℕ × HeaderArg)} {obj obj' : HttpObject}
    (h : addHeaders obj calls = some obj') (hsmall : obj.dataLen + 65549 * calls.length < 2 ^ 32) :
    obj'.written = obj.written ++ calls.flatMap fun call => headerText call.1 call.2.header := by
  induction calls generalizing obj with
  | nil =>
    cases h
    simp
  | cons call calls ih =>
    rw [List.length_cons, Nat.mul_succ] at hsmall
    have htext := length_headerText_le call.1 call.2
    have hroom : obj.dataLen + (headerText call.1 call.2.header).length < 2 ^ 32 := by linarith
    rw [addHeaders] at h
    split at h
    · rename_i obj₁ hadd
      obtain ⟨hwritten, hlen, -⟩ := httpObjectAddHeader_written hadd hroom
      have hrest : obj₁.dataLen + 65549 * calls.length < 2 ^ 32 := by linarith
      rw [ih h hrest, hwritten, List.flatMap_cons, List.append_assoc]
    · cases h

end F1Goal
