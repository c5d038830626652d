import F1Goal.HttpReset

/-!
# Each header at most once (`f1g_http.c`, `f1g_bit_array.c`)

`http_object_add_header` refuses a header whose bit is set. What `bit_array_bit_value` returns is
the byte of the bit shifted down, and not only the bit: it is 1 when the bit is the highest one that
is set in its byte. `bitArrayBitValue_eq_one` says so, and `headers_once_iff` what follows for the
headers of a message: each is refused the second time exactly as long as no two of them have their
bits in one byte.
-/

namespace F1Goal

open CString

/-! ### Bits -/

theorem shiftRight_eq_one {n k : ℕ} :
    n >>> k = 1 ↔ n.testBit k = true ∧ ∀ k' > k, n.testBit k' = false := by
  constructor
  · intro h
    have hbit (i : ℕ) : n.testBit (k + i) = Nat.testBit 1 i := by rw [← h, Nat.testBit_shiftRight]
    refine ⟨hbit 0, fun k' hk' => ?_⟩
    obtain ⟨i, rfl⟩ := Nat.exists_eq_add_of_lt hk'
    rw [add_assoc, hbit, ← Bool.not_eq_true, Nat.testBit_one_eq_true_iff_self_eq_zero]
    omega
  · rintro ⟨hset, hclear⟩
    refine Nat.eq_of_testBit_eq fun i => ?_
    rw [Nat.testBit_shiftRight]
    cases i with
    | zero => exact hset
    | succ i =>
      rw [hclear (k + (i + 1)) (by omega), eq_comm, ← Bool.not_eq_true,
        Nat.testBit_one_eq_true_iff_self_eq_zero]
      omega

/-- **The value of a bit is 1 when the bit is set and no higher one of its byte is.** -/
theorem bitArrayBitValue_eq_one {obj : BitArray} {bitSeq : ℕ} (h : bitSeq < obj.bitsNum) :
    bitArrayBitValue obj bitSeq = 1 ↔
      (obj.bits (bitSeq / 8)).toNat.testBit (bitSeq % 8) = true ∧
        ∀ k > bitSeq % 8, (obj.bits (bitSeq / 8)).toNat.testBit k = false := by
  rw [← shiftRight_eq_one, bitArrayBitValue, if_neg (Nat.not_le.2 h)]
  generalize obj.bits (bitSeq / 8) = b
  have hk : bitSeq % 8 < 8 := Nat.mod_lt _ (by norm_num)
  generalize bitSeq % 8 = k at hk ⊢
  have hshift : b.toNat <<< (7 - k) >>> 7 = b.toNat >>> k := by
    rw [show 7 = 7 - k + k by omega, Nat.shiftRight_add, show 7 - k + k - k = 7 - k by omega,
      Nat.shiftLeft_shiftRight]
  have hlt : b.toNat >>> k < 2 ^ 8 :=
    lt_of_le_of_lt (Nat.shiftRight_le _ _) b.toNat_lt
  rw [hshift]
  generalize b.toNat >>> k = v at hlt ⊢
  rw [Int.bmod_def]
  omega

/-- A bit of a byte after `bit_array_set_bit`. -/
theorem bitArraySetBit_testBit {obj : BitArray} {bitSeq : ℕ} (h : bitSeq < obj.bitsNum) (j k : ℕ) :
    ((bitArraySetBit obj bitSeq).bits j).toNat.testBit k =
      ((obj.bits j).toNat.testBit k || decide (j = bitSeq / 8 ∧ k = bitSeq % 8)) := by
  rw [bitArraySetBit, if_neg (Nat.not_le.2 h)]
  by_cases hj : j = bitSeq / 8
  · subst hj
    have hk : bitSeq % 8 < 8 := Nat.mod_lt _ (by norm_num)
    have hpow : 1 <<< (bitSeq % 8) < 2 ^ 8 := by
      rw [Nat.one_shiftLeft]
      exact Nat.pow_lt_pow_right (by norm_num) hk
    simp only [Function.update_self]
    rw [UInt8.toNat_or, Nat.testBit_or, UInt8.toNat_ofNat_of_lt' hpow, Nat.one_shiftLeft,
      Nat.testBit_two_pow]
    simp [eq_comm]
  · simp only [Function.update_of_ne hj]
    simp [hj]

/-! ### Runs -/

/-- **Each header at most once**: a header that has been added since the last reset is refused and
changes nothing, and the value of its bit is 1 for no other header. -/
def HttpSys.Once (s : HttpSys) : Prop :=
  ∀ id < httpHdrNum,
    (id ∈ s.added → ∀ arg, httpObjectAddHeader s.obj id arg = (.err, s.obj)) ∧
      (bitArrayBitValue s.obj.status id = 1 ↔ id ∈ s.added)

/-- The line of the header fits behind the message. -/
def HttpObject.LineFits (obj : HttpObject) (id : ℕ) (arg : HeaderArg) : Prop :=
  ∃ info ∈ getHttpHeaderInfo id,
    u32 (obj.dataLen + arg.header.length + 2 + info.headerSize) < obj.bufSz

instance (obj : HttpObject) (id : ℕ) (arg : HeaderArg) : Decidable (obj.LineFits id arg) :=
  inferInstanceAs (Decidable (∃ info ∈ getHttpHeaderInfo id, _))

/-- **The condition on a call**: a header that is new and fits has its bit in a byte of its own. -/
def OnceOk (s : HttpSys) : HttpOp → Prop
  | .add (.header id arg) =>
    id < httpHdrNum → id ∉ s.added → s.obj.LineFits id arg → ∀ id' ∈ s.added, id' / 8 ≠ id / 8
  | _ => True

instance (s : HttpSys) : ∀ op, Decidable (OnceOk s op)
  | .add (.header id _) => inferInstanceAs (Decidable (id < httpHdrNum → _))
  | .add (.content _) => .isTrue trivial
  | .reset => .isTrue trivial
  | .resetBuffer _ _ _ => .isTrue trivial

/-- The headers added have their bits in different bytes. -/
def OnePerByte (added : List ℕ) : Prop := ∀ id ∈ added, ∀ id' ∈ added, id' / 8 = id / 8 → id' = id

/-- **The bits are those of the headers added.** -/
structure HttpSys.Bits (s : HttpSys) : Prop where
  num : s.obj.status.bitsNum = httpHdrNum
  lt : ∀ id ∈ s.added, id < httpHdrNum
  bit : ∀ j, ∀ k < 8, (s.obj.status.bits j).toNat.testBit k = true ↔ 8 * j + k ∈ s.added

/-- Whether the value of a bit is 1, in terms of the headers added. -/
theorem HttpSys.Bits.value_eq_one {s : HttpSys} (h : s.Bits) {id : ℕ} (hid : id < httpHdrNum) :
    bitArrayBitValue s.obj.status id = 1 ↔
      id ∈ s.added ∧ ∀ id' ∈ s.added, id' / 8 = id / 8 → id' ≤ id := by
  rw [bitArrayBitValue_eq_one (h.num ▸ hid), h.bit _ _ (Nat.mod_lt _ (by norm_num)),
    Nat.div_add_mod]
  refine and_congr_right fun _ => ⟨fun hclear id' hmem hbyte => ?_, fun hle k hk => ?_⟩
  · by_contra hlt
    have hset := (h.bit (id' / 8) (id' % 8) (Nat.mod_lt _ (by norm_num))).2
      ((Nat.div_add_mod id' 8).symm ▸ hmem)
    rw [hbyte, hclear _ (by omega)] at hset
    cases hset
  · rw [← Bool.not_eq_true]
    intro hset
    have hk8 : k < 8 := by
      by_contra hge
      have hpow : 2 ^ 8 ≤ 2 ^ k := Nat.pow_le_pow_right (by norm_num) (by omega)
      have hlt : (s.obj.status.bits (id / 8)).toNat < 2 ^ 8 := UInt8.toNat_lt _
      rw [Nat.testBit_lt_two_pow (by omega)] at hset
      cases hset
    have := hle _ ((h.bit _ k hk8).1 hset) (by omega)
    omega

theorem HttpSys.Bits.once_iff {s : HttpSys} (h : s.Bits) : s.Once ↔ OnePerByte s.added := by
  constructor
  · intro honce id hid id' hid' hbyte
    -- each of the two is the highest one of the byte
    have hle := ((h.value_eq_one (h.lt id hid)).1 ((honce id (h.lt id hid)).2.2 hid)).2
    have hle' := ((h.value_eq_one (h.lt id' hid')).1 ((honce id' (h.lt id' hid')).2.2 hid')).2
    exact Nat.le_antisymm (hle id' hid' hbyte) (hle' id hid hbyte.symm)
  · intro hone id hid
    have hvalue : bitArrayBitValue s.obj.status id = 1 ↔ id ∈ s.added :=
      (h.value_eq_one hid).trans
        ⟨And.left, fun hmem => ⟨hmem, fun id' hmem' hbyte => (hone id hmem id' hmem' hbyte).le⟩⟩
    exact ⟨fun hmem _ => httpObjectAddHeader_of_not fun htakes => htakes.2.1 (hvalue.2 hmem),
      hvalue⟩

/-- After `bit_array_reset` the bytes of the headers are zero. -/
theorem bitArrayReset_bits {obj : BitArray} (h : obj.bitsNum = httpHdrNum) (j : ℕ) :
    (bitArrayReset obj).bits j = if j < 2 then 0 else obj.bits j := by
  rw [bitArrayReset, h]
  rfl

theorem HttpSys.Bits.of_status {s t : HttpSys} (h : s.Bits)
    (hstatus : t.obj.status = s.obj.status) (hadded : t.added = s.added) : t.Bits := by
  refine ⟨?_, ?_, ?_⟩
  · rw [hstatus]
    exact h.num
  · rw [hadded]
    exact h.lt
  · rw [hstatus, hadded]
    exact h.bit

/-- A header that is taken has its bit set. -/
theorem HttpSys.Bits.taken {s t : HttpSys} (h : s.Bits) {id : ℕ} (hid : id < httpHdrNum)
    (hstatus : t.obj.status = bitArraySetBit s.obj.status id) (hadded : t.added = id :: s.added) :
    t.Bits := by
  have hnum : id < s.obj.status.bitsNum := h.num ▸ hid
  refine ⟨?_, ?_, fun j k hk => ?_⟩
  · rw [hstatus, bitArraySetBit, if_neg (Nat.not_le.2 hnum)]
    exact h.num
  · rw [hadded, List.forall_mem_cons]
    exact ⟨hid, h.lt⟩
  · rw [hstatus, hadded, bitArraySetBit_testBit hnum, Bool.or_eq_true, h.bit j k hk, List.mem_cons,
      or_comm, decide_eq_true_iff]
    refine or_congr_left ?_
    omega

/-- Every call keeps the bits those of the headers added. -/
theorem opStep_bits {s t : HttpSys} {op : HttpOp} (h : s.Bits) (hstep : opStep s op = some t) :
    t.Bits := by
  cases hstep
  cases op with
  | add c =>
    cases c with
    | header id arg =>
      by_cases htakes : s.obj.TakesHeader id arg
      · obtain ⟨info, named, hinfo, hnamed, hcall⟩ := httpObjectAddHeader_of_takes htakes
        refine h.taken htakes.1 ?_ (if_pos htakes)
        rw [HttpObject.op, HttpObject.call, hcall]
      · exact h.of_status (congrArg (fun r => r.2.status) (httpObjectAddHeader_of_not htakes))
          (if_neg htakes)
    | content arg =>
      refine h.of_status ?_ rfl
      rw [HttpObject.op, HttpObject.call, httpObjectAddContent]
      split_ifs <;> rfl
  | reset =>
    refine ⟨h.num, fun _ hmem => absurd hmem List.not_mem_nil, fun j k hk => ?_⟩
    simp only [HttpObject.op, httpObjectReset, HttpSys.addedAfter, bitArrayReset_bits h.num,
      List.not_mem_nil, iff_false]
    split_ifs with hj
    · simp
    · rw [h.bit j k hk]
      intro hmem
      have hlt := h.lt _ hmem
      rw [httpHdrNum] at hlt
      omega
  | resetBuffer objBuf bufSz block =>
    refine h.of_status ?_ rfl
    rw [HttpObject.op, httpObjectResetBuffer_eq]
    split_ifs <;> rfl

/-- A header that is new has its bit in a byte of its own, or makes the value of another bit
wrong. -/
theorem onePerByte_cons {added : List ℕ} {id : ℕ} (h : OnePerByte added) (hnew : id ∉ added) :
    OnePerByte (id :: added) ↔ ∀ id' ∈ added, id' / 8 ≠ id / 8 := by
  constructor
  · intro hone id' hmem hbyte
    obtain rfl := hone id List.mem_cons_self id' (List.mem_cons_of_mem _ hmem) hbyte
    exact hnew hmem
  · intro hne a ha b hb hbyte
    rcases List.mem_cons.1 ha with rfl | hold
    · rcases List.mem_cons.1 hb with rfl | hold'
      · rfl
      · exact absurd hbyte (hne b hold')
    · rcases List.mem_cons.1 hb with rfl | hold'
      · exact absurd hbyte.symm (hne a hold)
      · exact h a hold b hold' hbyte

/-- **The condition decides** whether each header is refused the second time after the call. -/
theorem opStep_once_iff {s t : HttpSys} {op : HttpOp} (h : s.Bits) (honce : s.Once)
    (hstep : opStep s op = some t) : t.Once ↔ OnceOk s op := by
  have hone := h.once_iff.1 honce
  rw [(opStep_bits h hstep).once_iff]
  cases hstep
  cases op with
  | add c =>
    cases c with
    | header id arg =>
      by_cases htakes : s.obj.TakesHeader id arg
      · have hnew : id ∉ s.added := fun hmem => htakes.2.1 ((honce id htakes.1).2.2 hmem)
        rw [HttpSys.addedAfter, if_pos htakes, onePerByte_cons hone hnew]
        exact ⟨fun hne _ _ _ => hne, fun hok => hok htakes.1 hnew htakes.2.2⟩
      · rw [HttpSys.addedAfter, if_neg htakes]
        refine iff_of_true hone fun hid hnew hfits => absurd ⟨hid, ?_, hfits⟩ htakes
        exact fun hbit => hnew ((honce id hid).2.1 hbit)
    | content arg => exact iff_of_true hone trivial
  | reset => exact iff_of_true (fun _ hmem => absurd hmem List.not_mem_nil) trivial
  | resetBuffer objBuf bufSz block => exact iff_of_true hone trivial

/-- **A header is refused the second time**, and its bit is 1 from the first time to the next reset,
at each moment of a run exactly when no header is added whose bit is in the byte of the bit of
another one added since the last reset. -/
theorem headers_once_iff {objBuf : Option (ℤ → UInt8)} {bufSz : UInt32} {obj : HttpObject}
    (h : httpObjectCreate objBuf bufSz.toNat = some obj) (ops : List HttpOp) :
    Lts.SafePrefixes opStep HttpSys.Once (HttpSys.start obj) ops ↔
      Lts.Guarded opStep OnceOk (HttpSys.start obj) ops := by
  obtain ⟨buf, size, rfl, -⟩ := httpObjectCreate_fresh h
  have hbits : (HttpSys.start (freshObject buf size)).Bits :=
    ⟨rfl, fun _ hmem => absurd hmem List.not_mem_nil, fun j k _ => by
      simp [HttpSys.start, freshObject, bitArrayInit]⟩
  have honce : (HttpSys.start (freshObject buf size)).Once :=
    hbits.once_iff.2 fun _ hmem => absurd hmem List.not_mem_nil
  exact Lts.safe_prefixes_iff_guarded (fun s => s.Bits ∧ s.Once)
    (fun s op t hs hst => opStep_once_iff hs.1 hs.2 hst)
    (fun s op t hs hst ht => ⟨opStep_bits hs.1 hst, ht⟩) ⟨hbits, honce⟩ honce ops

/-- A request line and the last header have their bits in different bytes. -/
theorem headers_once_iff_twoBytes :
    Lts.SafePrefixes opStep HttpSys.Once (HttpSys.start (freshObject (fun _ => 0) 2048))
      [.add (.header 8 ⟨ascii "GET / HTTP/1.1", by decide⟩), .add (.header 7 ⟨[], by decide⟩),
        .add (.header 7 ⟨[], by decide⟩), .reset, .add (.header 9 ⟨[], by decide⟩)] :=
  (@headers_once_iff none 0 _ rfl _).2 (by decide)

/-- **A header is taken twice** when another one has been added between: behind `Host` and
`User-Agent` the value of the bit of `Host` is 3, and `Host` is taken again. -/
theorem host_taken_twice :
    httpObjectCreate none 0 = some (freshObject (fun _ => 0) 2048) ∧
      ∃ s, Lts.run opStep (HttpSys.start (freshObject (fun _ => 0) 2048))
          [.add (.header 3 ⟨ascii "a", by decide⟩), .add (.header 4 ⟨ascii "b", by decide⟩)] =
            some s ∧
        3 ∈ s.added ∧ bitArrayBitValue s.obj.status 3 = 3 ∧
          (httpObjectAddHeader s.obj 3 ⟨ascii "c", by decide⟩).1 = .ok ∧ ¬ s.Once := by
  refine ⟨rfl, _, rfl, by decide, by decide, by decide, fun honce => ?_⟩
  exact absurd ((honce 3 (by decide)).2.2 (by decide)) (by decide)

end F1Goal
