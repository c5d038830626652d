import F1Goal.EscText
import F1Goal.Lib.Framing

/-!
# How `str_esc_decode` reads a text

Both decoders are loops that take units off the front of the text (`takesUnits`): a unit whose
escapes pass for digits, or an escape beside the table `hex_char_vmap`, or the text is refused.
-/

namespace F1Goal

open Framing Transcode

/-! ### The room in `d_arr` -/

/-- The unit has room behind `num` bytes; a pair of GBK must leave a byte free. -/
def EscUnit.FitsAt (codeType : CodeType) (size num : ℕ) (u : EscUnit) : Prop :=
  num + u.bytes.length ≤ size ∧
    (codeType = .gbk → 2 ≤ u.bytes.length → num + u.bytes.length < size)

/-- The text starts with escapes of which one is beside the table, and is read so far with `num`
bytes written: for UTF-8 the bytes that a first byte announces must have room. -/
def BadAt (codeType : CodeType) (size num : ℕ) (s : List UInt8) : Prop :=
  ∃ (d1 d2 : UInt8) (rest : List UInt8), BesideTable d1 d2 ∧
    (s = 0x25 :: d1 :: d2 :: rest ∨
      ∃ (lead : Escape) (trail : List Escape) (n : ℕ),
        lead.Loose ∧ (∀ e ∈ trail, e.Loose) ∧ trailing codeType lead.byte = some n ∧
          trail.length < n ∧ 3 * n ≤ 3 * trail.length + 3 + rest.length ∧
            (codeType = .utf8 → num + 1 + n ≤ size) ∧
              s = lead.text ++ trail.flatMap Escape.text ++ 0x25 :: d1 :: d2 :: rest)

/-- The array is full, and the text goes on with a first byte: the UTF-8 decoder returns 0. -/
def ReturnsEarly (size num : ℕ) (s : List UInt8) : Prop :=
  size ≤ num ∧ ∃ rest, (∃ b, b < 0x80 ∧ b ≠ 0x25 ∧ s = b :: rest) ∨
    ∃ (lead : Escape) (n : ℕ), lead.Loose ∧ announced lead.byte = some n ∧ s = lead.text ++ rest

theorem BadAt.badFront {codeType : CodeType} {size num : ℕ} {s : List UInt8}
    (h : BadAt codeType size num s) : BadFront codeType s := by
  obtain ⟨d1, d2, rest, hbad, hs | ⟨lead, trail, n, hlead, htrail, hn, hlt, hlen, -, hs⟩⟩ := h
  · exact ⟨d1, d2, rest, hbad, .inl hs⟩
  · exact ⟨d1, d2, rest, hbad, .inr ⟨lead, trail, n, hlead, htrail, hn, hlt, hlen, hs⟩⟩

/-- The GBK decoder reads an escape before it looks at the room. -/
theorem badAt_gbk_iff {size num : ℕ} {s : List UInt8} :
    BadAt .gbk size num s ↔ BadFront .gbk s := by
  refine ⟨BadAt.badFront, ?_⟩
  rintro ⟨d1, d2, rest, hbad, hs | ⟨lead, trail, n, hlead, htrail, hn, hlt, hlen, hs⟩⟩
  · exact ⟨d1, d2, rest, hbad, .inl hs⟩
  · exact ⟨d1, d2, rest, hbad, .inr ⟨lead, trail, n, hlead, htrail, hn, hlt, hlen,
      fun h => (by cases h), hs⟩⟩

/-- There is room when the array is longer than the text. -/
theorem BadFront.badAt {codeType : CodeType} {size num : ℕ} {s : List UInt8}
    (h : BadFront codeType s) (hroom : num + s.length < size) : BadAt codeType size num s := by
  obtain ⟨d1, d2, rest, hbad, hs | ⟨lead, trail, n, hlead, htrail, hn, hlt, hlen, rfl⟩⟩ := h
  · exact ⟨d1, d2, rest, hbad, .inl hs⟩
  · refine ⟨d1, d2, rest, hbad, .inr ⟨lead, trail, n, hlead, htrail, hn, hlt, hlen, fun _ => ?_,
      rfl⟩⟩
    simp only [List.length_append, List.length_cons, length_flatMap_text, Escape.text,
      List.length_nil] at hroom
    omega

/-! ### The UTF-8 decoder at the front of its input -/

theorem utf8ByteNum_eq (b : UInt8) : utf8ByteNum b = announced b := by
  have h : ∀ i : Fin 256, utf8ByteNum (.ofFin i) = announced (.ofFin i) := by decide +kernel
  exact h b.toFin

theorem byteAt_zero (b : UInt8) (s : List UInt8) : byteAt (b :: s) 0 = .ok b := rfl

/-- One turn of the loop over the bytes behind the first one. -/
theorem escTail_succ {size num n : ℕ} (d1 d2 : UInt8) (rest : List UInt8) (hroom : num < size) :
    escTail size num (n + 1) (0x25 :: d1 :: d2 :: rest) =
      (hexByte (.neg 2) (d1 :: d2 :: rest)).bind fun byte =>
        (escTail size (num + 1) n rest).map (byte :: ·) := by
  have hstore (byte : UInt8) : storeAt size num byte = .ok byte := if_pos hroom
  rw [escTail]
  simp only [byteAt_zero, List.drop_succ_cons, List.drop_zero]
  cases hexByte (.neg 2) (d1 :: d2 :: rest) with
  | error e => rfl
  | ok byte =>
    change (storeAt size num byte >>= _) = _
    rw [hstore]
    change (escTail size (num + 1) n rest >>= _) = (escTail size (num + 1) n rest).map _
    cases escTail size (num + 1) n rest <;> rfl

theorem escTail_of_loose {size num : ℕ} {es : List Escape} (h : ∀ e ∈ es, e.Loose)
    (rest : List UInt8) (hroom : num + es.length ≤ size) :
    escTail size num es.length (es.flatMap Escape.text ++ rest) = .ok (es.map Escape.byte) := by
  induction es generalizing num with
  | nil => rfl
  | cons e es ih =>
    rw [List.forall_mem_cons] at h
    rw [List.length_cons] at hroom
    have htext : (e :: es).flatMap Escape.text ++ rest =
        0x25 :: e.d1 :: e.d2 :: (es.flatMap Escape.text ++ rest) := rfl
    rw [List.length_cons, htext, escTail_succ _ _ _ (by omega), hexByte_of_loose _ h.1,
      Except.bind, ih h.2 (by omega)]
    rfl

theorem escTail_of_beside {size num n : ℕ} {es : List Escape} (h : ∀ e ∈ es, e.Loose)
    {d1 d2 : UInt8} (hbad : BesideTable d1 d2) (rest : List UInt8) (hlt : es.length < n)
    (hroom : num + n ≤ size) :
    escTail size num n (es.flatMap Escape.text ++ 0x25 :: d1 :: d2 :: rest) = .error .oob := by
  induction es generalizing num n with
  | nil =>
    obtain ⟨n, rfl⟩ := Nat.exists_eq_add_one_of_ne_zero (Nat.ne_of_gt hlt)
    rw [List.flatMap_nil, List.nil_append, escTail_succ _ _ _ (by omega), hexByte_of_beside _ hbad]
    rfl
  | cons e es ih =>
    obtain ⟨n, rfl⟩ := Nat.exists_eq_add_one_of_ne_zero (Nat.ne_of_gt (Nat.zero_lt_of_lt hlt))
    rw [List.forall_mem_cons] at h
    rw [List.length_cons] at hlt
    have htext : (e :: es).flatMap Escape.text ++ 0x25 :: d1 :: d2 :: rest =
        0x25 :: e.d1 :: e.d2 :: (es.flatMap Escape.text ++ 0x25 :: d1 :: d2 :: rest) := rfl
    rw [htext, escTail_succ _ _ _ (by omega), hexByte_of_loose _ h.1, Except.bind,
      ih h.2 (by omega) (by omega)]
    rfl

/-- The bytes behind the first one are all there, or one of them is beside the table, or they are
refused. -/
theorem escTail_cases {size num n : ℕ} {s : List UInt8} (hlen : 3 * n ≤ s.length)
    (hroom : num + n ≤ size) :
    (∃ (es : List Escape) (rest : List UInt8), es.length = n ∧ (∀ e ∈ es, e.Loose) ∧
        s = es.flatMap Escape.text ++ rest) ∨
      (∃ (es : List Escape) (d1 d2 : UInt8) (rest : List UInt8), es.length < n ∧
        (∀ e ∈ es, e.Loose) ∧ BesideTable d1 d2 ∧
          s = es.flatMap Escape.text ++ 0x25 :: d1 :: d2 :: rest) ∨
      escTail size num n s = .error (.neg 2) := by
  induction n generalizing num s with
  | zero => exact .inl ⟨[], s, rfl, by simp, rfl⟩
  | succ n ih =>
    match s, hlen with
    | b :: d1 :: d2 :: s, hlen =>
      by_cases hb : b = 0x25
      · subst hb
        by_cases he : (⟨d1, d2⟩ : Escape).Loose
        · simp only [List.length_cons] at hlen
          have hlen' : 3 * n ≤ s.length := by omega
          have hroom' : num + 1 + n ≤ size := by omega
          rcases ih hlen' hroom' with
            ⟨es, rest, hes, hloose, rfl⟩ | ⟨es, d1', d2', rest, hes, hloose, hbad, rfl⟩ | herr
          · exact .inl ⟨⟨d1, d2⟩ :: es, rest, by rw [List.length_cons, hes],
              List.forall_mem_cons.2 ⟨he, hloose⟩, rfl⟩
          · exact .inr (.inl ⟨⟨d1, d2⟩ :: es, d1', d2', rest, by rw [List.length_cons]; omega,
              List.forall_mem_cons.2 ⟨he, hloose⟩, hbad, rfl⟩)
          · right; right
            rw [escTail_succ _ _ _ (by omega), hexByte_of_loose _ he, Except.bind, herr]
            rfl
        · rcases hexByte_of_not_loose (.neg 2) he s with hbad | herr
          · exact .inr (.inl ⟨[], d1, d2, s, by simp, by simp, hbad, rfl⟩)
          · right; right
            rw [escTail_succ _ _ _ (by omega), herr]
            rfl
      · right; right
        rw [escTail]
        simp only [byteAt_zero]
        change (if b ≠ 0x25 then _ else _) = _
        rw [if_pos hb]
        rfl

/-- One turn of the loop in front of an escape. -/
theorem utf8StrLoop_lead {size : ℕ} {lead : Escape} (h : lead.Loose) (s out : List UInt8) :
    utf8StrLoop size (lead.text ++ s) out =
      match announced lead.byte with
      | none => .error (.neg 3)
      | some n =>
        if size ≤ out.length then .ok ⟨size, out⟩
        else if s.length < 3 * n then .error (.neg 1)
        else if size - (out.length + 1) < n then .error (.neg 1)
        else (escTail size (out.length + 1) n s).bind fun more =>
          utf8StrLoop size (s.drop (3 * n)) (out ++ lead.byte :: more) := by
  change utf8StrLoop size (0x25 :: lead.d1 :: lead.d2 :: s) out = _
  rw [utf8StrLoop, if_neg (by decide), if_pos rfl, if_neg (by simp), hexByte_of_loose _ h]
  simp only [utf8ByteNum_eq, List.drop_succ_cons, List.drop_zero]
  cases announced lead.byte with
  | none => rfl
  | some n =>
    dsimp only
    split_ifs
    · rfl
    · rfl
    · rfl
    · cases escTail size (out.length + 1) n s <;> rfl

/-- Such a turn with room for the bytes of the unit. -/
theorem utf8StrLoop_escape {size n : ℕ} {lead : Escape} {s out : List UInt8} (h : lead.Loose)
    (hn : announced lead.byte = some n) (hlen : 3 * n ≤ s.length)
    (hroom : out.length + 1 + n ≤ size) :
    utf8StrLoop size (lead.text ++ s) out =
      (escTail size (out.length + 1) n s).bind fun more =>
        utf8StrLoop size (s.drop (3 * n)) (out ++ lead.byte :: more) := by
  simp only [utf8StrLoop_lead h, hn]
  rw [if_neg (by omega), if_neg (by omega), if_neg (by omega)]

theorem utf8StrLoop_unit {size : ℕ} {u : EscUnit} {rest out : List UInt8} (h : u.Loose .utf8)
    (hroom : out.length + u.bytes.length ≤ size) :
    utf8StrLoop size (u.text ++ rest) out = utf8StrLoop size rest (out ++ u.bytes) := by
  obtain ⟨hframe, hloose⟩ := h
  cases u with
  | literal b =>
    obtain ⟨hlt, hne⟩ := hframe
    simp only [EscUnit.bytes, List.length_singleton] at hroom
    rw [EscUnit.text, List.singleton_append, utf8StrLoop, if_neg (UInt8.not_le.2 hlt), if_neg hne,
      if_neg (by omega)]
    rfl
  | escaped lead trail =>
    obtain ⟨hlead, htrail⟩ := List.forall_mem_cons.1 hloose
    simp only [EscUnit.bytes, List.length_cons, List.length_map] at hroom
    have hlen := length_flatMap_text trail
    rw [EscUnit.text, List.append_assoc,
      utf8StrLoop_escape hlead hframe.1 (by rw [List.length_append]; omega) (by omega),
      escTail_of_loose htrail _ (by omega), Except.bind, ← hlen, List.drop_left]
    rfl

theorem utf8StrLoop_bad {size : ℕ} {s out : List UInt8} (h : BadAt .utf8 size out.length s) :
    utf8StrLoop size s out = .error .oob := by
  obtain ⟨d1, d2, rest, hbad, rfl |
    ⟨lead, trail, n, hlead, htrail, hn, hlt, hlen, hroom, rfl⟩⟩ := h
  · rw [utf8StrLoop, if_neg (by decide), if_pos rfl, if_neg (by simp), hexByte_of_beside _ hbad]
  · have hlen' : 3 * n ≤ (trail.flatMap Escape.text ++ 0x25 :: d1 :: d2 :: rest).length := by
      simp only [List.length_append, List.length_cons, length_flatMap_text]
      omega
    rw [List.append_assoc, utf8StrLoop_escape hlead hn hlen' (hroom rfl),
      escTail_of_beside htrail hbad _ hlt (hroom rfl)]
    rfl

theorem utf8StrLoop_early {size : ℕ} {s out : List UInt8} (h : ReturnsEarly size out.length s) :
    utf8StrLoop size s out = .ok ⟨size, out⟩ := by
  obtain ⟨hfull, rest, ⟨b, hb, hne, rfl⟩ | ⟨lead, n, hlead, hn, rfl⟩⟩ := h
  · rw [utf8StrLoop, if_neg (UInt8.not_le.2 hb), if_neg hne, if_pos hfull]
  · simp only [utf8StrLoop_lead hlead, hn]
    rw [if_pos hfull]

/-- The first byte is there; then those that it announces. -/
theorem utf8StrLoop_front_escape {size : ℕ} {lead : Escape} (he : lead.Loose)
    (s out : List UInt8) :
    (∃ (u : EscUnit) (rest : List UInt8), u.Loose .utf8 ∧
        out.length + u.bytes.length ≤ size ∧ lead.text ++ s = u.text ++ rest) ∨
      BadAt .utf8 size out.length (lead.text ++ s) ∨
        ReturnsEarly size out.length (lead.text ++ s) ∨
          ∃ e, e ≠ .oob ∧ utf8StrLoop size (lead.text ++ s) out = .error e := by
  have hturn := @utf8StrLoop_lead size lead he s out
  cases hn : announced lead.byte with
  | none =>
    simp only [hn] at hturn
    exact .inr (.inr (.inr ⟨.neg 3, by simp, hturn⟩))
  | some n =>
    simp only [hn] at hturn
    by_cases hfull : size ≤ out.length
    · exact .inr (.inr (.inl ⟨hfull, s, .inr ⟨lead, n, he, hn, rfl⟩⟩))
    rw [if_neg hfull] at hturn
    by_cases hlen : s.length < 3 * n
    · exact .inr (.inr (.inr ⟨.neg 1, by simp, by rw [hturn, if_pos hlen]⟩))
    by_cases hroom : size - (out.length + 1) < n
    · exact .inr (.inr (.inr ⟨.neg 1, by simp, by rw [hturn, if_neg hlen, if_pos hroom]⟩))
    have hroom' : out.length + 1 + n ≤ size := by omega
    rcases escTail_cases (Nat.le_of_not_lt hlen) hroom' with
      ⟨es, rest, hes, hloose, rfl⟩ | ⟨es, d1', d2', rest, hes, hloose, hbad, rfl⟩ | herr
    · refine .inl ⟨.escaped lead es, rest, ⟨⟨by rw [hes]; exact hn, by simp⟩,
        List.forall_mem_cons.2 ⟨he, hloose⟩⟩, ?_, by rw [EscUnit.text, List.append_assoc]⟩
      simp only [EscUnit.bytes, List.length_cons, List.length_map]
      omega
    · refine .inr (.inl ⟨d1', d2', rest, hbad, .inr ⟨lead, es, n, he, hloose, hn, hes, ?_,
        fun _ => hroom', by rw [List.append_assoc]⟩⟩)
      simp only [List.length_append, List.length_cons, length_flatMap_text] at hlen
      omega
    · refine .inr (.inr (.inr ⟨.neg 2, by simp, ?_⟩))
      rw [utf8StrLoop_escape he hn (Nat.le_of_not_lt hlen) hroom', herr]
      rfl

/-- **The UTF-8 decoder at the front of a text**: a unit that fits, or an escape beside the table,
or the array is full, or the text is refused. -/
theorem utf8StrLoop_front {size : ℕ} {s : List UInt8} (hs : s ≠ []) (out : List UInt8) :
    (∃ (u : EscUnit) (rest : List UInt8), u.Loose .utf8 ∧
        out.length + u.bytes.length ≤ size ∧ s = u.text ++ rest) ∨
      BadAt .utf8 size out.length s ∨ ReturnsEarly size out.length s ∨
        ∃ e, e ≠ .oob ∧ utf8StrLoop size s out = .error e := by
  obtain ⟨b, s, rfl⟩ := List.exists_cons_of_ne_nil hs
  by_cases hb : 128 ≤ b
  · exact .inr (.inr (.inr ⟨.neg 2, by simp, by rw [utf8StrLoop, if_pos hb]⟩))
  by_cases hpct : b = 0x25
  · subst hpct
    rcases s with - | ⟨d1, - | ⟨d2, s⟩⟩
    · exact .inr (.inr (.inr ⟨.neg 1, by simp, by rw [utf8StrLoop, if_neg hb]; rfl⟩))
    · exact .inr (.inr (.inr ⟨.neg 1, by simp, by rw [utf8StrLoop, if_neg hb]; rfl⟩))
    · by_cases he : (⟨d1, d2⟩ : Escape).Loose
      · exact utf8StrLoop_front_escape he s out
      · rcases hexByte_of_not_loose (.neg 2) he s with hbad | herr
        · exact .inr (.inl ⟨d1, d2, s, hbad, .inl rfl⟩)
        · refine .inr (.inr (.inr ⟨.neg 2, by simp, ?_⟩))
          rw [utf8StrLoop, if_neg hb, if_pos rfl, if_neg (by simp), herr]
  · by_cases hfull : size ≤ out.length
    · exact .inr (.inr (.inl ⟨hfull, s, .inl ⟨b, UInt8.not_le.1 hb, hpct, rfl⟩⟩))
    · exact .inl ⟨.literal b, s, ⟨⟨UInt8.not_le.1 hb, hpct⟩, by simp [EscUnit.escapes]⟩,
        Nat.not_le.1 hfull, rfl⟩

/-! ### The GBK decoder at the front of its input -/

/-- The GBK decoder with `out` written. -/
def gbkStrLoop (size : ℕ) (pb out : List UInt8) : Except ConvStop Decoded :=
  (loop escGbkReader (putGbkChar size) pb out).bind fun out =>
    (storeAt size out.length 0).map fun _ => ⟨out.length, out⟩

theorem strEscDecode_gbk (str : List UInt8) (size : ℕ) :
    strEscDecode str .gbk size = gbkStrLoop size str [] := by
  unfold strEscDecode gbkStrToUint gbkStrLoop
  cases loop escGbkReader (putGbkChar size) str [] with
  | error e => rfl
  | ok out =>
    change ((storeAt size out.length 0 >>= fun _ => pure out).map _) =
      (storeAt size out.length 0).map _
    cases storeAt size out.length 0 <;> rfl

theorem inGbk_iff (b0 b1 : UInt8) :
    InGbk b0 b1 ↔ (gbk2Chk b0 b1 || gbk3Chk b0 b1 || gbk4Chk b0 b1) = true ∨
      (gbk1Chk b0 b1 || gbk5Chk b0 b1) = true := by
  simp only [InGbk, Bool.or_eq_true]
  tauto

/-- The character at the front, when it is an escape. -/
theorem getEscGbk_percent (d1 d2 : UInt8) (s : List UInt8) :
    getEscGbk (0x25 :: d1 :: d2 :: s) =
      (hexByte .code (d1 :: d2 :: s)).bind fun byte0 =>
        if byte0 &&& 0x80 = 0x80 then getEscPair byte0 s else .ok (.single byte0, s) :=
  rfl

theorem getEscGbk_escape {lead : Escape} (h : lead.Loose) (s : List UInt8) :
    getEscGbk (lead.text ++ s) =
      if lead.byte < 0x80 then .ok (.single lead.byte, s) else getEscPair lead.byte s := by
  change getEscGbk (0x25 :: lead.d1 :: lead.d2 :: s) = _
  rw [getEscGbk_percent, hexByte_of_loose _ h, Except.bind]
  simp only [and_80_iff, ite_not]

/-- The second byte, when three characters are there and the first is `%`. -/
theorem getEscPair_cons (byte0 d1 d2 : UInt8) (s : List UInt8) :
    getEscPair byte0 (0x25 :: d1 :: d2 :: s) =
      (hexByte .code (d1 :: d2 :: s)).bind fun byte1 =>
        if gbk2Chk byte0 byte1 || gbk3Chk byte0 byte1 || gbk4Chk byte0 byte1 then
          .ok (.double byte0 byte1, s)
        else if gbk1Chk byte0 byte1 || gbk5Chk byte0 byte1 then .ok (.double byte0 byte1, s)
        else .error .code :=
  rfl

theorem getEscPair_of_inGbk {byte0 : UInt8} {e : Escape} (h : e.Loose) (hpair : InGbk byte0 e.byte)
    (s : List UInt8) : getEscPair byte0 (e.text ++ s) = .ok (.double byte0 e.byte, s) := by
  change getEscPair byte0 (0x25 :: e.d1 :: e.d2 :: s) = _
  rw [getEscPair_cons, hexByte_of_loose _ h, Except.bind]
  rcases (inGbk_iff _ _).1 hpair with hpair | hpair
  · rw [if_pos hpair]
  · rw [if_pos hpair, ite_self]

theorem getEscPair_of_not_inGbk {byte0 : UInt8} {e : Escape} (h : e.Loose)
    (hpair : ¬ InGbk byte0 e.byte) (s : List UInt8) :
    getEscPair byte0 (e.text ++ s) = .error .code := by
  rw [inGbk_iff, not_or] at hpair
  change getEscPair byte0 (0x25 :: e.d1 :: e.d2 :: s) = _
  rw [getEscPair_cons, hexByte_of_loose _ h, Except.bind, if_neg hpair.1, if_neg hpair.2]

theorem putGbkChar_single {size num : ℕ} (b : UInt8) (h : num < size) :
    putGbkChar size num (.single b) = .ok [b] := by
  simp only [putGbkChar]
  rw [if_neg (by omega), storeAt_of_lt h]
  rfl

theorem putGbkChar_double {size num : ℕ} (b0 b1 : UInt8) (h : num + 2 < size) :
    putGbkChar size num (.double b0 b1) = .ok [b0, b1] := by
  simp only [putGbkChar]
  rw [if_neg (by omega), storeAt_of_lt (by omega), storeAt_of_lt (by omega)]
  rfl

theorem gbkStrLoop_of_get {size : ℕ} {c : GbkChar} {s rest out cells : List UInt8}
    (hget : getEscGbk s = .ok (c, rest)) (hput : putGbkChar size out.length c = .ok cells) :
    gbkStrLoop size s out = gbkStrLoop size rest (out ++ cells) := by
  have hloop : loop escGbkReader (putGbkChar size) s out = _ := loop_of_get hget hput
  rw [gbkStrLoop, hloop]
  rfl

theorem gbkStrLoop_of_error {size : ℕ} {b : UInt8} {s : List UInt8} {e : ConvStop}
    (hget : getEscGbk (b :: s) = .error e) (out : List UInt8) :
    gbkStrLoop size (b :: s) out = .error e := by
  have hloop : loop escGbkReader (putGbkChar size) (b :: s) out = .error e :=
    loop_of_get_error hget out
  rw [gbkStrLoop, hloop]
  rfl

/-- The character of a unit. -/
theorem getEscGbk_unit {u : EscUnit} (h : u.Loose .gbk) (rest : List UInt8) :
    ∃ c, getEscGbk (u.text ++ rest) = .ok (c, rest) ∧
      ((∃ b, c = .single b ∧ u.bytes = [b]) ∨ ∃ b0 b1, c = .double b0 b1 ∧ u.bytes = [b0, b1]) := by
  obtain ⟨hframe, hloose⟩ := h
  cases u with
  | literal b =>
    obtain ⟨hlt, hne⟩ := hframe
    have hread : getEscGbk (b :: rest) =
        if 128 ≤ b then .error .nasc
        else if b = 0x25 then _
        else .ok (.single b, rest) := rfl
    refine ⟨.single b, ?_, .inl ⟨b, rfl, rfl⟩⟩
    rw [EscUnit.text, List.singleton_append, hread, if_neg (UInt8.not_le.2 hlt), if_neg hne]
  | escaped lead trail =>
    obtain ⟨hlead, htrail⟩ := List.forall_mem_cons.1 hloose
    obtain ⟨hn, hpair⟩ := hframe
    have hget := getEscGbk_escape hlead (trail.flatMap Escape.text ++ rest)
    rw [EscUnit.text, List.append_assoc, hget]
    by_cases hlt : lead.byte < 0x80
    · rw [trailing, if_pos hlt, Option.some.injEq] at hn
      obtain rfl := List.length_eq_zero_iff.1 hn.symm
      rw [if_pos hlt]
      exact ⟨_, rfl, .inl ⟨lead.byte, rfl, rfl⟩⟩
    · rw [trailing, if_neg hlt, Option.some.injEq] at hn
      obtain ⟨e, rfl⟩ := List.length_eq_one_iff.1 hn.symm
      rw [List.forall_mem_singleton] at htrail
      rw [if_neg hlt, List.flatMap_singleton,
        getEscPair_of_inGbk htrail (hpair rfl e (List.mem_singleton_self e))]
      exact ⟨_, rfl, .inr ⟨lead.byte, e.byte, rfl, rfl⟩⟩

theorem gbkStrLoop_unit {size : ℕ} {u : EscUnit} {rest out : List UInt8} (h : u.Loose .gbk)
    (hroom : u.FitsAt .gbk size out.length) :
    gbkStrLoop size (u.text ++ rest) out = gbkStrLoop size rest (out ++ u.bytes) := by
  obtain ⟨hle, hlt⟩ := hroom
  obtain ⟨c, hget, ⟨b, rfl, hu⟩ | ⟨b0, b1, rfl, hu⟩⟩ := getEscGbk_unit h rest
  · rw [hu] at hle ⊢
    exact gbkStrLoop_of_get hget (putGbkChar_single b hle)
  · rw [hu] at hlt ⊢
    exact gbkStrLoop_of_get hget (putGbkChar_double b0 b1 (hlt rfl le_rfl))

/-- A unit that does not fit is refused. -/
theorem gbkStrLoop_full {size : ℕ} {u : EscUnit} (rest : List UInt8) {out : List UInt8}
    (h : u.Loose .gbk) (hroom : ¬u.FitsAt .gbk size out.length) :
    gbkStrLoop size (u.text ++ rest) out = .error .obuf := by
  obtain ⟨c, hget, hc⟩ := getEscGbk_unit h rest
  have hput : putGbkChar size out.length c = .error .obuf := by
    rcases hc with ⟨b, rfl, hu⟩ | ⟨b0, b1, rfl, hu⟩
    · simp only [EscUnit.FitsAt, hu, List.length_singleton] at hroom
      exact if_pos (by omega)
    · simp only [EscUnit.FitsAt, hu, List.length_cons, List.length_nil] at hroom
      exact if_pos (by omega)
  have hloop : loop escGbkReader (putGbkChar size) (u.text ++ rest) out = .error .obuf := by
    rw [loop_eq_feed, Reader.codes_of_ok hget, feed, hput]
    rfl
  rw [gbkStrLoop, hloop]
  rfl

theorem gbkStrLoop_bad {size : ℕ} {s : List UInt8} (h : BadFront .gbk s) (out : List UInt8) :
    gbkStrLoop size s out = .error .oob := by
  obtain ⟨d1, d2, rest, hbad, rfl | ⟨lead, trail, n, hlead, htrail, hn, hlt, hlen, rfl⟩⟩ := h
  · exact gbkStrLoop_of_error (by rw [getEscGbk_percent, hexByte_of_beside _ hbad]; rfl) out
  · rw [trailing, Option.some.injEq] at hn
    split_ifs at hn with hbyte
    · omega
    · obtain rfl := List.length_eq_zero_iff.1 (show trail.length = 0 by omega)
      have hget := getEscGbk_escape hlead (0x25 :: d1 :: d2 :: rest)
      rw [if_neg hbyte, getEscPair_cons, hexByte_of_beside _ hbad] at hget
      rw [List.flatMap_nil, List.append_nil]
      exact gbkStrLoop_of_error hget out

/-- The second byte of a pair: it is there, or it is beside the table, or it is refused. -/
theorem getEscPair_cases (byte0 : UInt8) (s : List UInt8) :
    (∃ (e : Escape) (rest : List UInt8), e.Loose ∧ InGbk byte0 e.byte ∧ s = e.text ++ rest) ∨
      (∃ (d1 d2 : UInt8) (rest : List UInt8), BesideTable d1 d2 ∧ s = 0x25 :: d1 :: d2 :: rest) ∨
        ∃ e, e ≠ .oob ∧ getEscPair byte0 s = .error e := by
  match s with
  | [] => exact .inr (.inr ⟨.idat, by simp, rfl⟩)
  | [_] => exact .inr (.inr ⟨.idat, by simp, rfl⟩)
  | [_, _] => exact .inr (.inr ⟨.idat, by simp, rfl⟩)
  | c :: d1 :: d2 :: s =>
    by_cases hc : c = 0x25
    · subst hc
      by_cases he : (⟨d1, d2⟩ : Escape).Loose
      · by_cases hpair : InGbk byte0 (⟨d1, d2⟩ : Escape).byte
        · exact .inl ⟨⟨d1, d2⟩, s, he, hpair, rfl⟩
        · exact .inr (.inr ⟨.code, by simp, getEscPair_of_not_inGbk he hpair s⟩)
      · rcases hexByte_of_not_loose .code he s with hbad | herr
        · exact .inr (.inl ⟨d1, d2, s, hbad, rfl⟩)
        · exact .inr (.inr ⟨.code, by simp, by rw [getEscPair_cons, herr]; rfl⟩)
    · have hread : getEscPair byte0 (c :: d1 :: d2 :: s) =
          if c ≠ 0x25 then .error .code else _ := rfl
      exact .inr (.inr ⟨.code, by simp, hread.trans (if_pos hc)⟩)

/-- **The GBK decoder at the front of a text**: a unit, or an escape beside the table, or the text
is refused. -/
theorem getEscGbk_cases {s : List UInt8} (hs : s ≠ []) :
    (∃ (u : EscUnit) (rest : List UInt8), u.Loose .gbk ∧ s = u.text ++ rest) ∨ BadFront .gbk s ∨
      ∃ e, e ≠ .oob ∧ getEscGbk s = .error e := by
  match s, hs with
  | b :: s, _ =>
    by_cases hb : 128 ≤ b
    · have hread : getEscGbk (b :: s) = if 128 ≤ b then .error .nasc else _ := rfl
      exact .inr (.inr ⟨.nasc, by simp, hread.trans (if_pos hb)⟩)
    by_cases hpct : b = 0x25
    · subst hpct
      match s with
      | [] => exact .inr (.inr ⟨.idat, by simp, rfl⟩)
      | [_] => exact .inr (.inr ⟨.idat, by simp, rfl⟩)
      | d1 :: d2 :: s =>
        by_cases he : (⟨d1, d2⟩ : Escape).Loose
        · have hget : getEscGbk (0x25 :: d1 :: d2 :: s) = _ := getEscGbk_escape he s
          by_cases hbyte : (⟨d1, d2⟩ : Escape).byte < 0x80
          · exact .inl ⟨.escaped ⟨d1, d2⟩ [], s, ⟨⟨by rw [trailing, if_pos hbyte]; rfl, by simp⟩,
              List.forall_mem_singleton.2 he⟩, rfl⟩
          rw [if_neg hbyte] at hget
          rcases getEscPair_cases (⟨d1, d2⟩ : Escape).byte s with
            ⟨e, rest, he', hpair, rfl⟩ | ⟨d3, d4, rest, hbad, rfl⟩ | ⟨e, hne, herr⟩
          · exact .inl ⟨.escaped ⟨d1, d2⟩ [e], rest,
              ⟨⟨by rw [trailing, if_neg hbyte]; rfl, fun _ => List.forall_mem_singleton.2 hpair⟩,
                List.forall_mem_cons.2 ⟨he, List.forall_mem_singleton.2 he'⟩⟩, by
              rw [EscUnit.text, List.flatMap_singleton]
              rfl⟩
          · exact .inr (.inl ⟨d3, d4, rest, hbad, .inr ⟨⟨d1, d2⟩, [], 1, he, by simp,
              by rw [trailing, if_neg hbyte], by simp, by simp, rfl⟩⟩)
          · exact .inr (.inr ⟨e, hne, hget.trans herr⟩)
        · rcases hexByte_of_not_loose .code he s with hbad | herr
          · exact .inr (.inl ⟨d1, d2, s, hbad, .inl rfl⟩)
          · exact .inr (.inr ⟨.code, by simp, by rw [getEscGbk_percent, herr]; rfl⟩)
    · exact .inl ⟨.literal b, s, ⟨⟨UInt8.not_le.1 hb, hpct⟩, by simp [EscUnit.escapes]⟩, rfl⟩

theorem gbkStrLoop_front {size : ℕ} {s : List UInt8} (hs : s ≠ []) (out : List UInt8) :
    (∃ (u : EscUnit) (rest : List UInt8), u.Loose .gbk ∧ u.FitsAt .gbk size out.length ∧
        s = u.text ++ rest) ∨
      BadAt .gbk size out.length s ∨ ∃ e, e ≠ .oob ∧ gbkStrLoop size s out = .error e := by
  rcases getEscGbk_cases hs with ⟨u, rest, hu, rfl⟩ | hbad | ⟨e, hne, herr⟩
  · by_cases hfits : u.FitsAt .gbk size out.length
    · exact .inl ⟨u, rest, hu, hfits, rfl⟩
    · exact .inr (.inr ⟨.obuf, by simp, gbkStrLoop_full rest hu hfits⟩)
  · exact .inr (.inl (badAt_gbk_iff.2 hbad))
  · obtain ⟨b, s, rfl⟩ := List.exists_cons_of_ne_nil hs
    exact .inr (.inr ⟨e, hne, gbkStrLoop_of_error herr out⟩)

/-! ### Both decoders -/

/-- The decoder with `out` written. -/
def escLoop (codeType : CodeType) (size : ℕ) (pb out : List UInt8) : Except ConvStop Decoded :=
  match codeType with
  | .utf8 => utf8StrLoop size pb out
  | .gbk => gbkStrLoop size pb out
  | _ => .error (.neg 1)

theorem strEscDecode_eq (str : List UInt8) (codeType : CodeType) (size : ℕ) :
    strEscDecode str codeType size = escLoop codeType size str [] := by
  cases codeType with
  | gbk => exact strEscDecode_gbk str size
  | _ => rfl

theorem escLoop_nil {codeType : CodeType} (hct : codeType = .utf8 ∨ codeType = .gbk) {size : ℕ}
    {out : List UInt8} (h : out.length < size) :
    escLoop codeType size [] out = .ok ⟨out.length, out⟩ := by
  rcases hct with rfl | rfl
  · change utf8StrLoop size [] out = _
    rw [utf8StrLoop, storeAt_of_lt h]
    rfl
  · change gbkStrLoop size [] out = _
    rw [gbkStrLoop, loop_nil, Except.bind, storeAt_of_lt h]
    rfl

theorem EscUnit.length_bytes_le (u : EscUnit) : u.bytes.length ≤ u.text.length := by
  cases u with
  | literal b => exact le_rfl
  | escaped lead trail =>
    simp only [bytes, text, List.length_cons, List.length_map, List.length_append,
      length_flatMap_text, Escape.text, List.length_nil]
    omega

section Decoder

variable {codeType : CodeType} {size : ℕ}

theorem escLoop_unit (hct : codeType = .utf8 ∨ codeType = .gbk) {u : EscUnit}
    {rest out : List UInt8} (h : u.Loose codeType) (hroom : u.FitsAt codeType size out.length) :
    escLoop codeType size (u.text ++ rest) out = escLoop codeType size rest (out ++ u.bytes) := by
  rcases hct with rfl | rfl
  · exact utf8StrLoop_unit h hroom.1
  · exact gbkStrLoop_unit h hroom

theorem escLoop_bad (hct : codeType = .utf8 ∨ codeType = .gbk) {s out : List UInt8}
    (h : BadAt codeType size out.length s) : escLoop codeType size s out = .error .oob := by
  rcases hct with rfl | rfl
  · exact utf8StrLoop_bad h
  · exact gbkStrLoop_bad h.badFront out

/-- **The decoders at the front of a text**, with any number of bytes written. -/
theorem escLoop_front (hct : codeType = .utf8 ∨ codeType = .gbk) {s : List UInt8} (hs : s ≠ [])
    (out : List UInt8) :
    (∃ (u : EscUnit) (rest : List UInt8), u.Loose codeType ∧
        u.FitsAt codeType size out.length ∧ s = u.text ++ rest) ∨
      BadAt codeType size out.length s ∨
        (codeType = .utf8 ∧ ReturnsEarly size out.length s) ∨
          ∃ e, e ≠ .oob ∧ escLoop codeType size s out = .error e := by
  rcases hct with rfl | rfl
  · rcases utf8StrLoop_front hs out with ⟨u, rest, hu, hfits, hs⟩ | hbad | hearly | herr
    · exact .inl ⟨u, rest, hu, ⟨hfits, fun h => (by cases h)⟩, hs⟩
    · exact .inr (.inl hbad)
    · exact .inr (.inr (.inl ⟨rfl, hearly⟩))
    · exact .inr (.inr (.inr herr))
  · rcases gbkStrLoop_front hs out with hunit | hbad | herr
    · exact .inl hunit
    · exact .inr (.inl hbad)
    · exact .inr (.inr (.inr herr))

/-- **The decoders take units off the front of the text.** -/
theorem takesUnits (hct : codeType = .utf8 ∨ codeType = .gbk) (size : ℕ) :
    TakesUnits (escLoop codeType size) EscUnit.text EscUnit.bytes (EscUnit.Loose codeType)
      (BadFront codeType) .oob size where
  unit h hroom := escLoop_unit hct h ⟨hroom.le, fun _ _ => hroom⟩
  nil h := ⟨_, escLoop_nil hct h⟩
  bad_stop h hroom := escLoop_bad hct (h.badAt hroom)
  front {s out} hs hroom := by
    rcases @escLoop_front codeType size hct s hs out with ⟨u, rest, hu, -, hs⟩ | hbad | ⟨-, hfull, -⟩ | herr
    · exact .inl ⟨u, rest, hu, hs⟩
    · exact .inr (.inl hbad.badFront)
    · omega
    · exact .inr (.inr herr)
  short _ := EscUnit.length_bytes_le _
  text_ne_nil := by
    rintro (b | ⟨lead, trail⟩) - h <;> cases h

end Decoder

end F1Goal
