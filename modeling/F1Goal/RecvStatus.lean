import F1Goal.Receive

/-!
# What a receive status says (`f1g_accessor.c`)

The status of `nonblk_recvfrom` is compared with the outcomes of the `recvfrom` calls that it has
made. Each bit says what it should, except after a read that has failed: there `*recv_stat` is
anded with `RECV_ERR`, a bit that is never set, so that all bits are cleared
(`recvStatus_faithful_iff`).
-/

namespace F1Goal

/-- The outcomes of the first `n` calls. -/
def firstCalls : ℕ → List RecvRes → List RecvRes
  | 0, _ => []
  | n + 1, [] => .again :: firstCalls n []
  | n + 1, r :: rx => r :: firstCalls n rx

/-- What the calls return: each takes as many of the bytes that are waiting as there is room for. -/
def callResults (room : ℕ) : List RecvRes → List RecvRes
  | .data bs :: rx => .data (bs.take room) :: callResults (room - (bs.take room).length) rx
  | .again :: rx => .again :: callResults room rx
  | .fail :: rx => .fail :: callResults room rx
  | [] => []

/-- The number of bytes that calls have returned. -/
def bytesReceived : List RecvRes → ℕ
  | .data bs :: rx => bs.length + bytesReceived rx
  | .again :: rx => bytesReceived rx
  | .fail :: rx => bytesReceived rx
  | [] => 0

/-- What the calls of a receive have returned. -/
def callsMade (b : Buffer) (rx : List RecvRes) : List RecvRes :=
  callResults b.size.toNat (firstCalls (nonblkRecvfrom b rx).2.2 rx)

/-- **A receive status is faithful**: the loop ends, the length is the number of bytes received, and
each bit says of the calls made what it stands for. -/
structure FaithfulStatus (b : Buffer) (rx : List RecvRes) : Prop where
  ends : (nonblkRecvfrom b rx).2.2 ≤ b.size.toNat + 3
  len : (nonblkRecvfrom b rx).2.1.len = bytesReceived (callsMade b rx)
  err : (nonblkRecvfrom b rx).1.err = true ∧ (nonblkRecvfrom b rx).1.ok = false ↔
    .fail ∈ callsMade b rx
  ok : (nonblkRecvfrom b rx).1.ok = true ↔
    0 < bytesReceived (callsMade b rx) ∧ .fail ∉ callsMade b rx
  disc : (nonblkRecvfrom b rx).1.disc = true ↔ .data [] ∈ callsMade b rx
  timeout : (nonblkRecvfrom b rx).1.timeout = true ↔ 3 ≤ putOffs (callsMade b rx)
  memLack : (nonblkRecvfrom b rx).1.memLack = true ↔ b.size ≤ bytesReceived (callsMade b rx)

/-- A read fails while there is room for `room` bytes, before `tries` reads have been put off and
before the peer has closed. -/
def FailReached (room : ℤ) (tries : ℕ) (rx : List RecvRes) : Prop :=
  ∃ before after, rx = before ++ .fail :: after ∧ .data [] ∉ before ∧ putOffs before < tries ∧
    bytesReceived before < room

/-! ### One outcome more -/

theorem putOffs_cons (r : RecvRes) (rx : List RecvRes) :
    putOffs (r :: rx) = putOffs rx + if r = .again then 1 else 0 := by
  rw [putOffs, putOffs, List.count_cons]
  simp only [beq_iff_eq]

theorem not_failReached_nil (room : ℤ) (tries : ℕ) : ¬FailReached room tries [] := by
  rintro ⟨before, after, h, -⟩
  cases before <;> cases h

theorem failReached_fail (room : ℤ) (tries : ℕ) (rx : List RecvRes) :
    FailReached room tries (.fail :: rx) ↔ 0 < room ∧ 0 < tries := by
  constructor
  · rintro ⟨before, after, -, -, htries, hroom⟩
    exact ⟨by omega, by omega⟩
  · rintro ⟨hroom, htries⟩
    exact ⟨[], rx, rfl, List.not_mem_nil, htries, hroom⟩

theorem failReached_again (room : ℤ) (tries : ℕ) (rx : List RecvRes) :
    FailReached room (tries + 1) (.again :: rx) ↔ FailReached room tries rx := by
  constructor
  · rintro ⟨_ | ⟨r, before⟩, after, h, hdisc, htries, hroom⟩
    · cases h
    · cases h
      rw [putOffs_cons, if_pos rfl] at htries
      exact ⟨before, after, rfl, fun hm => hdisc (List.mem_cons_of_mem _ hm), by omega, hroom⟩
  · rintro ⟨before, after, rfl, hdisc, htries, hroom⟩
    refine ⟨.again :: before, after, rfl, by simpa using hdisc, ?_, hroom⟩
    rw [putOffs_cons, if_pos rfl]
    omega

theorem failReached_data (room : ℤ) (tries : ℕ) (bs : List UInt8) (rx : List RecvRes) :
    FailReached room tries (.data bs :: rx) ↔
      bs ≠ [] ∧ FailReached (room - bs.length) tries rx := by
  constructor
  · rintro ⟨_ | ⟨r, before⟩, after, h, hdisc, htries, hroom⟩
    · cases h
    · cases h
      rw [putOffs_cons, if_neg (by simp)] at htries
      rw [bytesReceived] at hroom
      push_cast at hroom
      refine ⟨?_, before, after, rfl, fun hm => hdisc (List.mem_cons_of_mem _ hm), htries,
        by omega⟩
      rintro rfl
      exact hdisc (List.mem_cons_self ..)
  · rintro ⟨hbs, before, after, rfl, hdisc, htries, hroom⟩
    refine ⟨.data bs :: before, after, rfl, ?_, ?_, ?_⟩
    · simpa [hbs] using hdisc
    · rw [putOffs_cons, if_neg (by simp)]
      exact htries
    · rw [bytesReceived]
      push_cast
      omega

/-- Without room no read is made. -/
theorem not_failReached_full {room : ℤ} (h : room ≤ 0) (tries : ℕ) (rx : List RecvRes) :
    ¬FailReached room tries rx := by
  rintro ⟨before, after, -, -, -, hroom⟩
  omega

/-! ### The loop -/

/-- The status of calls that come after `wait` reads that were put off, and after a byte if `ok`. -/
def statusOf (ok : Bool) (wait : ℕ) (made : List RecvRes) : RecvStat :=
  if .fail ∈ made then {}
  else
    { ok := ok || decide (0 < bytesReceived made)
      timeout := decide (3 ≤ wait + putOffs made)
      disc := decide (.data [] ∈ made) }

/-- What the loop has when it ends, told by the calls it has made. -/
structure LoopEnd (len : ℤ) (wait : ℕ) (ok : Bool) (b : Buffer) (rx made : List RecvRes)
    (r : Received) : Prop where
  calls : r.calls ≤ (b.size - len).toNat + (3 - wait)
  len_eq : r.len = len + bytesReceived made
  stat : r.stat = statusOf ok wait made
  fail : .fail ∈ made ↔ FailReached (b.size - len) (3 - wait) rx

/-- The calls that the loop makes. -/
def recvMade (len : ℤ) (wait : ℕ) (st : RecvStat) (b : Buffer) (rx : List RecvRes) : List RecvRes :=
  callResults (b.size - len).toNat (firstCalls (recvLoop len wait st b rx).calls rx)

theorem recvLoop_full {len : ℤ} {b : Buffer} (h : b.size ≤ len) (wait : ℕ) (st : RecvStat)
    (rx : List RecvRes) : recvLoop len wait st b rx = ⟨len, st, b, 0⟩ := by
  cases rx with
  | nil => rw [recvLoop, if_pos h]
  | cons r rx => cases r <;> rw [recvLoop, if_pos h]

theorem firstCalls_nil (n : ℕ) : firstCalls n [] = List.replicate n .again := by
  induction n with
  | zero => rfl
  | succ n ih => rw [firstCalls, ih, List.replicate_succ]

theorem callResults_replicate (room n : ℕ) :
    callResults room (List.replicate n .again) = List.replicate n .again := by
  induction n with
  | zero => rfl
  | succ n ih => rw [List.replicate_succ, callResults, ih]

theorem statusOf_nil (ok : Bool) {wait : ℕ} (h : wait < 3) : statusOf ok wait [] = { ok := ok } := by
  have hwait : ¬3 ≤ wait + putOffs [] := by
    change ¬3 ≤ wait
    omega
  simp [statusOf, bytesReceived, hwait]

/-- Without room the loop makes no call. -/
theorem loopEnd_full {len : ℤ} {b : Buffer} (h : b.size ≤ len) {wait : ℕ} (hwait : wait < 3)
    (ok : Bool) (rx : List RecvRes) :
    LoopEnd len wait ok b rx (recvMade len wait { ok := ok } b rx)
      (recvLoop len wait { ok := ok } b rx) := by
  have hmade : recvMade len wait { ok := ok } b rx = [] := by
    rw [recvMade, recvLoop_full h]
    cases rx <;> rfl
  rw [hmade, recvLoop_full h]
  refine ⟨Nat.zero_le _, (add_zero len).symm, (statusOf_nil ok hwait).symm, ?_⟩
  exact iff_of_false List.not_mem_nil (not_failReached_full (by omega) _ _)

/-- Without outcomes left the loop makes calls that are put off. -/
theorem loopEnd_nil {len : ℤ} {b : Buffer} (h : len < b.size) {wait : ℕ} (hwait : wait < 3)
    (ok : Bool) :
    LoopEnd len wait ok b [] (recvMade len wait { ok := ok } b [])
      (recvLoop len wait { ok := ok } b []) := by
  have hloop : recvLoop len wait { ok := ok } b [] =
      ⟨len, { ok := ok, timeout := true }, b, 3 - wait⟩ := by
    rw [recvLoop, if_neg (not_le.2 h)]
  have hmade : recvMade len wait { ok := ok } b [] = List.replicate (3 - wait) .again := by
    rw [recvMade, hloop, firstCalls_nil, callResults_replicate]
  have hbytes : ∀ n, bytesReceived (List.replicate n .again) = 0 := by
    intro n
    induction n with
    | zero => rfl
    | succ n ih => rw [List.replicate_succ, bytesReceived, ih]
  have hwaits : wait + putOffs (List.replicate (3 - wait) .again) = 3 := by
    rw [putOffs, List.count_replicate_self]
    omega
  have hfail : RecvRes.fail ∉ List.replicate (3 - wait) .again := by simp
  rw [hmade, hloop]
  refine ⟨Nat.le_add_left _ _, by rw [hbytes]; exact (add_zero len).symm, ?_,
    iff_of_false hfail (not_failReached_nil _ _)⟩
  rw [statusOf, if_neg hfail, hbytes, hwaits]
  simp

theorem statusOf_data {got : List UInt8} (h : got ≠ []) (ok : Bool) (wait : ℕ)
    (made : List RecvRes) : statusOf ok wait (.data got :: made) = statusOf true wait made := by
  have hpos : 0 < got.length + bytesReceived made :=
    Nat.add_pos_left (List.length_pos_iff.2 h) _
  simp [statusOf, putOffs_cons, bytesReceived, hpos, h.symm]

theorem statusOf_again (ok : Bool) (wait : ℕ) (made : List RecvRes) :
    statusOf ok wait (.again :: made) = statusOf ok (wait + 1) made := by
  have hwait : wait + (putOffs made + 1) = wait + 1 + putOffs made := by omega
  by_cases hfail : RecvRes.fail ∈ made
  · rw [statusOf, if_pos (List.mem_cons_of_mem _ hfail), statusOf, if_pos hfail]
  · rw [statusOf, if_neg (by simpa using hfail), statusOf, if_neg hfail]
    have hdisc : decide (.data [] ∈ RecvRes.again :: made) = decide (.data [] ∈ made) := by simp
    rw [hdisc, putOffs_cons, if_pos rfl, hwait]
    rfl

section Turn

variable {len : ℤ} {wait : ℕ} {ok : Bool} {b b' : Buffer} {rx made : List RecvRes} {r : Received}

/-- A turn in which bytes are taken. -/
theorem LoopEnd.data {bs got : List UInt8} (hroom : len < b.size)
    (hgot : got = bs.take (b.size - len).toNat) (hne : got ≠ []) (hsize : b'.size = b.size)
    (h : LoopEnd (len + got.length) wait true b' rx made r) :
    LoopEnd len wait ok b (.data bs :: rx) (.data got :: made) r.call := by
  have hpos : 0 < got.length := List.length_pos_iff.2 hne
  have hlen : got.length = min (b.size - len).toNat bs.length := by rw [hgot, List.length_take]
  have hcalls := h.calls
  rw [hsize] at hcalls
  refine ⟨?_, ?_, ?_, ?_⟩
  · change r.calls + 1 ≤ _
    omega
  · rw [Received.call_len, h.len_eq, bytesReceived]
    push_cast
    ring
  · rw [statusOf_data hne]
    exact h.stat
  · have hbs : bs ≠ [] := by
      rintro rfl
      rw [List.take_nil] at hgot
      exact hne hgot
    rw [List.mem_cons, or_iff_right (by simp), h.fail, hsize, failReached_data, and_iff_right hbs]
    rcases Nat.le_total bs.length (b.size - len).toNat with hle | hge
    · rw [hlen, Nat.min_eq_right hle]
      congr! 1
      ring
    · -- the buffer is full
      exact iff_of_false (not_failReached_full (by omega) _ _) (not_failReached_full (by omega) _ _)

/-- A turn that is put off. -/
theorem LoopEnd.again (hwait : wait < 3) (h : LoopEnd len (wait + 1) ok b rx made r) :
    LoopEnd len wait ok b (.again :: rx) (.again :: made) r.call := by
  have hcalls := h.calls
  have htries : 3 - wait = 3 - (wait + 1) + 1 := by omega
  refine ⟨?_, h.len_eq, ?_, ?_⟩
  · change r.calls + 1 ≤ _
    omega
  · rw [statusOf_again]
    exact h.stat
  · rw [List.mem_cons, or_iff_right (by simp), h.fail, htries, failReached_again]

/-- The peer has closed. -/
theorem loopEnd_closed (hroom : len < b.size) (hwait : wait < 3) :
    LoopEnd len wait ok b (.data [] :: rx) [.data []] ⟨len, { ok := ok, disc := true }, b, 1⟩ := by
  refine ⟨?_, (add_zero len).symm, ?_, iff_of_false (by simp) ?_⟩
  · change 1 ≤ _
    omega
  · simp [statusOf, bytesReceived, putOffs, hwait]
  · rw [failReached_data]
    exact fun h => h.1 rfl

/-- The third read that is put off. -/
theorem loopEnd_timeout (hwait : wait < 3) (hlast : 3 ≤ wait + 1) :
    LoopEnd len wait ok b (.again :: rx) [.again] ⟨len, { ok := ok, timeout := true }, b, 1⟩ := by
  have htries : 3 - wait = 0 + 1 := by omega
  refine ⟨?_, (add_zero len).symm, ?_, iff_of_false (by simp) ?_⟩
  · change 1 ≤ _
    omega
  · simp [statusOf, bytesReceived, putOffs, hlast]
  · rw [htries, failReached_again]
    rintro ⟨before, after, -, -, hbefore, -⟩
    exact Nat.not_lt_zero _ hbefore

/-- A read that fails. -/
theorem loopEnd_failed (hroom : len < b.size) (hwait : wait < 3) :
    LoopEnd len wait ok b (.fail :: rx) [.fail] ⟨len, {}, b, 1⟩ := by
  refine ⟨?_, (add_zero len).symm, ?_, iff_of_true (by simp) ?_⟩
  · change 1 ≤ _
    omega
  · simp [statusOf]
  · rw [failReached_fail]
    omega

end Turn

section Made

variable {len len' : ℤ} {wait wait' : ℕ} {st st' : RecvStat} {b b' : Buffer} {bs got : List UInt8}
  {r : RecvRes} {rx : List RecvRes}

/-- The calls of a turn that is not the last one. -/
theorem recvMade_cons
    (hloop : recvLoop len wait st b (r :: rx) = (recvLoop len' wait' st' b' rx).call) :
    recvMade len wait st b (r :: rx) =
      callResults (b.size - len).toNat (r :: firstCalls (recvLoop len' wait' st' b' rx).calls rx) := by
  rw [recvMade, hloop]
  rfl

/-- The call of the last turn. -/
theorem recvMade_last (h : (recvLoop len wait st b (r :: rx)).calls = 1) :
    recvMade len wait st b (r :: rx) = callResults (b.size - len).toNat [r] := by
  rw [recvMade, h]
  rfl

theorem recvMade_data (hroom : len < b.size) (hgot : got = bs.take (b.size - len).toNat)
    (hne : got ≠ []) :
    recvMade len wait st b (.data bs :: rx) =
      .data got :: recvMade (len + got.length) wait { st with ok := true } (b.write len got) rx := by
  rw [recvMade_cons (recvLoop_data hroom hgot hne wait st rx), callResults, ← hgot, recvMade,
    Buffer.write_size]
  congr 2
  omega

end Made

/-- **The end of the loop** is told by the calls it has made: the bytes they have returned are added
to the length, the status says what they were, and one of them is a failure when one is reached. -/
theorem recvLoop_loopEnd (rx : List RecvRes) {len : ℤ} {wait : ℕ} (hwait : wait < 3) (ok : Bool)
    (b : Buffer) :
    LoopEnd len wait ok b rx (recvMade len wait { ok := ok } b rx)
      (recvLoop len wait { ok := ok } b rx) := by
  induction rx generalizing len wait ok b with
  | nil =>
    rcases le_or_gt b.size len with hfull | hroom
    · exact loopEnd_full hfull hwait ok []
    · exact loopEnd_nil hroom hwait ok
  | cons r rx ih =>
    rcases le_or_gt b.size len with hfull | hroom
    · exact loopEnd_full hfull hwait ok (r :: rx)
    have hopen : ¬b.size ≤ len := not_le.2 hroom
    cases r with
    | data bs =>
      by_cases hbs : bs = []
      · subst hbs
        have hloop := recvLoop_closed hroom wait { ok := ok } rx
        rw [recvMade_last (by rw [hloop]), hloop, callResults, callResults, List.take_nil]
        exact loopEnd_closed hroom hwait
      · obtain ⟨got, hgot⟩ : ∃ got, got = bs.take (b.size - len).toNat := ⟨_, rfl⟩
        have hne : got ≠ [] := by
          rw [hgot, Ne, List.take_eq_nil_iff, not_or]
          exact ⟨by omega, hbs⟩
        rw [recvMade_data hroom hgot hne, recvLoop_data hroom hgot hne]
        exact (ih hwait true _).data hroom hgot hne (Buffer.write_size _ _ _)
    | again =>
      by_cases hlast : 3 ≤ wait + 1
      · have hloop : recvLoop len wait { ok := ok } b (.again :: rx) =
            ⟨len, { ok := ok, timeout := true }, b, 1⟩ := by
          rw [recvLoop, if_neg hopen, if_pos hlast]
        rw [recvMade_last (by rw [hloop]), hloop, callResults, callResults]
        exact loopEnd_timeout hwait hlast
      · have hloop : recvLoop len wait { ok := ok } b (.again :: rx) =
            (recvLoop len (wait + 1) { ok := ok } b rx).call := by
          rw [recvLoop, if_neg hopen, if_neg hlast]
        have hmade : recvMade len wait { ok := ok } b (.again :: rx) =
            .again :: recvMade len (wait + 1) { ok := ok } b rx := recvMade_cons hloop
        rw [hmade, hloop]
        exact (ih (not_le.1 hlast) ok b).again hwait
    | fail =>
      have hloop : recvLoop len wait { ok := ok } b (.fail :: rx) = ⟨len, {}, b, 1⟩ := by
        rw [recvLoop, if_neg hopen]
        rfl
      rw [recvMade_last (by rw [hloop]), hloop, callResults, callResults]
      exact loopEnd_failed hroom hwait

/-! ### The status -/

/-- What a receive leaves, the status being that of the calls. -/
theorem nonblkRecvfrom_eq (b : Buffer) (rx : List RecvRes) :
    callsMade b rx = recvMade 0 0 {} b rx ∧
      (nonblkRecvfrom b rx).2.1.len = bytesReceived (callsMade b rx) ∧
      (nonblkRecvfrom b rx).1 = { statusOf false 0 (callsMade b rx) with
        memLack := decide (b.size ≤ bytesReceived (callsMade b rx)) } := by
  have hmade : callsMade b rx = recvMade 0 0 {} b rx := by
    rw [recvMade, Int.sub_zero]
    rfl
  have h : LoopEnd 0 0 false b rx (callsMade b rx) (recvLoop 0 0 {} b rx) := by
    rw [hmade]
    exact recvLoop_loopEnd rx (by omega) false b
  have hlen : (recvLoop 0 0 {} b rx).len = bytesReceived (callsMade b rx) := by
    rw [h.len_eq, zero_add]
  refine ⟨hmade, hlen, ?_⟩
  simp only [nonblkRecvfrom, recvLoop_buf_size, hlen, h.stat]
  by_cases hfull : b.size ≤ bytesReceived (callsMade b rx)
  · rw [if_pos hfull, decide_eq_true hfull]
  · rw [if_neg hfull, decide_eq_false hfull]
    unfold statusOf
    split_ifs <;> rfl

/-- **When a receive status is faithful**: exactly when no read fails. A read that fails clears the
status. -/
theorem recvStatus_faithful_iff (b : Buffer) (rx : List RecvRes) :
    FaithfulStatus b rx ↔ ¬FailReached b.size 3 rx := by
  have h : LoopEnd 0 0 false b rx (recvMade 0 0 {} b rx) (recvLoop 0 0 {} b rx) :=
    recvLoop_loopEnd rx (by omega) false b
  have hcalls := h.calls
  have hreached := h.fail
  obtain ⟨hmade, hlen, hstat⟩ := nonblkRecvfrom_eq b rx
  rw [Int.sub_zero] at hcalls hreached
  rw [← hreached, ← hmade]
  by_cases hfail : RecvRes.fail ∈ callsMade b rx
  · -- no bit is set
    refine iff_of_false (fun hf => ?_) (not_not_intro hfail)
    have herr := (hf.err.2 hfail).1
    rw [hstat, statusOf, if_pos hfail] at herr
    cases herr
  · refine iff_of_true ⟨hcalls, hlen, ?_, ?_, ?_, ?_, ?_⟩ hfail <;>
      simp [hstat, statusOf, hfail]

/-- The connection breaks down before anything has come in: no bit is set. -/
theorem failed_read_not_faithful : ¬∀ b rx, FaithfulStatus b rx := by
  intro h
  have herr := (h ⟨.allo, 8, 0, fun _ => 0, false⟩ [.fail]).err
  exact absurd (herr.2 (by decide)) (by decide)

end F1Goal
