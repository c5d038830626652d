import F1Goal.Socket

/-!
# When a receive is over

`recvLoop` goes through a whole list of outcomes. To let other threads act between two `recvfrom`
calls, `RecvOver` says of the outcomes so far that the loop has ended, and `recvOver_snoc` when the
next outcome ends it.
-/

namespace F1Goal

/-- The loop of `nonblk_recvfrom` ends within these outcomes. -/
def RecvOver (b : Buffer) (rx : List RecvRes) : Prop := (recvLoop 0 0 {} b rx).calls ≤ rx.length

instance (b : Buffer) (rx : List RecvRes) : Decidable (RecvOver b rx) :=
  inferInstanceAs (Decidable (_ ≤ _))

/-- The room that the next `recvfrom` is offered. -/
def recvRoom (b : Buffer) (rx : List RecvRes) : ℕ := (b.size - (recvLoop 0 0 {} b rx).len).toNat

/-- The number of reads that have been put off. -/
def putOffs (rx : List RecvRes) : ℕ := rx.count .again

/-- The outcome of a `recvfrom` ends the loop when `len` bytes have been read and `wait` reads have
been put off. -/
def Ends (size len : ℤ) (wait : ℕ) : RecvRes → Prop
  | .data bs => bs = [] ∨ size ≤ len + bs.length
  | .again => 3 ≤ wait + 1
  | .fail => True

/-- The loop without outcomes left: full, or three reads are put off. -/
theorem recvLoop_nil_calls (len : ℤ) (wait : ℕ) (st : RecvStat) (b : Buffer) :
    (recvLoop len wait st b []).calls = if b.size ≤ len then 0 else 3 - wait := by
  rw [recvLoop]
  split_ifs <;> rfl

theorem recvLoop_closed {len : ℤ} {b : Buffer} (hroom : len < b.size) (wait : ℕ) (st : RecvStat)
    (rx : List RecvRes) :
    recvLoop len wait st b (.data [] :: rx) = ⟨len, { st with disc := true }, b, 1⟩ := by
  rw [recvLoop, if_neg (not_le.2 hroom)]
  simp only [List.take_nil, if_pos]

theorem recvLoop_data {len : ℤ} {b : Buffer} {bs got : List UInt8} (hroom : len < b.size)
    (hgot : got = bs.take (b.size - len).toNat) (hne : got ≠ []) (wait : ℕ) (st : RecvStat)
    (rx : List RecvRes) :
    recvLoop len wait st b (.data bs :: rx) =
      (recvLoop (len + got.length) wait { st with ok := true } (b.write len got) rx).call := by
  rw [recvLoop, if_neg (not_le.2 hroom)]
  simp only [← hgot, if_neg hne]

/-- A turn of the loop that is not its last one. -/
theorem recvLoop_turn {r : RecvRes} {rx : List RecvRes} {len : ℤ} {wait : ℕ} {st : RecvStat}
    {b : Buffer} (hmore : rx.length + 1 < (recvLoop len wait st b (r :: rx)).calls) :
    ∃ len' st' b', b'.size = b.size ∧ ∀ rx', recvLoop len wait st b (r :: rx') =
      (recvLoop len' (wait + putOffs [r]) st' b' rx').call := by
  have hroom : ¬ b.size ≤ len := by
    intro hfull
    cases r <;> simp [recvLoop, hfull] at hmore
  cases r with
  | data bs =>
    by_cases htake : bs.take (b.size - len).toNat = []
    · rw [recvLoop, if_neg hroom] at hmore
      simp only [if_pos htake] at hmore
      omega
    · exact ⟨len + (bs.take (b.size - len).toNat).length, { st with ok := true },
        b.write len (bs.take (b.size - len).toNat), Buffer.write_size _ _ _,
        recvLoop_data (not_le.1 hroom) rfl htake wait st⟩
  | again =>
    by_cases hlast : 3 ≤ wait + 1
    · rw [recvLoop, if_neg hroom, if_pos hlast] at hmore
      exact absurd (Nat.lt_of_succ_lt_succ hmore) (Nat.not_lt_zero _)
    · exact ⟨len, st, b, rfl, fun rx' => by rw [recvLoop, if_neg hroom, if_neg hlast]; rfl⟩
  | fail =>
    rw [recvLoop, if_neg hroom] at hmore
    exact absurd (Nat.lt_of_succ_lt_succ hmore) (Nat.not_lt_zero _)

/-- While the loop goes on there is room, and fewer than three reads have been put off. -/
theorem recvLoop_room {rx : List RecvRes} {len : ℤ} {wait : ℕ} {st : RecvStat} {b : Buffer}
    (hmore : rx.length < (recvLoop len wait st b rx).calls) :
    (recvLoop len wait st b rx).len < b.size := by
  -- a turn that is not the last one leads to the same claim about the rest
  induction rx generalizing len wait st b with
  | nil =>
    rw [recvLoop_nil_calls] at hmore
    rw [recvLoop]
    split_ifs at hmore ⊢ with hfull
    · exact absurd hmore (lt_irrefl _)
    · exact not_le.1 hfull
  | cons r rx ih =>
    obtain ⟨len', st', b', hsize, hturn⟩ := recvLoop_turn hmore
    rw [hturn] at hmore ⊢
    rw [← hsize]
    exact ih (Nat.lt_of_succ_lt_succ hmore)

theorem recvLoop_one {len : ℤ} {wait : ℕ} {st : RecvStat} {b : Buffer} (hroom : len < b.size)
    (hwait : wait < 3) (res : RecvRes) :
    (recvLoop len wait st b [res]).calls ≤ 1 ↔ Ends b.size len wait res := by
  have hopen : ¬ b.size ≤ len := not_le.2 hroom
  cases res with
  | data bs =>
    by_cases hnil : bs = []
    · rw [hnil, recvLoop_closed hroom]
      exact iff_of_true le_rfl (.inl rfl)
    have htake : bs.take (b.size - len).toNat ≠ [] := by
      rw [Ne, List.take_eq_nil_iff, not_or]
      exact ⟨by omega, hnil⟩
    have hlen : (bs.take (b.size - len).toNat).length = min (b.size - len).toNat bs.length :=
      List.length_take
    have hcalls : (recvLoop len wait st b [.data bs]).calls =
        (if b.size ≤ len + (bs.take (b.size - len).toNat).length then 0 else 3 - wait) + 1 := by
      rw [recvLoop_data hroom rfl htake, Received.call, recvLoop_nil_calls, Buffer.write_size]
    rw [hcalls, hlen, Ends, or_iff_right hnil]
    split_ifs with hfull <;> omega
  | again =>
    rw [recvLoop, if_neg hopen, Ends]
    split_ifs with hlast
    · exact iff_of_true le_rfl hlast
    · have hcalls : (recvLoop len (wait + 1) st b []).call.calls = 3 - (wait + 1) + 1 := by
        rw [Received.call, recvLoop_nil_calls, if_neg hopen]
      rw [hcalls]
      omega
  | fail =>
    rw [recvLoop, if_neg hopen]
    exact iff_of_true le_rfl trivial

/-- The loop ends with the next outcome when this ends it. -/
theorem recvLoop_snoc {rx : List RecvRes} {len : ℤ} {wait : ℕ} {st : RecvStat} {b : Buffer}
    (hmore : rx.length < (recvLoop len wait st b rx).calls) (res : RecvRes) :
    (recvLoop len wait st b (rx ++ [res])).calls ≤ rx.length + 1 ↔
      Ends b.size (recvLoop len wait st b rx).len (wait + putOffs rx) res := by
  induction rx generalizing len wait st b with
  | nil =>
    have hroom := recvLoop_room hmore
    have hlen : (recvLoop len wait st b []).len = len := by
      rw [recvLoop]
      split_ifs <;> rfl
    rw [hlen] at hroom ⊢
    rw [recvLoop_nil_calls, if_neg (not_le.2 hroom), List.length_nil] at hmore
    exact recvLoop_one hroom (by omega) res
  | cons r rx ih =>
    obtain ⟨len', st', b', hsize, hturn⟩ := recvLoop_turn hmore
    have hwaits : wait + putOffs (r :: rx) = wait + putOffs [r] + putOffs rx := by
      rw [putOffs, putOffs, putOffs, add_assoc, ← List.count_append]
      rfl
    rw [hturn] at hmore
    rw [List.cons_append, hturn, hturn, hwaits, ← hsize, List.length_cons]
    exact Nat.succ_le_succ_iff.trans (ih (Nat.lt_of_succ_lt_succ hmore))

/-- **When a receive ends.** The next outcome ends it when the peer has closed, the buffer is full,
a third read is put off or a read fails. -/
theorem recvOver_snoc {b : Buffer} {rx : List RecvRes} (hmore : ¬ RecvOver b rx) (res : RecvRes) :
    RecvOver b (rx ++ [res]) ↔ Ends b.size (recvLoop 0 0 {} b rx).len (putOffs rx) res := by
  rw [RecvOver, List.length_append, List.length_singleton, recvLoop_snoc (not_le.1 hmore), zero_add]

theorem recvOver_nil (b : Buffer) : RecvOver b [] ↔ b.size ≤ 0 := by
  rw [RecvOver, recvLoop_nil_calls, List.length_nil]
  split_ifs with hfull <;> simp [hfull]

/-- All that is waiting is taken when it fits. -/
theorem recvRoom_pos {b : Buffer} {rx : List RecvRes} (hmore : ¬ RecvOver b rx) :
    (recvLoop 0 0 {} b rx).len + recvRoom b rx = b.size := by
  have hroom := recvLoop_room (not_le.1 hmore)
  rw [recvRoom]
  omega

end F1Goal
