import F1Goal.Buffer

/-!
# Sockets: records, receiving and sending (`f1g_accessor.h`, `f1g_accessor.c`)

A `sock_info_t` is the record that the access loop hands to a worker. `nonblk_recvfrom` reads from a
socket into a buffer until the buffer is full, the peer has closed, three reads have been put off,
or a read has failed. The outcomes of its `recvfrom` calls are a list; past its end every call is
put off (`EAGAIN`), so each list describes one way in which the loop can go, and every way is
described by some list.
-/

namespace F1Goal

/-- The socket statuses `SST_INIT` … `SST_UNKNOWN`. -/
inductive SockStatus
  | init
  | dataIn
  | dataOut
  | disc
  | err
  | unknown
  deriving DecidableEq, Repr

/-- `sock_info_t`: a socket, its peer, and what has happened on it. -/
structure SockInfo where
  fd : ℤ
  srcIp : UInt32
  srcPort : UInt16
  sockStatus : SockStatus
  deriving DecidableEq, Repr

/-- The outcome of one `recvfrom` call. -/
inductive RecvRes
  /-- these bytes are waiting, of which the call takes what the room offered holds; no byte means
  that the peer has closed the connection -/
  | data (bs : List UInt8)
  /-- `EINTR` or `EAGAIN` -/
  | again
  /-- any other error -/
  | fail
  deriving DecidableEq, Repr

/-- The bits `RECV_OK` … `RECV_MEM_LACK` of a receive status; all clear is `RECV_INIT`. -/
structure RecvStat where
  ok : Bool := false
  err : Bool := false
  timeout : Bool := false
  disc : Bool := false
  memLack : Bool := false
  deriving DecidableEq, Repr

/-- `*recv_stat &= RECV_ERR; *recv_stat &= ~RECV_OK;` -/
def RecvStat.maskErr (st : RecvStat) : RecvStat := { err := st.err }

/-- What the loop of `nonblk_recvfrom` has when it ends, and the number of `recvfrom` calls it has
made. -/
structure Received where
  len : ℤ
  stat : RecvStat
  buf : Buffer
  calls : ℕ

/-- One more `recvfrom` call. -/
def Received.call (r : Received) : Received := { r with calls := r.calls + 1 }

@[simp] theorem Received.call_len (r : Received) : r.call.len = r.len := rfl
@[simp] theorem Received.call_buf (r : Received) : r.call.buf = r.buf := rfl

/-- The loop of `nonblk_recvfrom`, with `len` bytes read and `wait` reads put off so far. -/
def recvLoop (len : ℤ) (wait : ℕ) (st : RecvStat) (b : Buffer) : List RecvRes → Received
  -- every further call is put off
  | [] => if b.size ≤ len then ⟨len, st, b, 0⟩ else ⟨len, { st with timeout := true }, b, 3 - wait⟩
  | .data bs :: rx =>
    if b.size ≤ len then ⟨len, st, b, 0⟩
    else
      let got := bs.take (b.size - len).toNat
      -- 0 bytes: the peer has closed
      if got = [] then ⟨len, { st with disc := true }, b, 1⟩
      else
        (recvLoop (len + got.length) wait { st with ok := true } (b.write len got) rx).call
  | .again :: rx =>
    if b.size ≤ len then ⟨len, st, b, 0⟩
    else if 3 ≤ wait + 1 then ⟨len, { st with timeout := true }, b, 1⟩
    else (recvLoop len (wait + 1) st b rx).call
  | .fail :: _ => if b.size ≤ len then ⟨len, st, b, 0⟩ else ⟨len, st.maskErr, b, 1⟩

/-- `nonblk_recvfrom`: the status reported, the buffer and the number of `recvfrom` calls. -/
def nonblkRecvfrom (b : Buffer) (rx : List RecvRes) : RecvStat × Buffer × ℕ :=
  let r := recvLoop 0 0 {} b rx
  let st := if r.buf.size ≤ r.len then { r.stat with memLack := true } else r.stat
  (st, r.buf.terminate r.len, r.calls)

/-- A `sendto` call: descriptor, destination and bytes. -/
structure Sent where
  fd : ℤ
  ip : UInt32
  port : UInt16
  bytes : List UInt8
  deriving DecidableEq, Repr

/-- `nonblk_sendto`: one `sendto` of the bytes in use. -/
def nonblkSendto (fd : ℤ) (ip : UInt32) (port : UInt16) (b : Buffer) : Sent :=
  ⟨fd, ip, port, b.contents⟩

/-- The number of bytes that come in before the peer closes, a read fails or a third read is put
off, `wait` reads having been put off already. -/
def arriving (wait : ℕ) : List RecvRes → ℕ
  | [] => 0
  | .data bs :: rx => if bs = [] then 0 else bs.length + arriving wait rx
  | .again :: rx => if 3 ≤ wait + 1 then 0 else arriving (wait + 1) rx
  | .fail :: _ => 0

/-! ### What a receive does to the buffer -/

theorem recvLoop_buf_size (rx : List RecvRes) (len : ℤ) (wait : ℕ) (st : RecvStat) (b : Buffer) :
    (recvLoop len wait st b rx).buf.size = b.size := by
  induction rx generalizing len wait st b with
  | nil => simp only [recvLoop]; split_ifs <;> rfl
  | cons r rx ih =>
    cases r with
    | data bs => simp only [recvLoop]; split_ifs <;> first | rfl | exact ih _ _ _ _
    | again => simp only [recvLoop]; split_ifs <;> first | rfl | exact ih _ _ _ _
    | fail => simp only [recvLoop]; split_ifs <;> rfl

/-- The loop stays inside the block: it never reads more than there is room for. -/
theorem recvLoop_spec (rx : List RecvRes) {len : ℤ} (wait : ℕ) (st : RecvStat) {b : Buffer}
    (h0 : 0 ≤ len) (hle : len ≤ b.size) (hoob : b.oob = false) :
    len ≤ (recvLoop len wait st b rx).len ∧ (recvLoop len wait st b rx).len ≤ b.size ∧
      (recvLoop len wait st b rx).buf.oob = false := by
  induction rx generalizing len wait st b with
  | nil => simp only [recvLoop]; split_ifs <;> exact ⟨le_rfl, hle, hoob⟩
  | cons r rx ih =>
    cases r with
    | data bs =>
      simp only [recvLoop]
      split_ifs with hfull hnil
      · exact ⟨le_rfl, hle, hoob⟩
      · exact ⟨le_rfl, hle, hoob⟩
      · have hgot : (bs.take (b.size - len).toNat).length ≤ (b.size - len).toNat :=
          List.length_take_le _ _
        have hwr : (b.write len (bs.take (b.size - len).toNat)).oob = false :=
          (b.write_oob _ _).2 ⟨hoob, fun _ => ⟨h0, by omega⟩⟩
        obtain ⟨h1, h2, h3⟩ := ih wait { st with ok := true }
          (show 0 ≤ len + (bs.take (b.size - len).toNat).length by omega)
          (by rw [Buffer.write_size]; omega) hwr
        rw [Received.call_len, Received.call_buf]
        exact ⟨by omega, h2, h3⟩
    | again =>
      simp only [recvLoop]
      split_ifs
      · exact ⟨le_rfl, hle, hoob⟩
      · exact ⟨le_rfl, hle, hoob⟩
      · exact ih _ _ h0 hle hoob
    | fail => simp only [recvLoop]; split_ifs <;> exact ⟨le_rfl, hle, hoob⟩

/-- The loop ends with room left exactly when less comes in than there is room for. -/
theorem recvLoop_len_lt_iff (rx : List RecvRes) {len : ℤ} (wait : ℕ) (st : RecvStat) {b : Buffer}
    (hle : len ≤ b.size) :
    (recvLoop len wait st b rx).len < b.size ↔ len + arriving wait rx < b.size := by
  induction rx generalizing len wait st b with
  | nil => simp only [recvLoop, arriving]; split_ifs <;> simp
  | cons r rx ih =>
    cases r with
    | data bs =>
      rcases Int.lt_or_le len b.size with hroom | hfull
      · by_cases hbs : bs = []
        · simp [recvLoop, arriving, hbs, not_le.2 hroom]
        have hgot : bs.take (b.size - len).toNat ≠ [] := by
          rw [Ne, List.take_eq_nil_iff]
          rintro (h | h)
          · exact absurd h (by omega)
          · exact hbs h
        have hlen : (bs.take (b.size - len).toNat).length = min (b.size - len).toNat bs.length :=
          List.length_take
        have hstep := ih wait { st with ok := true }
          (show len + (bs.take (b.size - len).toNat).length ≤
            (b.write len (bs.take (b.size - len).toNat)).size by rw [Buffer.write_size]; omega)
        rw [Buffer.write_size] at hstep
        simp only [recvLoop, arriving, if_neg (not_le.2 hroom), if_neg hgot, if_neg hbs]
        rw [Received.call_len, hstep]
        push_cast
        constructor <;> intro h <;> omega
      · simp only [recvLoop, if_pos hfull]
        constructor <;> intro h <;> omega
    | again =>
      simp only [recvLoop, arriving]
      split_ifs
      · constructor <;> intro h <;> simp at * <;> omega
      · constructor <;> intro h <;> simp at * <;> omega
      · simp
      · exact ih _ _ hle
    | fail => simp only [recvLoop, arriving]; split_ifs <;> simp

end F1Goal
