import F1Goal.Lib.Lts
import F1Goal.Socket

/-!
# Which runs of buffer calls stay inside the block

A buffer from `buffer_init` is handed to any sequence of `buffer_append`, `buffer_append_format`,
`buffer_enlarge`, `buffer_clear` and `nonblk_recvfrom` calls. All of them but `buffer_enlarge` end
with a terminating zero at index `len`, so a call that fills the block to the last byte writes one
byte behind it. `Fits` says of a call that it leaves a byte free for the zero;
`bufferRun_safe_iff` shows that a run is safe exactly when all its calls fit.
-/

namespace F1Goal

/-- One call on a buffer, with what the environment contributes to it. -/
inductive BufOp
  | append (data : Option (List UInt8))
  | appendFormat (fmt : Formatted) (mem : Malloc)
  | enlarge (newSize : ℤ) (mem : Malloc)
  | clear
  | recv (rx : List RecvRes)

/-- The buffer after a call. The argument of `buffer_enlarge` is an `i32_t`. -/
def BufOp.exec (b : Buffer) : BufOp → Buffer
  | .append data => (bufferAppend b data).2
  | .appendFormat fmt mem => (bufferAppendFormat b fmt mem).2
  | .enlarge newSize mem => (bufferEnlarge b (i32 newSize) mem).2
  | .clear => bufferClear b
  | .recv rx => (nonblkRecvfrom b rx).2.1

/-- A buffer call as a step of a machine; every call is enabled. -/
def bufStep (b : Buffer) (op : BufOp) : Option Buffer := some (op.exec b)

/-- The length is in range and no byte has been written outside the block. -/
def BufSafe (b : Buffer) : Prop := 0 ≤ b.len ∧ b.len ≤ b.size ∧ b.oob = false

/-- A safe buffer with a free byte; a size is an `i32_t`. -/
structure BufRoomy (b : Buffer) : Prop where
  len_nonneg : 0 ≤ b.len
  len_lt : b.len < b.size
  size_lt : b.size < 2 ^ 31
  oob : b.oob = false

theorem BufRoomy.safe {b : Buffer} (h : BufRoomy b) : BufSafe b :=
  ⟨h.len_nonneg, h.len_lt.le, h.oob⟩

/-- The size a buffer has after it has been asked for `newSize` bytes and `malloc` has succeeded. -/
def enlargedSize (b : Buffer) (newSize : ℤ) : ℤ :=
  if newSize < b.size then b.size
  else if b.flag = .ref then b.size
  else if newSize ≤ 0 then 512 else newSize

/-- The value `vsnprintf` returns for a text. -/
def formatLen : Option (List UInt8) → ℤ
  | none => -1
  | some s => if 2 ^ 31 ≤ (s.length : ℤ) then -1 else s.length

/-- The call leaves a byte for the terminating zero: the data, the formatted text or what is
received is shorter than the room there is. A text longer than the room has the buffer enlarged
first; then it is the text of the second `vsnprintf` that must leave a byte. -/
def BufOp.Fits (b : Buffer) : BufOp → Prop
  | .append none => True
  | .append (some d) => (d.length : ℤ) < bufferCap b
  | .appendFormat fmt mem =>
    let n := formatLen fmt.first
    let asked := i32 (b.size + n + 128)
    if n < 0 then True
    else if n ≤ bufferCap b then n < bufferCap b
    else if b.size ≤ asked ∧ (b.flag = .ref ∨ mem = none) then True
    else 0 ≤ i32 (b.len + formatLen fmt.again) ∧
      i32 (b.len + formatLen fmt.again) < enlargedSize b asked
  | .enlarge _ _ => True
  | .clear => True
  | .recv rx => (arriving 0 rx : ℤ) < b.size

/-! ### The calls one by one -/

/-- What a call leaves of a roomy buffer: a roomy buffer, or one whose terminating zero has just
been put at index `n`; then the call fits exactly when `n` is inside the block. -/
def CallLeaves (fits : Prop) (r : Buffer) : Prop :=
  (fits ∧ BufRoomy r) ∨
    ∃ (p : Buffer) (n : ℤ), r = p.terminate n ∧ p.oob = false ∧ p.size < 2 ^ 31 ∧
      (fits ↔ 0 ≤ n ∧ n < p.size)

theorem bufSafe_terminate (b : Buffer) (len : ℤ) :
    BufSafe (b.terminate len) ↔ b.oob = false ∧ 0 ≤ len ∧ len < b.size := by
  unfold BufSafe
  rw [b.terminate_oob, b.terminate_len, b.terminate_size]
  constructor
  · rintro ⟨-, -, h⟩; exact h
  · rintro ⟨h1, h2, h3⟩; exact ⟨h2, h3.le, h1, h2, h3⟩

theorem CallLeaves.safe_iff {fits : Prop} {r : Buffer} (h : CallLeaves fits r) :
    BufSafe r ↔ fits := by
  rcases h with ⟨hf, hr⟩ | ⟨p, n, rfl, hoob, -, hf⟩
  · exact iff_of_true hr.safe hf
  · rw [bufSafe_terminate, hf]
    exact and_iff_right hoob

theorem CallLeaves.roomy {fits : Prop} {r : Buffer} (h : CallLeaves fits r) (hr : BufSafe r) :
    BufRoomy r := by
  rcases h with ⟨-, h⟩ | ⟨p, n, rfl, -, hsize, -⟩
  · exact h
  · obtain ⟨-, h0, hn⟩ := (bufSafe_terminate p n).1 hr
    exact ⟨h0, hn, hsize, hr.2.2⟩

theorem memcpy_size (b : Buffer) (off : ℤ) (d : List UInt8) (n : ℤ) :
    (b.memcpy off d n).size = b.size := by
  unfold Buffer.memcpy; split_ifs <;> rfl

theorem memcpy_oob {b : Buffer} {off n : ℤ} (hb : b.oob = false) (h0 : 0 ≤ off) (hn : 0 ≤ n)
    (hle : off + n ≤ b.size) (d : List UInt8) : (b.memcpy off d n).oob = false := by
  rw [Buffer.memcpy, if_neg (by omega), Buffer.write_oob]
  refine ⟨hb, fun _ => ⟨h0, ?_⟩⟩
  have := List.length_take_le n.toNat d
  omega

theorem bufferAppend_leaves {b : Buffer} (hb : BufRoomy b) (d : List UInt8) :
    CallLeaves ((d.length : ℤ) < bufferCap b) (bufferAppend b (some d)).2 := by
  have h0 := hb.len_nonneg
  have hlt := hb.len_lt
  have hcap : bufferCap b = b.size - b.len := rfl
  refine Or.inr ⟨_, _, rfl, memcpy_oob hb.oob h0 ?_ ?_ d, ?_, ?_⟩
  · split_ifs <;> omega
  · split_ifs <;> omega
  · rw [memcpy_size]; exact hb.size_lt
  · rw [memcpy_size]
    split_ifs
    · constructor <;> intro h <;> omega
    · constructor <;> intro h <;> omega

theorem vsnprintf_fst (b : Buffer) (off cap : ℤ) (text : Option (List UInt8)) :
    (b.vsnprintf off cap text).1 = formatLen text := by
  cases text with
  | none => rfl
  | some s => simp only [Buffer.vsnprintf, formatLen]; split_ifs <;> rfl

theorem vsnprintf_frame (b : Buffer) (off cap : ℤ) (text : Option (List UInt8)) :
    (b.vsnprintf off cap text).2.len = b.len ∧ (b.vsnprintf off cap text).2.size = b.size ∧
      (b.vsnprintf off cap text).2.flag = b.flag := by
  cases text with
  | none => exact ⟨rfl, rfl, rfl⟩
  | some s => simp only [Buffer.vsnprintf]; split_ifs <;> exact ⟨rfl, rfl, rfl⟩

/-- `vsnprintf` stays inside the room it is offered. -/
theorem vsnprintf_oob {b : Buffer} {off cap : ℤ} (hb : b.oob = false) (h0 : 0 ≤ off)
    (hcap : 0 ≤ cap) (hle : off + cap ≤ b.size) (text : Option (List UInt8)) :
    (b.vsnprintf off cap text).2.oob = false := by
  cases text with
  | none => exact hb
  | some s =>
    simp only [Buffer.vsnprintf]
    split_ifs with h1 h2 h3
    · exact hb
    · exact hb
    · omega
    · refine (Buffer.write_oob _ _ _).2 ⟨hb, fun _ => ⟨h0, ?_⟩⟩
      have := List.length_take_le (cap.toNat - 1) s
      rw [List.length_append, List.length_singleton]
      omega

/-- Printing into the room offered leaves a roomy buffer of the same shape. -/
theorem vsnprintf_roomy {b : Buffer} (hb : BufRoomy b) (cap : ℤ) (h0 : 0 ≤ cap)
    (hcap : b.len + cap ≤ b.size) (text : Option (List UInt8)) :
    BufRoomy (b.vsnprintf b.len cap text).2 := by
  obtain ⟨hlen, hsize, -⟩ := vsnprintf_frame b b.len cap text
  refine ⟨?_, ?_, ?_, vsnprintf_oob hb.oob hb.len_nonneg h0 hcap text⟩
  · rw [hlen]; exact hb.len_nonneg
  · rw [hlen, hsize]; exact hb.len_lt
  · rw [hsize]; exact hb.size_lt

/-- What `buffer_enlarge` can do: nothing, as the block is large enough; nothing, as it is not the
buffer's own or there is no memory; or move the bytes in use to a block of the size asked for. -/
theorem bufferEnlarge_cases {b : Buffer} (hb : BufRoomy b) (newSize : ℤ) (mem : Malloc) :
    (newSize < b.size ∧ bufferEnlarge b newSize mem = (.ok, b)) ∨
    (b.size ≤ newSize ∧ (b.flag = .ref ∨ mem = none) ∧ bufferEnlarge b newSize mem = (.err, b)) ∨
    (b.size ≤ newSize ∧ ¬ (b.flag = .ref ∨ mem = none) ∧
      ∃ p, bufferEnlarge b newSize mem = (.ok, p) ∧ p.len = b.len ∧ p.size = newSize ∧
        p.oob = false) := by
  have h0 := hb.len_nonneg
  have hlt := hb.len_lt
  rcases Int.lt_or_le newSize b.size with h1 | h1
  · exact Or.inl ⟨h1, if_pos h1⟩
  have hneg : ¬ newSize < b.size := by omega
  by_cases h2 : b.flag = .ref
  · exact Or.inr (Or.inl ⟨h1, Or.inl h2, by rw [bufferEnlarge, if_neg hneg, if_pos h2]⟩)
  cases mem with
  | none => exact Or.inr (Or.inl ⟨h1, Or.inr rfl, by rw [bufferEnlarge, if_neg hneg, if_neg h2]⟩)
  | some m =>
    refine Or.inr (Or.inr ⟨h1, by simp [h2], _, by rw [bufferEnlarge, if_neg hneg, if_neg h2], ?_⟩)
    have hpos : ¬ newSize ≤ 0 := by omega
    simp only [if_neg hpos]
    by_cases h3 : 0 < b.len
    · rw [if_pos h3]
      refine ⟨?_, memcpy_size _ _ _ _, memcpy_oob (by exact hb.oob) le_rfl h0 ?_ _⟩
      · rw [Buffer.memcpy, if_neg (by omega)]; rfl
      · show (0 : ℤ) + b.len ≤ newSize; omega
    · rw [if_neg h3]
      exact ⟨rfl, rfl, hb.oob⟩

/-- Enlarging keeps the bytes in use inside the block. -/
theorem bufferEnlarge_roomy {b : Buffer} (hb : BufRoomy b) {newSize : ℤ} (hn : newSize < 2 ^ 31)
    (mem : Malloc) : BufRoomy (bufferEnlarge b newSize mem).2 := by
  have h0 := hb.len_nonneg
  have hlt := hb.len_lt
  rcases bufferEnlarge_cases hb newSize mem with ⟨-, h⟩ | ⟨-, -, h⟩ | ⟨hle, -, p, h, h1, h2, h3⟩
  · rwa [h]
  · rwa [h]
  · have hp : BufRoomy p := ⟨by omega, by omega, by omega, h3⟩
    rwa [h]

theorem enlargedSize_of_le {b : Buffer} {newSize : ℤ} (hb : BufRoomy b) (h : b.size ≤ newSize)
    (hflag : b.flag ≠ .ref) : enlargedSize b newSize = newSize := by
  have := hb.len_nonneg
  have := hb.len_lt
  rw [enlargedSize, if_neg (by omega), if_neg hflag, if_neg (by omega)]

theorem bufferAppendFormat_leaves {b : Buffer} (hb : BufRoomy b) (fmt : Formatted) (mem : Malloc) :
    CallLeaves ((BufOp.appendFormat fmt mem).Fits b) (bufferAppendFormat b fmt mem).2 := by
  have h0 := hb.len_nonneg
  have hlt := hb.len_lt
  have hsz := hb.size_lt
  have hcap : bufferCap b = b.size - b.len := rfl
  obtain ⟨hlen, hsize, hflag⟩ := vsnprintf_frame b b.len (bufferCap b) fmt.first
  have hp := vsnprintf_roomy hb (bufferCap b) (by omega) (by omega) fmt.first
  simp only [bufferAppendFormat, BufOp.Fits, vsnprintf_fst]
  generalize (b.vsnprintf b.len (bufferCap b) fmt.first).2 = p at hlen hsize hflag hp
  by_cases hn : formatLen fmt.first < 0
  · simp only [if_pos hn]
    exact Or.inl ⟨trivial, hp⟩
  simp only [if_neg hn]
  by_cases hroom : formatLen fmt.first ≤ bufferCap b
  · rw [if_pos hroom, if_neg (by omega)]
    refine Or.inr ⟨p, _, rfl, hp.oob, by omega, ?_⟩
    rw [hlen, hsize, i32_of_range (by omega) (by omega)]
    constructor <;> intro h <;> omega
  rw [if_neg hroom, if_pos (show bufferCap b < formatLen fmt.first by omega), hsize]
  -- the text does not fit: the buffer is asked to grow
  rcases bufferEnlarge_cases hp (i32 (b.size + formatLen fmt.first + 128)) mem with
    ⟨h1, h⟩ | ⟨h1, h2, h⟩ | ⟨h1, h2, q, h, hq1, hq2, hq3⟩
  · have hp' := vsnprintf_roomy hp (bufferCap b) (by omega) (by omega) fmt.again
    obtain ⟨hl, hs, -⟩ := vsnprintf_frame p p.len (bufferCap b) fmt.again
    rw [if_neg (by omega), h]
    refine Or.inr ⟨_, _, rfl, hp'.oob, hp'.size_lt, ?_⟩
    rw [hl, hs, hlen, hsize, enlargedSize, if_pos (by omega)]
  · rw [h, if_pos ⟨by omega, by rwa [← hflag]⟩]
    exact Or.inl ⟨trivial, hp⟩
  · have hq : BufRoomy q := ⟨by omega, by omega, by rw [hq2]; exact i32_lt _, hq3⟩
    have hq' := vsnprintf_roomy hq (bufferCap b) (by omega) (by omega) fmt.again
    obtain ⟨hl, hs, -⟩ := vsnprintf_frame q q.len (bufferCap b) fmt.again
    rw [hflag] at h2
    rw [h, if_neg (fun hc => h2 hc.2)]
    refine Or.inr ⟨_, _, rfl, hq'.oob, hq'.size_lt, ?_⟩
    rw [hl, hs, hq1, hq2, hlen, enlargedSize_of_le hb (by omega) (fun hc => h2 (Or.inl hc))]

theorem nonblkRecvfrom_leaves {b : Buffer} (hb : BufRoomy b) (rx : List RecvRes) :
    CallLeaves ((arriving 0 rx : ℤ) < b.size) (nonblkRecvfrom b rx).2.1 := by
  have h0 := hb.len_nonneg
  have hlt := hb.len_lt
  obtain ⟨h1, h2, h3⟩ := recvLoop_spec rx 0 {} le_rfl (by omega) hb.oob
  have hs := recvLoop_buf_size rx 0 0 {} b
  have hlen := recvLoop_len_lt_iff rx 0 {} (show 0 ≤ b.size by omega)
  refine Or.inr ⟨_, _, rfl, h3, ?_, ?_⟩
  · rw [hs]; exact hb.size_lt
  · rw [hs, and_iff_right h1, hlen, zero_add]

/-- What one call leaves of a roomy buffer. -/
theorem bufOp_leaves {b : Buffer} (hb : BufRoomy b) (op : BufOp) :
    CallLeaves (op.Fits b) (op.exec b) := by
  have h0 := hb.len_nonneg
  have hlt := hb.len_lt
  cases op with
  | append data =>
    cases data with
    | none => exact Or.inl ⟨trivial, hb⟩
    | some d => exact bufferAppend_leaves hb d
  | appendFormat fmt mem => exact bufferAppendFormat_leaves hb fmt mem
  | enlarge newSize mem => exact Or.inl ⟨trivial, bufferEnlarge_roomy hb (i32_lt _) mem⟩
  | clear => exact Or.inr ⟨b, 0, rfl, hb.oob, hb.size_lt, iff_of_true trivial ⟨le_rfl, by omega⟩⟩
  | recv rx => exact nonblkRecvfrom_leaves hb rx

/-! ### Runs -/

theorem bufferInit_roomy {size : ℤ} {mem : Malloc} {b : Buffer} (h1 : 1 ≤ size)
    (h2 : size < 2 ^ 31) (h : bufferInit size mem = some b) : BufRoomy b := by
  cases mem with
  | none => cases h
  | some m => cases h; exact ⟨le_rfl, h1, h2, rfl⟩

/-- **A run of buffer calls is safe exactly when all its calls fit.** From `buffer_init` on, the
length stays between `0` and the size and every byte is written inside the block, at each moment of
the run, if and only if each call leaves a byte free for the terminating zero. -/
theorem bufferRun_safe_iff {size : ℤ} {mem : Malloc} {b : Buffer} (h1 : 1 ≤ size) (h2 : size < 2 ^ 31)
    (h : bufferInit size mem = some b) (ops : List BufOp) :
    Lts.SafePrefixes bufStep BufSafe b ops ↔ Lts.Guarded bufStep (fun s op => op.Fits s) b ops := by
  have hb := bufferInit_roomy h1 h2 h
  refine Lts.safe_prefixes_iff_guarded BufRoomy ?_ ?_ hb hb.safe ops
  · intro s op t hs ht
    cases ht
    exact (bufOp_leaves hs op).safe_iff
  · intro s op t hs ht hsafe
    cases ht
    exact (bufOp_leaves hs op).roomy hsafe

/-- One byte appended to a buffer of two bytes fits. -/
theorem bufferRun_safe_iff_two :
    Lts.SafePrefixes bufStep BufSafe ⟨.allo, 2, 0, fun _ => 0, false⟩ [.append (some [65])] ↔
      Lts.Guarded bufStep (fun s op => op.Fits s) ⟨.allo, 2, 0, fun _ => 0, false⟩
        [.append (some [65])] :=
  bufferRun_safe_iff (by decide) (by decide)
    (show bufferInit 2 (some fun _ => 0) = some ⟨.allo, 2, 0, fun _ => 0, false⟩ from rfl) _

/-- A byte appended to a buffer of one byte: the terminating zero is written behind the block. -/
theorem bufferRun_not_always_safe : ¬ ∀ (size : ℤ) (mem : Malloc) (b : Buffer),
    1 ≤ size → size < 2 ^ 31 → bufferInit size mem = some b → ∀ ops, Lts.SafePrefixes bufStep BufSafe b ops := by
  intro h
  have hs := h 1 (some fun _ => 0) _ (by decide) (by decide) rfl [.append (some [65])] _
    (List.prefix_refl _) _ rfl
  exact absurd hs.2.2 (by decide)

end F1Goal
