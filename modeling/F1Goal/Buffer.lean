import F1Goal.Lib.Mem
import F1Goal.BasicTypes

/-!
# Byte buffers (`f1g_buffer.c`)

A `buffer_t` is a block of `size` bytes of which the first `len` are used. The model adds one bit:
`oob` is set as soon as a byte is written at an index outside `0 … size − 1`, and never cleared.
`i32_t` sums that stay in range while `0 ≤ len ≤ size` are plain integer sums; those that need not
are folded by `i32`.
-/

namespace F1Goal

/-- `BUF_FLAG_ALLO`, `BUF_FLAG_REF` and `BUF_FLAG_UNK`. -/
inductive BufFlag
  | allo
  | ref
  | unk
  deriving DecidableEq, Repr

/-- `buffer_t` and the mark of a write outside the block. -/
structure Buffer where
  flag : BufFlag
  size : ℤ
  len : ℤ
  buf : ℤ → UInt8
  oob : Bool

namespace Buffer

/-- The bytes in use, `buf[0 .. len)`. -/
def contents (b : Buffer) : List UInt8 := Mem.slice b.buf 0 b.len.toNat

/-- Store the bytes `bs` from index `off` on. -/
def write (b : Buffer) (off : ℤ) (bs : List UInt8) : Buffer :=
  { b with
    buf := Mem.store b.buf off bs
    oob := b.oob || decide (0 < bs.length ∧ ¬ (0 ≤ off ∧ off + bs.length ≤ b.size)) }

/-- `memcpy(buf + off, d, n)`; a negative `n` is a huge `size_t`. -/
def memcpy (b : Buffer) (off : ℤ) (d : List UInt8) (n : ℤ) : Buffer :=
  if n < 0 then { b with oob := true } else b.write off (d.take n.toNat)

/-- Set the length and put the terminating zero behind the last byte. -/
def terminate (b : Buffer) (len : ℤ) : Buffer := { b with len := len }.write len [0]

/-- `vsnprintf(buf + off, cap, ...)` for a call that formats `text` (`none`: an encoding error):
the value returned and the buffer. A text too long for an `int` is an error too. -/
def vsnprintf (b : Buffer) (off cap : ℤ) (text : Option (List UInt8)) : ℤ × Buffer :=
  match text with
  | none => (-1, b)
  | some s =>
    if 2 ^ 31 ≤ (s.length : ℤ) then (-1, b)
    else if cap = 0 then (s.length, b)
    else if cap < 0 then (s.length, b.write off (s ++ [0]))
    else (s.length, b.write off (s.take (cap.toNat - 1) ++ [0]))

variable (b : Buffer)

@[simp] theorem write_len (off : ℤ) (bs : List UInt8) : (b.write off bs).len = b.len := rfl
@[simp] theorem write_size (off : ℤ) (bs : List UInt8) : (b.write off bs).size = b.size := rfl
@[simp] theorem terminate_len (len : ℤ) : (b.terminate len).len = len := rfl
@[simp] theorem terminate_size (len : ℤ) : (b.terminate len).size = b.size := rfl

/-- A write keeps the block clean exactly when it stays inside. -/
theorem write_oob (off : ℤ) (bs : List UInt8) : (b.write off bs).oob = false ↔
    b.oob = false ∧ (0 < bs.length → 0 ≤ off ∧ off + bs.length ≤ b.size) := by
  simp only [write, Bool.or_eq_false_iff, decide_eq_false_iff_not, not_and_not_right]

theorem terminate_oob (len : ℤ) :
    (b.terminate len).oob = false ↔ b.oob = false ∧ 0 ≤ len ∧ len < b.size := by
  rw [terminate, write_oob]
  simp only [List.length_singleton, Nat.one_pos, forall_const, Nat.cast_one]
  exact and_congr_right fun _ => and_congr_right fun _ => Int.add_one_le_iff

end Buffer

/-- `buffer_init`; no buffer stands for `F1G_ERR`. -/
def bufferInit (size : ℤ) (mem : Malloc) : Option Buffer :=
  mem.map fun m => { flag := .allo, size := size, len := 0, buf := m, oob := false }

/-- `buffer_cap`. -/
def bufferCap (b : Buffer) : ℤ := b.size - b.len

/-- `buffer_enlarge`. -/
def bufferEnlarge (b : Buffer) (newSize : ℤ) (mem : Malloc) : Code × Buffer :=
  if newSize < b.size then (.ok, b)
  else if b.flag = .ref then (.err, b)
  else
    let newSize := if newSize ≤ 0 then 512 else newSize
    match mem with
    | none => (.err, b)
    | some m =>
      let p := { b with buf := m, size := newSize }
      (.ok, if 0 < b.len then p.memcpy 0 (Mem.slice b.buf 0 b.len.toNat) b.len else p)

/-- `buffer_append`; no data stands for a null pointer. -/
def bufferAppend (b : Buffer) (data : Option (List UInt8)) : Code × Buffer :=
  match data with
  | none => (.err, b)
  | some d =>
    let cap := bufferCap b
    let len := if (d.length : ℤ) ≤ cap then (d.length : ℤ) else cap
    (.ok, (b.memcpy b.len d len).terminate (b.len + len))

/-- The texts of the two `vsnprintf` calls of `buffer_append_format`. The second call is handed the
argument list that the first has used up, so its text need not be the same. -/
structure Formatted where
  first : Option (List UInt8)
  again : Option (List UInt8)

/-- `buffer_append_format`. -/
def bufferAppendFormat (b : Buffer) (fmt : Formatted) (mem : Malloc) : Code × Buffer :=
  let cap := bufferCap b
  let r := b.vsnprintf b.len cap fmt.first
  if r.1 < 0 then (.err, r.2)
  else if cap < r.1 then
    match bufferEnlarge r.2 (i32 (r.2.size + r.1 + 128)) mem with
    | (.err, p) => (.err, p)
    | (.ok, p) =>
      -- the room offered is still the room before the enlargement
      let r' := p.vsnprintf p.len cap fmt.again
      (.ok, r'.2.terminate (i32 (r'.2.len + r'.1)))
  else (.ok, r.2.terminate (i32 (r.2.len + r.1)))

/-- `buffer_clear`. -/
def bufferClear (b : Buffer) : Buffer := b.terminate 0

end F1Goal
