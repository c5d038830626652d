import Mathlib.Tactic

/-!
# Basic types of the library

`f1g_basic_types.h`: the return codes, the 32-bit integers and `value_t`. Bytes (`i8_t`, `u8_t`) are
`UInt8`; an `i32_t` is an integer, and a sum that may leave the range is folded back by `i32`.
`f1g_string.h`: a string that is a part of another one. Of the C library: `size_t` and
`struct timeval`.
-/

namespace F1Goal

/-- The return codes `F1G_OK` and `F1G_ERR`. -/
inductive Code
  | ok
  | err
  deriving DecidableEq, Repr

/-- The value of an `i32_t` after an overflow: two's complement, 32 bits. -/
def i32 (n : ℤ) : ℤ := n.bmod (2 ^ 32)

theorem i32_of_range {n : ℤ} (h1 : -2 ^ 31 ≤ n) (h2 : n < 2 ^ 31) : i32 n = n := by
  unfold i32
  exact Int.bmod_eq_of_le (by omega) (by omega)

theorem i32_lt (n : ℤ) : i32 n < 2 ^ 31 := by
  have h := Int.bmod_lt (x := n) (m := 2 ^ 32) (by norm_num)
  unfold i32
  omega

theorem le_i32 (n : ℤ) : -2 ^ 31 ≤ i32 n := by
  have h := Int.le_bmod (x := n) (m := 2 ^ 32) (by norm_num)
  unfold i32
  omega

@[simp] theorem i32_i32 (n : ℤ) : i32 (i32 n) = i32 n := i32_of_range (le_i32 n) (i32_lt n)

theorem i32_emod (n : ℤ) : i32 n % 2 ^ 32 = n % 2 ^ 32 := Int.bmod_emod

/-- An overflow makes a number smaller. -/
theorem i32_le {n : ℤ} (h : 0 ≤ n) : i32 n ≤ n := by
  rcases lt_or_ge n (2 ^ 31) with hlt | hge
  · exact (i32_of_range (by omega) hlt).le
  · exact (i32_lt n).le.trans hge

/-- A number that overflows at most once, and not to a negative one. -/
theorem i32_of_nonneg {n : ℤ} (h1 : 0 ≤ n) (h2 : n < 2 ^ 32) (h : 0 ≤ i32 n) : i32 n = n := by
  have hmod := i32_emod n
  have hlt := i32_lt n
  omega

/-- A number that overflows once. -/
theorem i32_of_ge {n : ℤ} (h1 : 2 ^ 31 ≤ n) (h2 : n < 2 ^ 32 + 2 ^ 31) : i32 n = n - 2 ^ 32 := by
  unfold i32
  rw [show n = n - 2 ^ 32 + (2 ^ 32 : ℕ) by omega, Int.add_bmod_right]
  exact (Int.bmod_eq_of_le (by omega) (by omega)).trans (by omega)

/-- A value of `u32_t`. -/
def u32 (n : ℕ) : ℕ := n % 2 ^ 32

/-- The value of an `int` as a `size_t`. -/
def sizeT (n : ℤ) : ℕ := (n % 2 ^ 64).toNat

theorem sizeT_of_range {n : ℤ} (h0 : 0 ≤ n) (h1 : n < 2 ^ 64) : sizeT n = n.toNat := by
  rw [sizeT, Int.emod_eq_of_lt h0 h1]

/-- `struct timeval` -/
structure Timeval where
  sec : ℤ
  usec : ℤ
  deriving DecidableEq, Repr

/-- The outcome of `malloc`: no block, or a block with arbitrary contents. -/
abbrev Malloc := Option (ℤ → UInt8)

/-- `value_t` -/
structure Value where
  valSize : ℤ
  valLen : ℤ
  val : ℤ → UInt8

/-- `c_string_t` -/
structure CStringT where
  len : ℤ
  data : ℤ
  deriving DecidableEq, Repr

/-- `c_string_set` -/
def cStringSet (data len : ℤ) : CStringT := { len := len, data := data }

end F1Goal
