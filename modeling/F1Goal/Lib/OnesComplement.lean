import Mathlib.Tactic

/-!
# One's-complement sums of 16-bit words

A text of bytes is summed up as words of two bytes, an odd byte at its end being the high byte of
the last word. Carries are folded back in until 16 bits are left. The fold is the sum modulo
`0xFFFF`, with `0xFFFF` in place of `0` for every sum but 0 itself (`fold_eq`), and reading the
words with the bytes swapped multiplies the sum by 256 (`sumSwapped_modEq`), which is a unit.
-/

namespace OnesComplement

/-- The sum of the words of a text, high byte first. -/
def sumWords : List UInt8 → ℕ
  | b0 :: b1 :: s => b0.toNat * 256 + b1.toNat + sumWords s
  | [b] => b.toNat * 256
  | [] => 0

/-- The sum of the words of a text, low byte first. -/
def sumSwapped : List UInt8 → ℕ
  | b0 :: b1 :: s => b0.toNat + b1.toNat * 256 + sumSwapped s
  | [b] => b.toNat
  | [] => 0

/-- Carries are added to the low 16 bits until there are none. -/
def fold (n : ℕ) : ℕ := if n < 0x10000 then n else fold (n / 0x10000 + n % 0x10000)
termination_by n
decreasing_by omega

/-- The value that folding ends with. -/
theorem fold_eq (n : ℕ) : fold n = if n = 0 then 0 else (n - 1) % 0xFFFF + 1 := by
  induction n using Nat.strong_induction_on with
  | _ n ih =>
    rw [fold]
    by_cases h : n < 0x10000
    · rw [if_pos h]
      by_cases h0 : n = 0
      · rw [if_pos h0, h0]
      · rw [if_neg h0]
        omega
    · rw [if_neg h, ih _ (by omega), if_neg (by omega), if_neg (by omega)]
      omega

/-- A sum folds to `0xFFFF` exactly when it is a multiple of `0xFFFF` other than 0. -/
theorem fold_eq_ffff_iff {n : ℕ} : fold n = 0xFFFF ↔ 0 < n ∧ n % 0xFFFF = 0 := by
  rw [fold_eq]
  by_cases h : n = 0
  · rw [if_pos h]
    constructor <;> intro h' <;> omega
  · rw [if_neg h]
    constructor <;> intro h' <;> omega

theorem fold_le (n : ℕ) : fold n ≤ 0xFFFF := by
  rw [fold_eq]
  split_ifs <;> omega

/-- Folding keeps a sum modulo `0xFFFF`. -/
theorem fold_modEq (n : ℕ) : fold n ≡ n [MOD 0xFFFF] := by
  unfold Nat.ModEq
  rw [fold_eq]
  by_cases h : n = 0
  · rw [if_pos h, h]
  · rw [if_neg h]
    omega

theorem sumWords_append {s : List UInt8} (h : s.length % 2 = 0) (t : List UInt8) :
    sumWords (s ++ t) = sumWords s + sumWords t := by
  induction s using sumWords.induct with
  | case1 b0 b1 s ih =>
    have hs : s.length % 2 = 0 := by
      rw [List.length_cons, List.length_cons] at h
      omega
    rw [List.cons_append, List.cons_append, sumWords, sumWords, ih hs]
    exact (add_assoc _ _ _).symm
  | case2 b => simp at h
  | case3 => simp [sumWords]

theorem sumSwapped_append {s : List UInt8} (h : s.length % 2 = 0) (t : List UInt8) :
    sumSwapped (s ++ t) = sumSwapped s + sumSwapped t := by
  induction s using sumSwapped.induct with
  | case1 b0 b1 s ih =>
    have hs : s.length % 2 = 0 := by
      rw [List.length_cons, List.length_cons] at h
      omega
    rw [List.cons_append, List.cons_append, sumSwapped, sumSwapped, ih hs]
    exact (add_assoc _ _ _).symm
  | case2 b => simp at h
  | case3 => simp [sumSwapped]

/-- **The order of the bytes** in a word only multiplies the sum by 256. -/
theorem sumSwapped_modEq (s : List UInt8) : sumSwapped s ≡ 256 * sumWords s [MOD 0xFFFF] := by
  induction s using sumWords.induct with
  | case1 b0 b1 s ih =>
    have hword : b0.toNat + b1.toNat * 256 ≡ 256 * (b0.toNat * 256 + b1.toNat) [MOD 0xFFFF] := by
      unfold Nat.ModEq
      omega
    rw [sumSwapped, sumWords, mul_add]
    exact hword.add ih
  | case2 b =>
    rw [sumSwapped, sumWords]
    unfold Nat.ModEq
    omega
  | case3 => rfl

/-- A word of two bytes is at most `0xFFFF`. -/
theorem sumSwapped_le (s : List UInt8) : 2 * sumSwapped s ≤ 0xFFFF * (s.length + s.length % 2) := by
  induction s using sumSwapped.induct with
  | case1 b0 b1 s ih =>
    have h0 := b0.toNat_lt
    have h1 := b1.toNat_lt
    rw [sumSwapped, List.length_cons, List.length_cons]
    omega
  | case2 b =>
    have h := b.toNat_lt
    simp only [sumSwapped, List.length_singleton]
    omega
  | case3 => simp [sumSwapped]

/-- A word is stored at an offset, low byte first. -/
def setWord (s : List UInt8) (o : ℕ) (w : UInt16) : List UInt8 :=
  (s.set o (.ofNat (w.toNat % 256))).set (o + 1) (.ofNat (w.toNat / 256))

@[simp] theorem length_setWord (s : List UInt8) (o : ℕ) (w : UInt16) :
    (setWord s o w).length = s.length := by
  rw [setWord, List.length_set, List.length_set]

/-- A text with two zeroes at an offset, cut there. -/
theorem split_zeroes {s : List UInt8} {o : ℕ} (h0 : s[o]? = some 0) (h1 : s[o + 1]? = some 0) :
    s = s.take o ++ (0 :: 0 :: s.drop (o + 2)) := by
  obtain ⟨hlt, h1⟩ := List.getElem?_eq_some_iff.1 h1
  obtain ⟨hlt', h0⟩ := List.getElem?_eq_some_iff.1 h0
  conv_lhs => rw [← List.take_append_drop o s]
  rw [List.drop_eq_getElem_cons hlt', List.drop_eq_getElem_cons hlt, h0, h1]

/-- **A word stored over zeroes** at an even offset is added to the sum. -/
theorem sumSwapped_setWord {s : List UInt8} {o : ℕ} (heven : o % 2 = 0) (h0 : s[o]? = some 0)
    (h1 : s[o + 1]? = some 0) (w : UInt16) :
    sumSwapped (setWord s o w) = sumSwapped s + w.toNat := by
  have hw := w.toNat_lt
  have hlt : o < s.length := (List.getElem?_eq_some_iff.1 h0).1
  have htake : (s.take o).length = o := by
    rw [List.length_take]
    omega
  have hsplit := split_zeroes h0 h1
  have hset : setWord s o w = s.take o ++
      (.ofNat (w.toNat % 256) :: .ofNat (w.toNat / 256) :: s.drop (o + 2)) := by
    rw [setWord]
    conv_lhs => rw [hsplit]
    rw [List.set_append_right _ _ (by omega), List.set_append_right _ _ (by omega), htake,
      Nat.sub_self, Nat.add_sub_cancel_left]
    rfl
  have htwo : (s.take o).length % 2 = 0 := by rw [htake, heven]
  rw [hset, sumSwapped_append htwo]
  conv_rhs => rw [hsplit, sumSwapped_append htwo]
  simp only [sumSwapped, UInt8.toNat_ofNat', UInt8.toNat_zero]
  omega

/-- The complement of the folded sum of a text completes it to a multiple of `0xFFFF`. -/
theorem fold_add_complement (n : ℕ) : fold (n + (0xFFFF - fold n)) = 0xFFFF := by
  rw [fold_eq_ffff_iff, fold_eq]
  by_cases h : n = 0
  · rw [if_pos h, h]
    decide
  · rw [if_neg h]
    omega

/-- **Both orders of the bytes verify alike**, since 256 is a unit modulo `0xFFFF`. -/
theorem fold_sumWords_eq_ffff_iff (s : List UInt8) :
    fold (sumWords s) = 0xFFFF ↔ fold (sumSwapped s) = 0xFFFF := by
  have hmod := sumSwapped_modEq s
  have hpos : 0 < sumWords s ↔ 0 < sumSwapped s := by
    induction s using sumWords.induct with
    | case1 b0 b1 s ih =>
      have ih' := ih (sumSwapped_modEq s)
      rw [sumWords, sumSwapped]
      omega
    | case2 b =>
      rw [sumWords, sumSwapped]
      omega
    | case3 => rfl
  rw [fold_eq_ffff_iff, fold_eq_ffff_iff, hpos]
  unfold Nat.ModEq at hmod
  refine and_congr_right fun _ => ?_
  omega

end OnesComplement
