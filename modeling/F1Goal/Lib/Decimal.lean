import F1Goal.Lib.Strtol

/-!
# Numbers as they are printed

What `%d` and `%ld` print: a sign for a negative number, and its decimal digits. The digits have the
value of the number (`ofDigits_digits`), so that two numbers that are printed alike are equal, and
`readNumber` takes a printed number back (`readNumber_print`).
-/

namespace Decimal

open CString

/-- The decimal digits of a number. -/
def digits (n : ℕ) : List UInt8 := (Nat.toDigits 10 n).map fun c => UInt8.ofNat c.toNat

/-- What `%d` and `%ld` print. -/
def print (n : ℤ) : List UInt8 := (if n < 0 then [45] else []) ++ digits n.natAbs

theorem digit_byte {c : Char} (h : c.isDigit = true) :
    48 ≤ UInt8.ofNat c.toNat ∧ UInt8.ofNat c.toNat ≤ 57 ∧
      (UInt8.ofNat c.toNat).toNat = c.toNat := by
  rw [Char.isDigit_iff_toNat] at h
  obtain ⟨h1, h2⟩ := h
  change 48 ≤ c.toNat at h1
  change c.toNat ≤ 57 at h2
  have hnat : (UInt8.ofNat c.toNat).toNat = c.toNat := by
    rw [UInt8.toNat_ofNat']
    omega
  simp only [UInt8.le_iff_toNat_le, hnat]
  exact ⟨h1, h2, trivial⟩

theorem digitValue_eq {c : UInt8} (h1 : 48 ≤ c) (h2 : c ≤ 57) : digitValue c = c.toNat - 48 := by
  rw [digitValue, if_pos ⟨h1, h2⟩]

theorem digits_ne_nil (n : ℕ) : digits n ≠ [] := by
  simp [digits, Nat.toDigits_ne_nil]

theorem mem_digits {n : ℕ} {c : UInt8} (h : c ∈ digits n) : 48 ≤ c ∧ c ≤ 57 := by
  obtain ⟨d, hd, rfl⟩ := List.mem_map.1 h
  obtain ⟨h1, h2, -⟩ := digit_byte (Nat.isDigit_of_mem_toDigits (by decide) (by decide) hd)
  exact ⟨h1, h2⟩

theorem digitValue_lt {n : ℕ} {c : UInt8} (h : c ∈ digits n) : digitValue c < 10 := by
  obtain ⟨h1, h2⟩ := mem_digits h
  rw [digitValue_eq h1 h2]
  have h2 := UInt8.le_iff_toNat_le.1 h2
  change c.toNat ≤ 57 at h2
  omega

/-- The digits have the value of the number. -/
theorem ofDigits_digits (n : ℕ) : ofDigits 10 (digits n) = n := by
  have hfold (cs : List Char) (hcs : ∀ c ∈ cs, c.isDigit = true) (m : ℕ) :
      (cs.map fun c => UInt8.ofNat c.toNat).foldl (fun m c => m * 10 + digitValue c) m =
        Nat.ofDigitChars 10 cs m := by
    induction cs generalizing m with
    | nil => rw [Nat.ofDigitChars_nil]; rfl
    | cons c cs ih =>
      obtain ⟨hc, hrest⟩ := List.forall_mem_cons.1 hcs
      obtain ⟨h1, h2, hnat⟩ := digit_byte hc
      rw [List.map_cons, List.foldl_cons, Nat.ofDigitChars_cons, ih hrest, digitValue_eq h1 h2, hnat,
        mul_comm m 10]
      rfl
  rw [ofDigits, digits, hfold _ fun c hc => Nat.isDigit_of_mem_toDigits (by decide) (by decide) hc,
    Nat.ofDigitChars_ten_toDigits]

theorem mem_print {n : ℤ} {c : UInt8} (h : c ∈ print n) : c = 45 ∨ 48 ≤ c ∧ c ≤ 57 := by
  rcases List.mem_append.1 h with h | h
  · split_ifs at h
    · exact .inl (List.mem_singleton.1 h)
    · cases h
  · exact .inr (mem_digits h)

/-- A byte that is no digit and no sign. -/
theorem notMem_print {n : ℤ} {c : UInt8} (h : c ≠ 45) (hdigit : c < 48 ∨ 57 < c) :
    c ∉ print n := by
  intro hmem
  rcases mem_print hmem with rfl | ⟨h1, h2⟩
  · exact h rfl
  · rcases hdigit with hlt | hlt
    · exact absurd hlt (UInt8.not_lt.2 h1)
    · exact absurd hlt (UInt8.not_lt.2 h2)

theorem print_ne_nil (n : ℤ) : print n ≠ [] := by
  simp [print, digits_ne_nil]

theorem sign_print (n : ℤ) : Sign (if n < 0 then [45] else []) (decide (n < 0)) := by
  split_ifs with h
  · rw [decide_eq_true h]
    exact .minus
  · rw [decide_eq_false h]
    exact .none

theorem signed_natAbs (n : ℤ) : signed (decide (n < 0)) n.natAbs = n := by
  unfold signed
  by_cases h : n < 0
  · simp only [h, decide_true, if_true]
    omega
  · simp only [h, decide_false, Bool.false_eq_true, if_false]
    omega

/-- A printed number is read back, up to the first byte that is no digit. -/
theorem readNumber_print (n : ℤ) (rest : List UInt8) (h : ∀ c ∈ rest.head?, 10 ≤ digitValue c) :
    readNumber 10 (print n ++ rest) = (decide (n < 0), n.natAbs, rest) := by
  have hread := @readNumber_append 10 (by decide) [] _ [] _ rest _
    (fun _ hc => absurd hc List.not_mem_nil) (sign_print n) (.inl rfl) (digits_ne_nil n.natAbs)
    (fun _ hc => digitValue_lt hc) (fun _ => if_neg (by simp))
  have hrest : (rest.takeWhile fun c => digitValue c < 10) = [] ∧
      (rest.dropWhile fun c => digitValue c < 10) = rest := by
    cases rest with
    | nil => exact ⟨rfl, rfl⟩
    | cons c rest =>
      have hc : ¬ digitValue c < 10 := not_lt.2 (h c rfl)
      exact ⟨List.takeWhile_cons_of_neg (by simpa using hc),
        List.dropWhile_cons_of_neg (by simpa using hc)⟩
  rw [hrest.1, hrest.2, List.append_nil, ofDigits_digits] at hread
  rw [print, List.append_assoc]
  exact hread

/-- How much room a number of `k` digits takes. -/
theorem length_print_le {n : ℤ} {k : ℕ} (hk : 0 < k) (h : n.natAbs < 10 ^ k) :
    (print n).length ≤ k + 1 := by
  rw [print, List.length_append, digits, List.length_map, add_comm]
  refine add_le_add ((Nat.length_toDigits_le_iff (by decide) hk).2 h) ?_
  split_ifs <;> simp

/-- How many digits a number has that is not negative. -/
theorem length_print_le_iff {n : ℤ} (hn : 0 ≤ n) {k : ℕ} (hk : 0 < k) :
    (print n).length ≤ k ↔ n < 10 ^ k := by
  obtain ⟨m, rfl⟩ := Int.eq_ofNat_of_zero_le hn
  rw [print, if_neg (by omega), List.nil_append, digits, List.length_map, Int.natAbs_natCast,
    Nat.length_toDigits_le_iff (by decide) hk]
  exact_mod_cast Iff.rfl

end Decimal
