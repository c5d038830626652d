import F1Goal.BasicFuncs

/-!
# Comparing long strings (`cmp_str`)

From 512 bytes on `cmp_str` compares the byte in the middle and then, twice, one byte less than a
half: from the start, and from the middle. So the byte before the middle and the last one are never
read (`not_probed_before_mid`, `not_probed_last`), at every depth of the recursion. `Probed` says
which positions are read; `cmp_str` is right about two strings exactly when they are equal, or
differ at one of these (`cmpStr_plainly_iff`).
-/

namespace F1Goal

open Block

/-- The positions at which `cmp_str` compares two strings of `len` bytes. -/
inductive Probed : ℕ → ℕ → Prop
  | short {len i : ℕ} : len < 512 → i < len → Probed len i
  | mid {len : ℕ} : 512 ≤ len → Probed len (len / 2)
  | left {len i : ℕ} : 512 ≤ len → Probed (len / 2 - 1) i → Probed len i
  | right {len i : ℕ} : 512 ≤ len → Probed (len / 2 - 1) i → Probed len (len / 2 + i)

theorem probed_long {len i : ℕ} (h : 512 ≤ len) :
    Probed len i ↔ i = len / 2 ∨ Probed (len / 2 - 1) i ∨
      ∃ j, i = len / 2 + j ∧ Probed (len / 2 - 1) j := by
  constructor
  · intro hp
    cases hp with
    | short hshort _ => omega
    | mid _ => exact .inl rfl
    | left _ hl => exact .inr (.inl hl)
    | right _ hr => exact .inr (.inr ⟨_, rfl, hr⟩)
  · rintro (rfl | hl | ⟨j, rfl, hr⟩)
    · exact .mid h
    · exact .left h hl
    · exact .right h hr

theorem Probed.lt {len i : ℕ} (h : Probed len i) : i < len := by
  induction h with
  | short _ hi => exact hi
  | mid h => omega
  | left h _ ih => omega
  | right h _ ih => omega

/-- The byte before the middle is not compared. -/
theorem not_probed_before_mid {len : ℕ} (h : 512 ≤ len) : ¬Probed len (len / 2 - 1) := by
  rw [probed_long h]
  rintro (heq | hl | ⟨j, heq, -⟩)
  · omega
  · exact absurd hl.lt (lt_irrefl _)
  · omega

/-- The last byte is not compared. -/
theorem not_probed_last {len : ℕ} (h : 512 ≤ len) : ¬Probed len (len - 1) := by
  rw [probed_long h]
  rintro (heq | hl | ⟨j, heq, hr⟩)
  · omega
  · have := hl.lt
    omega
  · have := hr.lt
    omega

/-- Two strings are the same at the positions compared. -/
def AgreeProbed (a b : List UInt8) (len : ℕ) : Prop := ∀ i, Probed len i → a[i]? = b[i]?

theorem agreeProbed_short {a b : List UInt8} {len : ℕ} (h : len < 512) :
    AgreeProbed a b len ↔ a.take len = b.take len := by
  constructor
  · intro hab
    apply List.ext_getElem?
    intro i
    rcases lt_or_ge i len with hi | hi
    · rw [List.getElem?_take_of_lt hi, List.getElem?_take_of_lt hi, hab i (.short h hi)]
    · rw [List.getElem?_take_eq_none hi, List.getElem?_take_eq_none hi]
  · intro htake i hp
    rw [← List.getElem?_take_of_lt hp.lt, htake, List.getElem?_take_of_lt hp.lt]

theorem agreeProbed_long {a b : List UInt8} {len : ℕ} (h : 512 ≤ len) :
    AgreeProbed a b len ↔ a[len / 2]? = b[len / 2]? ∧ AgreeProbed a b (len / 2 - 1) ∧
      AgreeProbed (a.drop (len / 2)) (b.drop (len / 2)) (len / 2 - 1) := by
  constructor
  · intro hab
    refine ⟨hab _ (.mid h), fun i hi => hab i (.left h hi), fun i hi => ?_⟩
    rw [List.getElem?_drop, List.getElem?_drop]
    exact hab _ (.right h hi)
  · rintro ⟨hmid, hl, hr⟩ i hp
    rcases (probed_long h).1 hp with rfl | hleft | ⟨j, rfl, hright⟩
    · exact hmid
    · exact hl i hleft
    · have := hr j hright
      rwa [List.getElem?_drop, List.getElem?_drop] at this

theorem AgreeProbed.of_take {a b : List UInt8} {len : ℕ} (h : a.take len = b.take len) :
    AgreeProbed a b len := by
  intro i hp
  rw [← List.getElem?_take_of_lt hp.lt, h, List.getElem?_take_of_lt hp.lt]

theorem cmpBytes_take {m1 m2 : ℤ → Option UInt8} {a b : List UInt8} {p1 p2 : ℤ} {len : ℕ}
    (h1 : Holds m1 p1 a) (h2 : Holds m2 p2 b) (ha : len ≤ a.length) (hb : len ≤ b.length) :
    ∃ r, cmpBytes m1 m2 len p1 p2 = some r ∧ (r = 0 ↔ a.take len = b.take len) := by
  have hla : (a.take len).length = len := List.length_take_of_le ha
  have hlb : (b.take len).length = len := List.length_take_of_le hb
  have hspec := cmpBytes_spec (Holds.of_prefix h1 (List.take_prefix len a))
    (Holds.of_prefix h2 (List.take_prefix len b)) (hla.trans hlb.symm)
  rwa [hla] at hspec

/-- **What `cmp_str` looks at**: it returns 0 when the strings are the same where it compares
them. -/
theorem cmpStrIn_probed {m1 m2 : ℤ → Option UInt8} {bound len : ℕ} {p1 p2 : ℤ} {a b : List UInt8}
    (hbound : len ≤ bound) (h1 : Holds m1 p1 a) (h2 : Holds m2 p2 b) (ha : len ≤ a.length)
    (hb : len ≤ b.length) :
    ∃ r, cmpStrIn m1 m2 bound p1 p2 len = some r ∧ (r = 0 ↔ AgreeProbed a b len) := by
  induction bound generalizing len p1 p2 a b with
  | zero =>
    rw [agreeProbed_short (by omega)]
    exact cmpBytes_take h1 h2 ha hb
  | succ bound ih =>
    rw [cmpStrIn]
    split_ifs with hshort
    · rw [agreeProbed_short hshort]
      exact cmpBytes_take h1 h2 ha hb
    · have hlong : 512 ≤ len := not_lt.1 hshort
      have hma : len / 2 < a.length := by omega
      have hmb : len / 2 < b.length := by omega
      rw [agreeProbed_long hlong, List.getElem?_eq_getElem hma, List.getElem?_eq_getElem hmb,
        Option.some_inj]
      simp only [h1.cell hma, h2.cell hmb, Option.bind_eq_bind, Option.bind_some]
      by_cases hmid : a[len / 2] = b[len / 2]
      · have hhalf : len / 2 - 1 ≤ bound := by omega
        obtain ⟨r1, hr1, hl⟩ := ih hhalf h1 h2 (by omega) (by omega)
        obtain ⟨r2, hr2, hr⟩ := ih hhalf (h1.drop _ hma.le) (h2.drop _ hmb.le)
          (by rw [List.length_drop]; omega) (by rw [List.length_drop]; omega)
        refine ⟨if r1 = 0 ∧ r2 = 0 then 0 else 1, ?_, ?_⟩
        · simp only [hmid, ne_eq, not_true_eq_false, if_false, hr1, hr2, Option.bind_some]
          split_ifs <;> rfl
        · rw [← hl, ← hr]
          split_ifs with hzero <;> simp [hmid, hzero]
      · refine ⟨a[len / 2] - b[len / 2], by simp [hmid], ?_⟩
        simp [hmid, byte_sub_ne_zero hmid]

/-! ### Which comparisons are right -/

/-- **Fast comparison equals plain comparison**: there is a result, and it is 0 exactly when the
first `len` bytes are equal. -/
def ComparesPlainly (m1 m2 : ℤ → Option UInt8) (p1 p2 : ℤ) (a b : List UInt8) (len : ℕ) : Prop :=
  ∃ r, cmpStr m1 m2 p1 p2 len = some r ∧ (r = 0 ↔ a.take len = b.take len)

/-- **When `cmp_str` is right**: the strings are equal, or differ at a position that it compares. -/
theorem cmpStr_plainly_iff {m1 m2 : ℤ → Option UInt8} {p1 p2 : ℤ} {a b : List UInt8} {len : ℕ}
    (h1 : Holds m1 p1 a) (h2 : Holds m2 p2 b) (ha : len ≤ a.length) (hb : len ≤ b.length) :
    ComparesPlainly m1 m2 p1 p2 a b len ↔
      a.take len = b.take len ∨ ∃ i, Probed len i ∧ a[i]? ≠ b[i]? := by
  obtain ⟨r, hr, hzero⟩ := cmpStrIn_probed le_rfl h1 h2 ha hb
  have hplain : ComparesPlainly m1 m2 p1 p2 a b len ↔
      (AgreeProbed a b len ↔ a.take len = b.take len) := by
    simp only [ComparesPlainly, cmpStr, hr, Option.some_inj, exists_eq_left', hzero]
  have hdiffer : (∃ i, Probed len i ∧ a[i]? ≠ b[i]?) ↔ ¬AgreeProbed a b len := by
    simp [AgreeProbed]
  rw [hplain, hdiffer]
  have htake : a.take len = b.take len → AgreeProbed a b len := .of_take
  tauto

/-- Two strings of 600 bytes that differ in the middle. -/
theorem cmpStr_plainly_middle :
    let a : List UInt8 := List.replicate 600 0
    let b : List UInt8 := a.set 300 1
    ComparesPlainly (ofList a) (ofList b) 0 0 a b 600 ↔
      a.take 600 = b.take 600 ∨ ∃ i, Probed 600 i ∧ a[i]? ≠ b[i]? := by
  intro a b
  have ha : a.length = 600 := List.length_replicate
  have hb : b.length = 600 := List.length_set.trans ha
  exact cmpStr_plainly_iff (holds_ofList_self a) (holds_ofList_self b) ha.ge hb.ge

/-- From 512 bytes on a difference before the middle is missed. -/
theorem cmpStr_misses {len : ℕ} (hlong : 512 ≤ len) {a b : List UInt8} (ha : a.length = len)
    (hb : b.length = len) (hdiffer : ∀ i, a[i]? ≠ b[i]? ↔ i = len / 2 - 1) :
    ¬ComparesPlainly (ofList a) (ofList b) 0 0 a b len := by
  rw [cmpStr_plainly_iff (holds_ofList_self a) (holds_ofList_self b) ha.ge hb.ge,
    List.take_of_length_le ha.le, List.take_of_length_le hb.le]
  rintro (rfl | ⟨i, hp, hne⟩)
  · exact (hdiffer (len / 2 - 1)).2 rfl rfl
  · obtain rfl := (hdiffer i).1 hne
    exact not_probed_before_mid hlong hp

theorem set_differs {len n : ℕ} (h : n < len) (i : ℕ) :
    (List.replicate len (0 : UInt8))[i]? ≠ ((List.replicate len 0).set n 1)[i]? ↔ i = n := by
  rw [List.getElem?_set, List.length_replicate]
  split_ifs with hi
  · subst hi
    simp [h]
  · simp [Ne.symm hi]

/-- Two strings of 512 bytes are taken for equal though they differ at position 255. -/
theorem cmpStr_misses_byte :
    let a : List UInt8 := List.replicate 512 0
    let b : List UInt8 := a.set 255 1
    ¬ComparesPlainly (ofList a) (ofList b) 0 0 a b 512 := by
  intro a b
  have ha : a.length = 512 := List.length_replicate
  exact cmpStr_misses le_rfl ha (List.length_set.trans ha) (set_differs (by omega))

/-- Strings of a length are all compared as a plain loop compares them exactly when the length is
less than 512. -/
theorem cmpStr_plainly_all_iff (len : ℕ) :
    (∀ (a b : List UInt8), a.length = len → b.length = len →
      ComparesPlainly (ofList a) (ofList b) 0 0 a b len) ↔ len < 512 := by
  constructor
  · intro h
    by_contra hlong
    have hlen : (List.replicate len (0 : UInt8)).length = len := List.length_replicate
    exact cmpStr_misses (not_lt.1 hlong) hlen (List.length_set.trans hlen)
      (set_differs (by omega)) (h _ _ hlen (List.length_set.trans hlen))
  · intro hshort a b ha hb
    rw [cmpStr_plainly_iff (holds_ofList_self a) (holds_ofList_self b) ha.ge hb.ge,
      ← agreeProbed_short hshort]
    by_cases hagree : AgreeProbed a b len
    · exact .inl hagree
    · rw [AgreeProbed] at hagree
      push Not at hagree
      exact .inr hagree

end F1Goal
