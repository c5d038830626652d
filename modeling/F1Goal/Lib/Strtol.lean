import F1Goal.Lib.CString

/-!
# Numbers at the start of a text

A number is what the C standard calls the expected form of the subject sequence: blanks, a sign,
`0x` in base 16, and digits. `readNumber` takes the longest prefix of a text that is one
(`leadingNumber_iff`), and `strtol` and `strtoul` convert its value to 64 bits.
-/

namespace CString

/-! ### Numbers -/

/-- A sign, and whether it makes a number negative. -/
inductive Sign : List UInt8 → Bool → Prop
  | none : Sign [] false
  | plus : Sign [43] false
  | minus : Sign [45] true

/-- What may stand before the digits. -/
def BasePrefix (base : ℕ) (pre : List UInt8) : Prop := pre = [] ∨ base = 16 ∧ fold pre = ascii "0x"

/-- The value of some digits. -/
def ofDigits (base : ℕ) (digits : List UInt8) : ℕ :=
  digits.foldl (fun n c => n * base + digitValue c) 0

/-- The value with its sign. -/
def signed (neg : Bool) (n : ℕ) : ℤ := if neg then -n else n

/-- **A text that is a number** with this sign and this value. -/
inductive IsNumber (base : ℕ) : List UInt8 → Bool → ℕ → Prop
  | mk {blanks sign pre digits : List UInt8} {neg : Bool} (blank : ∀ c ∈ blanks, isSpace c = true)
      (hsign : Sign sign neg) (hpre : BasePrefix base pre) (ne_nil : digits ≠ [])
      (digit : ∀ c ∈ digits, digitValue c < base) :
      IsNumber base (blanks ++ (sign ++ (pre ++ digits))) neg (ofDigits base digits)

/-- The text is an integer in this base. -/
def IsInteger (base : ℕ) (t : List UInt8) (v : ℤ) : Prop :=
  ∃ neg n, IsNumber base t neg n ∧ v = signed neg n

/-- **The number that a text starts with**: its longest prefix that is an integer, or 0 without
one. -/
def LeadingNumber (base : ℕ) (s : List UInt8) (v : ℤ) : Prop :=
  (∃ t, t <+: s ∧ IsInteger base t v ∧
    ∀ t' v', t' <+: s → IsInteger base t' v' → t'.length ≤ t.length) ∨
  (∀ t v', t <+: s → ¬IsInteger base t v') ∧ v = 0

/-- A value as a `long`, which has 64 bits. -/
def longOf (v : ℤ) : ℤ := max (-2 ^ 63) (min (2 ^ 63 - 1) v)

/-- A value as an `unsigned long`: a negative one is taken modulo `2 ^ 64`. -/
def ulongOf (v : ℤ) : ℤ := if 2 ^ 64 ≤ |v| then 2 ^ 64 - 1 else v % 2 ^ 64

/-! ### The steps of `readNumber` -/

/-- Behind a sign. -/
def afterSign (t : List UInt8) : List UInt8 :=
  if t.head? = some 45 ∨ t.head? = some 43 then t.drop 1 else t

/-- Behind `0x`, when a digit follows. -/
def afterPrefix (base : ℕ) (t : List UInt8) : List UInt8 :=
  if base = 16 ∧ fold (t.take 2) = ascii "0x" ∧ (t.drop 2).head?.any (digitValue · < 16) then t.drop 2
  else t

/-- From the first digit on. -/
def digitsOn (base : ℕ) (s : List UInt8) : List UInt8 :=
  afterPrefix base (afterSign (s.dropWhile isSpace))

theorem readNumber_eq (base : ℕ) (s : List UInt8) :
    readNumber base s =
      if (digitsOn base s).takeWhile (fun c => digitValue c < base) = [] then (false, 0, s)
      else ((s.dropWhile isSpace).head? = some 45,
        ofDigits base ((digitsOn base s).takeWhile fun c => digitValue c < base),
        (digitsOn base s).dropWhile fun c => digitValue c < base) := by
  have hdrop (u : List UInt8) : u.drop (u.takeWhile fun c => digitValue c < base).length =
      u.dropWhile fun c => digitValue c < base := by
    have hsplit : u.takeWhile (fun c => digitValue c < base) ++
        u.dropWhile (fun c => digitValue c < base) = u := List.takeWhile_append_dropWhile
    exact (congrArg _ hsplit.symm).trans List.drop_left
  rw [← hdrop]
  rfl

/-- No digit is as small as a blank or a sign. -/
theorem digitValue_of_lt {c : UInt8} (h : c < 48) : digitValue c = 36 := by
  have hdigit : ¬(48 ≤ c ∧ c ≤ 57) := fun hc => absurd hc.1 (UInt8.not_le.2 h)
  have hupper : ¬(65 ≤ c ∧ c ≤ 90) :=
    fun hc => absurd (UInt8.lt_of_le_of_lt hc.1 h) (by decide)
  have hlower : ¬(97 ≤ c ∧ c ≤ 122) :=
    fun hc => absurd (UInt8.lt_of_le_of_lt hc.1 h) (by decide)
  rw [digitValue, if_neg hdigit, toLower, if_neg hupper, if_neg hlower]

theorem isSpace_lt {c : UInt8} (h : isSpace c = true) : c < 48 := by
  rcases of_decide_eq_true h with rfl | ⟨-, hle⟩
  · decide
  · exact UInt8.lt_of_le_of_lt hle (by decide)

variable {base : ℕ}

/-- A digit is neither a blank nor a sign. -/
theorem digit_facts (hbase : base ≤ 36) {c : UInt8} (h : digitValue c < base) :
    isSpace c = false ∧ c ≠ 43 ∧ c ≠ 45 := by
  have hsmall : ¬c < 48 := fun hlt => by
    rw [digitValue_of_lt hlt] at h
    omega
  refine ⟨Bool.eq_false_iff.2 fun hc => hsmall (isSpace_lt hc), ?_, ?_⟩
  · rintro rfl
    exact hsmall (by decide)
  · rintro rfl
    exact hsmall (by decide)

/-- What digits are looked for in: neither a blank nor a sign stands at its start. -/
def Clean (w : List UInt8) : Prop := ∀ c ∈ w.head?, isSpace c = false ∧ c ≠ 43 ∧ c ≠ 45

theorem dropWhile_blanks {blanks w : List UInt8} (blank : ∀ c ∈ blanks, isSpace c = true)
    (hw : ∀ c ∈ w.head?, isSpace c = false) : (blanks ++ w).dropWhile isSpace = w := by
  rw [List.dropWhile_append_of_pos blank]
  cases w with
  | nil => rfl
  | cons c w => exact List.dropWhile_cons_of_neg (by simp [hw c rfl])

/-- The sign is skipped, and looked at. -/
theorem afterSign_append {sign w : List UInt8} {neg : Bool} (hsign : Sign sign neg) (hw : Clean w) :
    afterSign (sign ++ w) = w ∧ decide ((sign ++ w).head? = some 45) = neg ∧
      ∀ c ∈ (sign ++ w).head?, isSpace c = false := by
  cases hsign with
  | none =>
    cases w with
    | nil => simp [afterSign]
    | cons c w =>
      obtain ⟨hspace, hplus, hminus⟩ := hw c rfl
      simp [afterSign, hspace, hplus, hminus]
  | plus => simp [afterSign, isSpace]
  | minus => simp [afterSign, isSpace]

/-- `0x` is skipped. -/
theorem afterPrefix_append {pre w : List UInt8} {c : UInt8} (hpre : BasePrefix base pre)
    (hc : digitValue c < base) (hfits : pre = [] → afterPrefix base (c :: w) = c :: w) :
    afterPrefix base (pre ++ c :: w) = c :: w := by
  rcases hpre with rfl | ⟨rfl, hfold⟩
  · exact hfits rfl
  · obtain ⟨x, y, rfl⟩ : ∃ x y, pre = [x, y] := by
      have hlen := congrArg List.length hfold
      rw [fold, List.length_map] at hlen
      exact List.length_eq_two.1 hlen
    have htake : fold (([x, y] ++ c :: w).take 2) = ascii "0x" := hfold
    rw [afterPrefix, if_pos ⟨rfl, htake, by simpa using hc⟩]
    rfl

/-- What stands before the digits begins with a 0. -/
theorem BasePrefix.clean {pre w : List UInt8} {c : UInt8} (hpre : BasePrefix base pre)
    (hbase : base ≤ 36) (hc : digitValue c < base) : Clean (pre ++ c :: w) := by
  rcases hpre with rfl | ⟨-, hfold⟩
  · intro d hd
    cases hd
    exact digit_facts hbase hc
  · intro d hd
    cases pre with
    | nil => cases hfold
    | cons e pre =>
      obtain rfl : e = d := Option.some.inj hd
      have he : toLower e = 48 := (List.cons.inj hfold).1
      have hzero : e = 48 := by
        unfold toLower at he
        split_ifs at he with hupper
        · have hcancel : e + 32 - 32 = e := UInt8.add_sub_cancel e 32
          rw [he] at hcancel
          rw [← hcancel] at hupper
          exact absurd hupper.1 (by decide)
        · exact he
      exact digit_facts le_rfl (by rw [hzero]; decide)

/-- **A number at the start of a text** is read with the digits behind it. -/
theorem readNumber_append (hbase : base ≤ 36) {blanks sign pre digits rest : List UInt8} {neg : Bool}
    (blank : ∀ c ∈ blanks, isSpace c = true) (hsign : Sign sign neg) (hpre : BasePrefix base pre)
    (ne_nil : digits ≠ []) (digit : ∀ c ∈ digits, digitValue c < base)
    (hfits : pre = [] → afterPrefix base (digits ++ rest) = digits ++ rest) :
    readNumber base (blanks ++ (sign ++ (pre ++ (digits ++ rest)))) =
      (neg, ofDigits base (digits ++ rest.takeWhile fun c => digitValue c < base),
        rest.dropWhile fun c => digitValue c < base) := by
  obtain ⟨c, digits, rfl⟩ := List.exists_cons_of_ne_nil ne_nil
  have hc := digit c List.mem_cons_self
  obtain ⟨hafter, hneg, hspace⟩ := afterSign_append hsign (hpre.clean (w := digits ++ rest) hbase hc)
  have hpass : ∀ d ∈ c :: digits, decide (digitValue d < base) = true :=
    fun d hd => decide_eq_true (digit d hd)
  have hdrop : (blanks ++ (sign ++ (pre ++ (c :: digits ++ rest)))).dropWhile isSpace =
      sign ++ (pre ++ (c :: digits ++ rest)) := dropWhile_blanks blank hspace
  have hdigits : digitsOn base (blanks ++ (sign ++ (pre ++ (c :: digits ++ rest)))) =
      c :: digits ++ rest := by
    rw [digitsOn, hdrop]
    exact (congrArg _ hafter).trans (afterPrefix_append hpre hc hfits)
  rw [readNumber_eq, hdigits, hdrop, List.takeWhile_append_of_pos hpass,
    List.dropWhile_append_of_pos hpass, if_neg (by simp)]
  exact Prod.ext hneg rfl

/-- `x` is no digit in base 16. -/
theorem digitValue_x {c : UInt8} (h : toLower c = 120) : digitValue c = 33 := by
  have hdigit : ¬(48 ≤ c ∧ c ≤ 57) := by
    rintro ⟨-, hle⟩
    have hupper : ¬(65 ≤ c ∧ c ≤ 90) := fun hc => absurd (UInt8.le_trans hc.1 hle) (by decide)
    rw [toLower, if_neg hupper] at h
    rw [h] at hle
    exact absurd hle (by decide)
  rw [digitValue, if_neg hdigit, h]
  rfl

/-- What `0x` looks like, with a digit behind it. -/
theorem afterPrefix_ne {w : List UInt8} (h : afterPrefix base w ≠ w) :
    base = 16 ∧ ∃ z x d w', w = z :: x :: d :: w' ∧ fold [z, x] = ascii "0x" ∧ digitValue x = 33 ∧
      digitValue d < 16 := by
  rw [afterPrefix] at h
  split_ifs at h with hhex
  · obtain ⟨hbase, hfold, hnext⟩ := hhex
    rcases w with _ | ⟨z, _ | ⟨x, _ | ⟨d, w'⟩⟩⟩
    · have hlen : 0 = 2 := congrArg List.length hfold
      omega
    · have hlen : 1 = 2 := congrArg List.length hfold
      omega
    · simp at hnext
    · have hx : toLower x = 120 := (List.cons.inj (List.cons.inj hfold).2).1
      exact ⟨hbase, z, x, d, w', rfl, hfold, digitValue_x hx, by simpa using hnext⟩
  · exact absurd rfl h

/-- **A number is read to its end.** -/
theorem IsNumber.read_eq (hbase : base ≤ 36) {t : List UInt8} {neg : Bool} {n : ℕ}
    (h : IsNumber base t neg n) : readNumber base t = (neg, n, []) := by
  obtain ⟨blank, hsign, hpre, ne_nil, digit⟩ := h
  rename_i blanks sign pre digits
  have hfits : afterPrefix base digits = digits := by
    by_contra hne
    obtain ⟨rfl, z, x, d, w, rfl, -, hx, -⟩ := afterPrefix_ne hne
    exact absurd (digit x (by simp)) (by omega)
  have hread := @readNumber_append _ hbase _ _ _ _ [] _ blank hsign hpre ne_nil digit
    (fun _ => by rw [List.append_nil]; exact hfits)
  simpa using hread

/-- **No longer prefix is a number.** -/
theorem IsNumber.length_rest (hbase : base ≤ 36) {t : List UInt8} {neg : Bool} {n : ℕ}
    (h : IsNumber base t neg n) (u : List UInt8) :
    (readNumber base (t ++ u)).2.2.length ≤ u.length := by
  obtain ⟨blank, hsign, hpre, ne_nil, digit⟩ := h
  rename_i blanks sign pre digits
  simp only [List.append_assoc]
  by_cases hfits : pre = [] → afterPrefix base (digits ++ u) = digits ++ u
  · rw [readNumber_append hbase blank hsign hpre ne_nil digit hfits]
    exact (List.dropWhile_suffix _).length_le
  · -- the number is the `0` of a `0x` with a digit behind it
    rw [Classical.not_imp] at hfits
    obtain ⟨rfl, hne⟩ := hfits
    obtain ⟨rfl, z, x, d, w, hw, hfold, hx, hd⟩ := afterPrefix_ne hne
    obtain ⟨rfl, rfl⟩ : digits = [z] ∧ u = x :: d :: w := by
      rcases digits with _ | ⟨a, _ | ⟨b, digits⟩⟩
      · exact absurd rfl ne_nil
      · simpa using hw
      · obtain rfl : b = x := by simpa using (List.cons.inj (List.cons.inj hw).2).1
        exact absurd (digit b (by simp)) (by omega)
    have hread := @readNumber_append _ hbase blanks sign [z, x] [d] w neg blank hsign
      (.inr ⟨rfl, hfold⟩) (by simp) (by simpa using hd) (fun h => nomatch h)
    have heq : blanks ++ (sign ++ ([] ++ ([z] ++ x :: d :: w))) =
        blanks ++ (sign ++ ([z, x] ++ ([d] ++ w))) := rfl
    rw [heq, hread]
    have hle := (List.dropWhile_suffix (fun c => decide (digitValue c < 16)) (l := w)).length_le
    simp only [List.length_cons]
    omega

theorem sign_split (t : List UInt8) :
    ∃ sign, t = sign ++ afterSign t ∧ Sign sign (decide (t.head? = some 45)) := by
  rcases t with _ | ⟨c, t⟩
  · exact ⟨[], rfl, .none⟩
  by_cases hminus : c = 45
  · subst hminus
    exact ⟨[45], by simp [afterSign], by simpa using Sign.minus⟩
  by_cases hplus : c = 43
  · subst hplus
    exact ⟨[43], by simp [afterSign], by simpa using Sign.plus⟩
  · exact ⟨[], by simp [afterSign, hminus, hplus], by simpa [hminus] using Sign.none⟩

theorem basePrefix_split (base : ℕ) (t : List UInt8) :
    ∃ pre, t = pre ++ afterPrefix base t ∧ BasePrefix base pre := by
  rw [afterPrefix]
  split_ifs with hhex
  · exact ⟨t.take 2, (List.take_append_drop 2 t).symm, .inr ⟨hhex.1, hhex.2.1⟩⟩
  · exact ⟨[], rfl, .inl rfl⟩

/-- **What is read is a number**, when anything is. -/
theorem readNumber_sound (base : ℕ) (s : List UInt8) :
    (∃ t, s = t ++ (readNumber base s).2.2 ∧
        IsNumber base t (readNumber base s).1 (readNumber base s).2.1) ∨
      readNumber base s = (false, 0, s) := by
  rw [readNumber_eq]
  split_ifs with hnone
  · exact .inr rfl
  · left
    obtain ⟨sign, hs, hsign⟩ := sign_split (s.dropWhile isSpace)
    obtain ⟨pre, hp, hpre⟩ := basePrefix_split base (afterSign (s.dropWhile isSpace))
    have hblanks : s = s.takeWhile isSpace ++ s.dropWhile isSpace :=
      List.takeWhile_append_dropWhile.symm
    have hdigits : digitsOn base s = (digitsOn base s).takeWhile (fun c => digitValue c < base) ++
        (digitsOn base s).dropWhile fun c => digitValue c < base :=
      List.takeWhile_append_dropWhile.symm
    have hdigit : ∀ c ∈ (digitsOn base s).takeWhile (fun c => digitValue c < base),
        digitValue c < base := fun c hc => by simpa using List.mem_takeWhile_imp hc
    have hspace : ∀ c ∈ s.takeWhile isSpace, isSpace c = true :=
      fun c hc => List.mem_takeWhile_imp hc
    refine ⟨_, ?_, .mk hspace hsign hpre hnone hdigit⟩
    conv_lhs => rw [hblanks, hs, hp]
    rw [List.append_assoc, List.append_assoc, List.append_assoc]
    refine congrArg _ (congrArg _ (congrArg _ ?_))
    exact hdigits

/-! ### Conversions -/

/-- What `readNumber` reads, with its sign. -/
def leading (base : ℕ) (s : List UInt8) : ℤ := signed (readNumber base s).1 (readNumber base s).2.1

theorem IsNumber.ne_nil {t : List UInt8} {neg : Bool} {n : ℕ} (h : IsNumber base t neg n) :
    t ≠ [] := by
  obtain ⟨-, -, -, ne_nil, -⟩ := h
  simp [ne_nil]

/-- No zero stands in a number. -/
theorem IsNumber.notMem_zero (hbase : base ≤ 36) {t : List UInt8} {neg : Bool} {n : ℕ}
    (h : IsNumber base t neg n) : 0 ∉ t := by
  obtain ⟨blank, hsign, hpre, -, digit⟩ := h
  rename_i blanks sign pre digits
  have hblanks : 0 ∉ blanks := fun hc => absurd (blank 0 hc) (by decide)
  have hsign : 0 ∉ sign := by cases hsign <;> decide
  have hpre : 0 ∉ pre := by
    rcases hpre with rfl | ⟨-, hfold⟩
    · exact List.not_mem_nil
    · intro hc
      have hmem : toLower 0 ∈ fold pre := List.mem_map_of_mem hc
      rw [hfold] at hmem
      exact absurd hmem (by decide)
  have hdigits : 0 ∉ digits := fun hc => by
    have hlt := digit 0 hc
    rw [digitValue_of_lt (by decide)] at hlt
    omega
  simp [hblanks, hsign, hpre, hdigits]

/-- Where nothing is read, no prefix is a number. -/
theorem not_isInteger_of_none (hbase : base ≤ 36) {s : List UInt8}
    (hnone : readNumber base s = (false, 0, s)) {t : List UInt8} (ht : t <+: s) (v : ℤ) :
    ¬IsInteger base t v := by
  rintro ⟨neg, n, hnum, -⟩
  obtain ⟨u, rfl⟩ := ht
  have hle := hnum.length_rest hbase u
  rw [hnone, List.length_append] at hle
  have hpos := List.length_pos_iff.2 hnum.ne_nil
  omega

/-- **`readNumber` reads the number that a text starts with.** -/
theorem leadingNumber_iff (hbase : base ≤ 36) (s : List UInt8) (v : ℤ) :
    LeadingNumber base s v ↔ v = leading base s := by
  rcases readNumber_sound base s with ⟨t, hs, hnum⟩ | hnone
  · have hpre : t <+: s := ⟨_, hs.symm⟩
    have hlongest {t' : List UInt8} {v' : ℤ} (ht' : t' <+: s) (hint : IsInteger base t' v') :
        t'.length ≤ t.length := by
      obtain ⟨neg, n, hnum', -⟩ := hint
      obtain ⟨u, rfl⟩ := ht'
      have hle := hnum'.length_rest hbase u
      have hlen := congrArg List.length hs
      rw [List.length_append, List.length_append] at hlen
      omega
    constructor
    · rintro (⟨t', ht', hint, hmax⟩ | ⟨hno, -⟩)
      · have hlen := le_antisymm (hlongest ht' hint) (hmax t _ hpre ⟨_, _, hnum, rfl⟩)
        obtain rfl : t' = t := (List.prefix_of_prefix_length_le ht' hpre hlen.le).eq_of_length hlen
        obtain ⟨neg, n, hnum', rfl⟩ := hint
        have hread := (hnum'.read_eq hbase).symm.trans (hnum.read_eq hbase)
        simp only [Prod.mk.injEq, and_true] at hread
        rw [leading, ← hread.1, ← hread.2]
      · exact absurd ⟨_, _, hnum, rfl⟩ (hno t _ hpre)
    · rintro rfl
      exact .inl ⟨t, hpre, ⟨_, _, hnum, rfl⟩, fun t' v' ht' hint => hlongest ht' hint⟩
  · have hzero : leading base s = 0 := by
      rw [leading, hnone]
      rfl
    rw [hzero]
    constructor
    · rintro (⟨t, ht, hint, -⟩ | ⟨-, hv⟩)
      · exact absurd hint (not_isInteger_of_none hbase hnone ht v)
      · exact hv
    · exact fun hv => .inr ⟨fun t v' ht => not_isInteger_of_none hbase hnone ht v', hv⟩

/-- A text is an integer exactly when it is read to its end, and something is read. -/
theorem isInteger_iff (hbase : base ≤ 36) {s : List UInt8} (hs : s ≠ []) (v : ℤ) :
    IsInteger base s v ↔ (readNumber base s).2.2 = [] ∧ v = leading base s := by
  constructor
  · rintro ⟨neg, n, hnum, rfl⟩
    rw [leading, hnum.read_eq hbase]
    exact ⟨rfl, rfl⟩
  · rintro ⟨hrest, rfl⟩
    rcases readNumber_sound base s with ⟨t, ht, hnum⟩ | hnone
    · rw [hrest, List.append_nil] at ht
      exact ⟨_, _, ht ▸ hnum, rfl⟩
    · rw [hnone] at hrest
      exact absurd hrest hs

theorem strtol_eq (base : ℕ) (s : List UInt8) :
    strtol base s = (longOf (leading base s), (readNumber base s).2.2) := by
  rw [strtol, leading]
  rcases readNumber base s with ⟨_ | _, n, rest⟩
  · refine Prod.ext ?_ rfl
    simp only [longOf, signed]
    norm_num
  · refine Prod.ext ?_ rfl
    simp only [longOf, signed]
    norm_num

theorem strtoul_eq (base : ℕ) (s : List UInt8) :
    ((strtoul base s).1 : ℤ) = ulongOf (leading base s) ∧
      (strtoul base s).2 = (readNumber base s).2.2 := by
  rw [strtoul, leading]
  rcases readNumber base s with ⟨neg, n, rest⟩
  have habs : |signed neg n| = n := by
    cases neg with
    | false => exact abs_of_nonneg (Int.natCast_nonneg n)
    | true => exact (abs_neg _).trans (abs_of_nonneg (Int.natCast_nonneg n))
  refine ⟨?_, rfl⟩
  rw [ulongOf, habs]
  dsimp only
  by_cases hlarge : 2 ^ 64 ≤ n
  · rw [if_pos hlarge, if_pos (by exact_mod_cast hlarge)]
    rfl
  · have hsmall : ¬(2 : ℤ) ^ 64 ≤ n := by exact_mod_cast hlarge
    rw [if_neg hlarge, if_neg hsmall]
    cases neg with
    | false =>
      rw [if_neg Bool.false_ne_true, signed, if_neg Bool.false_ne_true]
      omega
    | true =>
      rw [if_pos rfl, signed, if_pos rfl]
      omega

end CString
