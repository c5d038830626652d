import Mathlib.Data.List.DropRight
import Mathlib.Tactic

/-!
# Strings that end with a zero

A C string is the list of its bytes before the zero. Upper and lower case are those of ASCII. A
`long` has 64 bits.
-/

namespace CString

/-- The bytes of an ASCII string. -/
def ascii (s : String) : List UInt8 := s.toList.map fun c => UInt8.ofNat c.toNat

/-- The string at the start of these bytes: what stands before the first zero. -/
def cstr (bs : List UInt8) : List UInt8 := bs.takeWhile (· ≠ 0)

/-- `tolower` -/
def toLower (c : UInt8) : UInt8 := if 65 ≤ c ∧ c ≤ 90 then c + 32 else c

/-- A string with its case ignored. -/
def fold (s : List UInt8) : List UInt8 := s.map toLower

/-- `strcasecmp(a, b) == 0` -/
def strcasecmp (a b : List UInt8) : Bool := fold a = fold b

/-- The string without the blanks it starts with. -/
def skipSpaces (s : List UInt8) : List UInt8 := s.dropWhile (· = 32)

/-- The string without the blanks it ends with. -/
def trimEnd (s : List UInt8) : List UInt8 := s.rdropWhile (· = 32)

/-- The string without the blanks around it. -/
def strip (s : List UInt8) : List UInt8 := trimEnd (skipSpaces s)

/-- The lines of a text, from the bytes `line` of the first one on. A text that does not end with a
newline ends with a line of its own. -/
def linesFrom (line : List UInt8) : List UInt8 → List (List UInt8)
  | [] => if line = [] then [] else [line]
  | c :: w => if c = 10 then line :: linesFrom [] w else linesFrom (line ++ [c]) w

/-- The lines of a text. -/
def lines (w : List UInt8) : List (List UInt8) := linesFrom [] w

/-! ### Numbers -/

/-- `isspace` -/
def isSpace (c : UInt8) : Bool := c = 32 ∨ 9 ≤ c ∧ c ≤ 13

/-- The value of a digit or a letter; 36 is the value of no digit. -/
def digitValue (c : UInt8) : ℕ :=
  if 48 ≤ c ∧ c ≤ 57 then c.toNat - 48
  else if 97 ≤ toLower c ∧ toLower c ≤ 122 then (toLower c).toNat - 87
  else 36

/-- A number at the start of a string: its sign, its value, and what stands behind it. Blanks and a
sign may stand before it, and `0x` in base 16. Without a digit nothing is read. -/
def readNumber (base : ℕ) (s : List UInt8) : Bool × ℕ × List UInt8 :=
  let t := s.dropWhile isSpace
  let neg := t.head? = some 45
  let t := if t.head? = some 45 ∨ t.head? = some 43 then t.drop 1 else t
  let isHex := base = 16 ∧ fold (t.take 2) = ascii "0x" ∧ (t.drop 2).head?.any (digitValue · < 16)
  let t := if isHex then t.drop 2 else t
  let digits := t.takeWhile fun c => digitValue c < base
  if digits = [] then (false, 0, s)
  else (neg, digits.foldl (fun n c => n * base + digitValue c) 0, t.drop digits.length)

/-- `strtol`: the value, which is limited to 64 bits, and the string at `*endptr`. -/
def strtol (base : ℕ) (s : List UInt8) : ℤ × List UInt8 :=
  let (neg, n, rest) := readNumber base s
  (if neg then max (-2 ^ 63) (-n) else min (2 ^ 63 - 1) n, rest)

/-- `strtoul`: a sign is taken modulo `2 ^ 64`, and the value is limited to 64 bits. -/
def strtoul (base : ℕ) (s : List UInt8) : ℕ × List UInt8 :=
  let (neg, n, rest) := readNumber base s
  (if 2 ^ 64 ≤ n then 2 ^ 64 - 1 else if neg then (2 ^ 64 - n) % 2 ^ 64 else n, rest)

@[simp] theorem strcasecmp_iff (a b : List UInt8) : strcasecmp a b = true ↔ fold a = fold b :=
  decide_eq_true_iff

/-! ### Search -/

/-- Where `sub` first occurs. -/
def firstAt (sub : List UInt8) : List UInt8 → Option ℕ
  | [] => if sub = [] then some 0 else none
  | c :: w => if sub <+: c :: w then some 0 else (firstAt sub w).map (· + 1)

theorem firstAt_of_lt {sub w : List UInt8} (h : w.length < sub.length) : firstAt sub w = none := by
  induction w with
  | nil => exact if_neg (List.ne_nil_of_length_pos h)
  | cons c w ih =>
    have hpre : ¬ sub <+: c :: w := fun hpre => absurd hpre.length_le (by omega)
    rw [firstAt, if_neg hpre, ih (Nat.lt_of_succ_lt h)]
    rfl

theorem firstAt_of_notMem {c : UInt8} {sub w : List UInt8} (h : c ∉ w) :
    firstAt (c :: sub) w = none := by
  induction w with
  | nil => exact if_neg (List.cons_ne_nil _ _)
  | cons d w ih =>
    rw [List.mem_cons, not_or] at h
    have hpre : ¬ c :: sub <+: d :: w := fun hpre => h.1 (List.cons_prefix_cons.1 hpre).1
    rw [firstAt, if_neg hpre, ih h.2]
    rfl

/-- Behind a text without its first byte, a string is found at once. -/
theorem firstAt_append {c : UInt8} {sub w : List UInt8} (rest : List UInt8) (h : c ∉ w) :
    firstAt (c :: sub) (w ++ (c :: sub ++ rest)) = some w.length := by
  induction w with
  | nil => exact if_pos (List.prefix_append _ _)
  | cons d w ih =>
    rw [List.mem_cons, not_or] at h
    have hpre : ¬ c :: sub <+: d :: (w ++ (c :: sub ++ rest)) :=
      fun hpre => h.1 (List.cons_prefix_cons.1 hpre).1
    rw [List.cons_append, firstAt, if_neg hpre, ih h.2]
    rfl

theorem firstAt_le {sub w : List UInt8} {i : ℕ} (h : firstAt sub w = some i) :
    i + sub.length ≤ w.length := by
  induction w generalizing i with
  | nil =>
    rw [firstAt] at h
    split_ifs at h with hnil
    cases h
    simp [hnil]
  | cons c w ih =>
    rw [firstAt] at h
    split_ifs at h with hpre
    · cases h
      simpa using hpre.length_le
    · obtain ⟨j, hj, rfl⟩ := Option.map_eq_some_iff.1 h
      have hle := ih hj
      rw [List.length_cons]
      omega

theorem infix_of_firstAt {sub w : List UInt8} {i : ℕ} (h : firstAt sub w = some i) :
    sub <:+: w := by
  induction w generalizing i with
  | nil =>
    rw [firstAt] at h
    split_ifs at h with hnil
    exact hnil ▸ List.nil_infix
  | cons c w ih =>
    rw [firstAt] at h
    split_ifs at h with hpre
    · exact hpre.isInfix
    · obtain ⟨j, hj, -⟩ := Option.map_eq_some_iff.1 h
      exact (ih hj).trans (List.suffix_cons c w).isInfix

theorem firstAt_eq_none {sub w : List UInt8} (h : ¬ sub <:+: w) : firstAt sub w = none := by
  cases heq : firstAt sub w with
  | none => rfl
  | some i => exact absurd (infix_of_firstAt heq) h

theorem firstAt_of_isPrefix {sub w : List UInt8} (h : sub <+: w) : firstAt sub w = some 0 := by
  cases w with
  | nil => exact if_pos (List.prefix_nil.1 h)
  | cons c w => exact if_pos h

theorem exists_firstAt {sub w : List UInt8} (h : sub <:+: w) : ∃ i, firstAt sub w = some i := by
  induction w with
  | nil => exact ⟨0, if_pos (List.infix_nil.1 h)⟩
  | cons c w ih =>
    by_cases hpre : sub <+: c :: w
    · exact ⟨0, firstAt_of_isPrefix hpre⟩
    · obtain ⟨i, hi⟩ := ih ((List.infix_cons_iff.1 h).resolve_left hpre)
      exact ⟨i + 1, by rw [firstAt, if_neg hpre, hi, Option.map_some]⟩

/-- `sub` stands as a whole at this place of the text. -/
def OccursAt (sub w : List UInt8) (i : ℕ) : Prop := i + sub.length ≤ w.length ∧ sub <+: w.drop i

theorem occursAt_zero {sub w : List UInt8} : OccursAt sub w 0 ↔ sub <+: w :=
  ⟨fun h => h.2, fun h => ⟨by simpa using h.length_le, h⟩⟩

@[simp] theorem occursAt_cons {c : UInt8} {sub w : List UInt8} {i : ℕ} :
    OccursAt sub (c :: w) (i + 1) ↔ OccursAt sub w i := by
  rw [OccursAt, OccursAt, List.drop_succ_cons, List.length_cons, Nat.add_right_comm,
    Nat.add_le_add_iff_right]

theorem OccursAt.isInfix {sub w : List UInt8} {i : ℕ} (h : OccursAt sub w i) : sub <:+: w :=
  h.2.isInfix.trans (List.drop_suffix i w).isInfix

/-- **Where a string is found** is the leftmost of the places at which it stands. -/
theorem isLeast_firstAt {sub w : List UInt8} {i : ℕ} (h : firstAt sub w = some i) :
    IsLeast {j | OccursAt sub w j} i := by
  induction w generalizing i with
  | nil =>
    rw [firstAt] at h
    split_ifs at h with hnil
    cases h
    exact ⟨occursAt_zero.2 (hnil ▸ List.nil_prefix), fun j _ => Nat.zero_le j⟩
  | cons c w ih =>
    rw [firstAt] at h
    split_ifs at h with hpre
    · cases h
      exact ⟨occursAt_zero.2 hpre, fun j _ => Nat.zero_le j⟩
    · obtain ⟨i, hi, rfl⟩ := Option.map_eq_some_iff.1 h
      have hleast := ih hi
      refine ⟨occursAt_cons.2 hleast.1, fun j hj => ?_⟩
      cases j with
      | zero => exact absurd (occursAt_zero.1 hj) hpre
      | succ j => exact Nat.succ_le_succ (hleast.2 (occursAt_cons.1 hj))

theorem firstAt_eq_some_iff {sub w : List UInt8} {i : ℕ} :
    firstAt sub w = some i ↔ IsLeast {j | OccursAt sub w j} i := by
  refine ⟨isLeast_firstAt, fun hleast => ?_⟩
  obtain ⟨j, hj⟩ := exists_firstAt (OccursAt.isInfix hleast.1)
  rw [hj, (isLeast_firstAt hj).unique hleast]

theorem firstAt_eq_none_iff {sub w : List UInt8} :
    firstAt sub w = none ↔ ∀ i, ¬OccursAt sub w i := by
  constructor
  · intro hnone i hi
    obtain ⟨j, hj⟩ := exists_firstAt hi.isInfix
    rw [hnone] at hj
    cases hj
  · intro hnone
    cases hfirst : firstAt sub w with
    | none => rfl
    | some i => exact absurd (isLeast_firstAt hfirst).1 (hnone i)

theorem cstr_append {a : List UInt8} (ha : 0 ∉ a) (b : List UInt8) : cstr (a ++ b) = a ++ cstr b :=
  List.takeWhile_append_of_pos fun _ hc => decide_eq_true fun hzero => ha (hzero ▸ hc)

theorem cstr_of_notMem {s : List UInt8} (h : 0 ∉ s) : cstr s = s := by
  simpa [cstr] using cstr_append h []

/-- A C string ends with the first zero. -/
theorem cstr_append_zero (a b : List UInt8) : cstr (a ++ 0 :: b) = cstr a := by
  induction a with
  | nil => rfl
  | cons c a ih =>
    by_cases hc : c = 0
    · simp [cstr, hc]
    · simpa [cstr, hc] using ih

/-- What a string that is found stands between. -/
theorem firstAt_split {sub w : List UInt8} {i : ℕ} (h : firstAt sub w = some i) :
    w = w.take i ++ (sub ++ w.drop (i + sub.length)) := by
  induction w generalizing i with
  | nil =>
    rw [firstAt] at h
    split_ifs at h with hnil
    cases h
    simp [hnil]
  | cons c w ih =>
    rw [firstAt] at h
    split_ifs at h with hpre
    · cases h
      obtain ⟨t, ht⟩ := hpre
      rw [← ht]
      simp
    · obtain ⟨j, hj, rfl⟩ := Option.map_eq_some_iff.1 h
      rw [List.take_succ_cons, Nat.add_right_comm, List.drop_succ_cons, List.cons_append, ← ih hj]

/-- A string that is found in a text is found at the same place in a longer one. -/
theorem firstAt_append_right {sub w : List UInt8} {i : ℕ} (h : firstAt sub w = some i)
    (rest : List UInt8) : firstAt sub (w ++ rest) = some i := by
  induction w generalizing i with
  | nil =>
    rw [firstAt] at h
    split_ifs at h with hnil
    cases h
    exact firstAt_of_isPrefix (hnil ▸ List.nil_prefix)
  | cons c w ih =>
    rw [firstAt] at h
    split_ifs at h with hpre
    · cases h
      exact firstAt_of_isPrefix (hpre.trans (List.prefix_append _ rest))
    · obtain ⟨j, hj, rfl⟩ := Option.map_eq_some_iff.1 h
      have hle := firstAt_le hj
      have hpre' : ¬ sub <+: c :: (w ++ rest) := by
        intro hlong
        refine hpre (List.prefix_of_prefix_length_le hlong (List.prefix_append (c :: w) rest) ?_)
        rw [List.length_cons]
        omega
      rw [List.cons_append, firstAt, if_neg hpre', ih hj, Option.map_some]

/-! ### Between two marks -/

/-- The text behind the first `prev`. -/
def restBehind (prev w : List UInt8) : Option (List UInt8) :=
  (firstAt prev w).map fun i => w.drop (i + prev.length)

/-- What stands behind `prev`, up to `post` or to the end. -/
def behind (prev post w : List UInt8) : Option (List UInt8) :=
  (restBehind prev w).map fun rest => rest.take ((firstAt post rest).getD rest.length)

/-- What stands between `prev` and `post`. -/
def between (prev post w : List UInt8) : Option (List UInt8) :=
  (restBehind prev w).bind fun rest => (firstAt post rest).map fun j => rest.take j

theorem restBehind_append {prev w rest : List UInt8} (h : restBehind prev w = some rest)
    (more : List UInt8) : restBehind prev (w ++ more) = some (rest ++ more) := by
  obtain ⟨i, hi, rfl⟩ := Option.map_eq_some_iff.1 h
  rw [restBehind, firstAt_append_right hi, Option.map_some,
    List.drop_append_of_le_length (firstAt_le hi)]

theorem behind_of_between {prev post w v : List UInt8} (h : between prev post w = some v) :
    behind prev post w = some v := by
  obtain ⟨rest, hrest, h⟩ := Option.bind_eq_some_iff.1 h
  obtain ⟨j, hj, rfl⟩ := Option.map_eq_some_iff.1 h
  rw [behind, hrest, Option.map_some, hj, Option.getD_some]

/-- With a byte more, which may be the mark at the end, what stands behind `prev` is what stands
between the marks, if both are there. -/
theorem between_concat {prev w v : List UInt8} {c d : UInt8} (h : behind prev [d] w = some v) :
    between prev [d] (w ++ [c]) = some v ∨ between prev [d] (w ++ [c]) = none := by
  obtain ⟨rest, hrest, rfl⟩ := Option.map_eq_some_iff.1 h
  rw [between, restBehind_append hrest, Option.bind_some]
  cases hpost : firstAt [d] rest with
  | some j =>
    have hle := firstAt_le hpost
    rw [firstAt_append_right hpost, Option.map_some, Option.getD_some,
      List.take_append_of_le_length (Nat.le_of_add_right_le hle)]
    exact .inl rfl
  | none =>
    have hmem : d ∉ rest := by
      intro hmem
      obtain ⟨j, hj⟩ := exists_firstAt ((List.singleton_infix_iff d rest).2 hmem)
      rw [hpost] at hj
      cases hj
    by_cases hc : c = d
    · subst hc
      have hat : firstAt [c] (rest ++ [c]) = some rest.length := firstAt_append [] hmem
      rw [hat, Option.map_some, List.take_left, Option.getD_none, List.take_length]
      exact .inl rfl
    · have hmem' : d ∉ rest ++ [c] := by simp [hmem, Ne.symm hc]
      rw [firstAt_of_notMem hmem', Option.map_none]
      exact .inr rfl

/-! ### Blanks -/

theorem skipSpaces_replicate (n : ℕ) {w : List UInt8} (hw : w.head? ≠ some 32) :
    skipSpaces (List.replicate n 32 ++ w) = w := by
  have hblank : ∀ c ∈ List.replicate n (32 : UInt8), decide (c = 32) = true := by simp
  rw [skipSpaces, List.dropWhile_append_of_pos hblank]
  cases w with
  | nil => rfl
  | cons c w => exact List.dropWhile_cons_of_neg (by simpa using hw)

theorem takeWhile_eq_nil {w : List UInt8} (hw : w.head? ≠ some 32) :
    w.takeWhile (· = 32) = [] := by
  cases w with
  | nil => rfl
  | cons c w => exact List.takeWhile_cons_of_neg (by simpa using hw)

theorem takeWhile_replicate (n : ℕ) {w : List UInt8} (hw : w.head? ≠ some 32) :
    (List.replicate n 32 ++ w).takeWhile (· = 32) = List.replicate n 32 := by
  have hblank : ∀ c ∈ List.replicate n (32 : UInt8), decide (c = 32) = true := by simp
  rw [List.takeWhile_append_of_pos hblank, takeWhile_eq_nil hw, List.append_nil]

/-- The blanks in front of a text, and the rest. -/
theorem exists_blanks (w : List UInt8) :
    w = List.replicate (w.takeWhile (· = 32)).length 32 ++ skipSpaces w := by
  have hblank : w.takeWhile (· = 32) = List.replicate (w.takeWhile (· = 32)).length 32 :=
    List.eq_replicate_of_mem fun c hc => by simpa using List.mem_takeWhile_imp hc
  rw [← hblank]
  exact (List.takeWhile_append_dropWhile).symm

theorem skipSpaces_head (w : List UInt8) : (skipSpaces w).head? ≠ some 32 := by
  intro h
  have hnot := List.head?_dropWhile_not (fun c : UInt8 => decide (c = 32)) w
  rw [show w.dropWhile (fun c => decide (c = 32)) = skipSpaces w from rfl, h] at hnot
  simp at hnot

theorem skipSpaces_eq_nil {w : List UInt8} (h : skipSpaces w = []) :
    w = List.replicate w.length 32 :=
  List.eq_replicate_of_mem fun c hc => of_decide_eq_true (List.dropWhile_eq_nil_iff.1 h c hc)

theorem trimEnd_eq_self {w : List UInt8} (hw : w.getLast? ≠ some 32) : trimEnd w = w := by
  rw [trimEnd, List.rdropWhile_eq_self_iff]
  intro hne
  rw [List.getLast?_eq_getLast_of_ne_nil hne] at hw
  simpa using hw

theorem trimEnd_replicate (n : ℕ) {w : List UInt8} (hw : w.getLast? ≠ some 32) :
    trimEnd (w ++ List.replicate n 32) = w := by
  induction n with
  | zero => rw [List.replicate_zero, List.append_nil, trimEnd_eq_self hw]
  | succ n ih =>
    rw [List.replicate_succ', ← List.append_assoc, trimEnd,
      List.rdropWhile_concat_pos _ _ _ (by simp)]
    exact ih

/-! ### Fields -/

/-- The fields that a separator ends, from left to right, and the text behind the last one. -/
def fields (sep w : List UInt8) : List (List UInt8) × List UInt8 :=
  match _h : firstAt sep w with
  | none => ([], w)
  | some i =>
    if _hsep : sep = [] then ([], w)
    else
      let next := fields sep (w.drop (i + sep.length))
      (w.take i :: next.1, next.2)
termination_by w.length
decreasing_by
  have hle := firstAt_le ‹_›
  have hpos := List.length_pos_iff.2 ‹¬ sep = []›
  rw [List.length_drop]
  omega

/-- The fields, the text behind the last separator being one of them when it is not empty. -/
def segments (sep w : List UInt8) : List (List UInt8) :=
  if (fields sep w).2 = [] then (fields sep w).1 else (fields sep w).1 ++ [(fields sep w).2]

theorem fields_of_none {sep w : List UInt8} (h : firstAt sep w = none) :
    fields sep w = ([], w) := by
  rw [fields]
  split
  · rfl
  · rename_i i hi
    rw [h] at hi
    cases hi

theorem fields_of_some {sep w : List UInt8} {i : ℕ} (hsep : sep ≠ [])
    (h : firstAt sep w = some i) :
    fields sep w = (w.take i :: (fields sep (w.drop (i + sep.length))).1,
      (fields sep (w.drop (i + sep.length))).2) := by
  rw [fields]
  split
  · rename_i hi
    rw [h] at hi
    cases hi
  · rename_i j hj
    cases h.symm.trans hj
    rw [dif_neg hsep]

theorem segments_nil {sep : List UInt8} (hsep : sep ≠ []) : segments sep [] = [] := by
  have h : firstAt sep [] = none := if_neg hsep
  rw [segments, fields_of_none h, if_pos rfl]

theorem segments_of_none {sep w : List UInt8} (h : firstAt sep w = none) (hw : w ≠ []) :
    segments sep w = [w] := by
  rw [segments, fields_of_none h, if_neg hw]
  rfl

theorem segments_of_some {sep w : List UInt8} {i : ℕ} (hsep : sep ≠ [])
    (h : firstAt sep w = some i) :
    segments sep w = w.take i :: segments sep (w.drop (i + sep.length)) := by
  rw [segments, segments, fields_of_some hsep h]
  split_ifs
  · rfl
  · rfl

/-- Fields, each with the separator behind it, are the segments of their text. -/
theorem segments_flatMap {d : UInt8} {fs : List (List UInt8)} (h : ∀ s ∈ fs, d ∉ s) :
    segments [d] (fs.flatMap fun s => s ++ [d]) = fs := by
  have hsep : [d] ≠ [] := List.cons_ne_nil d []
  induction fs with
  | nil => exact segments_nil hsep
  | cons s fs ih =>
    obtain ⟨hs, hrest⟩ := List.forall_mem_cons.1 h
    have hat : firstAt [d] (s ++ ([d] ++ fs.flatMap fun s => s ++ [d])) = some s.length :=
      firstAt_append _ hs
    rw [List.flatMap_cons, List.append_assoc, segments_of_some hsep hat, List.take_left,
      ← List.length_append, ← List.append_assoc, List.drop_left, ih hrest]

/-- Nothing is left behind the last field. -/
theorem fields_flatMap {d : UInt8} {fs : List (List UInt8)} (h : ∀ s ∈ fs, d ∉ s) :
    fields [d] (fs.flatMap fun s => s ++ [d]) = (fs, []) := by
  have hsep : [d] ≠ [] := List.cons_ne_nil d []
  induction fs with
  | nil => exact fields_of_none (if_neg hsep)
  | cons s fs ih =>
    obtain ⟨hs, hrest⟩ := List.forall_mem_cons.1 h
    have hat : firstAt [d] (s ++ ([d] ++ fs.flatMap fun s => s ++ [d])) = some s.length :=
      firstAt_append _ hs
    rw [List.flatMap_cons, List.append_assoc, fields_of_some hsep hat, List.take_left,
      ← List.length_append, ← List.append_assoc, List.drop_left, ih hrest]

/-! ### Scans -/

/-- From `p` forward to the next `c`, or to the end. -/
def scanTo (c : UInt8) (w : List UInt8) (p : ℕ) : ℕ :=
  p + ((w.drop p).takeWhile (· ≠ c)).length

/-- From the third position back to the next `c`, or to `p`. -/
def scanBack (c : UInt8) (w : List UInt8) (p : ℕ) : ℕ → ℕ
  | 0 => 0
  | q + 1 => if p < q + 1 ∧ w[q + 1]? ≠ some c then scanBack c w p q else q + 1

theorem le_scanTo (c : UInt8) (w : List UInt8) (p : ℕ) : p ≤ scanTo c w p := Nat.le_add_right _ _

theorem lt_scanTo {c : UInt8} {w : List UInt8} {p : ℕ} (hp : p < w.length) (hc : w.getD p 0 ≠ c) :
    p < scanTo c w p := by
  have hget : w.getD p 0 = w[p] := by simp [hp]
  rw [hget] at hc
  rw [scanTo, List.drop_eq_getElem_cons hp, List.takeWhile_cons_of_pos (by simpa using hc),
    List.length_cons]
  omega

theorem scanTo_eq (c : UInt8) (w : List UInt8) (p : ℕ) :
    scanTo c w p = p + (w.drop p).findIdx (· = c) := by
  rw [scanTo, List.takeWhile_eq_take_findIdx_not, List.length_take_of_le]
  · congr 2
    funext d
    simp
  · exact List.findIdx_le_length

/-- There is no `c` on the way. -/
theorem scanTo_before {c : UInt8} {w : List UInt8} {p i : ℕ} (hp : p ≤ i) (hi : i < scanTo c w p) :
    w[i]? ≠ some c := by
  obtain ⟨k, rfl⟩ := Nat.exists_eq_add_of_le hp
  rw [scanTo_eq] at hi
  have hk : k < (w.drop p).findIdx (· = c) := by omega
  have hlen : k < (w.drop p).length := hk.trans_le List.findIdx_le_length
  have hne := List.not_of_lt_findIdx hk
  rw [← List.getElem?_drop, List.getElem?_eq_getElem hlen]
  simpa using hne

/-- A scan forward that does not reach the end stops at a `c`. -/
theorem scanTo_get {c : UInt8} {w : List UInt8} {p : ℕ} (h : scanTo c w p < w.length) :
    w[scanTo c w p]? = some c := by
  rw [scanTo_eq] at h ⊢
  have hlen : (w.drop p).findIdx (· = c) < (w.drop p).length := by
    rw [List.length_drop]
    omega
  have hc := @List.findIdx_getElem _ (fun d : UInt8 => decide (d = c)) (w.drop p) hlen
  rw [← List.getElem?_drop, List.getElem?_eq_getElem hlen]
  simpa using hc

/-- A scan forward stops at the first `c`. -/
theorem scanTo_eq_of {c : UInt8} {w : List UInt8} {p q : ℕ} (hp : p ≤ q) (hq : w[q]? = some c)
    (hbefore : ∀ i, p ≤ i → i < q → w[i]? ≠ some c) : scanTo c w p = q := by
  rcases lt_trichotomy (scanTo c w p) q with hlt | heq | hgt
  · have hlen : q < w.length := (List.getElem?_eq_some_iff.1 hq).1
    exact absurd (scanTo_get (hlt.trans hlen)) (hbefore _ (le_scanTo c w p) hlt)
  · exact heq
  · exact absurd hq (scanTo_before hp hgt)

/-- Forward over a part without `c`. -/
theorem scanTo_append {c : UInt8} (a : List UInt8) {b rest : List UInt8} (hb : c ∉ b)
    (hrest : ∀ d ∈ rest.head?, d = c) :
    scanTo c (a ++ (b ++ rest)) a.length = a.length + b.length := by
  have hpart : ∀ d ∈ b, decide (d ≠ c) = true := fun d hd =>
    decide_eq_true fun hdc => hb (hdc ▸ hd)
  have hstop : rest.takeWhile (· ≠ c) = [] := by
    cases rest with
    | nil => rfl
    | cons d rest => simp [hrest d rfl]
  rw [scanTo, List.drop_left, List.takeWhile_append_of_pos hpart, hstop, List.append_nil]

/-- Back over a part without `c`, to the `c` before it. -/
theorem scanBack_append {c : UInt8} {a b : List UInt8} {p n : ℕ} (hp : p ≤ a.length) (hb : c ∉ b)
    (hn : n ≤ b.length) : scanBack c (a ++ c :: b) p (a.length + n) = a.length := by
  induction n with
  | zero =>
    cases h : a.length with
    | zero => rfl
    | succ k =>
      have hc : (a ++ c :: b)[k + 1]? = some c := by
        rw [← h, List.getElem?_append_right le_rfl, Nat.sub_self]
        rfl
      exact if_neg fun hgo => hgo.2 hc
  | succ n ih =>
    have hc : (a ++ c :: b)[a.length + n + 1]? ≠ some c := by
      rw [List.getElem?_append_right (by omega), show a.length + n + 1 - a.length = n + 1 by omega,
        List.getElem?_cons_succ]
      exact fun hget => hb (List.mem_of_getElem? hget)
    have hgo : p < a.length + n + 1 := by omega
    exact (if_pos ⟨hgo, hc⟩).trans (ih (by omega))

theorem le_scanBack {c : UInt8} {w : List UInt8} {p q : ℕ} (hle : p ≤ q) :
    p ≤ scanBack c w p q := by
  induction q with
  | zero => exact hle
  | succ q ih =>
    rw [scanBack]
    split_ifs with hgo
    · exact ih (by omega)
    · exact hle

/-- There is no `c` on the way back. -/
theorem scanBack_behind {c : UInt8} {w : List UInt8} {p q i : ℕ} (hi : scanBack c w p q < i)
    (hq : i ≤ q) : w[i]? ≠ some c := by
  induction q with
  | zero => omega
  | succ q ih =>
    rw [scanBack] at hi
    split_ifs at hi with hgo
    · rcases Nat.lt_or_eq_of_le hq with hlt | rfl
      · exact ih hi (by omega)
      · exact hgo.2
    · omega

/-- A scan back that begins behind a `c` ends at one. -/
theorem scanBack_get {c : UInt8} {w : List UInt8} {p q : ℕ} (hp : w[p]? = some c) (hle : p ≤ q) :
    w[scanBack c w p q]? = some c := by
  induction q with
  | zero => rwa [scanBack, ← Nat.le_zero.1 hle]
  | succ q ih =>
    rw [scanBack]
    split_ifs with hgo
    · exact ih (by omega)
    · rcases Nat.lt_or_eq_of_le hle with hlt | rfl
      · exact not_not.1 fun hc => hgo ⟨hlt, hc⟩
      · exact hp

end CString
