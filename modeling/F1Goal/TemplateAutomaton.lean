import F1Goal.TemplateReading

/-!
# The automaton of `find_variable`

`find_variable` reads a text with three flags and a pointer, and moves the text on its way.
`findVariable_spec` says that it finds what `nextVar` finds in the bytes that were there before.
-/

namespace F1Goal

/-- What `find_variable` has found is what comes next; the text begins at `e`, and nothing before it
has changed. -/
def FoundSpec (buf : ℤ → UInt8) (e : ℤ) : Next → Found → Prop
  | .err, .err => True
  | .text lit, .none buf' pe =>
    (∀ i < e, buf' i = buf i) ∧ Mem.slice buf' e lit.length = lit ∧ pe = e + lit.length
  | .var lit name rest, .var buf' pe vtagB vtagE =>
    (∀ i < e, buf' i = buf i) ∧ Mem.slice buf' e lit.length = lit ∧ vtagB = e + lit.length + 1 ∧
      Mem.slice buf' (vtagB + 1) name.length = name ∧ vtagE = vtagB + 1 + name.length ∧
      Mem.slice buf' (vtagE + 1) rest.length = rest ∧ pe = vtagE + 1 + rest.length
  | _, _ => False

theorem FoundSpec.push {buf buf₁ : ℤ → UInt8} {e : ℤ} {next : Next} {found : Found}
    (h : FoundSpec buf₁ (e + 1) next found) (hframe : ∀ i < e, buf₁ i = buf i) :
    FoundSpec buf e (next.push (buf₁ e)) found := by
  have hslice : ∀ (buf' : ℤ → UInt8) (lit : List UInt8), (∀ i < e + 1, buf' i = buf₁ i) →
      Mem.slice buf' (e + 1) lit.length = lit →
        Mem.slice buf' e (buf₁ e :: lit).length = buf₁ e :: lit := by
    intro buf' lit hsame hlit
    rw [List.length_cons, Mem.slice_succ, hlit, hsame e (by omega)]
  cases next with
  | err => cases found <;> exact h
  | text lit =>
    cases found with
    | none buf' pe =>
      obtain ⟨hsame, hlit, rfl⟩ := h
      refine ⟨fun i hi => (hsame i (by omega)).trans (hframe i hi), hslice _ _ hsame hlit, ?_⟩
      rw [List.length_cons]
      push_cast
      ring
    | _ => exact h
  | var lit name rest =>
    cases found with
    | var buf' pe vtagB vtagE =>
      obtain ⟨hsame, hlit, rfl, hrest⟩ := h
      refine ⟨fun i hi => (hsame i (by omega)).trans (hframe i hi), hslice _ _ hsame hlit, ?_, hrest⟩
      rw [List.length_cons]
      push_cast
      ring
    | _ => exact h

/-- Where the automaton stands: the flags, and the position `e` from which the text has not been
accounted for. -/
def InMode (s : FindVar) (e : ℤ) : Mode → Prop
  | .plain => s.prefixFound = false ∧ (s.varFlagFound = true → s.pVarFlag + 1 < s.pb) ∧ e = s.pb
  | .dollar =>
    s.prefixFound = false ∧ s.varFlagFound = true ∧ s.pb = s.pVarFlag + 1 ∧ s.buf s.pVarFlag = 36 ∧
      e = s.pVarFlag
  | .name acc =>
    s.prefixFound = true ∧ s.varFlagFound = true ∧ s.vtagB = s.pVarFlag + 1 ∧
      s.pb = s.vtagB + 1 + acc.length ∧ Mem.slice s.buf (s.vtagB + 1) acc.length = acc ∧
      e = s.pVarFlag

/-- The text ends with a newline; in a name it has not been passed yet. -/
def Ended (w : List UInt8) : Mode → Prop
  | .name _ => w.getLast? = some 10
  | _ => w = [] ∨ w.getLast? = some 10

theorem ended_tail {c : UInt8} {w : List UInt8} (h : (c :: w).getLast? = some 10) :
    (w = [] ∧ c = 10) ∨ w.getLast? = some 10 := by
  cases w with
  | nil => exact .inl ⟨rfl, by simpa using h⟩
  | cons d w => exact .inr (by rwa [List.getLast?_cons_cons] at h)

/-- `$$`: the text from the second dollar sign on moves one place to the left. -/
theorem moveText_spec (buf : ℤ → UInt8) (p : ℤ) (n : ℕ) :
    (∀ i < p, moveText buf p (p + 1) (n + 1) i = buf i) ∧
      moveText buf p (p + 1) (n + 1) p = buf (p + 1) ∧
      Mem.slice (moveText buf p (p + 1) (n + 1)) (p + 1) n = Mem.slice buf (p + 1 + 1) n := by
  have hat : ∀ j : ℕ, j < n + 1 → moveText buf p (p + 1) (n + 1) (p + j) = buf (p + 1 + j) := by
    intro j hj
    rw [moveText, Mem.store_add (by simpa using hj), Mem.getElem_slice]
  refine ⟨fun i hi => Mem.store_of_lt hi, by simpa using hat 0 (Nat.succ_pos n), ?_⟩
  refine Mem.slice_congr fun i hi => ?_
  have h := hat (i + 1) (by omega)
  push_cast at h
  rw [show p + 1 + (i : ℤ) = p + (i + 1) by ring, h]
  congr 1
  ring

/-- A turn in the text: a dollar sign may begin a variable. -/
theorem plain_turn {s : FindVar} {e : ℤ} (h : InMode s e .plain) (n : ℕ) :
    ∃ s', findVariable (n + 1) s = findVariable n s' ∧ s'.buf = s.buf ∧ s'.pb = s.pb + 1 ∧
      if s.buf s.pb = 36 then InMode s' s.pb .dollar else InMode s' (s.pb + 1) .plain := by
  obtain ⟨hpre, hflag, rfl⟩ := h
  have hfar : s.varFlagFound = true → s.pb ≠ s.pVarFlag + 1 ∧ s.pb - s.pVarFlag ≠ 1 :=
    fun hfound => ⟨(hflag hfound).ne', by have := hflag hfound; omega⟩
  by_cases hc : s.buf s.pb = 36
  · simp only [if_pos hc]
    refine ⟨{ s with varFlagFound := true, pVarFlag := s.pb, pb := s.pb + 1 }, ?_, rfl, rfl,
      hpre, rfl, rfl, hc, rfl⟩
    cases hfound : s.varFlagFound with
    | false => simp [findVariable, hc, hfound]
    | true => simp [findVariable, hc, hfound, hpre, hfar hfound]
  simp only [if_neg hc]
  by_cases hopen : s.buf s.pb = 123 ∧ s.varFlagFound = true
  · exact ⟨{ s with varFlagFound := false, pb := s.pb + 1 },
      by simp [findVariable, hopen, hpre, hfar hopen.2], rfl, rfl, hpre, by simp, rfl⟩
  · refine ⟨{ s with pb := s.pb + 1 }, ?_, rfl, rfl, hpre,
      fun hfound => lt_add_of_lt_of_pos (hflag hfound) one_pos, rfl⟩
    cases hfound : s.varFlagFound with
    | false => simp [findVariable, hc, hfound, hpre]
    | true =>
      have hopen : s.buf s.pb ≠ 123 := fun h => hopen ⟨h, hfound⟩
      simp [findVariable, hc, hfound, hpre, hopen]

/-- The second dollar sign of an escape stays, and the text goes on behind it. -/
theorem dollar_escape {s : FindVar} {e : ℤ} (h : InMode s e .dollar) (n : ℕ)
    (hdollar : s.buf s.pb = 36) :
    ∃ s', findVariable (n + 1) s = findVariable n s' ∧ InMode s' (e + 1) .plain ∧
      (∀ i < e, s'.buf i = s.buf i) ∧ s'.buf e = 36 ∧
      Mem.slice s'.buf s'.pb n = Mem.slice s.buf (s.pb + 1) n := by
  obtain ⟨hpre, hfound, hpb, -, rfl⟩ := h
  refine ⟨{ s with buf := moveText s.buf s.pVarFlag s.pb (n + 1), varFlagFound := false },
    by rw [findVariable, if_pos hdollar, if_pos hfound, if_pos hpb], ⟨hpre, by simp, hpb.symm⟩, ?_⟩
  obtain ⟨hframe, hat, hrest⟩ := moveText_spec s.buf s.pVarFlag n
  rw [hpb] at hdollar ⊢
  exact ⟨hframe, hat.trans hdollar, hrest⟩

/-- A turn behind a dollar sign that is followed neither by another one nor by a brace. -/
theorem dollar_turn {s : FindVar} {e : ℤ} (h : InMode s e .dollar) (n : ℕ)
    (hdollar : s.buf s.pb ≠ 36) (hopen : s.buf s.pb ≠ 123) :
    findVariable (n + 1) s = findVariable n { s with pb := s.pb + 1 } ∧
      InMode { s with pb := s.pb + 1 } (s.pb + 1) .plain := by
  obtain ⟨hpre, hfound, hpb, -⟩ := h
  exact ⟨by simp [findVariable, hdollar, hopen, hpre], hpre, fun _ => by simp [hpb], rfl⟩

/-- The brace behind a dollar sign opens a name. -/
theorem brace_turn {s : FindVar} {e : ℤ} (h : InMode s e .dollar) (n : ℕ)
    (hopen : s.buf s.pb = 123) :
    findVariable (n + 1) s =
        findVariable n { s with vtagB := s.pb, prefixFound := true, pb := s.pb + 1 } ∧
      InMode { s with vtagB := s.pb, prefixFound := true, pb := s.pb + 1 } e (.name []) := by
  obtain ⟨-, hfound, hpb, -, rfl⟩ := h
  refine ⟨?_, rfl, hfound, hpb, by simp, rfl, rfl⟩
  rw [findVariable, if_neg (by rw [hopen]; decide), if_pos hopen, if_pos hfound,
    if_pos (by omega)]

/-- The characters that mean something to the automaton are not accepted in a name. -/
theorem checkSyntaxChars_ne {c : UInt8} (h : checkSyntaxChars c = true) :
    c ≠ 36 ∧ c ≠ 123 ∧ c ≠ 10 := by
  refine ⟨?_, ?_, ?_⟩ <;> rintro rfl <;> exact absurd h (by decide)

/-- A turn in a name: the name goes on, is closed, or is not one. -/
theorem name_turn {s : FindVar} {e : ℤ} {acc : List UInt8} (h : InMode s e (.name acc)) (n : ℕ) :
    if s.buf s.pb = 125 then
      findVariable (n + 1) s =
        if acc = [] then .err else .var s.buf (s.pb + (n + 1)) s.vtagB s.pb
    else if checkSyntaxChars (s.buf s.pb) then
      findVariable (n + 1) s = findVariable n { s with pb := s.pb + 1 } ∧
        InMode { s with pb := s.pb + 1 } e (.name (acc ++ [s.buf s.pb]))
    else findVariable (n + 1) s = .err := by
  obtain ⟨hpre, hfound, hvtag, hpb, hacc, rfl⟩ := h
  by_cases hclose : s.buf s.pb = 125
  · have hempty : s.pb - s.vtagB = 1 ↔ acc = [] := by
      rw [← List.length_eq_zero_iff]
      omega
    simp only [findVariable, hclose, hpre, hempty, if_pos]
    rfl
  simp only [if_neg hclose]
  by_cases hchar : checkSyntaxChars (s.buf s.pb) = true
  · obtain ⟨hdollar, hopen, -⟩ := checkSyntaxChars_ne hchar
    rw [if_pos hchar]
    refine ⟨by simp [findVariable, hdollar, hopen, hclose, hpre, hchar], hpre, hfound, hvtag,
      ?_, ?_, rfl⟩
    · simp [hpb]
      ring
    · rw [List.length_append, List.length_singleton, Mem.slice_add, hacc, ← hpb]
      simp [Mem.slice_succ]
  · have hfar : s.pb ≠ s.pVarFlag + 1 ∧ s.pb - s.pVarFlag ≠ 1 := by omega
    simp [findVariable, hclose, hchar, hpre, hfound, hfar]

/-- In a name, the text ends with a newline that has not been passed yet, or begins with `${`. -/
def Marked (s : FindVar) (e : ℤ) (w : List UInt8) : Mode → Prop
  | .name _ => w.getLast? = some 10 ∨ s.buf e = 36 ∧ s.buf (e + 1) = 123
  | _ => True

/-- **`find_variable`** finds what comes next in any text. -/
theorem findVariable_open (n : ℕ) :
    ∀ (s : FindVar) (m : Mode) (e : ℤ), InMode s e m → Marked s e (Mem.slice s.buf s.pb n) m →
      FoundSpec s.buf e (nextOpen m (Mem.slice s.buf s.pb n)) (findVariable n s) := by
  -- on the bytes to go; the invariant is that the flags say in which mode the reading is
  induction n with
  | zero =>
    intro s m e hm hmark
    cases m with
    | plain =>
      obtain ⟨-, -, rfl⟩ := hm
      exact ⟨fun _ _ => rfl, rfl, by simp⟩
    | dollar =>
      obtain ⟨-, -, hpb, hdollar, rfl⟩ := hm
      exact ⟨fun _ _ => rfl, by simp [Mem.slice_succ, hdollar], by simpa using hpb⟩
    | name acc =>
      obtain ⟨-, -, hvtag, hpb, hacc, rfl⟩ := hm
      obtain ⟨hdollar, hopen⟩ := hmark.resolve_left (by simp)
      rw [hvtag] at hacc
      refine ⟨fun _ _ => rfl, ?_, ?_⟩
      · rw [List.length_cons, List.length_cons, Mem.slice_succ, Mem.slice_succ, hdollar, hopen, hacc]
      · rw [List.length_cons, List.length_cons, hpb, hvtag]
        push_cast
        ring
  | succ n ih =>
    intro s m e hm hmark
    rw [Mem.slice_succ] at hmark ⊢
    cases m with
    | plain =>
      obtain ⟨s', heq, hbuf, hpb, hmode⟩ := plain_turn hm n
      obtain ⟨-, -, rfl⟩ := hm
      rw [← hpb, ← hbuf] at hmode ⊢
      rw [heq, nextOpen]
      by_cases hc : s'.buf s.pb = 36
      · rw [if_pos hc] at hmode ⊢
        exact ih s' .dollar _ hmode trivial
      · rw [if_neg hc] at hmode ⊢
        rw [hpb] at hmode
        exact (ih s' .plain _ hmode trivial).push fun _ _ => rfl
    | dollar =>
      by_cases hdollar : s.buf s.pb = 36
      · obtain ⟨s', heq, hmode, hframe, hat, hrest⟩ := dollar_escape hm n hdollar
        rw [heq, nextOpen, if_pos hdollar, ← hrest, ← hat]
        exact (ih s' .plain _ hmode trivial).push hframe
      rw [nextOpen, if_neg hdollar]
      by_cases hopen : s.buf s.pb = 123
      · obtain ⟨heq, hmode⟩ := brace_turn hm n hopen
        obtain ⟨-, -, hpb, hflag, rfl⟩ := hm
        rw [if_pos hopen, heq]
        refine ih { s with vtagB := s.pb, prefixFound := true, pb := s.pb + 1 } (.name []) _ hmode
          (.inr ⟨hflag, ?_⟩)
        rw [← hpb]
        exact hopen
      · obtain ⟨heq, hmode⟩ := dollar_turn hm n hdollar hopen
        obtain ⟨-, -, hpb, hflag, rfl⟩ := hm
        rw [if_neg hopen, heq, ← hflag]
        refine FoundSpec.push ?_ fun _ _ => rfl
        rw [← hpb]
        exact (ih { s with pb := s.pb + 1 } .plain _ hmode trivial).push fun _ _ => rfl
    | name acc =>
      have hturn := name_turn hm n
      obtain ⟨-, -, hvtag, hpb, hacc, rfl⟩ := hm
      rw [nextOpen]
      by_cases hclose : s.buf s.pb = 125
      · rw [if_pos hclose] at hturn ⊢
        rw [hturn]
        by_cases hempty : acc = []
        · rw [if_pos hempty, if_pos hempty]
          trivial
        · rw [if_neg hempty, if_neg hempty]
          refine ⟨fun _ _ => rfl, rfl, by simpa using hvtag, hacc, hpb, ?_, ?_⟩
          · rw [Mem.length_slice]
          · rw [Mem.length_slice]
            ring
      rw [if_neg hclose] at hturn ⊢
      by_cases hchar : checkSyntaxChars (s.buf s.pb) = true
      · rw [if_pos hchar] at hturn ⊢
        rw [hturn.1]
        refine ih { s with pb := s.pb + 1 } (.name _) _ hturn.2 (hmark.imp_left fun hend => ?_)
        exact (ended_tail hend).resolve_left fun h => (checkSyntaxChars_ne hchar).2.2 h.2
      · rw [if_neg hchar] at hturn ⊢
        rw [hturn]
        trivial

/-- A text that ends with a newline cuts no name off. -/
theorem nextOpen_eq (w : List UInt8) :
    ∀ m : Mode, Ended w m → nextOpen m w = nextVar m w := by
  induction w with
  | nil =>
    intro m hend
    cases m with
    | name acc => simp [Ended] at hend
    | _ => rfl
  | cons c w ih =>
    intro m hend
    cases m with
    | plain =>
      have htail := (ended_tail (hend.resolve_left (List.cons_ne_nil _ _))).imp_left And.left
      rw [nextOpen, nextVar, ih .plain htail, ih .dollar htail]
    | dollar =>
      have htail := ended_tail (hend.resolve_left (List.cons_ne_nil _ _))
      rw [nextOpen, nextVar, ih .plain (htail.imp_left And.left)]
      by_cases hopen : c = 123
      · subst hopen
        rw [ih (.name []) (htail.resolve_left fun h => absurd h.2 (by decide))]
      · rw [if_neg hopen, if_neg hopen]
    | name acc =>
      rw [nextOpen, nextVar]
      by_cases hchar : checkSyntaxChars c = true
      · have htail := (ended_tail hend).resolve_left fun h => (checkSyntaxChars_ne hchar).2.2 h.2
        rw [ih (.name (acc ++ [c])) htail]
      · rw [if_neg hchar, if_neg hchar]

/-- **`find_variable`** finds what comes next in a text that ends with a newline. -/
theorem findVariable_spec (n : ℕ) (s : FindVar) (m : Mode) (e : ℤ) (hm : InMode s e m)
    (hend : Ended (Mem.slice s.buf s.pb n) m) :
    FoundSpec s.buf e (nextVar m (Mem.slice s.buf s.pb n)) (findVariable n s) := by
  rw [← nextOpen_eq _ m hend]
  refine findVariable_open n s m e hm ?_
  cases m with
  | name acc => exact .inl hend
  | _ => trivial

end F1Goal
