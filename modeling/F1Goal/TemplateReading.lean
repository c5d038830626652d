import F1Goal.Template

/-!
# Reading a template

`Reads t toks` reads a text from left to right: `$$` is a dollar sign, `${name}` a variable, and
every other byte stands for itself. `nextVar` looks for the next variable in a list of bytes, and
`nextVar_reads` says that it is the one that is read next.
-/

namespace F1Goal

/-- What a text is made of. -/
inductive Tok
  | lit (c : UInt8)
  | var (name : List UInt8)
  deriving DecidableEq, Repr

/-- A name has 1 to 64 characters, all of them accepted by `_check_syntax_chars`. -/
def ValidName (name : List UInt8) : Prop :=
  1 ≤ name.length ∧ name.length ≤ maxVarLen ∧ ∀ c ∈ name, checkSyntaxChars c = true

/-- The left-to-right reading of a text. -/
inductive Reads : List UInt8 → List Tok → Prop
  | nil : Reads [] []
  | escape {t toks} (h : Reads t toks) : Reads (36 :: 36 :: t) (.lit 36 :: toks)
  | var {name t toks} (hname : ValidName name) (h : Reads t toks) :
    Reads (36 :: 123 :: (name ++ 125 :: t)) (.var name :: toks)
  | lit {c t toks} (hc : c = 36 → t.head? ≠ some 36 ∧ t.head? ≠ some 123) (h : Reads t toks) :
    Reads (c :: t) (.lit c :: toks)

/-! ### One token -/

/-- The end of a run of accepted characters is determined. -/
theorem split_unique {p : UInt8 → Prop} {c d : UInt8} (hc : ¬ p c) (hd : ¬ p d) :
    ∀ {a b s t : List UInt8}, (∀ x ∈ a, p x) → (∀ x ∈ b, p x) → a ++ c :: s = b ++ d :: t →
      a = b ∧ c = d ∧ s = t
  | [], [], _, _, _, _, h => ⟨rfl, List.cons.inj h⟩
  | [], _ :: _, _, _, _, hb, h =>
    absurd (hb _ List.mem_cons_self) ((List.cons.inj h).1 ▸ hc)
  | _ :: _, [], _, _, ha, _, h =>
    absurd (ha _ List.mem_cons_self) ((List.cons.inj h).1 ▸ hd)
  | _ :: _, _ :: _, _, _, ha, hb, h => by
    obtain ⟨rfl, htail⟩ := List.cons.inj h
    obtain ⟨rfl, hrest⟩ := split_unique hc hd (fun x hx => ha x (List.mem_cons_of_mem _ hx))
      (fun x hx => hb x (List.mem_cons_of_mem _ hx)) htail
    exact ⟨rfl, hrest⟩

theorem reads_nil {toks : List Tok} : Reads [] toks ↔ toks = [] :=
  ⟨fun h => by cases h; rfl, fun h => h ▸ .nil⟩

theorem reads_plain {c : UInt8} (hc : c ≠ 36) {t : List UInt8} {toks : List Tok} :
    Reads (c :: t) toks ↔ ∃ toks', Reads t toks' ∧ toks = .lit c :: toks' := by
  constructor
  · intro h
    cases h with
    | lit _ h => exact ⟨_, h, rfl⟩
    | _ => exact absurd rfl hc
  · rintro ⟨toks', h, rfl⟩
    exact .lit (fun h => absurd h hc) h

theorem reads_escape {t : List UInt8} {toks : List Tok} :
    Reads (36 :: 36 :: t) toks ↔ ∃ toks', Reads t toks' ∧ toks = .lit 36 :: toks' := by
  constructor
  · intro h
    cases h with
    | escape h => exact ⟨_, h, rfl⟩
    | lit hc _ => exact absurd rfl (hc rfl).1
  · rintro ⟨toks', h, rfl⟩
    exact .escape h

/-- A dollar sign that stands for itself. -/
theorem reads_dollar {t : List UInt8} (ht : t.head? ≠ some 36 ∧ t.head? ≠ some 123)
    {toks : List Tok} :
    Reads (36 :: t) toks ↔ ∃ toks', Reads t toks' ∧ toks = .lit 36 :: toks' := by
  constructor
  · intro h
    cases h with
    | escape => exact absurd rfl ht.1
    | var => exact absurd rfl ht.2
    | lit _ h => exact ⟨_, h, rfl⟩
  · rintro ⟨toks', h, rfl⟩
    exact .lit (fun _ => ht) h

theorem reads_var {u : List UInt8} {toks : List Tok} :
    Reads (36 :: 123 :: u) toks ↔
      ∃ name t toks', u = name ++ 125 :: t ∧ ValidName name ∧ Reads t toks' ∧
        toks = .var name :: toks' := by
  constructor
  · intro h
    cases h with
    | var hname h => exact ⟨_, _, _, rfl, hname, h, rfl⟩
    | lit hc _ => exact absurd rfl (hc rfl).2
  · rintro ⟨name, t, toks', rfl, hname, h, rfl⟩
    exact .var hname h

/-- A brace behind accepted characters ends the name. -/
theorem reads_closed {acc t : List UInt8} (hacc : ∀ c ∈ acc, checkSyntaxChars c = true)
    {toks : List Tok} :
    Reads (36 :: 123 :: (acc ++ 125 :: t)) toks ↔
      ValidName acc ∧ ∃ toks', Reads t toks' ∧ toks = .var acc :: toks' := by
  rw [reads_var]
  constructor
  · rintro ⟨name, t', toks', heq, hname, h, rfl⟩
    obtain ⟨rfl, -, rfl⟩ := split_unique (by decide) (by decide) hacc hname.2.2 heq
    exact ⟨hname, toks', h, rfl⟩
  · rintro ⟨hname, toks', h, rfl⟩
    exact ⟨acc, t, toks', rfl, hname, h, rfl⟩

/-- A name goes on until the brace. -/
theorem not_reads_name {acc t : List UInt8} (hacc : ∀ c ∈ acc, checkSyntaxChars c = true)
    (ht : ∀ c, t.head? = some c → c ≠ 125 ∧ checkSyntaxChars c = false) (toks : List Tok) :
    ¬ Reads (36 :: 123 :: (acc ++ t)) toks := by
  rw [reads_var]
  rintro ⟨name, t', toks', heq, hname, -⟩
  cases t with
  | nil =>
    rw [List.append_nil] at heq
    exact absurd (hacc 125 (by simp [heq])) (by decide)
  | cons c t =>
    obtain ⟨hclose, hchar⟩ := ht c rfl
    exact hclose (split_unique (by simp [hchar]) (by decide) hacc hname.2.2 heq).2.1

/-- A text is read in one way. -/
theorem Reads.unique {t : List UInt8} {toks toks' : List Tok} (h : Reads t toks)
    (h' : Reads t toks') : toks = toks' := by
  induction h generalizing toks' with
  | nil => exact (reads_nil.1 h').symm
  | escape _ ih =>
    obtain ⟨rest, hrest, rfl⟩ := reads_escape.1 h'
    rw [ih hrest]
  | var hname _ ih =>
    obtain ⟨-, rest, hrest, rfl⟩ := (reads_closed hname.2.2).1 h'
    rw [ih hrest]
  | @lit c t toks hc _ ih =>
    have hread : Reads (c :: t) toks' ↔ ∃ rest, Reads t rest ∧ toks' = .lit c :: rest := by
      by_cases hdollar : c = 36
      · subst hdollar
        exact reads_dollar (hc rfl)
      · exact reads_plain hdollar
    obtain ⟨rest, hrest, rfl⟩ := hread.1 h'
    rw [ih hrest]

/-! ### The next variable -/

/-- The text up to the next variable, the variable, and the text behind it. -/
inductive Next
  | err
  | text (lit : List UInt8)
  | var (lit name rest : List UInt8)
  deriving DecidableEq, Repr

/-- A byte of text more. -/
def Next.push (c : UInt8) : Next → Next
  | .err => .err
  | .text lit => .text (c :: lit)
  | .var lit name rest => .var (c :: lit) name rest

/-- Where the reader stands: in the text, behind a `$` that is not part of an escape, or in a name,
of which `acc` has been read. -/
inductive Mode
  | plain
  | dollar
  | name (acc : List UInt8)

/-- Look for the next variable. -/
def nextVar : Mode → List UInt8 → Next
  | .plain, [] => .text []
  | .dollar, [] => .text [36]
  | .name _, [] => .err
  | .plain, c :: w => if c = 36 then nextVar .dollar w else (nextVar .plain w).push c
  | .dollar, c :: w =>
    if c = 36 then (nextVar .plain w).push 36
    else if c = 123 then nextVar (.name []) w
    else ((nextVar .plain w).push c).push 36
  | .name acc, c :: w =>
    if c = 125 then if acc = [] then .err else .var [] acc w
    else if checkSyntaxChars c then nextVar (.name (acc ++ [c])) w
    else .err

/-- Look for the next variable, as `find_variable` does: a name that the end of the text cuts off is
text. -/
def nextOpen : Mode → List UInt8 → Next
  | .plain, [] => .text []
  | .dollar, [] => .text [36]
  | .name acc, [] => .text (36 :: 123 :: acc)
  | .plain, c :: w => if c = 36 then nextOpen .dollar w else (nextOpen .plain w).push c
  | .dollar, c :: w =>
    if c = 36 then (nextOpen .plain w).push 36
    else if c = 123 then nextOpen (.name []) w
    else ((nextOpen .plain w).push c).push 36
  | .name acc, c :: w =>
    if c = 125 then if acc = [] then .err else .var [] acc w
    else if checkSyntaxChars c then nextOpen (.name (acc ++ [c])) w
    else .err

/-- What has been read in this mode. -/
def Mode.pre : Mode → List UInt8
  | .plain => []
  | .dollar => [36]
  | .name acc => 36 :: 123 :: acc

/-- What comes next tells how the text, followed by a newline, is read; behind a variable fewer than
`n` bytes are left. -/
def ReadsSpec (text : List UInt8) (n : ℕ) : Next → Prop
  | .err => ∀ toks, ¬ Reads text toks
  | .text lit => ∃ lit', lit = lit' ++ [10] ∧ ∀ toks, Reads text toks ↔ toks = lit'.map .lit
  | .var lit name rest =>
    ∃ t, rest = t ++ [10] ∧ t.length < n ∧ (name.length ≤ maxVarLen → ValidName name) ∧
      ∀ toks, Reads text toks ↔
        ValidName name ∧ ∃ toks', Reads t toks' ∧ toks = lit.map .lit ++ .var name :: toks'

theorem ReadsSpec.push {text text' : List UInt8} {n : ℕ} {c : UInt8} {next : Next}
    (h : ReadsSpec text n next)
    (hread : ∀ toks, Reads text' toks ↔ ∃ toks', Reads text toks' ∧ toks = .lit c :: toks') :
    ReadsSpec text' n (next.push c) := by
  cases next with
  | err => exact fun toks htoks => have ⟨_, h', _⟩ := (hread toks).1 htoks; h _ h'
  | text lit =>
    obtain ⟨lit', rfl, h⟩ := h
    refine ⟨c :: lit', rfl, fun toks => ?_⟩
    simp [hread, h]
  | var lit name rest =>
    obtain ⟨t, rfl, hlen, hvalid, h⟩ := h
    refine ⟨t, rfl, hlen, hvalid, fun toks => ?_⟩
    rw [hread]
    constructor
    · rintro ⟨_, htoks, rfl⟩
      obtain ⟨hname, toks', h', rfl⟩ := (h _).1 htoks
      exact ⟨hname, toks', h', rfl⟩
    · rintro ⟨hname, toks', h', rfl⟩
      exact ⟨_, (h _).2 ⟨hname, toks', h', rfl⟩, rfl⟩

theorem ReadsSpec.mono {text : List UInt8} {n n' : ℕ} {next : Next} (h : ReadsSpec text n next)
    (hn : n ≤ n') : ReadsSpec text n' next := by
  cases next with
  | var lit name rest =>
    obtain ⟨t, hrest, hlen, h⟩ := h
    exact ⟨t, hrest, hlen.trans_le hn, h⟩
  | _ => exact h

/-- The characters of a name read so far are accepted. -/
def Mode.Valid : Mode → Prop
  | .name acc => ∀ c ∈ acc, checkSyntaxChars c = true
  | _ => True

/-- **The next variable** of a text that a newline ends is the one that is read next. -/
theorem nextVar_reads (t : List UInt8) :
    ∀ m : Mode, m.Valid → ReadsSpec (m.pre ++ t) t.length (nextVar m (t ++ [10])) := by
  induction t with
  | nil =>
    intro m hm
    cases m with
    | plain => exact ⟨[], rfl, fun _ => reads_nil⟩
    | dollar =>
      refine ⟨[36], rfl, fun toks => ?_⟩
      rw [show Mode.dollar.pre ++ [] = [36] from rfl, reads_dollar (by simp)]
      simp [reads_nil]
    | name acc => exact not_reads_name hm (by simp)
  | cons c t ih =>
    intro m hm
    rw [List.cons_append, List.length_cons]
    cases m with
    | plain =>
      rw [nextVar]
      split_ifs with hc
      · subst hc
        exact (ih .dollar trivial).mono (Nat.le_succ _)
      · exact ((ih .plain trivial).mono (Nat.le_succ _)).push fun _ => reads_plain hc
    | dollar =>
      rw [nextVar]
      split_ifs with hdollar hopen
      · subst hdollar
        exact ((ih .plain trivial).mono (Nat.le_succ _)).push fun _ => reads_escape
      · subst hopen
        exact (ih (.name []) (by simp [Mode.Valid])).mono (Nat.le_succ _)
      · refine (((ih .plain trivial).mono (Nat.le_succ _)).push fun _ => reads_plain hdollar).push ?_
        exact fun _ => reads_dollar (by simp [hdollar, hopen])
    | name acc =>
      rw [nextVar]
      split_ifs with hclose hempty hchar
      · subst hclose hempty
        intro toks htoks
        exact absurd ((reads_closed hm).1 htoks).1.1 (by simp)
      · subst hclose
        have hpos := List.length_pos_iff.2 hempty
        refine ⟨t, rfl, Nat.lt_succ_self _, fun hlen => ⟨hpos, hlen, hm⟩, fun toks => ?_⟩
        simpa [Mode.pre] using reads_closed hm
      · have h := ih (.name (acc ++ [c])) (by simpa [Mode.Valid, or_imp, forall_and, hchar] using hm)
        rw [show (Mode.name acc).pre ++ c :: t = (Mode.name (acc ++ [c])).pre ++ t by
          simp [Mode.pre]]
        exact h.mono (Nat.le_succ _)
      · refine not_reads_name hm ?_
        rintro _ ⟨⟩
        exact ⟨hclose, by simpa using hchar⟩

end F1Goal
