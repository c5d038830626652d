import F1Goal.TemplateExec

/-!
# The end of a template

A text without a newline at its end is parsed by the same loop. `ReadsOpen` is its reading: a name
that the end of the text cuts off is text. `f1g_template_parse` uses the length formula for the text
before a variable for the text behind the last one, too, so that its last byte is lost, and
`tail_kept_iff` says that it outputs such a text in full only when nothing stands behind the last
variable.
-/

namespace F1Goal

/-! ### The reading of any text -/

/-- The left-to-right reading of a text; a name that is not closed is text. -/
inductive ReadsOpen : List UInt8 → List Tok → Prop
  | nil : ReadsOpen [] []
  | escape {t toks} (h : ReadsOpen t toks) : ReadsOpen (36 :: 36 :: t) (.lit 36 :: toks)
  | var {name t toks} (hname : ValidName name) (h : ReadsOpen t toks) :
    ReadsOpen (36 :: 123 :: (name ++ 125 :: t)) (.var name :: toks)
  | lit {c t toks} (hc : c = 36 → t.head? ≠ some 36 ∧ t.head? ≠ some 123) (h : ReadsOpen t toks) :
    ReadsOpen (c :: t) (.lit c :: toks)
  | cut {acc} (hacc : ∀ c ∈ acc, checkSyntaxChars c = true) :
    ReadsOpen (36 :: 123 :: acc) ((36 :: 123 :: acc).map .lit)

theorem readsOpen_brace {u : List UInt8} {toks : List Tok} (h : ReadsOpen (36 :: 123 :: u) toks) :
    (∃ name t toks', u = name ++ 125 :: t ∧ ValidName name ∧ ReadsOpen t toks' ∧
      toks = .var name :: toks') ∨
    ((∀ c ∈ u, checkSyntaxChars c = true) ∧ toks = (36 :: 123 :: u).map .lit) := by
  cases h with
  | var hname h => exact .inl ⟨_, _, _, rfl, hname, h, rfl⟩
  | lit hc _ => exact absurd rfl (hc rfl).2
  | cut hacc => exact .inr ⟨hacc, rfl⟩

/-- A closed name has a brace, which is not a character of a name. -/
theorem not_accepted_closed {name t : List UInt8} :
    ¬ ∀ c ∈ name ++ 125 :: t, checkSyntaxChars c = true := fun h =>
  absurd (h 125 (List.mem_append_right _ List.mem_cons_self)) (by decide)

/-- A text is read in one way. -/
theorem ReadsOpen.unique {t : List UInt8} {toks toks' : List Tok} (h : ReadsOpen t toks)
    (h' : ReadsOpen t toks') : toks = toks' := by
  induction h generalizing toks' with
  | nil =>
    cases h'
    rfl
  | escape _ ih =>
    cases h' with
    | escape h => rw [ih h]
    | lit hc _ => exact absurd rfl (hc rfl).1
  | var hname _ ih =>
    rcases readsOpen_brace h' with ⟨name', t', rest, heq, hname', h, rfl⟩ | ⟨hacc, -⟩
    · obtain ⟨rfl, -, rfl⟩ := split_unique (by decide) (by decide) hname.2.2 hname'.2.2 heq
      rw [ih h]
    · exact absurd hacc not_accepted_closed
  | lit hc _ ih =>
    cases h' with
    | escape => exact absurd rfl (hc rfl).1
    | var => exact absurd rfl (hc rfl).2
    | lit _ h => rw [ih h]
    | cut => exact absurd rfl (hc rfl).2
  | cut hacc =>
    rcases readsOpen_brace h' with ⟨name', t', rest, rfl, -⟩ | ⟨-, rfl⟩
    · exact absurd hacc not_accepted_closed
    · rfl

/-! ### The next variable of any text -/

/-- What comes next tells how the text is read; behind a variable fewer than `n` bytes are left. -/
def OpenSpec (text : List UInt8) (n : ℕ) : Next → Prop
  | .err => True
  | .text lit => ReadsOpen text (lit.map .lit)
  | .var lit name rest =>
    rest.length < n ∧ (name.length ≤ maxVarLen → ∀ toks, ReadsOpen rest toks →
      ReadsOpen text (lit.map .lit ++ .var name :: toks))

theorem OpenSpec.push {text text' : List UInt8} {n : ℕ} {c : UInt8} {next : Next}
    (h : OpenSpec text n next)
    (hread : ∀ toks, ReadsOpen text toks → ReadsOpen text' (.lit c :: toks)) :
    OpenSpec text' n (next.push c) := by
  cases next with
  | err => trivial
  | text lit => exact hread _ h
  | var lit name rest => exact ⟨h.1, fun hlen toks htoks => hread _ (h.2 hlen toks htoks)⟩

theorem OpenSpec.mono {text : List UInt8} {n n' : ℕ} {next : Next} (h : OpenSpec text n next)
    (hn : n ≤ n') : OpenSpec text n' next := by
  cases next with
  | var lit name rest => exact ⟨h.1.trans_le hn, h.2⟩
  | _ => exact h

/-- **The next variable** of any text is the one that is read next. -/
theorem nextOpen_reads (t : List UInt8) :
    ∀ m : Mode, m.Valid → OpenSpec (m.pre ++ t) t.length (nextOpen m t) := by
  induction t with
  | nil =>
    intro m hm
    cases m with
    | plain => exact .nil
    | dollar => exact .lit (by simp) .nil
    | name acc =>
      rw [List.append_nil]
      exact .cut hm
  | cons c t ih =>
    intro m hm
    rw [List.length_cons]
    cases m with
    | plain =>
      rw [nextOpen]
      split_ifs with hc
      · subst hc
        exact (ih .dollar trivial).mono (Nat.le_succ _)
      · exact ((ih .plain trivial).mono (Nat.le_succ _)).push fun _ h =>
          .lit (fun hdollar => absurd hdollar hc) h
    | dollar =>
      rw [nextOpen]
      split_ifs with hdollar hopen
      · subst hdollar
        exact ((ih .plain trivial).mono (Nat.le_succ _)).push fun _ h => .escape h
      · subst hopen
        exact (ih (.name []) (by simp [Mode.Valid])).mono (Nat.le_succ _)
      · refine (((ih .plain trivial).mono (Nat.le_succ _)).push fun _ h =>
          .lit (fun hc => absurd hc hdollar) h).push fun _ h => ?_
        exact .lit (fun _ => by simp [hdollar, hopen]) h
    | name acc =>
      rw [nextOpen]
      split_ifs with hclose hempty hchar
      · trivial
      · subst hclose
        have hpos := List.length_pos_iff.2 hempty
        exact ⟨Nat.lt_succ_self _, fun hlen _ h => .var ⟨hpos, hlen, hm⟩ h⟩
      · have h := ih (.name (acc ++ [c]))
          (by simpa [Mode.Valid, or_imp, forall_and, hchar] using hm)
        rw [show (Mode.name acc).pre ++ c :: t = (Mode.name (acc ++ [c])).pre ++ t by
          simp [Mode.pre]]
        exact h.mono (Nat.le_succ _)
      · trivial

/-! ### The text behind the last variable -/

/-- The text `tail` is what is read behind the last variable, and `front` what is read before. -/
structure TailOf (t : List UInt8) (front : List Tok) (tail : List UInt8) : Prop where
  reads : ReadsOpen t (front ++ tail.map .lit)
  last : ∀ c, front.getLast? ≠ some (.lit c)

/-- Where one list of tokens goes on with text, the other does not end before it. -/
theorem no_lit_behind {front as : List Tok} {tail : List UInt8} {bs : List Tok}
    (hlast : ∀ c, (front ++ as).getLast? ≠ some (.lit c)) (htail : tail.map .lit = as ++ bs) :
    as = [] := by
  rcases List.eq_nil_or_concat as with rfl | ⟨as, tok, rfl⟩
  · rfl
  · rw [List.concat_eq_append] at hlast htail
    have hmem : tok ∈ tail.map .lit := by simp [htail]
    obtain ⟨c, -, rfl⟩ := List.mem_map.1 hmem
    exact absurd (by simp) (hlast c)

/-- There is one text behind the last variable. -/
theorem TailOf.unique {t : List UInt8} {front front' : List Tok} {tail tail' : List UInt8}
    (h : TailOf t front tail) (h' : TailOf t front' tail') : front' = front ∧ tail' = tail := by
  have hlit : Function.Injective Tok.lit := fun _ _ heq => Tok.lit.inj heq
  rcases List.append_eq_append_iff.1 (h.reads.unique h'.reads) with
    ⟨as, rfl, htail⟩ | ⟨as, rfl, htail⟩
  · obtain rfl := no_lit_behind h'.last htail
    exact ⟨List.append_nil _, (hlit.list_map htail).symm⟩
  · obtain rfl := no_lit_behind h.last htail
    exact ⟨(List.append_nil _).symm, hlit.list_map htail⟩

theorem tailOf_nil : TailOf [] [] [] := ⟨.nil, by simp⟩

theorem tailOf_text {t lit : List UInt8} (h : ReadsOpen t (lit.map .lit)) : TailOf t [] lit :=
  ⟨h, by simp⟩

/-- The text behind the last variable is the one behind the next variable, if there is a next
one. -/
theorem TailOf.behind_var {rest tail : List UInt8} {front : List Tok} (h : TailOf rest front tail)
    {t lit name : List UInt8}
    (hread : ∀ toks, ReadsOpen rest toks → ReadsOpen t (lit.map .lit ++ .var name :: toks)) :
    TailOf t (lit.map .lit ++ .var name :: front) tail where
  reads := by
    rw [List.append_assoc, List.cons_append]
    exact hread _ h.reads
  last c := by
    rw [List.getLast?_append, List.getLast?_cons, Option.some_or]
    cases hlast : front.getLast? with
    | none => simp
    | some tok => simpa [hlast] using h.last c

/-! ### The nodes of any text -/

/-- No node points behind `pb`. -/
def Template.NodesBelow (tpl : Template) (pb : ℤ) : Prop :=
  ∀ data len, NodeInfo.blkData data len ∈ tpl.inUse → data + len.toNat ≤ pb

theorem Template.NodesBelow.addNode {tpl tpl' : Template} {pb pb' : ℤ} (h : tpl.NodesBelow pb)
    (hle : pb ≤ pb') {node : NodeInfo}
    (hnode : ∀ data len, node = .blkData data len → data + len.toNat ≤ pb')
    (hadd : tpl.addNode node = some tpl') : tpl'.NodesBelow pb' := by
  intro data len hmem
  rw [(Template.addNode_eq_some hadd).1, List.mem_append, List.mem_singleton] at hmem
  rcases hmem with hmem | rfl
  · exact (h data len hmem).trans hle
  · exact hnode data len rfl

/-- The node for the text between `pb` and `p_vtag_b` has all of it but its last byte. -/
theorem Template.NodesBelow.addData {tpl tpl' : Template} {pb vtagB : ℤ} (h : tpl.NodesBelow pb)
    (hle : pb ≤ vtagB) (hadd : tpl.addData pb vtagB = some tpl') :
    tpl'.buf = tpl.buf ∧ tpl'.NodesBelow vtagB ∧
      ∀ ds, tpl'.out ds = tpl.out ds ++ Mem.slice tpl.buf pb (vtagB - pb - 1).toNat := by
  rw [Template.addData] at hadd
  split_ifs at hadd with hpos
  · refine ⟨(Template.addNode_eq_some hadd).2.1, h.addNode hle ?_ hadd, Template.addNode_out hadd⟩
    rintro _ _ ⟨⟩
    omega
  · cases hadd
    refine ⟨rfl, fun data len hmem => (h data len hmem).trans hle, fun ds => ?_⟩
    rw [Int.toNat_of_nonpos (not_lt.1 hpos), Mem.slice_zero, List.append_nil]

/-- The node for a text that no variable is in. -/
theorem Template.NodesBelow.addText {tpl tpl₁ : Template} {pb pe : ℤ} (h : tpl.NodesBelow pb)
    {buf : ℤ → UInt8} {lit : List UInt8}
    (hfound : FoundSpec tpl.buf pb (.text lit) (.none buf pe))
    (hadd : ({ tpl with buf := buf } : Template).addData pb pe = some tpl₁) (ds : DataSet) :
    tpl₁.out ds = tpl.out ds ++ lit.dropLast := by
  obtain ⟨hframe, hlit, rfl⟩ := hfound
  have hbelow : ({ tpl with buf := buf } : Template).NodesBelow pb := h
  obtain ⟨-, -, hout⟩ := hbelow.addData (by omega) hadd
  rw [hout, Template.out_congr h hframe]
  congr 1
  rcases List.eq_nil_or_concat lit with rfl | ⟨front, c, rfl⟩
  · simp
  · rw [List.concat_eq_append] at hlit ⊢
    rw [List.length_append, Mem.slice_add] at hlit
    have hlen : pb + ((front ++ [c]).length : ℤ) - pb - 1 = front.length := by simp
    rw [hlen, Int.toNat_natCast, List.dropLast_concat]
    exact (List.append_inj hlit (Mem.length_slice ..)).1

/-- The nodes for a variable and the text before it. -/
theorem Template.NodesBelow.addVar {tpl tpl₁ tpl₂ : Template} {pb pe vtagB vtagE : ℤ}
    (h : tpl.NodesBelow pb) {buf : ℤ → UInt8} {lit name rest : List UInt8}
    (hfound : FoundSpec tpl.buf pb (.var lit name rest) (.var buf pe vtagB vtagE))
    (hdata : ({ tpl with buf := buf } : Template).addData pb vtagB = some tpl₁)
    (hname : tpl₁.addNode (.var (Mem.slice buf (vtagB + 1) (vtagE - vtagB - 1).toNat)) =
      some tpl₂) :
    tpl₂.buf = buf ∧ tpl₂.NodesBelow (vtagE + 1) ∧
      ∀ ds, tpl₂.out ds = tpl.out ds ++ render ds (lit.map .lit ++ [.var name]) := by
  obtain ⟨hframe, hlit, rfl, hvar, rfl, -, -⟩ := hfound
  have hbelow : ({ tpl with buf := buf } : Template).NodesBelow pb := h
  obtain ⟨hbuf₁, hbelow₁, hout₁⟩ := hbelow.addData (by omega) hdata
  have hlen : pb + lit.length + 1 - pb - 1 = (lit.length : ℤ) := by ring
  have hlong : pb + lit.length + 1 + 1 + (name.length : ℤ) - (pb + lit.length + 1) - 1 =
      name.length := by ring
  rw [hlong, Int.toNat_natCast, hvar] at hname
  have hnode : ∀ data len, NodeInfo.var name = .blkData data len →
      data + (len.toNat : ℤ) ≤ pb + lit.length + 1 + 1 + name.length + 1 := by
    rintro _ _ ⟨⟩
  refine ⟨(Template.addNode_eq_some hname).2.1.trans hbuf₁,
    hbelow₁.addNode (by omega) hnode hname, fun ds => ?_⟩
  rw [Template.addNode_out hname, Template.nodeBytes, hout₁, Template.out_congr h hframe, hlen,
    Int.toNat_natCast, hlit, render_append, render_lit, List.append_assoc]
  simp [render, Tok.bytes]

/-- **The loop of `f1g_template_parse`** over any text: its nodes stand for what is read, but for
the last byte behind the last variable. -/
theorem parseLoop_tail (fuel : ℕ) {tpl tpl' : Template} {pb pe : ℤ} {t : List UInt8}
    (hbelow : tpl.NodesBelow pb) (hpe : pe = pb + t.length)
    (hslice : Mem.slice tpl.buf pb t.length = t)
    (hparse : parseLoop fuel tpl pb pe = some (.ok tpl')) :
    ∃ front tail, TailOf t front tail ∧
      ∀ ds, tpl'.out ds = tpl.out ds ++ render ds front ++ tail.dropLast := by
  -- on the turns: each leaves nodes below the place from which the next one reads
  induction fuel generalizing tpl pb pe t with
  | zero => cases hparse
  | succ fuel ih =>
    have hnum : (pe - pb).toNat = t.length := by omega
    have hspec := findVariable_open t.length ⟨tpl.buf, pb, false, false, 0, 0⟩ .plain pb
      ⟨rfl, by simp, rfl⟩ trivial
    have hnext := nextOpen_reads t .plain trivial
    rw [hslice, ← hnum] at hspec
    generalize nextOpen .plain t = next at hspec hnext
    rcases parseLoop_ok hparse with ⟨hend, rfl⟩ | ⟨-, buf, pe', tpl₁, hfound, hdata, hrest⟩ |
      ⟨-, buf, pe', vtagB, vtagE, tpl₁, tpl₂, hfound, hdata, hmax, hname, hrest⟩
    · obtain rfl : t = [] := List.length_eq_zero_iff.1 (by omega)
      exact ⟨[], [], tailOf_nil, fun ds => by simp [render]⟩
    · rw [hfound] at hspec
      cases next with
      | text lit =>
        -- the loop is over behind the end of the text
        have hlast : tpl' = tpl₁ := by
          cases fuel with
          | zero => cases hrest
          | succ fuel =>
            rw [parseLoop, if_neg (by omega)] at hrest
            cases hrest
            rfl
        subst hlast
        refine ⟨[], lit, tailOf_text hnext, fun ds => ?_⟩
        rw [hbelow.addText hspec hdata]
        simp [render]
      | _ => exact hspec.elim
    · rw [hfound] at hspec
      cases next with
      | var lit name rest =>
        obtain ⟨hbuf, hbelow₂, hout⟩ := hbelow.addVar hspec hdata hname
        obtain ⟨-, -, rfl, -, rfl, hrestSlice, rfl⟩ := hspec
        rw [← hbuf] at hrestSlice
        obtain ⟨front, tail, htail, hout'⟩ := ih hbelow₂ rfl hrestSlice hrest
        refine ⟨_, tail, htail.behind_var (hnext.2 (by omega)), fun ds => ?_⟩
        rw [hout', hout, List.append_assoc (tpl.out ds), ← render_append,
          List.append_assoc (lit.map Tok.lit), List.singleton_append]
      | _ => exact hspec.elim

/-- **`f1g_template_parse`** of any text it accepts: the nodes stand for what is read, but for the
last byte behind the last variable. -/
theorem f1gTemplateParse_tail {ini : ℤ} {t : List UInt8} {tpl : Template}
    (hparse : f1gTemplateParse (f1gTemplateInit ini) t = some (.ok tpl)) :
    ∃ front tail, TailOf t front tail ∧ ∀ ds, tpl.out ds = render ds front ++ tail.dropLast := by
  rw [f1gTemplateParse] at hparse
  split_ifs at hparse with hempty
  · cases hparse
  have hbelow : ({ f1gTemplateInit ini with
      buf := Mem.store (fun _ => 0) 0 t } : Template).NodesBelow 0 := by
    rintro data len ⟨⟩
  exact parseLoop_tail _ hbelow (zero_add _).symm (Mem.slice_store_self _ 0 t) hparse

/-! ### What is output -/

/-- Execution outputs the text behind the last variable in full: with room for it, the call
succeeds, and the output is what stands before that text, and the text. -/
def TailKept (tpl : Template) (front : List Tok) (tail : List UInt8) : Prop :=
  ∀ ds out, ((render ds front ++ tail).length : ℤ) ≤ out.valSize →
    ∃ out', f1gTemplateExec tpl out ds = (.ok, out') ∧
      out'.valLen = (render ds front ++ tail).length ∧
        Mem.slice out'.val 0 (render ds front ++ tail).length = render ds front ++ tail

/-- Execution outputs so much of the text as the nodes have. -/
theorem tailKept_iff_of_out {tpl : Template} {front : List Tok} {tail : List UInt8}
    (hout : ∀ ds, tpl.out ds = render ds front ++ tail.dropLast) :
    TailKept tpl front tail ↔ tail = [] := by
  constructor
  · intro hkept
    by_contra hne
    have hpos := List.length_pos_iff.2 hne
    -- with no values at all, the output is a byte too short
    have hlen : (tpl.out []).length + 1 = (render [] front ++ tail).length := by
      rw [hout, List.length_append, List.length_append, List.length_dropLast]
      omega
    have hroom : ((tpl.out []).length : ℤ) ≤ ((render [] front ++ tail).length : ℤ) := by omega
    obtain ⟨out', hexec, hfull, -⟩ :=
      hkept [] ⟨(render [] front ++ tail).length, 0, fun _ => 0⟩ le_rfl
    obtain ⟨_, hexec', hshort, -⟩ :=
      f1gTemplateExec_spec tpl [] ⟨(render [] front ++ tail).length, 0, fun _ => 0⟩ hroom
    rw [hexec] at hexec'
    cases hexec'
    omega
  · rintro rfl ds out hroom
    rw [← List.dropLast_nil, ← hout] at hroom ⊢
    exact f1gTemplateExec_spec tpl ds out hroom

/-- **The end of a template** is output in full exactly when nothing stands behind the last
variable. -/
theorem tail_kept_iff {ini : ℤ} {t : List UInt8} {tpl : Template}
    (hparse : f1gTemplateParse (f1gTemplateInit ini) t = some (.ok tpl)) :
    ∃ front tail, TailOf t front tail ∧
      (∀ front' tail', TailOf t front' tail' → front' = front ∧ tail' = tail) ∧
        (TailKept tpl front tail ↔ tail = []) := by
  obtain ⟨front, tail, htail, hout⟩ := f1gTemplateParse_tail hparse
  exact ⟨front, tail, htail, fun _ _ h => htail.unique h, tailKept_iff_of_out hout⟩

/-- The template `${x}`. -/
theorem tail_kept_iff_var :
    ∃ tpl, f1gTemplateParse (f1gTemplateInit 1) [36, 123, 120, 125] = some (.ok tpl) ∧
      ∃ front tail, TailOf [36, 123, 120, 125] front tail ∧
        (∀ front' tail', TailOf [36, 123, 120, 125] front' tail' → front' = front ∧ tail' = tail) ∧
          (TailKept tpl front tail ↔ tail = []) := by
  obtain ⟨tpl, hparse⟩ : ∃ tpl, f1gTemplateParse (f1gTemplateInit 1) [36, 123, 120, 125] =
      some (.ok tpl) := ⟨_, rfl⟩
  exact ⟨tpl, hparse, tail_kept_iff hparse⟩

/-- The template `${x}a` is accepted, and its `a` is not output. -/
theorem last_byte_lost :
    ∃ tpl, f1gTemplateParse (f1gTemplateInit 1) [36, 123, 120, 125, 97] = some (.ok tpl) ∧
      TailOf [36, 123, 120, 125, 97] [.var [120]] [97] ∧ ¬ TailKept tpl [.var [120]] [97] := by
  have hname : ValidName [120] := ⟨by decide, by decide, List.forall_mem_singleton.2 (by decide)⟩
  have htail : TailOf [36, 123, 120, 125, 97] [.var [120]] [97] :=
    ⟨.var hname (.lit (by decide) .nil), by simp⟩
  refine ⟨_, rfl, htail, fun hkept => ?_⟩
  obtain ⟨_, hexec, hlen, -⟩ := hkept [] ⟨1, 0, fun _ => 0⟩ (by decide)
  cases hexec
  exact absurd hlen (by decide)

end F1Goal
