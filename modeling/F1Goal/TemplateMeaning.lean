import F1Goal.TemplateAutomaton

/-!
# What a template means

`template_meaning` says that `f1g_template_parse` accepts exactly the texts that can be read, and
that `f1g_template_exec` then writes what is read. The nodes of a template point into the text, and
`find_variable` moves only the text behind them.
-/

namespace F1Goal

/-- The bytes that a token stands for; a variable without a value stands for none. -/
def Tok.bytes (ds : DataSet) : Tok → List UInt8
  | .lit c => [c]
  | .var name => (dataSetGetVal ds name).getD []

/-- What a template yields. -/
def render (ds : DataSet) (toks : List Tok) : List UInt8 := toks.flatMap (Tok.bytes ds)

/-! ### Nodes -/

/-- The bytes that the nodes stand for. -/
def Template.out (tpl : Template) (ds : DataSet) : List UInt8 :=
  tpl.inUse.flatMap fun node => (tpl.nodeBytes ds node).getD []

/-- The nodes are in their array, which can grow, and no node points behind `pb`. -/
structure Template.Below (tpl : Template) (pb : ℤ) : Prop where
  size_pos : 1 ≤ tpl.nodeSize
  num_le : tpl.nodeNum ≤ tpl.nodeSize
  node_le : ∀ data len, NodeInfo.blkData data len ∈ tpl.inUse → data + len.toNat ≤ pb

/-- Whether the nodes are below a position does not depend on the text. -/
theorem Template.Below.setBuf {tpl : Template} {pb : ℤ} (h : tpl.Below pb) (buf : ℤ → UInt8) :
    ({ tpl with buf := buf } : Template).Below pb where
  size_pos := h.size_pos
  num_le := h.num_le
  node_le := h.node_le

theorem Template.Below.mono {tpl : Template} {pb pb' : ℤ} (h : tpl.Below pb) (hle : pb ≤ pb') :
    tpl.Below pb' where
  size_pos := h.size_pos
  num_le := h.num_le
  node_le data len hnode := (h.node_le data len hnode).trans hle

/-- The text behind the nodes can change. -/
theorem Template.out_congr {tpl : Template} {pb : ℤ}
    (hle : ∀ data len, NodeInfo.blkData data len ∈ tpl.inUse → data + len.toNat ≤ pb)
    {buf : ℤ → UInt8} (hbuf : ∀ i < pb, buf i = tpl.buf i) (ds : DataSet) :
    ({ tpl with buf := buf } : Template).out ds = tpl.out ds := by
  refine List.flatMap_congr fun node hnode => ?_
  cases node with
  | var name => rfl
  | blkData data len =>
    have hend := hle data len hnode
    exact Mem.slice_congr fun i hi => hbuf _ (by omega)

theorem Template.extentCap_inUse (tpl : Template) (ext : ℕ) :
    (tpl.extentCap ext).inUse = tpl.inUse :=
  List.map_congr_left fun _ hi => if_pos (List.mem_range.1 hi)

/-- A node can be added when the array has a place for it, or has one after it has been doubled. -/
theorem Template.addNode_isSome {tpl : Template} {node : NodeInfo} :
    (tpl.addNode node).isSome ↔ tpl.nodeNum < tpl.nodeSize * 2 := by
  unfold addNode extentCap
  by_cases hfull : tpl.nodeSize ≤ tpl.nodeNum
  · simp only [if_pos hfull]
    split_ifs with h
    · exact iff_of_true rfl h
    · exact iff_of_false (by simp) h
  · simp only [if_neg hfull, if_pos (not_le.1 hfull)]
    exact iff_of_true rfl (by omega)

/-- What `f1g_template_add_node` does when it adds a node: the array, doubled when it was full, has
the node behind those from before. -/
theorem Template.addNode_eq_some {tpl tpl' : Template} {node : NodeInfo}
    (h : tpl.addNode node = some tpl') :
    tpl'.inUse = tpl.inUse ++ [node] ∧ tpl'.buf = tpl.buf ∧ tpl'.nodeNum = tpl.nodeNum + 1 ∧
      tpl'.nodeNum ≤ tpl'.nodeSize ∧
        tpl'.nodeSize = if tpl.nodeSize ≤ tpl.nodeNum then tpl.nodeSize * 2 else tpl.nodeSize := by
  obtain ⟨grown, hgrown, hin, hbuf, hnum, hsize⟩ : ∃ grown : Template,
      (if tpl.nodeSize ≤ tpl.nodeNum then tpl.extentCap (tpl.nodeSize * 2) else tpl) = grown ∧
        grown.inUse = tpl.inUse ∧ grown.buf = tpl.buf ∧ grown.nodeNum = tpl.nodeNum ∧
          grown.nodeSize =
            if tpl.nodeSize ≤ tpl.nodeNum then tpl.nodeSize * 2 else tpl.nodeSize := by
    split_ifs
    · exact ⟨_, rfl, tpl.extentCap_inUse _, rfl, rfl, rfl⟩
    · exact ⟨_, rfl, rfl, rfl, rfl, rfl⟩
  simp only [Template.addNode, hgrown] at h
  split_ifs at h with hplace
  obtain rfl := Option.some.inj h
  refine ⟨?_, hbuf, congrArg (· + 1) hnum, hplace, hsize⟩
  rw [← hin, inUse, List.range_succ, List.map_append]
  congr 1
  · exact List.map_congr_left fun i hi => Function.update_of_ne (List.mem_range.1 hi).ne _ _
  · simp

/-- The bytes of a node that is added come behind those from before. -/
theorem Template.addNode_out {tpl tpl' : Template} {node : NodeInfo}
    (h : tpl.addNode node = some tpl') (ds : DataSet) :
    tpl'.out ds = tpl.out ds ++ (tpl.nodeBytes ds node).getD [] := by
  obtain ⟨hin, hbuf, -⟩ := Template.addNode_eq_some h
  have hbytes : tpl'.nodeBytes ds = tpl.nodeBytes ds := by
    funext node
    cases node with
    | var name => rfl
    | blkData data len => exact congrArg (fun buf => some (Mem.slice buf data len.toNat)) hbuf
  rw [out, hin, List.flatMap_append, List.flatMap_singleton, hbytes, out]

/-- **`f1g_template_add_node`** appends a node. -/
theorem Template.Below.addNode {tpl : Template} {pb pb' : ℤ} (h : tpl.Below pb) (hle : pb ≤ pb')
    {node : NodeInfo} (hnode : ∀ data len, node = .blkData data len → data + len.toNat ≤ pb') :
    ∃ tpl', tpl.addNode node = some tpl' ∧ tpl'.buf = tpl.buf ∧ tpl'.Below pb' ∧
      tpl'.inUse = tpl.inUse ++ [node] := by
  have hpos := h.size_pos
  have hplace : (tpl.addNode node).isSome := Template.addNode_isSome.2 (by have := h.num_le; omega)
  obtain ⟨tpl', hadd⟩ := Option.isSome_iff_exists.1 hplace
  obtain ⟨happend, hbuf, -, hnum, hsize⟩ := Template.addNode_eq_some hadd
  refine ⟨tpl', hadd, hbuf, ⟨?_, hnum, fun data len hmem => ?_⟩, happend⟩
  · split_ifs at hsize <;> omega
  · rw [happend, List.mem_append, List.mem_singleton] at hmem
    rcases hmem with hmem | rfl
    · exact (h.node_le data len hmem).trans hle
    · exact hnode data len rfl

/-- The text between `pb` and `p_vtag_b` becomes a node, unless it is empty. -/
theorem Template.Below.addData {tpl : Template} {pb : ℤ} (h : tpl.Below pb) {lit : List UInt8}
    (hlit : Mem.slice tpl.buf pb lit.length = lit) :
    ∃ tpl', tpl.addData pb (pb + lit.length + 1) = some tpl' ∧ tpl'.buf = tpl.buf ∧
      tpl'.Below (pb + lit.length) ∧ ∀ ds, tpl'.out ds = tpl.out ds ++ lit := by
  rw [Template.addData, show pb + (lit.length : ℤ) + 1 - pb - 1 = lit.length by ring]
  split_ifs with hpos
  · have hle : pb ≤ pb + (lit.length : ℤ) := by omega
    have hnode : ∀ data len, NodeInfo.blkData pb lit.length = .blkData data len →
        data + len.toNat ≤ pb + lit.length := by
      rintro _ _ ⟨⟩
      simp
    obtain ⟨tpl', hadd, hbuf, hbelow, -⟩ := h.addNode hle hnode
    refine ⟨tpl', hadd, hbuf, hbelow, fun ds => ?_⟩
    rw [Template.addNode_out hadd, nodeBytes, Int.toNat_natCast, hlit, Option.getD_some]
  · have hnil : lit = [] := by simpa using hpos
    subst hnil
    exact ⟨tpl, rfl, rfl, by simpa using h, by simp⟩

/-! ### Parsing and execution -/

@[simp] theorem render_append (ds : DataSet) (toks toks' : List Tok) :
    render ds (toks ++ toks') = render ds toks ++ render ds toks' :=
  List.flatMap_append

@[simp] theorem render_lit (ds : DataSet) (lit : List UInt8) : render ds (lit.map .lit) = lit := by
  induction lit with
  | nil => rfl
  | cons c lit ih => exact congrArg (c :: ·) ih

/-- A text has been parsed behind the nodes of `tpl`. -/
def ParseSpec (tpl : Template) (t : List UInt8) : ParseRes → Prop
  | .ok tpl' => ∃ toks, Reads t toks ∧ ∀ ds, tpl'.out ds = tpl.out ds ++ render ds toks
  | .err => ∀ toks, ¬ Reads t toks
  | .fault => False

/-- The nodes that a turn of the loop adds for the text and the variable behind it. -/
theorem Template.Below.addVar {tpl : Template} {pb : ℤ} (hbelow : tpl.Below pb)
    {buf : ℤ → UInt8} (hframe : ∀ i < pb, buf i = tpl.buf i) {lit : List UInt8}
    (hlit : Mem.slice buf pb lit.length = lit) (name : List UInt8) :
    ∃ tpl₁ tpl₂, ({ tpl with buf := buf } : Template).addData pb (pb + lit.length + 1) = some tpl₁ ∧
      tpl₁.addNode (.var name) = some tpl₂ ∧ tpl₂.buf = buf ∧ tpl₂.Below (pb + lit.length) ∧
        ∀ ds, tpl₂.out ds = tpl.out ds ++ render ds (lit.map .lit ++ [.var name]) := by
  obtain ⟨tpl₁, hadd₁, hbuf₁, hbelow₁, hout₁⟩ := (hbelow.setBuf buf).addData hlit
  have hnode : ∀ data len, NodeInfo.var name = .blkData data len →
      data + (len.toNat : ℤ) ≤ pb + lit.length := by
    rintro _ _ ⟨⟩
  obtain ⟨tpl₂, hadd₂, hbuf₂, hbelow₂, -⟩ := hbelow₁.addNode le_rfl hnode
  refine ⟨tpl₁, tpl₂, hadd₁, hadd₂, hbuf₂.trans hbuf₁, hbelow₂, fun ds => ?_⟩
  rw [Template.addNode_out hadd₂, nodeBytes, hout₁, Template.out_congr hbelow.node_le hframe,
    render_append, render_lit, List.append_assoc]
  simp [render, Tok.bytes]

/-- A turn that finds no variable ends the loop. -/
theorem parse_text {tpl : Template} {pb pe pe' : ℤ} {buf : ℤ → UInt8} {lit t : List UInt8} {n : ℕ}
    (hbelow : tpl.Below pb) (hpe : pb < pe) (fuel : ℕ)
    (heq : findVariable (pe - pb).toNat ⟨tpl.buf, pb, false, false, 0, 0⟩ = .none buf pe')
    (hfound : FoundSpec tpl.buf pb (.text lit) (.none buf pe'))
    (hread : ReadsSpec t n (.text lit)) :
    ∃ r, parseLoop (fuel + 2) tpl pb pe = some r ∧ ParseSpec tpl t r := by
  obtain ⟨hframe, hlit, rfl⟩ := hfound
  obtain ⟨lit, rfl, hread⟩ := hread
  rw [List.length_append, Mem.slice_add] at hlit
  replace hlit := (List.append_inj hlit (by simp)).1
  have hend : pb + ((lit ++ [10]).length : ℤ) = pb + lit.length + 1 := by
    simp
    ring
  obtain ⟨tpl', hadd, -, -, hout⟩ := (hbelow.setBuf buf).addData hlit
  refine ⟨.ok tpl', ?_, lit.map .lit, (hread _).2 rfl, fun ds => ?_⟩
  · rw [parseLoop, if_pos hpe, heq, hend]
    simp only [hadd]
    rw [parseLoop, if_neg (by omega)]
  · rw [hout, Template.out_congr hbelow.node_le hframe, render_lit]

/-- A turn that finds a variable goes on behind it. -/
theorem parse_var {tpl : Template} {pb pe pe' vtagB vtagE : ℤ} {buf : ℤ → UInt8}
    {lit name rest t : List UInt8} (hbelow : tpl.Below pb) (hpe : pb < pe) (fuel : ℕ)
    (heq : findVariable (pe - pb).toNat ⟨tpl.buf, pb, false, false, 0, 0⟩ =
      .var buf pe' vtagB vtagE)
    (hfound : FoundSpec tpl.buf pb (.var lit name rest) (.var buf pe' vtagB vtagE))
    (hread : ReadsSpec t t.length (.var lit name rest))
    (ih : ∀ (tpl' : Template) (t' : List UInt8), tpl'.Below (vtagE + 1) → t'.length < t.length →
      Mem.slice tpl'.buf (vtagE + 1) (t'.length + 1) = t' ++ [10] →
        ∃ r, parseLoop fuel tpl' (vtagE + 1) (vtagE + 1 + t'.length + 1) = some r ∧
          ParseSpec tpl' t' r) :
    ∃ r, parseLoop (fuel + 1) tpl pb pe = some r ∧ ParseSpec tpl t r := by
  obtain ⟨hframe, hlit, rfl, hname, rfl, hrest, rfl⟩ := hfound
  obtain ⟨t', rfl, hlen, hvalid, hread⟩ := hread
  obtain ⟨tpl₁, tpl₂, hadd₁, hadd₂, hbuf, hbelow₂, hout⟩ := hbelow.addVar hframe hlit name
  have hlong : pb + lit.length + 1 + 1 + (name.length : ℤ) - (pb + lit.length + 1) - 1 =
      name.length := by ring
  rw [parseLoop, if_pos hpe, heq]
  simp only [hadd₁, hlong]
  split_ifs with hmax
  · refine ⟨.err, rfl, fun toks htoks => ?_⟩
    have := ((hread toks).1 htoks).1.2.1
    omega
  · rw [← hbuf, List.length_append, List.length_singleton] at hrest
    obtain ⟨r, hr, hspec⟩ := ih tpl₂ t' (hbelow₂.mono (by omega)) hlen hrest
    refine ⟨r, ?_, ?_⟩
    · rw [Int.toNat_natCast, hname, hadd₂, ← hr, List.length_append, List.length_singleton,
        Nat.cast_add, Nat.cast_one, ← add_assoc]
    · have hvalid := hvalid (by omega)
      cases r with
      | ok tpl' =>
        obtain ⟨toks, htoks, hrender⟩ := hspec
        refine ⟨_, (hread _).2 ⟨hvalid, toks, htoks, rfl⟩, fun ds => ?_⟩
        simp [hrender, hout, render]
      | err =>
        intro toks htoks
        obtain ⟨-, toks', htoks', -⟩ := (hread toks).1 htoks
        exact hspec toks' htoks'
      | fault => exact hspec.elim

/-- **The loop of `f1g_template_parse`** parses a text that a newline ends. -/
theorem parseLoop_spec (fuel : ℕ) :
    ∀ (tpl : Template) (pb : ℤ) (t : List UInt8), tpl.Below pb → t.length + 2 ≤ fuel →
      Mem.slice tpl.buf pb (t.length + 1) = t ++ [10] →
        ∃ r, parseLoop fuel tpl pb (pb + t.length + 1) = some r ∧ ParseSpec tpl t r := by
  induction fuel with
  | zero => exact fun _ _ _ _ h => absurd h (by omega)
  | succ fuel ih =>
    intro tpl pb t hbelow hfuel hslice
    have hpe : pb < pb + t.length + 1 := by omega
    have hnum : (pb + t.length + 1 - pb).toNat = t.length + 1 := by omega
    have hfound := findVariable_spec (t.length + 1) ⟨tpl.buf, pb, false, false, 0, 0⟩ .plain pb
      ⟨rfl, by simp, rfl⟩ (.inr (by simp [hslice]))
    have hnext := nextVar_reads t .plain trivial
    simp only [hslice] at hfound
    generalize nextVar .plain (t ++ [10]) = next at hfound hnext
    rcases heq : findVariable (t.length + 1) ⟨tpl.buf, pb, false, false, 0, 0⟩ with
        _ | ⟨buf, pe⟩ | ⟨buf, pe, vtagB, vtagE⟩ <;> rw [heq] at hfound <;> rw [← hnum] at heq <;>
      cases next <;> try exact hfound.elim
    · exact ⟨.err, by rw [parseLoop, if_pos hpe, heq], hnext⟩
    · obtain ⟨fuel, rfl⟩ : ∃ k, fuel = k + 1 := ⟨fuel - 1, by omega⟩
      exact parse_text hbelow hpe fuel heq hfound hnext
    · exact parse_var hbelow hpe fuel heq hfound hnext fun tpl' t' hbelow' hlen hslice' =>
        ih tpl' _ t' hbelow' (by omega) hslice'

/-- **`f1g_template_parse`** accepts the texts that can be read, and its nodes stand for what is
read. -/
theorem f1gTemplateParse_spec (t : List UInt8) {ini : ℤ} (hini : 1 ≤ ini) :
    ∃ r, f1gTemplateParse (f1gTemplateInit ini) (t ++ [10]) = some r ∧
      match r with
      | .ok tpl => ∃ toks, Reads t toks ∧ ∀ ds, tpl.out ds = render ds toks
      | .err => ∀ toks, ¬ Reads t toks
      | .fault => False := by
  have hbelow : ({ f1gTemplateInit ini with
      buf := Mem.store (fun _ => 0) 0 (t ++ [10]) } : Template).Below 0 :=
    ⟨by simp [f1gTemplateInit]; omega, Nat.zero_le _, by simp [f1gTemplateInit, Template.inUse]⟩
  have hslice := Mem.slice_store_self (fun _ => 0) 0 (t ++ [10])
  rw [List.length_append, List.length_singleton] at hslice
  obtain ⟨r, hr, hspec⟩ := parseLoop_spec (t.length + 2) _ 0 t hbelow le_rfl hslice
  refine ⟨r, ?_, ?_⟩
  · rw [f1gTemplateParse, if_neg (by simp), ← hr]
    simp
  · cases r with
    | ok tpl => simpa [f1gTemplateInit, Template.out, Template.inUse, ParseSpec] using hspec
    | _ => exact hspec

/-- **The loop of `f1g_template_exec`** writes the bytes of the nodes behind what it has written. -/
theorem execNodes_spec (tpl : Template) (ds : DataSet) (valSize : ℤ) (nodes : List NodeInfo)
    (used : ℕ) (val : ℤ → UInt8) {bs : List UInt8}
    (hbs : (nodes.flatMap fun node => (tpl.nodeBytes ds node).getD []) = bs)
    (hroom : used + bs.length ≤ valSize) :
    ∃ val', execNodes tpl ds valSize nodes used val =
        (Code.ok, ((used + bs.length : ℕ) : ℤ), val') ∧
      Mem.slice val' 0 (used + bs.length) = Mem.slice val 0 used ++ bs := by
  induction nodes generalizing used val bs with
  | nil =>
    subst hbs
    exact ⟨val, by simp [execNodes], by simp⟩
  | cons node nodes ih =>
    subst hbs
    rw [List.flatMap_cons] at hroom ⊢
    cases hbytes : tpl.nodeBytes ds node with
    | none =>
      -- a variable without a value is passed over
      rw [hbytes] at hroom
      simpa [execNodes, hbytes] using ih used val rfl hroom
    | some bs =>
      simp only [hbytes, Option.getD_some, List.length_append, Nat.cast_add] at hroom
      have hroom' : ¬ valSize - (used : ℤ) < bs.length := by omega
      obtain ⟨val', heq, hval⟩ := ih (used + bs.length) (Mem.store val used bs) rfl
        (by push_cast; omega)
      have hstored : Mem.slice (Mem.store val used bs) 0 (used + bs.length) =
          Mem.slice val 0 used ++ bs := by
        rw [Mem.slice_add, zero_add, Mem.slice_store_self, Mem.slice_store_of_disjoint (by simp)]
      rw [hstored] at hval
      refine ⟨val', ?_, ?_⟩
      · rw [execNodes, hbytes]
        simpa [hroom', Nat.add_assoc] using heq
      · simpa [Nat.add_assoc] using hval

/-- **`f1g_template_exec`** writes what the nodes stand for, when there is room for it. -/
theorem f1gTemplateExec_spec (tpl : Template) (ds : DataSet) (out : Value)
    (hroom : (tpl.out ds).length ≤ out.valSize) :
    ∃ out', f1gTemplateExec tpl out ds = (.ok, out') ∧ out'.valLen = (tpl.out ds).length ∧
      Mem.slice out'.val 0 (tpl.out ds).length = tpl.out ds := by
  obtain ⟨val', heq, hval⟩ := execNodes_spec tpl ds out.valSize tpl.inUse 0 out.val rfl
    (by simpa [Template.out] using hroom)
  simp only [Nat.zero_add, Nat.cast_zero, Mem.slice_zero, List.nil_append] at heq hval
  refine ⟨{ out with valLen := (tpl.out ds).length, val := val' }, ?_, rfl, hval⟩
  rw [f1gTemplateExec, heq]
  rfl

/-! ### The meaning of a template -/

/-- **Template meaning.** A text followed by a newline is accepted exactly when it can be read, and
executing it then writes what is read. -/
theorem template_meaning (t : List UInt8) (ini : ℤ) (hini : 1 ≤ ini) :
    ∃ r, f1gTemplateParse (f1gTemplateInit ini) (t ++ [10]) = some r ∧
      ((∃ tpl, r = .ok tpl) ↔ ∃ toks, Reads t toks) ∧ ((∃ tpl, r = .ok tpl) ∨ r = .err) ∧
        ∀ tpl toks ds out, r = .ok tpl → Reads t toks →
          ((render ds toks).length : ℤ) ≤ out.valSize →
            ∃ out', f1gTemplateExec tpl out ds = (.ok, out') ∧
              out'.valLen = (render ds toks).length ∧
                Mem.slice out'.val 0 (render ds toks).length = render ds toks := by
  obtain ⟨r, hr, hspec⟩ := f1gTemplateParse_spec t hini
  refine ⟨r, hr, ?_⟩
  cases r with
  | ok tpl =>
    obtain ⟨toks, htoks, hout⟩ := hspec
    refine ⟨⟨fun _ => ⟨toks, htoks⟩, fun _ => ⟨tpl, rfl⟩⟩, .inl ⟨tpl, rfl⟩, ?_⟩
    rintro _ toks' ds out ⟨⟩ htoks' hroom
    rw [← htoks.unique htoks', ← hout] at hroom ⊢
    exact f1gTemplateExec_spec tpl ds out hroom
  | err =>
    refine ⟨⟨?_, ?_⟩, .inr rfl, ?_⟩
    · rintro ⟨_, ⟨⟩⟩
    · rintro ⟨toks, htoks⟩
      exact absurd htoks (hspec toks)
    · rintro _ _ _ _ ⟨⟩
  | fault => exact hspec.elim

/-- `a$$${x}` with `x` bound to `yz` yields `a$yz`. -/
theorem template_meaning_escape :
    ∃ tpl out', f1gTemplateParse (f1gTemplateInit 1) ([97, 36, 36, 36, 123, 120, 125] ++ [10]) =
        some (.ok tpl) ∧
      f1gTemplateExec tpl ⟨4, 0, fun _ => 0⟩ [⟨[120], [121, 122]⟩] = (.ok, out') ∧
        out'.valLen = 4 ∧ Mem.slice out'.val 0 4 = [97, 36, 121, 122] := by
  have hread : Reads [97, 36, 36, 36, 123, 120, 125] [.lit 97, .lit 36, .var [120]] := by
    have hname : ValidName [120] :=
      ⟨by decide, by decide, List.forall_mem_singleton.2 (by decide)⟩
    exact .lit (by decide) (.escape (.var hname .nil))
  obtain ⟨r, hr, hok, -, hexec⟩ := template_meaning [97, 36, 36, 36, 123, 120, 125] 1 le_rfl
  obtain ⟨tpl, rfl⟩ := hok.2 ⟨_, hread⟩
  obtain ⟨out', hout, hlen, hval⟩ :=
    hexec tpl _ [⟨[120], [121, 122]⟩] ⟨4, 0, fun _ => 0⟩ rfl hread (by decide)
  exact ⟨tpl, out', hr, hout, hlen, hval⟩

end F1Goal
