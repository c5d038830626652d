import F1Goal.TemplateMeaning

/-!
# Executing a template within its buffer

`f1g_template_exec` looks at the room that is left before each node, so that it writes the nodes one
behind the other or stops before the first that does not fit. `exec_respects_buffer` says what comes
of it for the nodes of every parsed template.
-/

namespace F1Goal

variable {tpl : Template} {ds : DataSet} {valSize : ℤ}

/-! ### The loop -/

theorem execNodes_none {node : NodeInfo} (h : tpl.nodeBytes ds node = none) (nodes : List NodeInfo)
    (used : ℤ) (val : ℤ → UInt8) :
    execNodes tpl ds valSize (node :: nodes) used val =
      execNodes tpl ds valSize nodes used val := by
  rw [execNodes, h]

theorem execNodes_fits {node : NodeInfo} {bs : List UInt8} (h : tpl.nodeBytes ds node = some bs)
    {used : ℤ} (hfits : used + bs.length ≤ valSize) (nodes : List NodeInfo) (val : ℤ → UInt8) :
    execNodes tpl ds valSize (node :: nodes) used val =
      execNodes tpl ds valSize nodes (used + bs.length) (Mem.store val used bs) := by
  rw [execNodes, h]
  exact if_neg (by omega)

theorem execNodes_full {node : NodeInfo} {bs : List UInt8} (h : tpl.nodeBytes ds node = some bs)
    {used : ℤ} (hfull : valSize < used + bs.length) (nodes : List NodeInfo) (val : ℤ → UInt8) :
    execNodes tpl ds valSize (node :: nodes) used val = (.err, used, val) := by
  rw [execNodes, h]
  exact if_pos (by omega)

/-- The bytes that a list of nodes stands for. -/
def Template.bytesOf (tpl : Template) (ds : DataSet) (nodes : List NodeInfo) : List UInt8 :=
  nodes.flatMap fun node => (tpl.nodeBytes ds node).getD []

theorem Template.bytesOf_cons (tpl : Template) (ds : DataSet) (node : NodeInfo)
    (nodes : List NodeInfo) :
    tpl.bytesOf ds (node :: nodes) = (tpl.nodeBytes ds node).getD [] ++ tpl.bytesOf ds nodes :=
  List.flatMap_cons

/-- Nodes that do not fit are refused. -/
theorem execNodes_refuses (nodes : List NodeInfo) (used : ℕ) (val : ℤ → UInt8)
    (hlong : valSize < used + (tpl.bytesOf ds nodes).length) (hused : used ≤ valSize) :
    (execNodes tpl ds valSize nodes used val).1 = .err := by
  induction nodes generalizing used val with
  | nil =>
    rw [Template.bytesOf, List.flatMap_nil, List.length_nil] at hlong
    omega
  | cons node nodes ih =>
    rw [Template.bytesOf_cons, List.length_append] at hlong
    cases hbytes : tpl.nodeBytes ds node with
    | none =>
      rw [hbytes, Option.getD_none, List.length_nil, Nat.zero_add] at hlong
      rw [execNodes_none hbytes]
      exact ih used val hlong hused
    | some bs =>
      rw [hbytes, Option.getD_some] at hlong
      push_cast at hlong
      rcases le_or_gt ((used : ℤ) + bs.length) valSize with hfits | hfull
      · rw [execNodes_fits hbytes hfits]
        exact ih (used + bs.length) _ (by push_cast; omega) (by push_cast; omega)
      · rw [execNodes_full hbytes hfull]

/-- The loop writes behind what is used, and before the end of the buffer. -/
theorem execNodes_frame (nodes : List NodeInfo) (used : ℤ) (val : ℤ → UInt8) {i : ℤ}
    (hi : i < used ∨ valSize ≤ i) : (execNodes tpl ds valSize nodes used val).2.2 i = val i := by
  induction nodes generalizing used val with
  | nil => rfl
  | cons node nodes ih =>
    cases hbytes : tpl.nodeBytes ds node with
    | none =>
      rw [execNodes_none hbytes]
      exact ih used val hi
    | some bs =>
      rcases le_or_gt (used + bs.length) valSize with hfits | hfull
      · rw [execNodes_fits hbytes hfits, ih _ _ (by omega)]
        rcases hi with hbefore | hbehind
        · exact Mem.store_of_lt hbefore
        · exact Mem.store_of_le (by omega)
      · rw [execNodes_full hbytes hfull]

/-! ### The whole call -/

/-- The length of a literal node, or of the value found for a variable. -/
def NodeInfo.outLen (ds : DataSet) : NodeInfo → ℤ
  | .var name => ((dataSetGetVal ds name).getD []).length
  | .blkData _ dataLen => dataLen

/-- The total length of all literal nodes and of the values found. -/
def Template.totalLen (tpl : Template) (ds : DataSet) : ℤ :=
  (tpl.inUse.map (NodeInfo.outLen ds)).sum

/-- No block of data has a negative length. -/
def Template.LensNonneg (tpl : Template) : Prop :=
  ∀ data dataLen, NodeInfo.blkData data dataLen ∈ tpl.inUse → 0 ≤ dataLen

theorem Template.LensNonneg.totalLen (h : tpl.LensNonneg) (ds : DataSet) :
    tpl.totalLen ds = (tpl.out ds).length := by
  have hlens : ∀ node ∈ tpl.inUse,
      node.outLen ds = ((tpl.nodeBytes ds node).getD []).length := by
    intro node hnode
    cases node with
    | var name => rfl
    | blkData data dataLen =>
      change dataLen = ((Mem.slice tpl.buf data dataLen.toNat).length : ℤ)
      rw [Mem.length_slice, Int.toNat_of_nonneg (h data dataLen hnode)]
  rw [Template.totalLen, Template.out, List.length_flatMap, List.map_congr_left hlens,
    Nat.cast_list_sum, List.map_map]
  rfl

/-- **Execution respects its buffer**: it succeeds exactly when everything fits; then the output is
there with its length, and otherwise the length stays; the size, and the bytes outside of the
buffer, stay in any case. -/
structure ExecRespects (tpl : Template) (ds : DataSet) (out : Value) : Prop where
  code : (f1gTemplateExec tpl out ds).1 = .ok ↔ tpl.totalLen ds ≤ out.valSize
  ok : (f1gTemplateExec tpl out ds).1 = .ok →
    (f1gTemplateExec tpl out ds).2.valLen = tpl.totalLen ds ∧
      Mem.slice (f1gTemplateExec tpl out ds).2.val 0 (tpl.totalLen ds).toNat = tpl.out ds
  err : (f1gTemplateExec tpl out ds).1 = .err →
    (f1gTemplateExec tpl out ds).2.valLen = out.valLen
  size : (f1gTemplateExec tpl out ds).2.valSize = out.valSize
  frame : ∀ i, i < 0 ∨ out.valSize ≤ i → (f1gTemplateExec tpl out ds).2.val i = out.val i

theorem f1gTemplateExec_eq (tpl : Template) (out : Value) (ds : DataSet) :
    f1gTemplateExec tpl out ds =
      ((execNodes tpl ds out.valSize tpl.inUse 0 out.val).1,
        { out with
          valLen := if (execNodes tpl ds out.valSize tpl.inUse 0 out.val).1 = .ok
            then (execNodes tpl ds out.valSize tpl.inUse 0 out.val).2.1 else out.valLen
          val := (execNodes tpl ds out.valSize tpl.inUse 0 out.val).2.2 }) := by
  rw [f1gTemplateExec]
  split <;> rename_i heq <;> rw [heq] <;> rfl

/-- **Execution with any nodes**: it respects its buffer. -/
theorem Template.LensNonneg.execRespects (h : tpl.LensNonneg) (ds : DataSet) (out : Value)
    (hsize : 0 ≤ out.valSize) : ExecRespects tpl ds out := by
  have hframe : ∀ i, i < 0 ∨ out.valSize ≤ i →
      (f1gTemplateExec tpl out ds).2.val i = out.val i := by
    intro i hi
    rw [f1gTemplateExec_eq]
    exact execNodes_frame tpl.inUse 0 out.val hi
  have hsame : (f1gTemplateExec tpl out ds).2.valSize = out.valSize := by
    rw [f1gTemplateExec_eq]
  have htotal := h.totalLen ds
  rcases le_or_gt (tpl.totalLen ds) out.valSize with hfits | hlong
  · have hroom : ((tpl.out ds).length : ℤ) ≤ out.valSize := htotal ▸ hfits
    obtain ⟨out', hexec, hlen, hslice⟩ := f1gTemplateExec_spec tpl ds out hroom
    rw [hexec] at hframe hsame
    refine ⟨?_, ?_, ?_, ?_, ?_⟩ <;> rw [hexec]
    · exact iff_of_true rfl hfits
    · intro _
      rw [htotal, Int.toNat_natCast]
      exact ⟨hlen, hslice⟩
    · intro herr
      cases herr
    · exact hsame
    · exact hframe
  · have hroom : out.valSize < (0 : ℕ) + (tpl.bytesOf ds tpl.inUse).length := by
      rw [Nat.cast_zero, zero_add]
      exact htotal ▸ hlong
    have hcode : (f1gTemplateExec tpl out ds).1 = .err := by
      rw [f1gTemplateExec_eq]
      exact execNodes_refuses tpl.inUse 0 out.val hroom hsize
    refine ⟨?_, ?_, fun herr => ?_, hsame, hframe⟩
    · rw [hcode]
      exact iff_of_false (by decide) (not_le.2 hlong)
    · rw [hcode]
      intro hok
      cases hok
    · rw [f1gTemplateExec_eq] at herr ⊢
      exact if_neg fun hok => Code.noConfusion (herr.symm.trans hok)

/-! ### Parsed templates -/

theorem Template.LensNonneg.addNode {tpl' : Template} {node : NodeInfo} (h : tpl.LensNonneg)
    (hnode : ∀ data dataLen, node = .blkData data dataLen → 0 ≤ dataLen)
    (hadd : tpl.addNode node = some tpl') : tpl'.LensNonneg := by
  intro data dataLen hmem
  rw [(Template.addNode_eq_some hadd).1, List.mem_append, List.mem_singleton] at hmem
  rcases hmem with hmem | rfl
  · exact h data dataLen hmem
  · exact hnode data dataLen rfl

theorem Template.LensNonneg.addData {tpl' : Template} {pb vtagB : ℤ} (h : tpl.LensNonneg)
    (hadd : tpl.addData pb vtagB = some tpl') : tpl'.LensNonneg := by
  rw [Template.addData] at hadd
  split_ifs at hadd with hpos
  · refine h.addNode ?_ hadd
    rintro _ _ ⟨⟩
    omega
  · cases hadd
    exact h

theorem Template.LensNonneg.setBuf (h : tpl.LensNonneg) (buf : ℤ → UInt8) :
    ({ tpl with buf := buf } : Template).LensNonneg := h

/-- A turn of the loop of `f1g_template_parse` that ends in a parsed template: it is the last, or
finds no variable, or finds one and adds its node. -/
theorem parseLoop_ok {fuel : ℕ} {tpl tpl' : Template} {pb pe : ℤ}
    (h : parseLoop (fuel + 1) tpl pb pe = some (.ok tpl')) :
    (pe ≤ pb ∧ tpl' = tpl) ∨
    (pb < pe ∧ ∃ buf pe' tpl₁,
      findVariable (pe - pb).toNat ⟨tpl.buf, pb, false, false, 0, 0⟩ = .none buf pe' ∧
        ({ tpl with buf := buf } : Template).addData pb pe' = some tpl₁ ∧
          parseLoop fuel tpl₁ (pe' + 1) pe' = some (.ok tpl')) ∨
    (pb < pe ∧ ∃ buf pe' vtagB vtagE tpl₁ tpl₂,
      findVariable (pe - pb).toNat ⟨tpl.buf, pb, false, false, 0, 0⟩ = .var buf pe' vtagB vtagE ∧
        ({ tpl with buf := buf } : Template).addData pb vtagB = some tpl₁ ∧
          vtagE - vtagB - 1 ≤ maxVarLen ∧
            tpl₁.addNode (.var (Mem.slice buf (vtagB + 1) (vtagE - vtagB - 1).toNat)) = some tpl₂ ∧
              parseLoop fuel tpl₂ (vtagE + 1) pe' = some (.ok tpl')) := by
  rw [parseLoop] at h
  split_ifs at h with hpe
  · refine .inr ?_
    cases hfound : findVariable (pe - pb).toNat ⟨tpl.buf, pb, false, false, 0, 0⟩ with
    | err =>
      rw [hfound] at h
      cases h
    | none buf pe' =>
      simp only [hfound] at h
      cases hdata : ({ tpl with buf := buf } : Template).addData pb pe' with
      | none =>
        rw [hdata] at h
        cases h
      | some tpl₁ =>
        rw [hdata] at h
        exact .inl ⟨hpe, buf, pe', tpl₁, rfl, hdata, h⟩
    | var buf pe' vtagB vtagE =>
      simp only [hfound] at h
      cases hdata : ({ tpl with buf := buf } : Template).addData pb vtagB with
      | none =>
        rw [hdata] at h
        cases h
      | some tpl₁ =>
        simp only [hdata] at h
        split_ifs at h with hmax
        · cases h
        cases hname : tpl₁.addNode
            (.var (Mem.slice buf (vtagB + 1) (vtagE - vtagB - 1).toNat)) with
        | none =>
          rw [hname] at h
          cases h
        | some tpl₂ =>
          rw [hname] at h
          exact .inr ⟨hpe, buf, pe', vtagB, vtagE, tpl₁, tpl₂, rfl, hdata, not_lt.1 hmax, hname, h⟩
  · cases h
    exact .inl ⟨not_lt.1 hpe, rfl⟩

/-- The loop of `f1g_template_parse` adds no block with a negative length. -/
theorem parseLoop_lensNonneg (fuel : ℕ) {tpl tpl' : Template} {pb pe : ℤ} (h : tpl.LensNonneg)
    (hparse : parseLoop fuel tpl pb pe = some (.ok tpl')) : tpl'.LensNonneg := by
  induction fuel generalizing tpl pb pe with
  | zero => cases hparse
  | succ fuel ih =>
    rcases parseLoop_ok hparse with ⟨-, rfl⟩ | ⟨-, buf, pe', tpl₁, -, hdata, hrest⟩ |
      ⟨-, buf, pe', vtagB, vtagE, tpl₁, tpl₂, -, hdata, -, hname, hrest⟩
    · exact h
    · exact ih ((h.setBuf buf).addData hdata) hrest
    · refine ih (((h.setBuf buf).addData hdata).addNode ?_ hname) hrest
      rintro _ _ ⟨⟩

theorem f1gTemplateParse_lensNonneg {ini : ℤ} {content : List UInt8}
    (hparse : f1gTemplateParse (f1gTemplateInit ini) content = some (.ok tpl)) :
    tpl.LensNonneg := by
  rw [f1gTemplateParse] at hparse
  split at hparse
  · cases hparse
  · refine parseLoop_lensNonneg _ ?_ hparse
    intro data dataLen hmem
    cases hmem

/-- A text that can be read is parsed. -/
theorem parse_of_reads {t : List UInt8} {toks : List Tok} (hread : Reads t toks) {ini : ℤ}
    (hini : 1 ≤ ini) :
    ∃ tpl, f1gTemplateParse (f1gTemplateInit ini) (t ++ [10]) = some (.ok tpl) := by
  obtain ⟨r, hr, hspec⟩ := f1gTemplateParse_spec t hini
  cases r with
  | ok tpl => exact ⟨tpl, hr⟩
  | err => exact absurd hread (hspec toks)
  | fault => exact hspec.elim

/-- **Template output respects its buffer**, for every parsed template, data set and buffer. -/
theorem exec_respects_buffer {ini : ℤ} {content : List UInt8}
    (hparse : f1gTemplateParse (f1gTemplateInit ini) content = some (.ok tpl)) (ds : DataSet)
    (out : Value) (hsize : 0 ≤ out.valSize) : ExecRespects tpl ds out :=
  (f1gTemplateParse_lensNonneg hparse).execRespects ds out hsize

/-- The template `a${x}`, with `x` bound to `yz`, in a buffer of three bytes. -/
theorem exec_respects_buffer_three :
    ∃ tpl, f1gTemplateParse (f1gTemplateInit 1) ([97, 36, 123, 120, 125] ++ [10]) = some (.ok tpl) ∧
      ExecRespects tpl [⟨[120], [121, 122]⟩] ⟨3, 0, fun _ => 0⟩ := by
  have hname : ValidName [120] := ⟨by decide, by decide, List.forall_mem_singleton.2 (by decide)⟩
  have hread : Reads [97, 36, 123, 120, 125] [.lit 97, .var [120]] :=
    .lit (by decide) (.var hname .nil)
  obtain ⟨tpl, hparse⟩ := parse_of_reads hread le_rfl
  exact ⟨tpl, hparse, exec_respects_buffer hparse _ _ (by decide)⟩

end F1Goal
