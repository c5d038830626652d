import F1Goal.BasicTypes
import F1Goal.Lib.CString
import F1Goal.Lib.Mem

/-!
# Templates (`f1g_template.c`, `f1g_data_set.c`)

`f1g_template_parse` cuts the text of a template into nodes: blocks of data, which point into the
text, and variables `${name}`, whose names are copied. `find_variable` looks for the next variable
and replaces each `$$` on its way by `$`, moving the rest of the text. `f1g_template_exec` writes
the nodes to a buffer, with the values of a data set for the variables.

Positions in the text are offsets into `buf`. A file can be opened and comes in one `read`, so that
lengths fit an `i32_t`; `malloc` succeeds.
-/

namespace F1Goal

open CString

/-! ### Data sets -/

/-- The part of `key_info_t` that is looked up: the key, and the bytes of the value in use. -/
structure KeyInfo where
  key : List UInt8
  val : List UInt8
  deriving DecidableEq, Repr

/-- `data_set_t`: the keys in use. -/
abbrev DataSet := List KeyInfo

/-- `strncasecmp(a, b, strlen(a)) == 0`: `b` starts with `a`, the case ignored. -/
def strncasecmp (a b : List UInt8) : Bool := (fold a).isPrefixOf (fold b)

/-- `data_set_get_val`: the value found, if any. -/
def dataSetGetVal (ds : DataSet) (key : List UInt8) : Option (List UInt8) :=
  (ds.find? fun k => strncasecmp key k.key).map KeyInfo.val

/-! ### Parsing -/

/-- `MAX_VAR_LEN` -/
def maxVarLen : ℕ := 64

/-- `node_info_t`: a variable with its name, or a block of data with its position and length. -/
inductive NodeInfo
  | var (varName : List UInt8)
  | blkData (data dataLen : ℤ)
  deriving DecidableEq, Repr

/-- `f1g_template_t` -/
structure Template where
  nodeNum : ℕ
  nodeSize : ℕ
  nodes : ℕ → NodeInfo
  buf : ℤ → UInt8

/-- An entry filled with zeros by `memset`. -/
def zeroNode : NodeInfo := .var []

/-- `f1g_template_init` -/
def f1gTemplateInit (iniNodeSize : ℤ) : Template :=
  { nodeNum := 0, nodeSize := iniNodeSize.toNat, nodes := fun _ => zeroNode, buf := fun _ => 0 }

/-- `_check_syntax_chars(ch) == 0` -/
def checkSyntaxChars (ch : UInt8) : Bool :=
  (0x30 ≤ ch ∧ ch ≤ 0x39) ∨ (0x41 ≤ ch ∧ ch ≤ 0x5A) ∨ (0x61 ≤ ch ∧ ch ≤ 0x7A) ∨ ch = 95 ∨ ch = 91 ∨
    ch = 93 ∨ ch = 45 ∨ ch = 46 ∨ ch = 42 ∨ ch = 64

/-- The variables of `find_variable`: the text, the flags `var_flag_found` and `prefix_found`, and
the positions `pb`, `p_var_flag` and `*p_vtag_b`. -/
structure FindVar where
  buf : ℤ → UInt8
  pb : ℤ
  varFlagFound : Bool
  prefixFound : Bool
  pVarFlag : ℤ
  vtagB : ℤ

/-- How `find_variable` ends: a syntax error; `RST_FOUND_NONE`; or `RST_FOUND_VAR`, with the braces
at `*p_vtag_b` and `*p_vtag_e`. The text and its end `*pe` may have changed. -/
inductive Found
  | err
  | none (buf : ℤ → UInt8) (pe : ℤ)
  | var (buf : ℤ → UInt8) (pe vtagB vtagE : ℤ)

/-- `memcpy(dst, src, n)`, taken as a move. -/
def moveText (buf : ℤ → UInt8) (dst src : ℤ) (n : ℕ) : ℤ → UInt8 :=
  Mem.store buf dst (Mem.slice buf src n)

/-- The loop of `find_variable`, with `*pe - pb` bytes of the text to go: each turn moves `pb`
forward, or `*pe` back. -/
def findVariable : ℕ → FindVar → Found
  | 0, s => .none s.buf s.pb
  | n + 1, s =>
    if s.buf s.pb = 36 then
      if s.varFlagFound then
        if s.pb = s.pVarFlag + 1 then
          -- `$$` is `$`: the text behind it moves down, and `*pe` with it
          findVariable n { s with
            buf := moveText s.buf s.pVarFlag s.pb (n + 1), varFlagFound := false }
        else if s.prefixFound then .err
        else findVariable n { s with pVarFlag := s.pb, pb := s.pb + 1 }
      else findVariable n { s with varFlagFound := true, pVarFlag := s.pb, pb := s.pb + 1 }
    else if s.buf s.pb = 123 then
      if s.varFlagFound then
        if s.pb - s.pVarFlag = 1 then
          -- `${`; a `$` further back is text
          findVariable n { s with vtagB := s.pb, prefixFound := true, pb := s.pb + 1 }
        else if s.prefixFound then .err
        else findVariable n { s with varFlagFound := false, pb := s.pb + 1 }
      else findVariable n { s with pb := s.pb + 1 }
    else if s.buf s.pb = 125 then
      if s.prefixFound then
        if s.pb - s.vtagB = 1 then .err else .var s.buf (s.pb + (n + 1)) s.vtagB s.pb
      else findVariable n { s with pb := s.pb + 1 }
    else if s.prefixFound then
      if checkSyntaxChars (s.buf s.pb) then findVariable n { s with pb := s.pb + 1 } else .err
    else findVariable n { s with pb := s.pb + 1 }

/-- `f1g_template_extent_cap` -/
def Template.extentCap (tpl : Template) (ext : ℕ) : Template :=
  { tpl with nodes := fun i => if i < tpl.nodeNum then tpl.nodes i else zeroNode, nodeSize := ext }

/-- `f1g_template_add_node`; `none` when the node is written behind the array. -/
def Template.addNode (tpl : Template) (node : NodeInfo) : Option Template :=
  let tpl := if tpl.nodeSize ≤ tpl.nodeNum then tpl.extentCap (tpl.nodeSize * 2) else tpl
  if tpl.nodeNum < tpl.nodeSize then
    some { tpl with nodes := Function.update tpl.nodes tpl.nodeNum node, nodeNum := tpl.nodeNum + 1 }
  else none

/-- The node for the text between `pb` and `p_vtag_b`, if there is any. -/
def Template.addData (tpl : Template) (pb vtagB : ℤ) : Option Template :=
  if 0 < vtagB - pb - 1 then tpl.addNode (.blkData pb (vtagB - pb - 1)) else some tpl

/-- How `f1g_template_parse` ends: `F1G_OK`, `F1G_ERR`, or a write behind the array of nodes. -/
inductive ParseRes
  | ok (tpl : Template)
  | err
  | fault

/-- `while (pb < pe)`; `none` when it does not end within `fuel` turns. -/
def parseLoop : ℕ → Template → ℤ → ℤ → Option ParseRes
  | 0, _, _, _ => none
  | fuel + 1, tpl, pb, pe =>
    if pb < pe then
      match findVariable (pe - pb).toNat ⟨tpl.buf, pb, false, false, 0, 0⟩ with
      | .err => some .err
      | .none buf pe =>
        match { tpl with buf := buf }.addData pb pe with
        | none => some .fault
        | some tpl => parseLoop fuel tpl (pe + 1) pe
      | .var buf pe vtagB vtagE =>
        match { tpl with buf := buf }.addData pb vtagB with
        | none => some .fault
        | some tpl =>
          if maxVarLen < vtagE - vtagB - 1 then some .err
          else
            match tpl.addNode (.var (Mem.slice buf (vtagB + 1) (vtagE - vtagB - 1).toNat)) with
            | none => some .fault
            | some tpl => parseLoop fuel tpl (vtagE + 1) pe
    else some (.ok tpl)

/-- `f1g_template_parse` of the file with this content. Each turn of the loop moves `pb` on. -/
def f1gTemplateParse (tpl : Template) (content : List UInt8) : Option ParseRes :=
  if content = [] then some .err
  else
    parseLoop (content.length + 1) { tpl with buf := Mem.store (fun _ => 0) 0 content } 0
      content.length

/-! ### Execution -/

/-- The bytes of a node; a variable may have no value. -/
def Template.nodeBytes (tpl : Template) (ds : DataSet) : NodeInfo → Option (List UInt8)
  | .var name => dataSetGetVal ds name
  | .blkData data len => some (Mem.slice tpl.buf data len.toNat)

/-- The loop of `f1g_template_exec` over the nodes to come, with `used` bytes written: the code, and
`used` and the buffer at its end. -/
def execNodes (tpl : Template) (ds : DataSet) (valSize : ℤ) :
    List NodeInfo → ℤ → (ℤ → UInt8) → Code × ℤ × (ℤ → UInt8)
  | [], used, val => (.ok, used, val)
  | node :: nodes, used, val =>
    match tpl.nodeBytes ds node with
    | none => execNodes tpl ds valSize nodes used val
    | some bs =>
      if valSize - used < bs.length then (.err, used, val)
      else execNodes tpl ds valSize nodes (used + bs.length) (Mem.store val used bs)

/-- The nodes in use. -/
def Template.inUse (tpl : Template) : List NodeInfo := (List.range tpl.nodeNum).map tpl.nodes

/-- `f1g_template_exec` -/
def f1gTemplateExec (tpl : Template) (out : Value) (ds : DataSet) : Code × Value :=
  match execNodes tpl ds out.valSize tpl.inUse 0 out.val with
  | (.ok, used, val) => (.ok, { out with valLen := used, val := val })
  | (.err, _, val) => (.err, { out with val := val })

end F1Goal
