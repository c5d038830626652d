import F1Goal.BasicTypes
import F1Goal.Lib.CString
import F1Goal.Lib.Mem

/-!
# Configuration files (`f1g_smart_conf.c`)

`ini_read` reads a file block by block, cuts the block into lines and enters each line into an array
of sections, each with an array of items; both arrays grow when they are full. `find_item` looks an
item up.

An array is a function of the index together with its size. `malloc` is taken to succeed for every
size that is not negative, and a request for a negative number of bytes to fail, as it does for the
`size_t` that it becomes. `kept` is no variable of the program: it records whether every growth so
far has kept the entries in use.
-/

namespace F1Goal

open CString

/-- `item_t` -/
structure Item where
  itemName : List UInt8
  valLen : ℕ
  val : List UInt8
  deriving DecidableEq, Repr

/-- `sec_t` -/
structure Sec where
  secName : List UInt8
  itemNum : ℕ
  itemSize : ℕ
  items : ℕ → Item

/-- `smart_conf_t` -/
structure SmartConf where
  secNum : ℕ
  secSize : ℕ
  secs : ℕ → Sec

/-- An entry filled with zeros by `memset`. -/
def zeroItem : Item := ⟨[], 0, []⟩

/-- An entry filled with zeros by `memset`. -/
def zeroSec : Sec := ⟨[], 0, 0, fun _ => zeroItem⟩

/-- A section as it reads: its name and its items. -/
abbrev Section := List UInt8 × List Item

/-- The entries in use of the item array. -/
def Sec.live (s : Sec) : Section := (s.secName, (List.range s.itemNum).map s.items)

/-- The first `k` entries of the section array. -/
def SmartConf.live (c : SmartConf) (k : ℕ) : List Section :=
  (List.range k).map fun i => (c.secs i).live

/-- `smart_conf_init` -/
def smartConfInit (secSize itemSize : ℤ) : SmartConf :=
  let secSize := if secSize ≤ 0 then 20 else secSize
  let itemSize := if itemSize ≤ 0 then 20 else itemSize
  { secNum := 0, secSize := secSize.toNat
    secs := fun _ => { zeroSec with itemSize := itemSize.toNat } }

/-- `extend_sec_size`: `sec_num` entries are copied. -/
def extendSecSize (c : SmartConf) (ext : ℕ) : SmartConf :=
  let ext := if ext ≤ c.secSize then (c.secSize + 1) * 2 else ext
  { c with secs := fun i => if i < c.secNum then c.secs i else zeroSec, secSize := ext }

/-- `extend_item_size`: `item_num` entries are copied. -/
def extendItemSize (s : Sec) (ext : ℕ) : Sec :=
  let ext := if ext ≤ s.itemSize then (s.itemSize + 1) * 2 else ext
  { s with items := fun j => if j < s.itemNum then s.items j else zeroItem, itemSize := ext }

/-- The locals of `ini_read` that outlive a line: the arrays, `sec_seq`, `item_seq` and `p_cur_sec`,
which points to an entry of the section array; and `kept`. -/
structure IniState where
  conf : SmartConf
  secSeq : ℕ
  itemSeq : ℕ
  curSec : Option ℕ
  kept : Bool

/-- How a line, or the file, ends: the loop goes on, `F1G_ERR` is returned, or memory is accessed
that is not there. -/
inductive IniRes
  | next
  | err
  | fault
  deriving DecidableEq, Repr

/-- Assign an entry of the section array. -/
def IniState.setSec (st : IniState) (k : ℕ) (s : Sec) : IniState :=
  { st with conf := { st.conf with secs := Function.update st.conf.secs k s } }

/-- Make room for one more section. -/
def IniState.growSecs (st : IniState) : IniState :=
  if st.conf.secSize ≤ st.secSeq then
    let conf := extendSecSize st.conf (st.conf.secSize * 2)
    { st with conf := conf, kept := st.kept && conf.live st.secSeq = st.conf.live st.secSeq }
  else st

/-- Make room for one more item of the section `k`. -/
def IniState.growItems (st : IniState) (k : ℕ) : IniState :=
  let sec := st.conf.secs k
  if sec.itemSize ≤ st.itemSeq then
    let sec' := extendItemSize sec (sec.itemSize * 2)
    { st.setSec k sec' with kept := st.kept && sec'.live = sec.live }
  else st

/-- Is there a section of the same name among those read? -/
def IniState.sameSec (st : IniState) (name : List UInt8) : Bool :=
  (List.range st.secSeq).any fun i => strcasecmp name (st.conf.secs i).secName

/-- Is there an item of the same name among the first `k` of the section? -/
def Sec.sameItem (s : Sec) (k : ℕ) (name : List UInt8) : Bool :=
  (List.range k).any fun j => strcasecmp name (s.items j).itemName

/-- `SEC_NAME_SIZE` and `ITEM_NAME_SIZE` -/
def nameSize : ℕ := 64

/-- A line `[…`; `line` is what stands behind the bracket. -/
def readSection (line : List UInt8) (st : IniState) : IniRes × IniState :=
  let st := st.growSecs
  let name := line.takeWhile (· ≠ 93)
  -- the name does not fit, or there is no `]`
  if nameSize ≤ name.length ∨ name.length = line.length then (.err, st)
  else
    let st := st.setSec st.secSeq { st.conf.secs st.secSeq with secName := name }
    if st.sameSec name then (.err, st)
    else (.next, { st with secSeq := st.secSeq + 1, itemSeq := 0, curSec := some st.secSeq })

/-- The length of the value that is found after the blanks behind `=`, of which there are `spaces`:
the blanks at its end are stripped by moving back, and when nothing follows the blanks behind `=`,
these are stripped, too. -/
def valueLen (spaces : ℕ) (value : List UInt8) : ℤ :=
  if value = [] then -spaces else (trimEnd value).length

/-- The rest of a line with an item, behind the name: `=`, and the value, which is copied to a block
of `len + 1` bytes. -/
def itemOf (name line : List UInt8) : IniRes × Item :=
  match skipSpaces (line.drop name.length) with
  | [] => (.err, zeroItem)
  | c :: rest =>
    if c ≠ 61 then (.err, zeroItem)
    else
      let value := skipSpaces rest
      let len := valueLen (rest.length - value.length) value
      -- `malloc` fails; or it does not, and `memcpy` is told to copy a negative number of bytes
      if len + 1 < 0 then (.err, zeroItem)
      else if len < 0 then (.fault, zeroItem)
      else (.next, ⟨name, len.toNat, value.take len.toNat⟩)

/-- A line that is neither blank, nor a comment, nor a section. -/
def readItem (line : List UInt8) (st : IniState) : IniRes × IniState :=
  match st.curSec with
  -- no section has been opened yet: `p_cur_sec` is `NULL`
  | none => (.fault, st)
  | some k =>
    let st := st.growItems k
    let sec := st.conf.secs k
    let name := line.takeWhile fun c => c ≠ 32 ∧ c ≠ 61
    -- the name does not fit, or neither `=` nor a blank ends it
    if nameSize ≤ name.length ∨ name.length = line.length then (.err, st)
    else
      let named := { sec.items st.itemSeq with itemName := name }
      let st := st.setSec k { sec with items := Function.update sec.items st.itemSeq named }
      if sec.sameItem st.itemSeq name then (.err, st)
      else
        match itemOf name line with
        | (.next, item) =>
          let items := Function.update sec.items st.itemSeq item
          (.next, { st.setSec k { sec with items := items, itemNum := sec.itemNum + 1 } with
            itemSeq := st.itemSeq + 1 })
        | (r, _) => (r, st)

/-- One line, without what ends it. -/
def readLine (line : List UInt8) (st : IniState) : IniRes × IniState :=
  match skipSpaces (cstr line) with
  | [] => (.next, st)
  | c :: rest =>
    if c = 35 then (.next, st)
    else if c = 91 then readSection rest st
    else readItem (c :: rest) st

/-- `while (p_proc < buf_end)`: cut the bytes `w` into lines. `line` are the bytes of the current
line up to `p_proc`, and `procLeft` is `proc_left`; both that and the state are returned. -/
def scanLines (readFlag : Bool) (procLeft : ℕ) (line : List UInt8) :
    List UInt8 → IniState → IniRes × ℕ × IniState
  | [], st =>
    if line = [] then (.next, procLeft, st)
    else if readFlag then
      let r := readLine line st
      (r.1, 0, r.2)
    else (.next, 0, st)
  | c :: w, st =>
    if c = 10 then
      match readLine line st with
      | (.next, st) => scanLines readFlag (w.length + 1) [] w st
      | (r, st) => (r, w.length + 1, st)
    else scanLines readFlag procLeft (line ++ [c]) w st

/-- What `ini_read` returns, and the arrays it leaves. -/
structure IniOut where
  res : IniRes
  st : IniState

/-- The end of `ini_read`: `sec_num` is set when the whole file has been read. -/
def IniState.done (st : IniState) (res : IniRes) : IniOut :=
  match res with
  | .next => ⟨res, { st with conf := { st.conf with secNum := st.secSeq } }⟩
  | _ => ⟨res, st⟩

/-- The number of bytes that `read` returns, when it would like to return `want + 1`, when there is
room for `room`, and when `left` are left in the file. (Calls that fail are left out.) -/
def readLen (want room left : ℕ) : ℕ := min (want + 1) (min room left)

/-- The buffer after its lines have been ended: each newline of the window `w` is a zero, and so is
what follows the last line of the file. -/
def endLines (readFlag : Bool) (buf : ℤ → UInt8) (w : List UInt8) : ℤ → UInt8 :=
  let ended := w.map fun c => if c = 10 then 0 else c
  Mem.store buf 0 (if readFlag ∧ w ≠ [] ∧ w.getLast? ≠ some 10 then ended ++ [0] else ended)

/-- `while (read_remain > 0)`, with the bytes `left` still in the file and the `i`-th `read` to
come; `none` when it does not end within `fuel` turns. -/
def readBlocks (bufSize : ℕ) (want : ℕ → ℕ) :
    ℕ → ℕ → List UInt8 → (ℤ → UInt8) → ℕ → Bool → IniState → Option IniOut
  | 0, _, _, _, _, _, _ => none
  | fuel + 1, i, left, buf, procLeft, readFlag, st =>
    if left = [] then some (st.done .next)
    else
      let buf := Mem.store buf 0 (Mem.slice buf (bufSize - procLeft) procLeft)
      let len := readLen (want i) (bufSize - procLeft) left.length
      let buf := Mem.store buf procLeft (left.take len)
      let left := left.drop len
      let readFlag := readFlag || len = 0 || left = []
      let w := Mem.slice buf 0 len
      match scanLines readFlag len [] w st with
      | (.next, procLeft, st) =>
        readBlocks bufSize want fuel (i + 1) left (endLines readFlag buf w) procLeft readFlag st
      | (r, _, st) => some (st.done r)

/-- `ini_read` of a file that can be opened: `bufSize` is `st_blksize`, `buf` the block that
`malloc` returns, and `want` how the calls of `read` cut the file. Every turn of the loop reads a
byte, or makes room for the next one to do so. -/
def iniRead (conf : SmartConf) (bufSize : ℕ) (buf : ℤ → UInt8) (want : ℕ → ℕ)
    (content : List UInt8) : Option IniOut :=
  readBlocks bufSize want (2 * content.length + 2) 0 content buf 0 false ⟨conf, 0, 0, none, true⟩

/-- `find_item` -/
def findItem (c : SmartConf) (sec itemName : List UInt8) : Option Item :=
  (List.range c.secNum).foldl (fun found i =>
    let s := c.secs i
    if strcasecmp s.secName sec then
      match (List.range s.itemNum).find? fun j => strcasecmp (s.items j).itemName itemName with
      | some j => some (s.items j)
      | none => found
    else found) none

end F1Goal
