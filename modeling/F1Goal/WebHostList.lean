import F1Goal.DataFieldGrowth
import F1Goal.WebHost

/-!
# The host list of the sender (`pksender_v2.c`)

`_read_webhost_from_file` takes from the first line how many lines there are, and fills an entry
from each. It allocates no list for one line, says that there are as many entries as were announced,
and reads a line only if each of its fields ends with the separator. `hosts_right_iff` says for
which files the list is what the file says.
-/

open Block CString

namespace F1Goal

/-- What `malloc`, which succeeds, returns: the address of the contents of the file, the blocks and
the arrays for the fields, and the list. -/
structure HostHeap where
  buf : ℤ
  buf_pos : 0 < buf
  items : ItemHeap
  data_some : ∀ i, (items.data i).isSome
  array_some : ∀ i, (items.array i).isSome
  hosts : ℤ → UInt8

/-- A run that goes wrong: it stores through `NULL`, or reads or writes where it must not. -/
inductive HostFail
  | nullStore
  | fault
  deriving DecidableEq, Repr

/-- How the call ends without a list: it returns -1, or goes wrong. -/
inductive HostErr
  | refused
  | failed (why : HostFail)
  deriving DecidableEq, Repr

/-- What the call returns, `webhost_num`, how many entries it has filled, and the entries. -/
structure WebhostList where
  ret : ℤ
  webhostNum : ℤ
  filled : ℕ
  webhosts : ℤ → UInt8

/-- `atoi` of the text in `lines_str` -/
def atoi (s : List UInt8) : ℤ := i32 (strtol 10 (cstr s)).1

/-- What does not change in the loop; nothing has been written to `sep` when it is `none`. -/
structure HostLoop where
  heap : HostHeap
  mem : ℤ → Option UInt8
  bufEnd : ℤ
  sep : Option (List UInt8)
  lineNum : ℤ

/-- A turn of the loop, for the line from `pb` to `pe`. What `data_field_read_buf` returns is not
looked at, and for one line there is no list. -/
def HostLoop.line (c : HostLoop) (df : DataField) (pb pe : ℤ) (i : ℕ) (hosts : ℤ → UInt8) :
    Except HostFail (DataField × (ℤ → UInt8)) :=
  match c.sep with
  | none => .error .fault
  | some sep =>
    match dataFieldReadBuf c.heap.items df c.mem pb pe sep with
    | none => .error .fault
    | some (_, df) =>
      if c.lineNum ≤ 1 then .error .nullStore
      else
        match fillHost df (hostSize * i) (hostSize * c.lineNum) hosts with
        | none => .error .fault
        | some hosts =>
          match dataFieldCleanItems df with
          | none => .error .fault
          | some df => .ok (df, hosts)

/-- `for (i=0; i<line_num; i++)`, with the number of turns to go: how many entries are filled, and
the entries. -/
def HostLoop.run (c : HostLoop) :
    ℕ → ℕ → DataField → ℤ → (ℤ → UInt8) → Except HostFail (ℕ × (ℤ → UInt8))
  | 0, i, _, _, hosts => .ok (i, hosts)
  | n + 1, i, df, pe, hosts =>
    let pb := pe + 1
    match findStr c.mem pb c.bufEnd (ascii "\n") with
    | none => .error .fault
    | some loc =>
      let pe := loc.getD c.bufEnd
      if pe ≤ pb then .ok (i, hosts)
      else
        match c.line df pb pe i hosts with
        | .error e => .error e
        | .ok (df, hosts) =>
          if pe = c.bufEnd then .ok (i + 1, hosts) else c.run n (i + 1) df pe hosts

/-- `max_col`, when `substr` has taken this text for it. -/
def maxCol (text : List UInt8) : ℤ := if text = [] then 20 else atoi text

/-- `_read_webhost_from_file` of a file with this content that can be read. The list is `NULL`
before. -/
def readWebhostFromFile (heap : HostHeap) (content : List UInt8) : Except HostErr WebhostList :=
  let mem := Block.view (Mem.store (fun _ => 0) heap.buf content) heap.buf content.length
  let bufEnd := heap.buf + content.length - 1
  match findStr mem heap.buf bufEnd (ascii "\n") with
  | none => .error (.failed .fault)
  | some none => .error .refused
  | some (some pe) =>
    match substr mem heap.buf pe (ascii "LINE=") (ascii ";") 16,
      substr mem heap.buf pe (ascii "Sep=") (ascii ";") 16,
      substr mem heap.buf pe (ascii "MaxCol=") (ascii ";") 16 with
    | some line, some sep, some col =>
      if line = [] then .error .refused
      -- `sep[16] = '\0'` is behind the array
      else if sep.length = 16 then .error (.failed .fault)
      else
        match dataFieldInit heap.items (i8 (maxCol col)) 0 with
        | none => .error (.failed .fault)
        | some df =>
          let c : HostLoop :=
            ⟨heap, mem, bufEnd, if sep = [] then none else some (cstr sep), atoi line⟩
          match c.run (atoi line).toNat 0 df pe heap.hosts with
          | .error why => .error (.failed why)
          | .ok (filled, hosts) => .ok ⟨i32 content.length, atoi line, filled, hosts⟩
    | _, _, _ => .error (.failed .fault)

/-! ### The lines in memory -/

/-- The lines that the loop fills entries from: up to the first empty line, and no more than
announced. -/
def usedLines (n : ℕ) (lines : List (List UInt8)) : List (List UInt8) :=
  (lines.takeWhile (· ≠ [])).take n

/-- Lines, each with a newline behind it. -/
def endedLines (lines : List (List UInt8)) : List UInt8 := lines.flatMap fun l => l ++ [10]

theorem usedLines_cons {l : List UInt8} (hl : l ≠ []) (n : ℕ) (lines : List (List UInt8)) :
    usedLines (n + 1) (l :: lines) = l :: usedLines n lines := by
  simp [usedLines, hl]

theorem usedLines_empty (n : ℕ) (lines : List (List UInt8)) : usedLines n ([] :: lines) = [] := by
  simp [usedLines]

/-- The lines are in memory behind `pe`, up to the last byte of the file. -/
structure HostLoop.At (c : HostLoop) (pe : ℤ) (lines : List (List UInt8)) : Prop where
  nonneg : 0 ≤ pe
  holds : Holds c.mem (pe + 1) (endedLines lines)
  bufEnd_eq : c.bufEnd = pe + (endedLines lines).length
  line : ∀ l ∈ lines, 10 ∉ l

variable {c : HostLoop} {pe : ℤ} {l : List UInt8} {lines : List (List UInt8)}

theorem endedLines_cons (l : List UInt8) (lines : List (List UInt8)) :
    endedLines (l :: lines) = l ++ (10 :: endedLines lines) := by
  simp [endedLines]

theorem endedLines_length_pos (h : lines ≠ []) : 0 < (endedLines lines).length := by
  obtain ⟨l, lines, rfl⟩ := List.exists_cons_of_ne_nil h
  rw [endedLines_cons, List.length_append, List.length_cons]
  omega

theorem HostLoop.At.tail (h : c.At pe (l :: lines)) : c.At (pe + 1 + l.length) lines := by
  obtain ⟨hnonneg, hholds, hend, hline⟩ := h
  rw [endedLines_cons, holds_append, holds_cons] at hholds
  rw [endedLines_cons, List.length_append, List.length_cons] at hend
  refine ⟨by omega, hholds.2.2, ?_, fun l hl => hline l (List.mem_cons_of_mem _ hl)⟩
  push_cast at hend ⊢
  omega

/-- The text of the next line. -/
theorem HostLoop.At.head (h : c.At pe (l :: lines)) : Holds c.mem (pe + 1) l := by
  have hholds := h.holds
  rw [endedLines_cons, holds_append] at hholds
  exact hholds.1

/-- The newline of the next line is found, unless it is the last byte of the file. -/
theorem HostLoop.At.find (h : c.At pe (l :: lines)) :
    findStr c.mem (pe + 1) c.bufEnd (ascii "\n") =
      some (if lines = [] then none else some (pe + 1 + l.length)) := by
  have hnot := h.line l List.mem_cons_self
  have hshort : (ascii "\n").length < 512 := by decide
  cases lines with
  | nil =>
    have hend : c.bufEnd = pe + 1 + l.length := by
      have hend := h.bufEnd_eq
      rw [endedLines_cons, List.length_append, List.length_cons] at hend
      rw [hend]
      simp [endedLines]
      ring
    have hnone : firstAt (ascii "\n") l = none := firstAt_of_notMem hnot
    rw [hend, findStr_spec hshort h.head, hnone, if_pos rfl]
    rfl
  | cons l' lines =>
    have hpos := endedLines_length_pos (List.cons_ne_nil l' lines)
    have hsplit : endedLines (l :: l' :: lines) =
        (l ++ ([10] ++ (endedLines (l' :: lines)).dropLast)) ++
          [(endedLines (l' :: lines)).getLast (List.ne_nil_of_length_pos hpos)] := by
      rw [endedLines_cons, List.append_assoc, List.append_assoc, List.dropLast_append_getLast]
      rfl
    have hholds := h.holds
    have hend := h.bufEnd_eq
    rw [hsplit] at hholds hend
    generalize (endedLines (l' :: lines)).dropLast = w at hholds hend
    rw [List.length_append, List.length_singleton] at hend
    have hend' : c.bufEnd = pe + 1 + (l ++ ([10] ++ w)).length := by
      rw [hend]
      push_cast
      ring
    have hat : firstAt (ascii "\n") (l ++ ([10] ++ w)) = some l.length := firstAt_append w hnot
    rw [hend', findStr_spec hshort (holds_append.1 hholds).1, hat, if_neg (List.cons_ne_nil _ _)]
    rfl

/-- The last line is the one that ends at the last byte of the file. -/
theorem HostLoop.At.last_iff (h : c.At pe (l :: lines)) :
    pe + 1 + (l.length : ℤ) = c.bufEnd ↔ lines = [] := by
  have hend := h.tail.bufEnd_eq
  constructor
  · intro heq
    by_contra hne
    have hpos := endedLines_length_pos hne
    omega
  · rintro rfl
    rw [hend]
    exact (add_zero _).symm

/-- Where the next line ends. -/
theorem HostLoop.At.getD_find (h : c.At pe (l :: lines)) :
    (if lines = [] then none else some (pe + 1 + (l.length : ℤ))).getD c.bufEnd =
      pe + 1 + l.length := by
  split_ifs with hlast
  · exact (h.last_iff.2 hlast).symm
  · rfl

/-! ### A turn of the loop -/

variable {df df' : DataField} {hosts hosts' : ℤ → UInt8} {n i k : ℕ} {pb : ℤ}

theorem HostLoop.run_empty (h : c.At pe ([] :: lines)) :
    c.run (n + 1) i df pe hosts = .ok (i, hosts) := by
  rw [HostLoop.run, h.find]
  dsimp only
  rw [h.getD_find, if_pos (by simp)]

theorem HostLoop.run_line (h : c.At pe (l :: lines)) (hl : l ≠ []) :
    c.run (n + 1) i df pe hosts =
      (c.line df (pe + 1) (pe + 1 + l.length) i hosts).bind fun r =>
        if lines = [] then .ok (i + 1, r.2) else c.run n (i + 1) r.1 (pe + 1 + l.length) r.2 := by
  have hpos := List.length_pos_iff.2 hl
  rw [HostLoop.run, h.find]
  dsimp only
  rw [h.getD_find, if_neg (by omega)]
  cases c.line df (pe + 1) (pe + 1 + l.length) i hosts with
  | error e => rfl
  | ok r => simp only [h.last_iff, Except.bind]

/-- What a turn that has a result has done. -/
theorem HostLoop.line_ok (hline : c.line df pb pe i hosts = .ok (df', hosts')) :
    ∃ sep code df₁, c.sep = some sep ∧
      dataFieldReadBuf c.heap.items df c.mem pb pe sep = some (code, df₁) ∧ 1 < c.lineNum ∧
        fillHost df₁ (hostSize * i) (hostSize * c.lineNum) hosts = some hosts' ∧
          dataFieldCleanItems df₁ = some df' := by
  rw [HostLoop.line] at hline
  cases hsep : c.sep with
  | none =>
    rw [hsep] at hline
    cases hline
  | some sep =>
    rw [hsep] at hline
    dsimp only at hline
    cases hread : dataFieldReadBuf c.heap.items df c.mem pb pe sep with
    | none =>
      rw [hread] at hline
      cases hline
    | some r =>
      obtain ⟨code, df₁⟩ := r
      rw [hread] at hline
      dsimp only at hline
      split_ifs at hline with hnull
      cases hfill : fillHost df₁ (hostSize * i) (hostSize * c.lineNum) hosts with
      | none =>
        rw [hfill] at hline
        cases hline
      | some hosts₁ =>
        rw [hfill] at hline
        dsimp only at hline
        cases hclean : dataFieldCleanItems df₁ with
        | none =>
          rw [hclean] at hline
          cases hline
        | some df₂ =>
          rw [hclean] at hline
          cases hline
          exact ⟨sep, code, df₁, rfl, hread, not_le.1 hnull, hfill, hclean⟩

/-- A run that has a result has filled an entry from each line that it uses, behind the entries from
before; for a line there must be a list. -/
theorem HostLoop.run_ok (h : c.At pe lines) (hne : lines ≠ [])
    (hrun : c.run n i df pe hosts = .ok (k, hosts')) :
    k = i + (usedLines n lines).length ∧ (usedLines n lines ≠ [] → 1 < c.lineNum ∧ c.sep.isSome) ∧
      ∀ x < (hostSize : ℤ) * i, hosts' x = hosts x := by
  induction n generalizing i df pe hosts lines with
  | zero =>
    cases hrun
    exact ⟨rfl, fun hused => absurd rfl hused, fun _ _ => rfl⟩
  | succ n ih =>
    obtain ⟨l, lines, rfl⟩ := List.exists_cons_of_ne_nil hne
    by_cases hl : l = []
    · subst hl
      rw [run_empty h] at hrun
      cases hrun
      rw [usedLines_empty]
      exact ⟨rfl, fun hused => absurd rfl hused, fun _ _ => rfl⟩
    · rw [run_line h hl] at hrun
      cases hline : c.line df (pe + 1) (pe + 1 + l.length) i hosts with
      | error e =>
        rw [hline] at hrun
        cases hrun
      | ok r =>
        obtain ⟨df₁, hosts₁⟩ := r
        obtain ⟨sep, code, df₀, hsep, -, hnum, hfill, -⟩ := line_ok hline
        have hframe : ∀ x < (hostSize : ℤ) * i, hosts₁ x = hosts x :=
          fun x hx => fillHost_frame hfill hx
        rw [hline] at hrun
        change (if lines = [] then _ else _) = _ at hrun
        rw [usedLines_cons hl]
        split_ifs at hrun with hlast
        · cases hrun
          subst hlast
          refine ⟨by simp [usedLines], fun _ => ⟨hnum, by rw [hsep]; rfl⟩, hframe⟩
        · obtain ⟨hk, -, hrest⟩ := ih h.tail hlast hrun
          refine ⟨?_, fun _ => ⟨hnum, by rw [hsep]; rfl⟩, fun x hx => ?_⟩
          · rw [hk, List.length_cons]
            ring
          · refine (hrest x ?_).trans (hframe x hx)
            have hsize : (0 : ℤ) ≤ hostSize := Int.natCast_nonneg _
            push_cast
            nlinarith

/-! ### Lines that are read -/

/-- A line is read: there are items for its fields, each of which ends with the separator, and the
length of each is an `i32_t`. -/
structure FieldsRead (sep : List UInt8) (cols : ℤ) (l : List UInt8) : Prop where
  cols : (segments sep l).length ≤ cols
  ended : (fields sep l).2 = []
  short : ∀ s ∈ segments sep l, s.length + 2 < 2 ^ 31

variable {sep : List UInt8} {mem : ℤ → Option UInt8}

theorem FieldsRead.readBuf {heap : ItemHeap} (hshort : sep.length < 512) (hsep : sep ≠ [])
    (hdata : ∀ i, (heap.data i).isSome) (hdf : df.Ok) (hnum : df.itemNum = 0) (hpb : 0 < pb)
    (hl : Holds mem pb l) (h : FieldsRead sep df.itemSize l) :
    ∃ df', dataFieldReadBuf heap df mem pb (pb + l.length) sep = some (.ok, df') ∧
      df'.HasStrings (segments sep l) ∧ df'.Ok ∧ df'.itemSize = df.itemSize := by
  have hroom : df.itemNum + (segments sep l).length ≤ df.itemSize := by
    rw [hnum, zero_add]
    exact h.cols
  obtain ⟨df', hread, hnum', -, hitems⟩ := readFields_fields hshort hsep hdata hdf hl hpb
    (show l.length < (pb + l.length - pb).toNat + 1 by omega) hroom h.ended h.short
  obtain ⟨hok, hsize⟩ := readFields_ok hshort hsep hdf hl hpb hroom hread
  rw [hnum, zero_add] at hnum'
  rw [hnum] at hitems
  refine ⟨df', hread, ⟨hnum', fun k s hs => ?_⟩, hok, hsize⟩
  have hitem := hitems k s hs
  rwa [Int.toNat_zero, Nat.zero_add] at hitem

/-- The item behind a full array is what `malloc` has left there. -/
theorem grow_full (hdf : df.Ok) (hfull : df.itemNum = df.itemSize) (hsmall : df.itemSize < 124) :
    ∃ df', growItems fullHeap df = some (.ok, df') ∧ df'.itemNum = df.itemNum ∧
      df.itemNum < df'.itemSize ∧ df'.item df.itemNum = some ⟨0, 0, .wild⟩ := by
  have hnonneg := hdf.num_nonneg
  have hsize := hdf.size
  have hi8 : i8 (df.itemSize + 4) = df.itemSize + 4 := i8_of_range (by omega) (by omega)
  have htake : df.pItems.take df.itemSize.toNat = df.pItems := List.take_of_length_le (by omega)
  have hat : df.itemNum.toNat - df.pItems.length = 0 := by omega
  refine ⟨{ df with
    itemSize := df.itemSize + 4
    pItems := df.pItems ++ List.replicate 4 ⟨0, 0, .wild⟩ }, ?_, rfl, ?_, ?_⟩
  · rw [growItems, if_neg (by omega), if_neg (by omega)]
    dsimp only [fullHeap]
    rw [if_neg (by omega), hi8, htake]
    rfl
  · dsimp only
    omega
  · rw [DataField.item, if_neg (by omega)]
    dsimp only
    rw [List.getElem?_append_right (by omega), hat]
    rfl

/-- Nothing can be added there. -/
theorem addItem_full (hdf : df.Ok) (hfull : df.itemNum = df.itemSize) (hsmall : df.itemSize < 124)
    (pe : ℤ) : dataFieldAddItem fullHeap df mem pb pe = none := by
  obtain ⟨df', hgrow, hnum, hlt, hitem⟩ := grow_full hdf hfull hsmall
  rw [← hnum] at hlt hitem
  rw [dataFieldAddItem, hgrow]
  dsimp only
  by_cases hn : 0 ≤ pe - pb + 1
  · -- the garbage at `data` would be freed
    have hroom : itemRoom fullHeap df' (pe - pb) = none := by
      rw [itemRoom, hitem, Option.bind_eq_bind, Option.bind_some, if_pos hn, dataFieldSetItemSize,
        if_neg (not_le.2 hlt), hitem]
    rw [hroom]
  · have hroom : itemRoom fullHeap df' (pe - pb) = some (.ok, df') := by
      rw [itemRoom, hitem, Option.bind_eq_bind, Option.bind_some, if_neg hn]
    rw [hroom]
    dsimp only
    rw [copyItem, hitem, Option.bind_eq_bind, Option.bind_some, DataItem.copy, if_pos (by omega)]
    rfl

/-- A line with more fields than there are items is not read. -/
theorem readFields_overfull (hshort : sep.length < 512) (hsep : sep ≠ []) {turns : ℕ} (hdf : df.Ok)
    (hsmall : df.itemSize < 124) (hpb : 0 < pb) (hl : Holds mem pb l)
    (hover : df.itemSize < df.itemNum + (segments sep l).length) :
    readFields fullHeap mem (pb + l.length) sep turns df pb = none := by
  have hle := hdf.num_le
  induction turns generalizing df pb l with
  | zero => rfl
  | succ turns ih =>
    by_cases hne : l = []
    · rw [hne, segments_nil hsep, List.length_nil] at hover
      omega
    cases hat : firstAt sep l with
    | none =>
      -- one field is left, and no item
      rw [segments_of_none hat hne, List.length_singleton] at hover
      have hpos := List.length_pos_iff.2 hne
      rw [readFields, if_neg (by omega), findStr_spec hshort hl, hat]
      dsimp only [Option.map_none, Option.getD_none]
      rw [addItem_full hdf (by omega) hsmall]
    | some j =>
      obtain ⟨htext, hj, hrest⟩ := holds_split hl hat
      rw [readFields_next hshort hsep hl hat]
      rw [segments_of_some hsep hat, List.length_cons] at hover
      rcases eq_or_lt_of_le hle with hfull | hfree
      · rw [addItem_full hdf hfull hsmall]
      · by_cases hlong : j + 2 < 2 ^ 31
        · obtain ⟨item, hadd, hitem, -⟩ : ∃ item, dataFieldAddItem fullHeap df mem pb
              (pb + (l.take j).length) = some (.ok, df.push item) ∧ item.Ok ∧
                item.Denotes (l.take j) :=
            addItem_text hdf hfree rfl htext (by omega)
          rw [hj] at hadd
          have hpush := hdf.push hfree hitem
          have hnext : (df.push item).itemNum = df.itemNum + 1 := rfl
          have hsize : (df.push item).itemSize = df.itemSize := rfl
          rw [hadd]
          refine ih hpush (by omega) (by omega) hrest ?_ hpush.num_le
          push_cast at hover
          omega
        · rw [addItem_eq_none hdf hfree rfl (.inr (by omega))]

/-- A line that is not read has no result when the blocks that `malloc` returns hold no items. -/
theorem fieldsRead_of_readBuf (hshort : sep.length < 512) (hsep : sep ≠ []) (hdf : df.Ok)
    (hnum : df.itemNum = 0) (hpb : 0 < pb) (hl : Holds mem pb l)
    (hcols : (segments sep l).length ≤ df.itemSize ∨ df.itemSize < 124) {r : Code × DataField}
    (hread : dataFieldReadBuf fullHeap df mem pb (pb + l.length) sep = some r) :
    FieldsRead sep df.itemSize l := by
  have hroom : (segments sep l).length ≤ df.itemSize := by
    refine hcols.elim id fun hsmall => ?_
    by_contra hover
    rw [dataFieldReadBuf, readFields_overfull hshort hsep hdf hsmall hpb hl (by omega)] at hread
    cases hread
  by_contra hbad
  have hnot : ¬ ((fields sep l).2 = [] ∧ ∀ s ∈ segments sep l, s.length + 2 < 2 ^ 31) :=
    fun hgood => hbad ⟨hroom, hgood.1, hgood.2⟩
  rw [dataFieldReadBuf,
    readFields_eq_none hshort hsep (fun _ => rfl) hdf hl hpb (by omega) hnot] at hread
  cases hread

/-- Fields that are in order can be cleaned. -/
theorem exists_cleanItems (hdf : df.Ok) : ∃ df', dataFieldCleanItems df = some df' ∧ df'.Ok ∧
    df'.itemNum = 0 ∧ df'.itemSize = df.itemSize := by
  have hle := hdf.num_le
  have hsize := hdf.size
  obtain ⟨items, hitems, -⟩ := cleanItems_ok (show df.itemNum.toNat ≤ _ by omega) hdf.items
  have hclean : dataFieldCleanItems df = some { df with itemNum := 0, pItems := items } := by
    rw [dataFieldCleanItems, hitems, Option.map_some]
  obtain ⟨hok, hzero⟩ := dataFieldCleanItems_ok hdf hclean
  exact ⟨_, hclean, hok, hzero, rfl⟩

/-- **The condition on a line**: it is read, and its fields fit the entry. -/
structure LineGood (sep : List UInt8) (cols : ℤ) (l : List UInt8) : Prop
    extends FieldsRead sep cols l where
  fits : FitsHost (segments sep l)

/-- What a turn has done with a line that is read. -/
theorem HostLoop.line_read (hshort : sep.length < 512) (hsep : sep ≠ []) (hc : c.sep = some sep)
    (hdf : df.Ok) (hnum : df.itemNum = 0) (h : c.At pe (l :: lines))
    (hread : FieldsRead sep df.itemSize l)
    (hline : c.line df (pe + 1) (pe + 1 + l.length) i hosts = .ok (df', hosts')) :
    (HoldsHost hosts' (hostSize * i) (segments sep l) ↔ FitsHost (segments sep l)) ∧ df'.Ok ∧
      df'.itemNum = 0 ∧ df'.itemSize = df.itemSize := by
  have hpos := h.nonneg
  obtain ⟨sep', code, df₁, hsep', hbuf, -, hfill, hclean⟩ := line_ok hline
  obtain rfl : sep = sep' := Option.some.inj (hc.symm.trans hsep')
  obtain ⟨df₂, hbuf', hstrings, hok, hsize⟩ :=
    hread.readBuf hshort hsep c.heap.data_some hdf hnum (by omega) h.head
  rw [hbuf] at hbuf'
  cases hbuf'
  obtain ⟨df₃, hclean', hok', hnum', hsize'⟩ := exists_cleanItems hok
  rw [hclean] at hclean'
  cases hclean'
  exact ⟨fillHost_holds_iff hstrings hfill, hok', hnum', hsize'.trans hsize⟩

/-- A good line fills an entry. -/
theorem HostLoop.exists_line (hshort : sep.length < 512) (hsep : sep ≠ []) (hc : c.sep = some sep)
    (hdf : df.Ok) (hnum : df.itemNum = 0) (h : c.At pe (l :: lines))
    (hgood : LineGood sep df.itemSize l) (hlist : 1 < c.lineNum) (hi : (i : ℤ) + 1 ≤ c.lineNum) :
    ∃ df' hosts', c.line df (pe + 1) (pe + 1 + l.length) i hosts = .ok (df', hosts') := by
  have hpos := h.nonneg
  obtain ⟨df₁, hbuf, hstrings, hok, -⟩ :=
    hgood.readBuf hshort hsep c.heap.data_some hdf hnum (by omega) h.head
  have hroom : (hostSize : ℤ) * i + hostSize ≤ hostSize * c.lineNum := by
    have hmul : (hostSize : ℤ) * (i + 1) ≤ hostSize * c.lineNum :=
      mul_le_mul_of_nonneg_left hi (Int.natCast_nonneg _)
    rwa [mul_add, mul_one] at hmul
  obtain ⟨hosts', hfill⟩ : ∃ hosts', fillHost df₁ (hostSize * i) (hostSize * c.lineNum) hosts =
      some hosts' := exists_fillHost hstrings hgood.fits.texts hroom
  obtain ⟨df', hclean, -⟩ := exists_cleanItems hok
  refine ⟨df', hosts', ?_⟩
  rw [HostLoop.line, hc]
  dsimp only
  rw [hbuf]
  dsimp only
  rw [if_neg (not_le.2 hlist), hfill]
  dsimp only
  rw [hclean]

/-! ### Runs of the loop -/

/-- The entries from `i` on hold the fields of the lines. -/
def HoldLines (sep : List UInt8) (hosts : ℤ → UInt8) (i : ℕ) (lines : List (List UInt8)) : Prop :=
  ∀ (j : ℕ) l, lines[j]? = some l → HoldsHost hosts (hostSize * (i + j : ℕ)) (segments sep l)

theorem holdLines_cons : HoldLines sep hosts i (l :: lines) ↔
    HoldsHost hosts (hostSize * i) (segments sep l) ∧ HoldLines sep hosts (i + 1) lines := by
  constructor
  · intro h
    refine ⟨h 0 l rfl, fun j l' hj => ?_⟩
    have hnext := h (j + 1) l' hj
    rwa [Nat.add_right_comm]
  · rintro ⟨hfirst, hrest⟩ (_ | j) l' hj
    · cases hj
      exact hfirst
    · have hnext := hrest j l' hj
      rwa [Nat.add_right_comm] at hnext

theorem holdLines_nil : HoldLines sep hosts i [] := by
  intro j l hj
  simp at hj

theorem usedLines_nil (n : ℕ) : usedLines n [] = [] := List.take_nil

/-- **Good lines**: each of them fills its entry. -/
theorem HostLoop.run_good (hshort : sep.length < 512) (hsep : sep ≠ []) (hc : c.sep = some sep)
    (hlist : 1 < c.lineNum) (hdf : df.Ok) (hnum : df.itemNum = 0) (h : c.At pe lines)
    (hne : lines ≠ []) (hi : (i : ℤ) + n ≤ c.lineNum)
    (hgood : ∀ l ∈ usedLines n lines, LineGood sep df.itemSize l) :
    ∃ k hosts', c.run n i df pe hosts = .ok (k, hosts') ∧
      HoldLines sep hosts' i (usedLines n lines) := by
  induction n generalizing i df pe hosts lines with
  | zero => exact ⟨i, hosts, rfl, holdLines_nil⟩
  | succ n ih =>
    obtain ⟨l, lines, rfl⟩ := List.exists_cons_of_ne_nil hne
    by_cases hl : l = []
    · subst hl
      rw [run_empty h, usedLines_empty]
      exact ⟨i, hosts, rfl, holdLines_nil⟩
    · rw [usedLines_cons hl, List.forall_mem_cons] at hgood
      push_cast at hi
      obtain ⟨df₁, hosts₁, hline⟩ : ∃ df₁ hosts₁,
          c.line df (pe + 1) (pe + 1 + l.length) i hosts = .ok (df₁, hosts₁) :=
        exists_line hshort hsep hc hdf hnum h hgood.1 hlist (by omega)
      obtain ⟨hholds, hdf₁, hnum₁, hsize⟩ :=
        line_read hshort hsep hc hdf hnum h hgood.1.toFieldsRead hline
      rw [run_line h hl, hline, usedLines_cons hl]
      change ∃ k hosts', (if lines = [] then _ else _) = _ ∧ _
      by_cases hlast : lines = []
      · subst hlast
        rw [if_pos rfl, usedLines_nil]
        exact ⟨_, _, rfl, holdLines_cons.2 ⟨hholds.2 hgood.1.fits, holdLines_nil⟩⟩
      · rw [if_neg hlast]
        have hi' : ((i + 1 : ℕ) : ℤ) + n ≤ c.lineNum := by
          push_cast
          omega
        obtain ⟨k, hosts', hrun, hrest⟩ := ih hdf₁ hnum₁ h.tail hlast hi'
          fun l' hl' => hsize ▸ hgood.2 l' hl'
        refine ⟨k, hosts', hrun,
          holdLines_cons.2 ⟨(hholds.2 hgood.1.fits).congr fun x hx => ?_, hrest⟩⟩
        refine (run_ok h.tail hlast hrun).2.2 x ?_
        push_cast
        rwa [mul_add, mul_one]

/-- **Entries that hold their lines**: the lines are good. -/
theorem HostLoop.good_of_run (hshort : sep.length < 512) (hsep : sep ≠ []) (hc : c.sep = some sep)
    (hheap : c.heap.items = fullHeap) (hdf : df.Ok) (hnum : df.itemNum = 0) (h : c.At pe lines)
    (hne : lines ≠ []) (hrun : c.run n i df pe hosts = .ok (k, hosts'))
    (hholds : HoldLines sep hosts' i (usedLines n lines)) :
    ∀ l ∈ usedLines n lines, LineGood sep df.itemSize l := by
  induction n generalizing i df pe hosts lines with
  | zero => simp [usedLines]
  | succ n ih =>
    obtain ⟨l, lines, rfl⟩ := List.exists_cons_of_ne_nil hne
    by_cases hl : l = []
    · subst hl
      rw [usedLines_empty]
      simp
    · rw [run_line h hl] at hrun
      rw [usedLines_cons hl] at hholds ⊢
      obtain ⟨hentry, hrest⟩ := holdLines_cons.1 hholds
      cases hline : c.line df (pe + 1) (pe + 1 + l.length) i hosts with
      | error e =>
        rw [hline] at hrun
        cases hrun
      | ok r =>
        obtain ⟨df₁, hosts₁⟩ := r
        rw [hline] at hrun
        change (if lines = [] then _ else _) = _ at hrun
        have hpos := h.nonneg
        obtain ⟨sep', code, df₀, hsep', hbuf, -⟩ := line_ok hline
        obtain rfl : sep = sep' := Option.some.inj (hc.symm.trans hsep')
        rw [hheap] at hbuf
        have hcols : (segments sep l).length ≤ df.itemSize ∨ df.itemSize < 124 := by
          have hfew := hentry.few
          have hnine := length_hostFields_le (hostI32 hosts' (hostSize * i))
          omega
        have hread := fieldsRead_of_readBuf hshort hsep hdf hnum (by omega) h.head hcols hbuf
        obtain ⟨hiff, hdf₁, hnum₁, hsize⟩ := line_read hshort hsep hc hdf hnum h hread hline
        rw [List.forall_mem_cons]
        split_ifs at hrun with hlast
        · cases hrun
          subst hlast
          rw [usedLines_nil]
          exact ⟨⟨hread, hiff.1 hentry⟩, by simp⟩
        · refine ⟨⟨hread, hiff.1 (hentry.congr fun x hx =>
              ((run_ok h.tail hlast hrun).2.2 x ?_).symm)⟩,
            fun l' hl' => hsize ▸ ih hdf₁ hnum₁ h.tail hlast hrun hrest l' hl'⟩
          push_cast
          rwa [mul_add, mul_one]

/-! ### The file -/

/-- **A file of hosts**: the first line says how many lines follow, with which separator and with
how many fields at most, and each line has a newline behind it. -/
structure HostFile where
  header : List UInt8
  lines : List (List UInt8)
  lineText : List UInt8
  n : ℤ
  sep : List UInt8
  colText : List UInt8
  m : ℤ
  header_line : 10 ∉ header
  lines_line : ∀ l ∈ lines, 10 ∉ l
  lineText_eq : between (ascii "LINE=") (ascii ";") header = some lineText
  n_eq : IsInteger 10 lineText n
  n_pos : 1 ≤ n
  sep_eq : between (ascii "Sep=") (ascii ";") header = some sep
  sep_text : 0 ∉ sep
  colText_eq : behind (ascii "MaxCol=") (ascii ";") header = some colText
  m_eq : IsInteger 10 colText m
  few : ∀ l ∈ lines, (segments sep l).length ≤ m

namespace HostFile

variable (f : HostFile)

/-- The bytes of the file. -/
def content : List UInt8 := f.header ++ 10 :: endedLines f.lines

/-- What `substr` takes to a place of 16 bytes. -/
def taken (v : List UInt8) : List UInt8 := if v.length ≤ 16 then v else []

/-- `line_num` -/
def lineNum : ℤ := atoi f.lineText

/-- The number of items that `data_field_init` is asked for, an `i8_t`. -/
def cols : ℤ := i8 (maxCol (taken f.colText))

/-- The lines that entries are filled from. -/
def used : List (List UInt8) := usedLines f.lineNum.toNat f.lines

/-- The memory in which the file is. -/
def memory (heap : HostHeap) : ℤ → Option UInt8 :=
  Block.view (Mem.store (fun _ => 0) heap.buf f.content) heap.buf f.content.length

/-- The loop for the file. -/
def loop (heap : HostHeap) : HostLoop where
  heap := heap
  mem := f.memory heap
  bufEnd := heap.buf + f.content.length - 1
  sep := if taken f.sep = [] then none else some (cstr (taken f.sep))
  lineNum := f.lineNum

theorem content_eq : f.content = endedLines (f.header :: f.lines) := (endedLines_cons _ _).symm

theorem holds_content (heap : HostHeap) : Holds (f.memory heap) heap.buf f.content := by
  have hslice := holds_slice (m := Mem.store (fun _ => 0) heap.buf f.content) f.content.length
    (le_refl heap.buf) le_rfl
  rwa [Mem.slice_store_self] at hslice

/-- The first line is a line like the others. -/
theorem at_header (heap : HostHeap) :
    (f.loop heap).At (heap.buf - 1) (f.header :: f.lines) where
  nonneg := by
    have hpos := heap.buf_pos
    omega
  holds := by
    rw [sub_add_cancel, ← content_eq]
    exact f.holds_content heap
  bufEnd_eq := by
    rw [← content_eq]
    exact add_sub_right_comm _ _ _
  line := List.forall_mem_cons.2 ⟨f.header_line, f.lines_line⟩

theorem at_lines (heap : HostHeap) :
    (f.loop heap).At (heap.buf + f.header.length) f.lines := by
  have htail := (f.at_header heap).tail
  rwa [sub_add_cancel] at htail

theorem find_header (heap : HostHeap) :
    findStr (f.memory heap) heap.buf (heap.buf + f.content.length - 1) (ascii "\n") =
      some (if f.lines = [] then none else some (heap.buf + f.header.length)) := by
  have hfind := (f.at_header heap).find
  rwa [sub_add_cancel] at hfind

theorem substr_header (heap : HostHeap) {prev post v : List UInt8} (hprev : prev.length < 512)
    (hpost : post.length < 512) (hv : behind prev post f.header = some v) :
    substr (f.memory heap) heap.buf (heap.buf + f.header.length) prev post 16 = some (taken v) := by
  have hholds := f.holds_content heap
  rw [content, holds_append] at hholds
  have hsubstr := substr_spec hholds.1 hprev hpost 16
  rw [hv] at hsubstr
  refine hsubstr.trans ?_
  rw [Option.filter_some, taken]
  by_cases hlen : v.length ≤ 16 <;> simp [hlen]

/-- A number of lines that is announced is not made larger. -/
theorem lineNum_le : f.lineNum ≤ f.n := by
  obtain ⟨neg, n, hnum, hn⟩ := f.n_eq
  have hcstr : cstr f.lineText = f.lineText := cstr_of_notMem (hnum.notMem_zero (by norm_num))
  have hleading := (isInteger_iff (by norm_num) hnum.ne_nil _).1 f.n_eq
  have hpos := f.n_pos
  rw [lineNum, atoi, hcstr, strtol_eq, ← hleading.2, longOf, i32, Int.bmod_def]
  split_ifs <;> omega

theorem taken_of_le {v : List UInt8} (h : v.length ≤ 16) : taken v = v := if_pos h

theorem lineText_ne_nil : f.lineText ≠ [] := by
  obtain ⟨neg, n, hnum, -⟩ := f.n_eq
  exact hnum.ne_nil

/-- The file is refused when no line follows, or when the text of the number is too long. -/
theorem read_refused (heap : HostHeap) (h : f.lines = [] ∨ 16 < f.lineText.length) :
    readWebhostFromFile heap f.content = .error .refused := by
  have hfind := f.find_header heap
  rw [memory] at hfind
  dsimp only [readWebhostFromFile]
  rw [hfind]
  by_cases hlines : f.lines = []
  · rw [if_pos hlines]
  · have hlong : taken f.lineText = [] := if_neg (not_le.2 (h.resolve_left hlines))
    have hline := f.substr_header heap (by decide) (by decide) (behind_of_between f.lineText_eq)
    have hsep := f.substr_header heap (by decide) (by decide) (behind_of_between f.sep_eq)
    have hcol := f.substr_header heap (by decide) (by decide) f.colText_eq
    rw [memory] at hline hsep hcol
    rw [if_neg hlines]
    dsimp only
    rw [hline, hsep, hcol]
    dsimp only
    rw [if_pos hlong]

/-- Any other file is read, line by line. -/
theorem read_eq (heap : HostHeap) (hlines : f.lines ≠ []) (htext : f.lineText.length ≤ 16) :
    readWebhostFromFile heap f.content =
      if (taken f.sep).length = 16 then .error (.failed .fault)
      else
        match dataFieldInit heap.items f.cols 0 with
        | none => .error (.failed .fault)
        | some df =>
          match (f.loop heap).run f.lineNum.toNat 0 df (heap.buf + f.header.length) heap.hosts with
          | .error why => .error (.failed why)
          | .ok (filled, hosts) => .ok ⟨i32 f.content.length, f.lineNum, filled, hosts⟩ := by
  have hfind := f.find_header heap
  have hline := f.substr_header heap (by decide) (by decide) (behind_of_between f.lineText_eq)
  have hsep := f.substr_header heap (by decide) (by decide) (behind_of_between f.sep_eq)
  have hcol := f.substr_header heap (by decide) (by decide) f.colText_eq
  rw [taken_of_le htext] at hline
  rw [memory] at hfind hline hsep hcol
  dsimp only [readWebhostFromFile]
  rw [hfind, if_neg hlines]
  dsimp only
  rw [hline, hsep, hcol]
  dsimp only
  rw [if_neg f.lineText_ne_nil]
  rfl

end HostFile

/-- **The list is what the file says**: there are as many entries as have been filled, no more than
are announced and than there are lines, and each holds the fields of its line. -/
structure WebhostList.Right (list : WebhostList) (f : HostFile) : Prop where
  count : list.webhostNum = list.filled
  announced : (list.filled : ℤ) ≤ f.n
  present : list.filled ≤ f.lines.length
  entry : ∀ i < list.filled, ∃ l, f.lines[i]? = some l ∧
    HoldsHost list.webhosts (hostSize * i) (segments f.sep l)

/-- A call that returns a positive number, the size of the file, has filled the list with what the
file says, whatever the memory that it gets. -/
def HostsRight (f : HostFile) : Prop :=
  0 < i32 f.content.length → ∀ heap,
    match readWebhostFromFile heap f.content with
    | .ok list => list.Right f
    | .error e => e = .refused

/-- **The files that are read right**: none or at least two lines are announced, and no more than
follow before an empty one; the separator fits its array, the number of columns its type, and each
line is good. -/
structure HostFile.Good (f : HostFile) : Prop where
  count : f.lineNum = 0 ∨ 2 ≤ f.lineNum ∧ f.lineNum ≤ (f.lines.takeWhile (· ≠ [])).length
  sep_ne : f.sep.length ≠ 16
  sep : f.lineNum ≠ 0 → f.sep ≠ [] ∧ f.sep.length < 16
  cols : 0 ≤ f.cols
  lines : ∀ l ∈ f.used, LineGood f.sep f.cols l

namespace HostFile

variable {f : HostFile} {heap : HostHeap}

theorem length_used (f : HostFile) :
    f.used.length = min f.lineNum.toNat (f.lines.takeWhile (· ≠ [])).length :=
  List.length_take

/-- The lines that are used are the first ones. -/
theorem used_prefix (f : HostFile) : f.used <+: f.lines :=
  (List.take_prefix _ _).trans (List.takeWhile_prefix _)

theorem getElem?_used {j : ℕ} {l : List UInt8} (hj : f.used[j]? = some l) :
    f.lines[j]? = some l := by
  obtain ⟨hlt, rfl⟩ := List.getElem?_eq_some_iff.1 hj
  exact List.prefix_iff_getElem?.1 f.used_prefix j hlt

theorem loop_sep (hne : f.sep ≠ []) (hlen : f.sep.length ≤ 16) :
    (f.loop heap).sep = some f.sep := by
  change (if taken f.sep = [] then none else some (cstr (taken f.sep))) = _
  rw [taken_of_le hlen, if_neg hne, cstr_of_notMem f.sep_text]

theorem sep_of_isSome (h : (f.loop heap).sep.isSome) : f.sep ≠ [] ∧ f.sep.length ≤ 16 := by
  change (if taken f.sep = [] then none else some (cstr (taken f.sep))).isSome = true at h
  by_cases hlen : f.sep.length ≤ 16
  · rw [taken_of_le hlen] at h
    refine ⟨fun hnil => ?_, hlen⟩
    rw [if_pos hnil] at h
    cases h
  · rw [taken, if_neg hlen, if_pos rfl] at h
    cases h

theorem cols_le (f : HostFile) : f.cols ≤ 127 := by
  have hlt := i8_lt (maxCol (taken f.colText))
  rw [cols]
  omega

/-- What `data_field_init` makes for the file. -/
theorem init_ok {df : DataField} (hinit : dataFieldInit heap.items f.cols 0 = some df) :
    df.Ok ∧ df.itemNum = 0 ∧ df.itemSize = f.cols :=
  have ⟨hok, hnum⟩ := dataFieldInit_ok f.cols_le (by norm_num) hinit
  ⟨hok, hnum, dataFieldInit_itemSize hinit⟩

/-- As many entries as there are lines that are used are right when as many are announced, and they
hold these lines. -/
theorem right_iff {ret : ℤ} {hosts : ℤ → UInt8} :
    (WebhostList.mk ret f.lineNum f.used.length hosts).Right f ↔
      f.lineNum = f.used.length ∧ HoldLines f.sep hosts 0 f.used := by
  constructor
  · rintro ⟨hcount, -, -, hentry⟩
    refine ⟨hcount, fun j l hj => ?_⟩
    obtain ⟨hlt, -⟩ := List.getElem?_eq_some_iff.1 hj
    obtain ⟨l', hl', hholds⟩ := hentry j hlt
    obtain rfl : l' = l := Option.some.inj (hl'.symm.trans (getElem?_used hj))
    rwa [zero_add]
  · rintro ⟨hcount, hholds⟩
    refine ⟨hcount, hcount.symm.trans_le f.lineNum_le, f.used_prefix.length_le, fun i hi => ?_⟩
    have hat : f.used[i]? = some f.used[i] := List.getElem?_eq_getElem hi
    have hentry := hholds i _ hat
    rw [zero_add] at hentry
    exact ⟨_, getElem?_used hat, hentry⟩

/-- A file that is not refused is read right when the loop comes to its end, and fills the entries
from the lines that are used. -/
theorem reads_right_iff (heap : HostHeap) (hlines : f.lines ≠ []) (htext : f.lineText.length ≤ 16) :
    (match readWebhostFromFile heap f.content with
      | .ok list => list.Right f
      | .error e => e = .refused) ↔
      (taken f.sep).length ≠ 16 ∧ ∃ df hosts, dataFieldInit heap.items f.cols 0 = some df ∧
        (f.loop heap).run f.lineNum.toNat 0 df (heap.buf + f.header.length) heap.hosts =
            .ok (f.used.length, hosts) ∧
          f.lineNum = f.used.length ∧ HoldLines f.sep hosts 0 f.used := by
  rw [read_eq f heap hlines htext]
  split_ifs with hsep
  · simp [hsep]
  cases hinit : dataFieldInit heap.items f.cols 0 with
  | none => simp
  | some df =>
    dsimp only
    cases hrun : (f.loop heap).run f.lineNum.toNat 0 df (heap.buf + f.header.length)
        heap.hosts with
    | error e => simp [hrun]
    | ok r =>
      obtain ⟨k, hosts⟩ := r
      obtain ⟨hk, -⟩ := HostLoop.run_ok (f.at_lines heap) hlines hrun
      obtain rfl : k = f.used.length := hk.trans (zero_add _)
      simp [hsep, hrun, right_iff]

/-- **Good files are read right.** -/
theorem Good.right (hlines : f.lines ≠ []) (htext : f.lineText.length ≤ 16) (h : f.Good) :
    HostsRight f := by
  intro _ heap
  have hsep : (taken f.sep).length ≠ 16 := by
    rw [taken]
    split_ifs
    · exact h.sep_ne
    · decide
  obtain ⟨df, hinit⟩ : ∃ df, dataFieldInit heap.items f.cols 0 = some df := by
    have harray := Option.isSome_iff_ne_none.1 (heap.array_some 0)
    have hcols := h.cols
    rw [dataFieldInit, if_neg (by simp [harray, hcols]), if_pos le_rfl]
    exact ⟨_, rfl⟩
  obtain ⟨hdf, hnum, hsize⟩ := init_ok hinit
  have hlen := f.length_used
  have hcount : f.lineNum = f.used.length := by
    have hpresent := h.count
    omega
  rw [reads_right_iff heap hlines htext]
  refine ⟨hsep, df, ?_⟩
  rcases h.count with hzero | ⟨htwo, -⟩
  · have hnone : f.used = [] := List.eq_nil_of_length_eq_zero (by omega)
    rw [hnone] at hcount ⊢
    rw [hzero]
    exact ⟨_, hinit, rfl, rfl, holdLines_nil⟩
  · obtain ⟨hne, hlt⟩ := h.sep (by omega)
    have hgood : ∀ l ∈ f.used, LineGood f.sep df.itemSize l := fun l hl => hsize ▸ h.lines l hl
    obtain ⟨k, hosts, hrun, hholds⟩ := HostLoop.run_good (by omega) hne (loop_sep hne hlt.le)
      (show 1 < f.lineNum by omega) hdf hnum (f.at_lines heap) hlines
      (show ((0 : ℕ) : ℤ) + f.lineNum.toNat ≤ f.lineNum by omega) hgood
    obtain ⟨hk, -⟩ := HostLoop.run_ok (f.at_lines heap) hlines hrun
    obtain rfl : k = f.used.length := hk.trans (zero_add _)
    exact ⟨hosts, hinit, hrun, hcount, hholds⟩

/-- Memory that has been used before: no item in it is in order. -/
def usedHeap : HostHeap where
  buf := 1
  buf_pos := Int.one_pos
  items := fullHeap
  data_some := fullHeap_data
  array_some := fullHeap_array
  hosts := fun _ => 0

/-- **Files that are read right are good.** -/
theorem Good.of_right (hlines : f.lines ≠ []) (htext : f.lineText.length ≤ 16)
    (hpos : 0 < i32 f.content.length) (h : HostsRight f) : f.Good := by
  obtain ⟨hsep, df, hosts, hinit, hrun, hcount, hholds⟩ :=
    (reads_right_iff usedHeap hlines htext).1 (h hpos usedHeap)
  obtain ⟨hdf, hnum, hsize⟩ := init_ok hinit
  obtain ⟨-, hlist, -⟩ := HostLoop.run_ok (f.at_lines usedHeap) hlines hrun
  have hlen := f.length_used
  -- when any line is announced, one is used, and there is a list and a separator
  have hlist : f.lineNum ≠ 0 → 1 < f.lineNum ∧ f.sep ≠ [] ∧ f.sep.length ≤ 16 := fun hzero =>
    have ⟨hone, hsome⟩ := hlist fun hnil => by
      have hnone : f.used.length = 0 := congrArg List.length hnil
      omega
    ⟨hone, sep_of_isSome hsome⟩
  have hsixteen : f.sep.length ≠ 16 := fun hlen => hsep (by rw [taken_of_le hlen.le, hlen])
  refine ⟨?_, hsixteen, fun hzero => ?_, ?_, fun l hl => ?_⟩
  · by_cases hzero : f.lineNum = 0
    · exact .inl hzero
    · have hone := (hlist hzero).1
      exact .inr ⟨hone, by omega⟩
  · obtain ⟨-, hne, hle⟩ := hlist hzero
    exact ⟨hne, by omega⟩
  · have hle := hdf.num_le
    omega
  · have hpos := List.length_pos_of_mem hl
    obtain ⟨-, hne, hle⟩ := hlist (by omega)
    rw [← hsize]
    exact HostLoop.good_of_run (by omega) hne (loop_sep hne hle) rfl hdf hnum
      (f.at_lines usedHeap) hlines hrun hholds l hl

end HostFile

/-- **When the list is what the file says**: the file is refused, or it is good. -/
theorem hosts_right_iff (f : HostFile) :
    HostsRight f ↔
      i32 f.content.length ≤ 0 ∨ (f.lines = [] ∨ 16 < f.lineText.length) ∨ f.Good := by
  by_cases hpos : i32 f.content.length ≤ 0
  · exact iff_of_true (fun h => absurd hpos (not_le.2 h)) (.inl hpos)
  by_cases hrefused : f.lines = [] ∨ 16 < f.lineText.length
  · refine iff_of_true (fun _ heap => ?_) (.inr (.inl hrefused))
    rw [f.read_refused heap hrefused]
  · rw [not_or, not_lt] at hrefused
    constructor
    · exact fun h => .inr (.inr (.of_right hrefused.1 hrefused.2 (not_le.1 hpos) h))
    · rintro (hle | hno | hgood)
      · exact absurd hle hpos
      · exact absurd hno (by simp [hrefused])
      · exact hgood.right hrefused.1 hrefused.2

/-- The fields of a host of type 0. -/
def hostTexts : List (List UInt8) :=
  [ascii "0", ascii "1.1.1.1", ascii "80", ascii "2.2.2.2", ascii "80"]

/-- A file that announces one line, and has it. -/
def oneHost : HostFile where
  header := ascii "LINE=1;Sep=\t;MaxCol=9"
  lines := [hostTexts.flatMap fun s => s ++ [9]]
  lineText := ascii "1"
  n := 1
  sep := [9]
  colText := ascii "9"
  m := 9
  header_line := by decide
  lines_line := by decide
  lineText_eq := by decide
  n_eq := (isInteger_iff (by norm_num) (by decide) 1).2 (by decide)
  n_pos := le_rfl
  sep_eq := by decide
  sep_text := by decide
  colText_eq := by decide
  m_eq := (isInteger_iff (by norm_num) (by decide) 9).2 (by decide)
  few := by
    rw [List.forall_mem_singleton, segments_flatMap (by decide)]
    decide

/-- **One host**: no list is allocated for one line, and its entry is stored through `NULL`. -/
theorem one_host_null :
    readWebhostFromFile HostFile.usedHeap oneHost.content = .error (.failed .nullStore) ∧
      ¬ HostsRight oneHost := by
  have hnull : readWebhostFromFile HostFile.usedHeap oneHost.content =
      .error (.failed .nullStore) := by
    have hkind : ((readWebhostFromFile HostFile.usedHeap oneHost.content).map fun _ => ()) =
        .error (.failed .nullStore) := by decide +kernel
    cases hread : readWebhostFromFile HostFile.usedHeap oneHost.content with
    | error e =>
      rw [hread] at hkind
      cases hkind
      rfl
    | ok list =>
      rw [hread] at hkind
      cases hkind
  refine ⟨hnull, fun h => ?_⟩
  have hread := h (by decide +kernel) HostFile.usedHeap
  rw [hnull] at hread
  cases hread

end F1Goal
