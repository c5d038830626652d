import F1Goal.Lib.Printf
import F1Goal.Template

/-!
# Building a data set (`f1g_data_set.c`)

A data set is an array of keys that grows when it is full. The values of the first `key_size` keys
have a place of `KEY_VAL_SIZE` bytes; the keys that growth adds have none. `malloc` succeeds when it
is asked for a size that is not negative; a negative one comes from a sum that leaves the range of
an `i32_t`. `addVars_rep` describes the array after calls that return `F1G_OK`, and `findsExact_iff`
says when a lookup finds the variable of that name.
-/

namespace F1Goal

open CString Printf

/-- `MAX_KEY_LEN` -/
def maxKeyLen : ℕ := 64

/-- `KEY_VAL_SIZE` -/
def keyValSize : ℤ := 128

/-- `key_info_t` in the array. A value that is `NULL` has the size 0. -/
structure KeySlot where
  key : List UInt8
  val : Value

/-- A slot filled with zeros by `memset`. -/
def zeroSlot : KeySlot := ⟨[], ⟨0, 0, fun _ => 0⟩⟩

/-- `data_set_t` with its array. -/
structure DataSetObj where
  keyNum : ℕ
  keySize : ℕ
  pKeys : ℕ → KeySlot

/-- `key_info_extent_cap` -/
def keyInfoExtentCap (p : KeySlot) (extSize : ℤ) : Code × KeySlot :=
  if extSize < 0 then (.err, p)
  else (.ok, { p with val := { p.val with
    val := Mem.store (fun _ => 0) 0 (Mem.slice p.val.val 0 p.val.valLen.toNat)
    valSize := extSize } })

/-- `data_set_init`; the places of the values hold anything. -/
def dataSetInit (heap : ℕ → ℤ → UInt8) (keySize : ℕ) : DataSetObj :=
  { keyNum := 0, keySize := keySize
    pKeys := fun i => { key := [], val := { valSize := keyValSize, valLen := 0, val := heap i } } }

/-- `data_set_extent_cap` -/
def dataSetExtentCap (ds : DataSetObj) (extKeySize : ℤ) : Code × DataSetObj :=
  if extKeySize < 0 then (.err, ds)
  else (.ok, { ds with
    pKeys := fun i => if i < ds.keyNum then ds.pKeys i else zeroSlot
    keySize := extKeySize.toNat })

/-- `if (key_num >= key_size) data_set_extent_cap(p_ds, key_size*2);` -/
def DataSetObj.grow (ds : DataSetObj) : DataSetObj :=
  if ds.keySize ≤ ds.keyNum then (dataSetExtentCap ds (i32 (ds.keySize * 2))).2 else ds

/-- `p_key->val` after `snprintf`, growth when the text is longer, and `snprintf` again. -/
def KeySlot.printVal (p : KeySlot) (text : List UInt8) : KeySlot :=
  let p := { p with val := { p.val with val := snprintf p.val.val 0 p.val.valSize.toNat text } }
  let p :=
    if p.val.valSize < (text.length : ℤ) then
      (keyInfoExtentCap p (i32 ((text.length : ℤ) + (text.length : ℤ) / 2))).2
    else p
  { p with val := { p.val with
    val := snprintf p.val.val 0 p.val.valSize.toNat text, valLen := text.length } }

/-- The slot `key_num` is filled, and `key_num` counted up. -/
def DataSetObj.push (ds : DataSetObj) (p : KeySlot) : DataSetObj :=
  { ds with pKeys := Function.update ds.pKeys ds.keyNum p, keyNum := ds.keyNum + 1 }

/-- `data_set_add_int_var`; `text` is what the format gives, if there is one. There is no result
when the array has not grown and the slot is behind its end. -/
def dataSetAddIntVar (ds : DataSetObj) (varName : List UInt8) (text : Option (List UInt8)) :
    Option (Code × DataSetObj) :=
  let ds := ds.grow
  if varName = [] then some (.err, ds)
  else if maxKeyLen < varName.length then some (.err, ds)
  else if ds.keySize ≤ ds.keyNum then none
  else
    let p := { ds.pKeys ds.keyNum with key := varName }
    match text with
    | none => some (.ok, ds.push p)
    | some text => some (.ok, ds.push (p.printVal text))

/-- `data_set_add_str_var`. There is no result either when the value does not fit the place. -/
def dataSetAddStrVar (ds : DataSetObj) (varName val : List UInt8) : Option (Code × DataSetObj) :=
  let ds := ds.grow
  if varName = [] then some (.err, ds)
  else if maxKeyLen < varName.length then some (.err, ds)
  else if ds.keySize ≤ ds.keyNum then none
  else
    let p := { ds.pKeys ds.keyNum with key := varName }
    let p :=
      if p.val.valSize < (val.length : ℤ) then
        (keyInfoExtentCap p (i32 ((val.length : ℤ) + (val.length : ℤ) / 2))).2
      else p
    if p.val.valSize < (val.length : ℤ) then none
    else
      some (.ok, ds.push { p with val := { p.val with
        val := Mem.store p.val.val 0 val, valLen := val.length } })

/-- `data_set_get_val`: the slot whose value is found, if any. -/
def DataSetObj.getVal (ds : DataSetObj) (key : List UInt8) : Option ℕ :=
  (List.range ds.keyNum).find? fun i => strncasecmp key (ds.pKeys i).key

/-! ### Variables and what a lookup should find -/

/-- A call that adds a variable. -/
inductive AddVar
  | int (varName : List UInt8) (text : Option (List UInt8))
  | str (varName val : List UInt8)

namespace AddVar

def name : AddVar → List UInt8
  | .int varName _ => varName
  | .str varName _ => varName

/-- The value of the variable; without a format it has no bytes. -/
def value : AddVar → List UInt8
  | .int _ text => text.getD []
  | .str _ val => val

end AddVar

def dataSetAddVar (ds : DataSetObj) : AddVar → Option (Code × DataSetObj)
  | .int varName text => dataSetAddIntVar ds varName text
  | .str varName val => dataSetAddStrVar ds varName val

/-- The calls, when all of them return `F1G_OK`. -/
def addVars (ds : DataSetObj) : List AddVar → Option DataSetObj
  | [] => some ds
  | c :: cs =>
    match dataSetAddVar ds c with
    | some (.ok, ds) => addVars ds cs
    | _ => none

/-- The bytes of a value, when they are inside of its place. -/
def Value.bytes (v : Value) : Option (List UInt8) :=
  if v.valLen ≤ v.valSize then some (Mem.slice v.val 0 v.valLen.toNat) else none

/-- **The lookup is exact**: it finds the first variable of this name, the case ignored, with its
value; and nothing when there is none. -/
def FindsExact (ds : DataSetObj) (cs : List AddVar) (key : List UInt8) : Prop :=
  ds.getVal key = cs.findIdx? (fun c => strcasecmp key c.name) ∧
    ∀ (i : ℕ) (hi : i < cs.length), cs.findIdx? (fun c => strcasecmp key c.name) = some i →
      (ds.pKeys i).val.bytes = some cs[i].value

/-! ### The condition -/

/-- The place of the value of variable `i` before the call. -/
def placeSize (keySize i : ℕ) : ℤ := if i < keySize then keyValSize else 0

/-- The place that a text is printed to, in the end. -/
def printSize (size : ℤ) (len : ℕ) : ℤ :=
  if size < len ∧ 0 ≤ i32 ((len : ℤ) + (len : ℤ) / 2) then i32 ((len : ℤ) + (len : ℤ) / 2) else size

/-- The text is shorter than its place, or empty, or as long and ends with a zero of its own. -/
def TextFits (size : ℤ) (text : List UInt8) : Prop :=
  (text.length : ℤ) < size ∨ text = [] ∨ (text.length : ℤ) = size ∧ text.getLast? = some 0

/-- Variable `i` keeps all of its value. -/
def AddVar.KeptWhole (keySize i : ℕ) : AddVar → Prop
  | .int _ (some text) => TextFits (printSize (placeSize keySize i) text.length) text
  | _ => True

/-! ### The array after the calls -/

/-- Slot `i` holds the variable: its key, and its value exactly when it is kept whole. -/
def KeySlot.Holds (p : KeySlot) (keySize i : ℕ) (c : AddVar) : Prop :=
  p.key = c.name ∧ (p.val.bytes = some c.value ↔ c.KeptWhole keySize i)

/-- The array after these calls: a slot for each, and unused ones behind them. -/
structure DataSetObj.Rep (keySize : ℕ) (ds : DataSetObj) (cs : List AddVar) : Prop where
  keyNum : ds.keyNum = cs.length
  size_le : keySize ≤ ds.keySize
  size_lt : ds.keySize < 2 ^ 31
  slots : ∀ (i : ℕ) (hi : i < cs.length), (ds.pKeys i).Holds keySize i cs[i]
  unused : ∀ i, cs.length ≤ i → i < ds.keySize →
    (ds.pKeys i).val.valLen = 0 ∧ (ds.pKeys i).val.valSize = placeSize keySize i

variable {keySize : ℕ} {ds ds' : DataSetObj} {cs : List AddVar}

theorem dataSetInit_rep (heap : ℕ → ℤ → UInt8) (hsize : keySize < 2 ^ 31) :
    (dataSetInit heap keySize).Rep keySize [] where
  keyNum := rfl
  size_le := le_rfl
  size_lt := hsize
  slots _ hi := absurd hi (Nat.not_lt_zero _)
  unused _ _ hi := ⟨rfl, (if_pos hi).symm⟩

theorem i32_double {k : ℕ} (hk : k < 2 ^ 31) (h : 0 ≤ i32 (k * 2)) : i32 (k * 2) = k * 2 :=
  i32_of_nonneg (by omega) (by omega) h

/-- A longer array, whose new slots are filled with zeros. -/
theorem DataSetObj.Rep.extend (h : ds.Rep keySize cs) (hfull : ds.keySize ≤ ds.keyNum) {n : ℕ}
    (hle : ds.keySize ≤ n) (hlt : n < 2 ^ 31) :
    DataSetObj.Rep keySize
      { ds with pKeys := fun i => if i < ds.keyNum then ds.pKeys i else zeroSlot, keySize := n }
      cs where
  keyNum := h.keyNum
  size_le := h.size_le.trans hle
  size_lt := hlt
  slots i hi := by
    dsimp only
    rw [if_pos (h.keyNum ▸ hi)]
    exact h.slots i hi
  unused i hi _ := by
    have hnum := h.keyNum
    have hsize := h.size_le
    dsimp only
    rw [if_neg (by omega), placeSize, if_neg (by omega)]
    exact ⟨rfl, rfl⟩

theorem DataSetObj.Rep.grow (h : ds.Rep keySize cs) : ds.grow.Rep keySize cs := by
  unfold DataSetObj.grow dataSetExtentCap
  split_ifs with hfull hneg
  · exact h
  · have hdouble := i32_double h.size_lt (Int.not_lt.1 hneg)
    have hlt := i32_lt (ds.keySize * 2)
    exact h.extend hfull (by omega) (by omega)
  · exact h

/-- A slot that holds the next variable. -/
theorem DataSetObj.Rep.push {p : KeySlot} {c : AddVar} (h : ds.Rep keySize cs)
    (hp : p.Holds keySize cs.length c) : (ds.push p).Rep keySize (cs ++ [c]) := by
  have hnum := h.keyNum
  refine ⟨by simp [DataSetObj.push, hnum], h.size_le, h.size_lt, fun i hi => ?_, fun i hi hlt => ?_⟩
  · change KeySlot.Holds (Function.update ds.pKeys ds.keyNum p i) keySize i (cs ++ [c])[i]
    by_cases hlast : i = cs.length
    · subst hlast
      rw [hnum, Function.update_self, List.getElem_concat_length rfl]
      exact hp
    · have hi : i < cs.length := by
        rw [List.length_append, List.length_singleton] at hi
        omega
      rw [Function.update_of_ne (by omega), List.getElem_append_left hi]
      exact h.slots i hi
  · rw [List.length_append, List.length_singleton] at hi
    change (Function.update ds.pKeys ds.keyNum p i).val.valLen = 0 ∧
      (Function.update ds.pKeys ds.keyNum p i).val.valSize = placeSize keySize i
    rw [Function.update_of_ne (by omega)]
    exact h.unused i (by omega) hlt

/-! ### One call -/

theorem keyInfoExtentCap_valSize (p : KeySlot) (n : ℤ) :
    (keyInfoExtentCap p n).2.val.valSize = if 0 ≤ n then n else p.val.valSize := by
  unfold keyInfoExtentCap
  split_ifs <;> first | rfl | omega

@[simp] theorem keyInfoExtentCap_key (p : KeySlot) (n : ℤ) :
    (keyInfoExtentCap p n).2.key = p.key := by
  unfold keyInfoExtentCap
  split_ifs <;> rfl

/-- The slot that the text is printed to in the end, with its place. -/
theorem KeySlot.printVal_eq (p : KeySlot) (text : List UInt8) :
    ∃ q : KeySlot, p.printVal text = { q with val := { q.val with
        val := snprintf q.val.val 0 q.val.valSize.toNat text, valLen := text.length } } ∧
      q.key = p.key ∧ q.val.valSize = printSize p.val.valSize text.length := by
  refine ⟨_, rfl, ?_, ?_⟩
  · split_ifs
    · rw [keyInfoExtentCap_key]
    · rfl
  · rw [printSize]
    split_ifs with hlong hfit hfit
    · rw [keyInfoExtentCap_valSize, if_pos hfit.2]
    · rw [keyInfoExtentCap_valSize, if_neg (fun h => hfit ⟨hlong, h⟩)]
    · exact absurd hfit.1 hlong
    · rfl

/-- A text that is printed to its place is there when it fits. -/
theorem bytes_snprintf_iff {v : Value} (hsize : 0 ≤ v.valSize) (text : List UInt8) :
    ({ v with val := snprintf v.val 0 v.valSize.toNat text, valLen := text.length } :
      Value).bytes = some text ↔ TextFits v.valSize text := by
  obtain ⟨size, hnat⟩ := Int.eq_ofNat_of_zero_le hsize
  simp only [Value.bytes, hnat, Int.toNat_natCast, TextFits, Nat.cast_le, Nat.cast_lt,
    Nat.cast_inj]
  by_cases hle : text.length ≤ size
  · rw [if_pos hle, Option.some.injEq, slice_snprintf_iff hle]
    constructor
    · rintro (hlt | hnil | hlast)
      · exact .inl hlt
      · exact .inr (.inl hnil)
      · rcases Nat.lt_or_eq_of_le hle with hlt | heq
        · exact .inl hlt
        · exact .inr (.inr ⟨heq, hlast⟩)
    · rintro (hlt | hnil | ⟨-, hlast⟩)
      · exact .inl hlt
      · exact .inr (.inl hnil)
      · exact .inr (.inr hlast)
  · rw [if_neg hle]
    have hne : text ≠ [] := by
      rintro rfl
      exact hle (Nat.zero_le _)
    refine iff_of_false (by simp) ?_
    rintro (hlt | hnil | ⟨heq, -⟩)
    · omega
    · exact hne hnil
    · omega

/-- **What is printed**: the whole text, when it fits the place that it is printed to in the end. -/
theorem KeySlot.printVal_bytes_iff (p : KeySlot) (text : List UInt8) (hsize : 0 ≤ p.val.valSize) :
    (p.printVal text).key = p.key ∧ ((p.printVal text).val.bytes = some text ↔
      TextFits (printSize p.val.valSize text.length) text) := by
  obtain ⟨q, hq, hkey, hqsize⟩ := p.printVal_eq text
  have hpos : 0 ≤ q.val.valSize := by
    rw [hqsize, printSize]
    split_ifs with hfit
    · exact hfit.2
    · exact hsize
  rw [hq, ← hqsize]
  exact ⟨hkey, bytes_snprintf_iff hpos text⟩

theorem dataSetAddIntVar_rep {varName : List UInt8} {text : Option (List UInt8)}
    (h : ds.Rep keySize cs) (hadd : dataSetAddIntVar ds varName text = some (.ok, ds')) :
    ds'.Rep keySize (cs ++ [.int varName text]) := by
  have hrep := h.grow
  simp only [dataSetAddIntVar] at hadd
  generalize ds.grow = ds₁ at hrep hadd
  split at hadd
  · cases hadd
  split at hadd
  · cases hadd
  split at hadd
  · cases hadd
  rename_i hfull
  obtain ⟨hlen, hsize⟩ := hrep.unused ds₁.keyNum hrep.keyNum.ge (Nat.lt_of_not_le hfull)
  rw [hrep.keyNum] at hlen hsize
  have hplace : 0 ≤ (ds₁.pKeys cs.length).val.valSize := by
    rw [hsize, placeSize]
    split_ifs <;> decide
  cases text with
  | none =>
    cases hadd
    refine hrep.push ⟨rfl, iff_of_true ?_ trivial⟩
    rw [hrep.keyNum]
    simp only [Value.bytes, hlen, if_pos hplace]
    rfl
  | some text =>
    cases hadd
    obtain ⟨hkey, hbytes⟩ :=
      KeySlot.printVal_bytes_iff { ds₁.pKeys cs.length with key := varName } text hplace
    refine hrep.push ?_
    rw [hrep.keyNum]
    refine ⟨hkey, ?_⟩
    rw [hsize] at hbytes
    exact hbytes

theorem dataSetAddStrVar_rep {varName val : List UInt8} (h : ds.Rep keySize cs)
    (hadd : dataSetAddStrVar ds varName val = some (.ok, ds')) :
    ds'.Rep keySize (cs ++ [.str varName val]) := by
  have hrep := h.grow
  simp only [dataSetAddStrVar] at hadd
  generalize ds.grow = ds₁ at hrep hadd
  split at hadd
  · cases hadd
  split at hadd
  · cases hadd
  split at hadd
  · cases hadd
  obtain ⟨p, hp, hkey⟩ : ∃ p, (if (ds₁.pKeys ds₁.keyNum).val.valSize < (val.length : ℤ) then
      (keyInfoExtentCap { ds₁.pKeys ds₁.keyNum with key := varName }
        (i32 ((val.length : ℤ) + (val.length : ℤ) / 2))).2
      else { ds₁.pKeys ds₁.keyNum with key := varName }) = p ∧ p.key = varName := by
    refine ⟨_, rfl, ?_⟩
    split_ifs
    · rw [keyInfoExtentCap_key]
    · rfl
  rw [hp] at hadd
  split at hadd
  · cases hadd
  rename_i hfit
  cases hadd
  refine hrep.push ⟨hkey, iff_of_true ?_ trivial⟩
  simp only [Value.bytes, if_pos (Int.not_lt.1 hfit), Int.toNat_natCast, Mem.slice_store_self]
  rfl

theorem addVars_rep {calls : List AddVar} (h : ds.Rep keySize cs)
    (hadd : addVars ds calls = some ds') : ds'.Rep keySize (cs ++ calls) := by
  induction calls generalizing ds cs with
  | nil =>
    cases hadd
    rwa [List.append_nil]
  | cons c calls ih =>
    rw [addVars] at hadd
    split at hadd
    · rename_i ds₁ hstep
      have hrep : ds₁.Rep keySize (cs ++ [c]) := by
        cases c with
        | int varName text => exact dataSetAddIntVar_rep h hstep
        | str varName val => exact dataSetAddStrVar_rep h hstep
      have hrest := ih hrep hadd
      rwa [List.append_assoc] at hrest
    · cases hadd

/-! ### Lookup -/

theorem strncasecmp_of_strcasecmp {a b : List UInt8} (h : strcasecmp a b = true) :
    strncasecmp a b = true := by
  rw [strcasecmp_iff] at h
  rw [strncasecmp, h, List.isPrefixOf_iff_prefix]

/-- The lookup goes through the variables in their order. -/
theorem DataSetObj.Rep.getVal (h : ds.Rep keySize cs) (key : List UInt8) :
    ds.getVal key = cs.findIdx? fun c => strncasecmp key c.name := by
  apply Option.ext
  intro i
  rw [DataSetObj.getVal, h.keyNum, List.find?_range_eq_some, List.findIdx?_eq_some_iff_getElem,
    List.mem_range]
  constructor
  · rintro ⟨hi, hlt, hbefore⟩
    rw [(h.slots i hlt).1] at hi
    refine ⟨hlt, hi, fun j hj => ?_⟩
    have hne := hbefore j hj
    rw [(h.slots j (hj.trans hlt)).1] at hne
    simpa using hne
  · rintro ⟨hlt, hi, hbefore⟩
    refine ⟨by rw [(h.slots i hlt).1]; exact hi, hlt, fun j hj => ?_⟩
    rw [(h.slots j (hj.trans hlt)).1]
    simpa using hbefore j hj

/-- The first variable whose name begins with the key has no longer name, and keeps all of its
value. -/
def LookupOk (keySize : ℕ) (cs : List AddVar) (key : List UInt8) : Prop :=
  ∀ (i : ℕ) (hi : i < cs.length), cs.findIdx? (fun c => strncasecmp key c.name) = some i →
    strcasecmp key cs[i].name ∧ cs[i].KeptWhole keySize i

theorem DataSetObj.Rep.found_iff (h : ds.Rep keySize cs) (key : List UInt8) :
    FindsExact ds cs key ↔ LookupOk keySize cs key := by
  constructor
  · rintro ⟨hfind, hval⟩ i hi hfirst
    rw [h.getVal key, hfirst] at hfind
    obtain ⟨_, hname, _⟩ := List.findIdx?_eq_some_iff_getElem.1 hfind.symm
    exact ⟨hname, ((h.slots i hi).2).1 (hval i hi hfind.symm)⟩
  · intro hok
    have hsame : cs.findIdx? (fun c => strncasecmp key c.name) =
        cs.findIdx? (fun c => strcasecmp key c.name) := by
      cases hfirst : cs.findIdx? fun c => strncasecmp key c.name with
      | none =>
        rw [List.findIdx?_eq_none_iff] at hfirst
        refine (List.findIdx?_eq_none_iff.2 fun c hc => ?_).symm
        exact Bool.eq_false_iff.2 fun hname =>
          absurd (strncasecmp_of_strcasecmp hname) (Bool.eq_false_iff.1 (hfirst c hc))
      | some i =>
        obtain ⟨hi, -, hbefore⟩ := List.findIdx?_eq_some_iff_getElem.1 hfirst
        refine (List.findIdx?_eq_some_iff_getElem.2 ⟨hi, (hok i hi hfirst).1, fun j hj => ?_⟩).symm
        exact fun hname => hbefore j hj (strncasecmp_of_strcasecmp hname)
    refine ⟨(h.getVal key).trans hsame, fun i hi hfirst => ?_⟩
    rw [← hsame] at hfirst
    exact ((h.slots i hi).2).2 (hok i hi hfirst).2

/-- **When a lookup is exact**: after any calls that return `F1G_OK`, a key is looked up exactly if
and only if the first variable whose name begins with it has this name, and its text was not cut
when it was printed. -/
theorem findsExact_iff {heap : ℕ → ℤ → UInt8} (hsize : keySize < 2 ^ 31) {calls : List AddVar}
    (hadd : addVars (dataSetInit heap keySize) calls = some ds) (key : List UInt8) :
    FindsExact ds calls key ↔ LookupOk keySize calls key :=
  (addVars_rep (dataSetInit_rep heap hsize) hadd).found_iff key

/-- `IP` and then `IP_TYPE`, in an array of one key. -/
theorem findsExact_ip :
    ∃ ds, addVars (dataSetInit (fun _ _ => 0) 1)
        [.str (ascii "IP") (ascii "1"), .int (ascii "IP_TYPE") (some (ascii "42"))] = some ds ∧
      (FindsExact ds [.str (ascii "IP") (ascii "1"), .int (ascii "IP_TYPE") (some (ascii "42"))]
          (ascii "ip_type") ↔
        LookupOk 1 [.str (ascii "IP") (ascii "1"), .int (ascii "IP_TYPE") (some (ascii "42"))]
          (ascii "ip_type")) := by
  obtain ⟨ds, hds⟩ := Option.isSome_iff_exists.1
    (show (addVars (dataSetInit (fun _ _ => 0) 1)
      [.str (ascii "IP") (ascii "1"), .int (ascii "IP_TYPE") (some (ascii "42"))]).isSome by decide)
  exact ⟨ds, hds, findsExact_iff (by decide) hds _⟩

/-- **`IP_TYPE` and then `IP`**: the key `IP` is found in `IP_TYPE`. -/
theorem not_findsExact_ip_type :
    ∃ ds, addVars (dataSetInit (fun _ _ => 0) 2)
        [.str (ascii "IP_TYPE") (ascii "4"), .str (ascii "IP") (ascii "1")] = some ds ∧
      ds.getVal (ascii "IP") = some 0 ∧
        ¬ FindsExact ds [.str (ascii "IP_TYPE") (ascii "4"), .str (ascii "IP") (ascii "1")]
          (ascii "IP") := by
  obtain ⟨ds, hds⟩ := Option.isSome_iff_exists.1
    (show (addVars (dataSetInit (fun _ _ => 0) 2)
      [.str (ascii "IP_TYPE") (ascii "4"), .str (ascii "IP") (ascii "1")]).isSome by decide)
  have hfound : ds.getVal (ascii "IP") = some 0 :=
    ((addVars_rep (dataSetInit_rep _ (by decide)) hds).getVal _).trans (by decide)
  refine ⟨ds, hds, hfound, fun h => ?_⟩
  have hsecond := hfound.symm.trans h.1
  exact absurd hsecond (by decide)

/-! ### The data set of a template -/

/-- What a template sees: the keys and the bytes of the values. -/
def DataSetObj.toDataSet (ds : DataSetObj) : DataSet :=
  (List.range ds.keyNum).map fun i =>
    ⟨(ds.pKeys i).key, Mem.slice (ds.pKeys i).val.val 0 (ds.pKeys i).val.valLen.toNat⟩

/-- The lookup of a template is the lookup in the array. -/
theorem dataSetGetVal_toDataSet (ds : DataSetObj) (key : List UInt8) :
    dataSetGetVal ds.toDataSet key = (ds.getVal key).map fun i =>
      Mem.slice (ds.pKeys i).val.val 0 (ds.pKeys i).val.valLen.toNat := by
  rw [dataSetGetVal, DataSetObj.toDataSet, List.find?_map, Option.map_map]
  rfl

end F1Goal
