import F1Goal.Buffer
import F1Goal.Lib.CString
import F1Goal.Lib.Lts

/-!
# Rule sets (`f1g_regset.c`)

A rule set is an array of rules, each a text and a value in buffers of their own, and grows by ten
rules when it is full. Its recorded size starts with 0, whatever has been allocated. A text matches
an input that it occurs in: `regset_first_match` says that the first rule added wins. The lengths of
the texts are kept in an `i32_t`, and so is the number of the rules; `not_regsetMatches` shows what
follows for a text of 2^32 bytes, and for too many rules. `malloc` fails for a negative size only.
-/

namespace F1Goal

open CString

/-! ### Buffers -/

/-- `malloc(size)` for an `i32_t`; `block` is what is in the memory. -/
def mallocI32 (size : ℤ) (block : ℤ → UInt8) : Malloc := if size < 0 then none else some block

/-- `buffer_append` with the length as an argument of its own. -/
def bufferAppendLen (b : Buffer) (data : List UInt8) (dataLen : ℤ) : Code × Buffer :=
  let len := if dataLen ≤ bufferCap b then dataLen else bufferCap b
  (.ok, (b.memcpy b.len data len).terminate (b.len + len))

/-- With the length of the data it is `buffer_append`. -/
theorem bufferAppendLen_length (b : Buffer) (data : List UInt8) :
    bufferAppendLen b data data.length = bufferAppend b (some data) := rfl

/-- The string at `buffer_data`. -/
def bufferString (b : Buffer) : List UInt8 := cstr (Mem.slice b.buf 0 b.size.toNat)

/-! ### Rules -/

/-- `reg_rule_t`; the function `p_f` is given by its address. -/
structure RegRule where
  rule : Buffer
  regValue : Buffer
  outBuf : Option Buffer
  pF : ℕ

/-- `regset_t`. `p_rules` is a block with room for `room` rules, some of which have been filled in;
`fault` says that a byte has been written outside of it, or of a buffer. -/
structure Regset where
  ruleNum : ℤ
  ruleSize : ℤ
  room : ℤ
  pRules : ℕ → Option RegRule
  fault : Bool

/-- `regset_create`, with `regset_init` -/
def regsetCreate (ruleSize : ℤ) : Regset :=
  { ruleNum := 0, ruleSize := 0, room := if ruleSize ≤ 0 then 10 else ruleSize
    pRules := fun _ => none, fault := false }

/-- `regset_enlarge_cap` -/
def regsetEnlargeCap (rs : Regset) (size : ℤ) : Code × Regset :=
  if size < rs.ruleSize then (.err, rs)
  else
    let size := if size ≤ 0 then 10 else size
    (.ok, { rs with
      pRules := fun i => if i < rs.ruleNum then rs.pRules i else none
      room := size
      ruleSize := size })

/-- The arguments of `regset_addreg`, and the contents of the blocks that `malloc` returns for the
buffers. -/
structure RegCall where
  regRule : List UInt8
  value : List UInt8
  pRegf : ℕ
  blocks : Fin 3 → ℤ → UInt8

/-- The text of the rule. -/
def RegCall.text (c : RegCall) : List UInt8 := cstr c.regRule

/-- The value of the rule. -/
def RegCall.result (c : RegCall) : List UInt8 := cstr c.value

/-- `buffer_init(p_buf, len + 64)` and `buffer_append(p_buf, s, len)`, with `len = strlen(s)`. -/
def bufferOfString (s : List UInt8) (block : ℤ → UInt8) : Option Buffer :=
  let len := i32 s.length
  let size := i32 (len + 64)
  (bufferInit size (mallocI32 size block)).map fun b => (bufferAppendLen b s len).2

/-- The rule set in front of the place that is filled in: it has been enlarged if it was full. -/
def Regset.grown (rs : Regset) : Regset :=
  if rs.ruleSize ≤ rs.ruleNum then (regsetEnlargeCap rs (i32 (rs.ruleSize + 10))).2 else rs

/-- Fill in the place behind the last rule. -/
def Regset.fill (rs : Regset) (r : RegRule) : Regset :=
  { rs with
    pRules := Function.update rs.pRules rs.ruleNum.toNat (some r)
    ruleNum := i32 (rs.ruleNum + 1)
    fault := rs.fault || decide (rs.room ≤ rs.ruleNum) || r.rule.oob || r.regValue.oob }

/-- The rule of the call, when there is memory for its buffers. -/
def RegCall.toRule (c : RegCall) : Option RegRule :=
  (bufferOfString c.text (c.blocks 0)).bind fun rule =>
    (bufferOfString c.result (c.blocks 1)).map fun value =>
      { rule := rule, regValue := value, outBuf := bufferInit 0 (some (c.blocks 2)), pF := c.pRegf }

/-- The end of `regset_addreg`, with the rule, or without memory for its buffers. -/
def Regset.addRule (rs : Regset) : Option RegRule → Code × Regset
  | some r => (.ok, rs.fill r)
  | none => (.err, { rs with fault := rs.fault || decide (rs.room ≤ rs.ruleNum) })

/-- `regset_addreg` -/
def regsetAddreg (rs : Regset) (c : RegCall) : Code × Regset := rs.grown.addRule c.toRule

/-- The loop of `regset_match` over the `todo` rules from `i` on; `none` when it reads a rule that
has not been filled in. -/
def regsetMatchLoop (pRules : ℕ → Option RegRule) (inData : List UInt8) (i : ℕ) :
    ℕ → Option (Code × Option (List UInt8))
  | 0 => some (.err, none)
  | todo + 1 =>
    match pRules i with
    | none => none
    | some cur =>
      if firstAt (bufferString cur.rule) inData ≠ none then
        some (.ok, some (bufferString cur.regValue))
      else regsetMatchLoop pRules inData (i + 1) todo

/-- `regset_match`: what it returns, and the string at `out_data`. -/
def regsetMatch (rs : Regset) (inData : List UInt8) : Option (Code × Option (List UInt8)) :=
  regsetMatchLoop rs.pRules (cstr inData) 0 rs.ruleNum.toNat

/-- What is returned with `F1G_OK`. -/
def onOk {α : Type*} : Code × α → Option α
  | (.ok, a) => some a
  | (.err, _) => none

/-- One more rule; the run ends when it is refused. -/
def regStep (rs : Regset) (c : RegCall) : Option Regset := onOk (regsetAddreg rs c)

/-! ### What a rule set is for -/

/-- The answer for an input: the value of the first rule whose text occurs in it. -/
def firstMatch (rules : List RegCall) (inData : List UInt8) : Code × Option (List UInt8) :=
  match rules.find? fun c => c.text <:+: cstr inData with
  | some c => (.ok, some c.result)
  | none => (.err, none)

/-- **All rules are added, and inputs are matched by the first of them**, without a write outside of
a block. -/
def RegsetMatches (ruleSize : ℤ) (calls : List RegCall) : Prop :=
  ∃ rs, Lts.run regStep (regsetCreate ruleSize) calls = some rs ∧ rs.fault = false ∧
    ∀ inData, regsetMatch rs inData = some (firstMatch calls inData)

/-! ### The buffers of a rule -/

theorem zero_notMem_cstr (bs : List UInt8) : 0 ∉ cstr bs := fun h => by
  simpa using List.mem_takeWhile_imp h

/-- **What the buffer for a string holds**: as much of it as the `i32_t` says. -/
theorem bufferOfString_eq {s : List UInt8} (hs : 0 ∉ s) (h0 : 0 ≤ i32 s.length)
    (hroom : i32 s.length + 64 < 2 ^ 31) (block : ℤ → UInt8) :
    ∃ b, bufferOfString s block = some b ∧ b.oob = false ∧
      bufferString b = s.take (i32 s.length).toNat := by
  have hle := i32_le (Int.natCast_nonneg s.length)
  obtain ⟨n, hn⟩ := Int.eq_ofNat_of_zero_le h0
  rw [hn] at hroom hle
  have htake : (s.take n).length = n := List.length_take_of_le (by omega)
  have hsize : i32 ((n : ℤ) + 64) = n + 64 := i32_of_range (by omega) (by omega)
  simp only [bufferOfString, hn, hsize, mallocI32, if_neg (show ¬ (n : ℤ) + 64 < 0 by omega),
    bufferInit, Option.map_some]
  refine ⟨_, rfl, ?_, ?_⟩
  · simp only [bufferAppendLen, bufferCap, sub_zero, if_pos (show (n : ℤ) ≤ n + 64 by omega),
      Buffer.terminate, Buffer.memcpy, if_neg (show ¬ (n : ℤ) < 0 by omega), zero_add,
      Buffer.write_oob, Int.toNat_natCast, htake]
    refine ⟨⟨trivial, fun _ => ⟨le_rfl, by omega⟩⟩, fun _ => ⟨by omega, ?_⟩⟩
    simp only [Buffer.write_size, List.length_singleton]
    omega
  · -- the bytes copied, and the zero behind them
    have hmem : (bufferAppendLen
        { flag := .allo, size := (n : ℤ) + 64, len := 0, buf := block, oob := false } s n).2.buf =
          Mem.store (Mem.store block 0 (s.take n)) n [0] := by
      simp only [bufferAppendLen, bufferCap, sub_zero, if_pos (show (n : ℤ) ≤ n + 64 by omega),
        Buffer.terminate, Buffer.memcpy, if_neg (show ¬ (n : ℤ) < 0 by omega), zero_add,
        Buffer.write, Int.toNat_natCast]
    have hsz : (bufferAppendLen
        { flag := .allo, size := (n : ℤ) + 64, len := 0, buf := block, oob := false } s n).2.size =
          (n : ℤ) + 64 := by
      simp only [bufferAppendLen, Buffer.terminate_size, Buffer.memcpy]
      split_ifs <;> rfl
    have hcopy : Mem.slice (Mem.store block 0 (s.take n)) 0 n = s.take n := by
      have hself := Mem.slice_store_self block 0 (s.take n)
      rwa [htake] at hself
    rw [bufferString, hmem, hsz, show ((n : ℤ) + 64).toNat = n + (63 + 1) by omega, Mem.slice_add,
      zero_add, Mem.slice_succ, Mem.slice_store_of_disjoint (.inl (by omega)), hcopy,
      cstr_append fun hzero => hs (List.mem_of_mem_take hzero)]
    have hzero : Mem.store (Mem.store block 0 (s.take n)) n [0] (n : ℤ) = 0 := by
      simp [Mem.store]
    rw [hzero]
    simp [cstr]

/-- A string that leaves 64 bytes of an `i32_t` is copied as a whole. -/
theorem bufferOfString_short {s : List UInt8} (hs : 0 ∉ s) (hlen : s.length < 2 ^ 31 - 64)
    (block : ℤ → UInt8) :
    ∃ b, bufferOfString s block = some b ∧ b.oob = false ∧ bufferString b = s := by
  have hi : i32 s.length = s.length := i32_of_range (by omega) (by omega)
  obtain ⟨b, hb, hoob, hstring⟩ :=
    bufferOfString_eq hs (by omega) (by omega) block
  refine ⟨b, hb, hoob, ?_⟩
  rw [hstring, hi, Int.toNat_natCast, List.take_length]

/-! ### Adding rules -/

/-- The rule holds the text and the value of the call. -/
def RegRule.Holds (r : RegRule) (c : RegCall) : Prop :=
  bufferString r.rule = c.text ∧ bufferString r.regValue = c.result

/-- **The rule set is the list of the rules added.** -/
structure RegOk (rs : Regset) (calls : List RegCall) : Prop where
  fault : rs.fault = false
  num : rs.ruleNum = calls.length
  le : rs.ruleNum ≤ rs.ruleSize
  room : rs.ruleSize = 0 ∨ rs.room = rs.ruleSize
  tens : 10 ∣ rs.ruleSize
  lt : rs.ruleSize < 2 ^ 31
  rules : ∀ i (h : i < calls.length), ∃ r, rs.pRules i = some r ∧ r.Holds calls[i]

/-- The texts of the call leave 64 bytes of an `i32_t`. -/
def RegCall.Short (c : RegCall) : Prop :=
  c.text.length < 2 ^ 31 - 64 ∧ c.result.length < 2 ^ 31 - 64

instance (c : RegCall) : Decidable c.Short := inferInstanceAs (Decidable (_ ∧ _))

/-- The most rules that a rule set can hold: the largest number of tens that is an `i32_t`. -/
def maxRules : ℕ := 2147483640

/-- **A rule set that is full grows by ten rules**, and keeps those it has. -/
theorem RegOk.grown {rs : Regset} {calls : List RegCall} (h : RegOk rs calls)
    (hmax : calls.length < maxRules) :
    RegOk rs.grown calls ∧ rs.grown.ruleNum < rs.grown.ruleSize := by
  obtain ⟨hfault, hnum, hle, hroom, htens, hsmall, hrules⟩ := h
  rw [maxRules] at hmax
  rw [Regset.grown]
  split_ifs with hfull
  · have hsize : i32 (rs.ruleSize + 10) = rs.ruleSize + 10 := i32_of_range (by omega) (by omega)
    rw [regsetEnlargeCap, hsize, if_neg (by omega)]
    simp only [if_neg (show ¬ rs.ruleSize + 10 ≤ 0 by omega)]
    refine ⟨⟨hfault, hnum, by simp only []; omega, .inr rfl, by simp only []; omega,
      by simp only []; omega, fun i hi => ?_⟩, by omega⟩
    obtain ⟨r, hr, hholds⟩ := hrules i hi
    exact ⟨r, (if_pos (by omega)).trans hr, hholds⟩
  · exact ⟨⟨hfault, hnum, hle, hroom, htens, hsmall, hrules⟩, by omega⟩

/-- A rule is filled in behind those there are. -/
theorem RegOk.fill {rs : Regset} {calls : List RegCall} {c : RegCall} {r : RegRule}
    (h : RegOk rs calls) (hmax : calls.length < maxRules) (hlt : rs.ruleNum < rs.ruleSize)
    (hrule : r.rule.oob = false) (hvalue : r.regValue.oob = false) (hholds : r.Holds c) :
    RegOk (rs.fill r) (calls ++ [c]) := by
  obtain ⟨hfault, hnum, hle, hroom, htens, hsmall, hrules⟩ := h
  rw [maxRules] at hmax
  have hnext : i32 (rs.ruleNum + 1) = rs.ruleNum + 1 := i32_of_range (by omega) (by omega)
  have hplace : rs.ruleNum.toNat = calls.length := by omega
  refine ⟨?_, ?_, ?_, hroom, htens, hsmall, fun i hi => ?_⟩
  · simp only [Regset.fill, hfault, hrule, hvalue, Bool.or_false, Bool.false_or]
    exact decide_eq_false (by omega)
  · simp only [Regset.fill, hnext, List.length_append, List.length_singleton]
    omega
  · simp only [Regset.fill, hnext]
    omega
  · rw [List.length_append, List.length_singleton] at hi
    simp only [Regset.fill, hplace]
    by_cases hlast : i = calls.length
    · subst hlast
      rw [Function.update_self, List.getElem_concat_length rfl]
      exact ⟨_, rfl, hholds⟩
    · rw [Function.update_of_ne hlast, List.getElem_append_left (by omega)]
      exact hrules i (by omega)

/-- The rule of a call when there is memory for both buffers. -/
theorem RegCall.toRule_eq {c : RegCall} {rule value : Buffer}
    (hrule : bufferOfString c.text (c.blocks 0) = some rule)
    (hvalue : bufferOfString c.result (c.blocks 1) = some value) :
    ∃ r, c.toRule = some r ∧ r.rule = rule ∧ r.regValue = value := by
  rw [toRule, hrule, hvalue]
  exact ⟨_, rfl, rfl, rfl⟩

theorem regStep_eq {rs : Regset} {c : RegCall} {r : RegRule} (h : c.toRule = some r) :
    regStep rs c = some (rs.grown.fill r) := by
  rw [regStep, regsetAddreg, h]
  rfl

/-- **A call adds its rule** behind those there are. -/
theorem RegOk.step {rs : Regset} {calls : List RegCall} {c : RegCall} (h : RegOk rs calls)
    (hmax : calls.length < maxRules) (hshort : c.Short) :
    ∃ rs', regStep rs c = some rs' ∧ RegOk rs' (calls ++ [c]) := by
  have htextZero : 0 ∉ c.text := zero_notMem_cstr _
  have hresultZero : 0 ∉ c.result := zero_notMem_cstr _
  obtain ⟨rule, hrule, hruleOob, htext⟩ := bufferOfString_short htextZero hshort.1 (c.blocks 0)
  obtain ⟨value, hvalue, hvalueOob, hresult⟩ :=
    bufferOfString_short hresultZero hshort.2 (c.blocks 1)
  obtain ⟨r, hr, rfl, rfl⟩ := RegCall.toRule_eq hrule hvalue
  obtain ⟨hgrown, hlt⟩ := h.grown hmax
  exact ⟨_, regStep_eq hr, hgrown.fill hmax hlt hruleOob hvalueOob ⟨htext, hresult⟩⟩

/-- A rule set that has been created, and rules added to it. -/
theorem regset_run {calls : List RegCall} {rs : Regset} {done : List RegCall} (h : RegOk rs done)
    (hmax : done.length + calls.length ≤ maxRules) (hshort : ∀ c ∈ calls, c.Short) :
    ∃ rs', Lts.run regStep rs calls = some rs' ∧ RegOk rs' (done ++ calls) := by
  induction calls generalizing rs done with
  | nil => exact ⟨rs, rfl, by rwa [List.append_nil]⟩
  | cons c calls ih =>
    rw [List.length_cons] at hmax
    obtain ⟨next, hstep, hnext⟩ := h.step (by omega) (hshort c List.mem_cons_self)
    obtain ⟨rs', hrun, hok⟩ := ih hnext
      (by rw [List.length_append, List.length_singleton]; omega)
      fun c' hc' => hshort c' (List.mem_cons_of_mem _ hc')
    refine ⟨rs', by rw [Lts.run_cons, hstep]; exact hrun, ?_⟩
    rwa [List.append_assoc, List.singleton_append] at hok

theorem regsetCreate_ok (ruleSize : ℤ) : RegOk (regsetCreate ruleSize) [] :=
  ⟨rfl, rfl, le_rfl, .inl rfl, dvd_zero _, (show (0 : ℤ) < 2 ^ 31 by norm_num),
    fun _ hi => absurd hi (Nat.not_lt_zero _)⟩

/-! ### Matching -/

/-- The loop gives the answer of the rules from `i` on. -/
theorem regsetMatchLoop_eq {pRules : ℕ → Option RegRule} {calls : List RegCall}
    (inData : List UInt8) {i : ℕ}
    (h : ∀ j (hj : j < calls.length), ∃ r, pRules (i + j) = some r ∧ r.Holds calls[j]) :
    regsetMatchLoop pRules (cstr inData) i calls.length = some (firstMatch calls inData) := by
  induction calls generalizing i with
  | nil => rfl
  | cons c calls ih =>
    obtain ⟨r, hr, htext, hresult⟩ := h 0 (Nat.zero_lt_succ _)
    rw [add_zero] at hr
    have hrest := @ih (i + 1) fun j hj => by
      have hnext := h (j + 1) (Nat.succ_lt_succ hj)
      rwa [← add_assoc, add_right_comm] at hnext
    simp only [List.length_cons, regsetMatchLoop, hr, htext, hresult, List.getElem_cons_zero,
      firstMatch, List.find?_cons]
    by_cases hocc : c.text <:+: cstr inData
    · obtain ⟨k, hk⟩ := exists_firstAt hocc
      rw [if_pos (by rw [hk]; exact Option.some_ne_none k), decide_eq_true hocc]
    · rw [if_neg (by rw [firstAt_eq_none hocc]; exact fun hne => hne rfl), decide_eq_false hocc,
        hrest, firstMatch]

theorem RegOk.matches {rs : Regset} {calls : List RegCall} (h : RegOk rs calls)
    (inData : List UInt8) : regsetMatch rs inData = some (firstMatch calls inData) := by
  rw [regsetMatch, h.num, Int.toNat_natCast]
  refine regsetMatchLoop_eq inData fun j hj => ?_
  rw [zero_add]
  exact h.rules j hj

/-- **The first rule added wins**: for a rule set of any size, rules whose texts and values leave 64
bytes of an `i32_t`, no more of them than an `i32_t` counts in tens, and every input. -/
theorem regset_first_match (ruleSize : ℤ) {calls : List RegCall} (hmax : calls.length ≤ maxRules)
    (hshort : ∀ c ∈ calls, c.Short) : RegsetMatches ruleSize calls := by
  obtain ⟨rs, hrun, hok⟩ := regset_run (regsetCreate_ok ruleSize)
    (by rwa [List.length_nil, Nat.zero_add]) hshort
  exact ⟨rs, hrun, hok.fault, hok.matches⟩

/-- A rule `a` with the value `v`. -/
def shortCall : RegCall := { regRule := [97], value := [118], pRegf := 0, blocks := fun _ _ => 0 }

/-- Two rules, of which the second one is longer. -/
theorem regset_first_match_two :
    RegsetMatches 1 [shortCall, { shortCall with regRule := [97, 98] }] :=
  regset_first_match 1 (by decide) (by decide)

/-! ### Longer texts, and more rules -/

/-- A text whose length is 0 as an `i32_t` matches an input that it does not occur in. -/
theorem not_regsetMatches_of_zero {c : RegCall} (hlen : i32 c.text.length = 0)
    (htwo : 1 < c.text.length) (hresult : c.result.length < 2 ^ 31 - 64) :
    ¬ RegsetMatches 0 [c] := by
  have htextZero : 0 ∉ c.text := zero_notMem_cstr _
  have hresultZero : 0 ∉ c.result := zero_notMem_cstr _
  obtain ⟨rule, hrule, -, htext⟩ :=
    bufferOfString_eq htextZero hlen.ge (by rw [hlen]; decide) (c.blocks 0)
  obtain ⟨value, hvalue, -, -⟩ := bufferOfString_short hresultZero hresult (c.blocks 1)
  obtain ⟨r, hr, rfl, rfl⟩ := RegCall.toRule_eq hrule hvalue
  rw [hlen, Int.toNat_zero, List.take_zero] at htext
  rintro ⟨rs, hrun, -, hmatch⟩
  rw [Lts.run_cons, regStep_eq hr] at hrun
  obtain rfl := Option.some.inj hrun
  have hloop : regsetMatchLoop (Function.update (fun _ => none) 0 (some r)) (cstr [98]) 0 1 =
      some (.ok, some (bufferString r.regValue)) := by
    rw [regsetMatchLoop, Function.update_self]
    simp only [htext]
    rfl
  have hnone : firstMatch [c] [98] = (.err, none) := by
    have hinfix : ¬ c.text <:+: cstr [98] := fun hocc => by
      have hle : c.text.length ≤ 1 := hocc.length_le
      omega
    rw [firstMatch, List.find?_cons, decide_eq_false hinfix]
    rfl
  have hanswer := hmatch [98]
  rw [hnone] at hanswer
  have hboth := hloop.symm.trans hanswer
  cases hboth

/-- A rule set of `maxRules` rules does not grow: the size with ten more overflows, and the next
rule is written behind the block. -/
theorem RegOk.full {rs : Regset} {calls : List RegCall} {c : RegCall} (h : RegOk rs calls)
    (hfull : calls.length = maxRules) (hshort : c.Short) :
    ∃ rs', regStep rs c = some rs' ∧ rs'.fault = true := by
  have htextZero : 0 ∉ c.text := zero_notMem_cstr _
  have hresultZero : 0 ∉ c.result := zero_notMem_cstr _
  obtain ⟨rule, hrule, -, -⟩ := bufferOfString_short htextZero hshort.1 (c.blocks 0)
  obtain ⟨value, hvalue, -, -⟩ := bufferOfString_short hresultZero hshort.2 (c.blocks 1)
  obtain ⟨r, hr, rfl, rfl⟩ := RegCall.toRule_eq hrule hvalue
  obtain ⟨-, hnum, hle, hroom, htens, hsmall, -⟩ := h
  rw [hfull, maxRules] at hnum
  have hsize : rs.ruleSize = 2147483640 := by omega
  have hgrown : rs.grown = rs := by
    have hover : i32 (2147483640 + 10) = -2147483646 := by decide
    rw [Regset.grown, if_pos (by omega), regsetEnlargeCap, hsize, hover, if_pos (by norm_num)]
  refine ⟨_, regStep_eq hr, ?_⟩
  rw [hgrown, Regset.fill]
  simp only [Bool.or_eq_true, decide_eq_true_eq]
  exact .inl (.inl (.inr (by omega)))

/-- As many rules as there is room for, all of them alike. -/
theorem regset_replicate {c : RegCall} (h : c.Short) :
    ∃ rs, Lts.run regStep (regsetCreate 0) (List.replicate maxRules c) = some rs ∧
      RegOk rs (List.replicate maxRules c) := by
  refine regset_run (regsetCreate_ok 0) ?_ fun d hd => ?_
  · rw [List.length_replicate, List.length_nil, Nat.zero_add]
  · rw [List.eq_of_mem_replicate hd]
    exact h

/-- A rule of 2^32 times the letter `a`, with the value `v`. -/
def longCall : RegCall := { shortCall with regRule := List.replicate (2 ^ 32) 97 }

/-- **Longer texts, and more rules**: a rule of 2^32 letters has the length 0 as an `i32_t`, and
matches every input; and behind `maxRules` rules the next one is written outside of the block. -/
theorem not_regsetMatches :
    (longCall.text.length = 2 ^ 32 ∧ ¬ RegsetMatches 0 [longCall]) ∧
      ¬ RegsetMatches 0 (List.replicate (maxRules + 1) shortCall) := by
  have hlong : longCall.text.length = 2 ^ 32 := by
    have htext : longCall.text = List.replicate (2 ^ 32) 97 := by
      rw [RegCall.text, longCall, cstr, List.takeWhile_eq_self_iff]
      intro b hb
      rw [List.eq_of_mem_replicate hb]
      rfl
    rw [htext, List.length_replicate]
  refine ⟨⟨hlong, not_regsetMatches_of_zero (by rw [hlong]; rfl) (by rw [hlong]; norm_num) ?_⟩, ?_⟩
  · exact (show shortCall.result.length < 2 ^ 31 - 64 by decide)
  have hshort : shortCall.Short := by decide
  obtain ⟨p, hp, hok⟩ := regset_replicate hshort
  obtain ⟨next, hstep, hnext⟩ := hok.full List.length_replicate hshort
  rintro ⟨rs, hrun, hfault, -⟩
  rw [List.replicate_succ', Lts.run_append, hp, Option.bind_some, Lts.run_cons, hstep] at hrun
  obtain rfl := Option.some.inj hrun
  rw [hnext] at hfault
  cases hfault

end F1Goal
