import F1Goal.CharsetTables

/-!
# Accesses of the converters

The arrays hold 0xFFFF entries, so 0xFFFF is the one code that is no index of them. And the UTF-8
writer asks for one byte more than it writes, so that the terminating zero has a place, except for a
code of one byte: an output that fills `d2_arr` and ends with such a code leaves no place for the
zero. Everything else stays inside (`charset_safe_iff`).
-/

namespace F1Goal

open Transcode

/-! ### Reading -/

theorem getCode16_ne_oob (b : UInt8) (s : List UInt8) : getCode16 (b :: s) ≠ .error .oob := by
  cases s with
  | nil => exact fun h => (by cases h)
  | cons b1 s => exact fun h => (by cases h)

theorem getUtf8_ne_oob (b : UInt8) (s : List UInt8) : getUtf8 (b :: s) ≠ .error .oob := by
  rw [getUtf8_cons]
  split_ifs
  · exact fun h => (by cases h)
  · split <;> exact fun h => (by cases h)
  · split <;> exact fun h => (by cases h)
  · exact fun h => (by cases h)

/-- A loop that is asked for a code only when a byte is left does not read past its input. -/
theorem codes_ne_oob {r : Reader UInt8 UInt16 ConvStop}
    (h : ∀ b s, r.get (b :: s) ≠ .error .oob) (x : List UInt8) : (r.codes x).2 ≠ some .oob := by
  induction hn : x.length using Nat.strong_induction_on generalizing x with
  | _ n ih =>
    cases x with
    | nil => rw [Reader.codes_nil]; exact fun h => (by cases h)
    | cons b s =>
      cases hg : r.get (b :: s) with
      | error e =>
        rw [Reader.codes_of_error hg]
        rintro ⟨⟩
        exact h b s hg
      | ok p =>
        rw [Reader.codes_of_ok hg]
        exact ih _ (hn ▸ r.progress hg) p.2 rfl

/-! ### Writing -/

/-- A writer that puts the bytes `raw c` when one byte more has room, or when they have room
themselves and `c` is `short`. -/
structure PutsWithin (put : ℕ → ℕ → UInt16 → Except ConvStop (List UInt8))
    (raw : UInt16 → List UInt8) (short : UInt16 → Prop) : Prop where
  of_fits : ∀ {size num c}, (num + (raw c).length < size ∨ short c ∧ num < size) →
    put size num c = .ok (raw c)
  of_not_fits : ∀ {size num c}, ¬(num + (raw c).length < size ∨ short c ∧ num < size) →
    put size num c = .error .obuf
  raw_pos : ∀ c, 0 < (raw c).length
  short_one : ∀ {c}, short c → (raw c).length = 1

theorem putsWithin_putCode16 : PutsWithin putCode16 code16 fun _ => False where
  of_fits h := by
    rcases h with h | ⟨⟨⟩, -⟩
    rw [putCode16_eq]
    exact if_neg (not_le.2 h)
  of_not_fits h := by
    rw [putCode16_eq]
    exact if_pos (not_lt.1 fun hlt => h (.inl hlt))
  raw_pos _ := by simp
  short_one h := h.elim

theorem putsWithin_putUtf8 : PutsWithin putUtf8 Utf8.encode fun c => c.toNat < 0x80 where
  of_fits h := by rw [putUtf8_eq]; exact if_pos h
  of_not_fits h := by rw [putUtf8_eq]; exact if_neg h
  raw_pos c := by
    unfold Utf8.encode
    split_ifs <;> simp
  short_one h := by rw [Utf8.encode, if_pos h]; rfl

/-- The output of `ds` fills `size` bytes, and its last code is `short`. -/
def FillsUp (raw : UInt16 → List UInt8) (short : UInt16 → Prop) (size : ℕ) (ds : List UInt16) :
    Prop :=
  (ds.flatMap raw).length = size ∧ ∃ c ∈ ds.getLast?, short c

/-- The output of `ds` is put: it leaves a byte of `size` bytes free, or it fills them up. -/
def IsPut (raw : UInt16 → List UInt8) (short : UInt16 → Prop) (size : ℕ) (ds : List UInt16) :
    Prop :=
  (ds.flatMap raw).length < size ∨ FillsUp raw short size ds

theorem looksUp_append_singleton_iff {look : UInt16 → Except ConvStop UInt16} {cs ds : List UInt16}
    {c : UInt16} :
    LooksUp look (cs ++ [c]) ds ↔ ∃ es d, LooksUp look cs es ∧ look c = .ok d ∧ ds = es ++ [d] := by
  unfold LooksUp
  simp only [List.mapM_append, List.mapM_cons, List.mapM_nil, Option.bind_eq_bind,
    Option.bind_eq_some_iff, Option.pure_def, toOption_eq_some, Option.some_inj]
  constructor
  · rintro ⟨es, hes, _, ⟨d, hd, _, rfl, rfl⟩, rfl⟩
    exact ⟨es, d, hes, hd, rfl⟩
  · rintro ⟨es, d, hes, hd, rfl⟩
    exact ⟨es, hes, _, ⟨d, hd, _, rfl, rfl⟩, rfl⟩

section Feed

variable {put : ℕ → ℕ → UInt16 → Except ConvStop (List UInt8)} {raw : UInt16 → List UInt8}
  {short : UInt16 → Prop} {look : UInt16 → Except ConvStop UInt16} {size : ℕ}

/-- One more code is put behind `ds`. -/
theorem isPut_append_singleton_iff (hw : PutsWithin put raw short) (ds : List UInt16) (d : UInt16) :
    IsPut raw short size (ds ++ [d]) ↔
      (ds.flatMap raw).length + (raw d).length < size ∨ short d ∧ (ds.flatMap raw).length < size := by
  have hlen : ((ds ++ [d]).flatMap raw).length = (ds.flatMap raw).length + (raw d).length := by
    simp
  unfold IsPut FillsUp
  rw [hlen, List.getLast?_concat]
  constructor
  · rintro (h | ⟨h, _, ⟨⟩, hshort⟩)
    · exact .inl h
    · have hone := hw.short_one hshort
      exact .inr ⟨hshort, by omega⟩
  · rintro (h | ⟨hshort, h⟩)
    · exact .inl h
    · have hone := hw.short_one hshort
      rcases Nat.lt_or_ge ((ds.flatMap raw).length + (raw d).length) size with hlt | hge
      · exact .inl hlt
      · exact .inr ⟨by omega, d, rfl, hshort⟩

theorem IsPut.of_append_singleton (hw : PutsWithin put raw short) {ds : List UInt16} {d : UInt16}
    (h : IsPut raw short size (ds ++ [d])) : IsPut raw short size ds := by
  have hpos := hw.raw_pos d
  rcases (isPut_append_singleton_iff hw ds d).1 h with h | ⟨-, h⟩
  · exact .inl (by omega)
  · exact .inl h

/-- What the loop has done when it has gone over the codes `cs`. -/
theorem feed_eq_ok_iff (hw : PutsWithin put raw short) (hsize : 0 < size) {cs : List UInt16}
    {o : List UInt8} :
    feed (fun num c => look c >>= put size num) cs [] = .ok o ↔
      ∃ ds, LooksUp look cs ds ∧ IsPut raw short size ds ∧ o = ds.flatMap raw := by
  induction cs using List.reverseRecOn generalizing o with
  | nil =>
    constructor
    · rintro ⟨⟩
      exact ⟨[], rfl, .inl hsize, rfl⟩
    · rintro ⟨_, ⟨⟩, -, rfl⟩
      rfl
  | append_singleton cs c ih =>
    simp only [feed_append, bind_eq_ok, feed_singleton_eq_ok, ih, looksUp_append_singleton_iff]
    constructor
    · rintro ⟨_, ⟨ds, hds, hput, rfl⟩, _, ⟨d, hd, hbs⟩, rfl⟩
      -- the last code has been put, so it has fitted
      by_cases hfits : (ds.flatMap raw).length + (raw d).length < size ∨
          short d ∧ (ds.flatMap raw).length < size
      · rw [hw.of_fits hfits] at hbs
        cases hbs
        exact ⟨ds ++ [d], ⟨ds, d, hds, hd, rfl⟩, (isPut_append_singleton_iff hw ds d).2 hfits,
          by simp⟩
      · rw [hw.of_not_fits hfits] at hbs
        cases hbs
    · rintro ⟨_, ⟨ds, d, hds, hd, rfl⟩, hput, rfl⟩
      refine ⟨_, ⟨ds, hds, hput.of_append_singleton hw, rfl⟩, raw d, ⟨d, hd, ?_⟩, by simp⟩
      exact hw.of_fits ((isPut_append_singleton_iff hw ds d).1 hput)

end Feed

/-! ### Conversions that leave an array -/

section Convert

variable {r : Reader UInt8 UInt16 ConvStop} {look : UInt16 → Except ConvStop UInt16}
  {put : ℕ → ℕ → UInt16 → Except ConvStop (List UInt8)} {raw : UInt16 → List UInt8}
  {short : UInt16 → Prop} {size : ℕ} {x : List UInt8}

/-- The loop gets to a code that `bad` holds of: the codes in front of it are looked up and put. -/
def Reaches (bad : UInt16 → Prop) (r : Reader UInt8 UInt16 ConvStop)
    (look : UInt16 → Except ConvStop UInt16) (raw : UInt16 → List UInt8) (short : UInt16 → Prop)
    (x : List UInt8) (size : ℕ) : Prop :=
  ∃ before c after ds, (r.codes x).1 = before ++ c :: after ∧ bad c ∧ LooksUp look before ds ∧
    IsPut raw short size ds

/-- The whole input is looked up and put, and leaves no place for the terminating zero. -/
def LeavesNoPlace (r : Reader UInt8 UInt16 ConvStop) (look : UInt16 → Except ConvStop UInt16)
    (raw : UInt16 → List UInt8) (short : UInt16 → Prop) (x : List UInt8) (size : ℕ) : Prop :=
  ∃ cs ds, r.codes x = (cs, none) ∧ LooksUp look cs ds ∧ FillsUp raw short size ds

theorem storeAt_eq_oob_iff {num : ℕ} {b : UInt8} : storeAt size num b = .error .oob ↔ size ≤ num := by
  unfold storeAt
  split_ifs with h
  · exact ⟨fun h => (by cases h), fun hle => absurd h (not_lt.2 hle)⟩
  · exact ⟨fun _ => not_lt.1 h, fun _ => rfl⟩

/-- A writer stays inside, so that only the code itself is looked up outside. -/
theorem emit_eq_oob_iff {bad : UInt16 → Prop} (hlook : ∀ c, look c = .error .oob ↔ bad c)
    (hw : PutsWithin put raw short) (n : ℕ) (c : UInt16) :
    (look c >>= put size n) = .error .oob ↔ bad c := by
  rw [bind_eq_error, hlook]
  refine ⟨fun h => h.elim id ?_, .inl⟩
  rintro ⟨d, -, hput⟩
  by_cases hfits : n + (raw d).length < size ∨ short d ∧ n < size
  · rw [hw.of_fits hfits] at hput
    cases hput
  · rw [hw.of_not_fits hfits] at hput
    cases hput

/-- How the loop leaves an array. -/
theorem loop_eq_oob_iff {bad : UInt16 → Prop} (hget : ∀ b s, r.get (b :: s) ≠ .error .oob)
    (hlook : ∀ c, look c = .error .oob ↔ bad c) (hw : PutsWithin put raw short) (hsize : 0 < size) :
    loop r (fun num c => look c >>= put size num) x [] = .error .oob ↔
      Reaches bad r look raw short x size := by
  rw [loop_eq_feed]
  change (feed _ _ _ >>= _) = _ ↔ _
  rw [bind_eq_error, feed_eq_error_iff]
  constructor
  · rintro (⟨before, c, after, o, hcs, hbefore, hc⟩ | ⟨o, -, hend⟩)
    · obtain ⟨ds, hds, hput, -⟩ := (feed_eq_ok_iff hw hsize).1 hbefore
      exact ⟨before, c, after, ds, hcs, (emit_eq_oob_iff hlook hw _ _).1 hc, hds, hput⟩
    · -- the input is never read past its end
      have hne := codes_ne_oob hget x
      cases hsome : (r.codes x).2 with
      | none => rw [hsome] at hend; cases hend
      | some e =>
        rw [hsome] at hend hne
        cases hend
        exact absurd rfl hne
  · rintro ⟨before, c, after, ds, hcs, hc, hds, hput⟩
    exact .inl ⟨before, c, after, _, hcs, (feed_eq_ok_iff hw hsize).2 ⟨ds, hds, hput, rfl⟩,
      (emit_eq_oob_iff hlook hw _ _).2 hc⟩

/-- **How a conversion leaves an array**, `bad` being the codes that are looked up outside of it. -/
theorem convert_eq_oob_iff {bad : UInt16 → Prop} (hget : ∀ b s, r.get (b :: s) ≠ .error .oob)
    (hlook : ∀ c, look c = .error .oob ↔ bad c) (hw : PutsWithin put raw short) (hsize : 0 < size) :
    convert r look put x size = .error .oob ↔
      Reaches bad r look raw short x size ∨ LeavesNoPlace r look raw short x size := by
  unfold convert
  rw [bind_eq_error, loop_eq_oob_iff hget hlook hw hsize]
  refine or_congr_right ?_
  constructor
  · rintro ⟨out, hok, h⟩
    obtain ⟨hend, hfeed⟩ := loop_eq_ok_iff.1 hok
    obtain ⟨ds, hds, hput, rfl⟩ := (feed_eq_ok_iff hw hsize).1 hfeed
    rcases bind_eq_error.1 h with h | ⟨_, -, h⟩
    · -- the terminating zero is what leaves the array
      refine ⟨_, ds, Prod.ext rfl hend, hds, ?_⟩
      exact hput.resolve_left (not_lt.2 (storeAt_eq_oob_iff.1 h))
    · cases h
  · rintro ⟨cs, ds, hcodes, hds, hfill⟩
    refine ⟨ds.flatMap raw, loop_eq_ok_iff.2 ?_, bind_eq_error.2 (.inl ?_)⟩
    · rw [hcodes]
      exact ⟨rfl, (feed_eq_ok_iff hw hsize).2 ⟨ds, hds, .inr hfill, rfl⟩⟩
    · exact storeAt_eq_oob_iff.2 hfill.1.ge

end Convert

/-! ### The arrays and the calls -/

theorem lookup_eq_oob_iff (a : CodeArray) (c : UInt16) :
    a.lookup c = .error .oob ↔ c = 0xFFFF := by
  unfold CodeArray.lookup CodeArray.read
  by_cases h : c.toNat < maxCodeSize
  · have hne := toNat_lt_maxCodeSize.1 h
    rw [dif_pos h]
    refine ⟨fun heq => ?_, fun heq => absurd heq hne⟩
    rcases bind_eq_error.1 heq with heq | ⟨v, hv, heq⟩
    · cases heq
    · split_ifs at heq <;> cases heq
  · rw [dif_neg h]
    exact ⟨fun _ => not_not.1 (mt toNat_lt_maxCodeSize.2 h), fun _ => rfl⟩

/-- `charset_map_init` stays in its arrays exactly when both sides of every entry are codes. -/
theorem oob_charsetMapLoop_iff (table : List CodeMap) (hend : ∃ e ∈ table, e.IsEnd)
    (m : CharsetMaps) :
    (charsetMapLoop table m).oob = false ↔ m.oob = false ∧ ∀ e ∈ entries table, e.Proper := by
  induction table generalizing m with
  | nil =>
    obtain ⟨e, he, -⟩ := hend
    cases he
  | cons e table ih =>
    by_cases he : e.IsEnd
    · rw [charsetMapLoop_of_isEnd he, entries_cons_of_isEnd he]
      simp
    · have hrest : ∃ e ∈ table, e.IsEnd := by
        obtain ⟨d, hd, hdend⟩ := hend
        rcases List.mem_cons.1 hd with rfl | hd
        · exact absurd hdend he
        · exact ⟨d, hd, hdend⟩
      have hpair : (m.pair e).oob = false ↔ m.oob = false ∧ e.Proper := by
        simp only [CharsetMaps.pair, Bool.or_eq_false_iff, Bool.not_eq_false', decide_eq_true_eq,
          toNat_lt_maxCodeSize, CodeMap.Proper]
        tauto
      rw [charsetMapLoop_of_not_isEnd he, entries_cons_of_not_isEnd he, ih hrest, hpair,
        List.forall_mem_cons, and_assoc]

/-- The condition on the input of a conversion under which it stays in its arrays. The UTF-8 writers
must leave a place for the terminating zero, the conversions through a table must not get to the
code 0xFFFF. -/
def StaysInside (m : CharsetMaps) (t : ConvType) (x : List UInt8) (size : ℕ) : Prop :=
  match t with
  | .gbkUtf8 =>
    ¬Reaches (· = 0xFFFF) code16Reader m.gbkUcs2.lookup Utf8.encode (·.toNat < 0x80) x size ∧
      ¬LeavesNoPlace code16Reader m.gbkUcs2.lookup Utf8.encode (·.toNat < 0x80) x size
  | .ucs2Utf8 => ¬LeavesNoPlace code16Reader .ok Utf8.encode (·.toNat < 0x80) x size
  | .utf8Gbk => ¬Reaches (· = 0xFFFF) utf8Reader m.ucs2Gbk.lookup code16 (fun _ => False) x size
  | .gbkUcs2 => ¬Reaches (· = 0xFFFF) code16Reader m.gbkUcs2.lookup code16 (fun _ => False) x size
  | .ucs2Gbk => ¬Reaches (· = 0xFFFF) code16Reader m.ucs2Gbk.lookup code16 (fun _ => False) x size
  | .utf8Ucs2 => True
  | .other => True

theorem ConvCall.of_res (size : ℕ) (res : Except ConvStop (List UInt8)) :
    (ConvCall.of size res).res = res := by
  cases res <;> rfl

/-- The 16-bit writer always leaves a place for the terminating zero. -/
theorem not_leavesNoPlace_code16 {r : Reader UInt8 UInt16 ConvStop}
    {look : UInt16 → Except ConvStop UInt16} {raw : UInt16 → List UInt8} {x : List UInt8} {size : ℕ} :
    ¬LeavesNoPlace r look raw (fun _ => False) x size := by
  rintro ⟨cs, ds, -, -, -, c, -, hshort⟩
  exact hshort

theorem not_reaches_false {r : Reader UInt8 UInt16 ConvStop}
    {look : UInt16 → Except ConvStop UInt16} {raw : UInt16 → List UInt8} {short : UInt16 → Prop}
    {x : List UInt8} {size : ℕ} : ¬Reaches (fun _ => False) r look raw short x size := by
  rintro ⟨before, c, after, ds, -, hbad, -⟩
  exact hbad

theorem ok_eq_oob_iff (c : UInt16) :
    (Except.ok c : Except ConvStop UInt16) = .error .oob ↔ False :=
  ⟨fun h => (by cases h), False.elim⟩

/-- **Where charset conversion stays inside of its arrays**: both sides of each entry of the table
are codes, and the input meets the condition of its conversion. -/
theorem charset_safe_iff (table : List CodeMap) (hend : ∃ e ∈ table, e.IsEnd) (t : ConvType)
    (x : List UInt8) (size : ℕ) (hsize : 1 ≤ size) :
    ((charsetMapInit table).oob = false ∧ (lcConv table x size t).res ≠ .error .oob) ↔
      (∀ e ∈ entries table, e.Proper) ∧ StaysInside (charsetMapInit table) t x size := by
  have hinit : (charsetMapInit table).oob = false ↔ ∀ e ∈ entries table, e.Proper := by
    rw [charsetMapInit, oob_charsetMapLoop_iff table hend]
    exact and_iff_right rfl
  rw [hinit]
  apply and_congr_right'
  cases t with
  | gbkUtf8 =>
    simp only [lcConv, ConvCall.of_res, StaysInside, ← not_or]
    exact not_congr (convert_eq_oob_iff getCode16_ne_oob (lookup_eq_oob_iff _) putsWithin_putUtf8
      hsize)
  | ucs2Utf8 =>
    simp only [lcConv, ConvCall.of_res, StaysInside]
    refine not_congr ((convert_eq_oob_iff getCode16_ne_oob ok_eq_oob_iff putsWithin_putUtf8
      hsize).trans ?_)
    exact or_iff_right not_reaches_false
  | utf8Gbk =>
    simp only [lcConv, ConvCall.of_res, StaysInside]
    refine not_congr ((convert_eq_oob_iff getUtf8_ne_oob (lookup_eq_oob_iff _)
      putsWithin_putCode16 hsize).trans ?_)
    exact or_iff_left not_leavesNoPlace_code16
  | gbkUcs2 | ucs2Gbk =>
    simp only [lcConv, ConvCall.of_res, StaysInside]
    refine not_congr ((convert_eq_oob_iff getCode16_ne_oob (lookup_eq_oob_iff _)
      putsWithin_putCode16 hsize).trans ?_)
    exact or_iff_left not_leavesNoPlace_code16
  | utf8Ucs2 =>
    simp only [lcConv, ConvCall.of_res, StaysInside, iff_true]
    intro h
    rcases (convert_eq_oob_iff getUtf8_ne_oob ok_eq_oob_iff putsWithin_putCode16 hsize).1 h with
      h | h
    · exact not_reaches_false h
    · exact not_leavesNoPlace_code16 h
  | other =>
    simp only [lcConv, StaysInside, iff_true]
    exact fun h => (by cases h)

/-- A table of one pair and an input of one pair. -/
theorem charset_safe_ah :
    (∃ e ∈ ([⟨0xB0A1, 0x554A⟩, ⟨0xFFFF, 0xFFFF⟩] : List CodeMap), e.IsEnd) ∧ 1 ≤ 8 ∧
      (((charsetMapInit [⟨0xB0A1, 0x554A⟩, ⟨0xFFFF, 0xFFFF⟩]).oob = false ∧
        (lcConv [⟨0xB0A1, 0x554A⟩, ⟨0xFFFF, 0xFFFF⟩] [0xB0, 0xA1] 8 .gbkUcs2).res ≠ .error .oob) ↔
      (∀ e ∈ entries [⟨0xB0A1, 0x554A⟩, ⟨0xFFFF, 0xFFFF⟩], e.Proper) ∧
        StaysInside (charsetMapInit [⟨0xB0A1, 0x554A⟩, ⟨0xFFFF, 0xFFFF⟩]) .gbkUcs2 [0xB0, 0xA1] 8) :=
  ⟨by decide, by decide, charset_safe_iff _ (by decide) _ _ 8 (by decide)⟩

/-- The letter `A` fills an array of one byte, and the terminating zero goes behind it. -/
theorem letter_leaves_no_place :
    ¬∀ table t x size, (∃ e ∈ table, e.IsEnd) → 1 ≤ size →
      (charsetMapInit table).oob = false ∧ (lcConv table x size t).res ≠ .error .oob := by
  intro h
  have hsafe := (h [⟨0xFFFF, 0xFFFF⟩] .ucs2Utf8 [0x00, 0x41] 1 (by decide) (by decide)).2
  exact absurd hsafe (by decide +kernel)

end F1Goal
