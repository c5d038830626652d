import F1Goal.CharsetTables
import F1Goal.EscDecode

/-!
# Where a character of a GBK text ends

The escape decoder puts out characters of one byte, below 0x80, and of two bytes. The converters
take two bytes for every character. The stages agree on a text exactly when it holds characters of
two bytes only, and, for the way back, when each of them is looked up to a code whose own GBK code
has two bytes.
-/

namespace F1Goal

open Transcode

/-- The characters of a GBK text: a byte below 0x80 is one, a byte from 0x80 on starts one of two
bytes. -/
def gbkChars : List UInt8 → List GbkChar
  | [] => []
  | [b0] => [.single b0]
  | b0 :: b1 :: s =>
    if b0 < 0x80 then .single b0 :: gbkChars (b1 :: s) else .double b0 b1 :: gbkChars s

/-- The bytes of a character. -/
def GbkChar.bytes : GbkChar → List UInt8
  | .single b => [b]
  | .double b0 b1 => [b0, b1]

/-- The number of bytes of a character. -/
def GbkChar.width (c : GbkChar) : ℕ := c.bytes.length

/-- A character of one byte below 0x80, or of two bytes of which the first is not. -/
def GbkChar.Plain : GbkChar → Prop
  | .single b => b < 0x80
  | .double b0 _ => ¬b0 < 0x80

/-- The UCS-2 code of a character: an ASCII byte is its own code, a pair is looked up. -/
def GbkChar.ucs2 (m : CharsetMaps) : GbkChar → Option UInt16
  | .single b => some b.toUInt16
  | .double b0 b1 => (m.gbkUcs2.lookup (b0.toUInt16 <<< 8 ||| b1.toUInt16)).toOption

/-! ### Characters and bytes -/

theorem gbkChars_flatMap_bytes {cs : List GbkChar} (h : ∀ c ∈ cs, c.Plain) :
    gbkChars (cs.flatMap GbkChar.bytes) = cs := by
  induction cs with
  | nil => rfl
  | cons c cs ih =>
    have hc := h c List.mem_cons_self
    have hrest := ih fun d hd => h d (List.mem_cons_of_mem _ hd)
    cases c with
    | single b =>
      rw [List.flatMap_cons]
      cases hcs : cs.flatMap GbkChar.bytes with
      | nil =>
        rw [hcs] at hrest
        rw [← hrest]
        rfl
      | cons b1 s =>
        rw [hcs] at hrest
        have hb : b < 0x80 := hc
        change gbkChars (b :: b1 :: s) = _
        rw [gbkChars, if_pos hb, hrest]
    | double b0 b1 =>
      have hb : ¬b0 < 0x80 := hc
      rw [List.flatMap_cons]
      change gbkChars (b0 :: b1 :: cs.flatMap GbkChar.bytes) = _
      rw [gbkChars, if_neg hb, hrest]

theorem flatMap_bytes_gbkChars (g : List UInt8) : (gbkChars g).flatMap GbkChar.bytes = g := by
  induction g using gbkChars.induct with
  | case1 => rfl
  | case2 b0 => rfl
  | case3 b0 b1 s h ih => rw [gbkChars, if_pos h, List.flatMap_cons, ih]; rfl
  | case4 b0 b1 s h ih => rw [gbkChars, if_neg h, List.flatMap_cons, ih]; rfl

theorem width_le_two (c : GbkChar) : c.width ≤ 2 := by
  cases c <;> simp [GbkChar.width, GbkChar.bytes]

/-- A text is twice as long as it has characters only when all of them have two bytes. -/
theorem width_eq_two_of_length {cs : List GbkChar}
    (h : (cs.flatMap GbkChar.bytes).length = 2 * cs.length) : ∀ c ∈ cs, c.width = 2 := by
  have hle : ∀ ds : List GbkChar, (ds.flatMap GbkChar.bytes).length ≤ 2 * ds.length := by
    intro ds
    induction ds with
    | nil => exact le_rfl
    | cons d ds ih =>
      have hd : d.bytes.length ≤ 2 := width_le_two d
      rw [List.flatMap_cons, List.length_append, List.length_cons]
      omega
  induction cs with
  | nil => simp
  | cons c cs ih =>
    have hc : c.bytes.length ≤ 2 := width_le_two c
    have hcs := hle cs
    rw [List.flatMap_cons, List.length_append, List.length_cons] at h
    rw [List.forall_mem_cons]
    exact ⟨by change c.bytes.length = 2; omega, ih (by omega)⟩

/-- The escape decoder takes plain characters off its input. -/
theorem plain_of_getEscGbk {s rest : List UInt8} {c : GbkChar} (h : getEscGbk s = .ok (c, rest)) :
    c.Plain := by
  obtain ⟨b, -, h⟩ := bind_eq_ok.1 h
  split_ifs at h with h1 h2 h3
  · cases h
  · obtain ⟨byte0, -, h⟩ := bind_eq_ok.1 h
    split_ifs at h with h4
    · obtain ⟨-, byte1, rfl, -⟩ := getEscPair_eq_ok h
      exact (and_80_iff byte0).1 h4
    · cases h
      exact not_not.1 (mt (and_80_iff byte0).2 h4)
  · cases h
    exact UInt8.not_le.1 h1

theorem plain_of_codes {s : List UInt8} {cs : List GbkChar}
    (h : escGbkReader.codes s = (cs, none)) : ∀ c ∈ cs, c.Plain := by
  induction cs generalizing s with
  | nil => simp
  | cons c cs ih =>
    obtain ⟨rest, hget, hrest⟩ := Reader.get_of_codes h
    exact List.forall_mem_cons.2 ⟨plain_of_getEscGbk hget, ih hrest⟩

theorem eq_of_storeAt {size num : ℕ} {b b' : UInt8} (h : storeAt size num b = .ok b') : b' = b := by
  unfold storeAt at h
  split_ifs at h
  cases h
  rfl

theorem bytes_of_putGbkChar {size num : ℕ} {c : GbkChar} {bs : List UInt8}
    (h : putGbkChar size num c = .ok bs) : some c.bytes = some bs := by
  cases c with
  | single b =>
    simp only [putGbkChar] at h
    split_ifs at h
    · cases h
    · obtain ⟨b', hb, h⟩ := bind_eq_ok.1 h
      cases h
      rw [eq_of_storeAt hb]
      rfl
  | double b0 b1 =>
    simp only [putGbkChar] at h
    split_ifs at h
    · cases h
    · obtain ⟨b0', hb0, h⟩ := bind_eq_ok.1 h
      obtain ⟨b1', hb1, h⟩ := bind_eq_ok.1 h
      cases h
      rw [eq_of_storeAt hb0, eq_of_storeAt hb1]
      rfl

/-- **The decoder's characters are those of its output.** -/
theorem gbkChars_of_decode {str g : List UInt8} {size : ℕ}
    (h : strEscDecode str .gbk size = .ok ⟨g.length, g⟩) :
    escGbkReader.codes str = (gbkChars g, none) := by
  have hg : gbkStrToUint str size = .ok g := by
    cases hres : gbkStrToUint str size with
    | error e => rw [strEscDecode, hres] at h; cases h
    | ok out =>
      rw [strEscDecode, hres] at h
      rw [(Decoded.mk.inj (Except.ok.inj h)).2]
  obtain ⟨out, hloop, hg⟩ := bind_eq_ok.1 hg
  obtain ⟨-, -, hg⟩ := bind_eq_ok.1 hg
  cases hg
  obtain ⟨hend, hfeed⟩ := loop_eq_ok_iff.1 hloop
  obtain ⟨more, hmore, rfl⟩ := encodeAll_of_feed (fun _ _ _ h => bytes_of_putGbkChar h) hfeed
  rw [encodeAll_total] at hmore
  cases hmore
  have hcodes : escGbkReader.codes str = ((escGbkReader.codes str).1, none) := Prod.ext rfl hend
  rw [gbkChars_flatMap_bytes (plain_of_codes hcodes)]
  exact hcodes

/-! ### The converters on a GBK text -/

/-- The GBK stages see the characters of `g`: with `us` their codes, the two conversions from GBK
put out `us`, and the conversion of the UTF-8 form of `us` back to GBK puts out characters of the
same widths. -/
def StagesAgree (table : List CodeMap) (g : List UInt8) (size1 size2 size3 : ℕ) : Prop :=
  ∃ us, (gbkChars g).mapM (GbkChar.ucs2 (charsetMapInit table)) = some us ∧
    Converts table .gbkUcs2 size1 g (us.flatMap code16) ∧
    Converts table .gbkUtf8 size2 g (us.flatMap Utf8.encode) ∧
    ∃ back, Converts table .utf8Gbk size3 (us.flatMap Utf8.encode) back ∧
      (gbkChars back).map GbkChar.width = (gbkChars g).map GbkChar.width

/-- A character of two bytes whose code has a GBK code of two bytes. -/
def GbkChar.Stays (m : CharsetMaps) : GbkChar → Prop
  | .single _ => False
  | .double b0 b1 => ∀ u, m.gbkUcs2.lookup (b0.toUInt16 <<< 8 ||| b1.toUInt16) = .ok u →
      ∃ v, m.ucs2Gbk.lookup u = .ok v ∧ 0x8000 ≤ v

/-- The double-byte characters among `cs` are in the arrays. -/
def AllMapped (m : CharsetMaps) (cs : List GbkChar) : Prop :=
  ∀ b0 b1, GbkChar.double b0 b1 ∈ cs →
    ∃ u, m.gbkUcs2.lookup (b0.toUInt16 <<< 8 ||| b1.toUInt16) = .ok u

/-- The characters of a text of 16-bit codes all have two bytes exactly when the high byte of each
code is at least 0x80. -/
theorem width_flatMap_code16_iff (vs : List UInt16) :
    (gbkChars (vs.flatMap code16)).map GbkChar.width = List.replicate vs.length 2 ↔
      ∀ v ∈ vs, 0x8000 ≤ v := by
  induction vs with
  | nil => simp [gbkChars]
  | cons v vs ih =>
    have hv := v.toNat_lt
    have hhigh : UInt8.ofNat (v.toNat / 256) < 0x80 ↔ ¬(0x8000 : UInt16) ≤ v := by
      rw [UInt8.lt_iff_toNat_lt, UInt16.le_iff_toNat_le, UInt8.toNat_ofNat']
      change v.toNat / 256 % 256 < 128 ↔ ¬32768 ≤ v.toNat
      omega
    rw [List.flatMap_cons, List.forall_mem_cons, ← ih, List.length_cons, List.replicate_succ]
    change (gbkChars (_ :: _ :: vs.flatMap code16)).map GbkChar.width = _ ↔ _
    rw [gbkChars]
    by_cases h : (0x8000 : UInt16) ≤ v
    · rw [if_neg (fun hlt => hhigh.1 hlt h), List.map_cons, List.cons.injEq]
      exact ⟨fun hw => ⟨h, hw.2⟩, fun hw => ⟨rfl, hw.2⟩⟩
    · rw [if_pos (hhigh.2 h), List.map_cons, List.cons.injEq]
      constructor
      · rintro ⟨hw, -⟩
        cases hw
      · rintro ⟨hw, -⟩
        exact absurd hw h

theorem mapM_cons_eq_some {m : CharsetMaps} {c : GbkChar} {cs : List GbkChar} {us : List UInt16} :
    (c :: cs).mapM (GbkChar.ucs2 m) = some us ↔
      ∃ u us', c.ucs2 m = some u ∧ cs.mapM (GbkChar.ucs2 m) = some us' ∧ us = u :: us' := by
  simp only [List.mapM_cons, Option.bind_eq_bind, Option.bind_eq_some_iff, Option.pure_def,
    Option.some_inj]
  constructor
  · rintro ⟨u, hu, us', hus, rfl⟩
    exact ⟨u, us', hu, hus, rfl⟩
  · rintro ⟨u, us', hu, hus, rfl⟩
    exact ⟨u, hu, us', hus, rfl⟩

theorem length_of_mapM {m : CharsetMaps} {cs : List GbkChar} {us : List UInt16}
    (h : cs.mapM (GbkChar.ucs2 m) = some us) : us.length = cs.length := by
  induction cs generalizing us with
  | nil => cases h; rfl
  | cons c cs ih =>
    obtain ⟨u, us', -, hus', rfl⟩ := mapM_cons_eq_some.1 h
    rw [List.length_cons, List.length_cons, ih hus']

/-- Characters of two bytes whose codes have GBK codes of two bytes. -/
theorem stays_of_lookups {m : CharsetMaps} {cs : List GbkChar} {us vs : List UInt16}
    (hus : cs.mapM (GbkChar.ucs2 m) = some us) (hvs : LooksUp m.ucs2Gbk.lookup us vs)
    (hhigh : ∀ v ∈ vs, 0x8000 ≤ v) (hwidth : ∀ c ∈ cs, c.width = 2) : ∀ c ∈ cs, c.Stays m := by
  rw [looksUp_iff] at hvs
  induction cs generalizing us vs with
  | nil => simp
  | cons c cs ih =>
    obtain ⟨u, us', hu, hus', rfl⟩ := mapM_cons_eq_some.1 hus
    cases hvs with
    | @cons _ v _ vs hv hvs =>
      rw [List.forall_mem_cons] at hwidth hhigh ⊢
      refine ⟨?_, ih hus' hvs hhigh.2 hwidth.2⟩
      cases c with
      | single b => cases hwidth.1
      | double b0 b1 =>
        intro u' hu'
        rw [toOption_eq_some.1 hu] at hu'
        cases hu'
        exact ⟨v, hv, hhigh.1⟩

/-- Such characters are 16-bit codes, which are looked up and looked up back. -/
theorem exists_lookups {m : CharsetMaps} {cs : List GbkChar} (hmap : AllMapped m cs)
    (h : ∀ c ∈ cs, c.Stays m) :
    ∃ ws us vs : List UInt16, cs.flatMap GbkChar.bytes = ws.flatMap code16 ∧
      cs.mapM (GbkChar.ucs2 m) = some us ∧ LooksUp m.gbkUcs2.lookup ws us ∧
      LooksUp m.ucs2Gbk.lookup us vs ∧ (∀ v ∈ vs, 0x8000 ≤ v) ∧
      cs.map GbkChar.width = List.replicate vs.length 2 := by
  simp only [looksUp_iff]
  induction cs with
  | nil => exact ⟨[], [], [], rfl, rfl, .nil, .nil, by simp, rfl⟩
  | cons c cs ih =>
    rw [List.forall_mem_cons] at h
    obtain ⟨ws, us, vs, hbytes, hus, hws, hvs, hhigh, hwidth⟩ :=
      ih (fun b0 b1 hc => hmap b0 b1 (List.mem_cons_of_mem _ hc)) h.2
    cases c with
    | single b => exact h.1.elim
    | double b0 b1 =>
      obtain ⟨u, hu⟩ := hmap b0 b1 List.mem_cons_self
      obtain ⟨v, hv, hge⟩ := h.1 u hu
      refine ⟨_ :: ws, u :: us, v :: vs, ?_, ?_, .cons hu hws, .cons hv hvs, ?_, ?_⟩
      · rw [List.flatMap_cons, List.flatMap_cons, code16_join, hbytes]
        rfl
      · exact mapM_cons_eq_some.2 ⟨u, us, toOption_eq_some.2 hu, hus, rfl⟩
      · exact List.forall_mem_cons.2 ⟨hge, hhigh⟩
      · rw [List.map_cons, hwidth, List.length_cons, List.replicate_succ]
        rfl

/-- **The GBK stages agree on a decoded text** exactly when all of its characters have two bytes and
are looked up to codes whose own GBK codes have two bytes. -/
theorem stagesAgree_iff (table : List CodeMap) {str g : List UInt8} {size : ℕ}
    (hdec : strEscDecode str .gbk size = .ok ⟨g.length, g⟩)
    (hmap : AllMapped (charsetMapInit table) (gbkChars g))
    (size1 size2 size3 : ℕ) (h1 : 2 * g.length < size1) (h2 : 2 * g.length < size2)
    (h3 : 2 * g.length < size3) :
    escGbkReader.codes str = (gbkChars g, none) ∧
      (StagesAgree table g size1 size2 size3 ↔
        ∀ c ∈ gbkChars g, c.Stays (charsetMapInit table)) := by
  refine ⟨gbkChars_of_decode hdec, ?_⟩
  simp only [StagesAgree, Converts, lcConv, convCall_of_eq_iff]
  constructor
  · rintro ⟨us, hus, hucs2, -, back, hback, hwidth⟩
    obtain ⟨ws, ds, hws, hds, heq⟩ := exists_of_convert writes_putCode16 hucs2
    obtain ⟨us', vs, hcodes, hvs, rfl⟩ := exists_of_convert writes_putCode16 hback
    rw [codes_encode] at hcodes
    cases hcodes
    -- as many codes come out as there are characters, and two bytes of `g` make a code
    have hlen : ((gbkChars g).flatMap GbkChar.bytes).length = 2 * (gbkChars g).length := by
      have hds' := congrArg List.length heq
      have hg := congrArg List.length (eq_flatMap_code16 hws)
      have hchars := length_of_mapM hus
      rw [length_flatMap_code16, length_flatMap_code16, LooksUp.length_eq hds] at hds'
      rw [length_flatMap_code16] at hg
      rw [flatMap_bytes_gbkChars]
      omega
    have htwo := width_eq_two_of_length hlen
    have hreplicate : (gbkChars g).map GbkChar.width = List.replicate vs.length 2 := by
      rw [List.eq_replicate_iff]
      refine ⟨?_, by simpa using htwo⟩
      rw [List.length_map, LooksUp.length_eq hvs, length_of_mapM hus]
    rw [hreplicate] at hwidth
    exact stays_of_lookups hus hvs ((width_flatMap_code16_iff vs).1 hwidth) htwo
  · intro h
    obtain ⟨ws, us, vs, hbytes, hus, hws, hvs, hhigh, hwidth⟩ := exists_lookups hmap h
    rw [flatMap_bytes_gbkChars] at hbytes
    have hlen := congrArg List.length hbytes
    have huws := LooksUp.length_eq hws
    have hvus := LooksUp.length_eq hvs
    have hle := length_flatMap_encode_le us
    rw [length_flatMap_code16] at hlen
    have hcodes : code16Reader.codes g = (ws, none) := by rw [hbytes, codes_code16]
    refine ⟨us, hus, ?_, ?_, vs.flatMap code16, ?_, ?_⟩
    · exact convert_of_codes writes_putCode16 hcodes hws (by rw [length_flatMap_code16]; omega)
    · exact convert_of_codes writes_putUtf8 hcodes hws (by omega)
    · exact convert_of_codes writes_putCode16 (codes_encode us) hvs
        (by rw [length_flatMap_code16]; omega)
    · rw [hwidth, (width_flatMap_code16_iff vs).2 hhigh]

/-- A table of a letter and a pair. -/
def tableAh : List CodeMap := [⟨0x41, 0x41⟩, ⟨0xB0A1, 0x554A⟩, ⟨0xFFFF, 0xFFFF⟩]

/-- The pair is in the arrays, whatever stands around it. -/
theorem allMapped_ah {cs : List GbkChar} (h : ∀ b0 b1, .double b0 b1 ∈ cs → b0 = 0xB0 ∧ b1 = 0xA1) :
    AllMapped (charsetMapInit tableAh) cs := by
  intro b0 b1 hc
  obtain ⟨rfl, rfl⟩ := h b0 b1 hc
  exact ⟨0x554A, by decide +kernel⟩

/-- `%B0%A1`: one character of two bytes. -/
theorem stagesAgree_ah :
    escGbkReader.codes [0x25, 0x42, 0x30, 0x25, 0x41, 0x31] = (gbkChars [0xB0, 0xA1], none) ∧
      (StagesAgree tableAh [0xB0, 0xA1] 8 8 8 ↔
        ∀ c ∈ gbkChars [0xB0, 0xA1], c.Stays (charsetMapInit tableAh)) := by
  have hdec : strEscDecode [0x25, 0x42, 0x30, 0x25, 0x41, 0x31] .gbk 8 = .ok ⟨2, [0xB0, 0xA1]⟩ := by
    decide +kernel
  exact stagesAgree_iff tableAh hdec (allMapped_ah fun b0 b1 h => by simpa [gbkChars] using h)
    8 8 8 (by decide) (by decide) (by decide)

/-- `A%B0%A1`: the letter comes out as one byte, and the converters do not take the text. -/
theorem not_stagesAgree_letter :
    strEscDecode [0x41, 0x25, 0x42, 0x30, 0x25, 0x41, 0x31] .gbk 8 = .ok ⟨3, [0x41, 0xB0, 0xA1]⟩ ∧
      AllMapped (charsetMapInit tableAh) (gbkChars [0x41, 0xB0, 0xA1]) ∧
      ¬StagesAgree tableAh [0x41, 0xB0, 0xA1] 8 8 8 := by
  refine ⟨by decide +kernel, allMapped_ah fun b0 b1 h => by simpa [gbkChars] using h, ?_⟩
  rintro ⟨us, -, hucs2, -⟩
  have hcode : lcConv tableAh [0x41, 0xB0, 0xA1] 8 .gbkUcs2 = ⟨.error .code, 8⟩ := by decide +kernel
  rw [Converts, hcode] at hucs2
  cases hucs2

end F1Goal
