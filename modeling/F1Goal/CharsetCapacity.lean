import F1Goal.CharsetSafety

/-!
# Conversions and spare capacity

The six converters test the capacity last in each turn of their loop, after the input has been found
complete and the code mapped. So a larger capacity changes the outcome of a call only where the
smaller one was the reason why it failed, and then it takes an output that fills the smaller one
(`lcConv_capacity`).
-/

namespace F1Goal

open Transcode

section Put

variable {put : ℕ → ℕ → UInt16 → Except ConvStop (List UInt8)} {raw : UInt16 → List UInt8}
  {short : UInt16 → Prop} {size size' : ℕ}

/-- What is put lies within the capacity. -/
theorem PutsWithin.length_le (hw : PutsWithin put raw short) {num : ℕ} {c : UInt16}
    {bs : List UInt8} (h : put size num c = .ok bs) : num + bs.length ≤ size := by
  by_cases hfits : num + (raw c).length < size ∨ short c ∧ num < size
  · rw [hw.of_fits hfits] at h
    cases h
    rcases hfits with hlt | ⟨hs, hlt⟩
    · omega
    · rw [hw.short_one hs]
      omega
  · rw [hw.of_not_fits hfits] at h
    cases h

/-- A writer with more room. -/
theorem PutsWithin.roomier (hw : PutsWithin put raw short) (h : size ≤ size') (num : ℕ)
    (c : UInt16) : Roomier .obuf size num (put size num c) (put size' num c) := by
  by_cases hfits : num + (raw c).length < size ∨ short c ∧ num < size
  · left
    rw [hw.of_fits hfits, hw.of_fits (hfits.imp (by omega) (And.imp_right (by omega)))]
  · right
    refine ⟨hw.of_not_fits hfits, fun bs hbs => ?_⟩
    by_cases hfits' : num + (raw c).length < size' ∨ short c ∧ num < size'
    · rw [hw.of_fits hfits'] at hbs
      cases hbs
      push Not at hfits
      exact hfits.1
    · rw [hw.of_not_fits hfits'] at hbs
      cases hbs

variable {r : Reader UInt8 UInt16 ConvStop} {look : UInt16 → Except ConvStop UInt16}
  {d1 out : List UInt8}

theorem emit_roomier (hw : PutsWithin put raw short) (h : size ≤ size') (num : ℕ) (c : UInt16) :
    Roomier .obuf size num (look c >>= put size num) (look c >>= put size' num) := by
  cases look c with
  | error e => exact .inl rfl
  | ok d => exact hw.roomier h num d

/-- The loop of a converter with more room. -/
theorem convertLoop_roomier (hw : PutsWithin put raw short) (h : size ≤ size') (d1 : List UInt8) :
    Roomier .obuf size 0 (loop r (fun num c => look c >>= put size num) d1 [])
      (loop r (fun num c => look c >>= put size' num) d1 []) :=
  loop_roomier r (fun num c => emit_roomier hw h num c) d1 []

theorem convert_eq (d1 : List UInt8) (size : ℕ) :
    convert r look put d1 size =
      loop r (fun num c => look c >>= put size num) d1 [] >>= fun out =>
        storeAt size out.length 0 >>= fun _ => pure out := rfl

theorem length_le_of_loop (hw : PutsWithin put raw short)
    (h : loop r (fun num c => look c >>= put size num) d1 [] = .ok out) : out.length ≤ size := by
  refine length_le_size_of_feed (fun n c cells hc => ?_) (Nat.zero_le _) (loop_eq_ok_iff.1 h).2
  obtain ⟨d, -, hput⟩ := bind_eq_ok.1 hc
  exact hw.length_le hput

/-- A conversion has succeeded when its loop has and the terminating zero has a place. -/
theorem convert_eq_ok_iff_loop : convert r look put d1 size = .ok out ↔
    loop r (fun num c => look c >>= put size num) d1 [] = .ok out ∧ out.length < size := by
  rw [convert_eq, bind_eq_ok]
  constructor
  · rintro ⟨o, hloop, h⟩
    obtain ⟨b, hb, h⟩ := bind_eq_ok.1 h
    cases h
    refine ⟨hloop, ?_⟩
    by_contra hlt
    rw [storeAt, if_neg hlt] at hb
    cases hb
  · rintro ⟨hloop, hlt⟩
    exact ⟨out, hloop, bind_eq_ok.2 ⟨0, storeAt_of_lt hlt 0, rfl⟩⟩

/-- A conversion fails as its loop does, or has no place for the zero. -/
theorem convert_eq_error_iff_loop {e : ConvStop} : convert r look put d1 size = .error e ↔
    loop r (fun num c => look c >>= put size num) d1 [] = .error e ∨
      e = .oob ∧ ∃ o, loop r (fun num c => look c >>= put size num) d1 [] = .ok o ∧
        size ≤ o.length := by
  rw [convert_eq, bind_eq_error]
  refine or_congr_right ⟨?_, ?_⟩
  · rintro ⟨o, hloop, h⟩
    rcases bind_eq_error.1 h with hst | ⟨b, -, h⟩
    · by_cases hlt : o.length < size
      · rw [storeAt_of_lt hlt] at hst
        cases hst
      · rw [storeAt, if_neg hlt] at hst
        cases hst
        exact ⟨rfl, o, hloop, not_lt.1 hlt⟩
    · cases h
  · rintro ⟨rfl, o, hloop, hle⟩
    refine ⟨o, hloop, bind_eq_error.2 (.inl ?_)⟩
    rw [storeAt, if_neg (not_lt.2 hle)]

/-- What a conversion of capacity `size` says about every larger one. -/
structure CapacityFree (conv : ℕ → Except ConvStop (List UInt8)) (size : ℕ) : Prop where
  ok : ∀ {out}, conv size = .ok out → ∀ size', size < size' → conv size' = .ok out
  error : ∀ {e}, conv size = .error e → e ≠ .obuf → e ≠ .oob → ∀ size', size < size' →
    conv size' = .error e
  obuf : conv size = .error .obuf → ∀ size' out, conv size' = .ok out → size ≤ out.length
  oob : conv size = .error .oob → ∀ size', size < size' →
    conv size' = .error .oob ∨ ∃ out, conv size' = .ok out ∧ out.length = size

/-- **A conversion does not depend on spare capacity.** -/
theorem convert_capacityFree (hw : PutsWithin put raw short) (d1 : List UInt8) (size : ℕ) :
    CapacityFree (convert r look put d1) size := by
  have hok : ∀ {size out}, convert r look put d1 size = .ok out → ∀ size', size < size' →
      convert r look put d1 size' = .ok out := by
    intro size out h size' hlt
    obtain ⟨hloop, hout⟩ := convert_eq_ok_iff_loop.1 h
    exact convert_eq_ok_iff_loop.2
      ⟨(convertLoop_roomier hw hlt.le d1).of_ok hloop, hout.trans hlt⟩
  refine ⟨fun h => hok h, fun {e} h hne hoob size' hlt => ?_, fun h size' out h' => ?_,
    fun h size' hlt => ?_⟩
  · rcases convert_eq_error_iff_loop.1 h with hloop | ⟨he, -⟩
    · exact convert_eq_error_iff_loop.2
        (.inl ((convertLoop_roomier hw hlt.le d1).of_error hloop hne))
    · exact absurd he hoob
  · rcases convert_eq_error_iff_loop.1 h with hloop | ⟨⟨⟩, -⟩
    rcases Nat.lt_trichotomy size size' with hlt | rfl | hgt
    · have hle := (convertLoop_roomier hw hlt.le d1).of_full hloop (convert_eq_ok_iff_loop.1 h').1
      omega
    · rw [h] at h'
      cases h'
    · rw [hok h' size hgt] at h
      cases h
  · rcases convert_eq_error_iff_loop.1 h with hloop | ⟨-, o, hloop, hle⟩
    · left
      exact convert_eq_error_iff_loop.2
        (.inl ((convertLoop_roomier hw hlt.le d1).of_error hloop (by decide)))
    · right
      have hlen : o.length = size := le_antisymm (length_le_of_loop hw hloop) hle
      exact ⟨o, convert_eq_ok_iff_loop.2
        ⟨(convertLoop_roomier hw hlt.le d1).of_ok hloop, by omega⟩, hlen⟩

end Put

/-! ### The calls of `lc_conv` -/

/-- A call of `lc_conv` is a conversion that does not depend on spare capacity. -/
theorem exists_conv (table : List CodeMap) (d1 : List UInt8) (t : ConvType) :
    ∃ conv : ℕ → Except ConvStop (List UInt8),
      (∀ size, lcConv table d1 size t = .of size (conv size)) ∧
        ∀ size, CapacityFree conv size := by
  cases t with
  | gbkUtf8 => exact ⟨_, fun _ => rfl, convert_capacityFree putsWithin_putUtf8 d1⟩
  | utf8Gbk => exact ⟨_, fun _ => rfl, convert_capacityFree putsWithin_putCode16 d1⟩
  | utf8Ucs2 => exact ⟨_, fun _ => rfl, convert_capacityFree putsWithin_putCode16 d1⟩
  | ucs2Utf8 => exact ⟨_, fun _ => rfl, convert_capacityFree putsWithin_putUtf8 d1⟩
  | gbkUcs2 => exact ⟨_, fun _ => rfl, convert_capacityFree putsWithin_putCode16 d1⟩
  | ucs2Gbk => exact ⟨_, fun _ => rfl, convert_capacityFree putsWithin_putCode16 d1⟩
  | other =>
    refine ⟨fun _ => .error (.neg 1), fun _ => rfl, fun _ => ⟨fun h => ?_, fun h _ _ _ _ => h,
      fun h => ?_, fun h => ?_⟩⟩ <;> cases h

/-- **Results do not depend on spare capacity.** A call of `lc_conv` that succeeds does so with the
same output and length at every larger capacity; one that fails with a code other than `E_OBUF`
fails with it at every larger capacity; after an `E_OBUF` only an output that fills the capacity
succeeds; and a call that fails leaves `*d2_len` as it was. A call that has left an array does so at
every larger capacity, or was short of a place for the terminating zero. -/
theorem lcConv_capacity (table : List CodeMap) (d1 : List UInt8) (t : ConvType) (c : ℕ) :
    (∀ out, (lcConv table d1 c t).res = .ok out →
      ∀ c', c ≤ c' → lcConv table d1 c' t = ⟨.ok out, out.length⟩) ∧
    (∀ e, (lcConv table d1 c t).res = .error e → e ≠ .obuf → e ≠ .oob →
      ∀ c', c ≤ c' → (lcConv table d1 c' t).res = .error e) ∧
    ((lcConv table d1 c t).res = .error .obuf →
      ∀ c' out, (lcConv table d1 c' t).res = .ok out → c ≤ out.length) ∧
    ((lcConv table d1 c t).res = .error .oob →
      ∀ c', c < c' → (lcConv table d1 c' t).res = .error .oob ∨
        ∃ out, (lcConv table d1 c' t).res = .ok out ∧ out.length = c) ∧
    (∀ e, (lcConv table d1 c t).res = .error e → (lcConv table d1 c t).d2Len = c) := by
  obtain ⟨conv, hconv, hfree⟩ := exists_conv table d1 t
  simp only [hconv, ConvCall.of_res]
  have hstay : ∀ {res}, conv c = res → ∀ c', c ≤ c' → (c < c' → conv c' = res) → conv c' = res := by
    intro res hres c' hle hlt
    rcases hle.eq_or_lt with rfl | h
    · exact hres
    · exact hlt h
  refine ⟨fun out h c' hle => ?_, fun e h hobuf hoob c' hle => ?_, (hfree c).obuf, (hfree c).oob,
    fun e h => ?_⟩
  · rw [hstay h c' hle ((hfree c).ok h c')]
    rfl
  · exact hstay h c' hle ((hfree c).error h hobuf hoob c')
  · rw [h]
    rfl

end F1Goal
