import Mathlib.Tactic

/-!
# UTF-8 for 16-bit codes

`encode c` is the shortest of the three forms of a code, surrogates included. A *shape* is a byte
sequence as long as its first byte says; `value` is the code that it stands for when only the low
bits of the bytes behind the first are looked at. A shape is *well formed* when these bytes are
continuation bytes and no shorter form has the same value; the well-formed shapes are the encodings
(`wellFormed_iff`).
-/

namespace Utf8

/-- The shortest form of a code. -/
def encode (c : UInt16) : List UInt8 :=
  if c.toNat < 0x80 then [.ofNat c.toNat]
  else if c.toNat < 0x800 then [.ofNat (0xC0 + c.toNat / 64), .ofNat (0x80 + c.toNat % 64)]
  else [.ofNat (0xE0 + c.toNat / 4096), .ofNat (0x80 + c.toNat / 64 % 64),
    .ofNat (0x80 + c.toNat % 64)]

/-- `10xxxxxx` -/
def Continuation (b : UInt8) : Prop := 0x80 ≤ b.toNat ∧ b.toNat < 0xC0

instance (b : UInt8) : Decidable (Continuation b) := inferInstanceAs (Decidable (_ ∧ _))

/-- As many bytes as the first one says. -/
inductive Shape : List UInt8 → Prop
  | one {b0 : UInt8} : b0.toNat < 0x80 → Shape [b0]
  | two {b0 b1 : UInt8} : 0xC0 ≤ b0.toNat → b0.toNat < 0xE0 → Shape [b0, b1]
  | three {b0 b1 b2 : UInt8} : 0xE0 ≤ b0.toNat → b0.toNat < 0xF0 → Shape [b0, b1, b2]

/-- The code that a shape stands for, by the low bits of its bytes. -/
def value : List UInt8 → UInt16
  | [b0, b1] => .ofNat (b0.toNat % 32 * 64 + b1.toNat % 64)
  | [b0, b1, b2] => .ofNat (b0.toNat % 16 * 4096 + b1.toNat % 64 * 64 + b2.toNat % 64)
  | b0 :: _ => .ofNat b0.toNat
  | [] => 0

/-- A shape with continuation bytes behind the first one that is not overlong. -/
inductive WellFormed : List UInt8 → Prop
  | one {b0 : UInt8} : b0.toNat < 0x80 → WellFormed [b0]
  | two {b0 b1 : UInt8} : 0xC2 ≤ b0.toNat → b0.toNat < 0xE0 → Continuation b1 →
      WellFormed [b0, b1]
  | three {b0 b1 b2 : UInt8} : 0xE0 ≤ b0.toNat → b0.toNat < 0xF0 → Continuation b1 →
      Continuation b2 → (b0.toNat = 0xE0 → 0xA0 ≤ b1.toNat) → WellFormed [b0, b1, b2]

/-- The text is a sequence of pieces that satisfy `P`. -/
def Splits (P : List UInt8 → Prop) (s : List UInt8) : Prop :=
  ∃ fs : List (List UInt8), (∀ f ∈ fs, P f) ∧ fs.flatten = s

theorem shape_encode (c : UInt16) : Shape (encode c) := by
  have hc := c.toNat_lt
  unfold encode
  split_ifs with h1 h2
  · exact .one (by rw [UInt8.toNat_ofNat']; omega)
  · exact .two (by rw [UInt8.toNat_ofNat']; omega) (by rw [UInt8.toNat_ofNat']; omega)
  · exact .three (by rw [UInt8.toNat_ofNat']; omega) (by rw [UInt8.toNat_ofNat']; omega)

/-- The encoding of a code stands for the code. -/
theorem value_encode (c : UInt16) : value (encode c) = c := by
  have hc := c.toNat_lt
  apply UInt16.toNat_inj.1
  unfold encode
  split_ifs with h1 h2
  · simp only [value, UInt16.toNat_ofNat', UInt8.toNat_ofNat']
    omega
  · simp only [value, UInt16.toNat_ofNat', UInt8.toNat_ofNat']
    omega
  · simp only [value, UInt16.toNat_ofNat', UInt8.toNat_ofNat']
    omega

theorem wellFormed_encode (c : UInt16) : WellFormed (encode c) := by
  have hc := c.toNat_lt
  unfold encode
  split_ifs with h1 h2
  · exact .one (by rw [UInt8.toNat_ofNat']; omega)
  · refine .two ?_ ?_ ⟨?_, ?_⟩ <;> rw [UInt8.toNat_ofNat'] <;> omega
  · refine .three ?_ ?_ ⟨?_, ?_⟩ ⟨?_, ?_⟩ ?_ <;> simp only [UInt8.toNat_ofNat'] <;> omega

theorem WellFormed.shape {s : List UInt8} (h : WellFormed s) : Shape s := by
  cases h with
  | one h => exact .one h
  | two h1 h2 => exact .two (by omega) h2
  | three h1 h2 => exact .three h1 h2

/-- A byte is known by its number. -/
theorem eq_ofNat {b : UInt8} {n : ℕ} (h : b.toNat = n) : b = .ofNat n := by
  rw [← h, UInt8.ofNat_toNat]

/-- **The well-formed shapes are the encodings.** -/
theorem wellFormed_iff {s : List UInt8} : WellFormed s ↔ encode (value s) = s := by
  constructor
  · intro h
    cases h with
    | @one b0 h1 =>
      have hv : (value [b0]).toNat = b0.toNat := by
        simp only [value, UInt16.toNat_ofNat']
        omega
      rw [encode, if_pos (by omega), hv, UInt8.ofNat_toNat]
    | @two b0 b1 h1 h2 hb1 =>
      have hv : (value [b0, b1]).toNat = (b0.toNat - 192) * 64 + (b1.toNat - 128) := by
        simp only [value, UInt16.toNat_ofNat']
        have := hb1.1
        have := hb1.2
        omega
      have := hb1.1
      have := hb1.2
      rw [encode, if_neg (by omega), if_pos (by omega), hv,
        ← eq_ofNat (b := b0) (by omega), ← eq_ofNat (b := b1) (by omega)]
    | @three b0 b1 b2 h1 h2 hb1 hb2 hshort =>
      have := hb1.1
      have := hb1.2
      have := hb2.1
      have := hb2.2
      have hv : (value [b0, b1, b2]).toNat =
          (b0.toNat - 224) * 4096 + (b1.toNat - 128) * 64 + (b2.toNat - 128) := by
        simp only [value, UInt16.toNat_ofNat']
        omega
      rw [encode, if_neg (by omega), if_neg (by omega), hv, ← eq_ofNat (b := b0) (by omega),
        ← eq_ofNat (b := b1) (by omega), ← eq_ofNat (b := b2) (by omega)]
  · intro h
    rw [← h]
    exact wellFormed_encode _

/-- No shape is shorter than the encoding of its value. -/
theorem Shape.length_encode_le {s : List UInt8} (h : Shape s) :
    (encode (value s)).length ≤ s.length := by
  cases h with
  | @one b0 h0 =>
    have hv : (value [b0]).toNat = b0.toNat := by
      simp only [value, UInt16.toNat_ofNat']
      omega
    rw [encode, if_pos (by omega)]
    simp
  | @two b0 b1 h0 h1 =>
    have hv : (value [b0, b1]).toNat < 0x800 := by
      simp only [value, UInt16.toNat_ofNat']
      omega
    rw [encode]
    split_ifs <;> simp
  | @three b0 b1 b2 h0 h1 =>
    rw [encode]
    split_ifs <;> simp

/-- Shapes are written back as they were exactly when all of them are well formed. -/
theorem flatMap_encode_eq_iff {fs : List (List UInt8)} (h : ∀ f ∈ fs, Shape f) :
    (fs.map value).flatMap encode = fs.flatten ↔ ∀ f ∈ fs, WellFormed f := by
  have hle : ∀ gs : List (List UInt8), (∀ f ∈ gs, Shape f) →
      ((gs.map value).flatMap encode).length ≤ gs.flatten.length := by
    intro gs hgs
    induction gs with
    | nil => exact le_rfl
    | cons f gs ih =>
      have hf := (hgs f List.mem_cons_self).length_encode_le
      have hrest := ih fun g hg => hgs g (List.mem_cons_of_mem _ hg)
      simp only [List.map_cons, List.flatMap_cons, List.flatten_cons, List.length_append]
      omega
  induction fs with
  | nil => simp
  | cons f fs ih =>
    have hf := h f List.mem_cons_self
    have hfs : ∀ g ∈ fs, Shape g := fun g hg => h g (List.mem_cons_of_mem _ hg)
    have ihfs : (fs.map value).flatMap encode = fs.flatten ↔ ∀ f ∈ fs, WellFormed f := ih hfs
    rw [List.forall_mem_cons, wellFormed_iff, ← ihfs, List.map_cons, List.flatMap_cons,
      List.flatten_cons]
    constructor
    · intro heq
      -- the lengths leave no slack, so the two texts agree piece by piece
      have hlen := congrArg List.length heq
      have h1 := hf.length_encode_le
      have h2 := hle fs hfs
      rw [List.length_append, List.length_append] at hlen
      exact List.append_inj heq (by omega)
    · rintro ⟨h1, h2⟩
      rw [h1, h2]

end Utf8
