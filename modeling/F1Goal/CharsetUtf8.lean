import F1Goal.CharsetCodes

/-!
# UCS-2 and UTF-8

Every UCS-2 text survives the way through UTF-8 and back: the reader of UTF-8 finds the codes of the
writer again, surrogates included. The other way round the readers are lenient. They look at the low
bits of the bytes behind the first one only, so a text that they accept is the encoding of what they
decode exactly when none of its shapes is malformed.
-/

namespace F1Goal

open Transcode

/-! ### Codes of a text -/

theorem codes_code16 (cs : List UInt16) : code16Reader.codes (cs.flatMap code16) = (cs, none) :=
  codes_flatMap getCode16_code16 cs

theorem codes_encode (cs : List UInt16) : utf8Reader.codes (cs.flatMap Utf8.encode) = (cs, none) :=
  codes_flatMap getUtf8_encode cs

theorem eq_flatMap_code16 {x : List UInt8} {cs : List UInt16}
    (h : code16Reader.codes x = (cs, none)) : x = cs.flatMap code16 :=
  eq_flatMap_of_codes (fun _ _ _ h => eq_of_getCode16 h) h

@[simp] theorem length_flatMap_code16 (cs : List UInt16) :
    (cs.flatMap code16).length = 2 * cs.length := by
  induction cs with
  | nil => rfl
  | cons c cs ih =>
    rw [List.flatMap_cons, List.length_append, ih, length_code16, List.length_cons]
    ring

theorem length_encode_le (c : UInt16) : (Utf8.encode c).length ≤ 3 := by
  unfold Utf8.encode
  split_ifs <;> simp

theorem length_flatMap_encode_le (cs : List UInt16) :
    (cs.flatMap Utf8.encode).length ≤ 3 * cs.length := by
  induction cs with
  | nil => rfl
  | cons c cs ih =>
    have hc := length_encode_le c
    rw [List.flatMap_cons, List.length_append, List.length_cons]
    omega

/-- A text of even length is a list of 16-bit codes. -/
theorem exists_eq_flatMap_code16 (x : List UInt8) (h : x.length % 2 = 0) :
    ∃ cs : List UInt16, x = cs.flatMap code16 := by
  induction hn : x.length using Nat.strong_induction_on generalizing x with
  | _ n ih =>
    match x with
    | [] => exact ⟨[], rfl⟩
    | [b0] => simp at h
    | b0 :: b1 :: x =>
      rw [List.length_cons, List.length_cons] at h hn
      obtain ⟨cs, rfl⟩ := ih x.length (by omega) x (by omega) rfl
      refine ⟨(b0.toUInt16 <<< 8 ||| b1.toUInt16) :: cs, ?_⟩
      rw [List.flatMap_cons, code16_join]
      rfl

/-! ### UCS-2 through UTF-8 -/

theorem mapM_some (cs : List UInt16) :
    cs.mapM (fun c => (Except.ok (ε := ConvStop) c).toOption) = some cs := by
  induction cs with
  | nil => rfl
  | cons c cs ih =>
    rw [List.mapM_cons, ih]
    rfl

theorem ucs2ToUtf8_code16 {cs : List UInt16} {size : ℕ}
    (hroom : (cs.flatMap Utf8.encode).length < size) :
    ucs2ToUtf8 (cs.flatMap code16) size = .ok (cs.flatMap Utf8.encode) :=
  convert_of_codes writes_putUtf8 (codes_code16 cs) (mapM_some cs) hroom

theorem utf8ToUcs2_of_codes {x : List UInt8} {cs : List UInt16} {size : ℕ}
    (hcodes : utf8Reader.codes x = (cs, none)) (hroom : 2 * cs.length < size) :
    utf8ToUcs2 x size = .ok (cs.flatMap code16) :=
  convert_of_codes writes_putCode16 hcodes (mapM_some cs) (by rwa [length_flatMap_code16])

/-- **UCS-2 survives UTF-8**: with room for the outputs, `ucs2_to_utf8` succeeds on every text of
16-bit codes and `utf8_to_ucs2` takes its output back to the text. -/
theorem ucs2_survives_utf8 (x : List UInt8) (heven : x.length % 2 = 0) (size1 size2 : ℕ)
    (hsize1 : 3 * x.length < 2 * size1) (hsize2 : x.length < size2) :
    ∃ z, ucs2ToUtf8 x size1 = .ok z ∧ utf8ToUcs2 z size2 = .ok x := by
  obtain ⟨cs, rfl⟩ := exists_eq_flatMap_code16 x heven
  rw [length_flatMap_code16] at hsize1 hsize2
  have hlen := length_flatMap_encode_le cs
  exact ⟨_, ucs2ToUtf8_code16 (by omega), utf8ToUcs2_of_codes (codes_encode cs) hsize2⟩

/-- A surrogate among codes of one, two and three bytes. -/
theorem ucs2_survives_utf8_surrogate :
    ([0x00, 0x7F, 0x07, 0xFF, 0xD8, 0x00] : List UInt8).length % 2 = 0 ∧
      ∃ z, ucs2ToUtf8 [0x00, 0x7F, 0x07, 0xFF, 0xD8, 0x00] 10 = .ok z ∧
        utf8ToUcs2 z 7 = .ok [0x00, 0x7F, 0x07, 0xFF, 0xD8, 0x00] :=
  ⟨by decide, ucs2_survives_utf8 _ (by decide) 10 7 (by decide) (by decide)⟩

/-! ### What the UTF-8 readers accept -/

/-- The codes that the UTF-8 reader finds in a text are the values of the shapes that the text
splits into. -/
theorem codes_utf8_iff {x : List UInt8} {cs : List UInt16} :
    utf8Reader.codes x = (cs, none) ↔
      ∃ fs : List (List UInt8),
        (∀ f ∈ fs, Utf8.Shape f) ∧ fs.flatten = x ∧ fs.map Utf8.value = cs := by
  have hforall : ∀ fs : List (List UInt8),
      List.Forall₂ (fun f c => Utf8.Shape f ∧ Utf8.value f = c) fs cs ↔
        (∀ f ∈ fs, Utf8.Shape f) ∧ fs.map Utf8.value = cs := by
    intro fs
    have hmap : List.Forall₂ Eq (fs.map Utf8.value) cs ↔
        List.Forall₂ (fun f c => Utf8.value f = c) fs cs := List.forall₂_map_left_iff
    rw [List.forall₂_and_left, ← hmap, List.forall₂_eq_eq_eq]
  constructor
  · intro h
    obtain ⟨fs, hfs, hx⟩ := exists_of_codes (r := utf8Reader)
      (P := fun f c => Utf8.Shape f ∧ Utf8.value f = c) (fun s c rest hg => by
        obtain ⟨f, hf, hv, hs⟩ := exists_shape_of_getUtf8 hg
        exact ⟨f, ⟨hf, hv⟩, hs⟩) h
    exact ⟨fs, ((hforall fs).1 hfs).1, hx, ((hforall fs).1 hfs).2⟩
  · rintro ⟨fs, hshape, rfl, hcs⟩
    refine codes_flatten (r := utf8Reader) ?_ ((hforall fs).2 ⟨hshape, hcs⟩)
    rintro f c rest ⟨hf, rfl⟩
    exact getUtf8_shape hf rest

/-- `y` is written back as `x`, given the room. -/
def Reencodes (y x : List UInt8) : Prop := ∀ size, x.length < size → ucs2ToUtf8 y size = .ok x

/-- The two UTF-8 readers accept `x` only as the UTF-8 form of the codes that they decode. -/
def ReadOnlyAsEncoded (m : CharsetMaps) (x : List UInt8) : Prop :=
  (∀ size y, utf8ToUcs2 x size = .ok y → Reencodes y x) ∧
    ∀ size z, utf8ToGbk m x size = .ok z →
      ∃ size' y, utf8ToUcs2 x size' = .ok y ∧ Reencodes y x

/-- What is decoded is written back as the text exactly when the shapes of the text are well
formed. -/
theorem reencodes_iff {fs : List (List UInt8)} (h : ∀ f ∈ fs, Utf8.Shape f) :
    Reencodes ((fs.map Utf8.value).flatMap code16) fs.flatten ↔ ∀ f ∈ fs, Utf8.WellFormed f := by
  rw [← Utf8.flatMap_encode_eq_iff h]
  constructor
  · intro hre
    obtain ⟨size, hsize⟩ : ∃ size, max fs.flatten.length
        ((fs.map Utf8.value).flatMap Utf8.encode).length < size := ⟨_, Nat.lt_succ_self _⟩
    have hok := hre size (by omega)
    rw [ucs2ToUtf8_code16 (by omega)] at hok
    exact Except.ok.inj hok
  · intro heq size hsize
    rw [ucs2ToUtf8_code16 (by rwa [heq]), heq]

/-- **The UTF-8 readers accept a text only as it is encoded** exactly when the text does not split
into shapes or when all of its shapes are well formed. -/
theorem readOnlyAsEncoded_iff (m : CharsetMaps) (x : List UInt8) :
    ReadOnlyAsEncoded m x ↔ (Utf8.Splits Utf8.Shape x → Utf8.Splits Utf8.WellFormed x) := by
  constructor
  · rintro ⟨hread, -⟩ ⟨fs, hfs, rfl⟩
    refine ⟨fs, (reencodes_iff hfs).1 ?_, rfl⟩
    have hcodes := codes_utf8_iff.2 ⟨fs, hfs, rfl, rfl⟩
    exact hread _ _ (utf8ToUcs2_of_codes hcodes (Nat.lt_succ_self _))
  · intro h
    -- whatever a reader accepts has codes, so it splits into shapes, which are well formed
    have key : ∀ cs, utf8Reader.codes x = (cs, none) → Reencodes (cs.flatMap code16) x := by
      intro cs hcodes
      obtain ⟨fs, hfs, rfl, -⟩ := codes_utf8_iff.1 hcodes
      obtain ⟨gs, hgs, heq⟩ := h ⟨fs, hfs, rfl⟩
      have hshape : ∀ g ∈ gs, Utf8.Shape g := fun g hg => (hgs g hg).shape
      have hcodes' := codes_utf8_iff.2 ⟨gs, hshape, heq, rfl⟩
      rw [hcodes] at hcodes'
      cases hcodes'
      rw [← heq]
      exact (reencodes_iff hshape).2 hgs
    constructor
    · intro size y hy
      obtain ⟨cs, ds, hcodes, hmap, rfl⟩ := exists_of_convert writes_putCode16 hy
      rw [mapM_some] at hmap
      cases hmap
      exact key cs hcodes
    · intro size z hz
      obtain ⟨cs, ds, hcodes, -, -⟩ := exists_of_convert writes_putCode16 hz
      exact ⟨_, _, utf8ToUcs2_of_codes hcodes (Nat.lt_succ_self _), key cs hcodes⟩

/-- An overlong `/`: it is accepted, and written back in one byte. -/
theorem overlong_slash_accepted :
    ¬ReadOnlyAsEncoded (charsetMapInit [⟨0xFFFF, 0xFFFF⟩]) [0xC0, 0xAF] := by
  rintro ⟨hread, -⟩
  have hok : utf8ToUcs2 [0xC0, 0xAF] 8 = .ok [0x00, 0x2F] := by decide +kernel
  have hback : ucs2ToUtf8 [0x00, 0x2F] 8 = .ok [0x2F] := by decide +kernel
  have h := hread 8 _ hok 8 (by decide)
  rw [hback] at h
  exact absurd h (by decide)

end F1Goal
