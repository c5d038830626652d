import F1Goal.Charset
import F1Goal.Lib.Utf8

/-!
# What the converters read and write

The shifts and masks of the converters are arithmetic on codes: a reader takes `code16 c` or a UTF-8
shape off its input, a writer puts `code16 c` or `Utf8.encode c`. With that, a converter succeeds
exactly on the inputs that split into codes which are all translated, and writes their encodings
(`exists_of_convert`, `convert_of_codes`).
-/

namespace F1Goal

/-- The two bytes of a code, high byte first. -/
def code16 (c : UInt16) : List UInt8 := [.ofNat (c.toNat / 256), .ofNat (c.toNat % 256)]

@[simp] theorem length_code16 (c : UInt16) : (code16 c).length = 2 := rfl

/-! ### Bits and arithmetic -/

/-- Shifting a number left by `k` and filling in `k` bits. -/
theorem shiftLeft_or_eq {a b k : ℕ} (h : b < 2 ^ k) : a <<< k ||| b = a * 2 ^ k + b := by
  rw [← Nat.shiftLeft_add_eq_or_of_lt h, Nat.shiftLeft_eq]

theorem and_1f (b : UInt8) : (b &&& 0x1F).toNat = b.toNat % 32 := by
  rw [UInt8.toNat_and]
  exact Nat.and_two_pow_sub_one_eq_mod b.toNat 5

theorem and_0f (b : UInt8) : (b &&& 0x0F).toNat = b.toNat % 16 := by
  rw [UInt8.toNat_and]
  exact Nat.and_two_pow_sub_one_eq_mod b.toNat 4

theorem and_3f (b : UInt8) : (b &&& 0x3F).toNat = b.toNat % 64 := by
  rw [UInt8.toNat_and]
  exact Nat.and_two_pow_sub_one_eq_mod b.toNat 6

theorem and_e0_iff (b : UInt8) : b &&& 0xE0 = 0xC0 ↔ 0xC0 ≤ b.toNat ∧ b.toNat < 0xE0 := by
  have h : ∀ n : Fin 256, n.val &&& 0xE0 = 0xC0 ↔ 0xC0 ≤ n.val ∧ n.val < 0xE0 := by decide +kernel
  rw [← UInt8.toNat_inj, UInt8.toNat_and]
  exact h ⟨b.toNat, b.toNat_lt⟩

theorem and_f0_iff (b : UInt8) : b &&& 0xF0 = 0xE0 ↔ 0xE0 ≤ b.toNat ∧ b.toNat < 0xF0 := by
  have h : ∀ n : Fin 256, n.val &&& 0xF0 = 0xE0 ↔ 0xE0 ≤ n.val ∧ n.val < 0xF0 := by decide +kernel
  rw [← UInt8.toNat_inj, UInt8.toNat_and]
  exact h ⟨b.toNat, b.toNat_lt⟩

/-- `a <<= k; a |= b`, when no bit is lost and `b` fills the low ones. -/
theorem toNat_shiftLeft_or {a b k : UInt16} (hk : k.toNat < 16) (ha : a.toNat * 2 ^ k.toNat < 2 ^ 16)
    (hb : b.toNat < 2 ^ k.toNat) : (a <<< k ||| b).toNat = a.toNat * 2 ^ k.toNat + b.toNat := by
  rw [UInt16.toNat_or, UInt16.toNat_shiftLeft, Nat.mod_eq_of_lt hk,
    Nat.mod_eq_of_lt (by rwa [Nat.shiftLeft_eq]), shiftLeft_or_eq hb]

theorem toNat_join16 (b0 b1 : UInt8) :
    (b0.toUInt16 <<< 8 ||| b1.toUInt16).toNat = b0.toNat * 256 + b1.toNat := by
  have h0 := b0.toNat_lt
  have h1 := b1.toNat_lt
  exact toNat_shiftLeft_or (by decide) (by simpa using by omega) (by simpa using h1)

theorem toNat_join_two (b0 b1 : UInt8) :
    ((b0 &&& 0x1F).toUInt16 <<< 6 ||| (b1 &&& 0x3F).toUInt16).toNat =
      b0.toNat % 32 * 64 + b1.toNat % 64 := by
  rw [toNat_shiftLeft_or (by decide), UInt8.toNat_toUInt16, UInt8.toNat_toUInt16, and_1f, and_3f]
  · rfl
  · rw [UInt8.toNat_toUInt16, and_1f]
    change b0.toNat % 32 * 64 < 65536
    omega
  · rw [UInt8.toNat_toUInt16, and_3f]
    change b1.toNat % 64 < 64
    omega

theorem toNat_join_three (b0 b1 b2 : UInt8) :
    (((b0 &&& 0x0F).toUInt16 <<< 6 ||| (b1 &&& 0x3F).toUInt16) <<< 6 |||
        (b2 &&& 0x3F).toUInt16).toNat =
      b0.toNat % 16 * 4096 + b1.toNat % 64 * 64 + b2.toNat % 64 := by
  have hhigh : ((b0 &&& 0x0F).toUInt16 <<< 6 ||| (b1 &&& 0x3F).toUInt16).toNat =
      b0.toNat % 16 * 64 + b1.toNat % 64 := by
    rw [toNat_shiftLeft_or (by decide), UInt8.toNat_toUInt16, UInt8.toNat_toUInt16, and_0f, and_3f]
    · rfl
    · rw [UInt8.toNat_toUInt16, and_0f]
      change b0.toNat % 16 * 64 < 65536
      omega
    · rw [UInt8.toNat_toUInt16, and_3f]
      change b1.toNat % 64 < 64
      omega
  rw [toNat_shiftLeft_or (by decide), hhigh, UInt8.toNat_toUInt16, and_3f]
  · change (b0.toNat % 16 * 64 + b1.toNat % 64) * 64 + b2.toNat % 64 = _
    ring
  · rw [hhigh]
    change (b0.toNat % 16 * 64 + b1.toNat % 64) * 64 < 65536
    omega
  · rw [UInt8.toNat_toUInt16, and_3f]
    change b2.toNat % 64 < 64
    omega

/-- A byte that is put as the low eight bits of a code. -/
theorem toUInt8_eq {c : UInt16} {n : ℕ} (h : c.toNat = n) : c.toUInt8 = .ofNat n := by
  rw [← h]
  exact UInt8.toNat_inj.1 (by simp)

/-- `m | ((c >> i) & (2 ^ k - 1))`, when the low `k` bits of `m` are clear. -/
theorem toNat_or_field {m c i f : UInt16} {k p : ℕ} (hf : f.toNat = 2 ^ k - 1)
    (hm : m.toNat = p <<< k) (hi : i.toNat < 16) :
    (m ||| ((c >>> i) &&& f)).toNat = p * 2 ^ k + c.toNat / 2 ^ i.toNat % 2 ^ k := by
  rw [UInt16.toNat_or, UInt16.toNat_and, UInt16.toNat_shiftRight, Nat.mod_eq_of_lt hi, hf, hm,
    Nat.shiftRight_eq_div_pow, Nat.and_two_pow_sub_one_eq_mod,
    shiftLeft_or_eq (Nat.mod_lt _ (Nat.two_pow_pos k))]

theorem toNat_or_low {m c f : UInt16} {k p : ℕ} (hf : f.toNat = 2 ^ k - 1)
    (hm : m.toNat = p <<< k) :
    (m ||| (c &&& f)).toNat = p * 2 ^ k + c.toNat % 2 ^ k := by
  rw [UInt16.toNat_or, UInt16.toNat_and, hf, hm, Nat.and_two_pow_sub_one_eq_mod,
    shiftLeft_or_eq (Nat.mod_lt _ (Nat.two_pow_pos k))]

/-! ### What is put -/

theorem putCode16_eq (size num : ℕ) (c : UInt16) :
    putCode16 size num c = if size ≤ num + 2 then .error .obuf else .ok (code16 c) := by
  unfold putCode16
  by_cases h : size ≤ num + 2
  · rw [if_pos h, if_pos h]
    rfl
  · have hc := c.toNat_lt
    have hhigh : (c >>> 8).toUInt8 = .ofNat (c.toNat / 256) := by
      apply toUInt8_eq
      rw [UInt16.toNat_shiftRight, Nat.shiftRight_eq_div_pow]
      rfl
    have hlow : (c &&& 0xFF).toUInt8 = .ofNat (c.toNat % 256) := by
      apply toUInt8_eq
      rw [UInt16.toNat_and]
      exact Nat.and_two_pow_sub_one_eq_mod c.toNat 8
    rw [if_neg h, if_neg h, storeAt_of_lt (by omega), storeAt_of_lt (by omega), hhigh, hlow]
    rfl

/-- The UTF-8 writer asks for one byte more than it writes, except for a code of one byte. -/
def Utf8Fits (size num : ℕ) (c : UInt16) : Prop :=
  num + (Utf8.encode c).length < size ∨ c.toNat < 0x80 ∧ num < size

instance (size num : ℕ) (c : UInt16) : Decidable (Utf8Fits size num c) :=
  inferInstanceAs (Decidable (_ ∨ _))

/-- The bytes of the UTF-8 writer: a byte behind the first, -/
theorem utf8_low (c : UInt16) :
    UInt16.toUInt8 ((0x80 : UInt16) ||| (c &&& 0x3F)) = .ofNat (0x80 + c.toNat % 64) :=
  toUInt8_eq (toNat_or_low (k := 6) (p := 2) rfl rfl)

/-- the byte in the middle of three, -/
theorem utf8_middle (c : UInt16) :
    UInt16.toUInt8 ((0x80 : UInt16) ||| ((c >>> 6) &&& 0x3F)) =
      .ofNat (0x80 + c.toNat / 64 % 64) :=
  toUInt8_eq (toNat_or_field (k := 6) (p := 2) rfl rfl (by decide))

/-- the first of two, -/
theorem utf8_first_two {c : UInt16} (h : c.toNat < 0x800) :
    UInt16.toUInt8 ((0xC0 : UInt16) ||| ((c >>> 6) &&& 0x1F)) = .ofNat (0xC0 + c.toNat / 64) := by
  apply toUInt8_eq
  rw [toNat_or_field (k := 5) (p := 6) rfl rfl (by decide)]
  change 192 + c.toNat / 64 % 32 = _
  omega

/-- and the first of three. -/
theorem utf8_first_three (c : UInt16) :
    UInt16.toUInt8 ((0xE0 : UInt16) ||| ((c >>> 12) &&& 0x0F)) =
      .ofNat (0xE0 + c.toNat / 4096) := by
  have hc := c.toNat_lt
  apply toUInt8_eq
  rw [toNat_or_field (k := 4) (p := 14) rfl rfl (by decide)]
  change 224 + c.toNat / 4096 % 16 = _
  omega

theorem putUtf8_eq (size num : ℕ) (c : UInt16) :
    putUtf8 size num c = if Utf8Fits size num c then .ok (Utf8.encode c) else .error .obuf := by
  have hc := c.toNat_lt
  unfold putUtf8
  by_cases h1 : c.toNat < 0x80
  · have hlow : (c &&& 0xFF).toUInt8 = .ofNat c.toNat := by
      apply toUInt8_eq
      rw [UInt16.toNat_and, show UInt16.toNat 0xFF = 2 ^ 8 - 1 from rfl,
        Nat.and_two_pow_sub_one_eq_mod]
      omega
    have hfits : Utf8Fits size num c ↔ num < size := by
      simp only [Utf8Fits, Utf8.encode, if_pos h1, List.length_singleton]
      omega
    rw [if_pos (UInt16.lt_iff_toNat_lt.2 h1)]
    by_cases hroom : num < size
    · rw [if_neg (not_le.2 hroom), if_pos (hfits.2 hroom), storeAt_of_lt hroom, hlow, Utf8.encode,
        if_pos h1]
      rfl
    · rw [if_pos (not_lt.1 hroom), if_neg (mt hfits.1 hroom)]
      rfl
  have h1' : ¬c < 0x80 := fun h => h1 (UInt16.lt_iff_toNat_lt.1 h)
  have hle : (0x80 : UInt16) ≤ c := UInt16.not_lt.1 h1'
  by_cases h2 : c.toNat < 0x800
  · -- two bytes
    have h2' : c ≤ 0x7FF := UInt16.le_iff_toNat_le.2 (Nat.le_of_lt_succ h2)
    have hfits : Utf8Fits size num c ↔ num + 2 < size := by
      simp [Utf8Fits, Utf8.encode, h1, h2]
    rw [if_neg h1', if_pos ⟨hle, h2'⟩]
    by_cases hroom : num + 2 < size
    · rw [if_neg (not_le.2 hroom), if_pos (hfits.2 hroom), storeAt_of_lt (by omega),
        storeAt_of_lt (by omega), utf8_first_two h2, utf8_low, Utf8.encode, if_neg h1, if_pos h2]
      rfl
    · rw [if_pos (not_lt.1 hroom), if_neg (mt hfits.1 hroom)]
      rfl
  · -- three bytes
    have h2' : ¬c ≤ 0x7FF := fun h => h2 (Nat.lt_succ_of_le (UInt16.le_iff_toNat_le.1 h))
    have hge : (0x800 : UInt16) ≤ c := UInt16.le_iff_toNat_le.2 (not_lt.1 h2)
    have hmax : c ≤ 0xFFFF := UInt16.le_iff_toNat_le.2 (Nat.le_of_lt_succ hc)
    have hfits : Utf8Fits size num c ↔ num + 3 < size := by
      simp [Utf8Fits, Utf8.encode, h1, h2]
    rw [if_neg h1', if_neg (fun h => h2' h.2), if_pos ⟨hge, hmax⟩]
    by_cases hroom : num + 3 < size
    · rw [if_neg (not_le.2 hroom), if_pos (hfits.2 hroom), storeAt_of_lt (by omega),
        storeAt_of_lt (by omega), storeAt_of_lt (by omega), utf8_first_three, utf8_middle, utf8_low,
        Utf8.encode, if_neg h1, if_neg h2]
      rfl
    · rw [if_pos (not_lt.1 hroom), if_neg (mt hfits.1 hroom)]
      rfl

/-! ### What is read -/

theorem code16_join (b0 b1 : UInt8) :
    code16 (b0.toUInt16 <<< 8 ||| b1.toUInt16) = [b0, b1] := by
  have h0 := b0.toNat_lt
  have h1 := b1.toNat_lt
  rw [code16, toNat_join16, ← Utf8.eq_ofNat (b := b0) (by omega),
    ← Utf8.eq_ofNat (b := b1) (by omega)]

theorem getCode16_code16 (c : UInt16) (rest : List UInt8) :
    getCode16 (code16 c ++ rest) = .ok (c, rest) := by
  have hc := c.toNat_lt
  have hjoin : (UInt8.ofNat (c.toNat / 256)).toUInt16 <<< 8 |||
      (UInt8.ofNat (c.toNat % 256)).toUInt16 = c := by
    apply UInt16.toNat_inj.1
    rw [toNat_join16, UInt8.toNat_ofNat', UInt8.toNat_ofNat']
    omega
  change getCode16 (_ :: _ :: rest) = _
  rw [getCode16_cons_cons, hjoin]

/-- A 16-bit code that is read is the one at the front of the input. -/
theorem eq_of_getCode16 {s rest : List UInt8} {c : UInt16} (h : getCode16 s = .ok (c, rest)) :
    s = code16 c ++ rest := by
  obtain ⟨b0, b1, rfl, rfl⟩ := getCode16_eq_ok h
  rw [code16_join]
  rfl

/-- A shape at the front of the input is read as the code it stands for. -/
theorem getUtf8_shape {f : List UInt8} (h : Utf8.Shape f) (rest : List UInt8) :
    getUtf8 (f ++ rest) = .ok (Utf8.value f, rest) := by
  cases h with
  | @one b0 h0 =>
    have hlt : b0 < 0x80 := UInt8.lt_iff_toNat_lt.2 h0
    have hv : b0.toUInt16 = Utf8.value [b0] := by
      apply UInt16.toNat_inj.1
      simp [Utf8.value]
    rw [List.singleton_append, getUtf8_cons, if_pos hlt, hv]
  | @two b0 b1 h0 h1 =>
    have hlt : ¬b0 < 0x80 := fun h => by have := UInt8.lt_iff_toNat_lt.1 h; simp at this; omega
    have hv : (b0 &&& 0x1F).toUInt16 <<< 6 ||| (b1 &&& 0x3F).toUInt16 = Utf8.value [b0, b1] := by
      apply UInt16.toNat_inj.1
      rw [toNat_join_two, Utf8.value, UInt16.toNat_ofNat']
      omega
    change getUtf8 (b0 :: b1 :: rest) = _
    rw [getUtf8_cons, if_neg hlt, if_pos ((and_e0_iff b0).2 ⟨h0, h1⟩)]
    exact congrArg (fun c => Except.ok (c, rest)) hv
  | @three b0 b1 b2 h0 h1 =>
    have hlt : ¬b0 < 0x80 := fun h => by have := UInt8.lt_iff_toNat_lt.1 h; simp at this; omega
    have htwo : b0 &&& 0xE0 ≠ 0xC0 := fun h => by have := (and_e0_iff b0).1 h; omega
    have hv : ((b0 &&& 0x0F).toUInt16 <<< 6 ||| (b1 &&& 0x3F).toUInt16) <<< 6 |||
        (b2 &&& 0x3F).toUInt16 = Utf8.value [b0, b1, b2] := by
      apply UInt16.toNat_inj.1
      rw [toNat_join_three, Utf8.value, UInt16.toNat_ofNat']
      omega
    change getUtf8 (b0 :: b1 :: b2 :: rest) = _
    rw [getUtf8_cons, if_neg hlt, if_neg htwo, if_pos ((and_f0_iff b0).2 ⟨h0, h1⟩)]
    exact congrArg (fun c => Except.ok (c, rest)) hv

/-- What is read off the front of the input is a shape, and its value. -/
theorem exists_shape_of_getUtf8 {s rest : List UInt8} {c : UInt16}
    (h : getUtf8 s = .ok (c, rest)) : ∃ f, Utf8.Shape f ∧ Utf8.value f = c ∧ s = f ++ rest := by
  have key : ∃ f t, Utf8.Shape f ∧ s = f ++ t := by
    cases s with
    | nil => cases h
    | cons b0 s =>
      rw [getUtf8_cons] at h
      split_ifs at h with h0 h1 h2
      · exact ⟨[b0], s, .one (UInt8.lt_iff_toNat_lt.1 h0), rfl⟩
      · cases s with
        | nil => cases h
        | cons b1 s =>
          obtain ⟨hl, hu⟩ := (and_e0_iff b0).1 h1
          exact ⟨[b0, b1], s, .two hl hu, rfl⟩
      · obtain ⟨hl, hu⟩ := (and_f0_iff b0).1 h2
        match s, h with
        | b1 :: b2 :: s, _ => exact ⟨[b0, b1, b2], s, .three hl hu, rfl⟩
  obtain ⟨f, t, hf, rfl⟩ := key
  rw [getUtf8_shape hf] at h
  cases h
  exact ⟨f, hf, rfl, rfl⟩

theorem getUtf8_encode (c : UInt16) (rest : List UInt8) :
    getUtf8 (Utf8.encode c ++ rest) = .ok (c, rest) := by
  rw [getUtf8_shape (Utf8.shape_encode c), Utf8.value_encode]

/-! ### The converters -/

/-- A writer puts the bytes `raw c` for the code `c`, and does so whenever one byte more has
room. -/
structure Writes (put : ℕ → ℕ → UInt16 → Except ConvStop (List UInt8)) (raw : UInt16 → List UInt8) :
    Prop where
  eq_raw : ∀ {size num c bs}, put size num c = .ok bs → bs = raw c
  of_room : ∀ {size num c}, num + (raw c).length < size → put size num c = .ok (raw c)

theorem writes_putCode16 : Writes putCode16 code16 where
  eq_raw h := by
    rw [putCode16_eq] at h
    split_ifs at h
    cases h
    rfl
  of_room h := by
    rw [length_code16] at h
    rw [putCode16_eq, if_neg (not_le.2 h)]

theorem writes_putUtf8 : Writes putUtf8 Utf8.encode where
  eq_raw h := by
    rw [putUtf8_eq] at h
    split_ifs at h
    cases h
    rfl
  of_room h := by rw [putUtf8_eq, if_pos (.inl h)]

section Convert

variable {r : Transcode.Reader UInt8 UInt16 ConvStop} {look : UInt16 → Except ConvStop UInt16}
  {put : ℕ → ℕ → UInt16 → Except ConvStop (List UInt8)} {raw : UInt16 → List UInt8}
  {d1 o : List UInt8} {size : ℕ} {cs ds : List UInt16}

/-- **A conversion that succeeds** has split its input into codes, has translated all of them, and
has written their bytes. -/
theorem exists_of_convert (hw : Writes put raw) (h : convert r look put d1 size = .ok o) :
    ∃ cs ds, r.codes d1 = (cs, none) ∧ cs.mapM (fun c => (look c).toOption) = some ds ∧
      o = ds.flatMap raw := by
  obtain ⟨out, hloop, h⟩ := Transcode.bind_eq_ok.1 h
  obtain ⟨-, -, h⟩ := Transcode.bind_eq_ok.1 h
  cases h
  obtain ⟨hend, hfeed⟩ := Transcode.loop_eq_ok_iff.1 hloop
  have hemit : ∀ n c bs, (look c >>= put size n) = .ok bs →
      ((look c).toOption.bind fun d => some (raw d)) = some bs := by
    intro n c bs hbs
    obtain ⟨d, hd, hbs⟩ := Transcode.bind_eq_ok.1 hbs
    rw [hd, hw.eq_raw hbs]
    rfl
  obtain ⟨more, hmore, ho⟩ := Transcode.encodeAll_of_feed hemit hfeed
  obtain ⟨ds, hds, hmore⟩ := Transcode.encodeAll_bind.1 hmore
  rw [Transcode.encodeAll_total] at hmore
  cases hmore
  exact ⟨_, ds, Prod.ext rfl hend, hds, ho⟩

/-- **A conversion with room succeeds** on an input that splits into codes which are all
translated. -/
theorem convert_of_codes (hw : Writes put raw) (hcodes : r.codes d1 = (cs, none))
    (hlook : cs.mapM (fun c => (look c).toOption) = some ds)
    (hroom : (ds.flatMap raw).length < size) :
    convert r look put d1 size = .ok (ds.flatMap raw) := by
  have hemit : ∀ n c bs, ((look c).toOption.bind fun d => some (raw d)) = some bs →
      n + bs.length < size → (look c >>= put size n) = .ok bs := by
    intro n c bs hbs hn
    obtain ⟨d, hd, hbs⟩ := Option.bind_eq_some_iff.1 hbs
    cases hbs
    rw [Transcode.toOption_eq_some.1 hd]
    exact hw.of_room hn
  have hall : Transcode.encodeAll (fun c => (look c).toOption.bind fun d => some (raw d)) cs =
      some (ds.flatMap raw) :=
    Transcode.encodeAll_bind.2 ⟨ds, hlook, Transcode.encodeAll_total raw ds⟩
  have hfeed : Transcode.feed (fun num c => look c >>= put size num) cs [] =
      .ok ([] ++ ds.flatMap raw) :=
    Transcode.feed_of_encodeAll hemit hall (by simpa using hroom)
  have hloop := (Transcode.loop_eq_ok_iff (r := r) (s := d1)).2
    ⟨by rw [hcodes], by rw [hcodes]; exact hfeed⟩
  unfold convert
  rw [hloop]
  change (storeAt size (ds.flatMap raw).length 0 >>= fun _ => pure (ds.flatMap raw)) = _
  rw [storeAt_of_lt hroom]
  rfl

end Convert

end F1Goal
