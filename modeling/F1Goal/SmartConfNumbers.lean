import F1Goal.Lib.Strtol
import F1Goal.ServerConf

/-!
# The getters of numbers (`f1g_smart_conf.c`)

`smart_conf_get_i32` and its siblings store what `strtol` or `strtoul` returns, in the width of the
result, and then look at `*p_end`; they do not look at `errno`. `exactOrRefused_iff` says for which
texts a number is stored exactly, or refused with `*val` left alone.
-/

namespace F1Goal

open CString

/-! ### The getters -/

/-- What the getters have in common, with the conversion that they call: the code, and what they
leave in `*val`. -/
def getNumber (conv : List UInt8 → ℤ × List UInt8) (c : SmartConf) (sec itemName : List UInt8)
    (dftVal : ℤ) : Code × ℤ :=
  match itemValue c sec itemName with
  | none => (.ok, dftVal)
  | some item =>
    let (n, pEnd) := conv (cstr item.val)
    -- the number has been stored when the end is looked at
    if pEnd ≠ [] then (.err, n) else (.ok, n)

/-- `smart_conf_get_i32` -/
def SmartConf.getI32 : SmartConf → List UInt8 → List UInt8 → ℤ → Code × ℤ :=
  getNumber fun s => (i32 (strtol 10 s).1, (strtol 10 s).2)

/-- `smart_conf_get_u32` -/
def SmartConf.getU32 : SmartConf → List UInt8 → List UInt8 → ℤ → Code × ℤ :=
  getNumber fun s => (u32 (strtoul 10 s).1, (strtoul 10 s).2)

/-- `smart_conf_get_x32` -/
def SmartConf.getX32 : SmartConf → List UInt8 → List UInt8 → ℤ → Code × ℤ :=
  getNumber fun s => (u32 (strtoul 16 s).1, (strtoul 16 s).2)

/-- `smart_conf_get_i64`, with `strtoll`, which is `strtol` where a `long` has 64 bits -/
def SmartConf.getI64 : SmartConf → List UInt8 → List UInt8 → ℤ → Code × ℤ :=
  getNumber fun s => ((strtol 10 s).1, (strtol 10 s).2)

/-- `smart_conf_get_u64`, with `strtoull`, which is `strtoul` likewise -/
def SmartConf.getU64 : SmartConf → List UInt8 → List UInt8 → ℤ → Code × ℤ :=
  getNumber fun s => ((strtoul 10 s).1, (strtoul 10 s).2)

/-- `smart_conf_get_x64` -/
def SmartConf.getX64 : SmartConf → List UInt8 → List UInt8 → ℤ → Code × ℤ :=
  getNumber fun s => ((strtoul 16 s).1, (strtoul 16 s).2)

/-- The getters by the type and the base of their result. -/
inductive Getter
  | i32 | u32 | x32 | i64 | u64 | x64
  deriving DecidableEq, Repr

/-- The function of a getter. -/
def Getter.get : Getter → SmartConf → List UInt8 → List UInt8 → ℤ → Code × ℤ
  | .i32 => SmartConf.getI32
  | .u32 => SmartConf.getU32
  | .x32 => SmartConf.getX32
  | .i64 => SmartConf.getI64
  | .u64 => SmartConf.getU64
  | .x64 => SmartConf.getX64

/-- The base of a getter. -/
def Getter.base : Getter → ℕ
  | .x32 | .x64 => 16
  | _ => 10

/-- The numbers that the type of the result has. -/
def Getter.Fits : Getter → ℤ → Prop
  | .i32, v => -2 ^ 31 ≤ v ∧ v < 2 ^ 31
  | .u32, v | .x32, v => 0 ≤ v ∧ v < 2 ^ 32
  | .i64, v => -2 ^ 63 ≤ v ∧ v < 2 ^ 63
  | .u64, v | .x64, v => 0 ≤ v ∧ v < 2 ^ 64

/-- What becomes of a number: it is brought to 64 bits, and then to the width of the result. -/
def Getter.converted : Getter → ℤ → ℤ
  | .i32, v => F1Goal.i32 (longOf v)
  | .u32, v | .x32, v => ulongOf v % 2 ^ 32
  | .i64, v => longOf v
  | .u64, v | .x64, v => ulongOf v

/-- **Exact or refused**: the text is an integer of the result type, and this is what is stored; or
the code is `F1G_ERR` and `*val` is what it was. -/
def ExactOrRefused (g : Getter) (text : List UInt8) (old : ℤ) (r : Code × ℤ) : Prop :=
  (∃ v, IsInteger g.base text v ∧ g.Fits v ∧ r = (.ok, v)) ∨
    (¬∃ v, IsInteger g.base text v ∧ g.Fits v) ∧ r = (.err, old)

/-- **The condition**: the text is an integer of the result type, or it is no integer and the number
that it starts with becomes what `*val` was. -/
def NumberSafe (g : Getter) (text : List UInt8) (old : ℤ) : Prop :=
  (∃ v, IsInteger g.base text v ∧ g.Fits v) ∨
    (¬∃ v, IsInteger g.base text v) ∧ ∃ v, LeadingNumber g.base text v ∧ g.converted v = old

/-! ### What a getter does -/

theorem Getter.base_le (g : Getter) : g.base ≤ 36 := by
  cases g <;> decide

theorem itemValue_ne_nil {c : SmartConf} {sec itemName : List UInt8} {item : Item}
    (h : itemValue c sec itemName = some item) : cstr item.val ≠ [] :=
  of_decide_eq_true (Option.filter_eq_some_iff.1 h).2

theorem getNumber_some {conv : List UInt8 → ℤ × List UInt8} {c : SmartConf}
    {sec itemName : List UInt8} {item : Item} (hitem : itemValue c sec itemName = some item)
    (dftVal : ℤ) : getNumber conv c sec itemName dftVal =
      (if (conv (cstr item.val)).2 = [] then .ok else .err, (conv (cstr item.val)).1) := by
  rw [getNumber, hitem]
  dsimp only
  rw [ite_not]
  split_ifs <;> rfl

/-- **A getter** stores the number that the text starts with, converted. -/
theorem Getter.get_eq (g : Getter) {c : SmartConf} {sec itemName : List UInt8} {item : Item}
    (hitem : itemValue c sec itemName = some item) (dftVal : ℤ) :
    g.get c sec itemName dftVal =
      (if (readNumber g.base (cstr item.val)).2.2 = [] then .ok else .err,
        g.converted (leading g.base (cstr item.val))) := by
  cases g
  case i32 | i64 =>
    simp only [get, SmartConf.getI32, SmartConf.getI64, getNumber_some hitem, strtol_eq]
    rfl
  case u32 | x32 =>
    simp only [get, SmartConf.getU32, SmartConf.getX32, getNumber_some hitem, F1Goal.u32,
      Int.natCast_mod, (strtoul_eq _ _).1, (strtoul_eq _ _).2]
    rfl
  case u64 | x64 =>
    simp only [get, SmartConf.getU64, SmartConf.getX64, getNumber_some hitem, (strtoul_eq _ _).1,
      (strtoul_eq _ _).2]
    rfl

/-- Without an item, or with an empty one, the default is used. -/
theorem getNumber_none {conv : List UInt8 → ℤ × List UInt8} {c : SmartConf}
    {sec itemName : List UInt8} (hnone : itemValue c sec itemName = none) (dftVal : ℤ) :
    getNumber conv c sec itemName dftVal = (.ok, dftVal) := by
  rw [getNumber, hnone]

/-- The getter that `serv_load` uses. -/
theorem smartConfGetI32_eq (c : SmartConf) (sec itemName : List UInt8) (dftVal : ℤ) :
    smartConfGetI32 c sec itemName dftVal =
      if (c.getI32 sec itemName dftVal).1 = .ok then some (c.getI32 sec itemName dftVal).2
      else none := by
  rw [smartConfGetI32, SmartConf.getI32, getNumber]
  cases itemValue c sec itemName with
  | none => rfl
  | some item =>
    dsimp only
    split_ifs <;> simp_all

/-! ### Conversions -/

theorem longOf_eq_iff (v : ℤ) : longOf v = v ↔ -2 ^ 63 ≤ v ∧ v < 2 ^ 63 := by
  unfold longOf
  omega

theorem ulongOf_eq_iff (v : ℤ) : ulongOf v = v ↔ 0 ≤ v ∧ v < 2 ^ 64 := by
  unfold ulongOf
  rcases abs_cases v with ⟨habs, hv⟩ | ⟨habs, hv⟩
  all_goals
    rw [habs]
    split_ifs <;> omega

/-- What is stored is a number of the result type. -/
theorem Getter.fits_converted (g : Getter) (v : ℤ) : g.Fits (g.converted v) := by
  have hulong : 0 ≤ ulongOf v ∧ ulongOf v < 2 ^ 64 := by
    unfold ulongOf
    split_ifs <;> omega
  cases g
  case i32 => exact isI32_i32 _
  case u32 | x32 =>
    change 0 ≤ ulongOf v % 2 ^ 32 ∧ ulongOf v % 2 ^ 32 < 2 ^ 32
    omega
  case i64 =>
    change -2 ^ 63 ≤ longOf v ∧ longOf v < 2 ^ 63
    unfold longOf
    omega
  case u64 | x64 => exact hulong

/-- A number of the result type is stored as it is. -/
theorem Getter.converted_of_fits (g : Getter) {v : ℤ} (h : g.Fits v) : g.converted v = v := by
  cases g
  case i32 =>
    obtain ⟨hlo, hhi⟩ : -2 ^ 31 ≤ v ∧ v < 2 ^ 31 := h
    change F1Goal.i32 (longOf v) = v
    rw [(longOf_eq_iff v).2 (by omega), i32_of_range hlo hhi]
  case u32 | x32 =>
    obtain ⟨hlo, hhi⟩ : 0 ≤ v ∧ v < 2 ^ 32 := h
    change ulongOf v % 2 ^ 32 = v
    rw [(ulongOf_eq_iff v).2 (by omega)]
    omega
  case i64 => exact (longOf_eq_iff v).2 h
  case u64 | x64 => exact (ulongOf_eq_iff v).2 h

/-- **A conversion is exact** for the numbers of the result type, and for no others. -/
theorem Getter.converted_eq_iff (g : Getter) (v : ℤ) : g.converted v = v ↔ g.Fits v :=
  ⟨fun h => h ▸ g.fits_converted v, g.converted_of_fits⟩

/-! ### Exact or refused -/

/-- **When a number is exact or refused**: its text is an integer of the result type, or it is no
integer and the number that it starts with becomes what `*val` was before. -/
theorem exactOrRefused_iff (g : Getter) {c : SmartConf} {sec itemName : List UInt8} {item : Item}
    (hitem : itemValue c sec itemName = some item) (dftVal old : ℤ) :
    ExactOrRefused g (cstr item.val) old (g.get c sec itemName dftVal) ↔
      NumberSafe g (cstr item.val) old := by
  have hint := isInteger_iff g.base_le (itemValue_ne_nil hitem)
  have hlead := leadingNumber_iff g.base_le (cstr item.val)
  rw [g.get_eq hitem, ExactOrRefused, NumberSafe]
  simp only [hint, hlead, Prod.mk.injEq]
  by_cases hend : (readNumber g.base (cstr item.val)).2.2 = []
  · -- an integer is stored, whether it fits or not
    rw [if_pos hend]
    constructor
    · rintro (⟨v, hv, hfits, -⟩ | ⟨-, hcode, -⟩)
      · exact .inl ⟨v, hv, hfits⟩
      · cases hcode
    · rintro (⟨v, ⟨-, rfl⟩, hfits⟩ | ⟨hno, -⟩)
      · exact .inl ⟨_, ⟨hend, rfl⟩, hfits, rfl, g.converted_of_fits hfits⟩
      · exact absurd ⟨_, hend, rfl⟩ hno
  · -- the number at the start of another text is stored all the same
    rw [if_neg hend]
    constructor
    · rintro (⟨v, ⟨hv, -⟩, -⟩ | ⟨-, -, hold⟩)
      · exact absurd hv hend
      · exact .inr ⟨fun ⟨v, hv, _⟩ => hend hv, _, rfl, hold⟩
    · rintro (⟨v, ⟨hv, -⟩, -⟩ | ⟨-, v, rfl, hold⟩)
      · exact absurd hv hend
      · exact .inr ⟨fun ⟨v, ⟨hv, _⟩, _⟩ => hend hv, rfl, hold⟩

/-- A configuration with one item, which is `n` in the section `s`. -/
def oneNumber (val : List UInt8) : SmartConf :=
  { secNum := 1, secSize := 1
    secs := fun _ =>
      { secName := ascii "s", itemNum := 1, itemSize := 1
        items := fun _ => ⟨ascii "n", val.length, val⟩ } }

theorem exactOrRefused_seven :
    ExactOrRefused .x64 (ascii "0x7") 0 ((oneNumber (ascii "0x7")).getX64 (ascii "s") (ascii "n") 0) ↔
      NumberSafe .x64 (ascii "0x7") 0 :=
  @exactOrRefused_iff .x64 (oneNumber (ascii "0x7")) _ _ ⟨ascii "n", 3, ascii "0x7"⟩ (by decide) 0 0

/-- 2^32 + 1 is stored as 1. -/
theorem number_wraps :
    ¬∀ (g : Getter) (c : SmartConf) (sec itemName : List UInt8) (item : Item),
      itemValue c sec itemName = some item → ∀ dftVal old : ℤ,
        ExactOrRefused g (cstr item.val) old (g.get c sec itemName dftVal) := by
  intro h
  have hget : (oneNumber (ascii "4294967297")).getI32 (ascii "s") (ascii "n") 0 = (.ok, 1) := by
    decide +kernel
  rcases h .i32 (oneNumber (ascii "4294967297")) (ascii "s") (ascii "n")
    ⟨ascii "n", 10, ascii "4294967297"⟩ (by decide) 0 0 with ⟨v, hv, -, hgot⟩ | ⟨-, hgot⟩
  · have hone : (1 : ℤ) = v := congrArg Prod.snd (hget.symm.trans hgot)
    have hlead := ((isInteger_iff Getter.i32.base_le (by decide) v).1 hv).2
    rw [← hone] at hlead
    exact absurd hlead (by decide +kernel)
  · exact absurd (congrArg Prod.fst (hget.symm.trans hgot)) (by decide)

end F1Goal
