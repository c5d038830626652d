import F1Goal.SmartConfNumbers
import F1Goal.SmartConfSame

/-!
# Where the settings of a server come from (`serv_load`)

`serv_load` looks up one key of the section `sys` for each field, and stores the value of
`access_mode` in `serv_type`, over the value of `serv_type`; the field `access_mode` keeps the zero
of `memset`. `settings_iff` says for which files every field has the value of its own key.
-/

namespace F1Goal

open CString

/-! ### Settings -/

/-- A file, and the way in which it is read. -/
structure ConfFile where
  bufSize : ℕ
  buf : ℤ → UInt8
  want : ℕ → ℕ
  content : List UInt8

/-- `serv_load` -/
def ConfFile.load (f : ConfFile) : Option ServerConf :=
  servLoad f.bufSize f.buf f.want f.content

/-- The sections that the text of the file stands for. -/
def ConfFile.sections (f : ConfFile) : List Section := (specLines (lines f.content) []).2

/-- The first `read` returns the whole file. -/
def ConfFile.OneRead (f : ConfFile) : Prop :=
  readLen (f.want 0) f.bufSize f.content.length = f.content.length

instance (f : ConfFile) : Decidable f.OneRead := inferInstanceAs (Decidable (_ = _))

/-- **A file that is read as its text says**: it comes in one read, or is safe to cut and has lines
that are shorter than a block; and every section finds room in the array of four sections. -/
structure ConfFile.Plain (f : ConfFile) : Prop where
  whole : f.OneRead ∨ SafeToCut f.content ∧ ∀ line ∈ lines f.content, line.length < f.bufSize
  fit : HeadersFit 4 (lines f.content) []

/-- The fields of `server_conf_t`. -/
inductive Setting
  | workMode | workerNum | queMode | queSize | queCap | servType | servWin | accessMode
  deriving DecidableEq, Repr

/-- The key of the same name. -/
def Setting.key : Setting → List UInt8
  | .workMode => ascii "work_mode"
  | .workerNum => ascii "worker_num"
  | .queMode => ascii "que_mode"
  | .queSize => ascii "que_size"
  | .queCap => ascii "que_cap"
  | .servType => ascii "serv_type"
  | .servWin => ascii "serv_win"
  | .accessMode => ascii "access_mode"

/-- What a field holds. -/
inductive FieldValue
  | number (n : ℤ)
  | text (s : List UInt8)
  deriving DecidableEq

/-- The field of a setting. -/
def Setting.field (conf : ServerConf) : Setting → FieldValue
  | .workMode => .number conf.workMode
  | .workerNum => .number conf.workerNum
  | .queMode => .number conf.queMode
  | .queSize => .number conf.queSize
  | .queCap => .number conf.queCap
  | .servType => .number conf.servType
  | .servWin => .text conf.servWin
  | .accessMode => .number conf.accessMode

/-- The value of a key of the section `sys`, unless the key is missing or empty. -/
def textValue (secs : List Section) (key : List UInt8) : Option Item :=
  (findIn secs (ascii "sys") key).filter fun item => cstr item.val ≠ []

/-- The key has this value: it is the integer that its text is, or the default when there is no
text. -/
def KeyNumber (secs : List Section) (s : Setting) (base : ℕ) (dftVal v : ℤ) : Prop :=
  match textValue secs s.key with
  | none => v = dftVal
  | some item => IsInteger base (cstr item.val) v

/-- The key has this text, or the default is used. -/
def KeyText (secs : List Section) (s : Setting) (dftVal text : List UInt8) : Prop :=
  match textValue secs s.key with
  | none => text = dftVal
  | some item => text = item.val.take item.valLen

/-- **A field has the value of its own key**, or its default. -/
def OwnValue (secs : List Section) (conf : ServerConf) (s : Setting) : Prop :=
  match s with
  | .workMode => KeyNumber secs s 10 wkModeMt conf.workMode
  | .workerNum => KeyNumber secs s 10 1 conf.workerNum
  | .queMode => KeyNumber secs s 10 1 conf.queMode
  | .queSize => KeyNumber secs s 10 512 conf.queSize
  | .queCap => KeyNumber secs s 10 1024 conf.queCap
  | .servType => KeyNumber secs s 16 servTypeStcp conf.servType
  | .servWin => KeyText secs s [] conf.servWin
  | .accessMode => KeyNumber secs s 10 accessSelect conf.accessMode

/-- **Two results that differ at most in the field of a key.** -/
def DifferOnlyIn (key : List UInt8) (conf conf' : ServerConf) : Prop :=
  ∀ s : Setting, fold s.key ≠ fold key → s.field conf = s.field conf'

/-- **Two files that differ in the value of one key** of `sys`: one of their lines does. -/
def DifferInValue (key : List UInt8) (f f' : ConfFile) : Prop :=
  LinesDiffer (ascii "sys") key (lines f.content) (lines f'.content)

/-! ### The condition -/

/-- The key is not `access_mode`, or its two values are the same as an `i32_t`. -/
def AccessAgrees (key : List UInt8) (ss ts : List Section) : Prop :=
  fold key = fold Setting.accessMode.key →
    ∃ v v', KeyNumber ss .accessMode 10 accessSelect v ∧
      KeyNumber ts .accessMode 10 accessSelect v' ∧
        Getter.i32.converted v = Getter.i32.converted v'

/-- The numbers are in the range of an `i32_t`, and those of `serv_type` and `access_mode` are 0. -/
structure OwnNumbers (secs : List Section) : Prop where
  workMode : ∀ v, KeyNumber secs .workMode 10 wkModeMt v → IsI32 v
  workerNum : ∀ v, KeyNumber secs .workerNum 10 1 v → IsI32 v
  queMode : ∀ v, KeyNumber secs .queMode 10 1 v → IsI32 v
  queSize : ∀ v, KeyNumber secs .queSize 10 512 v → IsI32 v
  queCap : ∀ v, KeyNumber secs .queCap 10 1024 v → IsI32 v
  servType : KeyNumber secs .servType 16 servTypeStcp 0
  accessMode : KeyNumber secs .accessMode 10 accessSelect 0

/-! ### One file -/

section Numbers

variable {c c' : SmartConf} {secs ss ts : List Section} {s : Setting}

/-- A key has one value. -/
theorem KeyNumber.unique {base : ℕ} (hbase : base ≤ 36) {dftVal v v' : ℤ}
    (h : KeyNumber secs s base dftVal v) (h' : KeyNumber secs s base dftVal v') : v = v' := by
  rw [KeyNumber] at h h'
  cases hitem : textValue secs s.key with
  | none =>
    rw [hitem] at h h'
    exact Eq.trans h (Eq.symm h')
  | some item =>
    rw [hitem] at h h'
    have hne : cstr item.val ≠ [] := of_decide_eq_true (Option.filter_eq_some_iff.1 hitem).2
    have hint := isInteger_iff hbase hne
    exact ((hint v).1 h).2.trans ((hint v').1 h').2.symm

/-- The arrays hold the sections. -/
def SmartConf.HasSections (c : SmartConf) (secs : List Section) : Prop :=
  c.live c.secNum = secs

theorem SmartConf.HasSections.itemValue (h : c.HasSections secs) (key : List UInt8) :
    itemValue c (ascii "sys") key = textValue secs key := by
  rw [F1Goal.itemValue, findItem_eq, textValue, ← h]

/-- **What is looked up** is the value of the key, converted. -/
theorem exists_keyNumber (hc : c.HasSections secs) {dftVal n : ℤ} (hdft : IsI32 dftVal)
    (h : smartConfGetI32 c (ascii "sys") s.key dftVal = some n) :
    ∃ v, KeyNumber secs s 10 dftVal v ∧ Getter.i32.converted v = n := by
  rw [smartConfGetI32_eq] at h
  simp only [KeyNumber, ← hc.itemValue]
  cases hitem : itemValue c (ascii "sys") s.key with
  | none =>
    have hget : c.getI32 (ascii "sys") s.key dftVal = (.ok, dftVal) := getNumber_none hitem dftVal
    rw [hget, if_pos rfl] at h
    exact ⟨dftVal, rfl, (Getter.i32.converted_of_fits hdft).trans (Option.some.inj h)⟩
  | some item =>
    have hget := Getter.i32.get_eq hitem dftVal
    change c.getI32 (ascii "sys") s.key dftVal = _ at hget
    rw [hget] at h
    by_cases hend : (readNumber Getter.i32.base (cstr item.val)).2.2 = []
    · rw [if_pos hend, if_pos rfl] at h
      exact ⟨_, (isInteger_iff (by decide) (itemValue_ne_nil hitem) _).2 ⟨hend, rfl⟩,
        Option.some.inj h⟩
    · rw [if_neg hend, if_neg (fun hcode => nomatch hcode)] at h
      cases h

/-- A field has the value of its key exactly when this is in the range. -/
theorem keyNumber_iff (hc : c.HasSections secs) {dftVal n : ℤ} (hdft : IsI32 dftVal)
    (h : smartConfGetI32 c (ascii "sys") s.key dftVal = some n) :
    KeyNumber secs s 10 dftVal n ↔ ∀ v, KeyNumber secs s 10 dftVal v → IsI32 v := by
  obtain ⟨v, hv, hn⟩ := exists_keyNumber hc hdft h
  constructor
  · intro hown v' hv'
    obtain rfl := hv'.unique (by decide) hown
    obtain rfl := hv.unique (by decide) hown
    exact (Getter.i32.converted_eq_iff v).1 hn
  · intro hfits
    rw [(Getter.i32.converted_of_fits (hfits v hv)).symm.trans hn] at hv
    exact hv

/-- The text of a setting is copied as it is. -/
theorem keyText_of_get (hc : c.HasSections secs) {dftVal text : List UInt8} {bufSize : ℕ}
    (hdft : dftVal.length < bufSize)
    (h : smartConfGetStr c (ascii "sys") s.key dftVal bufSize = some text) :
    KeyText secs s dftVal text := by
  rw [smartConfGetStr] at h
  simp only [KeyText, ← hc.itemValue]
  cases hitem : itemValue c (ascii "sys") s.key with
  | none =>
    rw [hitem] at h
    rw [← Option.some.inj h]
    exact List.take_of_length_le (by omega)
  | some item =>
    rw [hitem] at h
    dsimp only at h
    split_ifs at h
    exact (Option.some.inj h).symm

/-- **Every field has the value of its own key** exactly under the condition. -/
theorem Loaded.ownValue_iff {conf : ServerConf} (h : Loaded c conf) (hc : c.HasSections secs) :
    (∀ s, OwnValue secs conf s) ↔ OwnNumbers secs := by
  have hmode := keyNumber_iff hc (s := .workMode) ⟨by decide, by decide⟩ h.workMode
  have hworker := keyNumber_iff hc (s := .workerNum) ⟨by norm_num, by norm_num⟩ h.workerNum
  have hque := keyNumber_iff hc (s := .queMode) ⟨by norm_num, by norm_num⟩ h.queMode
  have hsize := keyNumber_iff hc (s := .queSize) ⟨by norm_num, by norm_num⟩ h.queSize
  have hcap := keyNumber_iff hc (s := .queCap) ⟨by norm_num, by norm_num⟩ h.queCap
  have hwin : KeyText secs .servWin [] conf.servWin := keyText_of_get hc (by decide) h.servWin
  obtain ⟨v, hv, hn⟩ := exists_keyNumber hc (s := .accessMode) ⟨by decide, by decide⟩ h.servType
  constructor
  · intro hown
    have haccess : KeyNumber secs .accessMode 10 accessSelect 0 := h.accessMode ▸ hown .accessMode
    have hzero : conf.servType = 0 := by
      rw [← hn, hv.unique (by decide) haccess]
      rfl
    exact ⟨hmode.1 (hown .workMode), hworker.1 (hown .workerNum), hque.1 (hown .queMode),
      hsize.1 (hown .queSize), hcap.1 (hown .queCap), hzero ▸ hown .servType, haccess⟩
  · intro hnum s
    have hzero : conf.servType = 0 := by
      rw [← hn, hv.unique (by decide) hnum.accessMode]
      rfl
    cases s with
    | workMode => exact hmode.2 hnum.workMode
    | workerNum => exact hworker.2 hnum.workerNum
    | queMode => exact hque.2 hnum.queMode
    | queSize => exact hsize.2 hnum.queSize
    | queCap => exact hcap.2 hnum.queCap
    | servType =>
      change KeyNumber secs .servType 16 servTypeStcp conf.servType
      rw [hzero]
      exact hnum.servType
    | servWin => exact hwin
    | accessMode =>
      change KeyNumber secs .accessMode 10 accessSelect conf.accessMode
      rw [h.accessMode]
      exact hnum.accessMode

/-! ### Two files -/

/-- The getters look at nothing but the item. -/
theorem getters_congr {sec itemName : List UInt8}
    (h : itemValue c sec itemName = itemValue c' sec itemName) (dftVal : ℤ) (dftText : List UInt8)
    (bufSize : ℕ) :
    smartConfGetI32 c sec itemName dftVal = smartConfGetI32 c' sec itemName dftVal ∧
      smartConfGetStr c sec itemName dftText bufSize =
        smartConfGetStr c' sec itemName dftText bufSize := by
  rw [smartConfGetI32, smartConfGetI32, smartConfGetStr, smartConfGetStr, h]
  exact ⟨rfl, rfl⟩

/-- **Two configurations that differ in the value of one key** give fields that differ in this one
at most, under the condition. -/
theorem Loaded.differOnlyIn_iff {key : List UInt8} {conf conf' : ServerConf} (h : Loaded c conf)
    (h' : Loaded c' conf') (hc : c.HasSections ss) (hc' : c'.HasSections ts)
    (hsame : SameBut (ascii "sys") key ss ts) :
    DifferOnlyIn key conf conf' ↔ AccessAgrees key ss ts := by
  have hvalue {s : Setting} (hs : fold s.key ≠ fold key) :
      itemValue c (ascii "sys") s.key = itemValue c' (ascii "sys") s.key := by
    rw [hc.itemValue, hc'.itemValue, textValue, textValue, hsame.findIn hs]
  have hnumber {s : Setting} (hs : fold s.key ≠ fold key) {dftVal n n' : ℤ}
      (hn : smartConfGetI32 c (ascii "sys") s.key dftVal = some n)
      (hn' : smartConfGetI32 c' (ascii "sys") s.key dftVal = some n') : n = n' := by
    rw [(getters_congr (hvalue hs) dftVal [] 0).1, hn'] at hn
    exact (Option.some.inj hn).symm
  obtain ⟨v, hv, hn⟩ := exists_keyNumber hc (s := .accessMode) ⟨by decide, by decide⟩ h.servType
  obtain ⟨v', hv', hn'⟩ :=
    exists_keyNumber hc' (s := .accessMode) ⟨by decide, by decide⟩ h'.servType
  constructor
  · intro honly hkey
    have hother : fold Setting.servType.key ≠ fold key := by
      rw [hkey]
      decide
    have hfield := honly .servType hother
    exact ⟨v, v', hv, hv', hn.trans ((FieldValue.number.inj hfield).trans hn'.symm)⟩
  · intro hagrees s hs
    have hservType : conf.servType = conf'.servType := by
      by_cases hkey : fold key = fold Setting.accessMode.key
      · obtain ⟨w, w', hw, hw', heq⟩ := hagrees hkey
        rw [← hn, ← hn', hv.unique (by decide) hw, hv'.unique (by decide) hw', heq]
      · exact hnumber (s := .accessMode) (Ne.symm hkey) h.servType h'.servType
    cases s with
    | workMode => exact congrArg _ (hnumber hs h.workMode h'.workMode)
    | workerNum => exact congrArg _ (hnumber hs h.workerNum h'.workerNum)
    | queMode => exact congrArg _ (hnumber hs h.queMode h'.queMode)
    | queSize => exact congrArg _ (hnumber hs h.queSize h'.queSize)
    | queCap => exact congrArg _ (hnumber hs h.queCap h'.queCap)
    | servType => exact congrArg _ hservType
    | servWin =>
      have hget := h.servWin
      rw [show ascii "serv_win" = Setting.servWin.key from rfl,
        (getters_congr (hvalue hs) 0 [] servWinDescSize).2] at hget
      exact congrArg _ (Option.some.inj (hget.symm.trans h'.servWin))
    | accessMode => exact congrArg _ (h.accessMode.trans h'.accessMode.symm)

end Numbers

/-! ### Files -/

/-- **A plain file that is accepted** is read into the sections of its text. -/
theorem ConfFile.loaded {f : ConfFile} {conf : ServerConf} (hplain : f.Plain)
    (h : f.load = some conf) :
    (specLines (lines f.content) []).1 = .next ∧
      ∃ c, Loaded c conf ∧ c.HasSections f.sections := by
  obtain ⟨out, hread, hres, hloaded⟩ := servLoad_loaded h
  have hfit : HeadersFit (4 : ℤ).toNat (lines f.content) [] := hplain.fit
  obtain ⟨hcode, -, hlive, -⟩ := scanWhole_fit 20 (by decide) hfit
  have hresult : out.result = (scanWhole (smartConfInit 4 20) f.content).result := by
    rcases hplain.whole with hone | ⟨hsafe, hshort⟩
    · rw [iniRead_eq_scanWhole _ _ _ _ _ hone] at hread
      rw [Option.some.inj hread]
    · have hagree := blocksAgree_of_safe hsafe 4 20 f.bufSize f.buf f.want hshort
      rw [hread, iniReadWhole_eq] at hagree
      exact Option.some.inj hagree
  have hnext : (specLines (lines f.content) []).1 = .next :=
    hcode.symm.trans ((congrArg Prod.fst hresult).symm.trans hres)
  rw [if_pos hnext] at hlive
  exact ⟨hnext, _, hloaded, (congrArg Prod.snd hresult).trans hlive⟩

/-- **When each setting comes from its own key**, in files that are read as their text says: a value
of `access_mode` that is another `i32_t` changes `serv_type`, and no other value changes the field
of another key; the fields have the values of their own keys exactly when the numbers are in the
range and `serv_type` and `access_mode` are 0. -/
theorem settings_iff (key : List UInt8) {f f' : ConfFile} {conf conf' : ServerConf}
    (hplain : f.Plain) (hplain' : f'.Plain) (hload : f.load = some conf)
    (hload' : f'.load = some conf') :
    (DifferInValue key f f' →
        (DifferOnlyIn key conf conf' ↔ AccessAgrees key f.sections f'.sections)) ∧
      ((∀ s, OwnValue f.sections conf s) ↔ OwnNumbers f.sections) := by
  obtain ⟨hnext, c, hloaded, hc⟩ := f.loaded hplain hload
  obtain ⟨hnext', c', hloaded', hc'⟩ := f'.loaded hplain' hload'
  refine ⟨fun hdiffer => ?_, hloaded.ownValue_iff hc⟩
  exact hloaded.differOnlyIn_iff hloaded' hc hc' (hdiffer.sameBut hnext hnext')

/-- A file with a value of `access_mode`, which is read at once. -/
def accessFile (value : String) : ConfFile :=
  ⟨64, fun _ => 0, fun _ => 64, ascii "[sys]\naccess_mode = " ++ ascii value⟩

/-- What it is read into. -/
def accessConf (n : ℤ) : ServerConf :=
  { workMode := 0, workerNum := 1, queMode := 1, queSize := 512, queCap := 1024, servType := n
    servWin := [], accessMode := 0 }

theorem accessFile_lines (value : String) (h : value ∈ ["0", "1"]) :
    lines (accessFile value).content = [ascii "[sys]", ascii "access_mode = " ++ ascii value] := by
  revert value
  decide +kernel

theorem accessFile_plain (value : String) (h : value ∈ ["0", "1"]) : (accessFile value).Plain where
  whole := .inl (by revert value; decide)
  fit := by rw [accessFile_lines value h]; revert value; decide +kernel

theorem accessFile_load (value : String) (h : value ∈ ["0", "1"]) :
    (accessFile value).load = some (accessConf (if value = "0" then 0 else 1)) := by
  revert value
  decide +kernel

/-- `access_mode = 0` and `access_mode = 1` -/
theorem accessFiles_differ :
    DifferInValue (ascii "access_mode") (accessFile "0") (accessFile "1") := by
  have hkey : KeyLines (ascii "access_mode") (ascii "access_mode = 0") (ascii "access_mode = 1") :=
    ⟨by decide, by decide, by decide, by decide⟩
  rw [DifferInValue, accessFile_lines "0" (by decide), accessFile_lines "1" (by decide)]
  exact ⟨[ascii "[sys]"], _, _, [], rfl, rfl, hkey, (ascii "sys", []), rfl, rfl⟩

theorem settings_iff_poll :
    (DifferOnlyIn (ascii "access_mode") (accessConf 0) (accessConf 1) ↔
        AccessAgrees (ascii "access_mode") (accessFile "0").sections (accessFile "1").sections) ∧
      ((∀ s, OwnValue (accessFile "0").sections (accessConf 0) s) ↔
        OwnNumbers (accessFile "0").sections) := by
  obtain ⟨htwo, hone⟩ := settings_iff (ascii "access_mode") (accessFile_plain "0" (by decide))
    (accessFile_plain "1" (by decide)) (accessFile_load "0" (by decide))
    (accessFile_load "1" (by decide))
  exact ⟨htwo accessFiles_differ, hone⟩

/-- The access mode ends up in `serv_type`. -/
theorem accessMode_misplaced :
    ¬((∀ (key : List UInt8) (f f' : ConfFile) (conf conf' : ServerConf), f.load = some conf →
        f'.load = some conf' → DifferInValue key f f' → DifferOnlyIn key conf conf') ∧
      ∀ (f : ConfFile) (conf : ServerConf), f.load = some conf →
        ∀ s, OwnValue f.sections conf s) := by
  rintro ⟨h, -⟩
  have honly := h (ascii "access_mode") (accessFile "0") (accessFile "1") _ _
    (accessFile_load "0" (by decide)) (accessFile_load "1" (by decide)) accessFiles_differ
  exact absurd (honly .servType (by decide)) (by decide)

end F1Goal
