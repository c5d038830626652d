import F1Goal.SmartConf

/-!
# The configuration of a server (`f1g_server_conf.h`, `serv_load` of `f1g_server.c`)

`serv_load` reads a configuration file and looks up one item for each field of `server_conf_t`, with
a default where there is none. A number may be any `i32_t`.
-/

namespace F1Goal

open CString

/-- `server_conf_t` -/
structure ServerConf where
  workMode : ℤ
  workerNum : ℤ
  queMode : ℤ
  queSize : ℤ
  queCap : ℤ
  servType : ℤ
  servWin : List UInt8
  accessMode : ℤ
  deriving DecidableEq

/-- The value of an item, unless there is none or it is empty. -/
def itemValue (c : SmartConf) (sec itemName : List UInt8) : Option Item :=
  (findItem c sec itemName).filter fun item => cstr item.val ≠ []

/-- `smart_conf_get_i32`; `none` is `F1G_ERR`. -/
def smartConfGetI32 (c : SmartConf) (sec itemName : List UInt8) (dftVal : ℤ) : Option ℤ :=
  match itemValue c sec itemName with
  | none => some dftVal
  | some item =>
    let (n, pEnd) := strtol 10 (cstr item.val)
    if pEnd ≠ [] then none else some (i32 n)

/-- `smart_conf_get_x32`, the `u32_t` being stored in an `int`; `none` is `F1G_ERR`. -/
def smartConfGetX32 (c : SmartConf) (sec itemName : List UInt8) (dftVal : ℤ) : Option ℤ :=
  match itemValue c sec itemName with
  | none => some dftVal
  | some item =>
    let (n, pEnd) := strtoul 16 (cstr item.val)
    if pEnd ≠ [] then none else some (i32 n)

/-- `smart_conf_get_str`; `none` is `F1G_ERR`. -/
def smartConfGetStr (c : SmartConf) (sec itemName dftVal : List UInt8) (bufSize : ℕ) :
    Option (List UInt8) :=
  match itemValue c sec itemName with
  | none => some (dftVal.take (bufSize - 1))
  | some item => if bufSize ≤ item.valLen then none else some (item.val.take item.valLen)

/-- `SERV_WIN_DESC_SIZE` -/
def servWinDescSize : ℕ := 256

/-- `WK_MODE_MT` -/
def wkModeMt : ℤ := 0x00

/-- `SERV_TYPE_STCP` -/
def servTypeStcp : ℤ := 0x11

/-- `ACCESS_SELECT` -/
def accessSelect : ℤ := 0x00

/-- `serv_load` of a file with this content, where it returns `F1G_OK`. The other parameters are
those of `ini_read`. -/
def servLoad (bufSize : ℕ) (buf : ℤ → UInt8) (want : ℕ → ℕ) (content : List UInt8) :
    Option ServerConf := do
  let out ← iniRead (smartConfInit 4 20) bufSize buf want content
  if out.res ≠ .next then none
  else
    let cfgEng := out.st.conf
    let sys := ascii "sys"
    let workMode ← smartConfGetI32 cfgEng sys (ascii "work_mode") wkModeMt
    let workerNum ← smartConfGetI32 cfgEng sys (ascii "worker_num") 1
    let queMode ← smartConfGetI32 cfgEng sys (ascii "que_mode") 1
    let queSize ← smartConfGetI32 cfgEng sys (ascii "que_size") 512
    let queCap ← smartConfGetI32 cfgEng sys (ascii "que_cap") 1024
    let _servType ← smartConfGetX32 cfgEng sys (ascii "serv_type") servTypeStcp
    let servWin ← smartConfGetStr cfgEng sys (ascii "serv_win") [] servWinDescSize
    -- the access mode is stored in `serv_type`, too
    let servType ← smartConfGetI32 cfgEng sys (ascii "access_mode") accessSelect
    some {
      workMode := workMode, workerNum := workerNum, queMode := queMode, queSize := queSize
      queCap := queCap, servType := servType, servWin := servWin, accessMode := 0 }

/-- A value that can be stored in an `i32_t`. -/
def IsI32 (n : ℤ) : Prop := -2 ^ 31 ≤ n ∧ n < 2 ^ 31

theorem isI32_i32 (n : ℤ) : IsI32 (i32 n) := ⟨le_i32 n, i32_lt n⟩

theorem smartConfGetI32_isI32 {c : SmartConf} {sec itemName : List UInt8} {dftVal n : ℤ}
    (hdft : IsI32 dftVal) (h : smartConfGetI32 c sec itemName dftVal = some n) : IsI32 n := by
  rw [smartConfGetI32] at h
  split at h
  · cases h
    exact hdft
  · dsimp only at h
    split_ifs at h
    cases h
    exact isI32_i32 _

/-- What the fields hold when the settings of `c` have been looked up. -/
structure Loaded (c : SmartConf) (conf : ServerConf) : Prop where
  workMode : smartConfGetI32 c (ascii "sys") (ascii "work_mode") wkModeMt = some conf.workMode
  workerNum : smartConfGetI32 c (ascii "sys") (ascii "worker_num") 1 = some conf.workerNum
  queMode : smartConfGetI32 c (ascii "sys") (ascii "que_mode") 1 = some conf.queMode
  queSize : smartConfGetI32 c (ascii "sys") (ascii "que_size") 512 = some conf.queSize
  queCap : smartConfGetI32 c (ascii "sys") (ascii "que_cap") 1024 = some conf.queCap
  servTypeRead : ∃ n, smartConfGetX32 c (ascii "sys") (ascii "serv_type") servTypeStcp = some n
  servWin : smartConfGetStr c (ascii "sys") (ascii "serv_win") [] servWinDescSize = some conf.servWin
  servType : smartConfGetI32 c (ascii "sys") (ascii "access_mode") accessSelect = some conf.servType
  accessMode : conf.accessMode = 0

theorem servLoad_loaded {bufSize : ℕ} {buf : ℤ → UInt8} {want : ℕ → ℕ} {content : List UInt8}
    {conf : ServerConf} (h : servLoad bufSize buf want content = some conf) :
    ∃ out, iniRead (smartConfInit 4 20) bufSize buf want content = some out ∧ out.res = .next ∧
      Loaded out.st.conf conf := by
  obtain ⟨out, hread, h⟩ := Option.bind_eq_some_iff.1 h
  split_ifs at h with hres
  obtain ⟨workMode, hmode, h⟩ := Option.bind_eq_some_iff.1 h
  obtain ⟨workerNum, hworker, h⟩ := Option.bind_eq_some_iff.1 h
  obtain ⟨queMode, hque, h⟩ := Option.bind_eq_some_iff.1 h
  obtain ⟨queSize, hsize, h⟩ := Option.bind_eq_some_iff.1 h
  obtain ⟨queCap, hcap, h⟩ := Option.bind_eq_some_iff.1 h
  obtain ⟨n, htype, h⟩ := Option.bind_eq_some_iff.1 h
  obtain ⟨servWin, hwin, h⟩ := Option.bind_eq_some_iff.1 h
  obtain ⟨servType, haccess, h⟩ := Option.bind_eq_some_iff.1 h
  cases h
  exact ⟨out, hread, not_ne_iff.1 hres,
    ⟨hmode, hworker, hque, hsize, hcap, ⟨n, htype⟩, hwin, haccess, rfl⟩⟩

/-- **The numbers of a configuration** are 32-bit integers. -/
theorem servLoad_isI32 {bufSize : ℕ} {buf : ℤ → UInt8} {want : ℕ → ℕ} {content : List UInt8}
    {conf : ServerConf} (h : servLoad bufSize buf want content = some conf) :
    IsI32 conf.workerNum ∧ IsI32 conf.queSize ∧ IsI32 conf.queCap := by
  obtain ⟨out, -, -, hloaded⟩ := servLoad_loaded h
  exact ⟨smartConfGetI32_isI32 ⟨by norm_num, by norm_num⟩ hloaded.workerNum,
    smartConfGetI32_isI32 ⟨by norm_num, by norm_num⟩ hloaded.queSize,
    smartConfGetI32_isI32 ⟨by norm_num, by norm_num⟩ hloaded.queCap⟩

/-- Defaults, and a number of workers from the file. -/
example : (servLoad 64 (fun _ => 0) (fun _ => 64) (ascii "[sys]\nworker_num = 4\n")).map
    (fun conf => (conf.workerNum, conf.queSize, conf.queCap)) = some (4, 512, 1024) := by
  decide +kernel

end F1Goal
