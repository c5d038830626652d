import F1Goal.BasicTypes
import F1Goal.Lib.Lts
import F1Goal.Lib.Printf

/-!
# The log (`f1g_log.c`)

`f1g_log_write` prints a text behind those that are pending in the buffer, up to the limit of a
write. A text that does not fit there is printed again to the empty buffer, which grows when the
text is longer. `F1gLog.total` is what the log stands for: the bytes passed to `write()`, and those
pending. `log_safe_iff` says for which texts it is what was logged. `write()` is complete, and
`malloc` succeeds when the size is not negative.
-/

namespace F1Goal

open Printf

/-- `f1g_log_t`; `written` are the bytes passed to `write()` so far, and `fault` says that a byte
has been stored, or read by `write()`, outside of the buffer. -/
structure F1gLog where
  bufSize : ℤ
  buf : ℤ → UInt8
  dataLen : ℤ
  wSzLimit : ℤ
  written : List UInt8
  fault : Bool

/-- `f1g_log_init` -/
def f1gLogInit (bufSize limit : ℤ) : F1gLog :=
  { bufSize := bufSize, buf := fun _ => 0, dataLen := 0, wSzLimit := limit, written := []
    fault := false }

/-- `f1g_log_extern_buf` -/
def f1gLogExternBuf (log : F1gLog) (extBufSize : ℤ) : F1gLog :=
  if extBufSize < 0 then log
  else { log with
    buf :=
      if 0 < log.dataLen then Mem.store (fun _ => 0) 0 (Mem.slice log.buf 0 log.dataLen.toNat)
      else fun _ => 0
    bufSize := extBufSize
    wSzLimit := extBufSize - 1024 }

/-- `write(fd, buf, data_len); data_len = 0;` -/
def F1gLog.flush (log : F1gLog) : F1gLog :=
  { log with
    written := log.written ++ Mem.slice log.buf 0 log.dataLen.toNat
    fault := log.fault || decide (log.bufSize < log.dataLen)
    dataLen := 0 }

/-- `vsnprintf(buf + data_len, cap, fmt, argp)` -/
def F1gLog.print (log : F1gLog) (cap : ℤ) (text : List UInt8) : F1gLog :=
  { log with
    buf := snprintf log.buf log.dataLen (sizeT cap) text
    fault := log.fault || decide (log.bufSize < log.dataLen + stored (sizeT cap) text) }

/-- A call: with the empty format, or with a format that gives this text, whose length is an
`int`. -/
inductive LogCall
  | flush
  | text (bs : List UInt8) (len_lt : bs.length < 2 ^ 31)

/-- `data_len += len;` and a write when the limit is reached. -/
def F1gLog.advance (log : F1gLog) (len : ℤ) : F1gLog :=
  let log := { log with dataLen := log.dataLen + len }
  if log.wSzLimit ≤ log.dataLen then log.flush else log

/-- `f1g_log_write` -/
def f1gLogWrite (log : F1gLog) : LogCall → F1gLog
  | .flush => log.flush
  | .text bs _ =>
    let len : ℤ := bs.length
    let cap := log.wSzLimit - log.dataLen
    let log := log.print cap bs
    if cap < len then
      let log := log.flush
      let cap := log.bufSize - log.dataLen
      -- `cap` stays that of the old buffer
      let log := if cap < len then f1gLogExternBuf log (i32 (len + 1024)) else log
      (log.print cap bs).advance len
    else log.advance len

/-- `f1g_log_destroy` -/
def f1gLogDestroy (log : F1gLog) : F1gLog := if 0 < log.dataLen then log.flush else log

/-! ### What is logged -/

/-- A log, and the texts logged so far. -/
structure LogState where
  log : F1gLog
  texts : List UInt8

/-- The text of a call. -/
def LogCall.bytes : LogCall → List UInt8
  | .flush => []
  | .text bs _ => bs

def logStep (s : LogState) (c : LogCall) : Option LogState :=
  some { log := f1gLogWrite s.log c, texts := s.texts ++ c.bytes }

/-- **The file is the sequence of the texts**, when the log is destroyed now, and no byte has been
stored outside of the buffer. -/
def LogSafe (s : LogState) : Prop :=
  (f1gLogDestroy s.log).written = s.texts ∧ (f1gLogDestroy s.log).fault = false

/-! ### The condition -/

/-- The place that a text is printed to in the end: what is left up to the limit, if the text is not
longer, or the buffer. -/
def F1gLog.room (log : F1gLog) (len : ℕ) : ℤ :=
  if (len : ℤ) ≤ log.wSzLimit - log.dataLen then log.wSzLimit - log.dataLen else log.bufSize

/-- **The condition on a call**: the text is shorter than its place, or zeros are all that is cut
off it; and when the buffer has to grow, its new size is an `int`. -/
def LogOk (s : LogState) : LogCall → Prop
  | .flush => True
  | .text bs _ =>
    CutZeros (s.log.room bs.length).toNat bs ∧
      (s.log.bufSize < (bs.length : ℤ) → 0 ≤ i32 ((bs.length : ℤ) + 1024))

instance (s : LogState) : ∀ c, Decidable (LogOk s c)
  | .flush => .isTrue trivial
  | .text _ _ => inferInstanceAs (Decidable (_ ∧ _))

/-! ### What the log stands for -/

/-- The bytes passed to `write()`, and those pending. -/
def F1gLog.total (log : F1gLog) : List UInt8 :=
  log.written ++ Mem.slice log.buf 0 log.dataLen.toNat

/-- What holds between the calls. -/
structure LogGood (s : LogState) : Prop where
  limit_pos : 1 ≤ s.log.wSzLimit
  limit_le : s.log.wSzLimit ≤ s.log.bufSize
  size_lt : s.log.bufSize < 2 ^ 31
  len_nonneg : 0 ≤ s.log.dataLen
  len_lt : s.log.dataLen < s.log.wSzLimit
  total : s.log.total = s.texts
  fault : s.log.fault = false

/-- A log that has advanced is safe when the bytes up to there are those logged, and inside of the
buffer. -/
theorem logSafe_advance_iff {log : F1gLog} {len : ℤ} {texts : List UInt8} (hsize : 0 ≤ log.bufSize)
    (hlen : 0 ≤ log.dataLen + len) :
    LogSafe ⟨log.advance len, texts⟩ ↔
      log.written ++ Mem.slice log.buf 0 (log.dataLen + len).toNat = texts ∧ log.fault = false ∧
        log.dataLen + len ≤ log.bufSize := by
  have hend : ∀ n : ℤ, (log.fault || decide (log.bufSize < n)) = false ↔
      log.fault = false ∧ n ≤ log.bufSize := by
    intro n
    rw [Bool.or_eq_false_iff, decide_eq_false_iff_not, not_lt]
  unfold LogSafe f1gLogDestroy F1gLog.advance
  dsimp only
  split_ifs with hfull hpos hpos
  · exact absurd hpos (lt_irrefl 0)
  · rw [F1gLog.flush]
    dsimp only
    rw [hend]
  · rw [F1gLog.flush]
    dsimp only
    rw [hend]
  · dsimp only at hpos ⊢
    have hzero : log.dataLen + len = 0 := by omega
    rw [hzero, Int.toNat_zero, Mem.slice_zero, List.append_nil]
    tauto

/-- What an advance leaves between the calls. -/
theorem logGood_advance {log : F1gLog} {len : ℤ} {texts : List UInt8} (hlimit : 1 ≤ log.wSzLimit)
    (hle : log.wSzLimit ≤ log.bufSize) (hsize : log.bufSize < 2 ^ 31) (hlen : 0 ≤ log.dataLen + len)
    (hsafe : LogSafe ⟨log.advance len, texts⟩) : LogGood ⟨log.advance len, texts⟩ := by
  obtain ⟨htotal, hfault, hin⟩ := (logSafe_advance_iff (by omega) hlen).1 hsafe
  unfold F1gLog.advance
  dsimp only
  split_ifs with hfull
  · exact ⟨hlimit, hle, hsize, le_rfl, hlimit, by simpa [F1gLog.total, F1gLog.flush] using htotal,
      by simpa [F1gLog.flush, hfault] using hin⟩
  · exact ⟨hlimit, hle, hsize, hlen, not_le.1 hfull, htotal, hfault⟩

/-! ### One call -/

section Fields

variable (log : F1gLog) (cap : ℤ) (bs : List UInt8)

@[simp] theorem F1gLog.print_bufSize : (log.print cap bs).bufSize = log.bufSize := rfl
@[simp] theorem F1gLog.print_dataLen : (log.print cap bs).dataLen = log.dataLen := rfl
@[simp] theorem F1gLog.print_wSzLimit : (log.print cap bs).wSzLimit = log.wSzLimit := rfl
@[simp] theorem F1gLog.flush_dataLen : log.flush.dataLen = 0 := rfl

/-- Writing the pending bytes does not change what the log stands for. -/
@[simp] theorem F1gLog.total_flush : log.flush.total = log.total := by
  simp [total, flush]

theorem F1gLog.fault_flush : log.flush.fault = (log.fault || decide (log.bufSize < log.dataLen)) :=
  rfl

end Fields

/-- The bytes of the log with a text of this length printed behind those pending are these, and all
that has been stored and is to be written is inside of the buffer. -/
def F1gLog.Prints (log : F1gLog) (len : ℕ) (bytes : List UInt8) : Prop :=
  log.written ++ Mem.slice log.buf 0 (log.dataLen + len).toNat = bytes ∧ log.fault = false ∧
    log.dataLen + len ≤ log.bufSize

theorem fault_print {log : F1gLog} {cap : ℤ} {bs : List UInt8} (hpos : 0 < cap)
    (hcap : cap < 2 ^ 31) (hin : log.dataLen + cap ≤ log.bufSize) :
    (log.print cap bs).fault = log.fault := by
  have hstored := stored_le cap.toNat bs
  have hend : ¬ log.bufSize < log.dataLen + stored cap.toNat bs := by omega
  rw [F1gLog.print, sizeT_of_range hpos.le (by omega)]
  simp only [hend, decide_false, Bool.or_false]

/-- **A text that is no longer than its place** is printed behind the pending bytes, unless it loses
its end. -/
theorem print_prints_iff {log : F1gLog} {cap : ℤ} {bs : List UInt8} (h0 : 0 ≤ log.dataLen)
    (hpos : 0 < cap) (hcap : cap < 2 ^ 31) (hin : log.dataLen + cap ≤ log.bufSize)
    (hfault : log.fault = false) (hle : (bs.length : ℤ) ≤ cap) :
    (log.print cap bs).Prints bs.length (log.total ++ bs) ↔ CutZeros cap.toNat bs := by
  have hbefore : Mem.slice (log.print cap bs).buf 0 log.dataLen.toNat =
      Mem.slice log.buf 0 log.dataLen.toNat :=
    Mem.slice_congr fun i hi => snprintf_of_lt (by omega)
  have htext : Mem.slice (log.print cap bs).buf log.dataLen bs.length = bs ↔
      CutZeros cap.toNat bs := by
    rw [F1gLog.print, sizeT_of_range hpos.le (by omega), slice_snprintf_iff (by omega),
      cutZeros_iff (by omega) (by omega)]
  have hsplit : (log.dataLen + bs.length).toNat = log.dataLen.toNat + bs.length := by omega
  have hall : (log.print cap bs).written ++
      Mem.slice (log.print cap bs).buf 0 (log.dataLen + bs.length).toNat =
        log.total ++ Mem.slice (log.print cap bs).buf log.dataLen bs.length := by
    rw [hsplit, Mem.slice_add, hbefore, zero_add, Int.toNat_of_nonneg h0, F1gLog.total,
      List.append_assoc]
    rfl
  rw [← htext]
  constructor
  · rintro ⟨hbytes, -⟩
    exact List.append_cancel_left (hall.symm.trans hbytes)
  · intro heq
    refine ⟨hall.trans (by rw [heq]), (fault_print hpos hcap hin).trans hfault, ?_⟩
    change log.dataLen + bs.length ≤ log.bufSize
    omega

theorem f1gLogExternBuf_fields (log : F1gLog) {n : ℤ} (h : 0 ≤ n) :
    (f1gLogExternBuf log n).bufSize = n ∧ (f1gLogExternBuf log n).wSzLimit = n - 1024 ∧
      (f1gLogExternBuf log n).dataLen = log.dataLen := by
  rw [f1gLogExternBuf, if_neg (not_lt.2 h)]
  exact ⟨rfl, rfl, rfl⟩

/-- **A text that is longer than the buffer** is printed to a new one, up to the size of the old
one. -/
theorem print_grown_iff {log : F1gLog} {bs : List UInt8} (hzero : log.dataLen = 0)
    (hpos : 0 < log.bufSize) (hsize : log.bufSize < 2 ^ 31) (hlong : log.bufSize < bs.length)
    (hlt : bs.length < 2 ^ 31) (hfault : log.fault = false)
    (hext : 0 ≤ i32 ((bs.length : ℤ) + 1024)) :
    i32 ((bs.length : ℤ) + 1024) = bs.length + 1024 ∧
      (((f1gLogExternBuf log (bs.length + 1024)).print log.bufSize bs).Prints bs.length
        (log.written ++ bs) ↔ CutZeros log.bufSize.toNat bs) := by
  have hgrown : i32 ((bs.length : ℤ) + 1024) = bs.length + 1024 :=
    i32_of_nonneg (by omega) (by omega) hext
  refine ⟨hgrown, ?_⟩
  have hnew : f1gLogExternBuf log (bs.length + 1024) = { log with
      buf := fun _ => 0, bufSize := bs.length + 1024
      wSzLimit := bs.length + 1024 - 1024 } := by
    rw [f1gLogExternBuf, if_neg (by omega), if_neg (by omega)]
  have hstored := stored_le log.bufSize.toNat bs
  have hend : ¬ (bs.length : ℤ) + 1024 < stored log.bufSize.toNat bs := by omega
  rw [hnew, F1gLog.Prints, F1gLog.print, sizeT_of_range hpos.le (by omega)]
  simp only [hzero, hend, decide_false, hfault, Bool.or_false, zero_add, Int.toNat_natCast,
    List.append_cancel_left_eq, true_and]
  rw [slice_snprintf_zeros (by omega)]
  exact and_iff_left (by omega)

/-- Printing behind the pending bytes does not change what the log stands for. -/
theorem total_print {log : F1gLog} (cap : ℤ) (bs : List UInt8) (h0 : 0 ≤ log.dataLen) :
    (log.print cap bs).total = log.total :=
  congrArg (log.written ++ ·) (Mem.slice_congr fun i hi => snprintf_of_lt (by
    rw [F1gLog.print_dataLen] at hi
    omega))

/-- **The second printing**, to the buffer that has been emptied, and that grows when the text is
longer. -/
theorem print_emptied (log : F1gLog) {texts bs : List UInt8} (hlimit : 1 ≤ log.wSzLimit)
    (hle : log.wSzLimit ≤ log.bufSize) (hsize : log.bufSize < 2 ^ 31) (hzero : log.dataLen = 0)
    (htotal : log.total = texts) (hfault : log.fault = false) (hlt : bs.length < 2 ^ 31) :
    ∃ log₁ : F1gLog,
      (if log.bufSize < (bs.length : ℤ) then f1gLogExternBuf log (i32 (bs.length + 1024))
        else log).print log.bufSize bs = log₁ ∧
      (1 ≤ log₁.wSzLimit ∧ log₁.wSzLimit ≤ log₁.bufSize ∧ log₁.bufSize < 2 ^ 31 ∧
        0 ≤ log₁.dataLen) ∧
      (log₁.Prints bs.length (texts ++ bs) ↔ CutZeros log.bufSize.toNat bs ∧
        (log.bufSize < (bs.length : ℤ) → 0 ≤ i32 ((bs.length : ℤ) + 1024))) := by
  by_cases hlong : log.bufSize < (bs.length : ℤ)
  · rw [if_pos hlong]
    by_cases hext : i32 ((bs.length : ℤ) + 1024) < 0
    · -- the buffer does not grow
      rw [f1gLogExternBuf, if_pos hext]
      refine ⟨_, rfl, ⟨hlimit, hle, hsize, hzero.ge⟩, iff_of_false (fun h => ?_) fun h => ?_⟩
      · have hend := h.2.2
        rw [F1gLog.print_dataLen, F1gLog.print_bufSize] at hend
        omega
      · exact absurd (h.2 hlong) (not_le.2 hext)
    · obtain ⟨hgrown, hiff⟩ :=
        print_grown_iff hzero (by omega) hsize hlong hlt hfault (not_lt.1 hext)
      have htotal' : log.total = log.written := by
        rw [F1gLog.total, hzero, Int.toNat_zero, Mem.slice_zero, List.append_nil]
      have hlt' := i32_lt ((bs.length : ℤ) + 1024)
      rw [hgrown] at hlt' ⊢
      obtain ⟨hgsize, hglimit, hglen⟩ := f1gLogExternBuf_fields log
        (show 0 ≤ (bs.length : ℤ) + 1024 by omega)
      refine ⟨_, rfl, ?_, ?_⟩
      · rw [F1gLog.print_wSzLimit, F1gLog.print_bufSize, F1gLog.print_dataLen, hgsize, hglimit,
          hglen, hzero]
        omega
      · rw [← htotal, htotal', hiff]
        exact (and_iff_left fun _ => by omega).symm
  · rw [if_neg hlong]
    refine ⟨_, rfl, ⟨hlimit, hle, hsize, hzero.ge⟩, ?_⟩
    rw [← htotal, print_prints_iff hzero.ge (by omega) hsize (by omega) hfault (not_lt.1 hlong)]
    exact (and_iff_left fun h => absurd h hlong).symm

/-- **A call with a text** advances a log whose bytes are those logged exactly when the call meets
the condition. -/
theorem f1gLogWrite_text {s : LogState} (h : LogGood s) {bs : List UInt8}
    (hlt : bs.length < 2 ^ 31) :
    ∃ log₁ : F1gLog, f1gLogWrite s.log (.text bs hlt) = log₁.advance bs.length ∧
      (1 ≤ log₁.wSzLimit ∧ log₁.wSzLimit ≤ log₁.bufSize ∧ log₁.bufSize < 2 ^ 31 ∧
        0 ≤ log₁.dataLen) ∧
      (log₁.Prints bs.length (s.texts ++ bs) ↔ LogOk s (.text bs hlt)) := by
  obtain ⟨hlimit, hle, hsize, hlen0, hlen, htotal, hfault⟩ := h
  have hpos : 0 < s.log.wSzLimit - s.log.dataLen := by omega
  have hcap : s.log.wSzLimit - s.log.dataLen < 2 ^ 31 := by omega
  have hin : s.log.dataLen + (s.log.wSzLimit - s.log.dataLen) ≤ s.log.bufSize := by omega
  simp only [f1gLogWrite, LogOk, F1gLog.room]
  by_cases hfit : (bs.length : ℤ) ≤ s.log.wSzLimit - s.log.dataLen
  · -- the text goes behind the pending ones
    refine ⟨_, if_neg (not_lt.2 hfit), ⟨hlimit, hle, hsize, hlen0⟩, ?_⟩
    rw [if_pos hfit, ← htotal, print_prints_iff hlen0 hpos hcap hin hfault hfit]
    exact (and_iff_left fun hlong => absurd hlong (by omega)).symm
  -- the pending texts are written, and the text is printed to the start of the buffer
  have hempty : (s.log.print (s.log.wSzLimit - s.log.dataLen) bs).flush.total = s.texts := by
    rw [F1gLog.total_flush, total_print _ _ hlen0, htotal]
  have hnofault : (s.log.print (s.log.wSzLimit - s.log.dataLen) bs).flush.fault = false := by
    have hend : ¬ s.log.bufSize < s.log.dataLen := by omega
    rw [F1gLog.fault_flush, fault_print hpos hcap hin, hfault]
    simp [hend]
  rw [if_pos (not_le.1 hfit), if_neg hfit, F1gLog.flush_dataLen, sub_zero]
  obtain ⟨log₁, hprint, hlog₁⟩ :=
    print_emptied (s.log.print _ bs).flush hlimit hle hsize rfl hempty hnofault hlt
  exact ⟨log₁, congrArg (F1gLog.advance · _) hprint, hlog₁⟩

/-! ### Runs -/

theorem logSafe_of_good {s : LogState} (h : LogGood s) : LogSafe s := by
  obtain ⟨hlimit, hle, -, hlen0, hlen, htotal, hfault⟩ := h
  unfold LogSafe f1gLogDestroy
  split_ifs with hpos
  · have hend : ¬ s.log.bufSize < s.log.dataLen := by omega
    refine ⟨htotal, ?_⟩
    rw [F1gLog.fault_flush, hfault]
    simp [hend]
  · have hzero : s.log.dataLen = 0 := by omega
    refine ⟨?_, hfault⟩
    rw [← htotal, F1gLog.total, hzero, Int.toNat_zero, Mem.slice_zero, List.append_nil]

theorem logGood_flush {s : LogState} (h : LogGood s) :
    LogGood ⟨s.log.flush, s.texts ++ LogCall.flush.bytes⟩ := by
  obtain ⟨hlimit, hle, hsize, hlen0, hlen, htotal, hfault⟩ := h
  have hend : ¬ s.log.bufSize < s.log.dataLen := by omega
  refine ⟨hlimit, hle, hsize, le_rfl, hlimit, ?_, ?_⟩
  · rw [F1gLog.total_flush, htotal, LogCall.bytes, List.append_nil]
  · rw [F1gLog.fault_flush, hfault]
    simp [hend]

theorem logStep_safe_iff {s t : LogState} {c : LogCall} (h : LogGood s)
    (hst : logStep s c = some t) :
    LogSafe t ↔ LogOk s c := by
  cases hst
  cases c with
  | flush => exact iff_of_true (logSafe_of_good (logGood_flush h)) trivial
  | text bs hlt =>
    obtain ⟨log₁, hwrite, ⟨hlimit, hle, hsize, hlen0⟩, hiff⟩ := f1gLogWrite_text h hlt
    rw [hwrite, ← hiff]
    exact logSafe_advance_iff (by omega) (by omega)

theorem logStep_good {s t : LogState} {c : LogCall} (h : LogGood s) (hst : logStep s c = some t)
    (hsafe : LogSafe t) : LogGood t := by
  cases hst
  cases c with
  | flush => exact logGood_flush h
  | text bs hlt =>
    obtain ⟨log₁, hwrite, ⟨hlimit, hle, hsize, hlen0⟩, -⟩ := f1gLogWrite_text h hlt
    rw [hwrite] at hsafe ⊢
    exact logGood_advance hlimit hle hsize (by omega) hsafe

/-- **The log file is the sequence of the texts**, at each moment of a run, exactly when every call
meets the condition. -/
theorem log_safe_iff {bufSize limit : ℤ} (hlimit : 1 ≤ limit) (hle : limit ≤ bufSize)
    (hsize : bufSize < 2 ^ 31) (calls : List LogCall) :
    Lts.SafePrefixes logStep LogSafe ⟨f1gLogInit bufSize limit, []⟩ calls ↔
      Lts.Guarded logStep LogOk ⟨f1gLogInit bufSize limit, []⟩ calls := by
  have hgood : LogGood ⟨f1gLogInit bufSize limit, []⟩ :=
    ⟨hlimit, hle, hsize, le_rfl, hlimit, rfl, rfl⟩
  exact Lts.safe_prefixes_iff_guarded LogGood (fun _ _ _ => logStep_safe_iff)
    (fun _ _ _ => logStep_good) hgood (logSafe_of_good hgood) calls

/-- A text, a flush and a longer text. -/
theorem log_safe_ab :
    Lts.SafePrefixes logStep LogSafe ⟨f1gLogInit 8 4, []⟩
        [.text [97] (by decide), .flush, .text [97, 98, 99, 100, 101] (by decide)] ↔
      Lts.Guarded logStep LogOk ⟨f1gLogInit 8 4, []⟩
        [.text [97] (by decide), .flush, .text [97, 98, 99, 100, 101] (by decide)] :=
  log_safe_iff (by decide) (by decide) (by decide) _

/-- **A text that is as long as the limit** loses its last byte. -/
theorem log_cuts_text :
    Lts.run logStep ⟨f1gLogInit 8 4, []⟩ [.text [97, 98, 99, 100] (by decide)] =
        some ⟨f1gLogWrite (f1gLogInit 8 4) (.text [97, 98, 99, 100] (by decide)),
          [97, 98, 99, 100]⟩ ∧
      (f1gLogDestroy (f1gLogWrite (f1gLogInit 8 4)
        (.text [97, 98, 99, 100] (by decide)))).written = [97, 98, 99, 0] ∧
      ¬ Lts.SafePrefixes logStep LogSafe ⟨f1gLogInit 8 4, []⟩
        [.text [97, 98, 99, 100] (by decide)] := by
  refine ⟨rfl, by decide, fun h => ?_⟩
  have hsafe := h _ (List.prefix_refl _) _ rfl
  exact absurd hsafe.1 (by decide)

end F1Goal
