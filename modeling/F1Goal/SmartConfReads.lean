import F1Goal.SmartConfSafety

/-!
# Reading a configuration file when `read` falls short or fails

The loop of `ini_read` counts down from the size that `fstat` has seen. A `read` may return fewer
bytes than asked for, none at the end of a file that has shrunk, more in all than the size of a file
that has grown, or fail. A failure is not looked at: the −1 stays in `proc_left`, and the next
`read` goes to the byte before the buffer. The end of the file does not end the loop. `iniEnds_iff`
says for which results of `read` the loop ends, with all reads inside the buffer.
-/

namespace F1Goal

open CString

/-! ### One turn of the loop -/

/-- What a call of `read` does: it returns bytes, none at the end of the file, or it fails. -/
inductive ReadResult
  | bytes (bs : List UInt8)
  | fail
  deriving DecidableEq

/-- How many bytes have been read. -/
def ReadResult.count : ReadResult → ℕ
  | .bytes bs => bs.length
  | .fail => 0

/-- The locals of `ini_read` at the head of the loop; `res` is `next` unless a line has ended the
loop. -/
structure IniLoop where
  buf : ℤ → UInt8
  procLeft : ℤ
  readRemain : ℤ
  readFlag : Bool
  res : IniRes
  st : IniState

/-- The loop takes another turn. -/
def IniLoop.Running (s : IniLoop) : Prop := s.res = .next ∧ 0 < s.readRemain

instance (s : IniLoop) : Decidable s.Running := inferInstanceAs (Decidable (_ ∧ _))

/-- `ini_read` returns `F1G_OK` or `F1G_ERR`. -/
def IniLoop.Returned (s : IniLoop) : Prop := s.res = .err ∨ s.res = .next ∧ s.readRemain ≤ 0

/-- The arguments of a `read`: where it writes to, from the start of the buffer, and how much. -/
structure ReadCall where
  dest : ℤ
  len : ℤ

/-- The `read` of a turn. -/
def IniLoop.call (bufSize : ℕ) (s : IniLoop) : ReadCall := ⟨s.procLeft, bufSize - s.procLeft⟩

/-- **The destination is inside of the buffer** of `bufSize + 1` bytes, and the length is no larger
than the room left there. -/
def ReadCall.Inside (bufSize : ℕ) (c : ReadCall) : Prop :=
  0 ≤ c.dest ∧ 0 ≤ c.len ∧ c.len ≤ bufSize + 1 - c.dest

/-- The buffer when what was left has been moved to its start and `bs` has been read. -/
def IniLoop.filled (bufSize : ℕ) (s : IniLoop) (bs : List UInt8) : ℤ → UInt8 :=
  Mem.store (Mem.store s.buf 0 (Mem.slice s.buf (bufSize - s.procLeft) s.procLeft.toNat))
    s.procLeft bs

/-- `read_flag` when `bs` has been read. -/
def IniLoop.flag (s : IniLoop) (bs : List UInt8) : Bool :=
  s.readFlag || bs = [] || s.readRemain - bs.length = 0

/-- The bytes between `buf` and `buf_end` when `bs` has been read. -/
def IniLoop.window (bufSize : ℕ) (s : IniLoop) (bs : List UInt8) : List UInt8 :=
  Mem.slice (s.filled bufSize bs) 0 bs.length

/-- One turn of `while (read_remain > 0)`. When `read` fails, `buf_end` is before `buf`, and no line
is read. -/
def IniLoop.turn (bufSize : ℕ) (s : IniLoop) : ReadResult → IniLoop
  | .fail => { s with buf := s.filled bufSize [], procLeft := -1 }
  | .bytes bs =>
    let w := s.window bufSize bs
    let r := scanLines (s.flag bs) bs.length [] w s.st
    { buf := endLines (s.flag bs) (s.filled bufSize bs) w
      procLeft := r.2.1
      readRemain := s.readRemain - bs.length
      readFlag := s.flag bs
      res := r.1
      st := r.2.2 }

/-- The blocks that a file is read in are such turns, in which `read` does not fail. -/
theorem readBlocks_succ {bufSize : ℕ} {want : ℕ → ℕ} (fuel i : ℕ) {left : List UInt8} {len : ℕ}
    (buf : ℤ → UInt8) {procLeft : ℕ} (readFlag : Bool) (st : IniState) (hleft : left ≠ [])
    (hlen : readLen (want i) (bufSize - procLeft) left.length = len) :
    let s := IniLoop.turn bufSize ⟨buf, procLeft, left.length, readFlag, .next, st⟩
      (.bytes (left.take len))
    readBlocks bufSize want (fuel + 1) i left buf procLeft readFlag st =
      if s.res = .next then
        readBlocks bufSize want fuel (i + 1) (left.drop len) s.buf s.procLeft.toNat s.readFlag s.st
      else some (s.st.done s.res) := by
  have hle : len ≤ left.length := by
    rw [← hlen]
    unfold readLen
    omega
  have hcount : (left.take len).length = len := by rw [List.length_take, min_eq_left hle]
  have hremain : ((left.length : ℤ) - len = 0) ↔ left.drop len = [] := by
    rw [List.drop_eq_nil_iff]
    omega
  have hzero : left.take len = [] ↔ len = 0 := by
    rw [← List.length_eq_zero_iff, hcount]
  rw [readBlocks, if_neg hleft]
  simp only [hlen, IniLoop.turn, IniLoop.window, IniLoop.filled, IniLoop.flag, hcount, hremain,
    hzero, Int.toNat_natCast]
  rcases scanLines _ _ _ _ _ with ⟨r, pl, st'⟩
  cases r <;> rfl

/-! ### The loop -/

/-- What `ini_read` meets: the sizes that `fstat` gives, the block that `malloc` returns, and what
the calls of `read` do. -/
structure IniReads where
  stSize : ℕ
  bufSize : ℕ
  buf : ℤ → UInt8
  results : ℕ → ReadResult

/-- The loop after `k` turns, or where it has ended before. -/
def IniReads.loop (e : IniReads) (conf : SmartConf) : ℕ → IniLoop
  | 0 => ⟨e.buf, 0, e.stSize, false, .next, iniStart conf⟩
  | k + 1 =>
    let s := e.loop conf k
    if s.Running then s.turn e.bufSize (e.results k) else s

/-- `read` returns at most as many bytes as it is asked for. -/
def IniReads.Legal (e : IniReads) (conf : SmartConf) : Prop :=
  ∀ k, (e.loop conf k).Running →
    ((e.results k).count : ℤ) ≤ ((e.loop conf k).call e.bufSize).len

/-- From some call on, `read` returns 0 or −1 only. -/
def IniReads.RunsDry (e : IniReads) : Prop :=
  ∃ n, ∀ i, n ≤ i → e.results i = .bytes [] ∨ e.results i = .fail

/-- **The reading ends**: `ini_read` returns after finitely many turns, each with one `read`, and
every one of them stays inside of the buffer. -/
structure IniReads.Ends (e : IniReads) (conf : SmartConf) : Prop where
  returned : ∃ k, (e.loop conf k).Returned
  inside : ∀ k, (e.loop conf k).Running → ((e.loop conf k).call e.bufSize).Inside e.bufSize

/-! ### The condition -/

/-- The lines that are read in a window, from the bytes `line` of the first one on: what follows the
last newline is a line at the end of the file only. -/
def linesRead (readFlag : Bool) (line : List UInt8) : List UInt8 → List (List UInt8)
  | [] => if readFlag ∧ line ≠ [] then [line] else []
  | c :: w =>
    if c = 10 then line :: linesRead readFlag [] w else linesRead readFlag (line ++ [c]) w

/-- The lines that are read in a turn. -/
def IniLoop.lines (bufSize : ℕ) (s : IniLoop) : ReadResult → List (List UInt8)
  | .fail => []
  | .bytes bs => linesRead (s.flag bs) [] (s.window bufSize bs)

/-- A section is refused: its name does not fit, no `]` ends it, or there is a section of this name.
`line` is what stands behind the bracket. -/
def SectionRefused (line : List UInt8) (st : IniState) : Prop :=
  let name := line.takeWhile (· ≠ 93)
  (nameSize ≤ name.length ∨ name.length = line.length) ∨ st.growSecs.sameSec name = true

/-- What stands behind the name of an item is refused: it does not begin with `=`, or two blanks or
more, and nothing else, follow the `=`. -/
def ValueRefused (line : List UInt8) : Prop :=
  line.head? ≠ some 61 ∨ ∃ n, 2 ≤ n ∧ line = 61 :: List.replicate n 32

/-- An item of the section `k` is refused: its name does not fit, neither `=` nor a blank ends it,
the section has an item of this name, or its value is refused. -/
def ItemRefused (line : List UInt8) (st : IniState) (k : ℕ) : Prop :=
  let name := line.takeWhile fun c => c ≠ 32 ∧ c ≠ 61
  (nameSize ≤ name.length ∨ name.length = line.length) ∨
    ((st.growItems k).conf.secs k).sameItem (st.growItems k).itemSeq name = true ∨
      ValueRefused (skipSpaces (line.drop name.length))

/-- **A line is refused.** -/
def LineRefused (line : List UInt8) (st : IniState) : Prop :=
  (∃ rest, skipSpaces (cstr line) = 91 :: rest ∧ SectionRefused rest st) ∨
    IsItem line ∧ ∃ k, st.curSec = some k ∧ ItemRefused (skipSpaces (cstr line)) st k

/-- A line is not refused. -/
def Accepted (line : List UInt8) (st : IniState) : Prop := ¬LineRefused line st

/-- The number of bytes in the first `n` results. -/
def IniReads.total (e : IniReads) (n : ℕ) : ℕ := ∑ i ∈ Finset.range n, (e.results i).count

/-- **The condition**: no `read` fails, every line that is reached meets the condition of a line,
and the results bring at least `st_size` bytes, unless a line is refused before. -/
structure IniReads.Suffice (e : IniReads) (conf : SmartConf) : Prop where
  noFail : ∀ k, (e.loop conf k).Running → e.results k ≠ .fail
  lineOk : ∀ k, (e.loop conf k).Running →
    EveryLine LineOk ((e.loop conf k).lines e.bufSize (e.results k)) (e.loop conf k).st
  enough : (∃ n, e.stSize ≤ e.total n) ∨ ∃ k, (e.loop conf k).Running ∧
    ¬EveryLine Accepted ((e.loop conf k).lines e.bufSize (e.results k)) (e.loop conf k).st

/-! ### Which lines are refused -/

/-- `malloc` fails for a value of two blanks or more. -/
theorem valueLen_refused_iff (rest : List UInt8) :
    valueLen (rest.length - (skipSpaces rest).length) (skipSpaces rest) + 1 < 0 ↔
      ∃ n, 2 ≤ n ∧ rest = List.replicate n 32 := by
  unfold valueLen
  split_ifs with hnil
  · rw [hnil, List.length_nil, Nat.sub_zero]
    constructor
    · intro h
      exact ⟨rest.length, by omega, skipSpaces_eq_nil hnil⟩
    · rintro ⟨n, hn, rfl⟩
      rw [List.length_replicate]
      omega
  · refine iff_of_false (by omega) ?_
    rintro ⟨n, -, rfl⟩
    exact hnil (by simp [skipSpaces])

theorem itemOf_err_iff (name line : List UInt8) :
    (itemOf name line).1 = .err ↔ ValueRefused (skipSpaces (line.drop name.length)) := by
  cases hskip : skipSpaces (line.drop name.length) with
  | nil => simp [itemOf, ValueRefused, hskip]
  | cons c rest =>
    have hrefused := valueLen_refused_iff rest
    simp only [itemOf, ValueRefused, hskip]
    split_ifs with hc hneg hlen
    · simp [hc]
    · exact iff_of_true rfl (.inr (by rw [not_not.1 hc]; simpa using hrefused.1 hneg))
    all_goals
      refine iff_of_false (by simp) ?_
      rintro (hhead | ⟨n, hn, heq⟩)
      · exact hhead (by rw [List.head?_cons, not_not.1 hc])
      · exact hneg (hrefused.2 ⟨n, hn, (List.cons.inj heq).2⟩)

/-- The entry that a name is stored to is not one of those that it is compared with. -/
theorem sameSec_setSec (st : IniState) (name : List UInt8) (sec : Sec) :
    (st.setSec st.secSeq sec).sameSec name = st.sameSec name := by
  unfold IniState.sameSec
  rw [Bool.eq_iff_iff, List.any_eq_true, List.any_eq_true]
  refine exists_congr fun i => and_congr_right fun hi => ?_
  have hne : i ≠ st.secSeq := (List.mem_range.1 hi).ne
  simp [IniState.setSec, hne]

/-- A section is refused as the condition says, -/
theorem readSection_err_iff (line : List UInt8) (st : IniState) :
    (readSection line st).1 = .err ↔ SectionRefused line st := by
  unfold readSection SectionRefused
  dsimp only
  rw [sameSec_setSec]
  split_ifs with hname hdup
  · exact iff_of_true rfl (.inl hname)
  · exact iff_of_true rfl (.inr hdup)
  · exact iff_of_false (by simp) (not_or.2 ⟨hname, hdup⟩)

/-- and so is an item. -/
theorem readItem_err_iff {line : List UInt8} {st : IniState} {k : ℕ} (hcur : st.curSec = some k) :
    (readItem line st).1 = .err ↔ ItemRefused line st k := by
  rw [readItem, hcur, ItemRefused]
  dsimp only
  generalize st.growItems k = st₁
  by_cases hname : nameSize ≤ (line.takeWhile fun c => c ≠ 32 ∧ c ≠ 61).length ∨
      (line.takeWhile fun c => c ≠ 32 ∧ c ≠ 61).length = line.length
  · rw [if_pos hname]
    exact iff_of_true rfl (.inl hname)
  rw [if_neg hname, or_iff_right hname]
  by_cases hsame : (st₁.conf.secs k).sameItem st₁.itemSeq
      (line.takeWhile fun c => c ≠ 32 ∧ c ≠ 61) = true
  · rw [if_pos]
    · exact iff_of_true rfl (.inl hsame)
    · exact hsame
  · rw [if_neg, or_iff_right hsame, ← itemOf_err_iff]
    · rcases itemOf (line.takeWhile fun c => c ≠ 32 ∧ c ≠ 61) line with ⟨r, item⟩
      cases r <;> simp
    · exact hsame

/-- **A line is refused** exactly where `F1G_ERR` is returned. -/
theorem readLine_err_iff (line : List UInt8) (st : IniState) :
    (readLine line st).1 = .err ↔ LineRefused line st := by
  unfold LineRefused IsItem
  cases hbody : skipSpaces (cstr line) with
  | nil => simp [readLine, hbody]
  | cons c rest =>
    by_cases hcomment : c = 35
    · simp [readLine, hbody, hcomment]
    by_cases hsec : c = 91
    · simpa [readLine, hbody, hsec] using readSection_err_iff rest st
    simp only [readLine, hbody, hcomment, hsec, if_false]
    cases hcur : st.curSec with
    | none => simp [readItem, hcur, hcomment, hsec]
    | some k => simp [readItem_err_iff hcur, hcomment, hsec]

/-! ### One turn -/

/-- What a window does to the state is what its lines do. -/
theorem scanLines_res (readFlag : Bool) (pl : ℕ) (line w : List UInt8) (st : IniState) :
    (scanLines readFlag pl line w st).1 = (readLines (linesRead readFlag line w) st).1 := by
  induction w generalizing pl line st with
  | nil =>
    rw [scanLines, linesRead]
    by_cases h1 : line = []
    · rw [if_pos h1, if_neg fun h => h.2 h1]
      rfl
    by_cases h2 : readFlag = true
    · rw [if_neg h1, if_pos h2, if_pos ⟨h2, h1⟩, readLines]
      rcases readLine line st with ⟨r, st'⟩
      cases r <;> rfl
    · rw [if_neg h1, if_neg h2, if_neg fun h => h2 h.1]
      rfl
  | cons c w ih =>
    rw [scanLines, linesRead]
    split_ifs with hc
    · rw [readLines]
      rcases readLine line st with ⟨r, st'⟩
      cases r with
      | next => exact ih _ _ _
      | err => rfl
      | fault => rfl
    · exact ih _ _ _

/-- What is left of a window is at most its last newline. -/
theorem scanLines_procLeft {readFlag : Bool} {pl N : ℕ} {line w : List UInt8} {st : IniState}
    (hpl : w = [] → line = [] → pl ≤ N) (hw : w ≠ [] → 1 ≤ N)
    (h : (scanLines readFlag pl line w st).1 = .next) :
    (scanLines readFlag pl line w st).2.1 ≤ N := by
  induction w generalizing pl line st with
  | nil =>
    rw [scanLines]
    split_ifs with h1 h2
    · exact hpl rfl h1
    · exact Nat.zero_le N
    · exact Nat.zero_le N
  | cons c w ih =>
    have hN := hw (List.cons_ne_nil c w)
    rw [scanLines] at h ⊢
    split_ifs at h ⊢ with hc
    · rcases hr : readLine line st with ⟨r, st'⟩
      rw [hr] at h
      cases r with
      | next => exact ih (fun hnil _ => by rw [hnil]; exact hN) (fun _ => hN) h
      | err => cases h
      | fault => cases h
    · exact ih (fun _ hnil => absurd hnil (by simp)) (fun _ => hN) h

variable {bufSize : ℕ} {s : IniLoop}

/-- How a turn ends is how its lines do, -/
theorem turn_res_iff {r : IniRes} {P : List UInt8 → IniState → Prop} (hr : r ≠ .next)
    (h : ∀ line st, (readLine line st).1 = r ↔ ¬P line st) (got : ReadResult)
    (hs : s.res = .next) :
    (s.turn bufSize got).res = r ↔ ¬EveryLine P (s.lines bufSize got) s.st := by
  cases got with
  | fail => simp [IniLoop.turn, IniLoop.lines, EveryLine, hs, hr.symm]
  | bytes bs =>
    change (scanLines _ _ _ _ _).1 = _ ↔ _
    rw [scanLines_res, readLines_res_iff hr h]
    rfl

/-- with a fault when one of them does not meet the condition, -/
theorem turn_fault_iff (got : ReadResult) (hs : s.res = .next) :
    (s.turn bufSize got).res = .fault ↔ ¬EveryLine LineOk (s.lines bufSize got) s.st :=
  turn_res_iff (by decide)
    (fun line st => (readLine_fault_iff line st).trans (not_congr (lineSafe_iff line st))) got hs

/-- and with `F1G_ERR` when one of them is refused. -/
theorem turn_err_iff (got : ReadResult) (hs : s.res = .next) :
    (s.turn bufSize got).res = .err ↔ ¬EveryLine Accepted (s.lines bufSize got) s.st :=
  turn_res_iff (by decide) (fun line st => (readLine_err_iff line st).trans not_not.symm) got hs

theorem turn_readRemain (got : ReadResult) :
    (s.turn bufSize got).readRemain = s.readRemain - got.count := by
  cases got with
  | fail => simp [IniLoop.turn, ReadResult.count]
  | bytes bs => rfl

/-! ### Runs -/

variable {e : IniReads} {conf : SmartConf}

theorem loop_succ_running {k : ℕ} (h : (e.loop conf k).Running) :
    e.loop conf (k + 1) = (e.loop conf k).turn e.bufSize (e.results k) := if_pos h

theorem loop_succ_ended {k : ℕ} (h : ¬(e.loop conf k).Running) :
    e.loop conf (k + 1) = e.loop conf k := if_neg h

theorem IniLoop.Returned.not_running {s : IniLoop} (h : s.Returned) : ¬s.Running := by
  rintro ⟨hnext, hpos⟩
  rcases h with herr | ⟨-, hle⟩
  · rw [hnext] at herr
    cases herr
  · omega

/-- A loop that has ended stays as it is. -/
theorem loop_ended {k : ℕ} (h : ¬(e.loop conf k).Running) (j : ℕ) :
    e.loop conf (k + j) = e.loop conf k := by
  induction j with
  | zero => rfl
  | succ j ih =>
    have hj : ¬(e.loop conf (k + j)).Running := by rwa [ih]
    rw [← Nat.add_assoc, loop_succ_ended hj, ih]

/-- A turn is taken after all the turns before it. -/
theorem running_of_succ {k : ℕ} (h : (e.loop conf (k + 1)).Running) : (e.loop conf k).Running := by
  by_contra hk
  rw [loop_succ_ended hk] at h
  exact hk h

theorem running_of_le {j k : ℕ} (hle : j ≤ k) (h : (e.loop conf k).Running) :
    (e.loop conf j).Running := by
  induction k with
  | zero => rwa [Nat.le_zero.1 hle]
  | succ k ih =>
    rcases Nat.of_le_succ hle with hlt | rfl
    · exact ih hlt (running_of_succ h)
    · exact h

/-- As long as no `read` fails, at most one byte is left, and the loop has counted what was read. -/
structure IniReads.Counted (e : IniReads) (k : ℕ) (s : IniLoop) : Prop where
  nonneg : 0 ≤ s.procLeft
  le_one : s.procLeft ≤ 1
  le_bufSize : s.procLeft ≤ e.bufSize
  remain : s.readRemain = e.stSize - e.total k

/-- The step: a turn in which `read` does not fail. -/
theorem counted_turn {k : ℕ} (hc : e.Counted k s) (hfail : e.results k ≠ .fail)
    (hlegal : ((e.results k).count : ℤ) ≤ (s.call e.bufSize).len)
    (hnext : (s.turn e.bufSize (e.results k)).res = .next) :
    e.Counted (k + 1) (s.turn e.bufSize (e.results k)) := by
  have hremain : (s.turn e.bufSize (e.results k)).readRemain = e.stSize - e.total (k + 1) := by
    rw [turn_readRemain, hc.remain, IniReads.total, IniReads.total, Finset.sum_range_succ]
    push_cast
    ring
  rcases hr : e.results k with bs | -
  · rw [hr] at hlegal hnext hremain
    have hlen : (bs.length : ℤ) ≤ e.bufSize - s.procLeft := hlegal
    have hwin : (s.window e.bufSize bs).length = bs.length := Mem.length_slice _ _ _
    obtain ⟨left, hleft, hmin⟩ : ∃ left : ℕ,
        (s.turn e.bufSize (.bytes bs)).procLeft = left ∧ left ≤ min 1 bs.length := by
      refine ⟨_, rfl, scanLines_procLeft (fun hnil _ => ?_) (fun hne => ?_) hnext⟩
      · have hzero : bs.length = 0 := by rw [← hwin, hnil, List.length_nil]
        omega
      · have hpos := List.length_pos_iff.2 hne
        omega
    have h0 := hc.nonneg
    exact ⟨by omega, by omega, by omega, hremain⟩
  · exact absurd hr hfail

/-- The run. -/
theorem running_counted (hfail : ∀ k, (e.loop conf k).Running → e.results k ≠ .fail)
    (hlegal : e.Legal conf) {k : ℕ} (h : (e.loop conf k).Running) :
    e.Counted k (e.loop conf k) := by
  induction k with
  | zero =>
    refine ⟨le_rfl, zero_le_one, Nat.cast_nonneg _, ?_⟩
    simp [IniReads.loop, IniReads.total]
  | succ k ih =>
    have hk := running_of_succ h
    have hnext := h.1
    rw [loop_succ_running hk] at hnext ⊢
    exact counted_turn (ih hk) (hfail k hk) (hlegal k hk) hnext

/-- A loop that returns has read enough, or a line has been refused. -/
theorem enough_of_returned (hfail : ∀ k, (e.loop conf k).Running → e.results k ≠ .fail)
    (hlegal : e.Legal conf) {k : ℕ} (h : (e.loop conf k).Returned) :
    (∃ n, e.stSize ≤ e.total n) ∨ ∃ k, (e.loop conf k).Running ∧
      ¬EveryLine Accepted ((e.loop conf k).lines e.bufSize (e.results k)) (e.loop conf k).st := by
  induction k with
  | zero =>
    rcases h with herr | ⟨-, hle⟩
    · cases herr
    · refine .inl ⟨0, ?_⟩
      have hsize : (e.stSize : ℤ) ≤ 0 := hle
      omega
  | succ k ih =>
    by_cases hk : (e.loop conf k).Running
    · rw [loop_succ_running hk] at h
      rcases h with herr | ⟨-, hle⟩
      · exact .inr ⟨k, hk, (turn_err_iff _ hk.1).1 herr⟩
      · refine .inl ⟨k + 1, ?_⟩
        rw [turn_readRemain, (running_counted hfail hlegal hk).remain] at hle
        rw [IniReads.total, Finset.sum_range_succ]
        rw [IniReads.total] at hle
        omega
    · rw [loop_succ_ended hk] at h
      exact ih h

theorem loop_ne_fault (hline : ∀ k, (e.loop conf k).Running →
      EveryLine LineOk ((e.loop conf k).lines e.bufSize (e.results k)) (e.loop conf k).st)
    (k : ℕ) : (e.loop conf k).res ≠ .fault := by
  induction k with
  | zero =>
    intro h
    cases h
  | succ k ih =>
    by_cases hk : (e.loop conf k).Running
    · rw [loop_succ_running hk, Ne, turn_fault_iff _ hk.1]
      exact not_not.2 (hline k hk)
    · rwa [loop_succ_ended hk]

theorem returned_of_ended {s : IniLoop} (h : ¬s.Running) (hf : s.res ≠ .fault) : s.Returned := by
  rcases hres : s.res with _ | _ | _
  · refine .inr ⟨hres, ?_⟩
    by_contra hpos
    exact h ⟨hres, not_le.1 hpos⟩
  · exact .inl hres
  · exact absurd hres hf

/-- The results are enough for the loop to end. -/
theorem exists_ended (h : e.Suffice conf) (hlegal : e.Legal conf) :
    ∃ k, ¬(e.loop conf k).Running := by
  rcases h.enough with ⟨n, hn⟩ | ⟨k, hk, hrefused⟩
  · refine ⟨n, fun hrun => ?_⟩
    have hremain := (running_counted h.noFail hlegal hrun).remain
    have hpos := hrun.2
    omega
  · refine ⟨k + 1, fun hrun => ?_⟩
    have hnext := hrun.1
    rw [loop_succ_running hk, (turn_err_iff _ hk.1).2 hrefused] at hnext
    cases hnext

/-- A `read` that fails is followed by one before the buffer. -/
theorem not_fail_of_inside
    (h : ∀ k, (e.loop conf k).Running → ((e.loop conf k).call e.bufSize).Inside e.bufSize) (k : ℕ)
    (hk : (e.loop conf k).Running) : e.results k ≠ .fail := by
  intro hr
  have hnext : e.loop conf (k + 1) = _ := loop_succ_running hk
  rw [hr] at hnext
  have hcall := h (k + 1) (by rw [hnext]; exact hk)
  rw [hnext] at hcall
  have hneg : (0 : ℤ) ≤ -1 := hcall.1
  omega

/-- A loop that returns has no fault in any of its turns. -/
theorem turn_ne_fault {n k : ℕ} (hreturned : (e.loop conf n).Returned)
    (hk : (e.loop conf k).Running) :
    ((e.loop conf k).turn e.bufSize (e.results k)).res ≠ .fault := by
  intro hfault
  rw [← loop_succ_running hk] at hfault
  have hended : ¬(e.loop conf (k + 1)).Running := by
    rintro ⟨hnext, -⟩
    rw [hfault] at hnext
    cases hnext
  rcases Nat.lt_or_ge k n with hlt | hge
  · obtain ⟨j, rfl⟩ := Nat.exists_eq_add_of_le (Nat.succ_le_of_lt hlt)
    rw [loop_ended hended, IniLoop.Returned, hfault] at hreturned
    simp at hreturned
  · exact hreturned.not_running (running_of_le hge hk)

/-- **The reading ends** exactly when the results suffice. -/
theorem iniEnds_iff (e : IniReads) (conf : SmartConf) (hlegal : e.Legal conf) :
    e.Ends conf ↔ e.Suffice conf := by
  constructor
  · rintro ⟨⟨n, hreturned⟩, hinside⟩
    have hfail := not_fail_of_inside hinside
    refine ⟨hfail, fun k hk => ?_, enough_of_returned hfail hlegal hreturned⟩
    exact not_not.1 (mt (turn_fault_iff _ hk.1).2 (turn_ne_fault hreturned hk))
  · intro h
    obtain ⟨k, hk⟩ := exists_ended h hlegal
    refine ⟨⟨k, returned_of_ended hk (loop_ne_fault h.lineOk k)⟩, fun k hk => ?_⟩
    have hc := running_counted h.noFail hlegal hk
    have h0 := hc.nonneg
    have h1 := hc.le_bufSize
    simp only [ReadCall.Inside, IniLoop.call]
    omega

/-- A file with a section and an item, in one read. -/
theorem iniEnds_iff_section :
    IniReads.Ends ⟨8, 64, fun _ => 0, fun k => .bytes (if k = 0 then ascii "[s]\na=1\n" else [])⟩
        (smartConfInit 1 1) ↔
      IniReads.Suffice ⟨8, 64, fun _ => 0,
        fun k => .bytes (if k = 0 then ascii "[s]\na=1\n" else [])⟩ (smartConfInit 1 1) := by
  refine iniEnds_iff _ _ fun k hk => ?_
  rcases k with _ | k
  · decide
  · rw [Nat.add_comm, loop_ended (by decide)] at hk
    exact absurd hk (by decide)

/-- Without a `read` that brings bytes, nothing is refused. -/
theorem not_ends_of_empty {e : IniReads} {conf : SmartConf} (hsize : 0 < e.stSize)
    (hempty : ∀ k, e.results k = .bytes []) (hlegal : e.Legal conf) : ¬e.Ends conf := by
  rintro ⟨⟨k, hk⟩, -⟩
  have hfail : ∀ k, (e.loop conf k).Running → e.results k ≠ .fail := by
    intro k _ h
    rw [hempty] at h
    cases h
  rcases enough_of_returned hfail hlegal hk with ⟨n, hn⟩ | ⟨j, -, hj⟩
  · have hzero : e.total n = 0 := by simp [IniReads.total, hempty, ReadResult.count]
    omega
  · rw [hempty] at hj
    exact hj (by simp [IniLoop.lines, IniLoop.window, linesRead, EveryLine])

/-- **A `read` that fails**: the next one is given the byte before the buffer. **A file that has
shrunk**: the loop reads on at its end for ever. -/
theorem reading_goes_wrong :
    (IniReads.RunsDry ⟨1, 4, fun _ => 0, fun _ => .fail⟩ ∧
      IniReads.Legal ⟨1, 4, fun _ => 0, fun _ => .fail⟩ (smartConfInit 1 1) ∧
      ¬IniReads.Ends ⟨1, 4, fun _ => 0, fun _ => .fail⟩ (smartConfInit 1 1)) ∧
    IniReads.RunsDry ⟨1, 4, fun _ => 0, fun _ => .bytes []⟩ ∧
      IniReads.Legal ⟨1, 4, fun _ => 0, fun _ => .bytes []⟩ (smartConfInit 1 1) ∧
      ¬IniReads.Ends ⟨1, 4, fun _ => 0, fun _ => .bytes []⟩ (smartConfInit 1 1) := by
  have hlegal {got : ReadResult} (hgot : got = .fail ∨ got = .bytes []) :
      IniReads.Legal ⟨1, 4, fun _ => 0, fun _ => got⟩ (smartConfInit 1 1) := by
    have hleft (k : ℕ) : (IniReads.loop ⟨1, 4, fun _ => 0, fun _ => got⟩
        (smartConfInit 1 1) k).procLeft ≤ 0 := by
      induction k with
      | zero => exact le_rfl
      | succ k ih =>
        rw [IniReads.loop]
        dsimp only
        split_ifs
        · rcases hgot with rfl | rfl
          · simp [IniLoop.turn]
          · simp [IniLoop.turn, IniLoop.window, scanLines]
        · exact ih
    have hcount : got.count = 0 := by rcases hgot with rfl | rfl <;> rfl
    intro k _
    have hk := hleft k
    simp only [hcount, IniLoop.call]
    omega
  refine ⟨⟨⟨0, fun _ _ => .inr rfl⟩, hlegal (.inl rfl), fun h => ?_⟩,
    ⟨0, fun _ _ => .inl rfl⟩, hlegal (.inr rfl),
    not_ends_of_empty (by decide) (fun _ => rfl) (hlegal (.inr rfl))⟩
  exact absurd (h.inside 1 (by decide)).1 (by decide)

end F1Goal
