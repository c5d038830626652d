import F1Goal.SmartConf

/-!
# Reading a configuration file block by block

What a block ends with, behind its last newline, has to be carried over to the next block.
`ini_read` takes `proc_left` for its length, but by then `p_proc` has passed it; and the next block
ends at `buf + len`, as if nothing had been carried over. So the beginning of a line is dropped when
the block ends in the line, and when it ends behind a newline a byte of the block of memory is read
in place of one of the file. `blocks_agree_iff` says which files are read alike in all ways, and
that any other file is read right when the first `read` returns it as a whole, or returns a line
that is refused.
-/

namespace F1Goal

open CString

/-- `ini_read` when the whole file comes in one read. -/
def iniReadWhole (conf : SmartConf) (content : List UInt8) : Option IniOut :=
  iniRead conf content.length (fun _ => 0) (fun _ => content.length) content

/-- The code that `ini_read` returns, and the sections that are there to be looked up. -/
def IniOut.result (o : IniOut) : IniRes × List Section := (o.res, o.st.conf.live o.st.conf.secNum)

/-- The file is read as it is in one read, in blocks of every size above its longest line, however
`read` cuts it, and whatever the sizes of the arrays are and the block of memory held. -/
def BlocksAgree (content : List UInt8) : Prop :=
  ∀ (secSize itemSize : ℤ) (bufSize : ℕ) (buf : ℤ → UInt8) (want : ℕ → ℕ),
    (∀ line ∈ lines content, line.length < bufSize) →
      (iniRead (smartConfInit secSize itemSize) bufSize buf want content).map IniOut.result =
        (iniReadWhole (smartConfInit secSize itemSize) content).map IniOut.result

/-- The bytes `c` that may stand before the last byte `z` of a file. -/
def MayPrecede (z c : UInt8) : Prop :=
  -- nothing but blanks and comments
  if z = 0 ∨ z = 10 ∨ z = 32 ∨ z = 35 then c = 0 ∨ c = 32 ∨ c = 35
  -- a section that is not closed
  else if z = 91 then c = 32 ∨ c = 91
  -- an item before the first section
  else c ≠ 0 ∧ c ≠ 10 ∧ c ≠ 35 ∧ c ≠ 91

/-- A file of which every end reads as the file does. -/
def SafeToCut (content : List UInt8) : Prop :=
  ∀ z ∈ content.getLast?, ∀ c ∈ content.dropLast, MayPrecede z c

/-- The first `read` returns the whole file, or a line that is refused. -/
def FirstReadDecides (secSize itemSize : ℤ) (bufSize : ℕ) (want : ℕ → ℕ) (content : List UInt8) :
    Prop :=
  let len := readLen (want 0) bufSize content.length
  len = content.length ∨ (scanLines false len [] (content.take len)
    ⟨smartConfInit secSize itemSize, 0, 0, none, true⟩).1 ≠ .next

/-! ### One turn of the loop -/

variable {bufSize : ℕ} {want : ℕ → ℕ} {bs rest : List UInt8} {p i : ℕ}

/-- What is looked at when `p` bytes have been moved to the start of the buffer and `bs` has been
read behind them: no more bytes than have been read. -/
def window (bufSize : ℕ) (buf : ℤ → UInt8) (p : ℕ) (bs : List UInt8) : List UInt8 :=
  (Mem.slice buf (bufSize - p) p ++ bs).take bs.length

theorem window_zero (buf : ℤ → UInt8) (bs : List UInt8) : window bufSize buf 0 bs = bs := by
  rw [window, Mem.slice_zero, List.nil_append, List.take_length]

theorem window_one (buf : ℤ → UInt8) (c : UInt8) (bs : List UInt8) :
    window bufSize buf 1 (bs ++ [c]) = buf (bufSize - 1) :: bs := by
  rw [window, Nat.cast_one, Mem.slice_succ, Mem.slice_zero, List.length_append,
    List.length_singleton, List.cons_append, List.nil_append, List.take_succ_cons, List.take_left]

theorem slice_filled (buf : ℤ → UInt8) (p : ℕ) (bs : List UInt8) :
    Mem.slice (Mem.store (Mem.store buf 0 (Mem.slice buf (bufSize - p) p)) p bs) 0 bs.length =
      window bufSize buf p bs := by
  have hstore := Mem.store_store buf 0 (Mem.slice buf (bufSize - p) p) bs
  rw [Mem.length_slice, zero_add] at hstore
  rw [hstore, Mem.slice_store, List.length_append, Mem.length_slice,
    Nat.sub_eq_zero_of_le (Nat.le_add_left _ _), Mem.slice_zero, List.append_nil, window]

/-- A turn that leaves bytes in the file. The buffer behind the bytes moved and read is as before. -/
theorem readBlocks_step (i p : ℕ) (hbs : bs ≠ []) (hrest : rest ≠ [])
    (hlen : readLen (want i) (bufSize - p) (bs ++ rest).length = bs.length) (fuel : ℕ)
    (buf : ℤ → UInt8) (st : IniState) :
    ∃ buf', (∀ j : ℤ, p + bs.length ≤ j → buf' j = buf j) ∧
      readBlocks bufSize want (fuel + 1) i (bs ++ rest) buf p false st =
        match scanLines false bs.length [] (window bufSize buf p bs) st with
        | (.next, p', st') => readBlocks bufSize want fuel (i + 1) rest buf' p' false st'
        | (r, _, st') => some (st'.done r) := by
  refine ⟨endLines false
    (Mem.store (Mem.store buf 0 (Mem.slice buf (bufSize - p) p)) p bs) (window bufSize buf p bs),
    fun j hj => ?_, ?_⟩
  · have hwindow : (window bufSize buf p bs).length ≤ p + bs.length := by
      rw [window, List.length_take]
      omega
    unfold endLines
    rw [if_neg (fun h => Bool.false_ne_true h.1), Mem.store_of_le, Mem.store_of_le hj,
      Mem.store_of_le]
    · rw [Mem.length_slice]
      omega
    · rw [List.length_map]
      omega
  · have hflag : (false || decide (bs.length = 0) || decide (rest = [])) = false := by
      simp [hbs, hrest]
    rw [readBlocks, if_neg (List.append_ne_nil_of_left_ne_nil hbs _)]
    rcases hscan : scanLines false bs.length [] (window bufSize buf p bs) st with ⟨r, p', st'⟩
    cases r <;> simp only [hlen, List.take_left, List.drop_left, hflag, slice_filled, hscan]

/-- The last turn. -/
theorem readBlocks_last (i p : ℕ) (hbs : bs ≠ [])
    (hlen : readLen (want i) (bufSize - p) bs.length = bs.length) (fuel : ℕ) (buf : ℤ → UInt8)
    (st : IniState) :
    readBlocks bufSize want (fuel + 2) i bs buf p false st =
      match scanLines true bs.length [] (window bufSize buf p bs) st with
      | (r, _, st') => some (st'.done r) := by
  rw [readBlocks, if_neg hbs]
  simp only [hlen, List.take_length, List.drop_length, decide_true, Bool.or_true, slice_filled]
  rcases scanLines true bs.length [] (window bufSize buf p bs) st with ⟨r, p', st'⟩
  cases r with
  | next =>
    dsimp only
    rw [readBlocks, if_pos rfl]
  | err => rfl
  | fault => rfl

/-! ### One read -/

/-- Entering the lines of the whole file. -/
def scanWhole (conf : SmartConf) (content : List UInt8) : IniOut :=
  match scanLines true content.length [] content ⟨conf, 0, 0, none, true⟩ with
  | (r, _, st) => st.done r

/-- What is left of a file is read as if it were the file when no line has been entered yet. -/
theorem readBlocks_eq_scanWhole (hbs : bs ≠ [])
    (hlen : readLen (want i) bufSize bs.length = bs.length) (fuel : ℕ) (buf : ℤ → UInt8)
    (conf : SmartConf) :
    readBlocks bufSize want (fuel + 2) i bs buf 0 false ⟨conf, 0, 0, none, true⟩ =
      some (scanWhole conf bs) := by
  rw [readBlocks_last i 0 hbs hlen, window_zero]
  rfl

/-- A first read that returns the whole file makes the block size and the memory irrelevant. -/
theorem iniRead_eq_scanWhole (conf : SmartConf) (bufSize : ℕ) (buf : ℤ → UInt8) (want : ℕ → ℕ)
    (content : List UInt8) (h : readLen (want 0) bufSize content.length = content.length) :
    iniRead conf bufSize buf want content = some (scanWhole conf content) := by
  rw [iniRead]
  by_cases hnil : content = []
  · subst hnil
    rfl
  · exact readBlocks_eq_scanWhole hnil h _ _ _

theorem iniReadWhole_eq (conf : SmartConf) (content : List UInt8) :
    iniReadWhole conf content = some (scanWhole conf content) :=
  iniRead_eq_scanWhole _ _ _ _ _ (by simp [readLen])

/-- A line that is refused hides what stands behind it. -/
theorem scanLines_refused (p' : ℕ) {w line : List UInt8} {st : IniState}
    (h : (scanLines false p line w st).1 ≠ .next) (readFlag : Bool) (v : List UInt8) :
    (scanLines readFlag p' line (w ++ v) st).1 = (scanLines false p line w st).1 ∧
      (scanLines readFlag p' line (w ++ v) st).2.2 = (scanLines false p line w st).2.2 := by
  induction w generalizing p p' line st with
  | nil =>
    refine absurd ?_ h
    rw [scanLines]
    split_ifs with hline hflag
    · rfl
    · cases hflag
    · rfl
  | cons c w ih =>
    rw [scanLines] at h
    rw [List.cons_append, scanLines, scanLines]
    split_ifs at h ⊢
    · rcases hread : readLine line st with ⟨r, st'⟩
      rw [hread] at h
      cases r with
      | next => exact ih _ h
      | err => exact ⟨rfl, rfl⟩
      | fault => exact ⟨rfl, rfl⟩
    · exact ih _ h

/-- Where the first read decides, the result is that of one read. -/
theorem iniRead_eq_of_decides {secSize itemSize : ℤ} {content : List UInt8}
    (h : FirstReadDecides secSize itemSize bufSize want content) (buf : ℤ → UInt8) :
    iniRead (smartConfInit secSize itemSize) bufSize buf want content =
      iniReadWhole (smartConfInit secSize itemSize) content := by
  rw [iniReadWhole_eq]
  by_cases hwhole : readLen (want 0) bufSize content.length = content.length
  · exact iniRead_eq_scanWhole _ _ _ _ _ hwhole
  have href := h.resolve_left hwhole
  have hle : readLen (want 0) bufSize content.length ≤ content.length := by
    unfold readLen
    omega
  generalize hlen : readLen (want 0) bufSize content.length = len at href hle hwhole
  have hcount : (content.take len).length = len := by rw [List.length_take, min_eq_left hle]
  have hbs : content.take len ≠ [] := by
    intro hnil
    rw [hnil] at href
    exact href rfl
  have hrest : content.drop len ≠ [] := by
    rw [Ne, List.drop_eq_nil_iff]
    omega
  obtain ⟨buf', -, hstep⟩ := readBlocks_step 0 0 hbs hrest
    (by rw [List.take_append_drop, hcount]; exact hlen) (2 * content.length + 1) buf
    ⟨smartConfInit secSize itemSize, 0, 0, none, true⟩
  rw [List.take_append_drop, window_zero, hcount] at hstep
  have hscan := scanLines_refused content.length href true (content.drop len)
  rw [List.take_append_drop] at hscan
  rw [iniRead, hstep, scanWhole]
  revert href hscan
  rcases scanLines false len [] (content.take len) _ with ⟨r, p', st'⟩
  rcases scanLines true content.length [] content _ with ⟨r', q, st''⟩
  rintro hne ⟨rfl, rfl⟩
  cases r' with
  | next => exact absurd rfl hne
  | err => rfl
  | fault => rfl

/-! ### A file of one line -/

/-- What a window without a newline ends with is lost. -/
theorem scanLines_rest (p : ℕ) {t : List UInt8} (ht : (10 : UInt8) ∉ t) (line : List UInt8)
    (hne : line ++ t ≠ []) (st : IniState) : scanLines false p line t st = (.next, 0, st) := by
  induction t generalizing line with
  | nil =>
    rw [List.append_nil] at hne
    rw [scanLines, if_neg hne, if_neg Bool.false_ne_true]
  | cons c t ih =>
    rw [List.mem_cons, not_or] at ht
    rw [scanLines, if_neg (Ne.symm ht.1)]
    exact ih ht.2 _ (by simp)

/-- The last line, with or without the newline that ends it. -/
theorem scanLines_last (p : ℕ) {t : List UInt8} (ht : (10 : UInt8) ∉ t) (z : UInt8)
    (line : List UInt8) (st : IniState) :
    ∃ p', scanLines true p line (t ++ [z]) st =
      ((readLine (line ++ t ++ if z = 10 then [] else [z]) st).1, p',
        (readLine (line ++ t ++ if z = 10 then [] else [z]) st).2) := by
  induction t generalizing line with
  | nil =>
    rw [List.append_nil, List.nil_append, scanLines]
    split_ifs with hz
    · rw [List.append_nil]
      rcases readLine line st with ⟨r, st'⟩
      cases r with
      | next => exact ⟨_, rfl⟩
      | err => exact ⟨_, rfl⟩
      | fault => exact ⟨_, rfl⟩
    · rw [scanLines, if_neg (by simp), if_pos rfl]
      exact ⟨_, rfl⟩
  | cons c t ih =>
    rw [List.mem_cons, not_or] at ht
    obtain ⟨p', h⟩ := ih ht.2 (line ++ [c])
    rw [List.append_assoc line, List.singleton_append] at h
    rw [List.cons_append, scanLines, if_neg (Ne.symm ht.1)]
    exact ⟨p', h⟩

/-- A window without a newline is the last line of the file. -/
theorem scanLines_all (p : ℕ) {t : List UInt8} (ht : (10 : UInt8) ∉ t) (hne : t ≠ [])
    (st : IniState) :
    ∃ p', scanLines true p [] t st = ((readLine t st).1, p', (readLine t st).2) := by
  obtain ⟨init, z, rfl⟩ := (List.eq_nil_or_concat t).resolve_left hne
  rw [List.concat_eq_append, List.mem_append, not_or, List.mem_singleton] at ht
  rw [List.concat_eq_append]
  obtain ⟨p', h⟩ := scanLines_last p ht.1 z [] st
  rw [if_neg (Ne.symm ht.2)] at h
  exact ⟨p', h⟩

/-- How the first line of a file ends, by its last byte, when all bytes may precede that one. -/
def firstLine (z : UInt8) : IniRes :=
  if z = 0 ∨ z = 10 ∨ z = 32 ∨ z = 35 then .next else if z = 91 then .err else .fault

/-- A line of which nothing is seen, or a first byte that is neither a zero nor a blank. -/
theorem firstByte_cases (line : List UInt8) : skipSpaces (cstr line) = [] ∨
    ∃ c s, skipSpaces (cstr line) = c :: s ∧ c ≠ 0 ∧ c ≠ 32 ∧ c :: s ⊆ line := by
  rcases hskip : skipSpaces (cstr line) with _ | ⟨c, s⟩
  · exact .inl rfl
  have hsub : c :: s ⊆ cstr line := hskip ▸ (List.dropWhile_suffix _).subset
  refine .inr ⟨c, s, rfl, ?_, ?_, fun _ hx => (List.takeWhile_prefix _).subset (hsub hx)⟩
  · simpa using List.mem_takeWhile_imp (hsub List.mem_cons_self)
  · rintro rfl
    have hhead := skipSpaces_head (cstr line)
    rw [hskip] at hhead
    exact hhead rfl

theorem readLine_nothing {line : List UInt8} (h : skipSpaces (cstr line) = []) (st : IniState) :
    readLine line st = (.next, st) := by
  rw [readLine, h]

theorem readLine_comment {line s : List UInt8} (h : skipSpaces (cstr line) = 35 :: s)
    (st : IniState) : readLine line st = (.next, st) := by
  rw [readLine, h]
  rfl

theorem readLine_bracket {line s : List UInt8} (h : skipSpaces (cstr line) = 91 :: s)
    (st : IniState) : readLine line st = readSection s st := by
  rw [readLine, h]
  rfl

/-- An item before the first section. -/
theorem readLine_noSection {line s : List UInt8} {c : UInt8} (h : skipSpaces (cstr line) = c :: s)
    (hc : c ≠ 35 ∧ c ≠ 91) {st : IniState} (hst : st.curSec = none) :
    readLine line st = (.fault, st) := by
  rw [readLine, h]
  dsimp only
  rw [if_neg hc.1, if_neg hc.2, readItem, hst]

/-- A section header that is not closed is refused. -/
theorem readSection_open {s : List UInt8} (hs : (93 : UInt8) ∉ s) (st : IniState) :
    (readSection s st).1 = .err := by
  have hname : s.takeWhile (· ≠ 93) = s := by
    rw [List.takeWhile_eq_self_iff]
    exact fun c hc => decide_eq_true fun heq => hs (heq ▸ hc)
  rw [readSection]
  dsimp only
  rw [hname, if_pos (.inr rfl)]

/-- A section is read without a fault. -/
theorem readSection_ne_fault (s : List UInt8) (st : IniState) :
    (readSection s st).1 ≠ .fault := by
  rw [readSection]
  dsimp only
  split_ifs <;> exact IniRes.noConfusion

theorem readSection_secNum (s : List UInt8) (st : IniState) :
    (readSection s st).2.conf.secNum = st.conf.secNum := by
  have hgrow : st.growSecs.conf.secNum = st.conf.secNum := by
    unfold IniState.growSecs
    split_ifs <;> rfl
  rw [readSection]
  dsimp only
  split_ifs <;> exact hgrow

theorem firstByte_ne_nil {line : List UInt8} (h0 : (0 : UInt8) ∉ line) {z : UInt8} (hz : z ∈ line)
    (h32 : z ≠ 32) : skipSpaces (cstr line) ≠ [] := by
  intro hnil
  rw [cstr_of_notMem h0] at hnil
  rw [skipSpaces_eq_nil hnil] at hz
  exact h32 (List.eq_of_mem_replicate hz)

theorem firstByte_cons {c : UInt8} (h0 : c ≠ 0) (h32 : c ≠ 32) (t : List UInt8) :
    skipSpaces (cstr (c :: t)) = c :: cstr t := by
  simp [cstr, skipSpaces, h0, h32]

section FirstLine

variable {init : List UInt8} {z c : UInt8} {st : IniState}

/-- The line without the newline that ends it. -/
def withoutNewline (init : List UInt8) (z : UInt8) : List UInt8 := init ++ if z = 10 then [] else [z]

theorem mem_withoutNewline (init : List UInt8) (z x : UInt8) (hx : x ∈ withoutNewline init z) :
    x ∈ init ∨ x = z ∧ z ≠ 10 := by
  rw [withoutNewline] at hx
  split_ifs at hx with hz
  · rw [List.append_nil] at hx
    exact .inl hx
  · rw [List.mem_append, List.mem_singleton] at hx
    exact hx.imp_right fun hxz => ⟨hxz, hz⟩

/-- A first line of bytes that may precede its last one. -/
theorem readLine_first (st : IniState) (h : ∀ c ∈ init, MayPrecede z c) (hst : st.curSec = none) :
    (readLine (withoutNewline init z) st).1 = firstLine z ∧
      (firstLine z = .next → (readLine (withoutNewline init z) st).2 = st) ∧
      (readLine (withoutNewline init z) st).2.conf.secNum = st.conf.secNum := by
  have hmem := mem_withoutNewline init z
  unfold MayPrecede at h
  unfold firstLine
  generalize hline : withoutNewline init z = line at hmem
  split_ifs at h ⊢ with hblank hopen
  · have hall : ∀ x ∈ line, x = 0 ∨ x = 32 ∨ x = 35 := fun x hx => by
      rcases hmem x hx with hx | ⟨rfl, hz⟩
      · exact h x hx
      · tauto
    rcases firstByte_cases line with hnil | ⟨c, s, hskip, hc0, hc32, hsub⟩
    · rw [readLine_nothing hnil]
      exact ⟨rfl, fun _ => rfl, rfl⟩
    · obtain rfl : c = 35 := by
        have hc := hall c (hsub List.mem_cons_self)
        tauto
      rw [readLine_comment hskip]
      exact ⟨rfl, fun _ => rfl, rfl⟩
  · subst hopen
    have hall : ∀ x ∈ line, x = 32 ∨ x = 91 := fun x hx => by
      rcases hmem x hx with hx | ⟨rfl, -⟩
      · exact h x hx
      · exact .inr rfl
    have hlast : (91 : UInt8) ∈ line := by
      rw [← hline, withoutNewline, if_neg (by decide)]
      exact List.mem_append_right _ List.mem_cons_self
    rcases firstByte_cases line with hnil | ⟨c, s, hskip, hc0, hc32, hsub⟩
    · refine absurd hnil (firstByte_ne_nil (fun h0 => ?_) hlast (by decide))
      exact absurd (hall 0 h0) (by decide)
    · obtain rfl : c = 91 := (hall c (hsub List.mem_cons_self)).resolve_left hc32
      have hopen : (93 : UInt8) ∉ s := fun h93 =>
        absurd (hall 93 (hsub (List.mem_cons_of_mem _ h93))) (by decide)
      rw [readLine_bracket hskip]
      exact ⟨readSection_open hopen st, False.elim, readSection_secNum s st⟩
  · have hz : z ≠ 0 ∧ z ≠ 10 ∧ z ≠ 32 ∧ z ≠ 35 := by tauto
    have hall : ∀ x ∈ line, x ≠ 0 ∧ x ≠ 35 ∧ x ≠ 91 := fun x hx => by
      rcases hmem x hx with hx | ⟨rfl, -⟩
      · exact ⟨(h x hx).1, (h x hx).2.2.1, (h x hx).2.2.2⟩
      · exact ⟨hz.1, hz.2.2.2, hopen⟩
    have hlast : z ∈ line := by
      rw [← hline, withoutNewline, if_neg hz.2.1]
      exact List.mem_append_right _ List.mem_cons_self
    rcases firstByte_cases line with hnil | ⟨c, s, hskip, hc0, hc32, hsub⟩
    · exact absurd hnil (firstByte_ne_nil (fun h0 => (hall 0 h0).1 rfl) hlast hz.2.2.1)
    · rw [readLine_noSection hskip (hall c (hsub List.mem_cons_self)).2 hst]
      exact ⟨rfl, fun _ => rfl, rfl⟩

/-- A byte that may not precede the last one, and stands in front of such that may, is seen. -/
theorem readLine_first_ne (h : ∀ c ∈ init, MayPrecede z c) (hc : ¬MayPrecede z c) (hnl : c ≠ 10)
    (hst : st.curSec = none) : (readLine (withoutNewline (c :: init) z) st).1 ≠ firstLine z := by
  have hmem := mem_withoutNewline init z
  have hcons : withoutNewline (c :: init) z = c :: withoutNewline init z := rfl
  have h32 : c ≠ 32 := by
    rintro rfl
    refine hc ?_
    unfold MayPrecede
    split_ifs <;> decide
  rw [hcons]
  generalize withoutNewline init z = line at hmem
  unfold MayPrecede at h hc
  unfold firstLine
  by_cases h0 : c = 0
  · subst h0
    rw [readLine_nothing (by simp [cstr, skipSpaces])]
    split_ifs at hc ⊢ with hblank hopen
    · exact absurd (.inl rfl) hc
    · exact IniRes.noConfusion
    · exact IniRes.noConfusion
  have hskip := firstByte_cons h0 h32 line
  by_cases h35 : c = 35
  · subst h35
    rw [readLine_comment hskip]
    split_ifs at hc ⊢ with hblank hopen
    · exact absurd (.inr (.inr rfl)) hc
    · exact IniRes.noConfusion
    · exact IniRes.noConfusion
  by_cases h91 : c = 91
  · subst h91
    rw [readLine_bracket hskip]
    split_ifs at h hc ⊢ with hblank hopen
    · have hopen : (93 : UInt8) ∉ cstr line := fun h93 => by
        rcases hmem 93 ((List.takeWhile_prefix _).subset h93) with hx | ⟨rfl, -⟩
        · exact absurd (h 93 hx) (by decide)
        · exact absurd hblank (by decide)
      rw [readSection_open hopen]
      decide
    · exact absurd (.inr rfl) hc
    · exact readSection_ne_fault _ _
  · rw [readLine_noSection hskip ⟨h35, h91⟩ hst]
    split_ifs at hc ⊢ with hblank hopen
    · exact IniRes.noConfusion
    · exact IniRes.noConfusion
    · exact absurd ⟨h0, hnl, h35, h91⟩ hc

end FirstLine

/-! ### A file whose only newline is its last byte -/

theorem not_mayPrecede_newline (z : UInt8) : ¬MayPrecede z 10 := by
  unfold MayPrecede
  split_ifs <;> decide

theorem scanWhole_last {init : List UInt8} (hnl : (10 : UInt8) ∉ init) (z : UInt8)
    (conf : SmartConf) :
    scanWhole conf (init ++ [z]) =
      (readLine (withoutNewline init z) ⟨conf, 0, 0, none, true⟩).2.done
        (readLine (withoutNewline init z) ⟨conf, 0, 0, none, true⟩).1 := by
  obtain ⟨p', h⟩ := scanLines_last (init ++ [z]).length hnl z [] ⟨conf, 0, 0, none, true⟩
  rw [scanWhole, h]
  rfl

theorem done_res (st : IniState) (r : IniRes) : (st.done r).res = r := by cases r <;> rfl

/-- Nothing can be looked up behind a first line of bytes that may precede its last one. -/
theorem scanWhole_first {init : List UInt8} {z : UInt8} (h : ∀ c ∈ init, MayPrecede z c)
    (secSize itemSize : ℤ) :
    (scanWhole (smartConfInit secSize itemSize) (init ++ [z])).result = (firstLine z, []) := by
  have hnl : (10 : UInt8) ∉ init := fun hmem => not_mayPrecede_newline z (h 10 hmem)
  obtain ⟨hres, hnext, hnum⟩ :=
    readLine_first ⟨smartConfInit secSize itemSize, 0, 0, none, true⟩ h rfl
  rw [scanWhole_last hnl, hres]
  cases hfirst : firstLine z with
  | next =>
    rw [hnext hfirst]
    rfl
  | err => exact congrArg (fun k => (_, SmartConf.live _ k)) hnum
  | fault => exact congrArg (fun k => (_, SmartConf.live _ k)) hnum

/-- However the file is cut, one of its ends is read. -/
theorem readBlocks_end (want : ℕ → ℕ) (hsize : 0 < bufSize) (conf : SmartConf) (fuel i : ℕ)
    (buf : ℤ → UInt8) (hbs : bs ≠ []) (hnl : (10 : UInt8) ∉ bs.dropLast) (hfuel : bs.length < fuel) :
    ∃ k < bs.length, readBlocks bufSize want fuel i bs buf 0 false ⟨conf, 0, 0, none, true⟩ =
      some (scanWhole conf (bs.drop k)) := by
  induction fuel generalizing i bs buf with
  | zero => omega
  | succ fuel ih =>
    have hpos : 0 < bs.length := List.length_pos_of_ne_nil hbs
    obtain ⟨len, hlen⟩ : ∃ len, readLen (want i) bufSize bs.length = len := ⟨_, rfl⟩
    have hle : 1 ≤ len ∧ len ≤ bs.length := by
      unfold readLen at hlen
      omega
    rcases Nat.eq_or_lt_of_le hle.2 with hall | hlt
    · obtain ⟨k, rfl⟩ : ∃ k, fuel = k + 1 := ⟨fuel - 1, by omega⟩
      exact ⟨0, hpos, readBlocks_eq_scanWhole hbs (hlen.trans hall) _ _ _⟩
    · have hcount : (bs.take len).length = len := by rw [List.length_take, min_eq_left hle.2]
      have hfirst : bs.take len ≠ [] := List.ne_nil_of_length_pos (by omega)
      have hrest : bs.drop len ≠ [] := List.ne_nil_of_length_pos (by rw [List.length_drop]; omega)
      have hinit : bs.take len = bs.dropLast.take len := by
        rw [List.dropLast_eq_take, List.take_take, min_eq_left (by omega)]
      have hnl' : (10 : UInt8) ∉ bs.take len := fun hmem =>
        hnl (List.mem_of_mem_take (hinit ▸ hmem))
      obtain ⟨buf', -, hstep⟩ := readBlocks_step i 0 hfirst hrest
        (by rw [List.take_append_drop, hcount]; exact hlen) fuel buf ⟨conf, 0, 0, none, true⟩
      rw [List.take_append_drop, window_zero, scanLines_rest _ hnl' [] (by simpa using hfirst)]
        at hstep
      have hnl'' : (10 : UInt8) ∉ (bs.drop len).dropLast := by
        rw [List.dropLast_drop_eq_drop_dropLast]
        exact fun hmem => hnl (List.mem_of_mem_drop hmem)
      obtain ⟨k, hk, hrun⟩ := ih (i + 1) buf' hrest hnl'' (by rw [List.length_drop]; omega)
      rw [List.length_drop] at hk
      exact ⟨len + k, by omega, by rw [hstep, ← List.drop_drop]; exact hrun⟩

theorem exists_line {w : List UInt8} (hw : w ≠ []) : ∃ line, line ∈ lines w := by
  have key : ∀ (w line : List UInt8), w ≠ [] ∨ line ≠ [] → linesFrom line w ≠ [] := by
    intro w
    induction w with
    | nil =>
      intro line h
      rw [linesFrom, if_neg (h.resolve_left fun h => h rfl)]
      exact List.cons_ne_nil _ _
    | cons c w ih =>
      intro line _
      rw [linesFrom]
      split_ifs
      · exact List.cons_ne_nil _ _
      · exact ih _ (.inr (by simp))
  exact List.exists_mem_of_ne_nil _ (key w [] (.inl hw))

/-- **A file that is safe to cut is read alike in all ways.** -/
theorem blocksAgree_of_safe {content : List UInt8} (h : SafeToCut content) :
    BlocksAgree content := by
  intro secSize itemSize bufSize buf want hlines
  rw [iniReadWhole_eq]
  rcases List.eq_nil_or_concat content with rfl | ⟨init, z, rfl⟩
  · rfl
  rw [List.concat_eq_append] at *
  have hmay : ∀ c ∈ init, MayPrecede z c := by
    have hz := h z (by simp)
    rwa [List.dropLast_concat] at hz
  have hnl : (10 : UInt8) ∉ init := fun hmem => not_mayPrecede_newline z (hmay 10 hmem)
  have hne : init ++ [z] ≠ [] := by simp
  have hsize : 0 < bufSize := by
    obtain ⟨line, hline⟩ := exists_line hne
    exact Nat.zero_lt_of_lt (hlines line hline)
  obtain ⟨k, hk, hrun⟩ := readBlocks_end want hsize (smartConfInit secSize itemSize)
    (2 * (init ++ [z]).length + 2) 0 buf hne (by rwa [List.dropLast_concat]) (by omega)
  rw [List.length_append, List.length_singleton] at hk
  rw [iniRead, hrun, List.drop_append_of_le_length (by omega), Option.map_some, Option.map_some,
    scanWhole_first hmay, scanWhole_first fun c hc => hmay c (List.mem_of_mem_drop hc)]

/-! ### Cuts that go wrong -/

theorem linesFrom_le {line w l : List UInt8} (h : l ∈ linesFrom line w) :
    l.length ≤ line.length + w.length := by
  induction w generalizing line with
  | nil =>
    rw [linesFrom] at h
    split_ifs at h
    · cases h
    · rw [List.mem_singleton.1 h]
      exact Nat.le_add_right _ _
  | cons c w ih =>
    rw [List.length_cons]
    rw [linesFrom] at h
    split_ifs at h
    · rcases List.mem_cons.1 h with rfl | h
      · omega
      · have := ih h
        rw [List.length_nil] at this
        omega
    · have := ih h
      rw [List.length_append, List.length_singleton] at this
      omega

/-- A block with three bytes more than the file. -/
theorem blocksAgree_at {content : List UInt8} (h : BlocksAgree content) (buf : ℤ → UInt8)
    (want : ℕ → ℕ) :
    (iniRead (smartConfInit 4 20) (content.length + 3) buf want content).map IniOut.result =
      some (scanWhole (smartConfInit 4 20) content).result := by
  have heq := h 4 20 (content.length + 3) buf want fun line hline => by
    have hle := linesFrom_le hline
    rw [List.length_nil] at hle
    omega
  rwa [iniReadWhole_eq, Option.map_some] at heq

/-- The end of a file behind a piece without newline reads as the file. -/
theorem scanWhole_end {a b : List UInt8} (h : BlocksAgree (a ++ b)) (ha : (10 : UInt8) ∉ a)
    (hb : b ≠ []) :
    (scanWhole (smartConfInit 4 20) b).result = (scanWhole (smartConfInit 4 20) (a ++ b)).result := by
  by_cases hnil : a = []
  · rw [hnil, List.nil_append]
  have hpos : 0 < a.length := List.length_pos_of_ne_nil hnil
  -- the first `read` returns `a`, and the second one the rest
  have heq := blocksAgree_at h (fun _ => 0) fun i => if i = 0 then a.length - 1 else (a ++ b).length
  have hlen : readLen (if 0 = 0 then a.length - 1 else (a ++ b).length) ((a ++ b).length + 3 - 0)
      (a ++ b).length = a.length := by
    unfold readLen
    rw [if_pos rfl, List.length_append]
    omega
  obtain ⟨buf', -, hstep⟩ := @readBlocks_step ((a ++ b).length + 3)
    (fun i => if i = 0 then a.length - 1 else (a ++ b).length) _ _ 0 0 hnil hb hlen
    (2 * (a ++ b).length + 1)
    (fun _ => 0) ⟨smartConfInit 4 20, 0, 0, none, true⟩
  rw [window_zero, scanLines_rest _ ha [] (by simpa using hnil)] at hstep
  obtain ⟨k, hk⟩ : ∃ k, 2 * (a ++ b).length + 1 = k + 2 :=
    ⟨2 * (a ++ b).length - 1, by rw [List.length_append]; omega⟩
  rw [iniRead, hstep, hk] at heq
  dsimp only at heq
  rw [readBlocks_eq_scanWhole hb
    (by unfold readLen; rw [if_neg (by decide), List.length_append]; omega)] at heq
  exact Option.some.inj heq

/-- Bytes whose ends read as the last one may precede it. -/
theorem mayPrecede_of_ends {init : List UInt8} {z : UInt8} (hnl : (10 : UInt8) ∉ init)
    (h : ∀ a b, init = a ++ b →
      (scanWhole (smartConfInit 4 20) (b ++ [z])).res = (scanWhole (smartConfInit 4 20) [z]).res) :
    ∀ c ∈ init, MayPrecede z c := by
  induction init with
  | nil => exact fun c hc => absurd hc List.not_mem_nil
  | cons c init ih =>
    rw [List.mem_cons, not_or] at hnl
    have hinit := ih hnl.2 fun a b hab => h (c :: a) b (by rw [hab, List.cons_append])
    refine List.forall_mem_cons.2 ⟨?_, hinit⟩
    by_contra hc
    have hempty : ∀ c ∈ ([] : List UInt8), MayPrecede z c := fun c hc => absurd hc List.not_mem_nil
    have hlast : (scanWhole (smartConfInit 4 20) [z]).res = firstLine z :=
      congrArg Prod.fst (scanWhole_first hempty 4 20)
    have hres := h [] (c :: init) rfl
    rw [scanWhole_last (by rw [List.mem_cons, not_or]; exact hnl), done_res, hlast] at hres
    exact readLine_first_ne hinit hc (Ne.symm hnl.1) rfl hres

/-- `proc_left` when a `read` returns the one byte `c`: only a newline at the start of the buffer is
left, behind a byte carried over nothing is. -/
def leftOf (p : ℕ) (c : UInt8) : ℕ := if p = 0 ∧ c = 10 then 1 else 0

theorem leftOf_le (p : ℕ) (c : UInt8) : leftOf p c ≤ 1 := by
  unfold leftOf
  split_ifs <;> omega

theorem scanLines_byte (p : ℕ) (c : UInt8) (st : IniState) :
    scanLines false p [] [c] st = (.next, if c = 10 then 1 else 0, st) := by
  rw [scanLines]
  split_ifs
  · rfl
  · rfl

theorem window_byte {buf : ℤ → UInt8} (hp : p ≤ 1) (hg : buf (bufSize - 1) ≠ 10) (c : UInt8)
    (st : IniState) :
    scanLines false [c].length [] (window bufSize buf p [c]) st = (.next, leftOf p c, st) := by
  obtain rfl | rfl : p = 0 ∨ p = 1 := by omega
  · rw [window_zero, scanLines_byte, leftOf]
    simp only [true_and]
  · have hwindow : window bufSize buf 1 [c] = [buf (bufSize - 1)] := window_one buf c []
    rw [hwindow, scanLines_byte, if_neg hg]
    rfl

/-- Bytes that are read one at a time: no line is entered. The last byte of the block stays what
`malloc` has returned. -/
theorem readBlocks_bytes (want : ℕ → ℕ) (u : List UInt8) (hrest : rest ≠ []) (hsize : 3 ≤ bufSize)
    {buf : ℤ → UInt8} (hp : p ≤ 1) (hg : buf (bufSize - 1) ≠ 10)
    (hwant : ∀ j < u.length, want (i + j) = 0) (fuel : ℕ) (st : IniState) :
    ∃ buf', buf' (bufSize - 1) = buf (bufSize - 1) ∧
      readBlocks bufSize want (fuel + u.length) i (u ++ rest) buf p false st =
        readBlocks bufSize want fuel (i + u.length) rest buf' (u.foldl leftOf p) false st := by
  induction u generalizing i p buf with
  | nil => exact ⟨buf, rfl, rfl⟩
  | cons c u ih =>
    have hlen : readLen (want i) (bufSize - p) ([c] ++ (u ++ rest)).length = [c].length := by
      have h0 := hwant 0 (by simp)
      rw [Nat.add_zero] at h0
      unfold readLen
      rw [h0, List.length_append, List.length_singleton]
      omega
    obtain ⟨buf₁, hframe, hstep⟩ := readBlocks_step i p (by simp)
      (List.append_ne_nil_of_right_ne_nil u hrest) hlen (fuel + u.length) buf st
    have hbuf₁ : buf₁ (bufSize - 1) = buf (bufSize - 1) :=
      hframe _ (by rw [List.length_singleton]; omega)
    obtain ⟨buf', hbuf', hrun⟩ := ih (i := i + 1) (leftOf_le p c) (hbuf₁ ▸ hg) fun j hj => by
      rw [add_assoc, add_comm 1 j]
      exact hwant (j + 1) (Nat.succ_lt_succ hj)
    rw [window_byte hp hg] at hstep
    rw [add_assoc i, add_comm 1] at hrun
    exact ⟨buf', hbuf'.trans hbuf₁, hstep.trans hrun⟩

theorem scanLines_newlines (p n : ℕ) (st : IniState) :
    scanLines false p [] (List.replicate (n + 1) 10) st = (.next, 1, st) := by
  induction n generalizing p with
  | zero => exact scanLines_byte p 10 st
  | succ n ih =>
    rw [List.replicate_succ, scanLines, if_pos rfl]
    exact ih _

/-- The newlines at the end of a text. -/
theorem exists_newlines (a : List UInt8) : ∃ u n,
    a ++ [10] = u ++ List.replicate (n + 1) 10 ∧ u.foldl leftOf 0 = 0 := by
  induction a using List.reverseRecOn with
  | nil => exact ⟨[], 0, rfl, rfl⟩
  | append_singleton a c ih =>
    by_cases hc : c = 10
    · obtain ⟨u, n, heq, hu⟩ := ih
      refine ⟨u, n + 1, ?_, hu⟩
      rw [hc, heq, List.append_assoc, ← List.replicate_succ']
    · refine ⟨a ++ [c], 0, rfl, ?_⟩
      rw [List.foldl_append, List.foldl_cons, List.foldl_nil, leftOf, if_neg fun h => hc h.2]

/-- The bytes `u` one at a time, the newlines behind them, and the rest: its only line begins with
the byte that `malloc` has returned. -/
theorem readBlocks_cut {u b : List UInt8} {z : UInt8} {n fuel : ℕ} (buf : ℤ → UInt8)
    (hu : u.foldl leftOf 0 = 0) (hb : (10 : UInt8) ∉ b) (hg : buf (bufSize - 1) ≠ 10)
    (hsize : n + b.length + 3 ≤ bufSize) (hwant : ∀ j < u.length, want j = 0)
    (hnewlines : want u.length = n) (hrest : b.length ≤ want (u.length + 1)) (conf : SmartConf) :
    readBlocks bufSize want (fuel + 3 + u.length) 0
        (u ++ (List.replicate (n + 1) 10 ++ (b ++ [z]))) buf 0 false ⟨conf, 0, 0, none, true⟩ =
      some ((readLine (buf (bufSize - 1) :: b) ⟨conf, 0, 0, none, true⟩).2.done
        (readLine (buf (bufSize - 1) :: b) ⟨conf, 0, 0, none, true⟩).1) := by
  have hmore : List.replicate (n + 1) 10 ++ (b ++ [z]) ≠ [] := by simp
  obtain ⟨buf₁, hbuf₁, hbytes⟩ := readBlocks_bytes want u hmore (by omega) (Nat.zero_le 1) hg
    (fun j hj => (Nat.zero_add j).symm ▸ hwant j hj) (fuel + 3) ⟨conf, 0, 0, none, true⟩
  have hlen : readLen (want u.length) (bufSize - 0)
      (List.replicate (n + 1) 10 ++ (b ++ [z])).length =
        (List.replicate (n + 1) (10 : UInt8)).length := by
    unfold readLen
    rw [hnewlines, List.length_append, List.length_replicate, List.length_append,
      List.length_singleton]
    omega
  obtain ⟨buf₂, hframe, hlines⟩ := readBlocks_step u.length 0 (by simp) (by simp) hlen (fuel + 2)
    buf₁ ⟨conf, 0, 0, none, true⟩
  have hbuf₂ : buf₂ (bufSize - 1) = buf (bufSize - 1) := by
    rw [hframe _ (by rw [List.length_replicate]; omega), hbuf₁]
  have hlen' : readLen (want (u.length + 1)) (bufSize - 1) (b ++ [z]).length =
      (b ++ [z]).length := by
    unfold readLen
    rw [List.length_append, List.length_singleton]
    omega
  have hlast := readBlocks_last (u.length + 1) 1 (by simp) hlen' fuel buf₂
    ⟨conf, 0, 0, none, true⟩
  have hline : (10 : UInt8) ∉ buf (bufSize - 1) :: b := by
    rw [List.mem_cons, not_or]
    exact ⟨Ne.symm hg, hb⟩
  rw [hu, Nat.zero_add] at hbytes
  rw [window_zero, scanLines_newlines] at hlines
  obtain ⟨p', hscan⟩ := scanLines_all (b ++ [z]).length hline (List.cons_ne_nil _ _)
    ⟨conf, 0, 0, none, true⟩
  rw [window_one, hbuf₂, hscan] at hlast
  exact hbytes.trans (hlines.trans hlast)

/-- **A newline within the file** can be read so that the line behind it begins with a byte of the
block of memory. -/
theorem exists_cut {a b : List UInt8} (hb : (10 : UInt8) ∉ b) (z : UInt8) :
    ∃ want, ∀ g : UInt8, g ≠ 10 → ∀ conf,
      iniRead conf ((a ++ 10 :: (b ++ [z])).length + 3) (fun _ => g) want (a ++ 10 :: (b ++ [z])) =
        some ((readLine (g :: b) ⟨conf, 0, 0, none, true⟩).2.done
          (readLine (g :: b) ⟨conf, 0, 0, none, true⟩).1) := by
  obtain ⟨u, n, heq, hu⟩ := exists_newlines a
  have hcontent : a ++ 10 :: (b ++ [z]) = u ++ (List.replicate (n + 1) 10 ++ (b ++ [z])) := by
    rw [List.append_cons, heq, List.append_assoc]
  have hlen : (a ++ 10 :: (b ++ [z])).length = u.length + (n + 1 + (b.length + 1)) := by
    rw [hcontent]
    simp only [List.length_append, List.length_replicate, List.length_singleton]
  refine ⟨fun i => if i < u.length then 0 else if i = u.length then n else b.length,
    fun g hg conf => ?_⟩
  have hfuel : 2 * (a ++ 10 :: (b ++ [z])).length + 2 =
      2 * (a ++ 10 :: (b ++ [z])).length - 1 - u.length + 3 + u.length := by omega
  rw [iniRead, hfuel, hlen, hcontent]
  refine readBlocks_cut (fun _ => g) hu hb hg (by omega) (fun j hj => if_pos hj) ?_ ?_ conf
  · rw [if_neg (lt_irrefl _), if_pos rfl]
  · rw [if_neg (by omega), if_neg (by omega)]

/-- The byte of memory decides how the file ends. -/
theorem not_blocksAgree_of_newline {a b : List UInt8} (hb : (10 : UInt8) ∉ b) (z : UInt8) :
    ¬BlocksAgree (a ++ 10 :: (b ++ [z])) := by
  intro h
  obtain ⟨want, hcut⟩ := exists_cut (a := a) hb z
  -- a zero ends the line before it begins, and an `x` is an item in no section
  have hzero := blocksAgree_at h (fun _ => 0) want
  have hitem := blocksAgree_at h (fun _ => 120) want
  rw [hcut 0 (by decide), readLine_nothing (by simp [cstr, skipSpaces]), Option.map_some] at hzero
  rw [hcut 120 (by decide), readLine_noSection (firstByte_cons (by decide) (by decide) b)
    (by decide) rfl, Option.map_some] at hitem
  have hres := congrArg Prod.fst (Option.some.inj (hzero.trans hitem.symm))
  exact absurd hres (by decide)

/-- **A file that is read alike in all ways is safe to cut.** -/
theorem safeToCut_of_blocksAgree {content : List UInt8} (h : BlocksAgree content) :
    SafeToCut content := by
  rcases List.eq_nil_or_concat content with rfl | ⟨init, z, rfl⟩
  · exact fun z hz => absurd hz (by simp)
  rw [List.concat_eq_append] at *
  have hnl : (10 : UInt8) ∉ init := by
    intro hmem
    obtain ⟨b, a, hrev, hb⟩ := List.eq_append_cons_of_mem (List.mem_reverse.2 hmem)
    have hlast : init = a.reverse ++ 10 :: b.reverse := by
      have heq := congrArg List.reverse hrev
      rwa [List.reverse_reverse, List.reverse_append, List.reverse_cons, List.append_assoc,
        List.singleton_append] at heq
    rw [hlast, List.append_assoc, List.cons_append] at h
    exact not_blocksAgree_of_newline (fun hmem => hb (List.mem_reverse.1 hmem)) z h
  intro z' hz'
  rw [List.getLast?_concat] at hz'
  cases hz'
  rw [List.dropLast_concat]
  have hend : ∀ a b, init = a ++ b → (scanWhole (smartConfInit 4 20) (b ++ [z])).res =
      (scanWhole (smartConfInit 4 20) (init ++ [z])).res := by
    rintro a b rfl
    rw [List.append_assoc] at h ⊢
    exact congrArg Prod.fst (scanWhole_end h (fun ha => hnl (List.mem_append_left _ ha)) (by simp))
  exact mayPrecede_of_ends hnl fun a b hab =>
    (hend a b hab).trans (hend init [] (List.append_nil init).symm).symm

/-- **Which files are read alike in all ways**: those that are safe to cut. Any other file is read
right when the first `read` decides. -/
theorem blocks_agree_iff (content : List UInt8) :
    (BlocksAgree content ↔ SafeToCut content) ∧
      ∀ (secSize itemSize : ℤ) (bufSize : ℕ) (buf : ℤ → UInt8) (want : ℕ → ℕ),
        FirstReadDecides secSize itemSize bufSize want content →
          iniRead (smartConfInit secSize itemSize) bufSize buf want content =
            iniReadWhole (smartConfInit secSize itemSize) content :=
  ⟨⟨safeToCut_of_blocksAgree, blocksAgree_of_safe⟩,
    fun _ _ _ buf _ h => iniRead_eq_of_decides h buf⟩

/-- `[a]`, and the item `x=1`. -/
def twoLines : List UInt8 := [91, 97, 93, 10, 120, 61, 49, 10]

/-- `[a`, and the item `x=1`. -/
def openHeader : List UInt8 := [91, 97, 10, 120, 61, 49, 10]

/-- A file of two lines in one read of 4096 bytes, and one whose first line is refused in blocks of
five. -/
theorem blocks_agree_iff_two :
    iniRead (smartConfInit 4 20) 4096 (fun _ => 0) (fun _ => 4095) twoLines =
        iniReadWhole (smartConfInit 4 20) twoLines ∧
      iniRead (smartConfInit 4 20) 5 (fun _ => 0) (fun _ => 4) openHeader =
        iniReadWhole (smartConfInit 4 20) openHeader :=
  ⟨(blocks_agree_iff twoLines).2 4 20 4096 _ _ (.inl (by decide)),
    (blocks_agree_iff openHeader).2 4 20 5 _ _ (.inr (by decide))⟩

/-- A file of two lines in blocks of four bytes: the second line is lost. -/
theorem blocks_disagree : ¬∀ content, BlocksAgree content := by
  intro h
  have heq := h twoLines 4 20 4 (fun _ => 0) (fun _ => 4) (by decide)
  revert heq
  decide

end F1Goal
