import F1Goal.BufferSafety

/-!
# Appending is not all or nothing (`f1g_buffer.c`)

`buffer_append` cuts off the data that do not fit and returns `F1G_OK`. `buffer_append_format`
prints a text that does not fit a second time, into the room that there was before the buffer was
enlarged, and adds the full length all the same. `appends_iff` says of every call whether it has
appended all of its text, or nothing when it returns `F1G_ERR`.
-/

namespace F1Goal

/-- **All or nothing**: with `F1G_OK` the whole text stands behind the old contents, with `F1G_ERR`
the contents are the old ones. -/
structure AllOrNothing (b : Buffer) (s : List UInt8) (r : Code × Buffer) : Prop where
  ok : r.1 = .ok → r.2.contents = b.contents ++ s ∧ r.2.len = b.len + s.length
  err : r.1 = .err → r.2.contents = b.contents ∧ r.2.len = b.len

/-- The data are no longer than the room. -/
def AppendFits (b : Buffer) : Option (List UInt8) → Prop
  | none => True
  | some d => (d.length : ℤ) ≤ bufferCap b

/-- What `vsnprintf` writes of a text into `cap` bytes. -/
def printed (cap : ℕ) (s : List UInt8) : List UInt8 :=
  if cap = 0 then [] else s.take (cap - 1) ++ [0]

/-- The enlargement that a text of `n` bytes asks for does not overflow, and is refused. -/
def GrowthRefused (b : Buffer) (n : ℕ) (mem : Malloc) : Prop :=
  b.size + n + 128 < 2 ^ 31 ∧ (b.flag = .ref ∨ mem = none)

/-- The block in use once a text of `n` bytes has made the buffer grow; an overflow leaves the old
one in place. -/
def grownBlock (b : Buffer) (n : ℕ) (mem : Malloc) : ℤ → UInt8 :=
  if b.size + n + 128 < 2 ^ 31 then mem.getD b.buf else b.buf

/-- The text `s` happens to be what stands in the buffer in the end: what the second `vsnprintf` has
written into the old room, and behind it what the block held. -/
def HappensToStand (b : Buffer) (s : List UInt8) (again : Option (List UInt8)) (mem : Malloc) :
    Prop :=
  b.len + s.length < 2 ^ 31 ∧ ∃ s', again = some s' ∧ s'.length = s.length ∧
    s = printed (bufferCap b).toNat s' ++
      Mem.slice (grownBlock b s.length mem) b.size (s.length - (bufferCap b).toNat)

/-- When a formatted text is appended as a whole or not at all: `vsnprintf` fails, or the text is
shorter than the room, or fills it and ends with a zero, or the enlargement is refused, or the text
happens to stand in the buffer. -/
def FormatFits (b : Buffer) (fmt : Formatted) (mem : Malloc) : Prop :=
  match fmt.first with
  | none => True
  | some s =>
    2 ^ 31 ≤ (s.length : ℤ) ∨ (s.length : ℤ) < bufferCap b ∨
      (s.length : ℤ) = bufferCap b ∧ s = printed (bufferCap b).toNat s ∨
      bufferCap b < (s.length : ℤ) ∧
        (GrowthRefused b s.length mem ∨ HappensToStand b s fmt.again mem)

/-! ### What is printed -/

theorem length_printed {cap : ℕ} {s : List UInt8} (h : cap ≤ s.length) :
    (printed cap s).length = cap := by
  rw [printed]
  split_ifs with h0
  · rw [h0]
    rfl
  · rw [List.length_append, List.length_take, List.length_singleton]
    omega

/-- A text that is shorter than the room is printed as a whole. -/
theorem printed_of_lt {cap : ℕ} {s : List UInt8} (h : s.length < cap) :
    printed cap s = s ++ [0] := by
  rw [printed, if_neg (by omega), List.take_of_length_le (by omega)]

theorem vsnprintf_snd {b : Buffer} {off cap : ℤ} (hcap : 0 ≤ cap) {s : List UInt8}
    (hs : (s.length : ℤ) < 2 ^ 31) :
    (b.vsnprintf off cap (some s)).2 = b.write off (printed cap.toNat s) := by
  rw [Buffer.vsnprintf, if_neg (not_le.2 hs)]
  by_cases h0 : cap = 0
  · rw [if_pos h0, printed, if_pos (by omega)]
    simp [Buffer.write]
  · rw [if_neg h0, if_neg (by omega), printed, if_neg (by omega)]

/-! ### What stands in the buffer -/

theorem contents_terminate (p : Buffer) (n : ℤ) :
    (p.terminate n).contents = Mem.slice p.buf 0 n.toNat := by
  rcases le_or_gt 0 n with h0 | hneg
  · exact Mem.slice_store_of_disjoint (.inl (by rw [Buffer.terminate_len]; omega))
  · rw [Buffer.contents, Buffer.terminate_len, Int.toNat_of_nonpos hneg.le]
    rfl

/-- Bytes written behind the contents, and `k` bytes more in use. -/
theorem contents_written {p : Buffer} (h0 : 0 ≤ p.len) (bs : List UInt8) (k : ℕ) :
    ((p.write p.len bs).terminate (p.len + k)).contents =
      p.contents ++ (bs.take k ++ Mem.slice p.buf (p.len + bs.length) (k - bs.length)) := by
  have hlen : (p.len + k).toNat = p.len.toNat + k := by omega
  have hfront : Mem.slice (Mem.store p.buf p.len bs) 0 p.len.toNat = Mem.slice p.buf 0 p.len.toNat :=
    Mem.slice_store_of_disjoint (.inl (by omega))
  have hoff : (0 : ℤ) + p.len.toNat = p.len := by omega
  rw [contents_terminate, hlen, Buffer.write, Mem.slice_add, hfront, hoff, Mem.slice_store]
  rfl

theorem contents_write {p : Buffer} (h0 : 0 ≤ p.len) (bs : List UInt8) :
    (p.write p.len bs).contents = p.contents :=
  Mem.slice_store_of_disjoint (.inl (by rw [Buffer.write_len]; omega))

/-- What `buffer_enlarge` does: nothing, as the block is large enough; nothing, as it is refused; or
it moves the bytes in use to a new block. -/
theorem bufferEnlarge_effect {b : Buffer} (h0 : 0 ≤ b.len) {newSize : ℤ} (mem : Malloc) :
    (newSize < b.size ∧ bufferEnlarge b newSize mem = (.ok, b)) ∨
    (b.size ≤ newSize ∧ (b.flag = .ref ∨ mem = none) ∧ bufferEnlarge b newSize mem = (.err, b)) ∨
    ∃ m p, b.size ≤ newSize ∧ b.flag ≠ .ref ∧ mem = some m ∧
      bufferEnlarge b newSize mem = (.ok, p) ∧ p.len = b.len ∧
      p.buf = Mem.store m 0 b.contents := by
  rcases Int.lt_or_le newSize b.size with h1 | h1
  · exact .inl ⟨h1, if_pos h1⟩
  have hneg : ¬newSize < b.size := not_lt.2 h1
  by_cases h2 : b.flag = .ref
  · exact .inr (.inl ⟨h1, .inl h2, by rw [bufferEnlarge, if_neg hneg, if_pos h2]⟩)
  cases mem with
  | none => exact .inr (.inl ⟨h1, .inr rfl, by rw [bufferEnlarge, if_neg hneg, if_neg h2]⟩)
  | some m =>
    refine .inr (.inr ⟨m, _, h1, h2, rfl, by rw [bufferEnlarge, if_neg hneg, if_neg h2], ?_⟩)
    by_cases h3 : 0 < b.len
    · have htake : (Mem.slice b.buf 0 b.len.toNat).take b.len.toNat = b.contents :=
        List.take_of_length_le (by rw [Mem.length_slice])
      simp only [if_pos h3, Buffer.memcpy, if_neg (not_lt.2 h0), htake]
      exact ⟨rfl, rfl⟩
    · have hnil : b.contents = [] := by
        rw [Buffer.contents, Int.toNat_of_nonpos (not_lt.1 h3), Mem.slice_zero]
      simp only [if_neg h3, hnil, Mem.store_nil, and_self]

/-! ### Data -/

/-- **When data are appended as a whole**: exactly when they are no longer than the room. -/
theorem append_iff {b : Buffer} (h0 : 0 ≤ b.len) (data : Option (List UInt8)) :
    AllOrNothing b (data.getD []) (bufferAppend b data) ↔ AppendFits b data := by
  cases data with
  | none => exact iff_of_true ⟨fun h => (by cases h), fun _ => ⟨rfl, rfl⟩⟩ trivial
  | some d =>
    have hcap : bufferCap b = b.size - b.len := rfl
    by_cases hfits : (d.length : ℤ) ≤ bufferCap b
    · have happ : bufferAppend b (some d) =
          (.ok, (b.write b.len d).terminate (b.len + d.length)) := by
        simp only [bufferAppend, if_pos hfits, Buffer.memcpy]
        rw [if_neg (by omega), Int.toNat_natCast, List.take_length]
      refine iff_of_true ⟨fun _ => ?_, fun h => ?_⟩ hfits
      · rw [happ, contents_written h0]
        simp
      · rw [happ] at h
        cases h
    · -- the data are cut off
      refine iff_of_false (fun h => ?_) hfits
      have hlen := (h.ok rfl).2
      simp only [bufferAppend, if_neg hfits, Buffer.terminate_len, Option.getD_some] at hlen
      omega

/-! ### Formatted text -/

/-- The end of `buffer_append_format`: `n` is added to the length. -/
theorem allOrNothing_terminate_iff {b p : Buffer} {s : List UInt8} {n : ℤ} :
    AllOrNothing b s (.ok, p.terminate n) ↔
      (p.terminate n).contents = b.contents ++ s ∧ n = b.len + s.length :=
  ⟨fun h => h.ok rfl, fun h => ⟨fun _ => h, fun hc => (by cases hc)⟩⟩

theorem allOrNothing_err {b p : Buffer} (s : List UInt8) (hc : p.contents = b.contents)
    (hlen : p.len = b.len) : AllOrNothing b s (.err, p) :=
  ⟨fun h => (by cases h), fun _ => ⟨hc, hlen⟩⟩

/-- A text of the length of another one, printed into a block. -/
theorem allOrNothing_printed_iff {b p : Buffer} (h0 : 0 ≤ b.len) (hlen : p.len = b.len)
    (hcon : p.contents = b.contents) {s t : List UInt8} (hst : t.length = s.length) (cap : ℕ) :
    AllOrNothing b s (.ok, (p.write p.len (printed cap t)).terminate (b.len + t.length)) ↔
      s = (printed cap t).take s.length ++
        Mem.slice p.buf (b.len + (printed cap t).length) (s.length - (printed cap t).length) := by
  rw [allOrNothing_terminate_iff, ← hlen, contents_written (by omega), hst, hcon,
    List.append_cancel_left_eq, and_iff_left rfl, eq_comm]

/-- The length is right only when the second text is as long as the first. -/
theorem i32_len_eq_iff {l : ℤ} {n k : ℕ} (h0 : 0 ≤ l) (hl : l < 2 ^ 31) (hk : (k : ℤ) < 2 ^ 31) :
    i32 (l + k) = l + n ↔ k = n ∧ l + n < 2 ^ 31 := by
  constructor
  · intro h
    have hlt := i32_lt (l + k)
    rcases lt_or_ge (l + k) (2 ^ 31) with hsmall | hbig
    · rw [i32_of_range (by omega) hsmall] at h
      omega
    · rw [i32_of_ge hbig (by omega)] at h
      omega
  · rintro ⟨rfl, h⟩
    exact i32_of_range (by omega) h

/-- What the second `vsnprintf` leaves of a block `p` in which the old contents stand. -/
theorem again_iff {b p : Buffer} (h0 : 0 ≤ b.len) (hle : b.len ≤ b.size) (hsize : b.size < 2 ^ 31)
    (hlen : p.len = b.len) (hcon : p.contents = b.contents) {s : List UInt8}
    (hlong : bufferCap b < (s.length : ℤ)) (again : Option (List UInt8)) :
    AllOrNothing b s (.ok, (p.vsnprintf p.len (bufferCap b) again).2.terminate
        (i32 (b.len + (p.vsnprintf p.len (bufferCap b) again).1))) ↔
      b.len + s.length < 2 ^ 31 ∧ ∃ s', again = some s' ∧ s'.length = s.length ∧
        s = printed (bufferCap b).toNat s' ++
          Mem.slice p.buf b.size (s.length - (bufferCap b).toNat) := by
  have hcap : bufferCap b = b.size - b.len := rfl
  by_cases hprints : ∃ s', again = some s' ∧ (s'.length : ℤ) < 2 ^ 31
  · obtain ⟨s', rfl, hs'⟩ := hprints
    have hfst : (p.vsnprintf p.len (bufferCap b) (some s')).1 = s'.length := by
      rw [vsnprintf_fst, formatLen, if_neg (not_le.2 hs')]
    rw [hfst, vsnprintf_snd (by omega) hs']
    by_cases heq : s'.length = s.length ∧ b.len + s.length < 2 ^ 31
    · have hprinted : (printed (bufferCap b).toNat s').length = (bufferCap b).toNat :=
        length_printed (by omega)
      have hbehind : b.len + ((bufferCap b).toNat : ℤ) = b.size := by omega
      rw [i32_of_range (by omega) (by omega),
        allOrNothing_printed_iff h0 hlen hcon heq.1, hprinted, hbehind,
        List.take_of_length_le (by omega)]
      constructor
      · exact fun h => ⟨heq.2, s', rfl, heq.1, h⟩
      · rintro ⟨-, _, ⟨⟩, -, h⟩
        exact h
    · refine iff_of_false (fun h => ?_) ?_
      · have hn := (allOrNothing_terminate_iff.1 h).2
        exact heq ((i32_len_eq_iff h0 (by omega) hs').1 hn)
      · rintro ⟨hlt, _, ⟨⟩, hs, -⟩
        exact heq ⟨hs, hlt⟩
  · -- no text is printed
    have hfst : (p.vsnprintf p.len (bufferCap b) again).1 = -1 := by
      rw [vsnprintf_fst]
      cases again with
      | none => rfl
      | some s' =>
        rw [formatLen, if_pos]
        by_contra hs'
        exact hprints ⟨s', rfl, not_le.1 hs'⟩
    rw [hfst]
    refine iff_of_false (fun h => ?_) ?_
    · have hn := (allOrNothing_terminate_iff.1 h).2
      rw [i32_of_range (by omega) (by omega)] at hn
      omega
    · rintro ⟨hlt, s', rfl, hs, -⟩
      exact hprints ⟨s', rfl, by omega⟩

section Grow

variable {b q : Buffer} {s : List UInt8} {again : Option (List UInt8)} {mem : Malloc}

/-- A text that does not fit, and the buffer has grown: the text is printed again. -/
theorem appendFormat_grown (hle : b.len ≤ b.size) (hs : (s.length : ℤ) < 2 ^ 31)
    (hlong : bufferCap b < (s.length : ℤ))
    (hq : bufferEnlarge (b.write b.len (printed (bufferCap b).toNat s))
      (i32 (b.size + s.length + 128)) mem = (.ok, q)) :
    bufferAppendFormat b ⟨some s, again⟩ mem =
      (.ok, (q.vsnprintf q.len (bufferCap b) again).2.terminate
        (i32 (q.len + (q.vsnprintf q.len (bufferCap b) again).1))) := by
  have hcap : bufferCap b = b.size - b.len := rfl
  simp only [bufferAppendFormat, vsnprintf_fst, formatLen, if_neg (not_le.2 hs)]
  rw [if_neg (by omega), if_pos hlong, vsnprintf_snd (by omega) hs, Buffer.write_size, hq]
  simp only [(vsnprintf_frame q q.len (bufferCap b) again).1]

/-- A text that does not fit, and the buffer may not grow. -/
theorem appendFormat_refused (hle : b.len ≤ b.size) (hs : (s.length : ℤ) < 2 ^ 31)
    (hlong : bufferCap b < (s.length : ℤ))
    (hq : bufferEnlarge (b.write b.len (printed (bufferCap b).toNat s))
      (i32 (b.size + s.length + 128)) mem = (.err, q)) :
    bufferAppendFormat b ⟨some s, again⟩ mem = (.err, q) := by
  have hcap : bufferCap b = b.size - b.len := rfl
  simp only [bufferAppendFormat, vsnprintf_fst, formatLen, if_neg (not_le.2 hs)]
  rw [if_neg (by omega), if_pos hlong, vsnprintf_snd (by omega) hs, Buffer.write_size, hq]

/-- A buffer that has grown is left complete by chance only. -/
theorem grown_iff (h0 : 0 ≤ b.len) (hle : b.len ≤ b.size) (hsize : b.size < 2 ^ 31)
    (hs : (s.length : ℤ) < 2 ^ 31) (hlong : bufferCap b < (s.length : ℤ))
    (hq : bufferEnlarge (b.write b.len (printed (bufferCap b).toNat s))
      (i32 (b.size + s.length + 128)) mem = (.ok, q))
    (hlen : q.len = b.len) (hcon : q.contents = b.contents)
    (hbehind : Mem.slice q.buf b.size (s.length - (bufferCap b).toNat) =
      Mem.slice (grownBlock b s.length mem) b.size (s.length - (bufferCap b).toNat)) :
    AllOrNothing b s (bufferAppendFormat b ⟨some s, again⟩ mem) ↔
      HappensToStand b s again mem := by
  have hagain := again_iff h0 hle hsize hlen hcon hlong again
  rw [hlen, hbehind] at hagain
  rw [appendFormat_grown hle hs hlong hq, hlen, hagain, HappensToStand]

/-- What is printed first stays off the bytes behind the room. -/
theorem slice_printed (hle : b.len ≤ b.size) (hlong : bufferCap b < (s.length : ℤ)) (k : ℕ) :
    Mem.slice (b.write b.len (printed (bufferCap b).toNat s)).buf b.size k =
      Mem.slice b.buf b.size k := by
  have hcap : bufferCap b = b.size - b.len := rfl
  have hprinted : (printed (bufferCap b).toNat s).length = (bufferCap b).toNat :=
    length_printed (by omega)
  exact Mem.slice_store_of_disjoint (.inr (by omega))

/-- A text that does not fit: the buffer is asked to grow, and the text printed again. -/
theorem grow_iff (h0 : 0 ≤ b.len) (hle : b.len ≤ b.size) (hsize : b.size < 2 ^ 31)
    (hs : (s.length : ℤ) < 2 ^ 31) (hlong : bufferCap b < (s.length : ℤ))
    (again : Option (List UInt8)) (mem : Malloc) :
    AllOrNothing b s (bufferAppendFormat b ⟨some s, again⟩ mem) ↔
      GrowthRefused b s.length mem ∨ HappensToStand b s again mem := by
  have hcap : bufferCap b = b.size - b.len := rfl
  obtain ⟨p, hp⟩ : ∃ p, p = b.write b.len (printed (bufferCap b).toNat s) := ⟨_, rfl⟩
  have hplen : p.len = b.len := by rw [hp, Buffer.write_len]
  have hpsize : p.size = b.size := by rw [hp, Buffer.write_size]
  have hpflag : p.flag = b.flag := by rw [hp]; rfl
  have hpcon : p.contents = b.contents := by rw [hp, contents_write h0]
  rcases lt_or_ge (b.size + s.length + 128) (2 ^ 31) with hfits | hover
  · have hnew : i32 (b.size + s.length + 128) = b.size + s.length + 128 :=
      i32_of_range (by omega) hfits
    rcases @bufferEnlarge_effect p (by omega) (i32 (b.size + s.length + 128)) mem with
      ⟨hlt, -⟩ | ⟨-, hrefused, h⟩ | ⟨m, q, -, hflag, rfl, h, hqlen, hqbuf⟩
    · omega
    · have hcall : bufferAppendFormat b ⟨some s, again⟩ mem = (.err, p) :=
        appendFormat_refused hle hs hlong (by rw [← hp, h])
      rw [hcall]
      rw [hpflag] at hrefused
      exact iff_of_true (allOrNothing_err s hpcon hplen) (.inl ⟨hfits, hrefused⟩)
    · have hrefused : ¬GrowthRefused b s.length (some m) := by
        rintro ⟨-, href | ⟨⟨⟩⟩⟩
        exact hflag (hpflag.trans href)
      have hclen : p.contents.length = b.len.toNat := by rw [hpcon, Buffer.contents, Mem.length_slice]
      have hqcon : q.contents = b.contents := by
        rw [Buffer.contents, hqbuf, hqlen, hplen, ← hclen, Mem.slice_store_self, hpcon]
      rw [or_iff_right hrefused]
      refine grown_iff h0 hle hsize hs hlong (by rw [← hp, h]) (hqlen.trans hplen) hqcon ?_
      rw [hqbuf, grownBlock, if_pos hfits]
      exact Mem.slice_store_of_disjoint (.inr (by omega))
  · -- an overflow: the block stays as it is
    have hnew : i32 (b.size + s.length + 128) = b.size + s.length + 128 - 2 ^ 32 :=
      i32_of_ge hover (by omega)
    have hrefused : ¬GrowthRefused b s.length mem := fun h => absurd h.1 (not_lt.2 hover)
    have hsame : bufferEnlarge p (i32 (b.size + s.length + 128)) mem = (.ok, p) :=
      if_pos (by omega)
    rw [or_iff_right hrefused]
    refine grown_iff h0 hle hsize hs hlong (by rw [← hp, hsame]) hplen hpcon ?_
    rw [hp, grownBlock, if_neg (not_lt.2 hover), slice_printed hle hlong]

end Grow

/-- **When a formatted text is appended as a whole**, or nothing is. -/
theorem format_iff {b : Buffer} (h0 : 0 ≤ b.len) (hle : b.len ≤ b.size) (hsize : b.size < 2 ^ 31)
    (fmt : Formatted) (mem : Malloc) :
    AllOrNothing b (fmt.first.getD []) (bufferAppendFormat b fmt mem) ↔ FormatFits b fmt mem := by
  have hcap : bufferCap b = b.size - b.len := rfl
  obtain ⟨_ | s, again⟩ := fmt
  · exact iff_of_true (allOrNothing_err [] rfl rfl) trivial
  rw [Option.getD_some]
  rcases le_or_gt (2 ^ 31) (s.length : ℤ) with hbig | hs
  · have hcall : bufferAppendFormat b ⟨some s, again⟩ mem = (.err, b) := by
      simp only [bufferAppendFormat, Buffer.vsnprintf, if_pos hbig]
      rw [if_pos (by decide)]
    rw [hcall]
    exact iff_of_true (allOrNothing_err s rfl rfl) (.inl hbig)
  rcases lt_or_ge (bufferCap b) (s.length : ℤ) with hlong | hfits
  · rw [grow_iff h0 hle hsize hs hlong again mem]
    constructor
    · exact fun h => .inr (.inr (.inr ⟨hlong, h⟩))
    · rintro (h | h | ⟨h, -⟩ | ⟨-, h⟩)
      · omega
      · omega
      · omega
      · exact h
  · -- the text is printed once
    have hcall : bufferAppendFormat b ⟨some s, again⟩ mem =
        (.ok, (b.write b.len (printed (bufferCap b).toNat s)).terminate (b.len + s.length)) := by
      simp only [bufferAppendFormat, vsnprintf_fst, formatLen, if_neg (not_le.2 hs)]
      rw [if_neg (by omega), if_neg (not_lt.2 hfits), vsnprintf_snd (by omega) hs,
        Buffer.write_len, i32_of_range (by omega) (by omega)]
    rw [hcall, allOrNothing_printed_iff h0 rfl rfl rfl]
    rcases hfits.lt_or_eq with hlt | heq
    · rw [printed_of_lt (by omega)]
      exact iff_of_true (by simp) (.inr (.inl hlt))
    · have hprinted : (printed (bufferCap b).toNat s).length = s.length := by
        rw [length_printed (by omega)]
        omega
      rw [hprinted, Nat.sub_self, Mem.slice_zero, List.append_nil,
        List.take_of_length_le hprinted.le]
      constructor
      · exact fun h => .inr (.inr (.inl ⟨heq, h⟩))
      · rintro (h | h | ⟨-, h⟩ | ⟨h, -⟩)
        · omega
        · omega
        · exact h
        · omega

/-! ### Both calls -/

/-- **When appending is all or nothing.** `buffer_append` keeps to it exactly for data no longer
than the room, and `buffer_append_format` exactly for a text that fits with its terminating zero, is
refused, or is left complete by chance. -/
theorem appends_iff {b : Buffer} (h0 : 0 ≤ b.len) (hle : b.len ≤ b.size) (hsize : b.size < 2 ^ 31) :
    (∀ data, AllOrNothing b (data.getD []) (bufferAppend b data) ↔ AppendFits b data) ∧
      ∀ fmt mem, AllOrNothing b (fmt.first.getD []) (bufferAppendFormat b fmt mem) ↔
        FormatFits b fmt mem :=
  ⟨append_iff h0, format_iff h0 hle hsize⟩

/-- A buffer of two bytes. -/
def twoBytes : Buffer := ⟨.allo, 2, 0, fun _ => 0, false⟩

theorem appends_iff_two :
    (∀ data, AllOrNothing twoBytes (data.getD []) (bufferAppend twoBytes data) ↔
        AppendFits twoBytes data) ∧
      ∀ fmt mem, AllOrNothing twoBytes (fmt.first.getD []) (bufferAppendFormat twoBytes fmt mem) ↔
        FormatFits twoBytes fmt mem :=
  appends_iff le_rfl (by decide) (by decide)

/-- Three bytes are cut off to the two there is room for. -/
theorem append_cuts_off :
    ¬∀ b : Buffer, 0 ≤ b.len → b.len ≤ b.size → b.size < 2 ^ 31 →
      (∀ data, AllOrNothing b (data.getD []) (bufferAppend b data)) ∧
        ∀ fmt mem, AllOrNothing b (fmt.first.getD []) (bufferAppendFormat b fmt mem) := by
  intro h
  have happ := (h twoBytes le_rfl (by decide) (by decide)).1 (some [65, 66, 67])
  exact absurd (happ.ok rfl).2 (by decide)

end F1Goal
