import F1Goal.BasicFuncs
import F1Goal.BasicTypes

/-!
# Texts between two strings (`find_str` and `substr`)

`find_str` tries each position at which a string could end inside of the text, and so finds the
leftmost one. `substr` computes the length of what it copies as a difference of pointers, which it
keeps in an `int`: of what is longer than 2 GiB it copies a part, or reads a negative number of
bytes. `substrI32` has the types of the source; where the text is shorter it is `substr`
(`substrI32_eq_substr`), and `substr_exact_iff` says when the result is right.
-/

open Block CString

namespace F1Goal

/-- `substr` with the types of the source: what it returns, and the bytes that it copies to `pdata`.
`memcpy` has no result for a negative number of bytes. -/
def substrI32 (mem : ℤ → Option UInt8) (pstr pstrEnd : ℤ) (prev post : List UInt8) (dataSize : ℤ) :
    Option (ℤ × List UInt8) := do
  match ← findStr mem pstr pstrEnd prev with
  | none => some (0, [])
  | some pb =>
    let prevLen := i32 prev.length
    let pe := (← findStr mem (pb + prevLen) pstrEnd post).getD pstrEnd
    let len := i32 (pe - pb - prevLen)
    if dataSize < len then some (0, [])
    else if len < 0 then none
    else do
      let bs ← read mem (pb + prevLen) len.toNat
      some (len, bs)

/-! ### What is to be found -/

/-- The bytes behind the first `prev`, up to the next `post`, or to the end when there is none. -/
def Extracts (prev post w v : List UInt8) : Prop :=
  ∃ i, IsLeast {i | OccursAt prev w i} i ∧
    ((∃ j, IsLeast {j | OccursAt post (w.drop (i + prev.length)) j} j ∧
        v = (w.drop (i + prev.length)).take j) ∨
      (∀ j, ¬OccursAt post (w.drop (i + prev.length)) j) ∧ v = w.drop (i + prev.length))

theorem extracts_iff {prev post w v : List UInt8} :
    Extracts prev post w v ↔ behind prev post w = some v := by
  constructor
  · rintro ⟨i, hi, hpost⟩
    rw [behind, restBehind, firstAt_eq_some_iff.2 hi]
    rcases hpost with ⟨j, hj, rfl⟩ | ⟨hnone, rfl⟩
    · rw [Option.map_some, Option.map_some, firstAt_eq_some_iff.2 hj, Option.getD_some]
    · rw [Option.map_some, Option.map_some, firstAt_eq_none_iff.2 hnone, Option.getD_none,
        List.take_length]
  · intro h
    obtain ⟨rest, hrest, rfl⟩ := Option.map_eq_some_iff.1 h
    obtain ⟨i, hi, rfl⟩ := Option.map_eq_some_iff.1 hrest
    refine ⟨i, firstAt_eq_some_iff.1 hi, ?_⟩
    cases hpost : firstAt post (w.drop (i + prev.length)) with
    | none => exact .inr ⟨firstAt_eq_none_iff.1 hpost, by rw [Option.getD_none, List.take_length]⟩
    | some j => exact .inl ⟨j, firstAt_eq_some_iff.1 hpost, by rw [Option.getD_some]⟩

theorem behind_eq_none_iff {prev post w : List UInt8} :
    behind prev post w = none ↔ ∀ i, ¬OccursAt prev w i := by
  rw [behind, restBehind, Option.map_eq_none_iff, Option.map_eq_none_iff, firstAt_eq_none_iff]

/-! ### What is copied -/

/-- What `substr` makes of the text that it looks for. -/
def copied (dataSize : ℤ) (v : List UInt8) : Option (ℤ × List UInt8) :=
  if dataSize < i32 v.length then some (0, [])
  else if i32 v.length < 0 then none
  else some (i32 v.length, v.take (i32 v.length).toNat)

theorem substrI32_spec {mem : ℤ → Option UInt8} {prev post w : List UInt8} {p : ℤ}
    (h : Holds mem p w) (hprev : prev.length < 512) (hpost : post.length < 512) (dataSize : ℤ) :
    substrI32 mem p (p + w.length) prev post dataSize =
      (behind prev post w).elim (some (0, [])) (copied dataSize) := by
  have hprevLen : i32 prev.length = prev.length := i32_of_range (by omega) (by omega)
  rw [substrI32, findStr_spec hprev h, hprevLen, behind, restBehind]
  cases hfirst : firstAt prev w with
  | none => simp
  | some i =>
    obtain ⟨hrest, stop, hstop, hcount⟩ := findStr_rest h hpost hfirst
    rw [Option.map_some, Option.map_some, Option.map_some, Option.elim_some]
    simp only [Option.bind_eq_bind, Option.bind_some]
    rw [hstop, Option.bind_some, hcount]
    generalize w.drop (i + prev.length) = rest at hrest ⊢
    have hn := getD_firstAt_le post rest
    generalize (firstAt post rest).getD rest.length = n at hn ⊢
    rw [copied, List.length_take_of_le hn]
    -- of a length that overflows, no more is read than there is
    have hle : (i32 n).toNat ≤ n := Int.toNat_le.2 (i32_le (Int.natCast_nonneg n))
    generalize (i32 n).toNat = k at hle ⊢
    have htaken := read_holds (Holds.of_prefix hrest (List.take_prefix k rest))
    rw [List.length_take_of_le (hle.trans hn)] at htaken
    rw [htaken, List.take_take, Nat.min_eq_left hle, Option.bind_some]

/-- **Short texts**: both models of `substr` copy the same. -/
theorem substrI32_eq_substr {mem : ℤ → Option UInt8} {prev post w : List UInt8} {p : ℤ}
    (h : Holds mem p w) (hprev : prev.length < 512) (hpost : post.length < 512)
    (hlen : w.length < 2 ^ 31) (size : ℕ) :
    substrI32 mem p (p + w.length) prev post size =
      (substr mem p (p + w.length) prev post size).map fun bs => ((bs.length : ℤ), bs) := by
  rw [substrI32_spec h hprev hpost, substr_spec h hprev hpost, Option.map_some]
  cases hbehind : behind prev post w with
  | none => rfl
  | some v =>
    have hv : v.length ≤ w.length := by
      obtain ⟨rest, hrest, rfl⟩ := Option.map_eq_some_iff.1 hbehind
      obtain ⟨i, -, rfl⟩ := Option.map_eq_some_iff.1 hrest
      rw [List.length_take, List.length_drop]
      omega
    have hexact : i32 v.length = v.length := i32_of_range (by omega) (by omega)
    rw [Option.elim_some, copied, hexact, if_neg (show ¬(v.length : ℤ) < 0 by omega),
      Int.toNat_natCast, List.take_length]
    by_cases hfits : v.length ≤ size
    · rw [if_neg (by omega), Option.filter_some_pos (by simpa using hfits), Option.getD_some]
    · rw [if_pos (by omega), Option.filter_some_neg (by simpa using hfits), Option.getD_none]
      rfl

/-! ### Which results are right -/

/-- A call for a text in memory, with strings of fewer than 512 bytes and the size of the buffer. -/
structure SubstrCall where
  mem : ℤ → Option UInt8
  pstr : ℤ
  text : List UInt8
  holds : Holds mem pstr text
  prev : List UInt8
  post : List UInt8
  prev_short : prev.length < 512
  post_short : post.length < 512
  dataSize : ℤ
  size_lt : dataSize < 2 ^ 31

namespace SubstrCall

variable (c : SubstrCall)

/-- **The search is exact**: what is stored is the leftmost position at which a string stands, or
`NULL` when it stands nowhere. -/
def Finds : Prop :=
  ∀ sub : List UInt8, sub.length < 512 →
    (∃ i, IsLeast {i | OccursAt sub c.text i} i ∧
        findStr c.mem c.pstr (c.pstr + c.text.length) sub = some (some (c.pstr + i))) ∨
      (∀ i, ¬OccursAt sub c.text i) ∧
        findStr c.mem c.pstr (c.pstr + c.text.length) sub = some none

/-- **The extraction is exact**: what stands behind `prev` is copied when the buffer is large enough
for it, and its length is returned; otherwise nothing is copied, and 0 is returned. -/
def Copies : Prop :=
  (∀ v, Extracts c.prev c.post c.text v →
    substrI32 c.mem c.pstr (c.pstr + c.text.length) c.prev c.post c.dataSize =
      some (if v.length ≤ c.dataSize then ((v.length : ℤ), v) else (0, []))) ∧
    ((∀ i, ¬OccursAt c.prev c.text i) →
      substrI32 c.mem c.pstr (c.pstr + c.text.length) c.prev c.post c.dataSize = some (0, []))

theorem finds : c.Finds := by
  intro sub hshort
  rw [findStr_spec hshort c.holds]
  cases hfirst : firstAt sub c.text with
  | none => exact .inr ⟨firstAt_eq_none_iff.1 hfirst, rfl⟩
  | some i => exact .inl ⟨i, firstAt_eq_some_iff.1 hfirst, rfl⟩

end SubstrCall

/-- What is copied of a text is right when its length does not overflow, or overflows to one for
which nothing is copied. -/
theorem copied_exact_iff {dataSize : ℤ} (hsize : dataSize < 2 ^ 31) (v : List UInt8) :
    copied dataSize v = some (if v.length ≤ dataSize then ((v.length : ℤ), v) else (0, [])) ↔
      v.length < 2 ^ 31 ∨ dataSize < i32 v.length ∨ i32 v.length = 0 := by
  rw [copied]
  by_cases hshort : v.length < 2 ^ 31
  · have hexact : i32 v.length = v.length := i32_of_range (by omega) (by omega)
    rw [hexact, if_neg (show ¬(v.length : ℤ) < 0 by omega), Int.toNat_natCast, List.take_length]
    refine iff_of_true ?_ (.inl hshort)
    by_cases hfits : (v.length : ℤ) ≤ dataSize
    · rw [if_neg (by omega), if_pos hfits]
    · rw [if_pos (by omega), if_neg hfits]
  · rw [if_neg (show ¬(v.length : ℤ) ≤ dataSize by omega)]
    by_cases hsmall : dataSize < i32 v.length
    · exact iff_of_true (if_pos hsmall) (.inr (.inl hsmall))
    · rw [if_neg hsmall]
      by_cases hneg : i32 v.length < 0
      · rw [if_pos hneg]
        refine iff_of_false (by simp) ?_
        rintro (h | h | h)
        · exact hshort h
        · exact hsmall h
        · omega
      · rw [if_neg hneg, Option.some_inj, Prod.mk.injEq]
        constructor
        · rintro ⟨hzero, -⟩
          exact .inr (.inr hzero)
        · rintro (h | h | hzero)
          · exact absurd h hshort
          · exact absurd h hsmall
          · exact ⟨hzero, by rw [hzero]; rfl⟩

/-- **When search and extraction are exact**: the length of what stands behind `prev` does not
overflow, or overflows to one that is too large for the buffer, or to 0. -/
theorem substr_exact_iff (c : SubstrCall) : c.Finds ∧ c.Copies ↔
    ∀ v, Extracts c.prev c.post c.text v →
      v.length < 2 ^ 31 ∨ c.dataSize < i32 v.length ∨ i32 v.length = 0 := by
  have hspec := substrI32_spec c.holds c.prev_short c.post_short c.dataSize
  rw [and_iff_right c.finds, SubstrCall.Copies, hspec]
  have hnone (h : ∀ i, ¬OccursAt c.prev c.text i) :
      (behind c.prev c.post c.text).elim (some (0, [])) (copied c.dataSize) = some (0, []) := by
    rw [behind_eq_none_iff.2 h, Option.elim_none]
  rw [and_iff_left hnone]
  refine forall_congr' fun v => forall_congr' fun hv => ?_
  rw [extracts_iff.1 hv, Option.elim_some]
  exact copied_exact_iff c.size_lt v

/-- A text of so many bytes behind a mark. -/
def longText (n : ℕ) : SubstrCall where
  mem := ofList (61 :: List.replicate n 120)
  pstr := 0
  text := 61 :: List.replicate n 120
  holds := holds_ofList_self _
  prev := [61]
  post := [10]
  prev_short := by decide
  post_short := by decide
  dataSize := 16
  size_lt := by decide

theorem longText_extracts (n : ℕ) :
    Extracts (longText n).prev (longText n).post (longText n).text (List.replicate n 120) := by
  have hfirst : firstAt [61] (61 :: List.replicate n 120) = some 0 :=
    firstAt_of_isPrefix (List.prefix_append [61] _)
  have hpost : firstAt [10] (List.replicate n 120) = none :=
    firstAt_of_notMem fun hmem => absurd (List.eq_of_mem_replicate hmem) (by decide)
  have hrest : restBehind [61] (61 :: List.replicate n 120) = some (List.replicate n 120) := by
    rw [restBehind, hfirst]
    rfl
  rw [extracts_iff]
  change behind [61] [10] (61 :: List.replicate n 120) = _
  rw [behind, hrest, Option.map_some, hpost, Option.getD_none, List.take_length]

theorem longText_not_copies {n : ℕ} (hlong : 2 ^ 31 ≤ n) (hneg : i32 n < 0) :
    ¬(longText n).Copies := by
  intro h
  have hcopied := h.1 _ (longText_extracts n)
  rw [substrI32_spec (longText n).holds (longText n).prev_short (longText n).post_short,
    extracts_iff.1 (longText_extracts n), Option.elim_some,
    copied_exact_iff (longText n).size_lt, List.length_replicate] at hcopied
  rcases hcopied with hshort | hsmall | hzero
  · exact absurd hshort (not_lt.2 hlong)
  · exact absurd (hsmall.trans hneg) (show ¬(16 : ℤ) < 0 by decide)
  · exact absurd hzero hneg.ne

/-- A length of 2 GiB is taken for a negative number. -/
theorem long_text_not_copied : i32 ((2 ^ 31 : ℕ) : ℤ) = -2 ^ 31 ∧
    ¬((longText (2 ^ 31)).Finds ∧ (longText (2 ^ 31)).Copies) :=
  ⟨by decide, fun h => longText_not_copies le_rfl (by decide) h.2⟩

end F1Goal
