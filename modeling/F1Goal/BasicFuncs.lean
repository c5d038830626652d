import F1Goal.Lib.Block
import F1Goal.Lib.CString

/-!
# Comparing and searching (`f1g_basic_funcs.c`)

The functions read blocks of bytes and have no result when they read outside of one. An `i8_t` that
is returned is a byte; it is compared with zero only. A literal is a block that ends with a zero.
-/

namespace F1Goal

open Block CString

/-- A string literal in memory. -/
def literal (s : List UInt8) : ℤ → Option UInt8 := ofList (s ++ [0])

/-- The string in a buffer of `n` bytes, when it ends there. -/
def stringIn (buf : ℤ → UInt8) (n : ℕ) : Option (List UInt8) :=
  if 0 ∈ Mem.slice buf 0 n then some (cstr (Mem.slice buf 0 n)) else none

/-- The loop of `cmp_str` over the bytes to compare. -/
def cmpBytes (m1 m2 : ℤ → Option UInt8) : ℕ → ℤ → ℤ → Option UInt8
  | 0, _, _ => some 0
  | n + 1, p1, p2 => do
    let c ← m1 p1
    let d ← m2 p2
    if c ≠ d then some (c - d) else cmpBytes m1 m2 n (p1 + 1) (p2 + 1)

/-- `cmp_str`, with a bound on the number of times it halves `len`. -/
def cmpStrIn (m1 m2 : ℤ → Option UInt8) : ℕ → ℤ → ℤ → ℕ → Option UInt8
  | 0, p1, p2, len => cmpBytes m1 m2 len p1 p2
  | bound + 1, p1, p2, len =>
    if len < 512 then cmpBytes m1 m2 len p1 p2
    else do
      let mid := len / 2
      let c ← m1 (p1 + mid)
      let d ← m2 (p2 + mid)
      if c ≠ d then some (c - d)
      else do
        let ret1 ← cmpStrIn m1 m2 bound p1 p2 (mid - 1)
        let ret2 ← cmpStrIn m1 m2 bound (p1 + mid) (p2 + mid) (mid - 1)
        if ret1 = 0 ∧ ret2 = 0 then some 0 else some 1

/-- `cmp_str(p1, p2, len)`. A length is halved fewer times than it is long. -/
def cmpStr (m1 m2 : ℤ → Option UInt8) (p1 p2 : ℤ) (len : ℕ) : Option UInt8 :=
  cmpStrIn m1 m2 len p1 p2 len

/-- `cmp_str2(p, len, str, strlen(str))` with a literal. -/
def cmpStr2 (mem : ℤ → Option UInt8) (p len : ℤ) (str : List UInt8) : Option UInt8 :=
  if len < str.length then some 255 else cmpStr mem (literal str) p 0 str.length

/-- The loop of `find_str`, with the number of positions to try. -/
def findStrFrom (mem : ℤ → Option UInt8) (sub : List UInt8) : ℕ → ℤ → Option (Option ℤ)
  | 0, _ => some none
  | n + 1, pb => do
    if (← cmpStr mem (literal sub) pb 0 sub.length) = 0 then some (some pb)
    else findStrFrom mem sub n (pb + 1)

/-- `find_str(pstr, pstr_end, p_sub, ploc)`: what is stored in `*ploc`. It tries the positions `pb`
with `pstr_end - pb >= substr_len`. -/
def findStr (mem : ℤ → Option UInt8) (pstr pstrEnd : ℤ) (sub : List UInt8) : Option (Option ℤ) :=
  findStrFrom mem sub (pstrEnd - pstr - sub.length + 1).toNat pstr

/-- `substr`: the bytes that it copies to `pdata`, whose number it returns. -/
def substr (mem : ℤ → Option UInt8) (pstr pstrEnd : ℤ) (prev post : List UInt8) (dataSize : ℤ) :
    Option (List UInt8) := do
  match ← findStr mem pstr pstrEnd prev with
  | none => some []
  | some pb =>
    let pe := (← findStr mem (pb + prev.length) pstrEnd post).getD pstrEnd
    let len := pe - pb - prev.length
    if dataSize < len then some [] else read mem (pb + prev.length) len.toNat

/-- The loop of `skip_char`, with the number of bytes to go. -/
def skipCharFrom (mem : ℤ → Option UInt8) (ch : UInt8) : ℕ → ℤ → Option ℤ
  | 0, p => some p
  | n + 1, p => do if ch = (← mem p) then skipCharFrom mem ch n (p + 1) else some p

/-- `skip_char`: the new value of `*p_pdata`. -/
def skipChar (mem : ℤ → Option UInt8) (p len : ℤ) (ch : UInt8) : Option ℤ :=
  skipCharFrom mem ch len.toNat p

/-- `skip_space` -/
def skipSpace (mem : ℤ → Option UInt8) (p len : ℤ) : Option ℤ := skipChar mem p len 32

/-- The loop of `strip_char`, with the number of bytes to go. -/
def stripCharFrom (mem : ℤ → Option UInt8) (ch : UInt8) : ℕ → ℤ → Option ℤ
  | 0, pe => some pe
  | n + 1, pe => do if (← mem pe) = ch then stripCharFrom mem ch n (pe - 1) else some pe

/-- `strip_char`: the value of `*p_e`. -/
def stripChar (mem : ℤ → Option UInt8) (pStr len : ℤ) (ch : UInt8) : Option ℤ :=
  stripCharFrom mem ch len.toNat (pStr + len - 1)

/-! ### What the functions compute -/

theorem literal_holds (s : List UInt8) : Holds (literal s) 0 s :=
  (holds_append.1 (holds_ofList [] (s ++ [0]))).1

theorem byte_sub_ne_zero {c d : UInt8} (h : c ≠ d) : c - d ≠ 0 := by
  intro hzero
  have hcancel := UInt8.sub_add_cancel c d
  rw [hzero, UInt8.zero_add] at hcancel
  exact h hcancel.symm

theorem cmpBytes_spec {m1 m2 : ℤ → Option UInt8} :
    ∀ {a b : List UInt8} {p1 p2 : ℤ}, Holds m1 p1 a → Holds m2 p2 b → a.length = b.length →
      ∃ r, cmpBytes m1 m2 a.length p1 p2 = some r ∧ (r = 0 ↔ a = b)
  | [], [], _, _, _, _, _ => ⟨0, rfl, by simp⟩
  | c :: a, d :: b, p1, p2, h1, h2, hlen => by
    rw [holds_cons] at h1 h2
    obtain ⟨r, hr, hiff⟩ := cmpBytes_spec h1.2 h2.2 (Nat.succ.inj hlen)
    rw [List.length_cons, cmpBytes, h1.1, h2.1]
    by_cases hne : c = d
    · exact ⟨r, by simpa [hne] using hr, by simp [hne, hiff]⟩
    · exact ⟨c - d, by simp [hne], by simp [hne, byte_sub_ne_zero hne]⟩

/-- **`cmp_str`** compares strings of fewer than 512 bytes. -/
theorem cmpStr_spec {m1 m2 : ℤ → Option UInt8} {a b : List UInt8} {p1 p2 : ℤ} (h1 : Holds m1 p1 a)
    (h2 : Holds m2 p2 b) (hlen : a.length = b.length) (hshort : a.length < 512) :
    ∃ r, cmpStr m1 m2 p1 p2 a.length = some r ∧ (r = 0 ↔ a = b) := by
  have heq : cmpStr m1 m2 p1 p2 a.length = cmpBytes m1 m2 a.length p1 p2 := by
    unfold cmpStr
    cases h : a.length with
    | zero => rfl
    | succ n => rw [cmpStrIn, if_pos (by omega)]
  rw [heq]
  exact cmpBytes_spec h1 h2 hlen

/-- **`cmp_str2`** looks for a literal at the start of a string. -/
theorem cmpStr2_spec {mem : ℤ → Option UInt8} {w : List UInt8} {p : ℤ} (h : Holds mem p w)
    {str : List UInt8} (hshort : str.length < 512) :
    ∃ r, cmpStr2 mem p w.length str = some r ∧ (r = 0 ↔ str <+: w) := by
  unfold cmpStr2
  split_ifs with hlen
  · refine ⟨255, rfl, ?_⟩
    simp only [show ¬ (255 : UInt8) = 0 by decide, false_iff]
    exact fun hpre => absurd hpre.length_le (by omega)
  · have htake : (w.take str.length).length = str.length := List.length_take_of_le (by omega)
    obtain ⟨r, hr, hiff⟩ :=
      cmpStr_spec (h.of_prefix (List.take_prefix _ _)) (literal_holds str) htake (by omega)
    rw [htake] at hr
    exact ⟨r, hr, by rw [hiff, List.prefix_iff_eq_take, eq_comm]⟩

/-- A turn of `find_str`. -/
theorem findStrFrom_succ {mem : ℤ → Option UInt8} {sub w : List UInt8} {p : ℤ} (h : Holds mem p w)
    (hshort : sub.length < 512) (hlen : sub.length ≤ w.length) (n : ℕ) :
    findStrFrom mem sub (n + 1) p =
      if sub <+: w then some (some p) else findStrFrom mem sub n (p + 1) := by
  have htake : (w.take sub.length).length = sub.length := List.length_take_of_le hlen
  obtain ⟨r, hr, hiff⟩ :=
    cmpStr_spec (h.of_prefix (List.take_prefix _ _)) (literal_holds sub) htake (by omega)
  rw [htake] at hr
  have hpre : r = 0 ↔ sub <+: w := by rw [hiff, List.prefix_iff_eq_take, eq_comm]
  simp [findStrFrom, hr, hpre]

/-- **`find_str`** finds where a string of fewer than 512 bytes first occurs. -/
theorem findStr_spec {mem : ℤ → Option UInt8} {sub w : List UInt8} {p : ℤ}
    (hshort : sub.length < 512) (h : Holds mem p w) :
    findStr mem p (p + w.length) sub = some ((firstAt sub w).map fun i : ℕ => p + i) := by
  induction w generalizing p with
  | nil =>
    rw [findStr, List.length_nil]
    by_cases hnil : sub = []
    · subst hnil
      simp [findStrFrom_succ h hshort le_rfl, firstAt]
    · have hpos := List.length_pos_iff.2 hnil
      have hnone : (p + ((0 : ℕ) : ℤ) - p - sub.length + 1).toNat = 0 := by omega
      rw [hnone, firstAt, if_neg hnil]
      rfl
  | cons c w ih =>
    have ih := ih (holds_cons.1 h).2
    rw [findStr] at ih ⊢
    by_cases hlen : sub.length ≤ (c :: w).length
    · -- one position more than behind the first byte
      have hturns : (p + ((c :: w).length : ℤ) - p - sub.length + 1).toNat =
          (p + 1 + (w.length : ℤ) - (p + 1) - sub.length + 1).toNat + 1 := by
        rw [List.length_cons] at hlen ⊢
        omega
      rw [hturns, findStrFrom_succ h hshort hlen, ih, firstAt]
      split_ifs
      · simp
      · rw [Option.map_map]
        congr 2
        funext i
        simp only [Function.comp_apply]
        push_cast
        ring
    · have hnone : (p + ((c :: w).length : ℤ) - p - sub.length + 1).toNat = 0 := by omega
      rw [hnone, firstAt_of_lt (not_le.1 hlen)]
      rfl

/-- How far `substr` reads: up to `post`, or to the end. -/
theorem getD_firstAt_le (post rest : List UInt8) :
    (firstAt post rest).getD rest.length ≤ rest.length := by
  cases hfirst : firstAt post rest with
  | none => exact le_rfl
  | some j => exact Nat.le_of_add_right_le (firstAt_le hfirst)

/-- **What `substr` finds**: behind the first `prev` stands the rest of the text, and the search for
`post` there gives the number of its bytes up to `post`, or to the end. -/
theorem findStr_rest {mem : ℤ → Option UInt8} {prev post w : List UInt8} {p : ℤ} {i : ℕ}
    (h : Holds mem p w) (hpost : post.length < 512) (hfirst : firstAt prev w = some i) :
    Holds mem (p + i + prev.length) (w.drop (i + prev.length)) ∧
      ∃ stop, findStr mem (p + i + prev.length) (p + w.length) post = some stop ∧
        stop.getD (p + w.length) - (p + i) - prev.length =
          (((firstAt post (w.drop (i + prev.length))).getD
            (w.drop (i + prev.length)).length : ℕ) : ℤ) := by
  have hle := firstAt_le hfirst
  have hrest := h.drop (i + prev.length) hle
  have hpos : p + ((i + prev.length : ℕ) : ℤ) = p + i + prev.length := by
    push_cast
    ring
  have hend : p + (w.length : ℤ) = p + i + prev.length + (w.drop (i + prev.length)).length := by
    rw [List.length_drop]
    omega
  rw [hpos] at hrest
  refine ⟨hrest, _, hend ▸ findStr_spec hpost hrest, ?_⟩
  rw [hend]
  cases firstAt post (w.drop (i + prev.length)) <;> simp <;> ring

/-- **`substr`** copies what stands behind `prev`, up to `post` or to the end, unless it is too
long. -/
theorem substr_spec {mem : ℤ → Option UInt8} {prev post w : List UInt8} {p : ℤ} (h : Holds mem p w)
    (hprev : prev.length < 512) (hpost : post.length < 512) (size : ℕ) :
    substr mem p (p + w.length) prev post size =
      some (((behind prev post w).filter fun v => v.length ≤ size).getD []) := by
  rw [substr, findStr_spec hprev h, behind, restBehind]
  cases hfirst : firstAt prev w with
  | none => simp
  | some i =>
    obtain ⟨hrest, stop, hstop, hcount⟩ := findStr_rest h hpost hfirst
    simp only [Option.map_some, Option.bind_eq_bind, Option.bind_some, hstop, hcount]
    generalize w.drop (i + prev.length) = rest at hrest ⊢
    have hlen := List.length_take_of_le (getD_firstAt_le post rest)
    rw [Int.toNat_natCast]
    generalize (firstAt post rest).getD rest.length = n at hlen ⊢
    have htaken := read_holds (Holds.of_prefix hrest (List.take_prefix n rest))
    rw [hlen] at htaken
    rw [htaken]
    by_cases hlong : size < n
    · rw [if_pos (by omega), Option.filter_some_neg (by simp [hlen, hlong]), Option.getD_none]
    · rw [if_neg (by omega), Option.filter_some_pos (by simpa [hlen] using hlong), Option.getD_some]

/-- **`skip_char`** stops behind the bytes to skip. -/
theorem skipChar_spec {mem : ℤ → Option UInt8} {ch : UInt8} {w : List UInt8} {p : ℤ}
    (h : Holds mem p w) :
    skipChar mem p w.length ch = some (p + (w.takeWhile (· = ch)).length) := by
  induction w generalizing p with
  | nil => simp [skipChar, skipCharFrom]
  | cons c w ih =>
    have ih := ih (holds_cons.1 h).2
    rw [skipChar, Int.toNat_natCast] at ih ⊢
    rw [List.length_cons, skipCharFrom, (holds_cons.1 h).1]
    by_cases hc : c = ch
    · subst hc
      simp [ih]
      ring
    · simp [hc, Ne.symm hc]

/-- **`strip_char`** stops before the bytes to strip. -/
theorem stripChar_spec {mem : ℤ → Option UInt8} {ch : UInt8} {w : List UInt8} {p : ℤ}
    (h : Holds mem p w) :
    stripChar mem p w.length ch = some (p + (w.rdropWhile (· = ch)).length - 1) := by
  induction w using List.reverseRecOn with
  | nil => simp [stripChar, stripCharFrom]
  | append_singleton w c ih =>
    rw [holds_append, holds_cons] at h
    have ih := ih h.1
    rw [stripChar, Int.toNat_natCast] at ih ⊢
    rw [List.length_append, List.length_singleton, stripCharFrom,
      show p + ((w.length + 1 : ℕ) : ℤ) - 1 = p + w.length by push_cast; ring, h.2.1]
    by_cases hc : c = ch
    · subst hc
      simpa using ih
    · simp [hc]
      ring

end F1Goal
