import F1Goal.Lib.Decimal

/-!
# Numbers and dictionaries of Python

`int` reads an integer, and takes back one that is printed (`int_print`). A dictionary of lists is
the list of its items in the order of their insertion; what `appendTo` adds stands at the end of the
list of its key (`listOf_foldl_appendTo`).
-/

namespace Python

open CString Decimal

/-! ### Numbers -/

/-- `int(s)`; `none` is `ValueError`. -/
def int (s : List UInt8) : Option ℤ :=
  let t := (s.dropWhile isSpace).rdropWhile isSpace
  let digits := afterSign t
  if digits ≠ [] ∧ digits.all fun c => digitValue c < 10 then
    some (signed (t.head? = some 45) (ofDigits 10 digits))
  else none

theorem isSpace_of_mem_print {n : ℤ} {c : UInt8} (h : c ∈ print n) : isSpace c = false := by
  rcases mem_print h with rfl | ⟨h1, h2⟩
  · decide
  · refine Bool.eq_false_iff.2 fun hc => ?_
    exact absurd (isSpace_lt hc) (UInt8.not_lt.2 h1)

/-- **A number that is printed is read back.** -/
theorem int_print (n : ℤ) : int (print n) = some n := by
  have hclean : Clean (digits n.natAbs) := fun c hc =>
    digit_facts (by decide) (digitValue_lt (List.mem_of_mem_head? hc))
  obtain ⟨hafter, hneg, hspace⟩ := afterSign_append (sign_print n) hclean
  have hdrop : (print n).dropWhile isSpace = print n :=
    dropWhile_blanks (fun _ hc => absurd hc List.not_mem_nil) hspace
  have hrdrop : (print n).rdropWhile isSpace = print n :=
    List.rdropWhile_eq_self_iff.2 fun hne => by
      rw [isSpace_of_mem_print (List.getLast_mem hne)]
      decide
  rw [int, hdrop, hrdrop, print, hafter, hneg, ofDigits_digits, signed_natAbs]
  refine if_pos ⟨digits_ne_nil _, List.all_eq_true.2 fun c hc => ?_⟩
  exact decide_eq_true (digitValue_lt hc)

/-! ### Dictionaries of lists -/

variable {α β : Type*} [DecidableEq α]

/-- `if k not in d: d[k] = []`, and `d[k].append(v)` -/
def appendTo : List (α × List β) → α → β → List (α × List β)
  | [], k, v => [(k, [v])]
  | (k', vs) :: d, k, v =>
    if k' = k then (k', vs ++ [v]) :: d else (k', vs) :: appendTo d k v

/-- The list of a key, or the empty one. -/
def listOf (d : List (α × List β)) (k : α) : List β := (d.lookup k).getD []

@[simp] theorem listOf_nil (k : α) : listOf ([] : List (α × List β)) k = [] := rfl

theorem listOf_cons (k' : α) (vs : List β) (d : List (α × List β)) (k : α) :
    listOf ((k', vs) :: d) k = if k = k' then vs else listOf d k := by
  rw [listOf, List.lookup_cons]
  split_ifs with h
  · rw [beq_iff_eq.2 h]
    rfl
  · rw [beq_false_of_ne h]
    rfl

theorem listOf_appendTo (d : List (α × List β)) (k k' : α) (v : β) :
    listOf (appendTo d k v) k' = listOf d k' ++ if k = k' then [v] else [] := by
  induction d with
  | nil =>
    rw [appendTo, listOf_cons]
    by_cases h : k = k'
    · simp [h]
    · simp [h, Ne.symm h]
  | cons item d ih =>
    obtain ⟨k'', vs⟩ := item
    by_cases h : k'' = k
    · -- the key is there
      subst h
      rw [appendTo, if_pos rfl, listOf_cons, listOf_cons]
      by_cases hk : k' = k''
      · simp [hk]
      · simp [hk, Ne.symm hk]
    · rw [appendTo, if_neg h, listOf_cons, listOf_cons, ih]
      by_cases hk : k' = k''
      · simp [hk, Ne.symm h]
      · simp [hk]

/-- **The list of a key** holds what was appended to it, in order. -/
theorem listOf_foldl_appendTo (items : List (α × β)) (d : List (α × List β)) (k : α) :
    listOf (items.foldl (fun d item => appendTo d item.1 item.2) d) k =
      listOf d k ++ (items.filter fun item => item.1 = k).map Prod.snd := by
  induction items generalizing d with
  | nil => simp
  | cons item items ih =>
    rw [List.foldl_cons, ih, listOf_appendTo, List.append_assoc, List.filter_cons]
    by_cases h : item.1 = k <;> simp [h]

end Python
