import Mathlib.Tactic

/-!
# Transcoding loops

A transcoding loop takes codes off the front of its input with a *reader* and, for each code, puts
cells behind those it has written with an *emitter*, which is told how many there are. The loop is
the emitter run over the codes that the reader finds (`loop_eq_feed`), so that facts about a loop
are facts about lists of codes:

* `loop_eq_ok_iff`: the loop succeeds when the input splits into codes and all of them are emitted;
* `codes_flatten`: a reader that takes each piece off the front of any input splits a sequence of
  pieces into their codes;
* `exists_of_codes`: a reader that takes nothing but pieces off its input splits only sequences of
  pieces into codes.
-/

namespace Transcode

universe u

variable {α β γ δ ε : Type*}

/-- A reader takes one code off its input and leaves a shorter rest, or fails. -/
structure Reader (α γ ε : Type*) where
  get : List α → Except ε (γ × List α)
  progress : ∀ {s c rest}, get s = .ok (c, rest) → rest.length < s.length

/-- The codes at the front of an input, and the error that ends them before its end. -/
def Reader.codes (r : Reader α γ ε) : List α → List γ × Option ε
  | [] => ([], none)
  | a :: s =>
    match h : r.get (a :: s) with
    | .error e => ([], some e)
    | .ok (c, rest) =>
      have : rest.length ≤ s.length := Nat.lt_succ_iff.1 (r.progress h)
      let found := r.codes rest
      (c :: found.1, found.2)
termination_by s => s.length

/-- The transcoding loop: `out` is what has been written. -/
def loop (r : Reader α γ ε) (emit : ℕ → γ → Except ε (List β)) :
    List α → List β → Except ε (List β)
  | [], out => .ok out
  | a :: s, out =>
    match h : r.get (a :: s) with
    | .error e => .error e
    | .ok (c, rest) =>
      have : rest.length ≤ s.length := Nat.lt_succ_iff.1 (r.progress h)
      match emit out.length c with
      | .error e => .error e
      | .ok cells => loop r emit rest (out ++ cells)
termination_by s => s.length

/-- The emitter run over a list of codes. -/
def feed (emit : ℕ → γ → Except ε (List β)) : List γ → List β → Except ε (List β)
  | [], out => .ok out
  | c :: cs, out =>
    match emit out.length c with
    | .error e => .error e
    | .ok cells => feed emit cs (out ++ cells)

/-- The encodings of a list of codes, one after the other, if all of them have one. -/
def encodeAll (enc : γ → Option (List β)) : List γ → Option (List β)
  | [] => some []
  | c :: cs => (enc c).bind fun cells => (encodeAll enc cs).map (cells ++ ·)

/-- What a sequence of two steps that succeeds is made of. -/
theorem bind_eq_ok {ρ σ : Type u} {x : Except ε ρ} {f : ρ → Except ε σ} {b : σ} :
    (x >>= f) = .ok b ↔ ∃ a, x = .ok a ∧ f a = .ok b := by
  cases x with
  | error e => exact ⟨fun h => (by cases h), fun ⟨_, h, _⟩ => (by cases h)⟩
  | ok a => exact ⟨fun h => ⟨a, rfl, h⟩, fun ⟨_, h, hf⟩ => (by cases h; exact hf)⟩

/-- How a sequence of two steps fails. -/
theorem bind_eq_error {ρ σ : Type u} {x : Except ε ρ} {f : ρ → Except ε σ} {e : ε} :
    (x >>= f) = .error e ↔ x = .error e ∨ ∃ a, x = .ok a ∧ f a = .error e := by
  cases x with
  | error e' =>
    constructor
    · rintro ⟨⟩
      exact .inl rfl
    · rintro (⟨⟨⟩⟩ | ⟨_, ⟨⟩, -⟩)
      rfl
  | ok a =>
    constructor
    · exact fun h => .inr ⟨a, rfl, h⟩
    · rintro (⟨⟨⟩⟩ | ⟨_, ⟨⟩, h⟩)
      exact h

theorem toOption_eq_some {x : Except ε γ} {a : γ} : x.toOption = some a ↔ x = .ok a := by
  cases x with
  | error e => exact ⟨fun h => (by cases h), fun h => (by cases h)⟩
  | ok b => exact ⟨fun h => (by cases h; rfl), fun h => (by cases h; rfl)⟩

/-! ### The codes of an input -/

theorem Reader.codes_nil (r : Reader α γ ε) : r.codes [] = ([], none) := by
  rw [Reader.codes]

theorem Reader.codes_of_error {r : Reader α γ ε} {a : α} {s : List α} {e : ε}
    (h : r.get (a :: s) = .error e) : r.codes (a :: s) = ([], some e) := by
  rw [Reader.codes]
  split
  · next e' h' =>
    rw [h] at h'
    cases h'
    rfl
  · next h' =>
    rw [h] at h'
    cases h'

theorem Reader.codes_of_ok {r : Reader α γ ε} {s rest : List α} {c : γ}
    (h : r.get s = .ok (c, rest)) : r.codes s = (c :: (r.codes rest).1, (r.codes rest).2) := by
  cases s with
  | nil => exact absurd (r.progress h) (Nat.not_lt_zero _)
  | cons a s =>
    rw [Reader.codes]
    split
    · next h' =>
      rw [h] at h'
      cases h'
    · next h' =>
      rw [h] at h'
      cases h'
      rfl

theorem Reader.eq_nil_of_codes {r : Reader α γ ε} {s : List α} (h : r.codes s = ([], none)) :
    s = [] := by
  cases s with
  | nil => rfl
  | cons a s =>
    cases hg : r.get (a :: s) with
    | error e => rw [Reader.codes_of_error hg] at h; cases h
    | ok p => rw [Reader.codes_of_ok hg] at h; cases h

theorem Reader.get_of_codes {r : Reader α γ ε} {s : List α} {c : γ} {cs : List γ}
    (h : r.codes s = (c :: cs, none)) :
    ∃ rest, r.get s = .ok (c, rest) ∧ r.codes rest = (cs, none) := by
  cases s with
  | nil => rw [Reader.codes_nil] at h; cases h
  | cons a s =>
    cases hg : r.get (a :: s) with
    | error e => rw [Reader.codes_of_error hg] at h; cases h
    | ok p =>
      rw [Reader.codes_of_ok hg] at h
      simp only [Prod.mk.injEq, List.cons.injEq] at h
      exact ⟨p.2, by rw [← h.1.1], Prod.ext h.1.2 h.2⟩

/-- There are no more codes than cells. -/
theorem Reader.length_le_of_codes {r : Reader α γ ε} {s : List α} {cs : List γ}
    (h : r.codes s = (cs, none)) : cs.length ≤ s.length := by
  induction cs generalizing s with
  | nil => exact Nat.zero_le _
  | cons c cs ih =>
    obtain ⟨rest, hget, hrest⟩ := Reader.get_of_codes h
    have hlt := r.progress hget
    have hle := ih hrest
    rw [List.length_cons]
    omega

/-! ### Pieces of an input

`P f c` says that the piece `f` stands for the code `c`. -/

section Pieces

variable {r : Reader α γ ε} {P : List α → γ → Prop}

/-- **A sequence of pieces is read** piece by piece. -/
theorem codes_flatten (h : ∀ f c rest, P f c → r.get (f ++ rest) = .ok (c, rest))
    {fs : List (List α)} {cs : List γ} (hfs : List.Forall₂ P fs cs) :
    r.codes fs.flatten = (cs, none) := by
  induction hfs with
  | nil => exact Reader.codes_nil r
  | cons hf _ ih => rw [List.flatten_cons, Reader.codes_of_ok (h _ _ _ hf), ih]

/-- **What is read is a sequence of pieces**, when the reader takes nothing else off its input. -/
theorem exists_of_codes (h : ∀ s c rest, r.get s = .ok (c, rest) → ∃ f, P f c ∧ s = f ++ rest)
    {s : List α} {cs : List γ} (hs : r.codes s = (cs, none)) :
    ∃ fs, List.Forall₂ P fs cs ∧ fs.flatten = s := by
  induction cs generalizing s with
  | nil => exact ⟨[], .nil, (Reader.eq_nil_of_codes hs).symm⟩
  | cons c cs ih =>
    obtain ⟨rest, hget, hrest⟩ := Reader.get_of_codes hs
    obtain ⟨f, hf, rfl⟩ := h _ _ _ hget
    obtain ⟨fs, hfs, rfl⟩ := ih hrest
    exact ⟨f :: fs, .cons hf hfs, rfl⟩

theorem forall₂_raw_iff {raw : γ → List α} {fs : List (List α)} {cs : List γ} :
    List.Forall₂ (fun f c => f = raw c) fs cs ↔ fs = cs.map raw := by
  rw [← List.forall₂_map_right_iff (R := Eq), List.forall₂_eq_eq_eq]

/-- Codes that are written one after the other are read back. -/
theorem codes_flatMap {raw : γ → List α} (h : ∀ c rest, r.get (raw c ++ rest) = .ok (c, rest))
    (cs : List γ) : r.codes (cs.flatMap raw) = (cs, none) := by
  have hpieces : ∀ f c rest, f = raw c → r.get (f ++ rest) = .ok (c, rest) := by
    rintro _ c rest rfl
    exact h c rest
  rw [List.flatMap_def]
  exact codes_flatten hpieces (forall₂_raw_iff.2 rfl)

/-- A text that is read is the codes written one after the other, when a reader takes only written
codes off its input. -/
theorem eq_flatMap_of_codes {raw : γ → List α}
    (h : ∀ s c rest, r.get s = .ok (c, rest) → s = raw c ++ rest) {s : List α} {cs : List γ}
    (hs : r.codes s = (cs, none)) : s = cs.flatMap raw := by
  have hpieces : ∀ s c rest, r.get s = .ok (c, rest) → ∃ f, f = raw c ∧ s = f ++ rest :=
    fun s c rest hg => ⟨_, rfl, h s c rest hg⟩
  obtain ⟨fs, hfs, rfl⟩ := exists_of_codes hpieces hs
  rw [forall₂_raw_iff.1 hfs, List.flatMap_def]

end Pieces

/-! ### The loop -/

theorem loop_nil (r : Reader α γ ε) (emit : ℕ → γ → Except ε (List β)) (out : List β) :
    loop r emit [] out = .ok out := by
  rw [loop]

/-- **The loop is the emitter run over the codes of the input**, and then the error, if any, that
ends them. -/
theorem loop_eq_feed (r : Reader α γ ε) (emit : ℕ → γ → Except ε (List β)) (s : List α)
    (out : List β) :
    loop r emit s out =
      (feed emit (r.codes s).1 out).bind fun o => (r.codes s).2.elim (.ok o) .error := by
  induction hn : s.length using Nat.strong_induction_on generalizing s out with
  | _ n ih =>
    cases s with
    | nil => rw [loop_nil, Reader.codes_nil]; rfl
    | cons a s =>
      rw [loop]
      split
      · next e h =>
        rw [Reader.codes_of_error h]
        rfl
      · next c rest h =>
        have hlt : rest.length < n := hn ▸ r.progress h
        rw [Reader.codes_of_ok h, feed]
        cases emit out.length c with
        | error e => rfl
        | ok cells => exact ih _ hlt rest (out ++ cells) rfl

theorem loop_eq_ok_iff {r : Reader α γ ε} {emit : ℕ → γ → Except ε (List β)} {s : List α}
    {out o : List β} :
    loop r emit s out = .ok o ↔ (r.codes s).2 = none ∧ feed emit (r.codes s).1 out = .ok o := by
  rw [loop_eq_feed]
  cases feed emit (r.codes s).1 out with
  | error e => cases (r.codes s).2 <;> simp [Except.bind]
  | ok o' => cases (r.codes s).2 <;> simp [Except.bind]

/-- One turn of the loop. -/
theorem loop_of_get {r : Reader α γ ε} {emit : ℕ → γ → Except ε (List β)} {s rest : List α} {c : γ}
    {out cells : List β} (hget : r.get s = .ok (c, rest)) (hemit : emit out.length c = .ok cells) :
    loop r emit s out = loop r emit rest (out ++ cells) := by
  rw [loop_eq_feed, loop_eq_feed, Reader.codes_of_ok hget, feed, hemit]

/-- The loop ends where the reader fails. -/
theorem loop_of_get_error {r : Reader α γ ε} {emit : ℕ → γ → Except ε (List β)} {a : α} {s : List α}
    {e : ε} (hget : r.get (a :: s) = .error e) (out : List β) :
    loop r emit (a :: s) out = .error e := by
  rw [loop_eq_feed, Reader.codes_of_error hget]
  rfl

/-! ### Encodings -/

section Encoding

variable {enc : γ → Option (List β)}

@[simp] theorem encodeAll_nil : encodeAll enc [] = some [] := rfl

theorem encodeAll_cons_eq_some {c : γ} {cs : List γ} {o : List β} :
    encodeAll enc (c :: cs) = some o ↔
      ∃ cells rest, enc c = some cells ∧ encodeAll enc cs = some rest ∧ o = cells ++ rest := by
  simp only [encodeAll, Option.bind_eq_some_iff, Option.map_eq_some_iff]
  constructor
  · rintro ⟨cells, hc, rest, hr, rfl⟩
    exact ⟨cells, rest, hc, hr, rfl⟩
  · rintro ⟨cells, rest, hc, hr, rfl⟩
    exact ⟨cells, hc, rest, hr, rfl⟩

/-- Codes that are translated before they are encoded. -/
theorem encodeAll_bind {f : γ → Option δ} {enc : δ → Option (List β)} {cs : List γ} {o : List β} :
    encodeAll (fun c => (f c).bind enc) cs = some o ↔
      ∃ ds, cs.mapM f = some ds ∧ encodeAll enc ds = some o := by
  induction cs generalizing o with
  | nil => simp
  | cons c cs ih =>
    simp only [encodeAll_cons_eq_some, List.mapM_cons, Option.bind_eq_some_iff, ih,
      Option.bind_eq_bind, Option.pure_def]
    constructor
    · rintro ⟨cells, rest, ⟨d, hd, hcells⟩, ⟨ds, hds, hrest⟩, rfl⟩
      exact ⟨d :: ds, ⟨d, hd, ds, hds, rfl⟩, encodeAll_cons_eq_some.2 ⟨_, _, hcells, hrest, rfl⟩⟩
    · rintro ⟨_, ⟨d, hd, ds, hds, ⟨⟩⟩, ho⟩
      obtain ⟨cells, rest, hcells, hrest, rfl⟩ := encodeAll_cons_eq_some.1 ho
      exact ⟨cells, rest, ⟨d, hd, hcells⟩, ⟨ds, hds, hrest⟩, rfl⟩

/-- An encoding that is defined everywhere. -/
theorem encodeAll_total (raw : γ → List β) (cs : List γ) :
    encodeAll (fun c => some (raw c)) cs = some (cs.flatMap raw) := by
  induction cs with
  | nil => rfl
  | cons c cs ih => rw [encodeAll, ih]; rfl

end Encoding

/-! ### Emitting codes -/

theorem feed_append (emit : ℕ → γ → Except ε (List β)) (cs cs' : List γ) (out : List β) :
    feed emit (cs ++ cs') out = feed emit cs out >>= feed emit cs' := by
  induction cs generalizing out with
  | nil => rfl
  | cons c cs ih =>
    rw [List.cons_append, feed, feed]
    cases emit out.length c with
    | error e => rfl
    | ok cells => exact ih _

theorem feed_singleton_eq_ok {emit : ℕ → γ → Except ε (List β)} {c : γ} {out o : List β} :
    feed emit [c] out = .ok o ↔ ∃ cells, emit out.length c = .ok cells ∧ o = out ++ cells := by
  rw [feed]
  cases emit out.length c with
  | error e => exact ⟨fun h => (by cases h), fun ⟨_, h, _⟩ => (by cases h)⟩
  | ok cells =>
    constructor
    · rintro ⟨⟩
      exact ⟨cells, rfl, rfl⟩
    · rintro ⟨_, ⟨⟩, rfl⟩
      rfl

/-- A run that fails has emitted the codes in front of one that is not emitted. -/
theorem feed_eq_error_iff {emit : ℕ → γ → Except ε (List β)} {cs : List γ} {out : List β} {e : ε} :
    feed emit cs out = .error e ↔
      ∃ before c after o, cs = before ++ c :: after ∧ feed emit before out = .ok o ∧
        emit o.length c = .error e := by
  constructor
  · intro h
    induction cs generalizing out with
    | nil => cases h
    | cons c cs ih =>
      cases he : emit out.length c with
      | error e' =>
        rw [feed, he] at h
        cases h
        exact ⟨[], c, cs, out, rfl, rfl, he⟩
      | ok cells =>
        rw [feed, he] at h
        obtain ⟨before, d, after, o, rfl, hbefore, hd⟩ := ih h
        exact ⟨c :: before, d, after, o, rfl, by rw [feed, he]; exact hbefore, hd⟩
  · rintro ⟨before, c, after, o, rfl, hbefore, hc⟩
    rw [feed_append, hbefore]
    change feed emit (c :: after) o = _
    rw [feed, hc]

section Emitting

variable {emit : ℕ → γ → Except ε (List β)} {enc : γ → Option (List β)}

/-- What a successful run has written is the encoding of the codes. -/
theorem encodeAll_of_feed (h : ∀ n c cells, emit n c = .ok cells → enc c = some cells)
    {cs : List γ} {out o : List β} (hf : feed emit cs out = .ok o) :
    ∃ more, encodeAll enc cs = some more ∧ o = out ++ more := by
  induction cs generalizing out with
  | nil => exact ⟨[], rfl, by cases hf; simp⟩
  | cons c cs ih =>
    rw [feed] at hf
    cases he : emit out.length c with
    | error e => rw [he] at hf; cases hf
    | ok cells =>
      rw [he] at hf
      obtain ⟨more, hmore, rfl⟩ := ih hf
      exact ⟨cells ++ more, encodeAll_cons_eq_some.2 ⟨_, _, h _ _ _ he, hmore, rfl⟩, by simp⟩

/-- With room for the whole encoding, every code is emitted. -/
theorem feed_of_encodeAll {size : ℕ}
    (h : ∀ n c cells, enc c = some cells → n + cells.length < size → emit n c = .ok cells)
    {cs : List γ} {out more : List β} (hcs : encodeAll enc cs = some more)
    (hroom : out.length + more.length < size) : feed emit cs out = .ok (out ++ more) := by
  induction cs generalizing out more with
  | nil => cases hcs; rw [feed, List.append_nil]
  | cons c cs ih =>
    obtain ⟨cells, rest, hc, hrest, rfl⟩ := encodeAll_cons_eq_some.1 hcs
    rw [List.length_append] at hroom
    rw [feed, h _ _ _ hc (by omega), ← List.append_assoc]
    exact ih hrest (by rw [List.length_append]; omega)

end Emitting

/-! ### More room -/

section Room

/-- What a run that starts behind `n` cells becomes with more room than `size`: the same, unless
`size` was the reason why it `full` failed, and then it needs all of `size`. -/
def Roomier (full : ε) (size n : ℕ) (x x' : Except ε (List β)) : Prop :=
  x' = x ∨ x = .error full ∧ ∀ cells, x' = .ok cells → size ≤ n + cells.length

variable {full : ε} {size n : ℕ} {x x' : Except ε (List β)} {o : List β}

theorem Roomier.of_ok (h : Roomier full size n x x') (hx : x = .ok o) : x' = .ok o := by
  rcases h with h | ⟨h, -⟩
  · rw [h, hx]
  · rw [hx] at h
    cases h

/-- A failure that is not for want of room stays. -/
theorem Roomier.of_error {e : ε} (h : Roomier full size n x x') (hx : x = .error e)
    (he : e ≠ full) : x' = .error e := by
  rcases h with h | ⟨h, -⟩
  · rw [h, hx]
  · rw [hx] at h
    cases h
    exact absurd rfl he

theorem Roomier.of_full (h : Roomier full size n x x') (hx : x = .error full) (hx' : x' = .ok o) :
    size ≤ n + o.length := by
  rcases h with h | ⟨-, h⟩
  · rw [hx', hx] at h
    cases h
  · exact h o hx'

/-- The cells that are there stay there. -/
theorem length_le_of_feed {emit : ℕ → γ → Except ε (List β)} {cs : List γ} {out o : List β}
    (h : feed emit cs out = .ok o) : out.length ≤ o.length := by
  induction cs generalizing out with
  | nil => cases h; exact le_rfl
  | cons c cs ih =>
    rw [feed] at h
    cases he : emit out.length c with
    | error e => rw [he] at h; cases h
    | ok cells =>
      rw [he] at h
      have hle := ih h
      rw [List.length_append] at hle
      omega

/-- No cell is put outside by a run of an emitter that puts none there. -/
theorem length_le_size_of_feed {emit : ℕ → γ → Except ε (List β)} {cs : List γ} {out o : List β}
    (hemit : ∀ n c cells, emit n c = .ok cells → n + cells.length ≤ size) (hout : out.length ≤ size)
    (h : feed emit cs out = .ok o) : o.length ≤ size := by
  induction cs generalizing out with
  | nil => cases h; exact hout
  | cons c cs ih =>
    rw [feed] at h
    cases he : emit out.length c with
    | error e => rw [he] at h; cases h
    | ok cells =>
      rw [he] at h
      exact ih (by rw [List.length_append]; exact hemit _ _ _ he) h

variable {emit emit' : ℕ → γ → Except ε (List β)}

/-- **A run with more room**, when each emission is one. -/
theorem feed_roomier (h : ∀ n c, Roomier full size n (emit n c) (emit' n c)) (cs : List γ)
    (out : List β) : Roomier full size 0 (feed emit cs out) (feed emit' cs out) := by
  induction cs generalizing out with
  | nil => exact .inl rfl
  | cons c cs ih =>
    rw [feed, feed]
    rcases h out.length c with he | ⟨hfull, hcells⟩
    · rw [he]
      cases emit out.length c with
      | error e => exact .inl rfl
      | ok cells => exact ih (out ++ cells)
    · rw [hfull]
      refine .inr ⟨rfl, fun o ho => ?_⟩
      cases he' : emit' out.length c with
      | error e => rw [he'] at ho; cases ho
      | ok cells =>
        rw [he'] at ho
        have hle := length_le_of_feed ho
        have hsize := hcells cells he'
        rw [List.length_append] at hle
        omega

/-- **A loop with more room.** -/
theorem loop_roomier (r : Reader α γ ε) (h : ∀ n c, Roomier full size n (emit n c) (emit' n c))
    (s : List α) (out : List β) :
    Roomier full size 0 (loop r emit s out) (loop r emit' s out) := by
  rcases feed_roomier h (r.codes s).1 out with hfeed | ⟨hfull, hcells⟩
  · left
    rw [loop_eq_feed, loop_eq_feed, hfeed]
  · right
    refine ⟨?_, fun o ho => hcells o (loop_eq_ok_iff.1 ho).2⟩
    rw [loop_eq_feed, hfull]
    rfl

end Room

end Transcode
