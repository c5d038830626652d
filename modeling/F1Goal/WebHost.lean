import F1Goal.DataField
import F1Goal.Lib.LittleEndian
import F1Goal.Lib.Strtol

/-!
# An entry of the host list (`pksender_v2.c`)

A line of the file fills an entry of type `webhost_info_t`, member by member. The entries are bytes:
a text that is as long as its member, or longer, is cut off, and its zero comes behind the member.
`fillHost_holds_iff` says that an entry holds the fields of a line exactly when they fit.
-/

namespace F1Goal

open CString

/-! ### The members -/

/-- The members of `webhost_info_t`, in their order. -/
inductive HostField
  | type
  | srcIp
  | srcPort
  | dstIp
  | dstPort
  | host
  | path
  | ua
  | cookie
  deriving DecidableEq, Repr

namespace HostField

/-- The field of the line. -/
def seq : HostField → ℕ
  | type => 0
  | srcIp => 1
  | srcPort => 2
  | dstIp => 3
  | dstPort => 4
  | host => 5
  | path => 6
  | ua => 7
  | cookie => 8

/-- Where the member stands in the entry. -/
def off : HostField → ℕ
  | type => 0
  | srcIp => 4
  | srcPort => 20
  | dstIp => 22
  | dstPort => 38
  | host => 40
  | path => 168
  | ua => 424
  | cookie => 680

/-- The size of the member: `IP_STR_SIZE`, `HOST_STR_SIZE`, `PATH_STR_SIZE`, `UA_STR_SIZE` and
`COOKIE_STR_SIZE` for the texts. -/
def size : HostField → ℕ
  | type => 4
  | srcPort | dstPort => 2
  | srcIp | dstIp => 16
  | host => 128
  | path | ua => 256
  | cookie => 1024

/-- The member is a text, and not a number. -/
def isText : HostField → Bool
  | type | srcPort | dstPort => false
  | _ => true

end HostField

/-- `sizeof(webhost_info_t)` -/
def hostSize : ℕ := 1704

/-- The members of every entry. -/
def headFields : List HostField := [.type, .srcIp, .srcPort, .dstIp, .dstPort]

/-- The members of an entry of type 1 only. -/
def httpFields : List HostField := [.host, .path, .ua, .cookie]

/-- A number of `k` bytes. -/
def numBytes (k : ℕ) (n : ℤ) : List UInt8 := LittleEndian.bytes k (n % 256 ^ k).toNat

/-- Write to an array of `room` bytes, which has no result outside of it. -/
def putBytes (room : ℤ) (hosts : ℤ → UInt8) (off : ℤ) (bs : List UInt8) : Option (ℤ → UInt8) :=
  if off + bs.length ≤ room then some (Mem.store hosts off bs) else none

/-- Fill a member of the entry at `base` from its field: `data_field_get_i32(&df, seq, 10)`, or
`data_field_copy_str(&df, seq, .., size)`. -/
def fillField (df : DataField) (base room : ℤ) (hosts : ℤ → UInt8) (f : HostField) :
    Option (ℤ → UInt8) := do
  if f.isText then
    match ← dataFieldCopyStr df f.seq f.size with
    | none => some hosts
    | some bs => putBytes room hosts (base + f.off) bs
  else
    let n ← dataFieldGetI32 df f.seq 10
    putBytes room hosts (base + f.off) (numBytes f.size n)

/-- The `int` at an address. -/
def hostI32 (hosts : ℤ → UInt8) (off : ℤ) : ℤ := i32 (LittleEndian.value (Mem.slice hosts off 4))

/-- Fill the entry at `base` from the fields of a line. -/
def fillHost (df : DataField) (base room : ℤ) (hosts : ℤ → UInt8) : Option (ℤ → UInt8) := do
  let hosts ← headFields.foldlM (fillField df base room) hosts
  if hostI32 hosts base = 1 then httpFields.foldlM (fillField df base room) hosts else some hosts

/-! ### What is stored -/

variable {df : DataField} {fs : List (List UInt8)} {base room : ℤ} {hosts hosts' : ℤ → UInt8}

theorem putBytes_frame {off : ℤ} {bs : List UInt8} (hput : putBytes room hosts off bs = some hosts')
    {i : ℤ} (hi : i < off) : hosts' i = hosts i := by
  rw [putBytes] at hput
  split_ifs at hput
  cases hput
  exact Mem.store_of_lt hi

theorem fillField_frame {f : HostField} (hfill : fillField df base room hosts f = some hosts')
    {i : ℤ} (hi : i < base) : hosts' i = hosts i := by
  have hbefore : i < base + f.off := by omega
  rw [fillField] at hfill
  split_ifs at hfill
  · obtain ⟨text, -, hfill⟩ := Option.bind_eq_some_iff.1 hfill
    cases text with
    | none =>
      cases hfill
      rfl
    | some bs => exact putBytes_frame hfill hbefore
  · obtain ⟨n, -, hfill⟩ := Option.bind_eq_some_iff.1 hfill
    exact putBytes_frame hfill hbefore

theorem fillFields_frame {members : List HostField}
    (hfill : members.foldlM (fillField df base room) hosts = some hosts') {i : ℤ} (hi : i < base) :
    hosts' i = hosts i := by
  induction members generalizing hosts with
  | nil =>
    cases hfill
    rfl
  | cons f members ih =>
    rw [List.foldlM_cons] at hfill
    obtain ⟨hosts₁, hfirst, hrest⟩ := Option.bind_eq_some_iff.1 hfill
    exact (ih hrest).trans (fillField_frame hfirst hi)

/-- Nothing before the entry changes. -/
theorem fillHost_frame (hfill : fillHost df base room hosts = some hosts') {i : ℤ} (hi : i < base) :
    hosts' i = hosts i := by
  obtain ⟨hosts₁, hhead, hrest⟩ := Option.bind_eq_some_iff.1 hfill
  split_ifs at hrest
  · exact (fillFields_frame hrest hi).trans (fillFields_frame hhead hi)
  · cases hrest
    exact fillFields_frame hhead hi

/-- The number for a member; -1 when the line has no such field. -/
def HostField.number (f : HostField) (fs : List (List UInt8)) : ℤ :=
  fs[f.seq]?.elim (-1) fun s => i32 (strtol 10 (cstr s)).1

/-- The bytes that are written for a member. -/
def HostField.bytes (f : HostField) (fs : List (List UInt8)) : Option (List UInt8) :=
  if f.isText then fs[f.seq]?.map fun s => s.take f.size ++ [0]
  else some (numBytes f.size (f.number fs))

/-- What is written to the entry at `base`. -/
def hostPuts (fs : List (List UInt8)) (base : ℤ) (members : List HostField) :
    List (ℤ × List UInt8) :=
  members.filterMap fun f => (f.bytes fs).map fun bs => (base + f.off, bs)

theorem fillField_eq (h : df.HasStrings fs) (f : HostField) :
    fillField df base room hosts f =
      (f.bytes fs).elim (some hosts) (putBytes room hosts (base + f.off)) := by
  rw [fillField, HostField.bytes]
  cases f.isText with
  | true =>
    rw [if_pos rfl, if_pos rfl, h.copyStr]
    cases fs[f.seq]? <;> rfl
  | false =>
    rw [if_neg Bool.false_ne_true, if_neg Bool.false_ne_true, h.getI32]
    rfl

/-- The members are filled one after the other, as long as they are in the array. -/
theorem fillFields_eq (h : df.HasStrings fs) (members : List HostField) :
    members.foldlM (fillField df base room) hosts =
      if ∀ p ∈ hostPuts fs base members, p.1 + (p.2.length : ℤ) ≤ room then
        some (Mem.storeAll hosts (hostPuts fs base members))
      else none := by
  induction members generalizing hosts with
  | nil => rfl
  | cons f members ih =>
    rw [List.foldlM_cons, fillField_eq h, hostPuts]
    cases hbytes : f.bytes fs with
    | none =>
      rw [List.filterMap_cons_none (by rw [hbytes]; rfl)]
      exact ih
    | some bs =>
      rw [List.filterMap_cons_some (by rw [hbytes]; rfl), Option.elim_some, putBytes]
      by_cases hfits : base + f.off + (bs.length : ℤ) ≤ room
      · rw [if_pos hfits]
        simp only [Option.bind_eq_bind, Option.bind_some, List.forall_mem_cons, hfits, true_and]
        exact ih
      · rw [if_neg hfits, if_neg fun hall => hfits (hall _ List.mem_cons_self)]
        rfl

/-- A number is read back, up to its range. -/
theorem value_numBytes (k : ℕ) (n : ℤ) :
    (LittleEndian.value (numBytes k n) : ℤ) = n % 256 ^ k := by
  have hpos : (0 : ℤ) < 256 ^ k := by positivity
  have hnonneg := Int.emod_nonneg n hpos.ne'
  have hlt := Int.emod_lt_of_pos n hpos
  have hfits : (n % 256 ^ k).toNat < 256 ^ k := by
    zify
    rwa [Int.toNat_of_nonneg hnonneg]
  rw [numBytes, LittleEndian.value_bytes hfits, Int.toNat_of_nonneg hnonneg]

theorem i32_value_numBytes (n : ℤ) : i32 (LittleEndian.value (numBytes 4 n)) = i32 n := by
  rw [value_numBytes, show (256 : ℤ) ^ 4 = ((2 ^ 32 : ℕ) : ℤ) by norm_num]
  exact Int.emod_bmod n (2 ^ 32)

/-- The number for a member is an `i32_t`. -/
theorem HostField.i32_number (f : HostField) (fs : List (List UInt8)) :
    i32 (f.number fs) = f.number fs := by
  rw [HostField.number]
  cases fs[f.seq]? with
  | none => decide
  | some s => exact i32_i32 _

theorem i32_value_numBytes_number (f : HostField) (fs : List (List UInt8)) :
    i32 (LittleEndian.value (numBytes 4 (f.number fs))) = f.number fs := by
  rw [i32_value_numBytes, HostField.i32_number]

/-- The type that is read back is the one written: the other members stand behind it. -/
theorem hostI32_type {members : List HostField} (h : ∀ f ∈ members, 4 ≤ f.off) :
    hostI32 (Mem.storeAll hosts (hostPuts fs base (.type :: members))) base =
      HostField.type.number fs := by
  have hbytes : HostField.type.bytes fs = some (numBytes 4 (HostField.type.number fs)) := rfl
  have hputs : hostPuts fs base (.type :: members) =
      (base, numBytes 4 (HostField.type.number fs)) :: hostPuts fs base members := by
    rw [hostPuts, List.filterMap_cons_some (by rw [hbytes]; rfl)]
    simp [HostField.off, hostPuts]
  have hlen : (numBytes 4 (HostField.type.number fs)).length = 4 := LittleEndian.length_bytes 4 _
  have hnumber := i32_value_numBytes_number .type fs
  rw [hostI32, hputs]
  generalize numBytes 4 (HostField.type.number fs) = bs at hlen hnumber ⊢
  have hbehind : ∀ q ∈ hostPuts fs base members, base + (bs.length : ℤ) ≤ q.1 := by
    intro q hq
    obtain ⟨f, hf, hput⟩ := List.mem_filterMap.1 hq
    obtain ⟨bs', -, rfl⟩ := Option.map_eq_some_iff.1 hput
    have hoff := h f hf
    rw [hlen]
    push_cast
    omega
  rw [← hlen, Mem.slice_storeAll_cons (p := (base, bs)) hbehind, hnumber]

/-- The members of an entry of this type. -/
def hostFields (type : ℤ) : List HostField := headFields ++ if type = 1 then httpFields else []

theorem length_hostFields_le (type : ℤ) : (hostFields type).length ≤ 9 := by
  rw [hostFields]
  split_ifs <;> decide

theorem hostPuts_append (fs : List (List UInt8)) (base : ℤ) (members members' : List HostField) :
    hostPuts fs base (members ++ members') =
      hostPuts fs base members ++ hostPuts fs base members' :=
  List.filterMap_append

/-- **What a line writes**, as long as it is in the array. -/
theorem fillHost_eq (h : df.HasStrings fs) :
    fillHost df base room hosts =
      if ∀ p ∈ hostPuts fs base (hostFields (HostField.type.number fs)),
          p.1 + (p.2.length : ℤ) ≤ room then
        some (Mem.storeAll hosts (hostPuts fs base (hostFields (HostField.type.number fs))))
      else none := by
  have htype : hostI32 (Mem.storeAll hosts (hostPuts fs base headFields)) base =
      HostField.type.number fs := hostI32_type (by decide)
  rw [fillHost, fillFields_eq h, hostFields, hostPuts_append, Mem.storeAll_append]
  by_cases hhead : ∀ p ∈ hostPuts fs base headFields, p.1 + (p.2.length : ℤ) ≤ room
  · rw [if_pos hhead, Option.bind_eq_bind, Option.bind_some, htype]
    split_ifs with hone hall hall
    · rw [fillFields_eq h, if_pos fun p hp => hall p (List.mem_append_right _ hp)]
    · rw [fillFields_eq h, if_neg]
      intro hhttp
      exact hall fun p hp => (List.mem_append.1 hp).elim (hhead p) (hhttp p)
    · rfl
    · exact absurd (by simpa [hostPuts] using hhead) hall
  · rw [if_neg hhead, if_neg fun hall => hhead fun p hp => hall p (List.mem_append_left _ hp)]
    rfl

/-! ### What an entry holds -/

/-- The number in a member. -/
def HostField.read (f : HostField) (hosts : ℤ → UInt8) (base : ℤ) : ℤ :=
  if f = .type then hostI32 hosts base
  else LittleEndian.value (Mem.slice hosts (base + f.off) f.size)

/-- The member of an entry holds a field: a text with its zero, inside of the member, or the number
that the text begins with. -/
def HostField.Holds (f : HostField) (hosts : ℤ → UInt8) (base : ℤ) (s : List UInt8) : Prop :=
  if f.isText then
    s.length < f.size ∧ Mem.slice hosts (base + f.off) (s.length + 1) = s ++ [0]
  else LeadingNumber 10 (cstr s) (f.read hosts base)

/-- **The entry holds the fields of a line**: an entry of its type has a member for each of them,
which holds it. -/
structure HoldsHost (hosts : ℤ → UInt8) (base : ℤ) (fs : List (List UInt8)) : Prop where
  few : fs.length ≤ (hostFields (hostI32 hosts base)).length
  holds : ∀ f ∈ hostFields (hostI32 hosts base), ∀ s, fs[f.seq]? = some s → f.Holds hosts base s

/-- A field fits its member: a text is shorter than the member, and a number is one of the type of
the member. -/
def HostField.Fits (f : HostField) (s : List UInt8) : Prop :=
  if f.isText then s.length < f.size
  else if f = .type then -2 ^ 31 ≤ leading 10 (cstr s) ∧ leading 10 (cstr s) < 2 ^ 31
  else 0 ≤ leading 10 (cstr s) ∧ leading 10 (cstr s) < 2 ^ 16

/-- **The fields of a line fit** the members that an entry of the type has. -/
structure FitsHost (fs : List (List UInt8)) : Prop where
  few : fs.length ≤ (hostFields (HostField.type.number fs)).length
  fits : ∀ f ∈ hostFields (HostField.type.number fs), ∀ s, fs[f.seq]? = some s → f.Fits s

/-- The texts are shorter than their members. -/
def TextsFit (fs : List (List UInt8)) : Prop :=
  ∀ f ∈ hostFields (HostField.type.number fs), f.isText = true → ∀ s, fs[f.seq]? = some s →
    s.length < f.size

theorem FitsHost.texts (h : FitsHost fs) : TextsFit fs := by
  intro f hf htext s hs
  have hfits := h.fits f hf s hs
  rwa [HostField.Fits, if_pos htext] at hfits

/-- What is written for a member is in the member. -/
theorem length_bytes_le (h : TextsFit fs) {f : HostField}
    (hf : f ∈ hostFields (HostField.type.number fs)) {bs : List UInt8}
    (hbs : f.bytes fs = some bs) :
    bs.length ≤ f.size := by
  rw [HostField.bytes] at hbs
  split_ifs at hbs with htext
  · obtain ⟨s, hs, rfl⟩ := Option.map_eq_some_iff.1 hbs
    have hlt := h f hf htext s hs
    simp
    omega
  · cases hbs
    rw [numBytes, LittleEndian.length_bytes]

/-- The members stand one behind the other. -/
theorem pairwise_hostFields (type : ℤ) :
    (hostFields type).Pairwise fun f g => f.off + f.size ≤ g.off := by
  rw [hostFields]
  split_ifs <;> decide

theorem pairwise_hostPuts (h : TextsFit fs) (base : ℤ) :
    (hostPuts fs base (hostFields (HostField.type.number fs))).Pairwise
      fun p q => p.1 + (p.2.length : ℤ) ≤ q.1 := by
  rw [hostPuts, List.pairwise_filterMap]
  refine (pairwise_hostFields _).imp_of_mem fun {f g} hf _ hle p hp q hq => ?_
  obtain ⟨bs, hbs, rfl⟩ := Option.map_eq_some_iff.1 hp
  obtain ⟨bs', -, rfl⟩ := Option.map_eq_some_iff.1 hq
  have hlen := length_bytes_le h hf hbs
  dsimp only
  omega

/-- The members of an entry, behind the type. -/
theorem exists_hostFields (type : ℤ) :
    ∃ members, hostFields type = .type :: members ∧ ∀ f ∈ members, 4 ≤ f.off := by
  rw [hostFields]
  split_ifs
  · exact ⟨_, rfl, by decide⟩
  · exact ⟨_, rfl, by decide⟩

/-- An entry that has been written. -/
theorem fillHost_type (h : df.HasStrings fs) (hfill : fillHost df base room hosts = some hosts') :
    hosts' = Mem.storeAll hosts (hostPuts fs base (hostFields (HostField.type.number fs))) ∧
      hostI32 hosts' base = HostField.type.number fs := by
  rw [fillHost_eq h] at hfill
  split_ifs at hfill
  cases hfill
  obtain ⟨members, heq, hoff⟩ := exists_hostFields (HostField.type.number fs)
  exact ⟨rfl, by rw [heq]; exact hostI32_type hoff⟩

/-- A line of which the fields fit is written. -/
theorem exists_fillHost (h : df.HasStrings fs) (hfits : TextsFit fs)
    (hroom : base + hostSize ≤ room) :
    ∃ hosts', fillHost df base room hosts = some hosts' := by
  rw [fillHost_eq h, if_pos]
  · exact ⟨_, rfl⟩
  · intro p hp
    obtain ⟨f, hf, hput⟩ := List.mem_filterMap.1 hp
    obtain ⟨bs, hbs, rfl⟩ := Option.map_eq_some_iff.1 hput
    have hlen := length_bytes_le hfits hf hbs
    have hend : f.off + f.size ≤ hostSize := by cases f <;> decide
    dsimp only
    omega

theorem longOf_of_range {v : ℤ} (h1 : -2 ^ 31 ≤ v) (h2 : v < 2 ^ 31) : longOf v = v := by
  unfold longOf
  omega

/-- A number is stored as it is exactly when it is in the range of an `i32_t`. -/
theorem i32_longOf_eq_iff (v : ℤ) : i32 (longOf v) = v ↔ -2 ^ 31 ≤ v ∧ v < 2 ^ 31 := by
  constructor
  · intro h
    rw [← h]
    exact ⟨le_i32 _, i32_lt _⟩
  · rintro ⟨h1, h2⟩
    rw [longOf_of_range h1 h2, i32_of_range h1 h2]

/-- A port is stored as it is exactly when it is in the range of a `u16_t`. -/
theorem port_eq_iff (v : ℤ) : i32 (longOf v) % 2 ^ 16 = v ↔ 0 ≤ v ∧ v < 2 ^ 16 := by
  constructor
  · intro h
    rw [← h]
    exact ⟨Int.emod_nonneg _ (by norm_num), Int.emod_lt_of_pos _ (by norm_num)⟩
  · rintro ⟨h1, h2⟩
    rw [(i32_longOf_eq_iff v).2 ⟨by omega, by omega⟩, Int.emod_eq_of_lt h1 h2]

/-- **A member holds its field** exactly when the field fits, where no text runs over. -/
theorem holds_iff_fits (h : df.HasStrings fs) (hfill : fillHost df base room hosts = some hosts')
    (htexts : TextsFit fs) {f : HostField} (hf : f ∈ hostFields (HostField.type.number fs))
    {s : List UInt8} (hs : fs[f.seq]? = some s) : f.Holds hosts' base s ↔ f.Fits s := by
  obtain ⟨hstored, htype⟩ := fillHost_type h hfill
  have hread : ∀ bs, f.bytes fs = some bs → Mem.slice hosts' (base + f.off) bs.length = bs := by
    intro bs hbs
    rw [hstored]
    exact Mem.slice_storeAll (p := (base + f.off, bs)) (pairwise_hostPuts htexts base)
      (List.mem_filterMap.2 ⟨f, hf, by rw [hbs]; rfl⟩)
  have hnumber : f.number fs = i32 (longOf (leading 10 (cstr s))) := by
    rw [HostField.number, hs, Option.elim_some, strtol_eq]
  rw [HostField.Holds, HostField.Fits]
  split_ifs with htext hfirst
  · have hlt := htexts f hf htext s hs
    refine iff_of_true ⟨hlt, ?_⟩ hlt
    have hbs : f.bytes fs = some (s ++ [0]) := by
      rw [HostField.bytes, if_pos htext, hs, Option.map_some, List.take_of_length_le hlt.le]
    simpa using hread _ hbs
  · subst hfirst
    rw [leadingNumber_iff (by norm_num), HostField.read, if_pos rfl, htype, hnumber]
    exact i32_longOf_eq_iff _
  · have hsize : f.size = 2 := by
      cases f with
      | type => exact absurd rfl hfirst
      | srcPort => rfl
      | dstPort => rfl
      | _ => exact absurd rfl htext
    have hbs : f.bytes fs = some (numBytes 2 (f.number fs)) := by
      rw [HostField.bytes, if_neg htext, hsize]
    have hport := hread _ hbs
    rw [numBytes, LittleEndian.length_bytes, ← numBytes] at hport
    rw [leadingNumber_iff (by norm_num), HostField.read, if_neg hfirst, hsize, hport,
      value_numBytes, hnumber, show (256 : ℤ) ^ 2 = 2 ^ 16 by norm_num]
    exact port_eq_iff _

/-- **When an entry holds the fields of its line**: they fit. -/
theorem fillHost_holds_iff (h : df.HasStrings fs)
    (hfill : fillHost df base room hosts = some hosts') :
    HoldsHost hosts' base fs ↔ FitsHost fs := by
  have htype := (fillHost_type h hfill).2
  constructor
  · rintro ⟨hfew, hholds⟩
    rw [htype] at hfew hholds
    have htexts : TextsFit fs := by
      intro f hf htext s hs
      have hfield := hholds f hf s hs
      rw [HostField.Holds, if_pos htext] at hfield
      exact hfield.1
    exact ⟨hfew, fun f hf s hs => (holds_iff_fits h hfill htexts hf hs).1 (hholds f hf s hs)⟩
  · intro hfits
    refine ⟨by rw [htype]; exact hfits.few, fun f hf s hs => ?_⟩
    rw [htype] at hf
    exact (holds_iff_fits h hfill hfits.texts hf hs).2 (hfits.fits f hf s hs)

/-- What an entry holds depends on its own bytes. -/
theorem HoldsHost.congr (h : HoldsHost hosts base fs)
    (hsame : ∀ i, i < base + hostSize → hosts' i = hosts i) : HoldsHost hosts' base fs := by
  have htype : hostI32 hosts' base = hostI32 hosts base := by
    rw [hostI32, hostI32, Mem.slice_congr fun i hi => hsame _ (by rw [hostSize]; omega)]
  refine ⟨by rw [htype]; exact h.few, fun f hf s hs => ?_⟩
  rw [htype] at hf
  have hend : f.off + f.size ≤ hostSize := by cases f <;> decide
  have hfield := h.holds f hf s hs
  rw [HostField.Holds] at hfield ⊢
  split_ifs at hfield ⊢ with htext
  · obtain ⟨hlt, hslice⟩ := hfield
    exact ⟨hlt, (Mem.slice_congr fun i hi => hsame _ (by omega)).trans hslice⟩
  · have hread : f.read hosts' base = f.read hosts base := by
      rw [HostField.read, HostField.read, htype,
        Mem.slice_congr fun i hi => hsame (base + f.off + i) (by omega)]
    rwa [hread]

end F1Goal
