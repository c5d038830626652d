import F1Goal.NetPacket

/-!
# The checksum of an IP header (`f1g_net_forge.c`)

`chk_sum` of a text is the complement of its folded sum, so storing it over two zero bytes makes the
sum a multiple of `0xFFFF`: the receiver's sum folds to `0xFFFF` and `chk_sum` of the new text is 0.
The accumulator is a signed 32-bit integer; a text of 65535 bytes has at most 32767 words and an odd
byte, which is just below what it holds.
-/

namespace F1Goal

open OnesComplement

/-- The values of an `i32_t`. -/
def FitsI32 (n : ℤ) : Prop := -2 ^ 31 ≤ n ∧ n < 2 ^ 31

/-- No addition of the loop of `chk_sum` overflows, the sums being exact. -/
def LoopFits : List UInt8 → ℤ → Prop
  | b0 :: b1 :: w, sum => FitsI32 (sum + (b0.toNat + b1.toNat * 256)) ∧
      LoopFits w (sum + (b0.toNat + b1.toNat * 256))
  | [b], sum => FitsI32 (sum + b.toNat)
  | [], _ => True

/-- Neither addition of the two foldings overflows. -/
def FoldFits (sum : ℤ) : Prop :=
  FitsI32 (sum / 0x10000 + sum % 0x10000) ∧
    FitsI32 (sum / 0x10000 + sum % 0x10000 + (sum / 0x10000 + sum % 0x10000) / 0x10000)

/-- **The accumulator never overflows** in `chk_sum` of a text. -/
def AccumulatorFits (s : List UInt8) : Prop := LoopFits s 0 ∧ FoldFits (chkSumLoop s 0)

theorem loopFits (w : List UInt8) {sum : ℤ} (h0 : 0 ≤ sum) (h : sum + sumSwapped w < 2 ^ 31) :
    LoopFits w sum := by
  induction w, sum using LoopFits.induct with
  | case1 b0 b1 w sum ih =>
    rw [sumSwapped] at h
    push_cast at h
    exact ⟨⟨by omega, by omega⟩, ih (by omega) (by omega)⟩
  | case2 sum b =>
    rw [sumSwapped] at h
    exact ⟨by omega, by omega⟩
  | case3 sum => trivial

theorem foldFits {n : ℕ} (h : n < 2 ^ 31) : FoldFits n := by
  refine ⟨⟨?_, ?_⟩, ?_, ?_⟩ <;> omega

/-- The sum of the longest texts is below `2 ^ 31`. -/
theorem sumSwapped_lt {s : List UInt8} (h : s.length ≤ 0xFFFF) : sumSwapped s < 2 ^ 31 := by
  have hle := sumSwapped_le s
  omega

theorem accumulatorFits {s : List UInt8} (h : s.length ≤ 0xFFFF) : AccumulatorFits s := by
  have hlt := sumSwapped_lt h
  refine ⟨loopFits s le_rfl (by omega), ?_⟩
  rw [chkSumLoop_eq s le_rfl (by omega), zero_add]
  exact foldFits hlt

/-- `chk_sum` of a whole text. -/
theorem toNat_chkSum_whole {s : List UInt8} (h : s.length ≤ 0xFFFF) :
    (chkSum (some s) (.ofNat s.length)).toNat = 0xFFFF - fold (sumSwapped s) := by
  apply toNat_chkSum
  rw [UInt16.toNat_ofNat', Nat.mod_eq_of_lt (by omega)]

/-- The sum of a text whose checksum is stored folds to `0xFFFF`. -/
theorem fold_setWord_chkSum {s : List UInt8} {o : ℕ} (h : s.length ≤ 0xFFFF) (heven : o % 2 = 0)
    (h0 : s[o]? = some 0) (h1 : s[o + 1]? = some 0) :
    fold (sumSwapped (setWord s o (chkSum (some s) (.ofNat s.length)))) = 0xFFFF := by
  rw [sumSwapped_setWord heven h0 h1, toNat_chkSum_whole h]
  exact fold_add_complement _

/-- A text sums up to `0xFFFF` exactly when its checksum is 0. -/
theorem chkSum_eq_zero_iff {s : List UInt8} (h : s.length ≤ 0xFFFF) :
    chkSum (some s) (.ofNat s.length) = 0 ↔ fold (sumSwapped s) = 0xFFFF := by
  have hle := fold_le (sumSwapped s)
  rw [← UInt16.toNat_inj, toNat_chkSum_whole h, UInt16.toNat_zero]
  omega

/-- **The checksum verifies**: stored over two zero bytes at an even offset of any text of at most
65535 bytes, `chk_sum` of the text makes `chk_sum` of the new text 0 and the receiver's sum of its
words, in the order of the network, fold to `0xFFFF`; and the accumulator overflows in neither
computation. -/
theorem chkSum_stored (s : List UInt8) (o : ℕ) (h : s.length ≤ 0xFFFF) (heven : o % 2 = 0)
    (h0 : s[o]? = some 0) (h1 : s[o + 1]? = some 0) :
    chkSum (some (setWord s o (chkSum (some s) (.ofNat s.length)))) (.ofNat s.length) = 0 ∧
      fold (sumWords (setWord s o (chkSum (some s) (.ofNat s.length)))) = 0xFFFF ∧
      AccumulatorFits s ∧ AccumulatorFits (setWord s o (chkSum (some s) (.ofNat s.length))) := by
  have hfold := fold_setWord_chkSum h heven h0 h1
  obtain ⟨s', hs'⟩ : ∃ s', s' = setWord s o (chkSum (some s) (.ofNat s.length)) := ⟨_, rfl⟩
  have hlen : s'.length = s.length := by rw [hs', length_setWord]
  rw [← hs'] at hfold ⊢
  have h' : s'.length ≤ 0xFFFF := by rw [hlen]; exact h
  refine ⟨?_, (fold_sumWords_eq_ffff_iff s').2 hfold, accumulatorFits h, accumulatorFits h'⟩
  rw [← hlen]
  exact (chkSum_eq_zero_iff h').2 hfold

/-- A text of three bytes, the odd one being summed up as a word. -/
theorem chkSum_stored_odd :
    chkSum (some (setWord [0, 0, 0xFF] 0 (chkSum (some [0, 0, 0xFF]) (.ofNat 3)))) (.ofNat 3) = 0 ∧
      fold (sumWords (setWord [0, 0, 0xFF] 0 (chkSum (some [0, 0, 0xFF]) (.ofNat 3)))) = 0xFFFF ∧
      AccumulatorFits [0, 0, 0xFF] ∧
      AccumulatorFits (setWord [0, 0, 0xFF] 0 (chkSum (some [0, 0, 0xFF]) (.ofNat 3))) :=
  chkSum_stored [0, 0, 0xFF] 0 (by decide) rfl rfl rfl

/-- The check field of an IP header is the word at offset 10. -/
theorem bytes_setCheck {h : IpHdr} (h0 : h.check = 0) (check : UInt16) :
    IpHdr.bytes { h with check := check } = setWord h.bytes 10 check := by
  have hlow : UInt8.ofNat (check.toNat % 256) = UInt8.ofNat check.toNat := by
    rw [← UInt8.toNat_inj, UInt8.toNat_ofNat', UInt8.toNat_ofNat']
    omega
  simp only [IpHdr.bytes, LittleEndian.bytes, setWord, h0, hlow]
  rfl

/-- The IP header of a forged packet verifies. -/
theorem fold_forgeIpHdr (pid : ℕ) (packLen : UInt16) (para : NetForgePara) :
    fold (sumWords (forgeIpHdr pid packLen para).bytes) = 0xFFFF := by
  obtain ⟨h, hh⟩ : ∃ h : IpHdr, h = { forgeIpHdr pid packLen para with check := 0 } := ⟨_, rfl⟩
  have hlen : h.bytes.length = 20 := by simp [IpHdr.bytes]
  have hchk : forgeIpHdr pid packLen para = { h with check := chkSum (some h.bytes) 20 } := by
    rw [hh]
    rfl
  have h0 : h.check = 0 := by rw [hh]
  rw [hchk, bytes_setCheck h0, fold_sumWords_eq_ffff_iff]
  have hfold := fold_setWord_chkSum (s := h.bytes) (o := 10) (by omega) rfl
    (by simp [IpHdr.bytes, LittleEndian.bytes, h0]) (by simp [IpHdr.bytes, LittleEndian.bytes, h0])
  rwa [hlen] at hfold

end F1Goal
