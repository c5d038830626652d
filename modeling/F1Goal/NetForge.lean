import F1Goal.BasicTypes
import F1Goal.Lib.LittleEndian
import F1Goal.Lib.OnesComplement

/-!
# Forged packets: the TCP checksum (`f1g_net_forge.h`, `f1g_net_forge.c`)

`tcp_chk_sum` takes the complemented checksums of a pseudo header and of a segment, adds them and
complements the sum once more. The complements cancel, so that the result is the sum of what has
been summed up where its complement is asked for; and the pseudo header is a C struct with two bytes
of padding, which are summed up too. The machine is little-endian: a 16-bit word of memory has its
low byte first.
-/

namespace F1Goal

/-- The loop of `chk_sum` and of `chk_sum2`, which adds up words and the odd byte behind them. -/
def chkSumLoop : List UInt8 → ℤ → ℤ
  | b0 :: b1 :: w, sum => chkSumLoop w (i32 (sum + (b0.toNat + b1.toNat * 256)))
  | [b], sum => i32 (sum + b.toNat)
  | [], sum => sum

/-- `sum = (sum >> 16) + (sum & 0xffff); sum += (sum >> 16); answer = ~sum;` -/
def foldAnswer (sum : ℤ) : UInt16 :=
  let sum := i32 (sum / 0x10000 + sum % 0x10000)
  let sum := i32 (sum + sum / 0x10000)
  .ofInt (-1 - sum)

/-- `chk_sum` of the `len` bytes at a pointer, which is `none` when it is `NULL`. -/
def chkSum (addr : Option (List UInt8)) (len : UInt16) : UInt16 :=
  match addr with
  | none => .ofInt (-1)
  | some w => foldAnswer (chkSumLoop (w.take len.toNat) 0)

/-- `htons`: the two bytes are swapped. -/
def htons (n : UInt16) : UInt16 := n <<< 8 ||| n >>> 8

/-- `psuedo_hdr_t`. The compiler puts two bytes of padding between `protocol` and `length`. -/
structure PsuedoHdr where
  srcAddr : UInt32
  dstAddr : UInt32
  placeHolder : UInt8
  protocol : UInt8
  pad0 : UInt8
  pad1 : UInt8
  length : UInt32
  deriving DecidableEq, Repr

/-- The 16 bytes of a pseudo header in memory. -/
def PsuedoHdr.bytes (h : PsuedoHdr) : List UInt8 :=
  LittleEndian.bytes 4 h.srcAddr.toNat ++ LittleEndian.bytes 4 h.dstAddr.toNat ++
    [h.placeHolder, h.protocol, h.pad0, h.pad1] ++ LittleEndian.bytes 4 h.length.toNat

/-- `tcp_chk_sum`, the padding of its local `psd_hdr` holding `pad0` and `pad1`. -/
def tcpChkSum (pad0 pad1 proto : UInt8) (packet : Option (List UInt8)) (length : UInt16)
    (srcIp dstIp : UInt32) : UInt16 :=
  let psdHdr : PsuedoHdr := ⟨srcIp, dstIp, 0, proto, pad0, pad1, (htons length).toUInt32⟩
  let sum : ℤ := (chkSum (some psdHdr.bytes) 16).toNat
  let sum := i32 (sum + (chkSum packet length).toNat)
  foldAnswer sum

/-! ### What a receiver checks -/

/-- The pseudo header of TCP: the addresses as they stand in memory and in the packet, a zero, the
protocol and the length of the segment. -/
def pseudoHeader (srcIp dstIp : UInt32) (proto : UInt8) (length : ℕ) : List UInt8 :=
  LittleEndian.bytes 4 srcIp.toNat ++ LittleEndian.bytes 4 dstIp.toNat ++
    [0, proto, .ofNat (length / 256), .ofNat (length % 256)]

/-- The receiver's sum folds to `0xFFFF`. -/
def Verifies (srcIp dstIp : UInt32) (proto : UInt8) (segment : List UInt8) : Prop :=
  OnesComplement.fold
    (OnesComplement.sumWords (pseudoHeader srcIp dstIp proto segment.length ++ segment)) = 0xFFFF

instance (srcIp dstIp : UInt32) (proto : UInt8) (segment : List UInt8) :
    Decidable (Verifies srcIp dstIp proto segment) :=
  inferInstanceAs (Decidable (_ = _))

/-- `p_tcphdr->check = ..`, the check field being the bytes 16 and 17 of a TCP header. -/
def setCheck (segment : List UInt8) (check : UInt16) : List UInt8 :=
  (segment.set 16 (.ofNat (check.toNat % 256))).set 17 (.ofNat (check.toNat / 256))

open OnesComplement

/-! ### What the checksums are -/

/-- The accumulator does not overflow while the sum stays below `2 ^ 31`. -/
theorem chkSumLoop_eq (w : List UInt8) {sum : ℤ} (h0 : 0 ≤ sum) (h : sum + sumSwapped w < 2 ^ 31) :
    chkSumLoop w sum = sum + sumSwapped w := by
  induction w, sum using chkSumLoop.induct with
  | case1 b0 b1 w sum ih =>
    rw [sumSwapped] at h ⊢
    push_cast at h ⊢
    have hstep : i32 (sum + (b0.toNat + b1.toNat * 256)) = sum + (b0.toNat + b1.toNat * 256) :=
      i32_of_range (by omega) (by omega)
    rw [hstep] at ih
    rw [chkSumLoop, hstep, ih (by omega) (by omega)]
    ring
  | case2 sum b =>
    rw [sumSwapped] at h ⊢
    rw [chkSumLoop, i32_of_range (by omega) (by omega)]
  | case3 sum => simp [chkSumLoop, sumSwapped]

/-- The second folding and the complement, for a sum `k` that has been folded once. -/
theorem complement_of_carry {k : ℕ} (hpos : 0 < k) (hle : k < 0x20000 - 1) :
    ((-1 - ((k : ℤ) + k / 0x10000)) % 2 ^ 16).toNat % 2 ^ 16 = 0xFFFF - ((k - 1) % 0xFFFF + 1) := by
  rcases Nat.lt_or_ge k 0x10000 with hlt | hge
  · have hzero : (k : ℤ) / 0x10000 = 0 := by omega
    rw [hzero, Nat.mod_eq_of_lt (show k - 1 < 0xFFFF by omega)]
    omega
  · have hone : (k : ℤ) / 0x10000 = 1 := by omega
    have hrest : (k - 1) % 0xFFFF = k - 0x10000 := by omega
    rw [hone, hrest]
    omega

/-- Two foldings are enough below `2 ^ 31`; the answer is the complement of the sum. -/
theorem toNat_foldAnswer {n : ℕ} (h : n < 2 ^ 31) : (foldAnswer n).toNat = 0xFFFF - fold n := by
  have h1 : i32 ((n : ℤ) / 0x10000 + n % 0x10000) = (n : ℤ) / 0x10000 + n % 0x10000 :=
    i32_of_range (by omega) (by omega)
  have h2 : i32 ((n : ℤ) / 0x10000 + n % 0x10000 + ((n : ℤ) / 0x10000 + n % 0x10000) / 0x10000) =
      (n : ℤ) / 0x10000 + n % 0x10000 + ((n : ℤ) / 0x10000 + n % 0x10000) / 0x10000 :=
    i32_of_range (by omega) (by omega)
  simp only [foldAnswer, h1, h2, UInt16.ofInt, UInt16.toNat_ofNat']
  rw [fold_eq]
  by_cases h0 : n = 0
  · rw [if_pos h0, h0]
    rfl
  · -- one folding changes the sum by a multiple of 0xFFFF
    obtain ⟨k, hk⟩ : ∃ k, k = n / 0x10000 + n % 0x10000 := ⟨_, rfl⟩
    have hmod : (n - 1) % 0xFFFF = (k - 1) % 0xFFFF := by
      rw [show n - 1 = k - 1 + 0xFFFF * (n / 0x10000) by omega, Nat.add_mul_mod_self_left]
    have hcast : (n : ℤ) / 0x10000 + n % 0x10000 = k := by omega
    have hpos : 0 < k := by omega
    have hle : k < 0x20000 - 1 := by omega
    rw [if_neg h0, hcast, hmod]
    exact complement_of_carry hpos hle

/-- `chk_sum` of a whole text is the complement of its folded sum. -/
theorem toNat_chkSum (w : List UInt8) {len : UInt16} (h : len.toNat = w.length) :
    (chkSum (some w) len).toNat = 0xFFFF - fold (sumSwapped w) := by
  have hle := sumSwapped_le w
  have hlen := len.toNat_lt
  have hsum : sumSwapped w < 2 ^ 31 := by omega
  rw [chkSum, h, List.take_length, chkSumLoop_eq w le_rfl (by omega), zero_add,
    toNat_foldAnswer hsum]

theorem toNat_htons (n : UInt16) : (htons n).toNat = n.toNat % 256 * 256 + n.toNat / 256 := by
  have hn := n.toNat_lt
  have hleft : (n <<< 8).toNat = (n.toNat % 256) <<< 8 := by
    rw [UInt16.toNat_shiftLeft, Nat.shiftLeft_eq, Nat.shiftLeft_eq]
    change n.toNat * 256 % 65536 = n.toNat % 256 * 256
    omega
  have hright : (n >>> 8).toNat = n.toNat / 256 := by
    rw [UInt16.toNat_shiftRight, Nat.shiftRight_eq_div_pow]
    rfl
  rw [htons, UInt16.toNat_or, hleft, hright, ← Nat.shiftLeft_add_eq_or_of_lt (by omega),
    Nat.shiftLeft_eq]

/-- The pseudo header that is summed up: the one of TCP and two bytes of padding. -/
theorem sumSwapped_psuedoHdr (pad0 pad1 proto : UInt8) (srcIp dstIp : UInt32) {n : ℕ}
    (h : n ≤ 0xFFFF) :
    sumSwapped (PsuedoHdr.bytes ⟨srcIp, dstIp, 0, proto, pad0, pad1,
        (htons (.ofNat n)).toUInt32⟩) =
      sumSwapped (pseudoHeader srcIp dstIp proto n) + (pad0.toNat + pad1.toNat * 256) := by
  have hlen : (htons (.ofNat n)).toUInt32.toNat = n % 256 * 256 + n / 256 := by
    rw [UInt16.toNat_toUInt32, toNat_htons, UInt16.toNat_ofNat',
      Nat.mod_eq_of_lt (show n < 2 ^ 16 by omega)]
  have htail : sumSwapped (LittleEndian.bytes 4 (n % 256 * 256 + n / 256)) =
      n / 256 + n % 256 * 256 := by
    have hdiv : (n % 256 * 256 + n / 256) / 256 = n % 256 := by omega
    have hzero : n % 256 / 256 = 0 := by omega
    simp only [LittleEndian.bytes, sumSwapped, UInt8.toNat_ofNat', hdiv, hzero]
    omega
  have heven : (LittleEndian.bytes 4 srcIp.toNat ++ LittleEndian.bytes 4 dstIp.toNat).length % 2 =
      0 := by simp
  rw [PsuedoHdr.bytes, hlen, sumSwapped_append (by simp), sumSwapped_append heven, htail,
    pseudoHeader, sumSwapped_append heven]
  simp only [sumSwapped, UInt8.toNat_ofNat', UInt8.toNat_ofNat]
  omega

/-! ### The checksum of a segment -/

/-- A text in which the zero check field is set. -/
theorem sumSwapped_setCheck {segment : List UInt8} (h16 : segment[16]? = some 0)
    (h17 : segment[17]? = some 0) (check : UInt16) :
    sumSwapped (setCheck segment check) = sumSwapped segment + check.toNat :=
  sumSwapped_setWord rfl h16 h17 check

theorem i32_add {x y : ℕ} (h : x + y < 2 ^ 31) : i32 ((x : ℤ) + y) = ((x + y : ℕ) : ℤ) := by
  rw [i32_of_range (by omega) (by omega), Nat.cast_add]

theorem sum_lt {x y a b : ℕ} (hx : x + a = 0xFFFF) (hy : y + b = 0xFFFF) : x + y < 2 ^ 31 := by
  omega

/-- The complement of a sum of complements is the sum. -/
theorem complement_modEq {x y a b c h p : ℕ} (hx : x + a = 0xFFFF) (hy : y + b = 0xFFFF)
    (ha : a ≡ h [MOD 0xFFFF]) (hb : b ≡ p [MOD 0xFFFF]) (hc : c ≡ x + y [MOD 0xFFFF])
    (hle : c ≤ 0xFFFF) : 0xFFFF - c ≡ h + p [MOD 0xFFFF] := by
  unfold Nat.ModEq at *
  omega

/-- What `tcp_chk_sum` returns is congruent to the sum of what it sums up: the complements
cancel. -/
theorem tcpChkSum_modEq (pad0 pad1 proto : UInt8) {segment : List UInt8} (srcIp dstIp : UInt32)
    (h : segment.length ≤ 0xFFFF) :
    (tcpChkSum pad0 pad1 proto (some segment) (.ofNat segment.length) srcIp dstIp).toNat ≡
      sumSwapped (pseudoHeader srcIp dstIp proto segment.length) +
        (pad0.toNat + pad1.toNat * 256) + sumSwapped segment [MOD 0xFFFF] := by
  have hlen : (UInt16.ofNat segment.length).toNat = segment.length := by
    rw [UInt16.toNat_ofNat', Nat.mod_eq_of_lt (by omega)]
  obtain ⟨H, hH⟩ : ∃ H, H = sumSwapped (pseudoHeader srcIp dstIp proto segment.length) +
      (pad0.toNat + pad1.toNat * 256) := ⟨_, rfl⟩
  obtain ⟨P, hP⟩ : ∃ P, P = sumSwapped segment := ⟨_, rfl⟩
  -- the two complemented sums
  obtain ⟨x, hx⟩ : ∃ x, x + fold H = 0xFFFF := ⟨0xFFFF - fold H, Nat.sub_add_cancel (fold_le H)⟩
  obtain ⟨y, hy⟩ : ∃ y, y + fold P = 0xFFFF := ⟨0xFFFF - fold P, Nat.sub_add_cancel (fold_le P)⟩
  have hhdr : (chkSum (some (PsuedoHdr.bytes ⟨srcIp, dstIp, 0, proto, pad0, pad1,
      (htons (.ofNat segment.length)).toUInt32⟩)) 16).toNat = x := by
    rw [toNat_chkSum _ (by simp [PsuedoHdr.bytes]), sumSwapped_psuedoHdr _ _ _ _ _ h, ← hH, ← hx,
      Nat.add_sub_cancel]
  have hseg : (chkSum (some segment) (.ofNat segment.length)).toNat = y := by
    rw [toNat_chkSum _ hlen, ← hP, ← hy, Nat.add_sub_cancel]
  have hsum : x + y < 2 ^ 31 := sum_lt hx hy
  have hi32 : i32 ((x : ℤ) + y) = ((x + y : ℕ) : ℤ) := i32_add hsum
  have hcheck : (tcpChkSum pad0 pad1 proto (some segment) (.ofNat segment.length) srcIp dstIp).toNat
      = 0xFFFF - fold (x + y) := by
    simp only [tcpChkSum, hhdr, hseg, hi32]
    exact toNat_foldAnswer hsum
  rw [hcheck, ← hH, ← hP]
  exact complement_modEq hx hy (fold_modEq H) (fold_modEq P) (fold_modEq (x + y)) (fold_le _)

theorem length_setCheck (segment : List UInt8) (check : UInt16) :
    (setCheck segment check).length = segment.length :=
  length_setWord segment 16 check

/-- The length alone makes the sum of a pseudo header positive. -/
theorem sumWords_pseudoHeader_pos (srcIp dstIp : UInt32) (proto : UInt8) {n : ℕ} (h : 0 < n)
    (hn : n ≤ 0xFFFF) : 0 < sumWords (pseudoHeader srcIp dstIp proto n) := by
  rw [pseudoHeader, sumWords_append (by simp)]
  apply Nat.add_pos_right
  simp only [sumWords, UInt8.toNat_ofNat']
  omega

/-- The sums of a whole packet, in the order of the network (`w`, with the check field set `w'`) and
in the order of the machine (`l`), and the padding. -/
theorem verifying_sum_iff {w w' l p c : ℕ} {p' : ℕ} (hw : l ≡ 256 * w [MOD 0xFFFF])
    (hw' : l + c ≡ 256 * w' [MOD 0xFFFF]) (hp : p ≡ 256 * p' [MOD 0xFFFF])
    (hc : c ≡ l + p [MOD 0xFFFF]) : w' % 0xFFFF = 0 ↔ (2 * w + p') % 0xFFFF = 0 := by
  unfold Nat.ModEq at *
  constructor <;> intro h <;> omega

/-- **When a forged segment verifies**: the check field that `tcp_chk_sum` computes makes the
receiver's sum fold to `0xFFFF` exactly when twice the sum of the words of the pseudo header and the
segment and the word of padding add up to a multiple of `0xFFFF`. -/
theorem tcpChkSum_verifies_iff (pad0 pad1 proto : UInt8) (segment : List UInt8)
    (srcIp dstIp : UInt32) (hlen : segment.length ≤ 0xFFFF) (h16 : segment[16]? = some 0)
    (h17 : segment[17]? = some 0) :
    Verifies srcIp dstIp proto (setCheck segment
        (tcpChkSum pad0 pad1 proto (some segment) (.ofNat segment.length) srcIp dstIp)) ↔
      (2 * sumWords (pseudoHeader srcIp dstIp proto segment.length ++ segment) +
        (pad0.toNat * 256 + pad1.toNat)) % 0xFFFF = 0 := by
  obtain ⟨check, hcheck⟩ : ∃ check, check =
    tcpChkSum pad0 pad1 proto (some segment) (.ofNat segment.length) srcIp dstIp := ⟨_, rfl⟩
  have hmod := tcpChkSum_modEq pad0 pad1 proto srcIp dstIp hlen
  rw [← hcheck] at hmod ⊢
  have hlt : 0 < segment.length := Nat.zero_lt_of_lt (List.getElem?_eq_some_iff.1 h16).1
  have heven : (pseudoHeader srcIp dstIp proto segment.length).length % 2 = 0 := by
    simp [pseudoHeader]
  have hsum : sumSwapped (pseudoHeader srcIp dstIp proto segment.length ++ setCheck segment check) =
      sumSwapped (pseudoHeader srcIp dstIp proto segment.length ++ segment) + check.toNat := by
    rw [sumSwapped_append heven, sumSwapped_append heven, sumSwapped_setCheck h16 h17, add_assoc]
  have hpos : 0 < sumWords (pseudoHeader srcIp dstIp proto segment.length ++
      setCheck segment check) := by
    rw [sumWords_append heven]
    exact Nat.add_pos_left (sumWords_pseudoHeader_pos _ _ _ hlt hlen) _
  have hw := sumSwapped_modEq (pseudoHeader srcIp dstIp proto segment.length ++ segment)
  have hw' := sumSwapped_modEq
    (pseudoHeader srcIp dstIp proto segment.length ++ setCheck segment check)
  rw [hsum] at hw'
  have hpad : pad0.toNat + pad1.toNat * 256 ≡ 256 * (pad0.toNat * 256 + pad1.toNat)
      [MOD 0xFFFF] := by
    unfold Nat.ModEq
    omega
  rw [Verifies, length_setCheck, fold_eq_ffff_iff, and_iff_right hpos]
  refine verifying_sum_iff hw hw' hpad ?_
  rw [sumSwapped_append heven]
  convert hmod using 1
  ring

/-- An empty TCP header from and to 127.0.0.1. -/
theorem tcpChkSum_verifies_localhost :
    Verifies 0x0100007F 0x0100007F 6 (setCheck (List.replicate 20 0)
        (tcpChkSum 0 0 6 (some (List.replicate 20 0)) (.ofNat 20) 0x0100007F 0x0100007F)) ↔
      (2 * sumWords (pseudoHeader 0x0100007F 0x0100007F 6 20 ++ List.replicate 20 0) +
        ((0 : UInt8).toNat * 256 + (0 : UInt8).toNat)) % 0xFFFF = 0 :=
  tcpChkSum_verifies_iff 0 0 6 (List.replicate 20 0) 0x0100007F 0x0100007F (by decide) rfl rfl

/-- The empty header does not verify when the padding is zero. -/
theorem not_verifies_localhost :
    ¬∀ (pad0 pad1 proto : UInt8) (segment : List UInt8) (srcIp dstIp : UInt32),
      segment.length ≤ 0xFFFF → segment[16]? = some 0 → segment[17]? = some 0 →
      Verifies srcIp dstIp proto (setCheck segment
        (tcpChkSum pad0 pad1 proto (some segment) (.ofNat segment.length) srcIp dstIp)) := by
  intro h
  have hv := h 0 0 6 (List.replicate 20 0) 0x0100007F 0x0100007F (by decide) rfl rfl
  exact absurd hv (by decide +kernel)

end F1Goal
