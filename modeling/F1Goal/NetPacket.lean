import F1Goal.Lib.Mem
import F1Goal.NetForge

/-!
# Forged packets: headers and payload (`f1g_net_forge.c`)

`net_forge_tcp_packet` writes the header of IP and that of TCP into a buffer, field by field. The
fields of a header are numbers as the machine has them in memory: an address or a port of the
parameters is copied to its field as it is, and `htons` turns a length. `parsePacket` is how a
receiver takes a packet apart, and `carries_iff` says which packets carry their parameters.
-/

namespace F1Goal

/-- `net_forge_para_t`; `load` is the memory at the pointer. -/
structure NetForgePara where
  seq : UInt32
  ack : UInt32
  srcIp : UInt32
  dstIp : UInt32
  dstPort : UInt16
  srcPort : UInt16
  tcpFlag : UInt8
  loadLen : UInt16
  load : ℤ → UInt8

/-- `TCP_FLAG_FIN` -/
def tcpFlagFin : UInt8 := 0x01

/-- `TCP_FLAG_SYN` -/
def tcpFlagSyn : UInt8 := 0x02

/-- `TCP_FLAG_RST` -/
def tcpFlagRst : UInt8 := 0x04

/-- `TCP_FLAG_PSH` -/
def tcpFlagPsh : UInt8 := 0x08

/-- `TCP_FLAG_ACK` -/
def tcpFlagAck : UInt8 := 0x10

/-- `TCP_FLAG_URG` -/
def tcpFlagUrg : UInt8 := 0x20

/-- `IPPROTO_TCP` -/
def ipprotoTcp : UInt8 := 6

/-- `struct iphdr`; `ihl` and `version` have four bits each. -/
structure IpHdr where
  ihl : UInt8
  version : UInt8
  tos : UInt8
  totLen : UInt16
  id : UInt16
  fragOff : UInt16
  ttl : UInt8
  protocol : UInt8
  check : UInt16
  saddr : UInt32
  daddr : UInt32

/-- The header after `memset`. -/
def IpHdr.zero : IpHdr := ⟨0, 0, 0, 0, 0, 0, 0, 0, 0, 0, 0⟩

/-- The 20 bytes of the header in memory. -/
def IpHdr.bytes (h : IpHdr) : List UInt8 :=
  [h.ihl ||| h.version <<< 4, h.tos] ++ LittleEndian.bytes 2 h.totLen.toNat ++
    LittleEndian.bytes 2 h.id.toNat ++ LittleEndian.bytes 2 h.fragOff.toNat ++
    [h.ttl, h.protocol] ++ LittleEndian.bytes 2 h.check.toNat ++
    LittleEndian.bytes 4 h.saddr.toNat ++ LittleEndian.bytes 4 h.daddr.toNat

/-- `struct tcphdr`; `res1` and `doff` have four bits each, and `res2` two. -/
structure TcpHdr where
  source : UInt16
  dest : UInt16
  seq : UInt32
  ackSeq : UInt32
  res1 : UInt8
  doff : UInt8
  fin : Bool
  syn : Bool
  rst : Bool
  psh : Bool
  ack : Bool
  urg : Bool
  res2 : UInt8
  window : UInt16
  check : UInt16
  urgPtr : UInt16

/-- The header after `memset`. -/
def TcpHdr.zero : TcpHdr :=
  ⟨0, 0, 0, 0, 0, 0, false, false, false, false, false, false, 0, 0, 0, 0⟩

/-- The byte of the bits from `fin` to `res2`. -/
def TcpHdr.flags (h : TcpHdr) : UInt8 :=
  h.fin.toUInt8 ||| h.syn.toUInt8 <<< 1 ||| h.rst.toUInt8 <<< 2 ||| h.psh.toUInt8 <<< 3 |||
    h.ack.toUInt8 <<< 4 ||| h.urg.toUInt8 <<< 5 ||| h.res2 <<< 6

/-- The 20 bytes of the header in memory. -/
def TcpHdr.bytes (h : TcpHdr) : List UInt8 :=
  LittleEndian.bytes 2 h.source.toNat ++ LittleEndian.bytes 2 h.dest.toNat ++
    LittleEndian.bytes 4 h.seq.toNat ++ LittleEndian.bytes 4 h.ackSeq.toNat ++
    [h.res1 ||| h.doff <<< 4, h.flags] ++ LittleEndian.bytes 2 h.window.toNat ++
    LittleEndian.bytes 2 h.check.toNat ++ LittleEndian.bytes 2 h.urgPtr.toNat

/-- Write into the buffer, which has no result outside of it. -/
def Value.write (buf : Value) (off : ℕ) (bs : List UInt8) : Option Value :=
  if off + bs.length ≤ buf.valSize then some { buf with val := Mem.store buf.val off bs } else none

/-- Read from the buffer, which has no result outside of it. -/
def Value.read (buf : Value) (off n : ℕ) : Option (List UInt8) :=
  if off + n ≤ buf.valSize then some (Mem.slice buf.val off n) else none

/-- The header of IP, with its checksum. -/
def forgeIpHdr (pid : ℕ) (packLen : UInt16) (para : NetForgePara) : IpHdr :=
  let iphdr := { IpHdr.zero with
    ihl := 5
    version := 4
    totLen := htons packLen
    id := htons (.ofNat pid)
    fragOff := 0
    ttl := 255
    protocol := ipprotoTcp
    saddr := para.srcIp
    daddr := para.dstIp }
  { iphdr with check := chkSum (some iphdr.bytes) 20 }

/-- The header of TCP, without its checksum. -/
def forgeTcpHdr (para : NetForgePara) : TcpHdr :=
  { TcpHdr.zero with
    source := para.srcPort
    dest := para.dstPort
    seq := para.seq
    ackSeq := para.ack
    res1 := 0
    doff := 5
    window := htons 1024
    fin := 0 ≠ para.tcpFlag &&& tcpFlagFin
    ack := 0 ≠ para.tcpFlag &&& tcpFlagAck
    psh := 0 ≠ para.tcpFlag &&& tcpFlagPsh }

/-- `net_forge_tcp_packet`, where `getpid()` is `pid` and the padding of the pseudo header holds
`pad0` and `pad1`. -/
def netForgeTcpPacket (pid : ℕ) (pad0 pad1 : UInt8) (buf : Value) (para : NetForgePara) :
    Option (Code × Value) := do
  let packLen : UInt16 := .ofNat (20 + 20 + para.loadLen.toNat)
  let buf := { buf with valLen := packLen.toNat }
  let buf ← buf.write 0 (forgeIpHdr pid packLen para).bytes
  let buf ← buf.write 20 (forgeTcpHdr para).bytes
  let length : UInt16 := .ofNat (20 + para.loadLen.toNat)
  let segment ← buf.read 20 length.toNat
  let check := tcpChkSum pad0 pad1 ipprotoTcp (some segment) length para.srcIp para.dstIp
  let buf ← buf.write 20 { forgeTcpHdr para with check := check }.bytes
  some (.ok, buf)

/-! ### Taking a packet apart -/

/-- The field of `k` bytes at an offset, as the machine reads it. -/
def field (w : List UInt8) (off k : ℕ) : ℕ := LittleEndian.value ((w.drop off).take k)

/-- What a receiver takes from a packet. `flags` are the bits from FIN to URG, and the length is
that of the header of IP. -/
structure Packet where
  totLen : ℕ
  saddr : ℕ
  daddr : ℕ
  source : ℕ
  dest : ℕ
  seq : ℕ
  ackSeq : ℕ
  flags : ℕ
  payload : List UInt8
  deriving DecidableEq

/-- **Parse a packet** of TCP over IPv4: the headers have the lengths that they give in words of
four bytes, and the payload is what is left. -/
def parsePacket (w : List UInt8) : Option Packet :=
  let ihl := 4 * (field w 0 1 % 16)
  let doff := 4 * (field w (ihl + 12) 1 / 16)
  let totLen := 256 * field w 2 1 + field w 3 1
  if field w 0 1 / 16 = 4 ∧ 20 ≤ ihl ∧ field w 9 1 = ipprotoTcp.toNat ∧ 20 ≤ doff ∧
      ihl + doff ≤ totLen ∧ totLen ≤ w.length then
    some {
      totLen := totLen
      saddr := field w 12 4
      daddr := field w 16 4
      source := field w ihl 2
      dest := field w (ihl + 2) 2
      seq := field w (ihl + 4) 4
      ackSeq := field w (ihl + 8) 4
      flags := field w (ihl + 13) 1 % 64
      payload := (w.take totLen).drop (ihl + doff) }
  else none

/-- The packet with these parameters. -/
def NetForgePara.packet (para : NetForgePara) : Packet where
  totLen := 40 + para.loadLen.toNat
  saddr := para.srcIp.toNat
  daddr := para.dstIp.toNat
  source := para.srcPort.toNat
  dest := para.dstPort.toNat
  seq := para.seq.toNat
  ackSeq := para.ack.toNat
  flags := para.tcpFlag.toNat % 64
  payload := Mem.slice para.load 0 para.loadLen.toNat

/-- **The packet carries its parameters.** -/
def Carries (pid : ℕ) (pad0 pad1 : UInt8) (buf : Value) (para : NetForgePara) : Prop :=
  ∃ buf', netForgeTcpPacket pid pad0 pad1 buf para = some (.ok, buf') ∧
    buf'.valLen = 40 + para.loadLen.toNat ∧
    parsePacket (Mem.slice buf'.val 0 buf'.valLen.toNat) = some para.packet

/-! ### What the function writes -/

@[simp] theorem IpHdr.length_bytes (h : IpHdr) : h.bytes.length = 20 := rfl

@[simp] theorem TcpHdr.length_bytes (h : TcpHdr) : h.bytes.length = 20 := rfl

/-- Three parts of a memory, one behind the other. -/
theorem slice_parts (m : ℤ → UInt8) (n : ℕ) :
    Mem.slice m 0 (40 + n) = Mem.slice m 0 20 ++ Mem.slice m 20 20 ++ Mem.slice m 40 n := by
  rw [show 40 + n = 20 + 20 + n from rfl, Mem.slice_add, Mem.slice_add]
  rfl

/-- The two headers, and behind them what has been in the buffer. -/
theorem slice_headers (m : ℤ → UInt8) {ip tcp tcp' : List UInt8} (hip : ip.length = 20)
    (htcp : tcp.length = 20) (htcp' : tcp'.length = 20) (n : ℕ) :
    Mem.slice (Mem.store (Mem.store (Mem.store m 0 ip) 20 tcp) 20 tcp') 0 (40 + n) =
      ip ++ tcp' ++ Mem.slice m 40 n := by
  have hsecond := Mem.slice_store_self (Mem.store (Mem.store m 0 ip) 20 tcp) 20 tcp'
  have hfirst := Mem.slice_store_self m 0 ip
  rw [htcp'] at hsecond
  rw [hip] at hfirst
  rw [slice_parts, hsecond, Mem.slice_store_of_disjoint (.inl (by norm_num)),
    Mem.slice_store_of_disjoint (.inl (by norm_num)), hfirst,
    Mem.slice_store_of_disjoint (.inr (by omega)), Mem.slice_store_of_disjoint (.inr (by omega)),
    Mem.slice_store_of_disjoint (.inr (by omega))]

theorem Value.write_eq {buf : Value} {off : ℕ} {bs : List UInt8}
    (h : off + bs.length ≤ buf.valSize) :
    buf.write off bs = some { buf with val := Mem.store buf.val off bs } :=
  if_pos h

theorem Value.read_eq {buf : Value} {off n : ℕ} (h : off + n ≤ buf.valSize) :
    buf.read off n = some (Mem.slice buf.val off n) :=
  if_pos h

/-- **What is written**: the two headers, before what the buffer held there. -/
theorem netForgeTcpPacket_ok (pid : ℕ) (pad0 pad1 : UInt8) {buf : Value} {para : NetForgePara}
    (hlen : 40 + para.loadLen.toNat ≤ 65535) (hsize : 40 + para.loadLen.toNat ≤ buf.valSize) :
    ∃ buf' check, netForgeTcpPacket pid pad0 pad1 buf para = some (.ok, buf') ∧
      buf'.valLen = 40 + para.loadLen.toNat ∧
      Mem.slice buf'.val 0 (40 + para.loadLen.toNat) =
        (forgeIpHdr pid (.ofNat (40 + para.loadLen.toNat)) para).bytes ++
          { forgeTcpHdr para with check := check }.bytes ++
            Mem.slice buf.val 40 para.loadLen.toNat := by
  have hpack : (UInt16.ofNat (20 + 20 + para.loadLen.toNat)).toNat = 40 + para.loadLen.toNat := by
    rw [UInt16.toNat_ofNat', Nat.mod_eq_of_lt (by omega)]
  have hseg : (UInt16.ofNat (20 + para.loadLen.toNat)).toNat = 20 + para.loadLen.toNat := by
    rw [UInt16.toNat_ofNat', Nat.mod_eq_of_lt (by omega)]
  obtain ⟨written, hwritten⟩ : ∃ m, m = Mem.store (Mem.store buf.val 0
    (forgeIpHdr pid (.ofNat (20 + 20 + para.loadLen.toNat)) para).bytes) 20
      (forgeTcpHdr para).bytes := ⟨_, rfl⟩
  obtain ⟨check, hcheck⟩ : ∃ check, check = tcpChkSum pad0 pad1 ipprotoTcp
    (some (Mem.slice written 20 (20 + para.loadLen.toNat)))
      (.ofNat (20 + para.loadLen.toNat)) para.srcIp para.dstIp := ⟨_, rfl⟩
  refine ⟨{ buf with
    valLen := (UInt16.ofNat (20 + 20 + para.loadLen.toNat)).toNat
    val := Mem.store written 20 { forgeTcpHdr para with check := check }.bytes }, check, ?_, ?_, ?_⟩
  · rw [netForgeTcpPacket]
    dsimp only
    rw [Value.write_eq (by simp; omega), Option.bind_eq_bind, Option.bind_some,
      Value.write_eq (by simp; omega), Option.bind_eq_bind, Option.bind_some]
    dsimp only
    rw [Value.read_eq (by simp; omega), hseg, Option.bind_some, Value.write_eq (by simp; omega)]
    simp only [hwritten, hcheck]
    rfl
  · dsimp only
    rw [hpack]
    rfl
  · rw [hwritten]
    exact slice_headers buf.val (IpHdr.length_bytes _) (TcpHdr.length_bytes _)
      (TcpHdr.length_bytes _) _

/-! ### What a receiver reads -/

theorem value_bytes16 (n : UInt16) : LittleEndian.value (LittleEndian.bytes 2 n.toNat) = n.toNat :=
  LittleEndian.value_bytes n.toNat_lt

theorem value_bytes32 (n : UInt32) : LittleEndian.value (LittleEndian.bytes 4 n.toNat) = n.toNat :=
  LittleEndian.value_bytes n.toNat_lt

/-- A length that `htons` has turned is read with the high byte first. -/
theorem value_htons (n : UInt16) :
    256 * LittleEndian.value [.ofNat (htons n).toNat] +
      LittleEndian.value [.ofNat ((htons n).toNat / 256)] = n.toNat := by
  have hn := n.toNat_lt
  have hhigh : (n.toNat % 256 * 256 + n.toNat / 256) % 256 = n.toNat / 256 := by omega
  have hlow : (n.toNat % 256 * 256 + n.toNat / 256) / 256 = n.toNat % 256 := by omega
  simp only [LittleEndian.value, toNat_htons, UInt8.toNat_ofNat', hhigh, hlow]
  omega

/-- **The headers are parsed**: those of five words, in a packet of the length given. -/
theorem parsePacket_headers {ip : IpHdr} {tcp : TcpHdr} {payload : List UInt8} {n : UInt16}
    (hip : ip.ihl = 5 ∧ ip.version = 4 ∧ ip.protocol = ipprotoTcp ∧ ip.totLen = htons n)
    (htcp : tcp.res1 = 0 ∧ tcp.doff = 5) (hn : n.toNat = 40 + payload.length) :
    parsePacket (ip.bytes ++ tcp.bytes ++ payload) = some {
      totLen := n.toNat
      saddr := ip.saddr.toNat
      daddr := ip.daddr.toNat
      source := tcp.source.toNat
      dest := tcp.dest.toNat
      seq := tcp.seq.toNat
      ackSeq := tcp.ackSeq.toNat
      flags := tcp.flags.toNat % 64
      payload := payload } := by
  obtain ⟨w, hw⟩ : ∃ w, w = ip.bytes ++ tcp.bytes ++ payload := ⟨_, rfl⟩
  have hlen : w.length = n.toNat := by
    rw [hw, List.length_append, List.length_append, IpHdr.length_bytes, TcpHdr.length_bytes, hn]
  -- what is tested
  have hfirst : field w 0 1 = 0x45 := by
    rw [hw]
    change LittleEndian.value [ip.ihl ||| ip.version <<< 4] = 0x45
    rw [hip.1, hip.2.1]
    rfl
  have hproto : field w 9 1 = ipprotoTcp.toNat := by
    rw [hw]
    change LittleEndian.value [ip.protocol] = ipprotoTcp.toNat
    rw [hip.2.2.1]
    rfl
  have hdoff : field w 32 1 = 0x50 := by
    rw [hw]
    change LittleEndian.value [tcp.res1 ||| tcp.doff <<< 4] = 0x50
    rw [htcp.1, htcp.2]
    rfl
  have htot : 256 * field w 2 1 + field w 3 1 = n.toNat := by
    rw [hw]
    change 256 * LittleEndian.value [.ofNat ip.totLen.toNat] +
      LittleEndian.value [.ofNat (ip.totLen.toNat / 256)] = n.toNat
    rw [hip.2.2.2, value_htons]
  -- what is read
  have hflags : field w 33 1 = tcp.flags.toNat := by
    rw [hw]
    exact Nat.add_zero _
  have hsaddr : field w 12 4 = ip.saddr.toNat := hw ▸ value_bytes32 ip.saddr
  have hdaddr : field w 16 4 = ip.daddr.toNat := hw ▸ value_bytes32 ip.daddr
  have hsource : field w 20 2 = tcp.source.toNat := hw ▸ value_bytes16 tcp.source
  have hdest : field w 22 2 = tcp.dest.toNat := hw ▸ value_bytes16 tcp.dest
  have hseq : field w 24 4 = tcp.seq.toNat := hw ▸ value_bytes32 tcp.seq
  have hack : field w 28 4 = tcp.ackSeq.toNat := hw ▸ value_bytes32 tcp.ackSeq
  have hpayload : (w.take n.toNat).drop 40 = payload := by
    rw [← hlen, List.take_length, hw]
    rfl
  rw [← hw]
  simp [parsePacket, hfirst, hdoff, hproto, htot, hlen, hflags, hsaddr, hdaddr, hsource, hdest, hseq,
    hack, hpayload]
  omega

/-- The bits of FIN, PSH and ACK are those of the parameters, and the others are zero. -/
theorem flags_forgeTcpHdr (para : NetForgePara) :
    (forgeTcpHdr para).flags = para.tcpFlag &&& 0x19 := by
  have h : ∀ n : Fin 256, (forgeTcpHdr ⟨0, 0, 0, 0, 0, 0, .ofNat n, 0, fun _ => 0⟩).flags =
      .ofNat n &&& 0x19 := by decide +kernel
  have hflag := h ⟨para.tcpFlag.toNat, para.tcpFlag.toNat_lt⟩
  rwa [UInt8.ofNat_toNat] at hflag

/-- They are all of the bits from FIN to URG when SYN, RST and URG are not set. -/
theorem flags_eq_iff (flag : UInt8) :
    (flag &&& 0x19).toNat % 64 = flag.toNat % 64 ↔
      flag &&& (tcpFlagSyn ||| tcpFlagRst ||| tcpFlagUrg) = 0 := by
  have h : ∀ n : Fin 256, (UInt8.ofNat n &&& 0x19).toNat % 64 = (UInt8.ofNat n).toNat % 64 ↔
      UInt8.ofNat n &&& (tcpFlagSyn ||| tcpFlagRst ||| tcpFlagUrg) = 0 := by decide +kernel
  have hflag := h ⟨flag.toNat, flag.toNat_lt⟩
  rwa [UInt8.ofNat_toNat] at hflag

/-- **What a receiver reads**: SYN, RST and URG are never set, and the payload is what the buffer
held. -/
theorem netForgeTcpPacket_parse (pid : ℕ) (pad0 pad1 : UInt8) {buf : Value} {para : NetForgePara}
    (hlen : 40 + para.loadLen.toNat ≤ 65535) (hsize : 40 + para.loadLen.toNat ≤ buf.valSize) :
    ∃ buf', netForgeTcpPacket pid pad0 pad1 buf para = some (.ok, buf') ∧
      buf'.valLen = 40 + para.loadLen.toNat ∧
      parsePacket (Mem.slice buf'.val 0 buf'.valLen.toNat) = some
        { para.packet with
          flags := (para.tcpFlag &&& 0x19).toNat % 64
          payload := Mem.slice buf.val 40 para.loadLen.toNat } := by
  obtain ⟨buf', check, hok, hval, hbytes⟩ := netForgeTcpPacket_ok pid pad0 pad1 hlen hsize
  have hpack : (UInt16.ofNat (40 + para.loadLen.toNat)).toNat = 40 + para.loadLen.toNat := by
    rw [UInt16.toNat_ofNat', Nat.mod_eq_of_lt (by omega)]
  have htotal : buf'.valLen.toNat = 40 + para.loadLen.toNat := by omega
  refine ⟨buf', hok, hval, ?_⟩
  rw [htotal, hbytes, parsePacket_headers ⟨rfl, rfl, rfl, rfl⟩ ⟨rfl, rfl⟩
    (by rw [hpack, Mem.length_slice]), hpack, ← flags_forgeTcpHdr]
  rfl

/-- **When a packet carries its parameters**: none of SYN, RST and URG is asked for, and the buffer
held the payload already. -/
theorem carries_iff (pid : ℕ) (pad0 pad1 : UInt8) {buf : Value} {para : NetForgePara}
    (hlen : 40 + para.loadLen.toNat ≤ 65535) (hsize : 40 + para.loadLen.toNat ≤ buf.valSize) :
    Carries pid pad0 pad1 buf para ↔
      para.tcpFlag &&& (tcpFlagSyn ||| tcpFlagRst ||| tcpFlagUrg) = 0 ∧
        Mem.slice buf.val 40 para.loadLen.toNat = Mem.slice para.load 0 para.loadLen.toNat := by
  obtain ⟨buf', hok, hval, hparse⟩ := netForgeTcpPacket_parse pid pad0 pad1 hlen hsize
  rw [← flags_eq_iff]
  constructor
  · rintro ⟨buf2, hok2, -, hparse2⟩
    cases hok.symm.trans hok2
    have hpacket := Option.some.inj (hparse.symm.trans hparse2)
    exact ⟨congrArg Packet.flags hpacket, congrArg Packet.payload hpacket⟩
  · rintro ⟨hflags, hpayload⟩
    exact ⟨buf', hok, hval, by rw [hparse, hflags, hpayload]; rfl⟩

/-- A packet with FIN and ACK, and two bytes that the buffer holds already. -/
theorem carries_fin :
    Carries 1 0 0 ⟨42, 0, fun _ => 7⟩ ⟨1, 2, 3, 4, 5, 6, 0x11, 2, fun _ => 7⟩ ↔
      (0x11 : UInt8) &&& (tcpFlagSyn ||| tcpFlagRst ||| tcpFlagUrg) = 0 ∧
        Mem.slice (fun _ => (7 : UInt8)) 40 2 = Mem.slice (fun _ => (7 : UInt8)) 0 2 :=
  @carries_iff 1 0 0 ⟨42, 0, fun _ => 7⟩ ⟨1, 2, 3, 4, 5, 6, 0x11, 2, fun _ => 7⟩ (by decide)
    (by decide)

/-- **A packet with SYN and the payload `A`** has neither, in a buffer of zeros. -/
theorem syn_is_lost :
    ∃ buf', netForgeTcpPacket 1 0 0 ⟨41, 0, fun _ => 0⟩
        ⟨0, 0, 0, 0, 0, 0, tcpFlagSyn, 1, fun _ => 65⟩ = some (.ok, buf') ∧
      ∃ packet, parsePacket (Mem.slice buf'.val 0 buf'.valLen.toNat) = some packet ∧
        packet.flags = 0 ∧ packet.payload = [0] ∧
        ¬ Carries 1 0 0 ⟨41, 0, fun _ => 0⟩ ⟨0, 0, 0, 0, 0, 0, tcpFlagSyn, 1, fun _ => 65⟩ := by
  obtain ⟨buf', hok, -, hparse⟩ := @netForgeTcpPacket_parse 1 0 0 ⟨41, 0, fun _ => 0⟩
    ⟨0, 0, 0, 0, 0, 0, tcpFlagSyn, 1, fun _ => 65⟩ (by decide) (by decide)
  refine ⟨buf', hok, _, hparse, by decide, by decide, ?_⟩
  rintro ⟨buf2, hok2, -, hparse2⟩
  cases hok.symm.trans hok2
  have hpacket := Option.some.inj (hparse.symm.trans hparse2)
  exact absurd (congrArg Packet.flags hpacket) (by decide)

end F1Goal
