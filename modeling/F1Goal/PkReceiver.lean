import F1Goal.BasicFuncs
import F1Goal.NetPacket
import F1Goal.PerfMon

/-!
# The receiver of packets (`pkreceiver_v2.c`)

`handler` takes two parameters from the payload of a packet to the static `tbuf`, where nothing ends
a value, and prints each from there. The text for the second parameter of a packet is written behind
the line of the first. `own_lines_iff` says when every line belongs to its packet: among other
things, no value may be shorter than one before it, in the whole run.
-/

namespace F1Goal

open Block CString

/-- `struct pcap_pkthdr` and the bytes of the packet. The interface is opened for 65535 bytes a
packet, so that a packet is there whole. -/
structure PcapPkt where
  sec : ℤ
  usec : ℤ
  data : List UInt8

/-- A parameter that `handler` looks for. -/
inductive Param
  | oUrl
  | timestamp
  deriving DecidableEq, Repr

/-- The text before the value. -/
def Param.prev : Param → List UInt8
  | .oUrl => ascii "&o_url="
  | .timestamp => ascii "&timestamp="

/-- The text behind the value. -/
def Param.post : Param → List UInt8
  | .oUrl => ascii "&"
  | .timestamp => ascii ";"

/-- `LOG_BUF_SZ` -/
def logBufSz : ℕ := 256

/-- `sizeof(tbuf)` -/
def tbufSz : ℕ := 1024

/-- The static buffers: `tbuf`, and the string in `g_log_buf`. -/
structure Receiver where
  tbuf : ℤ → UInt8
  gLogBuf : List UInt8

/-- The static buffers at first. -/
def Receiver.start : Receiver := ⟨fun _ => 0, []⟩

/-- What is printed for a parameter: the text that `%s` takes from `tbuf`, and the line. -/
structure LogLine where
  param : Param
  text : List UInt8
  line : List UInt8

/-- `ETHERTYPE_IP` -/
def ethertypeIp : ℕ := 0x0800

/-- `IPPROTO_UDP` -/
def ipprotoUdp : UInt8 := 17

/-- `ntohs` of the field at an address. -/
def ntohsAt (mem : ℤ → Option UInt8) (off : ℤ) : Option ℕ := do
  let high ← mem off
  let low ← mem (off + 1)
  some (high.toNat * 256 + low.toNat)

/-- `inet_ntop(AF_INET, ..)` -/
def inetNtop (addr : List UInt8) : List UInt8 :=
  (ascii ".").intercalate (addr.map fun b => decimal b.toNat)

/-- `"|%ld.%ld|%s|%u|%s|%u"`: the end of a line. -/
def PcapPkt.trailer (pkt : PcapPkt) (srcIp : List UInt8) (srcPort : ℕ) (dstIp : List UInt8)
    (dstPort : ℕ) : List UInt8 :=
  ascii "|" ++ decimal pkt.sec ++ ascii "." ++ decimal pkt.usec ++ ascii "|" ++ srcIp ++
    ascii "|" ++ decimal srcPort ++ ascii "|" ++ dstIp ++ ascii "|" ++ decimal dstPort

/-- A parameter in the text from `load` to `loadEnd`. There is no result when the string in `tbuf`
has no end, or the line is too long for `g_log_buf`. -/
def logParam (mem : ℤ → Option UInt8) (load loadEnd : ℤ) (trailer : List UInt8) (param : Param)
    (s : Receiver) : Option (Receiver × List LogLine) := do
  let value ← substr mem load loadEnd param.prev param.post tbufSz
  let s := { s with tbuf := Mem.store s.tbuf 0 value }
  if value = [] then some (s, [])
  else
    let text ← stringIn s.tbuf tbufSz
    let line := s.gLogBuf ++ text ++ trailer
    if line.length < logBufSz then some ({ s with gLogBuf := line }, [⟨param, text, line⟩])
    else none

/-- The two parameters, one behind the other. -/
def logParams (mem : ℤ → Option UInt8) (load loadEnd : ℤ) (trailer : List UInt8) (s : Receiver) :
    Option (Receiver × List LogLine) := do
  let (s, url) ← logParam mem load loadEnd trailer .oUrl s
  let (s, time) ← logParam mem load loadEnd trailer .timestamp s
  some (s, url ++ time)

/-- `handler`; there is no result when it reads outside of the packet, either. -/
def handler (s : Receiver) (pkt : PcapPkt) : Option (Receiver × List LogLine) := do
  let mem := ofList pkt.data
  let etherType ← ntohsAt mem 12
  if etherType ≠ ethertypeIp then some (s, [])
  else
    let s := { s with gLogBuf := [] }
    let srcIp := inetNtop (← read mem 26 4)
    let dstIp := inetNtop (← read mem 30 4)
    let ihl ← mem 14
    let transOff : ℤ := 14 + (ihl &&& 15).toNat * 4
    let protocol ← mem 23
    if protocol = ipprotoTcp then
      let doff ← mem (transOff + 12)
      let load := transOff + (doff >>> 4).toNat * 4
      let loadSz := pkt.data.length - transOff - (doff >>> 4).toNat * 4
      let srcPort ← ntohsAt mem transOff
      let dstPort ← ntohsAt mem (transOff + 2)
      logParams mem load (load + loadSz - 1) (pkt.trailer srcIp srcPort dstIp dstPort)
        { s with gLogBuf := s.gLogBuf ++ ascii "tcp|" }
    else if protocol = ipprotoUdp then
      let loadSz := pkt.data.length - transOff - 8
      let srcPort ← ntohsAt mem transOff
      let dstPort ← ntohsAt mem (transOff + 2)
      let load := transOff + 8
      logParams mem load (load + loadSz - 1) (pkt.trailer srcIp srcPort dstIp dstPort)
        { s with gLogBuf := s.gLogBuf ++ ascii "udp|" }
    else some (s, [])

/-! ### What a packet holds -/

/-- A byte of the packet. -/
def PcapPkt.byte (pkt : PcapPkt) (i : ℕ) : UInt8 := pkt.data.getD i 0

/-- A number of two bytes. -/
def PcapPkt.port (pkt : PcapPkt) (i : ℕ) : ℕ := (pkt.byte i).toNat * 256 + (pkt.byte (i + 1)).toNat

/-- An address as text. -/
def PcapPkt.ip (pkt : PcapPkt) (i : ℕ) : List UInt8 := inetNtop ((pkt.data.drop i).take 4)

/-- Where the header of TCP or UDP begins. -/
def PcapPkt.transOff (pkt : PcapPkt) : ℕ := 14 + (pkt.byte 14 &&& 15).toNat * 4

/-- Where the payload begins. -/
def PcapPkt.load (pkt : PcapPkt) : ℕ :=
  pkt.transOff +
    if pkt.byte 23 = ipprotoTcp then (pkt.byte (pkt.transOff + 12) >>> 4).toNat * 4 else 8

/-- The payload. -/
def PcapPkt.payload (pkt : PcapPkt) : List UInt8 := pkt.data.drop pkt.load

/-- The start of a line. -/
def PcapPkt.proto (pkt : PcapPkt) : List UInt8 :=
  if pkt.byte 23 = ipprotoTcp then ascii "tcp|" else ascii "udp|"

/-- The end of a line. -/
def PcapPkt.ownTrailer (pkt : PcapPkt) : List UInt8 :=
  pkt.trailer (pkt.ip 26) (pkt.port pkt.transOff) (pkt.ip 30) (pkt.port (pkt.transOff + 2))

/-- The packet is one of TCP or UDP, with complete headers. -/
structure PcapPkt.Complete (pkt : PcapPkt) : Prop where
  ip : pkt.port 12 = ethertypeIp
  protocol : pkt.byte 23 = ipprotoTcp ∨ pkt.byte 23 = ipprotoUdp
  ipHdr : 34 ≤ pkt.data.length
  transHdr : pkt.transOff + (if pkt.byte 23 = ipprotoTcp then 20 else 8) ≤ pkt.data.length
  load : pkt.load ≤ pkt.data.length

variable {pkt : PcapPkt}

theorem mem_byte {off : ℤ} {i : ℕ} (hoff : off = i) (hi : i < pkt.data.length) :
    ofList pkt.data off = some (pkt.byte i) := by
  rw [hoff, ofList, if_pos (Int.natCast_nonneg i), Int.toNat_natCast, List.getElem?_eq_getElem hi,
    PcapPkt.byte, List.getD_eq_getElem?_getD, List.getElem?_eq_getElem hi, Option.getD_some]

theorem ntohsAt_eq {off : ℤ} {i : ℕ} (hoff : off = i) (hi : i + 1 < pkt.data.length) :
    ntohsAt (ofList pkt.data) off = some (pkt.port i) := by
  have hlow : off + 1 = ((i + 1 : ℕ) : ℤ) := by omega
  rw [ntohsAt, mem_byte hoff (Nat.lt_of_succ_lt hi), mem_byte hlow hi]
  rfl

/-- What stands in a packet from a position on. -/
theorem holds_drop {i : ℕ} (hi : i ≤ pkt.data.length) :
    Holds (ofList pkt.data) i (pkt.data.drop i) := by
  have hdrop := (holds_ofList_self pkt.data).drop i hi
  rwa [zero_add] at hdrop

theorem read_addr {off : ℤ} {i : ℕ} (hoff : off = i) (hi : i + 4 ≤ pkt.data.length) :
    read (ofList pkt.data) off 4 = some ((pkt.data.drop i).take 4) := by
  have hlen : ((pkt.data.drop i).take 4).length = 4 :=
    List.length_take_of_le (by rw [List.length_drop]; omega)
  have hread := read_holds (Holds.of_prefix (holds_drop (Nat.le_of_add_right_le hi))
    (List.take_prefix 4 _))
  rwa [hlen, ← hoff] at hread

/-- **`handler`** looks for the parameters in the payload of the packet, and prints lines that begin
and end with what its headers say. -/
theorem handler_eq (h : pkt.Complete) (s : Receiver) :
    handler s pkt = logParams (ofList pkt.data) pkt.load (pkt.data.length - 1) pkt.ownTrailer
      { s with gLogBuf := pkt.proto } := by
  have hip := h.ipHdr
  have htrans := h.transHdr
  have hports : pkt.transOff + 4 ≤ pkt.data.length := by
    split_ifs at htrans <;> omega
  have htype : ntohsAt (ofList pkt.data) 12 = some (pkt.port 12) := ntohsAt_eq rfl (by omega)
  have hsrc : read (ofList pkt.data) 26 4 = some ((pkt.data.drop 26).take 4) :=
    read_addr rfl (by omega)
  have hdst : read (ofList pkt.data) 30 4 = some ((pkt.data.drop 30).take 4) :=
    read_addr rfl (by omega)
  have hihl : ofList pkt.data 14 = some (pkt.byte 14) := mem_byte rfl (by omega)
  have hprotocol : ofList pkt.data 23 = some (pkt.byte 23) := mem_byte rfl (by omega)
  have hoff : (14 : ℤ) + ((pkt.byte 14 &&& 15).toNat : ℤ) * 4 = (pkt.transOff : ℤ) := by
    rw [PcapPkt.transOff]
    push_cast
    rfl
  have hsrcPort : ntohsAt (ofList pkt.data) pkt.transOff = some (pkt.port pkt.transOff) :=
    ntohsAt_eq rfl (by omega)
  have hdstPort : ntohsAt (ofList pkt.data) (pkt.transOff + 2) =
      some (pkt.port (pkt.transOff + 2)) := ntohsAt_eq (by push_cast; rfl) (by omega)
  have hend : ∀ n : ℤ, (pkt.transOff : ℤ) + n + (pkt.data.length - pkt.transOff - n) - 1 =
      pkt.data.length - 1 := fun n => by ring
  simp only [handler, htype, h.ip, Option.bind_eq_bind, Option.bind_some, ne_eq, not_true_eq_false,
    if_false, hsrc, hdst, hihl, hprotocol, hoff]
  by_cases htcp : pkt.byte 23 = ipprotoTcp
  · rw [if_pos htcp] at htrans
    have hdoff : ofList pkt.data (pkt.transOff + 12) = some (pkt.byte (pkt.transOff + 12)) :=
      mem_byte (by push_cast; rfl) (by omega)
    have hload : (pkt.transOff : ℤ) + ((pkt.byte (pkt.transOff + 12) >>> 4).toNat : ℤ) * 4 =
        (pkt.load : ℤ) := by
      rw [PcapPkt.load, if_pos htcp]
      push_cast
      rfl
    rw [if_pos htcp]
    simp only [hdoff, Option.bind_some, hsrcPort, hdstPort, hend]
    rw [hload, PcapPkt.proto, if_pos htcp]
    rfl
  · have hudp := h.protocol.resolve_left htcp
    have hload : (pkt.transOff : ℤ) + 8 = (pkt.load : ℤ) := by
      rw [PcapPkt.load, if_neg htcp]
      push_cast
      rfl
    rw [if_neg htcp, if_pos hudp]
    simp only [Option.bind_some, hsrcPort, hdstPort, hend]
    rw [hload, PcapPkt.proto, if_neg htcp]
    rfl

/-! ### The value of a parameter -/

theorem Param.post_eq (param : Param) : ∃ d, param.post = [d] := by
  cases param <;> exact ⟨_, rfl⟩

theorem Param.prev_ne_nil (param : Param) : param.prev ≠ [] := by
  cases param <;> decide

theorem Param.prev_short (param : Param) : param.prev.length < 512 := by
  cases param <;> decide

/-- What `substr` takes for a parameter: it does not look at the last byte of the payload. -/
def PcapPkt.value (pkt : PcapPkt) (param : Param) : List UInt8 :=
  ((behind param.prev param.post pkt.payload.dropLast).filter fun v => v.length ≤ tbufSz).getD []

theorem value_nil (h : pkt.payload = []) {param : Param} : pkt.value param = [] := by
  have hnone : firstAt param.prev [] = none := if_neg param.prev_ne_nil
  rw [PcapPkt.value, h, List.dropLast_nil, behind, restBehind, hnone]
  rfl

theorem substr_payload (h : pkt.load ≤ pkt.data.length) (param : Param) :
    substr (ofList pkt.data) pkt.load (pkt.data.length - 1) param.prev param.post tbufSz =
      some (pkt.value param) := by
  obtain ⟨d, hpost⟩ := param.post_eq
  have hlen : pkt.payload.length = pkt.data.length - pkt.load := List.length_drop
  rcases Nat.eq_zero_or_pos pkt.payload.length with hzero | hpos
  · -- no text to look at
    have hpositive := List.length_pos_iff.2 param.prev_ne_nil
    have hnone : ((pkt.data.length : ℤ) - 1 - pkt.load - param.prev.length + 1).toNat = 0 := by
      omega
    rw [value_nil (List.length_eq_zero_iff.1 hzero), substr, findStr, hnone]
    rfl
  · have hholds : Holds (ofList pkt.data) pkt.load pkt.payload.dropLast :=
      Holds.of_prefix (holds_drop h) (List.dropLast_prefix _)
    have hend : (pkt.data.length : ℤ) - 1 = pkt.load + pkt.payload.dropLast.length := by
      rw [List.length_dropLast]
      omega
    rw [hend, substr_spec hholds param.prev_short (by rw [hpost]; exact Nat.le_of_ble_eq_true rfl)]
    rfl

/-- What is taken is what stands between the marks, if the second one is there. -/
theorem between_payload {param : Param} (hvalue : pkt.value param ≠ []) :
    (pkt.value param).length ≤ tbufSz ∧
      (between param.prev param.post pkt.payload = some (pkt.value param) ∨
        between param.prev param.post pkt.payload = none) := by
  obtain ⟨d, hpost⟩ := param.post_eq
  have hne : pkt.payload ≠ [] := fun hnil => hvalue (value_nil hnil)
  rw [PcapPkt.value] at hvalue ⊢
  cases hbehind : behind param.prev param.post pkt.payload.dropLast with
  | none =>
    rw [hbehind] at hvalue
    exact absurd rfl hvalue
  | some v =>
    rw [hbehind, Option.filter_some] at hvalue
    rw [Option.filter_some]
    split_ifs at hvalue ⊢ with hlong
    · rw [Option.getD_some]
      refine ⟨of_decide_eq_true hlong, ?_⟩
      rw [hpost] at hbehind ⊢
      have hconcat := between_concat (c := pkt.payload.getLast hne) hbehind
      rwa [List.dropLast_append_getLast] at hconcat
    · exact absurd rfl hvalue

/-! ### The static buffer -/

/-- The first `m` bytes of `tbuf` are those that are not zero. -/
def Filled (buf : ℤ → UInt8) (m : ℕ) : Prop :=
  (∀ i : ℕ, i < m → buf i ≠ 0) ∧ ∀ i : ℕ, m ≤ i → i < tbufSz → buf i = 0

/-- **The string behind a value**: a value is printed as it is when it has no zero, and one stands
behind it in the buffer. -/
theorem stringIn_store {buf : ℤ → UInt8} {m : ℕ} (hfill : Filled buf m) {v : List UInt8}
    (hlen : v.length ≤ tbufSz) :
    stringIn (Mem.store buf 0 v) tbufSz = some v ↔ 0 ∉ v ∧ m ≤ v.length ∧ v.length < tbufSz := by
  obtain ⟨k, hk⟩ := Nat.exists_eq_add_of_le hlen
  have hslice : Mem.slice (Mem.store buf 0 v) 0 tbufSz = v ++ Mem.slice buf v.length k := by
    rw [hk, Mem.slice_add, Mem.slice_store_self, zero_add]
    congr 1
    exact Mem.slice_congr fun i _ => Mem.store_of_le (by omega)
  rw [stringIn, hslice]
  constructor
  · intro hstring
    split_ifs at hstring with hzero
    have hcstr := Option.some.inj hstring
    have hnot : 0 ∉ v := by
      intro hmem
      rw [← hcstr] at hmem
      exact absurd (List.mem_takeWhile_imp hmem) (by simp)
    rw [cstr_append hnot, List.append_right_eq_self] at hcstr
    have hmem := (List.mem_append.1 hzero).resolve_left hnot
    cases k with
    | zero => simp at hmem
    | succ k =>
      rw [Mem.slice_succ, cstr, List.takeWhile_cons] at hcstr
      split_ifs at hcstr with hne
      refine ⟨hnot, ?_, by omega⟩
      by_contra hlt
      exact hfill.1 v.length (not_le.1 hlt) (by simpa using hne)
  · rintro ⟨hnot, hm, hlt⟩
    obtain ⟨k, rfl⟩ : ∃ j, k = j + 1 := ⟨k - 1, by omega⟩
    have hzero : buf v.length = 0 := hfill.2 v.length hm hlt
    rw [Mem.slice_succ, hzero, if_pos (by simp), cstr_append hnot]
    simp [cstr]

/-- A value without zeros, that is no shorter than those before, leaves its length. -/
theorem Filled.store {buf : ℤ → UInt8} {m : ℕ} (hfill : Filled buf m) {v : List UInt8}
    (hnot : 0 ∉ v) (hm : m ≤ v.length) : Filled (Mem.store buf 0 v) v.length := by
  constructor
  · intro i hi hzero
    have hat : Mem.store buf 0 v (0 + i) = v[i] := Mem.store_add hi
    rw [zero_add, hzero] at hat
    exact hnot (hat ▸ List.getElem_mem hi)
  · intro i hi hlt
    rw [Mem.store_of_le (by omega)]
    exact hfill.2 i (hm.trans hi) hlt

/-! ### The lines of a packet -/

/-- The line belongs to the packet: what is printed for the parameter is what the payload has
between the marks, and the line has a place in `g_log_buf`. -/
def PcapPkt.Owns (pkt : PcapPkt) (l : LogLine) : Prop :=
  between l.param.prev l.param.post pkt.payload = some l.text ∧ l.line.length < logBufSz

/-- **The lines of a packet belong to it.** -/
def OwnLines (log : Option (Receiver × List LogLine)) (pkt : PcapPkt) : Prop :=
  ∃ s lines, log = some (s, lines) ∧ ∀ l ∈ lines, pkt.Owns l

/-- The condition on a value that is printed behind `used` bytes: the second mark is there, too, and
the value has no zero, and fits. -/
def PcapPkt.ValueOk (pkt : PcapPkt) (param : Param) (used : ℕ) : Prop :=
  pkt.value param ≠ [] →
    (between param.prev param.post pkt.payload).isSome ∧ 0 ∉ pkt.value param ∧
      used + (pkt.value param).length + pkt.ownTrailer.length < logBufSz

/-- How many bytes are not zero behind a value. -/
def PcapPkt.filledBy (pkt : PcapPkt) (param : Param) (m : ℕ) : ℕ :=
  if pkt.value param = [] then m else (pkt.value param).length

/-- How long the string in `g_log_buf` is behind a value. -/
def PcapPkt.usedBy (pkt : PcapPkt) (param : Param) (used : ℕ) : ℕ :=
  if pkt.value param = [] then used else used + (pkt.value param).length + pkt.ownTrailer.length

variable {s : Receiver} {m : ℕ}

/-- The parameter of a packet. -/
def PcapPkt.logParam (pkt : PcapPkt) (param : Param) (s : Receiver) :
    Option (Receiver × List LogLine) :=
  F1Goal.logParam (ofList pkt.data) pkt.load (pkt.data.length - 1) pkt.ownTrailer param s

theorem logParam_nil (h : pkt.load ≤ pkt.data.length) {param : Param}
    (hnil : pkt.value param = []) :
    pkt.logParam param s = some (s, []) := by
  rw [PcapPkt.logParam, logParam, substr_payload h, hnil]
  simp

theorem logParam_value (h : pkt.load ≤ pkt.data.length) {param : Param}
    (hne : pkt.value param ≠ []) :
    pkt.logParam param s =
      (stringIn (Mem.store s.tbuf 0 (pkt.value param)) tbufSz).bind fun text =>
        if (s.gLogBuf ++ text ++ pkt.ownTrailer).length < logBufSz then
          some (⟨Mem.store s.tbuf 0 (pkt.value param), s.gLogBuf ++ text ++ pkt.ownTrailer⟩,
            [⟨param, text, s.gLogBuf ++ text ++ pkt.ownTrailer⟩])
        else none := by
  rw [PcapPkt.logParam, logParam, substr_payload h]
  simp [hne]

/-- A value that meets the condition, and is no shorter than the one before, has a line of its
own. -/
theorem PcapPkt.ValueOk.logs (h : pkt.load ≤ pkt.data.length) (hfill : Filled s.tbuf m)
    {param : Param} (hok : pkt.ValueOk param s.gLogBuf.length)
    (hm : pkt.value param ≠ [] → m ≤ (pkt.value param).length) :
    ∃ s' lines, pkt.logParam param s = some (s', lines) ∧ (∀ l ∈ lines, pkt.Owns l) ∧
      Filled s'.tbuf (pkt.filledBy param m) ∧
        s'.gLogBuf.length = pkt.usedBy param s.gLogBuf.length := by
  rw [PcapPkt.filledBy, PcapPkt.usedBy]
  by_cases hnil : pkt.value param = []
  · rw [if_pos hnil, if_pos hnil, logParam_nil h hnil]
    exact ⟨s, [], rfl, by simp, hfill, rfl⟩
  · obtain ⟨hclosed, hnot, hfits⟩ := hok hnil
    obtain ⟨hlen, hbetween⟩ := between_payload hnil
    have howns := hbetween.resolve_right (Option.isSome_iff_ne_none.1 hclosed)
    have hshort : (pkt.value param).length < tbufSz := by
      unfold logBufSz at hfits
      unfold tbufSz
      omega
    have htext := (stringIn_store hfill hlen).2 ⟨hnot, hm hnil, hshort⟩
    have hline : (s.gLogBuf ++ pkt.value param ++ pkt.ownTrailer).length =
        s.gLogBuf.length + (pkt.value param).length + pkt.ownTrailer.length := by
      rw [List.length_append, List.length_append]
    rw [if_neg hnil, if_neg hnil, logParam_value h hnil, htext, Option.bind_some, hline,
      if_pos hfits]
    refine ⟨_, _, rfl, ?_, hfill.store hnot (hm hnil), hline⟩
    rintro _ (_ | ⟨_, ⟨⟩⟩)
    exact ⟨howns, hline ▸ hfits⟩

/-- A parameter with a line of its own, or none, meets the condition. -/
theorem valueOk_of_logs (h : pkt.load ≤ pkt.data.length) (hfill : Filled s.tbuf m) {param : Param}
    {s' : Receiver} {lines : List LogLine} (hlog : pkt.logParam param s = some (s', lines))
    (howns : ∀ l ∈ lines, pkt.Owns l) :
    pkt.ValueOk param s.gLogBuf.length ∧
      (pkt.value param ≠ [] → m ≤ (pkt.value param).length) := by
  by_cases hnil : pkt.value param = []
  · exact ⟨fun hne => absurd hnil hne, fun hne => absurd hnil hne⟩
  obtain ⟨hlen, hbetween⟩ := between_payload hnil
  rw [logParam_value h hnil] at hlog
  obtain ⟨text, htext, hlog⟩ := Option.bind_eq_some_iff.1 hlog
  split_ifs at hlog with hfits
  cases hlog
  obtain ⟨hown, -⟩ := howns _ List.mem_cons_self
  -- the second mark is there, so that the text is the value
  have hvalue : text = pkt.value param := by
    rcases hbetween with hsome | hnone
    · exact Option.some.inj (hown.symm.trans hsome)
    · rw [hnone] at hown
      cases hown
  subst hvalue
  obtain ⟨hnot, hm, -⟩ := (stringIn_store hfill hlen).1 htext
  rw [List.length_append, List.length_append] at hfits
  exact ⟨fun _ => ⟨Option.isSome_iff_exists.2 ⟨_, hown⟩, hnot, hfits⟩, fun _ => hm⟩

/-! ### Runs -/

/-- **The condition on a packet**: each of its values meets the condition, the second one behind the
line of the first. -/
structure PcapPkt.Clean (pkt : PcapPkt) : Prop where
  oUrl : pkt.ValueOk .oUrl pkt.proto.length
  timestamp : pkt.ValueOk .timestamp (pkt.usedBy .oUrl pkt.proto.length)

/-- The length of a value, if there is any. -/
def PcapPkt.lensOf (pkt : PcapPkt) (param : Param) : List ℕ :=
  if pkt.value param = [] then [] else [(pkt.value param).length]

/-- The lengths of the values, in the order in which they are printed. -/
def PcapPkt.lens (pkt : PcapPkt) : List ℕ := pkt.lensOf .oUrl ++ pkt.lensOf .timestamp

/-- A value is no shorter than the one before, and the next is no shorter than it. -/
theorem isChain_lensOf (param : Param) (rest : List ℕ) :
    List.IsChain (· ≤ ·) (m :: (pkt.lensOf param ++ rest)) ↔
      (pkt.value param ≠ [] → m ≤ (pkt.value param).length) ∧
        List.IsChain (· ≤ ·) (pkt.filledBy param m :: rest) := by
  rw [PcapPkt.lensOf, PcapPkt.filledBy]
  by_cases hnil : pkt.value param = []
  · simp [hnil]
  · rw [if_neg hnil, if_neg hnil, List.singleton_append, List.isChain_cons_cons]
    simp [hnil]

/-- The static buffers behind a packet. -/
def receiverStep (s : Receiver) (pkt : PcapPkt) : Option Receiver := (handler s pkt).map Prod.fst

/-- How many bytes of `tbuf` are not zero behind a packet. -/
def PcapPkt.filled (pkt : PcapPkt) (m : ℕ) : ℕ := pkt.filledBy .timestamp (pkt.filledBy .oUrl m)

theorem handler_eq_some (h : pkt.Complete) {s' : Receiver} {lines : List LogLine} :
    handler s pkt = some (s', lines) ↔ ∃ s₁ url time,
      pkt.logParam .oUrl { s with gLogBuf := pkt.proto } = some (s₁, url) ∧
        pkt.logParam .timestamp s₁ = some (s', time) ∧ lines = url ++ time := by
  rw [handler_eq h, logParams]
  simp only [Option.bind_eq_bind, Option.bind_eq_some_iff, Prod.exists, Option.some.injEq,
    Prod.mk.injEq]
  constructor
  · rintro ⟨s₁, url, hurl, s₂, time, htime, rfl, rfl⟩
    exact ⟨s₁, url, time, hurl, htime, rfl⟩
  · rintro ⟨s₁, url, time, hurl, htime, rfl⟩
    exact ⟨s₁, url, hurl, s', time, htime, rfl, rfl⟩

theorem isChain_lens (rest : List ℕ) :
    List.IsChain (· ≤ ·) (m :: (pkt.lens ++ rest)) ↔
      (pkt.value .oUrl ≠ [] → m ≤ (pkt.value .oUrl).length) ∧
        (pkt.value .timestamp ≠ [] → pkt.filledBy .oUrl m ≤ (pkt.value .timestamp).length) ∧
          List.IsChain (· ≤ ·) (pkt.filled m :: rest) := by
  rw [PcapPkt.lens, List.append_assoc, isChain_lensOf, isChain_lensOf]
  rfl

/-- A packet that meets the condition, with values that are no shorter than the one before, has
lines of its own. -/
theorem PcapPkt.Clean.logs (h : pkt.Complete) (hfill : Filled s.tbuf m) (hclean : pkt.Clean)
    (hchain : List.IsChain (· ≤ ·) (m :: pkt.lens)) :
    ∃ s' lines, handler s pkt = some (s', lines) ∧ (∀ l ∈ lines, pkt.Owns l) ∧
      Filled s'.tbuf (pkt.filled m) := by
  rw [← List.append_nil pkt.lens, isChain_lens] at hchain
  obtain ⟨hm, hm', -⟩ := hchain
  obtain ⟨s₁, url, hurl, howns, hfill₁, hused⟩ :=
    hclean.oUrl.logs (s := { s with gLogBuf := pkt.proto }) h.load hfill hm
  have hok : pkt.ValueOk .timestamp s₁.gLogBuf.length := hused ▸ hclean.timestamp
  obtain ⟨s₂, time, htime, howns', hfill₂, -⟩ := hok.logs h.load hfill₁ hm'
  refine ⟨s₂, url ++ time, (handler_eq_some h).2 ⟨s₁, url, time, hurl, htime, rfl⟩, ?_, hfill₂⟩
  intro l hl
  exact (List.mem_append.1 hl).elim (howns l) (howns' l)

/-- **One packet**: its lines belong to it exactly when it meets the condition, and its values are
no shorter than the one before. -/
theorem ownLines_iff (h : pkt.Complete) (hfill : Filled s.tbuf m) :
    OwnLines (handler s pkt) pkt ↔ pkt.Clean ∧ List.IsChain (· ≤ ·) (m :: pkt.lens) := by
  constructor
  · rintro ⟨s₂, lines, hlog, howns⟩
    obtain ⟨s₁, url, time, hurl, htime, rfl⟩ := (handler_eq_some h).1 hlog
    have hown : ∀ l ∈ url, pkt.Owns l := fun l hl => howns l (List.mem_append_left _ hl)
    have hown' : ∀ l ∈ time, pkt.Owns l := fun l hl => howns l (List.mem_append_right _ hl)
    obtain ⟨hok, hm⟩ :=
      valueOk_of_logs (s := { s with gLogBuf := pkt.proto }) h.load hfill hurl hown
    obtain ⟨s₁', url', hurl', -, hfill₁, hused⟩ :=
      hok.logs (s := { s with gLogBuf := pkt.proto }) h.load hfill hm
    rw [hurl] at hurl'
    cases hurl'
    obtain ⟨hok', hm'⟩ := valueOk_of_logs h.load hfill₁ htime hown'
    rw [← List.append_nil pkt.lens, isChain_lens]
    exact ⟨⟨hok, hused ▸ hok'⟩, hm, hm', List.isChain_singleton _⟩
  · rintro ⟨hclean, hchain⟩
    obtain ⟨s', lines, hlog, howns, -⟩ := hclean.logs h hfill hchain
    exact ⟨s', lines, hlog, howns⟩

/-- **A run**: the packets meet the condition, and no value is shorter than the one before. -/
theorem ownLines_run_iff {pkts : List PcapPkt} (h : ∀ pkt ∈ pkts, pkt.Complete)
    (hfill : Filled s.tbuf m) :
    Lts.Meets receiverStep (fun s pkt => OwnLines (handler s pkt) pkt) s pkts ↔
      (∀ pkt ∈ pkts, pkt.Clean) ∧ List.IsChain (· ≤ ·) (m :: pkts.flatMap PcapPkt.lens) := by
  -- on the packets; the invariant is how many bytes of `tbuf` are not zero
  induction pkts generalizing s m with
  | nil => exact iff_of_true trivial ⟨by simp, List.isChain_singleton _⟩
  | cons pkt pkts ih =>
    have hpkt := h pkt List.mem_cons_self
    have hpkts : ∀ q ∈ pkts, q.Complete := fun q hq => h q (List.mem_cons_of_mem _ hq)
    have hlens : List.IsChain (· ≤ ·) (m :: pkt.lens) ↔
        (pkt.value .oUrl ≠ [] → m ≤ (pkt.value .oUrl).length) ∧
          (pkt.value .timestamp ≠ [] → pkt.filledBy .oUrl m ≤ (pkt.value .timestamp).length) := by
      rw [← List.append_nil pkt.lens, isChain_lens]
      simp
    rw [Lts.meets_cons, ownLines_iff hpkt hfill, List.forall_mem_cons, List.flatMap_cons,
      isChain_lens, ← and_assoc (a := _ → _), ← hlens]
    constructor
    · rintro ⟨⟨hclean, hchain⟩, hrest⟩
      obtain ⟨s', lines, hlog, -, hfill'⟩ := hclean.logs hpkt hfill hchain
      have hstep : receiverStep s pkt = some s' := by rw [receiverStep, hlog, Option.map_some]
      obtain ⟨hcleans, hchains⟩ := (ih hpkts hfill').1 (hrest s' hstep)
      exact ⟨⟨hclean, hcleans⟩, hchain, hchains⟩
    · rintro ⟨⟨hclean, hcleans⟩, hchain, hchains⟩
      refine ⟨⟨hclean, hchain⟩, fun t ht => ?_⟩
      obtain ⟨s', lines, hlog, -, hfill'⟩ := hclean.logs hpkt hfill hchain
      rw [receiverStep, hlog, Option.map_some] at ht
      cases ht
      exact (ih hpkts hfill').2 ⟨hcleans, hchains⟩

theorem filled_start : Filled Receiver.start.tbuf 0 :=
  ⟨fun i hi => absurd hi (Nat.not_lt_zero i), fun _ _ _ => rfl⟩

/-- **When every line belongs to its packet**: each packet meets the condition, and in the whole run
no value is shorter than one before it. -/
theorem own_lines_iff {pkts : List PcapPkt} (h : ∀ pkt ∈ pkts, pkt.Complete) :
    Lts.Meets receiverStep (fun s pkt => OwnLines (handler s pkt) pkt) .start pkts ↔
      (∀ pkt ∈ pkts, pkt.Clean) ∧ (pkts.flatMap PcapPkt.lens).Pairwise (· ≤ ·) := by
  rw [ownLines_run_iff h filled_start, List.isChain_iff_pairwise, List.pairwise_cons]
  simp

/-- A packet of UDP with this payload. -/
def udpPkt (payload : List UInt8) : PcapPkt where
  sec := 1
  usec := 2
  data := [0, 0, 0, 0, 0, 0, 0, 0, 0, 0, 0, 0, 8, 0] ++
    [69, 0, 0, 0, 0, 0, 0, 0, 64, 17, 0, 0, 10, 0, 0, 1, 10, 0, 0, 2] ++
      [0, 80, 31, 144, 0, 0, 0, 0] ++ payload

/-- A packet with this payload is complete. -/
theorem udpPkt_complete (payload : List UInt8) : (udpPkt payload).Complete where
  ip := by simp [udpPkt, PcapPkt.port, PcapPkt.byte, ethertypeIp]
  protocol := .inr (by simp [udpPkt, PcapPkt.byte, ipprotoUdp])
  ipHdr := by simp [udpPkt]
  transHdr := by simp [udpPkt, PcapPkt.transOff, PcapPkt.byte, ipprotoTcp]
  load := by simp [udpPkt, PcapPkt.load, PcapPkt.transOff, PcapPkt.byte, ipprotoTcp]

/-- Two packets, the second with the longer value. -/
theorem own_lines_iff_two :
    Lts.Meets receiverStep (fun s pkt => OwnLines (handler s pkt) pkt) .start
        [udpPkt (ascii "&timestamp=56;"), udpPkt (ascii "&timestamp=1234;")] ↔
      (∀ pkt ∈ [udpPkt (ascii "&timestamp=56;"), udpPkt (ascii "&timestamp=1234;")], pkt.Clean) ∧
        ([udpPkt (ascii "&timestamp=56;"), udpPkt (ascii "&timestamp=1234;")].flatMap
          PcapPkt.lens).Pairwise (· ≤ ·) :=
  own_lines_iff (by simp [udpPkt_complete])

/-- Two packets, the second with the shorter value: `5634` is printed for its value `56`. -/
theorem value_of_earlier_packet :
    (∀ pkt ∈ [udpPkt (ascii "&timestamp=1234;"), udpPkt (ascii "&timestamp=56;")], pkt.Complete) ∧
      ¬ Lts.Meets receiverStep (fun s pkt => OwnLines (handler s pkt) pkt) .start
        [udpPkt (ascii "&timestamp=1234;"), udpPkt (ascii "&timestamp=56;")] := by
  have hcomplete : ∀ pkt ∈ [udpPkt (ascii "&timestamp=1234;"), udpPkt (ascii "&timestamp=56;")],
      pkt.Complete := by
    simp [udpPkt_complete]
  refine ⟨hcomplete, fun hmeets => ?_⟩
  obtain ⟨-, hchain⟩ := (ownLines_run_iff hcomplete filled_start).1 hmeets
  exact absurd hchain (by decide +kernel)

end F1Goal
