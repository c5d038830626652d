import F1Goal.EchoText
import F1Goal.HttpBuild
import F1Goal.HttpReset
import F1Goal.PkReceiver
import F1Goal.WebHostList

/-!
# The sender of packets (`pksender_v2.c`)

`main` sends a packet for each entry of the host list: a probe, whose payload is the time, or a
request. Every packet is made in the static `g_buf`, so that behind the text of a probe its payload
has bytes of packets before it. `pkSend_packets` says what the packets are, and `probe_value` what a
receiver takes from the payload of a probe.
-/

open Block CString Decimal

namespace F1Goal

/-! ### Addresses as text -/

/-- A part of an address: a number up to 255, without zeros before it. -/
def octet (ds : List UInt8) : Option UInt8 :=
  ((List.range 256).find? fun n : ℕ => decimal n = ds).map UInt8.ofNat

/-- `inet_pton(AF_INET, ..)`: the four bytes. -/
def inetPton (s : List UInt8) : Option (List UInt8) :=
  match s.splitOn 46 with
  | [a, b, c, d] => do some [← octet a, ← octet b, ← octet c, ← octet d]
  | _ => none

/-- The number that four bytes are in memory. -/
def inAddr (addr : List UInt8) : UInt32 := .ofNat (LittleEndian.value addr)

theorem octet_text {ds : List UInt8} {b : UInt8} (h : octet ds = some b) :
    decimal b.toNat = ds := by
  obtain ⟨n, hfind, rfl⟩ := Option.map_eq_some_iff.1 h
  have hlt : n < 256 := List.mem_range.1 (List.mem_of_find?_eq_some hfind)
  rw [UInt8.toNat_ofNat', Nat.mod_eq_of_lt hlt]
  simpa using List.find?_some hfind

/-- **An address that is read** has four bytes, and is printed as it was. -/
theorem inetNtop_inetPton {s addr : List UInt8} (h : inetPton s = some addr) :
    inetNtop addr = s ∧ addr.length = 4 := by
  have hjoin : [46].intercalate (s.splitOn 46) = s := List.intercalate_splitOn 46
  unfold inetPton at h
  split at h
  · rename_i a b c d hsplit
    simp only [Option.bind_eq_bind, Option.bind_eq_some_iff, Option.some.injEq] at h
    obtain ⟨a', ha, b', hb, c', hc, d', hd, rfl⟩ := h
    refine ⟨?_, rfl⟩
    rw [← hjoin, hsplit, ← octet_text ha, ← octet_text hb, ← octet_text hc, ← octet_text hd]
    rfl
  · cases h

/-- The bytes of an address in memory. -/
theorem bytes_inAddr {addr : List UInt8} (h : addr.length = 4) :
    LittleEndian.bytes 4 (inAddr addr).toNat = addr := by
  have hlt := LittleEndian.value_lt addr
  rw [h, show 256 ^ 4 = 2 ^ 32 by norm_num] at hlt
  rw [inAddr, UInt32.toNat_ofNat', Nat.mod_eq_of_lt hlt, ← h, LittleEndian.bytes_value]

/-! ### The headers -/

/-- The 12 bytes of `stPsuedoHdr_t`. -/
def stPsuedoHdr (srcIp dstIp : UInt32) (proto : UInt8) (length : UInt16) : List UInt8 :=
  LittleEndian.bytes 4 srcIp.toNat ++ LittleEndian.bytes 4 dstIp.toNat ++ [0, proto] ++
    LittleEndian.bytes 2 (htons length).toNat

/-- `tcp_chk_sum` -/
def pkTcpChkSum (proto : UInt8) (packet : List UInt8) (length : UInt16) (srcIp dstIp : UInt32) :
    UInt16 :=
  let sum : ℤ := (chkSum (some (stPsuedoHdr srcIp dstIp proto length)) 12).toNat
  let sum := i32 (sum + (chkSum (some packet) length).toNat)
  foldAnswer sum

/-- `create_ip_hdr` -/
def createIpHdr (pid : ℕ) (srcIp dstIp : UInt32) (len : ℕ) : IpHdr :=
  let ipHdr := { IpHdr.zero with
    ihl := 5
    version := 4
    totLen := htons (.ofNat len)
    id := htons (.ofNat pid)
    fragOff := 0
    ttl := 255
    protocol := ipprotoTcp
    saddr := srcIp
    daddr := dstIp }
  { ipHdr with check := chkSum (some ipHdr.bytes) 20 }

/-- `create_tcp_hdr` -/
def createTcpHdr (srcPort dstPort : UInt16) : TcpHdr :=
  { TcpHdr.zero with
    source := srcPort
    dest := dstPort
    seq := 0
    ackSeq := 0
    res1 := 0
    doff := 5
    window := htons 1024
    fin := true
    ack := true
    psh := true }

/-! ### The loop -/

/-- An entry of the list: its texts are the strings that begin at the members. There is none when
nothing ends it. -/
structure WebhostInfo where
  type : ℤ
  srcPort : UInt16
  dstPort : UInt16
  text : HostField → Option (List UInt8)

/-- What happens in a turn of the loop: the times that `gettimeofday` gives, and whether `sendto`
fails. -/
structure PkTurn where
  stamp : Now
  before : Now
  after : Now
  fails : Bool

/-- `BUF_SZ` -/
def gBufSz : ℕ := 2048

/-- `LOAD_OFF` -/
def loadOff : ℕ := 40

/-- `LOAD_SZ` -/
def loadSz : ℕ := 32

/-- What `main` keeps from turn to turn: `g_buf`, `load_size`, which is not set at first, and
`p_ho`. -/
structure PkSender where
  gBuf : ℤ → UInt8
  loadSize : Option ℕ
  pHo : HttpObject

/-- `g_buf` is zero, and `p_ho` is `http_object_create(NULL, 0)`. -/
def PkSender.start : PkSender := ⟨fun _ => 0, none, freshObject (fun _ => 0) hoDftBufSz⟩

/-- `"&timestamp=%ld.%ld;"` -/
def stampText (stamp : Now) : List UInt8 := ascii "&timestamp=" ++ stamp.text ++ ascii ";"

/-- Write to the payload in `g_buf`, which has no result outside of it. -/
def PkSender.putLoad (s : PkSender) (bs : List UInt8) : Option PkSender :=
  if loadOff + bs.length ≤ gBufSz then some { s with gBuf := Mem.store s.gBuf loadOff bs }
  else none

/-- `http_object_add_header` of a text, with its `strlen`. -/
def addText (obj : HttpObject) (hdr : HttpHdr) (text : List UInt8) : Option HttpObject :=
  if h : text.length < 2 ^ 16 then some (httpObjectAddHeader obj hdr.id ⟨text, h⟩).2 else none

/-- `req_line`, an array of 128 bytes. -/
def reqLine (path : List UInt8) : Option (List UInt8) :=
  let line := ascii "GET " ++ path ++ ascii " HTTP/1.1"
  if line.length < 128 then some line else none

/-- The request for an entry of type 1. What `http_object_add_header` returns is not looked at. -/
def request (obj : HttpObject) (row : WebhostInfo) : Option HttpObject := do
  let obj ← addText obj .reqLine (← reqLine (← row.text .path))
  let obj ← addText obj .host (← row.text .host)
  let obj ← addText obj .cookie (← row.text .cookie)
  let obj ← addText obj .ua (← row.text .ua)
  addText obj .hdrEnd []

/-- The payload of a packet. That of an entry of another type is empty, and `load_size` is what it
was. -/
def PkSender.fillLoad (s : PkSender) (row : WebhostInfo) (stamp : Now) : Option PkSender :=
  if row.type = 0 then do
    let s ← s.putLoad (stampText stamp ++ [0])
    some { s with loadSize := some loadSz }
  else if row.type = 1 then do
    let obj ← request s.pHo row
    let s ← s.putLoad obj.written
    some { s with loadSize := some obj.dataLen, pHo := obj }
  else some s

/-- `"%u"` of a port. -/
def portText (port : UInt16) : List UInt8 := print port.toNat

/-- The line in `log`, an array of 2048 bytes; no line for an entry of another type. -/
def logText (row : WebhostInfo) (turn : PkTurn) : Option (List UInt8) := do
  let srcIp ← row.text .srcIp
  let dstIp ← row.text .dstIp
  let ends := srcIp ++ ascii "|" ++ portText row.srcPort ++ ascii "|" ++ dstIp ++ ascii "|" ++
    portText row.dstPort ++ ascii "|" ++ turn.before.text ++ ascii "|" ++ turn.after.text ++ ascii "|"
  let line ←
    if row.type = 0 then some ends
    else if row.type = 1 then do some ((← row.text .host) ++ (← row.text .path) ++ ascii "|" ++ ends)
    else some []
  if line.length < 2048 then some line else none

/-- A packet that has been sent, and the line that is printed for it. -/
structure PkSent where
  row : WebhostInfo
  turn : PkTurn
  packet : List UInt8
  log : List UInt8

/-- A turn of the loop. The inner `none` is an address that is not proper or a `sendto` that fails,
for which `main` ends; there is no result when an array is too short, or `load_size` has not been
set. -/
def PkSender.sendRow (pid : ℕ) (s : PkSender) (row : WebhostInfo) (turn : PkTurn) :
    Option (Option (PkSender × PkSent)) := do
  let s := { s with pHo := (httpObjectReset s.pHo).2 }
  match inetPton (← row.text .srcIp), inetPton (← row.text .dstIp) with
  | some src, some dst =>
    let tcpHdr := createTcpHdr (htons row.srcPort) (htons row.dstPort)
    let s ← { s with gBuf := Mem.store s.gBuf 20 tcpHdr.bytes }.fillLoad row turn.stamp
    let loadSize ← s.loadSize
    let dataLen := 40 + if row.type = 0 ∨ row.type = 1 then loadSize else 0
    let check := pkTcpChkSum 6 (Mem.slice s.gBuf 20 (20 + loadSize)) (.ofNat (20 + loadSize))
      (inAddr src) (inAddr dst)
    let gBuf := Mem.store s.gBuf 20 { tcpHdr with check := check }.bytes
    let gBuf := Mem.store gBuf 0 (createIpHdr pid (inAddr src) (inAddr dst) dataLen).bytes
    if turn.fails then some none
    else do
      let log ← logText row turn
      some (some ({ s with gBuf := gBuf }, ⟨row, turn, Mem.slice gBuf 0 dataLen, log⟩))
  | _, _ => some none

/-- The loop of `main`: the packets that are sent. -/
def pkSend (pid : ℕ) : PkSender → List (WebhostInfo × PkTurn) → Option (List PkSent)
  | _, [] => some []
  | s, (row, turn) :: rows => do
    match ← s.sendRow pid row turn with
    | none => some []
    | some (s, sent) => (pkSend pid s rows).map (sent :: ·)

/-- An entry of the list. The array has a place for each line that is announced. -/
def WebhostList.row (list : WebhostList) (i : ℕ) : WebhostInfo where
  type := hostI32 list.webhosts (hostSize * i)
  srcPort := .ofInt (HostField.srcPort.read list.webhosts (hostSize * i))
  dstPort := .ofInt (HostField.dstPort.read list.webhosts (hostSize * i))
  text f := stringIn (fun j => list.webhosts (hostSize * i + f.off + j))
    (hostSize * (list.webhostNum - i) - f.off).toNat

/-- `main`, behind `_read_webhost_from_file`. -/
def pksender (pid : ℕ) (list : WebhostList) (turns : ℕ → PkTurn) : Option (List PkSent) :=
  if list.ret ≤ 0 then some []
  else pkSend pid .start ((List.range list.webhostNum.toNat).map fun i => (list.row i, turns i))

/-! ### The packets -/

variable {pid : ℕ} {s s' : PkSender} {row : WebhostInfo} {turn : PkTurn} {sent : PkSent}

theorem slice_packet (m : ℤ → UInt8) {ip tcp : List UInt8} (hip : ip.length = 20)
    (htcp : tcp.length = 20) (n : ℕ) :
    Mem.slice (Mem.store (Mem.store m 20 tcp) 0 ip) 0 (40 + n) = ip ++ tcp ++ Mem.slice m 40 n := by
  have hfirst := Mem.slice_store_self (Mem.store m 20 tcp) 0 ip
  have hsecond := Mem.slice_store_self m 20 tcp
  rw [hip] at hfirst
  rw [htcp] at hsecond
  rw [slice_parts, hfirst, Mem.slice_store_of_disjoint (.inr (by omega)), hsecond,
    Mem.slice_store_of_disjoint (.inr (by omega)), Mem.slice_store_of_disjoint (.inr (by omega))]

/-- **A packet that is sent**: the headers with the addresses and the ports of the entry, and the
payload. -/
structure PkSent.Made (sent : PkSent) (pid : ℕ) (src dst : List UInt8) (check : UInt16)
    (load : List UInt8) : Prop where
  srcIp : (sent.row.text .srcIp).bind inetPton = some src
  dstIp : (sent.row.text .dstIp).bind inetPton = some dst
  packet : sent.packet = (createIpHdr pid (inAddr src) (inAddr dst) (40 + load.length)).bytes ++
    { createTcpHdr (htons sent.row.srcPort) (htons sent.row.dstPort) with check := check }.bytes ++
      load
  probe : sent.row.type = 0 → (stampText sent.turn.stamp).length < loadSz →
    load.length = loadSz ∧ ∃ stale, load = stampText sent.turn.stamp ++ 0 :: stale

/-- The payload of a probe: its text, and what has been in the buffer. -/
theorem fillLoad_probe (htype : row.type = 0) {stamp : Now}
    (hfill : s.fillLoad row stamp = some s') :
    s'.loadSize = some loadSz ∧ ((stampText stamp).length < loadSz →
      ∃ stale, Mem.slice s'.gBuf 40 loadSz = stampText stamp ++ 0 :: stale) := by
  rw [PkSender.fillLoad, if_pos htype] at hfill
  obtain ⟨s₁, hput, hfill⟩ := Option.bind_eq_some_iff.1 hfill
  cases hfill
  rw [PkSender.putLoad] at hput
  split_ifs at hput
  cases hput
  refine ⟨rfl, fun hlen => ?_⟩
  obtain ⟨k, hk⟩ := Nat.exists_eq_add_of_lt hlen
  have hself := Mem.slice_store_self s.gBuf 40 (stampText stamp ++ [0])
  rw [List.length_append, List.length_singleton] at hself
  rw [hk, Nat.add_right_comm, Mem.slice_add]
  dsimp only
  rw [show ((loadOff : ℕ) : ℤ) = 40 from rfl, hself, List.append_assoc, List.singleton_append]
  exact ⟨_, rfl⟩

/-- **A turn of the loop** sends a packet that is made from its entry. -/
theorem sendRow_made (hsend : s.sendRow pid row turn = some (some (s', sent))) :
    sent.row = row ∧ sent.turn = turn ∧ ∃ src dst check load, sent.Made pid src dst check load := by
  unfold PkSender.sendRow at hsend
  simp only [Option.bind_eq_bind, Option.bind_eq_some_iff] at hsend
  obtain ⟨srcText, hsrcText, dstText, hdstText, hsend⟩ := hsend
  cases hsrc : inetPton srcText with
  | none => simp [hsrc] at hsend
  | some src =>
    cases hdst : inetPton dstText with
    | none => simp [hsrc, hdst] at hsend
    | some dst =>
      simp only [hsrc, hdst, Option.bind_eq_some_iff] at hsend
      obtain ⟨s₁, hfill, loadSize, hload, hsend⟩ := hsend
      have hgoes : ¬ turn.fails := fun hfails => by simp [hfails] at hsend
      rw [if_neg hgoes] at hsend
      obtain ⟨log, hlog, hsend⟩ := Option.bind_eq_some_iff.1 hsend
      cases hsend
      refine ⟨rfl, rfl, src, dst, pkTcpChkSum 6 (Mem.slice s₁.gBuf 20 (20 + loadSize))
        (.ofNat (20 + loadSize)) (inAddr src) (inAddr dst), Mem.slice s₁.gBuf 40
          (if row.type = 0 ∨ row.type = 1 then loadSize else 0), ?_, ?_, ?_, fun htype hlen => ?_⟩
      · rw [hsrcText, Option.bind_some, hsrc]
      · rw [hdstText, Option.bind_some, hdst]
      · dsimp only
        rw [slice_packet _ (IpHdr.length_bytes _) (TcpHdr.length_bytes _), Mem.length_slice]
      · obtain ⟨hsize, hstale⟩ := fillLoad_probe htype hfill
        obtain rfl : loadSz = loadSize := Option.some.inj (hsize.symm.trans hload)
        rw [if_pos (.inl htype)]
        exact ⟨Mem.length_slice _ _ _, hstale hlen⟩

/-- **What is sent** in a run: packets that are made from the entries. -/
theorem pkSend_made {rows : List (WebhostInfo × PkTurn)} {sents : List PkSent}
    (hsends : pkSend pid s rows = some sents) : ∀ sent ∈ sents, (sent.row, sent.turn) ∈ rows ∧
      ∃ src dst check load, sent.Made pid src dst check load := by
  induction rows generalizing s sents with
  | nil =>
    cases hsends
    simp
  | cons r rows ih =>
    obtain ⟨row, turn⟩ := r
    obtain ⟨r, hrow, hsends⟩ := Option.bind_eq_some_iff.1 hsends
    cases r with
    | none =>
      cases hsends
      simp
    | some r =>
      obtain ⟨s₁, sent₁⟩ := r
      obtain ⟨sents₁, hrest, rfl⟩ := Option.map_eq_some_iff.1 hsends
      obtain ⟨hr, ht, hmade⟩ := sendRow_made hrow
      rw [List.forall_mem_cons]
      refine ⟨⟨by rw [hr, ht]; exact List.mem_cons_self, hmade⟩, fun sent hsent => ?_⟩
      obtain ⟨hmem, hsentMade⟩ := ih hrest sent hsent
      exact ⟨List.mem_cons_of_mem _ hmem, hsentMade⟩

/-! ### The text of a probe -/

/-- A time between the years 2001 and 33658: its seconds have 10 to 12 digits. -/
def Now.Usual (now : Now) : Prop := 10 ^ 9 ≤ now.1.sec ∧ now.1.sec < 10 ^ 12

instance (now : Now) : Decidable now.Usual := inferInstanceAs (Decidable (_ ∧ _))

/-- How long the text of a probe is: with its zero it fits the payload, and few bytes are left. -/
theorem length_stampText {stamp : Now} (h : stamp.Usual) :
    24 ≤ (stampText stamp).length ∧ (stampText stamp).length < loadSz := by
  obtain ⟨hlow, hhigh⟩ := h
  have hsec0 : (0 : ℤ) ≤ stamp.1.sec := le_trans (by norm_num) hlow
  have hsec := (length_print_le_iff hsec0 (k := 12) (by decide)).2 hhigh
  have hsec' := mt (length_print_le_iff hsec0 (k := 9) (by decide)).1 (not_lt.2 hlow)
  have husec := (length_print_le_iff stamp.2.usec_nonneg (k := 6) (by decide)).2
    (lt_of_lt_of_le stamp.2.usec_lt (by norm_num))
  have hpos := List.length_pos_iff.2 (print_ne_nil stamp.1.usec)
  have h1 : (ascii "&timestamp=").length = 11 := rfl
  have h2 : (ascii ".").length = 1 := rfl
  have h3 : (ascii ";").length = 1 := rfl
  simp only [stampText, Now.text, List.length_append, loadSz]
  omega

/-- A port has five digits at most. -/
theorem length_port (port : UInt16) : (decimal port.toNat).length ≤ 5 :=
  (length_print_le_iff (Int.natCast_nonneg _) (by decide)).2
    (by exact_mod_cast port.toNat_lt.trans (by decide))

/-- **What a receiver takes from a probe**: no address, as too few bytes are left behind the text,
and the time. -/
theorem probe_values {stamp : Now} (h : stamp.Usual) {stale : List UInt8}
    (hlen : (stampText stamp ++ 0 :: stale).length = loadSz) :
    behind (ascii "&o_url=") (ascii "&") (stampText stamp ++ 0 :: stale).dropLast = none ∧
      behind (ascii "&timestamp=") (ascii ";") (stampText stamp ++ 0 :: stale).dropLast =
        some stamp.text := by
  have htext : (stampText stamp ++ 0 :: stale).dropLast =
      38 :: (ascii "timestamp=" ++ (stamp.text ++ 59 :: (0 :: stale).dropLast)) := by
    rw [List.dropLast_append_of_ne_nil (List.cons_ne_nil _ _), stampText]
    simp [ascii]
  rw [htext]
  constructor
  · have hskip := restBehind_field (ascii "o_url=") (ascii "timestamp=")
      (0 :: stale).dropLast (by decide) (and_notMem_text stamp) (by simp [ascii])
    have hnone : restBehind (ascii "&o_url=") (0 :: stale).dropLast = none := by
      cases stale with
      | nil => rfl
      | cons c stale =>
        have hlow := (length_stampText h).1
        have hshort : (c :: stale).dropLast.length < (ascii "&o_url=").length := by
          have hmark : (ascii "&o_url=").length = 7 := rfl
          simp only [List.length_append, List.length_cons, loadSz] at hlen
          simp only [List.length_dropLast, List.length_cons]
          omega
        rw [List.dropLast_cons_cons, restBehind_cons (by simp [ascii]), restBehind,
          firstAt_of_lt hshort, Option.map_none]
    have hmark := hskip.trans hnone
    change restBehind (ascii "&o_url=") _ = none at hmark
    rw [behind, hmark, Option.map_none]
  · exact behind_eq (restBehind_self (ascii "&timestamp=") _)
      (notMem_text (by decide) (by decide) (by decide))

end F1Goal
