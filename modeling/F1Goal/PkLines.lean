import F1Goal.PkSender

/-!
# Probes from the sender to the receiver (`pksender_v2.c`, `pkreceiver_v2.c`)

The packets of a run of the sender come to the receiver in any order; some may be lost, and some may
come more than once. `probe_lines_iff` says when every probe has the line that it should have: its
time, the time at which it came, and the addresses and ports of its entry in the list.
-/

open Block CString Decimal

namespace F1Goal

/-- A packet of the sender, as it comes to the receiver: behind the addresses of Ethernet, and at a
time. -/
structure Capture where
  sent : PkSent
  eth : List UInt8
  length_eth : eth.length = 12
  time : Now

namespace Capture

/-- The frame. -/
def pkt (c : Capture) : PcapPkt where
  sec := c.time.1.sec
  usec := c.time.1.usec
  data := c.eth ++ 8 :: 0 :: c.sent.packet

/-- The packet is a probe. -/
def Probe (c : Capture) : Prop := c.sent.row.type = 0

instance (c : Capture) : Decidable c.Probe := inferInstanceAs (Decidable (_ = _))

/-- The time in a probe. -/
def stamp (c : Capture) : Now := c.sent.turn.stamp

/-- The line for a probe. -/
def line (c : Capture) : List UInt8 :=
  ascii "tcp|" ++ c.stamp.text ++
    c.pkt.trailer ((c.sent.row.text .srcIp).getD []) c.sent.row.srcPort.toNat
      ((c.sent.row.text .dstIp).getD []) c.sent.row.dstPort.toNat

/-- The lines for a packet: that of a probe, and none for another packet. -/
def lines (c : Capture) : List LogLine :=
  if c.Probe then [⟨.timestamp, c.stamp.text, c.line⟩] else []

end Capture

/-- A packet without a parameter. -/
def PcapPkt.Quiet (pkt : PcapPkt) : Prop := ∀ param, pkt.value param = []

/-! ### The frame -/

variable {c : Capture} {pid : ℕ} {src dst : List UInt8} {check : UInt16} {load : List UInt8}

theorem drop_eth (c : Capture) (k : ℕ) :
    c.pkt.data.drop (12 + k) = (8 :: 0 :: c.sent.packet).drop k := by
  rw [Capture.pkt, List.drop_append, List.drop_of_length_le (by rw [c.length_eth]; omega),
    List.nil_append, c.length_eth, Nat.add_sub_cancel_left]

theorem byte_eth (c : Capture) (k : ℕ) :
    c.pkt.byte (12 + k) = (8 :: 0 :: c.sent.packet).getD k 0 := by
  rw [PcapPkt.byte, List.getD_eq_getElem?_getD, List.getD_eq_getElem?_getD, ← Nat.add_zero k,
    ← Nat.add_assoc, ← List.getElem?_drop, drop_eth, List.getElem?_drop]

theorem value_singleton (b : UInt8) : LittleEndian.value [b] = b.toNat := rfl

/-- Two bytes that `htons` has turned. -/
theorem port_htons (port : UInt16) :
    (UInt8.ofNat (htons port).toNat).toNat * 256 + (UInt8.ofNat ((htons port).toNat / 256)).toNat =
      port.toNat := by
  rw [← value_htons port, value_singleton, value_singleton, Nat.mul_comm]

/-- **The frame of a packet** is complete, with the payload and the addresses and ports that have
been sent. -/
structure Capture.Framed (c : Capture) (load : List UInt8) : Prop where
  complete : c.pkt.Complete
  payload : c.pkt.payload = load
  proto : c.pkt.proto = ascii "tcp|"
  trailer : c.pkt.ownTrailer =
    c.pkt.trailer ((c.sent.row.text .srcIp).getD []) c.sent.row.srcPort.toNat
      ((c.sent.row.text .dstIp).getD []) c.sent.row.dstPort.toNat

theorem framed (h : c.sent.Made pid src dst check load) : c.Framed load := by
  have hbyte : ∀ k, c.pkt.byte (12 + k) = (8 :: 0 :: c.sent.packet).getD k 0 := byte_eth c
  have hdrop : ∀ k, c.pkt.data.drop (12 + k) = (8 :: 0 :: c.sent.packet).drop k := drop_eth c
  have hlen : c.pkt.data.length = 54 + load.length := by
    rw [Capture.pkt, List.length_append, c.length_eth, h.packet]
    simp
    omega
  rw [h.packet] at hbyte hdrop
  have hproto : c.pkt.byte 23 = ipprotoTcp := hbyte 11
  have hihl : c.pkt.byte 14 = (5 : UInt8) ||| (4 : UInt8) <<< (4 : UInt8) := hbyte 2
  have htrans : c.pkt.transOff = 34 := by rw [PcapPkt.transOff, hihl]; decide
  have hdoff : c.pkt.byte 46 = (0 : UInt8) ||| (5 : UInt8) <<< (4 : UInt8) := hbyte 34
  have hload : c.pkt.load = 54 := by
    rw [PcapPkt.load, if_pos hproto, htrans, hdoff]
    decide
  obtain ⟨srcText, hsrcText, hsrc⟩ := Option.bind_eq_some_iff.1 h.srcIp
  obtain ⟨dstText, hdstText, hdst⟩ := Option.bind_eq_some_iff.1 h.dstIp
  obtain ⟨hsrcPrint, hsrcLen⟩ := inetNtop_inetPton hsrc
  obtain ⟨hdstPrint, hdstLen⟩ := inetNtop_inetPton hdst
  refine ⟨⟨?_, .inl hproto, by omega, ?_, by omega⟩, ?_, ?_, ?_⟩
  · have hhigh : c.pkt.byte 12 = 8 := hbyte 0
    have hlow : c.pkt.byte 13 = 0 := hbyte 1
    rw [PcapPkt.port, hhigh, hlow]
    rfl
  · rw [if_pos hproto]
    omega
  · rw [PcapPkt.payload, hload]
    exact hdrop 42
  · rw [PcapPkt.proto, if_pos hproto]
  · have hsrcIp : c.pkt.ip 26 = srcText := by
      rw [← hsrcPrint, ← bytes_inAddr hsrcLen, PcapPkt.ip, show c.pkt.data.drop 26 = _ from hdrop 14]
      rfl
    have hdstIp : c.pkt.ip 30 = dstText := by
      rw [← hdstPrint, ← bytes_inAddr hdstLen, PcapPkt.ip, show c.pkt.data.drop 30 = _ from hdrop 18]
      rfl
    have hsrcPort : c.pkt.port 34 = c.sent.row.srcPort.toNat := by
      have hlow : c.pkt.byte 34 = .ofNat (htons c.sent.row.srcPort).toNat := hbyte 22
      have hhigh : c.pkt.byte 35 = .ofNat ((htons c.sent.row.srcPort).toNat / 256) := hbyte 23
      rw [PcapPkt.port, hlow, hhigh, port_htons]
    have hdstPort : c.pkt.port 36 = c.sent.row.dstPort.toNat := by
      have hlow : c.pkt.byte 36 = .ofNat (htons c.sent.row.dstPort).toNat := hbyte 24
      have hhigh : c.pkt.byte 37 = .ofNat ((htons c.sent.row.dstPort).toNat / 256) := hbyte 25
      rw [PcapPkt.port, hlow, hhigh, port_htons]
    rw [PcapPkt.ownTrailer, htrans, hsrcIp, hdstIp, hsrcPort, hdstPort, hsrcText, hdstText,
      Option.getD_some, Option.getD_some]

/-! ### How long the lines are -/

theorem length_addrText {s addr : List UInt8} (h : inetPton s = some addr) : s.length ≤ 15 := by
  obtain ⟨hprint, hlen⟩ := inetNtop_inetPton h
  have hoctet : ∀ b : UInt8, (decimal b.toNat).length ≤ 3 := fun b =>
    (length_print_le_iff (Int.natCast_nonneg _) (by decide)).2 (by exact_mod_cast b.toNat_lt.trans (by decide))
  match addr, hlen with
  | [a, b, c, d], _ =>
    have ha := hoctet a
    have hb := hoctet b
    have hc := hoctet c
    have hd := hoctet d
    have htext : s = decimal a.toNat ++ ([46] ++ (decimal b.toNat ++ ([46] ++
        (decimal c.toNat ++ ([46] ++ decimal d.toNat))))) := by
      rw [← hprint]
      simp [inetNtop, List.intercalate, ascii]
    rw [htext]
    simp only [List.length_append, List.length_singleton]
    omega

/-- The line has a place in `g_log_buf`. -/
theorem length_line (h : c.sent.Made pid src dst check load) : c.line.length < logBufSz := by
  obtain ⟨srcText, hsrcText, hsrc⟩ := Option.bind_eq_some_iff.1 h.srcIp
  obtain ⟨dstText, hdstText, hdst⟩ := Option.bind_eq_some_iff.1 h.dstIp
  have h1 := length_text c.stamp
  have h2 := length_text c.time
  have h3 := length_addrText hsrc
  have h4 := length_addrText hdst
  have h5 := length_port c.sent.row.srcPort
  have h6 := length_port c.sent.row.dstPort
  have htcp : (ascii "tcp|").length = 4 := rfl
  have hbar : (ascii "|").length = 1 := rfl
  have hdot : (ascii ".").length = 1 := rfl
  have htime : (decimal c.pkt.sec).length + (decimal c.pkt.usec).length + 1 =
      c.time.text.length := by
    have hsec : decimal c.pkt.sec = print c.time.1.sec := rfl
    have husec : decimal c.pkt.usec = print c.time.1.usec := rfl
    rw [hsec, husec, Now.text, List.length_append, List.length_append, hdot]
    omega
  simp only [Capture.line, PcapPkt.trailer, List.length_append, hsrcText, hdstText,
    Option.getD_some, logBufSz]
  omega

/-! ### What the receiver prints -/

variable {s : Receiver} {m : ℕ}

/-- A packet without a parameter has no line. -/
theorem handler_quiet {pkt : PcapPkt} (h : pkt.Complete) (hquiet : pkt.Quiet) (s : Receiver) :
    handler s pkt = some ({ s with gLogBuf := pkt.proto }, []) := by
  have hurl := logParam_nil (s := { s with gLogBuf := pkt.proto }) h.load (hquiet .oUrl)
  have htime := logParam_nil (s := { s with gLogBuf := pkt.proto }) h.load (hquiet .timestamp)
  exact (handler_eq_some h).2 ⟨_, [], [], hurl, htime, rfl⟩

/-- A packet with a time, and no address, has a line with what is in `tbuf` then. -/
theorem handler_time {pkt : PcapPkt} (h : pkt.Complete) (hurl : pkt.value .oUrl = [])
    (hne : pkt.value .timestamp ≠ []) (s : Receiver) :
    handler s pkt = (stringIn (Mem.store s.tbuf 0 (pkt.value .timestamp)) tbufSz).bind fun text =>
      if (pkt.proto ++ text ++ pkt.ownTrailer).length < logBufSz then
        some (⟨Mem.store s.tbuf 0 (pkt.value .timestamp), pkt.proto ++ text ++ pkt.ownTrailer⟩,
          [⟨.timestamp, text, pkt.proto ++ text ++ pkt.ownTrailer⟩])
      else none := by
  have hnone := logParam_nil (s := { s with gLogBuf := pkt.proto }) h.load hurl
  have htime := logParam_value (s := { s with gLogBuf := pkt.proto }) h.load hne
  rw [handler_eq h, logParams]
  change (pkt.logParam .oUrl _).bind (fun r => (pkt.logParam .timestamp r.1).bind _) = _
  rw [hnone, Option.bind_some, htime, Option.bind_assoc]
  congr 1
  funext text
  split_ifs <;> rfl

/-- **One probe** has the line that it should have exactly when its time is no shorter than the
bytes in `tbuf`. -/
theorem handler_probe (hmade : c.sent.Made pid src dst check load) (hprobe : c.Probe)
    (husual : c.stamp.Usual) (hfill : Filled s.tbuf m) :
    ((∃ s', handler s c.pkt = some (s', c.lines)) ↔ m ≤ c.stamp.text.length) ∧
      (m ≤ c.stamp.text.length → ∃ s', handler s c.pkt = some (s', c.lines) ∧
        Filled s'.tbuf c.stamp.text.length) := by
  have hframed := framed hmade
  obtain ⟨hlen, stale, rfl⟩ := hmade.probe hprobe (length_stampText husual).2
  obtain ⟨hurl, htime⟩ := probe_values husual hlen
  have hshort : c.stamp.text.length < tbufSz :=
    lt_of_le_of_lt (length_text c.stamp) (by decide)
  have hzero : 0 ∉ c.stamp.text := notMem_text (by decide) (by decide) (by decide)
  have hurl' : c.pkt.value .oUrl = [] := by
    have hnone : behind Param.oUrl.prev Param.oUrl.post c.pkt.payload.dropLast = none := by
      rw [hframed.payload]
      exact hurl
    rw [PcapPkt.value, hnone]
    rfl
  have htime' : c.pkt.value .timestamp = c.stamp.text := by
    have hsome : behind Param.timestamp.prev Param.timestamp.post c.pkt.payload.dropLast =
        some c.stamp.text := by
      rw [hframed.payload]
      exact htime
    rw [PcapPkt.value, hsome, Option.filter_some_pos (by simpa using hshort.le), Option.getD_some]
  have hlines : c.lines = [⟨.timestamp, c.stamp.text, c.line⟩] := if_pos hprobe
  have hhandler := handler_time hframed.complete hurl' (by rw [htime']; exact text_ne_nil _) s
  rw [htime', hframed.proto, hframed.trailer] at hhandler
  have hlogs : m ≤ c.stamp.text.length → ∃ s', handler s c.pkt = some (s', c.lines) ∧
      Filled s'.tbuf c.stamp.text.length := by
    intro hm
    have htext := (stringIn_store hfill hshort.le).2 ⟨hzero, hm, hshort⟩
    rw [htext, Option.bind_some] at hhandler
    rw [hhandler, hlines]
    refine ⟨_, if_pos (length_line hmade), ?_⟩
    exact hfill.store hzero hm
  refine ⟨⟨?_, fun hm => ?_⟩, hlogs⟩
  · rintro ⟨s', hsome⟩
    rw [hhandler] at hsome
    obtain ⟨text, htext, hline⟩ := Option.bind_eq_some_iff.1 hsome
    split_ifs at hline
    rw [hlines] at hline
    -- the text in the line is the time
    obtain ⟨-, hlist⟩ := Prod.mk.inj (Option.some.inj hline)
    have hsame : text = c.stamp.text := (LogLine.mk.inj (List.cons.inj hlist).1).2.1
    rw [hsame] at htext
    exact ((stringIn_store hfill hshort.le).1 htext).2.1
  · obtain ⟨s', hsome, -⟩ := hlogs hm
    exact ⟨s', hsome⟩

/-! ### Runs -/

/-- The static buffers behind a packet. -/
def captureStep (s : Receiver) (c : Capture) : Option Receiver := receiverStep s c.pkt

/-- **The lines of a packet**: those that it should have are printed. -/
def PrintsLines (s : Receiver) (c : Capture) : Prop := ∃ s', handler s c.pkt = some (s', c.lines)

/-- The lengths of the times in probes, in the order in which the probes come. -/
def stampLens (caps : List Capture) : List ℕ :=
  (caps.filter fun c => c.Probe).map fun c => c.stamp.text.length

/-- A packet as the receiver should see it: a probe with a usual time, or without a parameter. -/
structure Capture.Expected (c : Capture) (pid : ℕ) : Prop where
  made : ∃ src dst check load, c.sent.Made pid src dst check load
  usual : c.Probe → c.stamp.Usual
  quiet : ¬ c.Probe → c.pkt.Quiet

theorem lines_run_iff {caps : List Capture} (h : ∀ c ∈ caps, c.Expected pid)
    (hfill : Filled s.tbuf m) :
    Lts.Meets captureStep PrintsLines s caps ↔ List.IsChain (· ≤ ·) (m :: stampLens caps) := by
  -- on the packets; the invariant is how many bytes of `tbuf` are not zero
  induction caps generalizing s m with
  | nil => exact iff_of_true trivial (List.isChain_singleton _)
  | cons c caps ih =>
    have hrest : ∀ c ∈ caps, c.Expected pid := fun c hc => h c (List.mem_cons_of_mem _ hc)
    obtain ⟨⟨src, dst, check, load, hmade⟩, husual, hquiet⟩ := h c List.mem_cons_self
    rw [Lts.meets_cons]
    by_cases hprobe : c.Probe
    · obtain ⟨hiff, hlogs⟩ := handler_probe hmade hprobe (husual hprobe) hfill
      have hlens : stampLens (c :: caps) = c.stamp.text.length :: stampLens caps := by
        rw [stampLens, List.filter_cons_of_pos (by simpa using hprobe), List.map_cons, stampLens]
      rw [hlens, List.isChain_cons_cons, show PrintsLines s c ↔ _ from hiff]
      refine and_congr_right fun hm => ?_
      obtain ⟨s', hsome, hfill'⟩ := hlogs hm
      have hstep : captureStep s c = some s' := by
        rw [captureStep, receiverStep, hsome, Option.map_some]
      rw [← ih hrest hfill']
      simp [hstep]
    · have hhandler := handler_quiet (framed hmade).complete (hquiet hprobe) s
      have hlens : stampLens (c :: caps) = stampLens caps := by
        rw [stampLens, List.filter_cons_of_neg (by simpa using hprobe), stampLens]
      have hprints : PrintsLines s c := ⟨_, by rw [hhandler, Capture.lines, if_neg hprobe]⟩
      have hstep : captureStep s c = some { s with gLogBuf := c.pkt.proto } := by
        rw [captureStep, receiverStep, hhandler, Option.map_some]
      have hfill' : Filled ({ s with gLogBuf := c.pkt.proto } : Receiver).tbuf m := hfill
      rw [hlens, ← ih hrest hfill']
      simp [hstep, hprints]

/-- **When the probes have their lines**, in every run of the sender, whatever is lost, comes more
than once or in another order, and whatever other packets without a parameter come between: the
times in the probes must not become shorter. Otherwise a line has the end of an earlier time. -/
theorem probe_lines_iff {rows : List (WebhostInfo × PkTurn)} {sents : List PkSent}
    (hsends : pkSend pid .start rows = some sents) {caps : List Capture}
    (hsent : ∀ c ∈ caps, c.sent ∈ sents) (husual : ∀ c ∈ caps, c.Probe → c.stamp.Usual)
    (hquiet : ∀ c ∈ caps, ¬ c.Probe → c.pkt.Quiet) :
    Lts.Meets captureStep PrintsLines .start caps ↔ (stampLens caps).Pairwise (· ≤ ·) := by
  have hexpected : ∀ c ∈ caps, c.Expected pid := fun c hc =>
    ⟨(pkSend_made hsends c.sent (hsent c hc)).2, husual c hc, hquiet c hc⟩
  rw [lines_run_iff hexpected filled_start, List.isChain_iff_pairwise, List.pairwise_cons]
  simp

/-- A probe from 10.0.0.1 to 10.0.0.2. -/
def probeRow : WebhostInfo where
  type := 0
  srcPort := 4000
  dstPort := 80
  text f := if f = .srcIp then some (ascii "10.0.0.1") else some (ascii "10.0.0.2")

/-- A turn at `usec` microseconds of a second. -/
def turnAt (usec : Fin 1000000) : PkTurn :=
  let now : Now := ⟨⟨1700000000, usec⟩, by constructor <;> norm_num⟩
  ⟨now, now, now, false⟩

/-- Two probes, the second with the longer time. -/
def twoProbes : List (WebhostInfo × PkTurn) :=
  [(probeRow, turnAt 7), (probeRow, turnAt 12)]

/-- A packet that comes a little later. -/
def captureOf (sent : PkSent) : Capture :=
  ⟨sent, List.replicate 12 0, rfl, (turnAt 500).stamp⟩

theorem probe_lines_iff_twoProbes : ∃ sents, pkSend 1 .start twoProbes = some sents ∧
    (Lts.Meets captureStep PrintsLines .start (sents.map captureOf) ↔
      (stampLens (sents.map captureOf)).Pairwise (· ≤ ·)) := by
  obtain ⟨sents, hsends⟩ := Option.isSome_iff_exists.1
    (show (pkSend 1 .start twoProbes).isSome = true by decide +kernel)
  have hrows : ∀ r ∈ twoProbes, r.1.type = 0 ∧ r.2.stamp.Usual := by decide
  have hall : ∀ c ∈ sents.map captureOf, c.sent ∈ sents ∧ c.Probe ∧ c.stamp.Usual := by
    intro c hc
    obtain ⟨sent, hsent, rfl⟩ := List.mem_map.1 hc
    exact ⟨hsent, hrows _ (pkSend_made hsends sent hsent).1⟩
  exact ⟨sents, hsends, probe_lines_iff hsends (fun c hc => (hall c hc).1)
    (fun c hc _ => (hall c hc).2.2) fun c hc hno => absurd (hall c hc).2.1 hno⟩

end F1Goal
