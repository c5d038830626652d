import F1Goal.HttpOnce
import F1Goal.IpChecksum
import F1Goal.PkLines

/-!
# From the file to the packets (`pksender_v2.c`)

A file that is read right becomes a list of entries in memory, and each entry a packet.
`pksender_packets` puts the steps together: a packet is sent for each line, in their order, and it
says what the line says, its payload being the time or the request.
-/

open Block CString Decimal

namespace F1Goal

/-! ### What a line says -/

/-- The text of a field. -/
def fieldText (fs : List (List UInt8)) (f : HostField) : List UInt8 := cstr (fs.getD f.seq [])

/-- The number that a field begins with. -/
def fieldNum (fs : List (List UInt8)) (f : HostField) : ℤ := leading 10 (fieldText fs f)

/-- A port. -/
def fieldPort (fs : List (List UInt8)) (f : HostField) : UInt16 := .ofInt (fieldNum fs f)

/-- The bytes of an address. -/
def fieldAddr (fs : List (List UInt8)) (f : HostField) : List UInt8 :=
  (inetPton (fieldText fs f)).getD []

/-- **The condition on a line**: it is one for a probe or a request, with all its fields, its
addresses are proper, and the path of a request has a place in `req_line`. -/
structure LineProper (fs : List (List UInt8)) : Prop where
  type : fieldNum fs .type = 0 ∨ fieldNum fs .type = 1
  full : ∀ f ∈ hostFields (fieldNum fs .type), f.seq < fs.length
  srcIp : (inetPton (fieldText fs .srcIp)).isSome
  dstIp : (inetPton (fieldText fs .dstIp)).isSome
  path : fieldNum fs .type = 1 → (fieldText fs .path).length < 115

/-- The text of a request. -/
def hostRequest (fs : List (List UInt8)) : List UInt8 :=
  ascii "GET " ++ fieldText fs .path ++ ascii " HTTP/1.1" ++ crlf ++
    (ascii "Host: " ++ fieldText fs .host ++ crlf) ++
    (ascii "Cookie: " ++ fieldText fs .cookie ++ crlf) ++
    (ascii "User-Agent: " ++ fieldText fs .ua ++ crlf) ++ crlf

/-- The line that is printed for a packet. -/
def sentLine (fs : List (List UInt8)) (turn : PkTurn) : List UInt8 :=
  (if fieldNum fs .type = 1 then fieldText fs .host ++ fieldText fs .path ++ ascii "|" else []) ++
    (fieldText fs .srcIp ++ ascii "|" ++ portText (fieldPort fs .srcPort) ++ ascii "|" ++
      fieldText fs .dstIp ++ ascii "|" ++ portText (fieldPort fs .dstPort) ++ ascii "|" ++
      turn.before.text ++ ascii "|" ++ turn.after.text ++ ascii "|")

/-- What a receiver takes from the packet of a line. -/
def wirePacket (fs : List (List UInt8)) (payload : List UInt8) : Packet where
  totLen := 40 + payload.length
  saddr := (inAddr (fieldAddr fs .srcIp)).toNat
  daddr := (inAddr (fieldAddr fs .dstIp)).toNat
  source := (htons (fieldPort fs .srcPort)).toNat
  dest := (htons (fieldPort fs .dstPort)).toNat
  seq := 0
  ackSeq := 0
  flags := (tcpFlagFin ||| tcpFlagPsh ||| tcpFlagAck).toNat
  payload := payload

/-- **What is sent says what the line says**; the payload of a probe has bytes of earlier packets
behind its text. -/
structure PkSent.Says (sent : PkSent) (fs : List (List UInt8)) (turn : PkTurn) : Prop where
  log : sent.log = sentLine fs turn
  verifies : OnesComplement.fold (OnesComplement.sumWords (sent.packet.take 20)) = 0xFFFF
  packet : ∃ payload, parsePacket sent.packet = some (wirePacket fs payload) ∧
    (fieldNum fs .type = 0 → payload.length = loadSz ∧
      ∃ stale, payload = stampText turn.stamp ++ 0 :: stale) ∧
    (fieldNum fs .type = 1 → payload = hostRequest fs)

/-! ### The entry of a line -/

/-- An entry that holds the fields of a line. -/
structure RowIs (row : WebhostInfo) (fs : List (List UInt8)) : Prop where
  type : row.type = fieldNum fs .type
  srcPort : row.srcPort = fieldPort fs .srcPort
  dstPort : row.dstPort = fieldPort fs .dstPort
  text : ∀ f ∈ hostFields row.type, f.isText = true →
    row.text f = some (fieldText fs f) ∧ (fieldText fs f).length < f.size

/-- The string that begins at an address where a text with its zero stands. -/
theorem stringIn_slice {m : ℤ → UInt8} {off : ℤ} {s : List UInt8} {n : ℕ}
    (hslice : Mem.slice m off (s.length + 1) = s ++ [0]) (hn : s.length + 1 ≤ n) :
    stringIn (fun j => m (off + j)) n = some (cstr s) := by
  obtain ⟨k, rfl⟩ := Nat.exists_eq_add_of_le hn
  have hsame : Mem.slice (fun j => m (off + j)) 0 (s.length + 1 + k) =
      Mem.slice m off (s.length + 1 + k) := Mem.slice_congr fun i _ => by rw [zero_add]
  rw [stringIn, hsame, Mem.slice_add, hslice, if_pos (by simp), List.append_assoc,
    List.singleton_append, cstr_append_zero]

variable {list : WebhostList} {fs : List (List UInt8)} {i : ℕ}

theorem length_fieldText_le {f : HostField} {text : List UInt8} (htext : fs[f.seq]? = some text) :
    fieldText fs f = cstr text ∧ (fieldText fs f).length ≤ text.length := by
  have heq : fieldText fs f = cstr text := by
    rw [fieldText, List.getD_eq_getElem?_getD, htext, Option.getD_some]
  exact ⟨heq, heq ▸ (List.takeWhile_prefix _).length_le⟩

/-- A number in an entry is that of its field. -/
theorem read_eq_fieldNum {hosts : ℤ → UInt8} {base : ℤ} {f : HostField}
    (hholds : HoldsHost hosts base fs) (hf : f ∈ headFields) (hnum : f.isText = false)
    (hlt : f.seq < fs.length) : f.read hosts base = fieldNum fs f := by
  have hfield := List.getElem?_eq_getElem hlt
  have hmem := hholds.holds f (List.mem_append_left _ hf) _ hfield
  rw [HostField.Holds, hnum, if_neg (by simp), leadingNumber_iff (by norm_num)] at hmem
  rw [hmem, fieldNum, (length_fieldText_le hfield).1]

/-- **The entry of a line** has its type, its ports and its texts. -/
theorem rowIs_of_holds (hholds : HoldsHost list.webhosts (hostSize * i) fs) (hproper : LineProper fs)
    (hi : (i : ℤ) < list.webhostNum) : RowIs (list.row i) fs := by
  have hfull : ∀ f ∈ headFields, f.seq < fs.length := fun f hf =>
    hproper.full f (List.mem_append_left _ hf)
  have htype := read_eq_fieldNum hholds (f := .type) (by decide) rfl (hfull _ (by decide))
  have hsrcPort := read_eq_fieldNum hholds (f := .srcPort) (by decide) rfl (hfull _ (by decide))
  have hdstPort := read_eq_fieldNum hholds (f := .dstPort) (by decide) rfl (hfull _ (by decide))
  rw [HostField.read, if_pos rfl] at htype
  have hrow : (list.row i).type = fieldNum fs .type := by
    dsimp only [WebhostList.row]
    exact htype
  refine ⟨hrow, ?_, ?_, fun f hf htext => ?_⟩
  · rw [fieldPort, ← hsrcPort]
    rfl
  · rw [fieldPort, ← hdstPort]
    rfl
  · have hlt := hproper.full f (hrow ▸ hf)
    have hfield := List.getElem?_eq_getElem hlt
    have hmem := hholds.holds f (by rw [htype, ← hrow]; exact hf) _ hfield
    rw [HostField.Holds, if_pos htext] at hmem
    obtain ⟨hshort, hslice⟩ := hmem
    obtain ⟨heq, hle⟩ := length_fieldText_le hfield
    refine ⟨?_, hle.trans_lt hshort⟩
    have hend : ∀ f : HostField, f.off + f.size ≤ hostSize := by rintro ⟨⟩ <;> decide
    have hroom := hend f
    have hplace : (hostSize : ℤ) * 1 ≤ hostSize * (list.webhostNum - i) :=
      mul_le_mul_of_nonneg_left (by omega) (Int.natCast_nonneg _)
    rw [heq]
    exact stringIn_slice hslice (by omega)

/-! ### The request -/

/-- An object with this text, to which these headers have been added. -/
structure Building (obj : HttpObject) (added : List ℕ) (text : List UInt8) : Prop where
  bufSz : obj.bufSz = hoDftBufSz
  bits : HttpSys.Bits ⟨obj, false, false, added⟩
  written : obj.written = text

variable {obj obj' : HttpObject} {added : List ℕ} {text : List UInt8}

theorem building_start : Building PkSender.start.pHo [] [] where
  bufSz := rfl
  bits := ⟨rfl, by simp, by simp [PkSender.start, freshObject, bitArrayInit]⟩
  written := rfl

theorem Building.reset (h : Building obj added text) : Building (httpObjectReset obj).2 [] [] where
  bufSz := h.bufSz
  bits := (@opStep_bits _ _ .reset h.bits rfl).of_status rfl rfl
  written := rfl

/-- **A text is added** when its header is new, and there is room. -/
theorem Building.add (h : Building obj added text) (hdr : HttpHdr) (value : List UInt8)
    (hnew : hdr.id ∉ added) (hroom : text.length + (headerText hdr.id value).length < hoDftBufSz)
    (hinfo : (getHttpHeaderInfo hdr.id).isSome) :
    ∃ obj', addText obj hdr value = some obj' ∧
      Building obj' (hdr.id :: added) (text ++ headerText hdr.id value) := by
  obtain ⟨info, hinfo⟩ := Option.isSome_iff_exists.1 hinfo
  have hid : hdr.id < httpHdrNum := by cases hdr <;> decide
  have hlen : obj.dataLen = text.length := by rw [← h.written, HttpObject.written, Mem.length_slice]
  have hsize := (header_size hinfo).1
  have htext : (headerText hdr.id value).length = info.headerSize + value.length + 2 := by
    rw [headerText, hinfo]
    simp only [List.length_append, hsize]
    rfl
  unfold hoDftBufSz at hroom
  have hshort : value.length < 2 ^ 16 := by omega
  have htakes : obj.TakesHeader hdr.id ⟨value, hshort⟩ := by
    refine ⟨hid, fun hone => hnew ((h.bits.value_eq_one hid).1 hone).1, info, hinfo, ?_⟩
    rw [h.bufSz]
    unfold u32 hoDftBufSz
    dsimp only
    omega
  obtain ⟨info', named, hinfo', hnamed, hcall⟩ := httpObjectAddHeader_of_takes htakes
  obtain ⟨hwritten, -, -, -⟩ := httpObjectAddHeader_written hcall (by
    dsimp only
    omega)
  refine ⟨_, by rw [addText, dif_pos hshort, hcall], ?_, ?_, ?_⟩
  · rw [← h.bufSz, hnamed]
    dsimp only
    split_ifs <;> rfl
  · exact h.bits.taken hid rfl rfl
  · rw [hwritten, h.written]

variable {row : WebhostInfo} {turn : PkTurn} {s : PkSender} {pid : ℕ}

/-- The texts of an entry for a request. -/
theorem RowIs.httpTexts (hrow : RowIs row fs) (htype : fieldNum fs .type = 1) {f : HostField}
    (hf : f ∈ httpFields) :
    row.text f = some (fieldText fs f) ∧ (fieldText fs f).length < f.size := by
  refine hrow.text f ?_ ?_
  · rw [hrow.type, htype, hostFields, if_pos rfl]
    exact List.mem_append_right _ hf
  · revert f
    decide

/-- The addresses of an entry. -/
theorem RowIs.headTexts (hrow : RowIs row fs) {f : HostField} (hf : f ∈ headFields)
    (htext : f.isText = true) :
    row.text f = some (fieldText fs f) ∧ (fieldText fs f).length < f.size :=
  hrow.text f (List.mem_append_left _ hf) htext

theorem length_hostRequest (fs : List (List UInt8)) : (hostRequest fs).length =
    (fieldText fs .path).length + (fieldText fs .host).length + (fieldText fs .cookie).length +
      (fieldText fs .ua).length + 49 := by
  have h1 : (ascii "GET ").length = 4 := rfl
  have h2 : (ascii " HTTP/1.1").length = 9 := rfl
  have h3 : (ascii "Host: ").length = 6 := rfl
  have h4 : (ascii "Cookie: ").length = 8 := rfl
  have h5 : (ascii "User-Agent: ").length = 12 := rfl
  have h6 : crlf.length = 2 := rfl
  simp only [hostRequest, List.length_append]
  omega

/-- **The request of a line** is built, and all of its parts have a place. -/
theorem request_eq (h : Building obj [] []) (hrow : RowIs row fs) (hproper : LineProper fs)
    (htype : fieldNum fs .type = 1) :
    ∃ obj' added, request obj row = some obj' ∧ Building obj' added (hostRequest fs) ∧
      (hostRequest fs).length < 2000 := by
  obtain ⟨hpath, -⟩ := hrow.httpTexts htype (f := .path) (by decide)
  obtain ⟨hhost, hhostLen⟩ := hrow.httpTexts htype (f := .host) (by decide)
  obtain ⟨hcookie, hcookieLen⟩ := hrow.httpTexts htype (f := .cookie) (by decide)
  obtain ⟨hua, huaLen⟩ := hrow.httpTexts htype (f := .ua) (by decide)
  have hpathLen := hproper.path htype
  have hlen := length_hostRequest fs
  have hsmall : (hostRequest fs).length < 2000 := by
    simp only [HostField.size] at hhostLen hcookieLen huaLen
    omega
  have hline : reqLine (fieldText fs .path) =
      some (ascii "GET " ++ fieldText fs .path ++ ascii " HTTP/1.1") := by
    refine if_pos ?_
    have h1 : (ascii "GET ").length = 4 := rfl
    have h2 : (ascii " HTTP/1.1").length = 9 := rfl
    simp only [List.length_append]
    omega
  have hparts : headerText HttpHdr.reqLine.id (ascii "GET " ++ fieldText fs .path ++
      ascii " HTTP/1.1") ++ headerText HttpHdr.host.id (fieldText fs .host) ++
        headerText HttpHdr.cookie.id (fieldText fs .cookie) ++
          headerText HttpHdr.ua.id (fieldText fs .ua) ++ headerText HttpHdr.hdrEnd.id [] =
      hostRequest fs := rfl
  have hlens := congrArg List.length hparts
  simp only [List.length_append] at hlens
  obtain ⟨obj₁, hadd₁, h₁⟩ := h.add .reqLine
    (ascii "GET " ++ fieldText fs .path ++ ascii " HTTP/1.1") (by decide)
    (by simp only [List.length_nil, hoDftBufSz]; omega) rfl
  obtain ⟨obj₂, hadd₂, h₂⟩ := h₁.add .host (fieldText fs .host) (by decide)
    (by simp only [List.length_append, List.length_nil, hoDftBufSz]; omega) rfl
  obtain ⟨obj₃, hadd₃, h₃⟩ := h₂.add .cookie (fieldText fs .cookie) (by decide)
    (by simp only [List.length_append, List.length_nil, hoDftBufSz]; omega) rfl
  obtain ⟨obj₄, hadd₄, h₄⟩ := h₃.add .ua (fieldText fs .ua) (by decide)
    (by simp only [List.length_append, List.length_nil, hoDftBufSz]; omega) rfl
  obtain ⟨obj₅, hadd₅, h₅⟩ := h₄.add .hdrEnd [] (by decide)
    (by simp only [List.length_append, List.length_nil, hoDftBufSz]; omega) rfl
  rw [List.nil_append, hparts] at h₅
  refine ⟨obj₅, _, ?_, h₅, hsmall⟩
  simp only [request, hpath, hhost, hcookie, hua, hline, hadd₁, hadd₂, hadd₃, hadd₄, hadd₅,
    Option.bind_eq_bind, Option.bind_some]

/-- **The payload of a line.** -/
theorem fillLoad_says (h : Building s.pHo [] []) (hrow : RowIs row fs) (hproper : LineProper fs)
    {stamp : Now} (husual : fieldNum fs .type = 0 → stamp.Usual) :
    ∃ s' added text n, s.fillLoad row stamp = some s' ∧ Building s'.pHo added text ∧
      s'.loadSize = some n ∧ n < 2000 ∧
      (fieldNum fs .type = 0 → n = loadSz ∧
        ∃ stale, Mem.slice s'.gBuf 40 n = stampText stamp ++ 0 :: stale) ∧
      (fieldNum fs .type = 1 → Mem.slice s'.gBuf 40 n = hostRequest fs) := by
  have htype := hrow.type
  rcases hproper.type with hzero | hone
  · rw [hzero] at htype
    have hlen := (length_stampText (husual hzero)).2
    have hput : s.putLoad (stampText stamp ++ [0]) =
        some { s with gBuf := Mem.store s.gBuf loadOff (stampText stamp ++ [0]) } := by
      refine if_pos ?_
      simp only [List.length_append, List.length_singleton, loadOff, gBufSz]
      unfold loadSz at hlen
      omega
    have hfill : s.fillLoad row stamp = some
        { s with
          gBuf := Mem.store s.gBuf loadOff (stampText stamp ++ [0])
          loadSize := some loadSz } := by
      rw [PkSender.fillLoad, if_pos htype, hput]
      rfl
    obtain ⟨-, hstale⟩ := fillLoad_probe htype hfill
    exact ⟨_, [], [], loadSz, hfill, h, rfl, by decide, fun _ => ⟨rfl, hstale hlen⟩,
      fun hone => absurd (hzero.symm.trans hone) (by decide)⟩
  · rw [hone] at htype
    obtain ⟨obj', added, hreq, hbuild, hsmall⟩ := request_eq h hrow hproper hone
    have hdata : obj'.dataLen = (hostRequest fs).length := by
      rw [← hbuild.written, HttpObject.written, Mem.length_slice]
    have hput : s.putLoad obj'.written =
        some { s with gBuf := Mem.store s.gBuf loadOff (hostRequest fs) } := by
      rw [hbuild.written]
      refine if_pos ?_
      unfold loadOff gBufSz
      omega
    refine ⟨⟨Mem.store s.gBuf loadOff (hostRequest fs), some (hostRequest fs).length, obj'⟩, added,
      hostRequest fs, (hostRequest fs).length, ?_, hbuild, rfl, hsmall,
      fun hzero => absurd (hzero.symm.trans hone) (by decide), fun _ => ?_⟩
    · rw [PkSender.fillLoad, if_neg (by rw [htype]; decide), if_pos htype, hreq,
        Option.bind_eq_bind, Option.bind_some, hput, Option.bind_eq_bind, Option.bind_some, hdata]
    · exact Mem.slice_store_self s.gBuf loadOff (hostRequest fs)

/-- The line that is printed has a place in `log`. -/
theorem logText_eq (hrow : RowIs row fs) (hproper : LineProper fs) (turn : PkTurn) :
    logText row turn = some (sentLine fs turn) := by
  obtain ⟨hsrc, hsrcLen⟩ := hrow.headTexts (f := .srcIp) (by decide) rfl
  obtain ⟨hdst, hdstLen⟩ := hrow.headTexts (f := .dstIp) (by decide) rfl
  have hsrcPort : (portText (fieldPort fs .srcPort)).length ≤ 5 := length_port _
  have hdstPort : (portText (fieldPort fs .dstPort)).length ≤ 5 := length_port _
  have hbefore := length_text turn.before
  have hafter := length_text turn.after
  have hbar : (ascii "|").length = 1 := rfl
  simp only [HostField.size] at hsrcLen hdstLen
  simp only [logText, hsrc, hdst, hrow.srcPort, hrow.dstPort, hrow.type, Option.bind_eq_bind,
    Option.bind_some]
  rcases hproper.type with hzero | hone
  · have hne : fieldNum fs .type ≠ 1 := by rw [hzero]; decide
    rw [if_pos hzero, sentLine, if_neg hne, List.nil_append]
    refine if_pos ?_
    simp only [List.length_append]
    omega
  · have hne : fieldNum fs .type ≠ 0 := by rw [hone]; decide
    obtain ⟨hhost, hhostLen⟩ := hrow.httpTexts hone (f := .host) (by decide)
    obtain ⟨hpath, hpathLen⟩ := hrow.httpTexts hone (f := .path) (by decide)
    simp only [HostField.size] at hhostLen hpathLen
    rw [if_neg hne, if_pos hone, hhost, hpath, sentLine, if_pos hone]
    refine if_pos ?_
    simp only [List.length_append]
    omega

/-! ### The packets -/

theorem createIpHdr_eq (pid : ℕ) (srcIp dstIp : UInt32) (len : ℕ) :
    createIpHdr pid srcIp dstIp len =
      forgeIpHdr pid (.ofNat len) ⟨0, 0, srcIp, dstIp, 0, 0, 0, 0, fun _ => 0⟩ := rfl

theorem flags_createTcpHdr (srcPort dstPort check : UInt16) :
    TcpHdr.flags { createTcpHdr srcPort dstPort with check := check } =
      tcpFlagFin ||| tcpFlagPsh ||| tcpFlagAck := by
  simp only [TcpHdr.flags, createTcpHdr, TcpHdr.zero]
  decide

/-- **A turn of the loop** sends what the line says. -/
theorem sendRow_says (pid : ℕ) {added : List ℕ} {text : List UInt8} (h : Building s.pHo added text)
    (hrow : RowIs row fs) (hproper : LineProper fs)
    (husual : fieldNum fs .type = 0 → turn.stamp.Usual) (hgoes : turn.fails = false) :
    ∃ s' sent added' text', s.sendRow pid row turn = some (some (s', sent)) ∧
      Building s'.pHo added' text' ∧ sent.Says fs turn := by
  obtain ⟨hsrc, -⟩ := hrow.headTexts (f := .srcIp) (by decide) rfl
  obtain ⟨hdst, -⟩ := hrow.headTexts (f := .dstIp) (by decide) rfl
  obtain ⟨src, hsrcIp⟩ := Option.isSome_iff_exists.1 hproper.srcIp
  obtain ⟨dst, hdstIp⟩ := Option.isSome_iff_exists.1 hproper.dstIp
  obtain ⟨s₁, added', text', n, hfill, hbuild, hload, hsmall, hprobe, hrequest⟩ :=
    fillLoad_says (s := { s with
      gBuf := Mem.store s.gBuf 20 (createTcpHdr (htons row.srcPort) (htons row.dstPort)).bytes
      pHo := (httpObjectReset s.pHo).2 }) h.reset hrow hproper husual
  have hlog := logText_eq hrow hproper turn
  have hlen : (if row.type = 0 ∨ row.type = 1 then n else 0) = n :=
    if_pos (by rw [hrow.type]; exact hproper.type)
  have htotal : (UInt16.ofNat (40 + n)).toNat = 40 + n := by
    rw [UInt16.toNat_ofNat', Nat.mod_eq_of_lt (by omega)]
  obtain ⟨check, hcheck⟩ : ∃ check, check = pkTcpChkSum 6 (Mem.slice s₁.gBuf 20 (20 + n))
    (.ofNat (20 + n)) (inAddr src) (inAddr dst) := ⟨_, rfl⟩
  obtain ⟨tcp, htcp⟩ : ∃ tcp : TcpHdr, tcp =
    { createTcpHdr (htons row.srcPort) (htons row.dstPort) with check := check } := ⟨_, rfl⟩
  obtain ⟨ip, hip⟩ : ∃ ip, ip = createIpHdr pid (inAddr src) (inAddr dst) (40 + n) := ⟨_, rfl⟩
  obtain ⟨gBuf, hgBuf⟩ : ∃ m, m = Mem.store (Mem.store s₁.gBuf 20 tcp.bytes) 0 ip.bytes := ⟨_, rfl⟩
  have hpacket : Mem.slice gBuf 0 (40 + n) = ip.bytes ++ tcp.bytes ++ Mem.slice s₁.gBuf 40 n := by
    rw [hgBuf, slice_packet _ (IpHdr.length_bytes _) (TcpHdr.length_bytes _)]
  have hsend : s.sendRow pid row turn = some (some ({ s₁ with gBuf := gBuf },
      ⟨row, turn, Mem.slice gBuf 0 (40 + n), sentLine fs turn⟩)) := by
    simp only [PkSender.sendRow, hsrc, hdst, hsrcIp, hdstIp, hfill, hload, hlen, hlog, hgoes,
      Bool.false_eq_true, if_false, Option.bind_eq_bind, Option.bind_some]
    rw [hgBuf, htcp, hip, hcheck]
  refine ⟨_, _, added', text', hsend, hbuild, rfl, ?_, Mem.slice s₁.gBuf 40 n, ?_, ?_, hrequest⟩
  · dsimp only
    rw [hpacket, List.append_assoc, List.take_left' (IpHdr.length_bytes _), hip, createIpHdr_eq]
    exact fold_forgeIpHdr _ _ _
  · dsimp only
    rw [hpacket, parsePacket_headers (n := .ofNat (40 + n)) (by rw [hip]; exact ⟨rfl, rfl, rfl, rfl⟩)
      (by rw [htcp]; exact ⟨rfl, rfl⟩) (by rw [htotal, Mem.length_slice]), htotal, htcp, hip,
      flags_createTcpHdr, hrow.srcPort, hrow.dstPort, wirePacket, fieldAddr, fieldAddr, hsrcIp,
      hdstIp, Mem.length_slice]
    rfl
  · intro hzero
    obtain ⟨rfl, hstale⟩ := hprobe hzero
    exact ⟨Mem.length_slice _ _ _, hstale⟩

/-! ### Runs -/

/-- **The condition on a line and its turn**: the line is proper, a time is usual, and `sendto` does
not fail. -/
structure JobOk (job : List (List UInt8) × PkTurn) : Prop where
  proper : LineProper job.1
  usual : fieldNum job.1 .type = 0 → job.2.stamp.Usual
  goes : job.2.fails = false

/-- **The loop** sends what the lines say. -/
theorem pkSend_says (pid : ℕ) {added : List ℕ} {text : List UInt8} (h : Building s.pHo added text)
    {rows : List (WebhostInfo × PkTurn)} {jobs : List (List (List UInt8) × PkTurn)}
    (hrows : List.Forall₂ (fun r job => RowIs r.1 job.1 ∧ r.2 = job.2) rows jobs)
    (hok : ∀ job ∈ jobs, JobOk job) :
    ∃ sents, pkSend pid s rows = some sents ∧
      List.Forall₂ (fun (sent : PkSent) job => sent.Says job.1 job.2) sents jobs := by
  induction hrows generalizing s added text with
  | nil => exact ⟨[], rfl, .nil⟩
  | @cons r job rows jobs hr hrest ih =>
    obtain ⟨row, turn⟩ := r
    obtain ⟨hrow, hturn⟩ := hr
    obtain ⟨hjob, hjobs⟩ := List.forall_mem_cons.1 hok
    dsimp only at hturn hrow
    subst hturn
    obtain ⟨s', sent, added', text', hsend, hbuild, hsays⟩ :=
      sendRow_says pid h hrow hjob.proper hjob.usual hjob.goes
    obtain ⟨sents, hsends, hall⟩ := ih hbuild hjobs
    refine ⟨sent :: sents, ?_, .cons hsays hall⟩
    rw [pkSend, hsend, Option.bind_eq_bind, Option.bind_some]
    dsimp only
    rw [hsends, Option.map_some]

/-- The lines that are used, with their turns. -/
def HostFile.jobs (f : HostFile) (turns : ℕ → PkTurn) : List (List (List UInt8) × PkTurn) :=
  f.used.mapIdx fun i l => (segments f.sep l, turns i)

/-- **From the file to the packets**: of a good file with proper lines a packet is sent for each line
that is used, in their order, and it says what the line says. No array of the sender is left, and
nothing that has not been set is read. -/
theorem pksender_packets (f : HostFile) (hlines : f.lines ≠ []) (htext : f.lineText.length ≤ 16)
    (hgood : f.Good) (hpos : 0 < i32 f.content.length) (turns : ℕ → PkTurn)
    (hjobs : ∀ job ∈ f.jobs turns, JobOk job) (heap : HostHeap) (pid : ℕ) :
    ∃ list sents, readWebhostFromFile heap f.content = .ok list ∧
      pksender pid list turns = some sents ∧
      List.Forall₂ (fun (sent : PkSent) job => sent.Says job.1 job.2) sents (f.jobs turns) := by
  obtain ⟨hsep, df, hosts, hinit, hrun, hcount, hholds⟩ :=
    (f.reads_right_iff heap hlines htext).1 (hgood.right hlines htext hpos heap)
  obtain ⟨list, hlist⟩ : ∃ list, list = WebhostList.mk (i32 f.content.length) f.lineNum
    f.used.length hosts := ⟨_, rfl⟩
  have hread : readWebhostFromFile heap f.content = .ok list := by
    rw [f.read_eq heap hlines htext, if_neg hsep, hinit, hlist]
    dsimp only
    rw [hrun]
  have hnum : list.webhostNum = f.used.length := by rw [hlist, hcount]
  have hentry : ∀ (j : ℕ) l, f.used[j]? = some l →
      HoldsHost list.webhosts (hostSize * j) (segments f.sep l) := fun j l hj => by
    have hentry := hholds j l hj
    rw [zero_add] at hentry
    rw [hlist]
    exact hentry
  have hrows : List.Forall₂ (fun r job => RowIs r.1 job.1 ∧ r.2 = job.2)
      ((List.range list.webhostNum.toNat).map fun i => (list.row i, turns i)) (f.jobs turns) := by
    rw [hnum, Int.toNat_natCast, List.forall₂_iff_get]
    refine ⟨by simp [HostFile.jobs], fun j h1 h2 => ?_⟩
    have hj : j < f.used.length := by simpa using h1
    have hproper := (hjobs _ (List.get_mem (f.jobs turns) ⟨j, h2⟩)).proper
    simp only [HostFile.jobs, List.get_eq_getElem, List.getElem_mapIdx, List.getElem_map,
      List.getElem_range] at hproper ⊢
    refine ⟨rowIs_of_holds (hentry j _ (List.getElem?_eq_getElem hj)) hproper ?_, trivial⟩
    rw [hnum]
    exact_mod_cast hj
  obtain ⟨sents, hsends, hall⟩ := pkSend_says pid building_start hrows hjobs
  refine ⟨list, sents, hread, ?_, hall⟩
  have hret : list.ret = i32 f.content.length := by rw [hlist]
  rw [pksender, hret, if_neg (not_le.2 hpos), hsends]

instance HostField.decidableFits (f : HostField) (text : List UInt8) : Decidable (f.Fits text) :=
  inferInstanceAs (Decidable (if f.isText then text.length < f.size
    else if f = .type then -2 ^ 31 ≤ leading 10 (cstr text) ∧ leading 10 (cstr text) < 2 ^ 31
    else 0 ≤ leading 10 (cstr text) ∧ leading 10 (cstr text) < 2 ^ 16))

/-- The fields of a request. -/
def requestTexts : List (List UInt8) :=
  [ascii "1", ascii "1.1.1.1", ascii "80", ascii "2.2.2.2", ascii "80", ascii "h", ascii "/",
    ascii "u", ascii "c"]

/-- A file with a probe and a request. -/
def twoHosts : HostFile where
  header := ascii "LINE=2;Sep=,;MaxCol=10"
  lines := [hostTexts.flatMap fun s => s ++ [44], requestTexts.flatMap fun s => s ++ [44]]
  lineText := ascii "2"
  n := 2
  sep := [44]
  colText := ascii "10"
  m := 10
  header_line := by decide
  lines_line := by decide
  lineText_eq := by decide
  n_eq := (isInteger_iff (by norm_num) (by decide) 2).2 (by decide)
  n_pos := by norm_num
  sep_eq := by decide
  sep_text := by decide
  colText_eq := by decide
  m_eq := (isInteger_iff (by norm_num) (by decide) 10).2 (by decide)
  few := by
    rw [List.forall_mem_cons, List.forall_mem_singleton, segments_flatMap (by decide),
      segments_flatMap (by decide)]
    decide

theorem twoHosts_used : twoHosts.used = twoHosts.lines := by decide +kernel

/-- A line of these fields, each with a comma behind it. -/
theorem lineGood_commas {texts : List (List UInt8)} (h : ∀ s ∈ texts, 44 ∉ s)
    (hlen : texts.length ≤ 10 ∧ ∀ s ∈ texts, s.length + 2 < 2 ^ 31)
    (hfew : texts.length ≤ (hostFields (HostField.type.number texts)).length)
    (hfits : ∀ f ∈ hostFields (HostField.type.number texts), ∀ s ∈ texts[f.seq]?, f.Fits s) :
    LineGood [44] 10 (texts.flatMap fun s => s ++ [44]) where
  cols := by
    rw [segments_flatMap h]
    exact_mod_cast hlen.1
  ended := by rw [fields_flatMap h]
  short := by
    rw [segments_flatMap h]
    exact hlen.2
  fits := by
    rw [segments_flatMap h]
    exact ⟨hfew, hfits⟩

theorem twoHosts_good : twoHosts.Good where
  count := by decide +kernel
  sep_ne := by decide
  sep := by decide +kernel
  cols := by decide +kernel
  lines := by
    have hcols : twoHosts.cols = 10 := by decide +kernel
    have hprobe : LineGood [44] 10 (hostTexts.flatMap fun s => s ++ [44]) :=
      lineGood_commas (by decide) (by decide) (by decide +kernel) (by decide +kernel)
    have hrequest : LineGood [44] 10 (requestTexts.flatMap fun s => s ++ [44]) :=
      lineGood_commas (by decide) (by decide) (by decide +kernel) (by decide +kernel)
    rw [twoHosts_used, hcols]
    exact List.forall_mem_cons.2 ⟨hprobe, List.forall_mem_singleton.2 hrequest⟩

theorem pksender_packets_twoHosts :
    ∃ list sents, readWebhostFromFile HostFile.usedHeap twoHosts.content = .ok list ∧
      pksender 1 list (fun _ => turnAt 7) = some sents ∧
      List.Forall₂ (fun (sent : PkSent) job => sent.Says job.1 job.2) sents
        (twoHosts.jobs fun _ => turnAt 7) := by
  have hjobs : twoHosts.jobs (fun _ => turnAt 7) =
      [(hostTexts, turnAt 7), (requestTexts, turnAt 7)] := by
    have hfirst : segments [44] (hostTexts.flatMap fun s => s ++ [44]) = hostTexts :=
      segments_flatMap (by decide)
    have hsecond : segments [44] (requestTexts.flatMap fun s => s ++ [44]) = requestTexts :=
      segments_flatMap (by decide)
    rw [HostFile.jobs, twoHosts_used]
    simp only [twoHosts, List.mapIdx_cons, List.mapIdx_nil, hfirst, hsecond]
  have husual : (turnAt 7).stamp.Usual := by decide
  have hprobe : LineProper hostTexts := by constructor <;> decide +kernel
  have hrequest : LineProper requestTexts := by constructor <;> decide +kernel
  refine pksender_packets twoHosts (by decide) (by decide) twoHosts_good (by decide +kernel) _ ?_ _ 1
  rw [hjobs]
  exact List.forall_mem_cons.2 ⟨⟨hprobe, fun _ => husual, rfl⟩,
    List.forall_mem_singleton.2 ⟨hrequest, fun _ => husual, rfl⟩⟩

end F1Goal
