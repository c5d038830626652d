import F1Goal.EchoText
import F1Goal.Lib.Lts

/-!
# The time probe (`tools/simple_client.c`, `tools/simple_server.c`)

Any number of clients send numbered requests to one server over UDP. A client sends its next request
only behind the answer to the last one, it waits without a timeout, and it does not look whether the
answer is to the request that it has just sent. The network loses, reorders and, where `copy` is
allowed, duplicates the datagrams.

`echo_genuine` says that whatever the network does, each line of a client belongs to one of its
requests and to an answer that the server has given to this request, and that every buffer of both
sides is large enough (`EchoSys.Buffers`) when the host and the port of a client are short
(`EchoArgs.Fit`). Without duplicates the line `k` belongs to the request `k` (`echo_lockstep`), and
a client that has lost a datagram says nothing any more (`lost_silences`).

`asked`, `answers` and `lost` are logs that the programs do not have.
-/

open CString

namespace F1Goal

/-- The arguments of a client. -/
structure EchoArgs where
  host : List UInt8
  port : List UInt8
  packNum : ℤ
  /-- `pack_num` is an `int` -/
  packNum_lt : packNum < 2 ^ 31

/-- Where a client is in its loop. -/
inductive EchoPc
  /-- at the head of the loop -/
  | top
  /-- behind `sendto` -/
  | sent
  /-- in `recvfrom`, with the time `tv` -/
  | waiting (tv : Now)
  /-- behind a `break` -/
  | off
  /-- `tbuf` or `disp_buf` was left -/
  | fault
  deriving DecidableEq

/-- A client, with what it has printed. -/
structure EchoClient where
  args : EchoArgs
  i : ℤ
  pc : EchoPc
  lines : List (List UInt8)
  /-- the requests that it has sent -/
  asked : List (ℤ × Now)

/-- A datagram from the client `c` to the server or back. -/
inductive Datagram
  | request (c : ℕ) (bytes : List UInt8)
  | reply (c : ℕ) (bytes : List UInt8)
  deriving DecidableEq

/-- The client of a datagram. -/
def Datagram.client : Datagram → ℕ
  | .request c _ => c
  | .reply c _ => c

def Datagram.bytes : Datagram → List UInt8
  | .request _ bytes => bytes
  | .reply _ bytes => bytes

/-- The `recv_buf` of its receiver. -/
def Datagram.room : Datagram → ℕ
  | .request .. => 128
  | .reply .. => 256

@[simp] theorem client_request (c : ℕ) (bytes : List UInt8) :
    (Datagram.request c bytes).client = c := rfl

@[simp] theorem client_reply (c : ℕ) (bytes : List UInt8) :
    (Datagram.reply c bytes).client = c := rfl

/-- The clients, the server and the network. -/
structure EchoSys where
  clients : ℕ → EchoClient
  net : Multiset Datagram
  /-- what the server has received and not yet answered -/
  held : Option (ℕ × List UInt8)
  up : Bool
  /-- the answers of the server: the client, what it has received and the time -/
  answers : List (ℕ × List UInt8 × Now)
  lost : List Datagram

inductive EchoAct
  | send (c : ℕ) (tb : Now)
  | sendFail (c : ℕ)
  | stamp (c : ℕ) (tv : Now)
  | recv (c : ℕ) (bytes : List UInt8) (tv2 : Now)
  | recvFail (c : ℕ)
  | serve (c : ℕ) (bytes : List UInt8)
  | serveFail
  | answer (ts : Now)
  | lose (d : Datagram)
  | copy (d : Datagram)

/-- The rest of the loop, behind `recvfrom`. -/
def EchoClient.received (x : EchoClient) (tv tv2 : Now) (bytes : List UInt8) : EchoClient :=
  if bytes = [] then { x with pc := .off } else
    match display x.args.host x.args.port bytes tv tv2 with
    | none => { x with pc := .fault }
    | some none => { x with pc := .top, i := x.i + 1 }
    | some (some line) => { x with pc := .top, i := x.i + 1, lines := x.lines ++ [line] }

def EchoSys.setClient (s : EchoSys) (c : ℕ) (x : EchoClient) : EchoSys :=
  { s with clients := Function.update s.clients c x }

/-- A step of a client, of the server or of the network. -/
def echoStep (s : EchoSys) : EchoAct → Option EchoSys
  | .send c tb =>
    let x := s.clients c
    if x.pc = .top ∧ x.i < x.args.packNum then
      some { s.setClient c { x with pc := .sent, asked := x.asked ++ [(x.i, tb)] } with
        net := .request c (probeText x.i tb) ::ₘ s.net }
    else none
  | .sendFail c =>
    let x := s.clients c
    if x.pc = .top ∧ x.i < x.args.packNum then some (s.setClient c { x with pc := .off })
    else none
  | .stamp c tv =>
    let x := s.clients c
    if x.pc = .sent then some (s.setClient c { x with pc := .waiting tv }) else none
  | .recv c bytes tv2 =>
    let x := s.clients c
    match x.pc with
    | .waiting tv =>
      if .reply c bytes ∈ s.net then
        some { s.setClient c (x.received tv tv2 (bytes.take 256)) with
          net := s.net.erase (.reply c bytes) }
      else none
    | _ => none
  | .recvFail c =>
    let x := s.clients c
    match x.pc with
    | .waiting _ => some (s.setClient c { x with pc := .off })
    | _ => none
  | .serve c bytes =>
    if s.up ∧ s.held = none ∧ .request c bytes ∈ s.net then
      some { s with net := s.net.erase (.request c bytes), held := some (c, bytes.take 128) }
    else none
  | .serveFail => if s.up ∧ s.held = none then some { s with up := false } else none
  | .answer ts =>
    match s.held with
    | some (c, bytes) =>
      some { s with
        net := .reply c (replyText bytes ts) ::ₘ s.net
        held := none
        answers := s.answers ++ [(c, bytes, ts)] }
    | none => none
  -- a `sendto` of the server that fails is a datagram that is lost
  | .lose d =>
    if d ∈ s.net then some { s with net := s.net.erase d, lost := s.lost ++ [d] } else none
  | .copy d => if d ∈ s.net then some { s with net := d ::ₘ s.net } else none

/-- All clients before their first request. -/
def echoInit (args : ℕ → EchoArgs) : EchoSys where
  clients c := ⟨args c, 0, .top, [], []⟩
  net := 0
  held := none
  up := true
  answers := []
  lost := []

namespace EchoSys

variable (s : EchoSys)

/-- The request `j` of the client `c`, of the time `tb`. -/
def Asked (c j : ℕ) (tb : Now) : Prop := (s.clients c).asked[j]? = some ((j : ℤ), tb)

/-- The server has answered the request `j` of the client `c`. -/
def Answered (c j : ℕ) (tb ts : Now) : Prop :=
  s.Asked c j tb ∧ (c, probeText j tb, ts) ∈ s.answers

/-- A datagram is the request `j` of its client or an answer to it. -/
def Of (j : ℕ) : Datagram → Prop
  | .request c bytes => ∃ tb, s.Asked c j tb ∧ bytes = probeText j tb
  | .reply c bytes => ∃ tb ts, s.Answered c j tb ts ∧ bytes = replyText (probeText j tb) ts

/-- A line shows an answer to the request `j` of the client `c`. -/
def Shows (c j : ℕ) (line : List UInt8) : Prop :=
  ∃ tb ts tv tv2, s.Answered c j tb ts ∧
    line = lineText (s.clients c).args.host (s.clients c).args.port j tb ts tv tv2

/-- How many datagrams of the client `c` are on their way. -/
def flying (c : ℕ) : ℕ :=
  s.net.countP (fun d => d.client = c) + if s.held.map Prod.fst = some c then 1 else 0

/-- How many datagrams of the client `c` are lost. -/
def losses (c : ℕ) : ℕ := s.lost.countP fun d => d.client = c

/-- No buffer is left, and none cuts a datagram. -/
structure Buffers : Prop where
  /-- `tbuf` and `disp_buf` of a client -/
  line : ∀ c, (s.clients c).pc ≠ .fault
  /-- its `snd_buf`, for the text that it is about to print there and the zero behind it -/
  request : ∀ c tb, (s.clients c).pc = .top → (s.clients c).i < (s.clients c).args.packNum →
    (probeText (s.clients c).i tb).length < 256
  /-- the `snd_buf` of the server, for what it has received and its own text behind it -/
  answer : ∀ c bytes ts, s.held = some (c, bytes) → (replyText bytes ts).length < 256
  /-- the `recv_buf` of both -/
  net : ∀ d ∈ s.net, d.bytes.length ≤ d.room

end EchoSys

/-- The line of a client fits its `disp_buf`. -/
def EchoArgs.Fit (args : EchoArgs) : Prop := args.host.length + args.port.length ≤ 893

instance (args : EchoArgs) : Decidable args.Fit := inferInstanceAs (Decidable (_ ≤ _))

/-- The counters of a client. -/
structure EchoClient.Counted (x : EchoClient) : Prop where
  lines : (x.lines.length : ℤ) = x.i
  numbers : ∀ (j : ℕ) (q : ℤ × Now), x.asked[j]? = some q → q.1 = j
  small : (x.asked.length : ℤ) ≤ 2 ^ 31
  top : x.pc = .top → x.asked.length = x.lines.length
  sent : x.pc = .sent → x.asked.length = x.lines.length + 1
  waiting : ∀ tv, x.pc = .waiting tv → x.asked.length = x.lines.length + 1
  le : x.asked.length ≤ x.lines.length + 1
  safe : x.pc ≠ .fault

/-- The invariant of every run. -/
structure EchoInv (args : ℕ → EchoArgs) (s : EchoSys) : Prop where
  args : ∀ c, (s.clients c).args = args c
  counted : ∀ c, (s.clients c).Counted
  net : ∀ d ∈ s.net, ∃ j, s.Of j d
  held : ∀ c bytes, s.held = some (c, bytes) → ∃ j, s.Of j (.request c bytes)
  lines : ∀ c k line, (s.clients c).lines[k]? = some line → ∃ j ≤ k, s.Shows c j line

/-! ### The logs grow -/

/-- The logs of `s` and maybe more. -/
structure EchoSys.Later (s t : EchoSys) : Prop where
  args : ∀ c, (t.clients c).args = (s.clients c).args
  asked : ∀ c, (s.clients c).asked <+: (t.clients c).asked
  answers : s.answers <+: t.answers

variable {args : ℕ → EchoArgs} {s t : EchoSys}

namespace EchoSys.Later

theorem of_asked (h : s.Later t) {c j : ℕ} {tb : Now} (ha : s.Asked c j tb) : t.Asked c j tb := by
  obtain ⟨more, hmore⟩ := h.asked c
  rw [EchoSys.Asked, ← hmore, List.getElem?_append_left (List.getElem?_eq_some_iff.1 ha).1]
  exact ha

theorem of_answered (h : s.Later t) {c j : ℕ} {tb ts : Now} (ha : s.Answered c j tb ts) :
    t.Answered c j tb ts := ⟨h.of_asked ha.1, h.answers.subset ha.2⟩

theorem of (h : s.Later t) {j : ℕ} {d : Datagram} (hd : s.Of j d) : t.Of j d := by
  cases d with
  | request c bytes =>
    obtain ⟨tb, ha, rfl⟩ := hd
    exact ⟨tb, h.of_asked ha, rfl⟩
  | reply c bytes =>
    obtain ⟨tb, ts, ha, rfl⟩ := hd
    exact ⟨tb, ts, h.of_answered ha, rfl⟩

theorem shows (h : s.Later t) {c j : ℕ} {line : List UInt8} (hs : s.Shows c j line) :
    t.Shows c j line := by
  obtain ⟨tb, ts, tv, tv2, ha, rfl⟩ := hs
  exact ⟨tb, ts, tv, tv2, h.of_answered ha, by rw [h.args]⟩

/-- A step at a client. -/
theorem set (s : EchoSys) {c : ℕ} {x : EchoClient} {net : Multiset Datagram}
    (hargs : x.args = (s.clients c).args) (hasked : (s.clients c).asked <+: x.asked) :
    s.Later { s.setClient c x with net := net } where
  args := (Function.forall_update_iff _ fun c (x : EchoClient) => x.args = (s.clients c).args).2
    ⟨hargs, fun _ _ => rfl⟩
  asked :=
    (Function.forall_update_iff _ fun c (x : EchoClient) => (s.clients c).asked <+: x.asked).2
      ⟨hasked, fun _ _ => List.prefix_rfl⟩
  answers := List.prefix_rfl

theorem refl (s : EchoSys) : s.Later s :=
  ⟨fun _ => rfl, fun _ => List.prefix_rfl, List.prefix_rfl⟩

end EchoSys.Later

theorem received_args (x : EchoClient) (tv tv2 : Now) (bytes : List UInt8) :
    (x.received tv tv2 bytes).args = x.args ∧ (x.received tv tv2 bytes).asked = x.asked := by
  unfold EchoClient.received
  split_ifs
  · exact ⟨rfl, rfl⟩
  · split <;> exact ⟨rfl, rfl⟩

theorem echoStep_later {a : EchoAct} (h : echoStep s a = some t) : s.Later t := by
  cases a with
  | send c tb =>
    simp only [echoStep] at h
    split_ifs at h
    cases h
    exact .set s rfl (List.prefix_append _ _)
  | sendFail c | stamp c tv =>
    simp only [echoStep] at h
    split_ifs at h
    cases h
    exact .set s rfl List.prefix_rfl
  | recv c bytes tv2 =>
    simp only [echoStep] at h
    split at h
    · split_ifs at h
      cases h
      obtain ⟨hargs, hasked⟩ := received_args (s.clients c) ‹_› tv2 (bytes.take 256)
      exact .set s hargs (by rw [hasked])
    · cases h
  | recvFail c =>
    simp only [echoStep] at h
    split at h <;> cases h
    exact .set s rfl List.prefix_rfl
  | serve c bytes | serveFail | lose d | copy d =>
    simp only [echoStep] at h
    split_ifs at h
    cases h
    exact ⟨fun _ => rfl, fun _ => List.prefix_rfl, List.prefix_rfl⟩
  | answer ts =>
    simp only [echoStep] at h
    split at h <;> cases h
    exact ⟨fun _ => rfl, fun _ => List.prefix_rfl, List.prefix_append _ _⟩

/-! ### What a client receives -/

/-- The answer to a request is its answer as far as the buffers of both sides go. -/
theorem received_reply {x : EchoClient} {j : ℕ} (hj : IsSeq j) (hfit : x.args.Fit)
    (tb ts tv tv2 : Now) :
    x.received tv tv2 ((replyText (probeText j tb) ts).take 256) =
      { x with
        pc := .top
        i := x.i + 1
        lines := x.lines ++ [lineText x.args.host x.args.port j tb ts tv tv2] } := by
  have hlen := length_reply hj tb ts
  have hne : replyText (probeText j tb) ts ≠ [] := by simp [replyText, probeText, ascii]
  rw [EchoClient.received, List.take_of_length_le (by omega), if_neg hne,
    display_reply hj hfit tb ts tv tv2]

/-- What the server has received is the request as it was sent. -/
theorem take_request {j : ℕ} (hj : IsSeq j) (tb : Now) :
    (probeText j tb).take 128 = probeText j tb :=
  List.take_of_length_le (by have hlen := length_request hj tb; omega)

namespace EchoClient.Counted

variable {x : EchoClient} (h : x.Counted)

include h

theorem isSeq {j : ℕ} {q : ℤ × Now} (hj : x.asked[j]? = some q) : IsSeq j := by
  have hlt := (List.getElem?_eq_some_iff.1 hj).1
  have hsmall := h.small
  exact ⟨by omega, by omega⟩

/-- The number that a client is about to send. -/
theorem next (hi : x.i < x.args.packNum) : IsSeq x.i := by
  have hlines := h.lines
  have hpack := x.args.packNum_lt
  exact ⟨by omega, by omega⟩

/-- The next request. -/
theorem send (hpc : x.pc = .top) (hi : x.i < x.args.packNum) (tb : Now) :
    Counted { x with pc := .sent, asked := x.asked ++ [(x.i, tb)] } := by
  have hlines := h.lines
  have htop := h.top hpc
  have hpack := x.args.packNum_lt
  refine ⟨hlines, fun j q hq => ?_, ?_, by simp, fun _ => ?_, by simp, ?_, by simp⟩
  · rcases lt_or_ge j x.asked.length with hj | hj
    · exact h.numbers j q (by rwa [List.getElem?_append_left hj] at hq)
    · rw [List.getElem?_append_right hj, List.getElem?_singleton] at hq
      split_ifs at hq with hzero
      cases hq
      dsimp only
      omega
  · simp only [List.length_append, List.length_singleton, Nat.cast_add, Nat.cast_one]
    omega
  · simp only [List.length_append, List.length_singleton, htop]
  · simp only [List.length_append, List.length_singleton, htop, le_refl]

theorem stamp (hpc : x.pc = .sent) (tv : Now) : Counted { x with pc := .waiting tv } :=
  ⟨h.lines, h.numbers, h.small, by simp, by simp, fun _ _ => h.sent hpc, h.le, by simp⟩

theorem goesOff : Counted { x with pc := .off } :=
  ⟨h.lines, h.numbers, h.small, by simp, by simp, by simp, h.le, by simp⟩

/-- The next line. -/
theorem print {tv : Now} (hpc : x.pc = .waiting tv) (line : List UInt8) :
    Counted { x with pc := .top, i := x.i + 1, lines := x.lines ++ [line] } := by
  have hlines := h.lines
  have hwait := h.waiting tv hpc
  refine ⟨?_, h.numbers, h.small, fun _ => ?_, by simp, by simp, ?_, by simp⟩
  · simp only [List.length_append, List.length_singleton, Nat.cast_add, Nat.cast_one, hlines]
  · rw [hwait, List.length_append, List.length_singleton]
  · simp only [hwait, List.length_append, List.length_singleton, Nat.le_succ]

end EchoClient.Counted

/-! ### Every line is genuine -/

theorem echoInv_init (args : ℕ → EchoArgs) : EchoInv args (echoInit args) where
  args _ := rfl
  counted _ := ⟨rfl, by simp [echoInit], by simp [echoInit], fun _ => rfl, by simp [echoInit],
    by simp [echoInit], by simp [echoInit], by simp [echoInit]⟩
  net d hd := by simp [echoInit] at hd
  held c bytes h := by simp [echoInit] at h
  lines c k line h := by simp [echoInit] at h

namespace EchoInv

/-- The number of a genuine request. -/
theorem number (h : EchoInv args s) {c j : ℕ} {tb : Now} (ha : s.Asked c j tb) :
    IsSeq j ∧ j < (s.clients c).asked.length :=
  ⟨(h.counted c).isSeq ha, (List.getElem?_eq_some_iff.1 ha).1⟩

theorem lt_of_shows (h : EchoInv args s) {c j : ℕ} {line : List UInt8} (hs : s.Shows c j line) :
    j < (s.clients c).asked.length := by
  obtain ⟨tb, ts, tv, tv2, ha, -⟩ := hs
  exact (h.number ha.1).2

/-- A step that leaves the clients as they are. -/
theorem of_net (h : EchoInv args s) (hlater : s.Later t) (hclients : t.clients = s.clients)
    (hnet : ∀ d ∈ t.net, d ∈ s.net ∨ ∃ j, t.Of j d)
    (hheld : ∀ c bytes, t.held = some (c, bytes) →
      s.held = some (c, bytes) ∨ ∃ j, t.Of j (.request c bytes)) : EchoInv args t where
  args c := (hlater.args c).trans (h.args c)
  counted c := by rw [hclients]; exact h.counted c
  net d hd := (hnet d hd).elim (fun hs => (h.net d hs).imp fun _ => hlater.of) id
  held c bytes hc := (hheld c bytes hc).elim (fun hs => (h.held c bytes hs).imp fun _ => hlater.of) id
  lines c k line hk := by
    rw [hclients] at hk
    obtain ⟨j, hj, hshows⟩ := h.lines c k line hk
    exact ⟨j, hj, hlater.shows hshows⟩

/-- A step of a client. -/
theorem of_client (h : EchoInv args s) {c : ℕ} {x : EchoClient} {net : Multiset Datagram}
    (hlater : s.Later { s.setClient c x with net := net }) (hcounted : x.Counted)
    (hnet : ∀ d ∈ net, d ∈ s.net ∨ ∃ j, EchoSys.Of { s.setClient c x with net := net } j d)
    (hlines : ∀ k line, x.lines[k]? = some line → (s.clients c).lines[k]? = some line ∨
      ∃ j ≤ k, EchoSys.Shows { s.setClient c x with net := net } c j line) :
    EchoInv args { s.setClient c x with net := net } where
  args c := (hlater.args c).trans (h.args c)
  counted := (Function.forall_update_iff _ fun _ => EchoClient.Counted).2
    ⟨hcounted, fun c _ => h.counted c⟩
  net d hd := (hnet d hd).elim (fun hs => (h.net d hs).imp fun _ => hlater.of) id
  held c bytes hc := (h.held c bytes hc).imp fun _ => hlater.of
  lines c' k line hk := by
    have hold : (s.clients c').lines[k]? = some line ∨
        ∃ j ≤ k, EchoSys.Shows { s.setClient c x with net := net } c' j line := by
      by_cases hc : c' = c
      · subst hc
        exact hlines k line (by simpa [EchoSys.setClient] using hk)
      · exact .inl (by simpa [EchoSys.setClient, hc] using hk)
    rcases hold with hs | hj
    · obtain ⟨j, hj, hshows⟩ := h.lines c' k line hs
      exact ⟨j, hj, hlater.shows hshows⟩
    · exact hj

end EchoInv

@[simp] theorem asked_setClient {c j : ℕ} {x : EchoClient} {net : Multiset Datagram} {tb : Now} :
    EchoSys.Asked { s.setClient c x with net := net } c j tb ↔ x.asked[j]? = some ((j : ℤ), tb) := by
  simp [EchoSys.Asked, EchoSys.setClient]

/-- What a client does with an answer to its request `j`. -/
theorem EchoInv.received_of (h : EchoInv args s) {c j : ℕ} {bytes : List UInt8}
    (hof : s.Of j (.reply c bytes)) (hfit : (args c).Fit) (tv tv2 : Now) :
    ∃ line, s.Shows c j line ∧ (s.clients c).received tv tv2 (bytes.take 256) =
      { s.clients c with
        pc := .top
        i := (s.clients c).i + 1
        lines := (s.clients c).lines ++ [line] } := by
  obtain ⟨tb, ts, ha, rfl⟩ := hof
  have hfit' : (s.clients c).args.Fit := by
    rw [h.args]
    exact hfit
  exact ⟨_, ⟨tb, ts, tv, tv2, ha, rfl⟩, received_reply (h.number ha.1).1 hfit' tb ts tv tv2⟩

theorem echoInv_step {a : EchoAct} (hfit : ∀ c, (args c).Fit) (h : EchoInv args s)
    (hstep : echoStep s a = some t) : EchoInv args t := by
  have hlater := echoStep_later hstep
  cases a with
  | send c tb =>
    simp only [echoStep] at hstep
    split_ifs at hstep with hpc
    cases hstep
    refine h.of_client hlater ((h.counted c).send hpc.1 hpc.2 tb) (fun d hd => ?_) fun _ _ => .inl
    rcases Multiset.mem_cons.1 hd with rfl | hd
    · have hi : (((s.clients c).asked.length : ℕ) : ℤ) = (s.clients c).i := by
        rw [(h.counted c).top hpc.1, (h.counted c).lines]
      refine .inr ⟨(s.clients c).asked.length, tb, asked_setClient.2 ?_, by rw [hi]⟩
      rw [List.getElem?_concat_length, hi]
    · exact .inl hd
  | sendFail c =>
    simp only [echoStep] at hstep
    split_ifs at hstep
    cases hstep
    exact h.of_client hlater (h.counted c).goesOff (fun _ => .inl) fun _ _ => .inl
  | stamp c tv =>
    simp only [echoStep] at hstep
    split_ifs at hstep with hpc
    cases hstep
    exact h.of_client hlater ((h.counted c).stamp hpc tv) (fun _ => .inl) fun _ _ => .inl
  | recv c bytes tv2 =>
    simp only [echoStep] at hstep
    split at hstep
    next tv hpc =>
      split_ifs at hstep with hmem
      cases hstep
      obtain ⟨j, hof⟩ := h.net _ hmem
      obtain ⟨line', hshows, hrec⟩ := h.received_of hof (hfit c) tv tv2
      rw [hrec] at hlater ⊢
      refine h.of_client hlater ((h.counted c).print hpc _)
        (fun d hd => .inl (Multiset.mem_of_mem_erase hd)) fun k line hk => ?_
      rcases lt_or_ge k (s.clients c).lines.length with hlt | hge
      · exact .inl (by rwa [List.getElem?_append_left hlt] at hk)
      · rw [List.getElem?_append_right hge, List.getElem?_singleton] at hk
        split_ifs at hk
        cases hk
        have hwait := (h.counted c).waiting tv hpc
        have hj := h.lt_of_shows hshows
        exact .inr ⟨j, by omega, hlater.shows hshows⟩
    · cases hstep
  | recvFail c =>
    simp only [echoStep] at hstep
    split at hstep <;> cases hstep
    exact h.of_client hlater (h.counted c).goesOff (fun _ => .inl) fun _ _ => .inl
  | serve c bytes =>
    simp only [echoStep] at hstep
    split_ifs at hstep with hpc
    cases hstep
    refine h.of_net hlater rfl (fun d hd => .inl (Multiset.mem_of_mem_erase hd)) ?_
    intro c' bytes' hheld
    obtain ⟨rfl, rfl⟩ := Prod.mk.inj (Option.some.inj hheld)
    obtain ⟨j, tb, ha, rfl⟩ := h.net _ hpc.2.2
    exact .inr ⟨j, tb, hlater.of_asked ha, take_request (h.number ha).1 tb⟩
  | serveFail =>
    simp only [echoStep] at hstep
    split_ifs at hstep
    cases hstep
    exact h.of_net hlater rfl (fun _ => .inl) fun _ _ => .inl
  | answer ts =>
    simp only [echoStep] at hstep
    split at hstep
    next c bytes hheld =>
      cases hstep
      refine h.of_net hlater rfl (fun d hd => ?_) nofun
      rcases Multiset.mem_cons.1 hd with rfl | hd
      · obtain ⟨j, tb, ha, rfl⟩ := h.held c bytes hheld
        exact .inr ⟨j, tb, ts, ⟨hlater.of_asked ha, List.mem_append_right _ List.mem_cons_self⟩, rfl⟩
      · exact .inl hd
    · cases hstep
  | lose d =>
    simp only [echoStep] at hstep
    split_ifs at hstep
    cases hstep
    exact h.of_net hlater rfl (fun d hd => .inl (Multiset.mem_of_mem_erase hd)) fun _ _ => .inl
  | copy d =>
    simp only [echoStep] at hstep
    split_ifs at hstep with hmem
    cases hstep
    refine h.of_net hlater rfl (fun d' hd => .inl ?_) fun _ _ => .inl
    rcases Multiset.mem_cons.1 hd with rfl | hd
    · exact hmem
    · exact hd

/-- Along every run. -/
theorem echoInv_run (hfit : ∀ c, (args c).Fit) {acts : List EchoAct}
    (hrun : Lts.run echoStep (echoInit args) acts = some t) : EchoInv args t :=
  Lts.run_invariant (fun _ _ _ h hstep => echoInv_step hfit h hstep) (echoInv_init args) hrun

theorem EchoInv.buffers (h : EchoInv args s) : s.Buffers where
  line c := (h.counted c).safe
  request c tb _ hi := by
    have hlen := length_request ((h.counted c).next hi) tb
    omega
  answer c bytes ts hheld := by
    obtain ⟨j, tb, ha, rfl⟩ := h.held c bytes hheld
    have hlen := length_reply (h.number ha).1 tb ts
    omega
  net d hd := by
    obtain ⟨j, hof⟩ := h.net d hd
    cases d with
    | request c bytes =>
      obtain ⟨tb, ha, rfl⟩ := hof
      exact (length_request (h.number ha).1 tb).trans (show 60 ≤ 128 by decide)
    | reply c bytes =>
      obtain ⟨tb, ts, ha, rfl⟩ := hof
      exact (length_reply (h.number ha.1).1 tb ts).trans (show 102 ≤ 256 by decide)

/-- **What a client prints is genuine**, whatever the network loses, duplicates and reorders: the
line `k` is for one of the requests up to the request `k` and for an answer that the server has
given to it, with the number and the time of the request and the time of the answer. No buffer of a
client or of the server is left. -/
theorem echo_genuine (args : ℕ → EchoArgs) (hfit : ∀ c, (args c).Fit) (acts : List EchoAct)
    (t : EchoSys) (hrun : Lts.run echoStep (echoInit args) acts = some t) :
    t.Buffers ∧
      ∀ c k line, (t.clients c).lines[k]? = some line →
        ∃ j ≤ k, ∃ tb ts tv tv2, t.Answered c j tb ts ∧
          line = lineText (args c).host (args c).port j tb ts tv tv2 := by
  have h := echoInv_run hfit hrun
  refine ⟨h.buffers, fun c k line hk => ?_⟩
  obtain ⟨j, hj, tb, ts, tv, tv2, ha, rfl⟩ := h.lines c k line hk
  exact ⟨j, hj, tb, ts, tv, tv2, ha, by rw [h.args]⟩

/-- Three requests to a server on this host. -/
def localArgs : EchoArgs := ⟨ascii "127.0.0.1", ascii "9", 3, by norm_num⟩

/-- A time of some seconds. -/
def nowOf (sec : Fin 1000) : Now :=
  ⟨⟨sec, 0⟩, by have h := sec.2; constructor <;> dsimp only <;> omega⟩

/-- The answer to the request 0 comes twice, and the client takes it for the answer to the request 1
as well. -/
def staleActs : List EchoAct :=
  let reply := replyText (probeText 0 (nowOf 1)) (nowOf 2)
  [.send 0 (nowOf 1), .serve 0 (probeText 0 (nowOf 1)), .answer (nowOf 2), .copy (.reply 0 reply),
    .stamp 0 (nowOf 3), .recv 0 reply (nowOf 4), .send 0 (nowOf 5), .stamp 0 (nowOf 6),
    .recv 0 reply (nowOf 7)]

theorem echo_genuine_stale : ∃ t,
    Lts.run echoStep (echoInit fun _ => localArgs) staleActs = some t ∧
      t.Buffers ∧
      ∀ c k line, (t.clients c).lines[k]? = some line →
        ∃ j ≤ k, ∃ tb ts tv tv2, t.Answered c j tb ts ∧
          line = lineText localArgs.host localArgs.port j tb ts tv tv2 := by
  have hrun : (Lts.run echoStep (echoInit fun _ => localArgs) staleActs).isSome := by decide
  obtain ⟨t, ht⟩ := Option.isSome_iff_exists.1 hrun
  exact ⟨t, ht, echo_genuine _ (fun _ => by decide) _ t ht⟩

/-! ### Without duplicates -/

theorem countP_erase {p : Datagram → Prop} [DecidablePred p] {net : Multiset Datagram} {d : Datagram}
    (hd : d ∈ net) : net.countP p = (net.erase d).countP p + if p d then 1 else 0 := by
  conv_lhs => rw [← Multiset.cons_erase hd]
  rw [Multiset.countP_cons]

theorem flying_of_none (h : s.held = none) (c : ℕ) :
    s.flying c = s.net.countP fun d => d.client = c := by simp [EchoSys.flying, h]

theorem flying_of_some {c : ℕ} {bytes : List UInt8} (h : s.held = some (c, bytes)) (c' : ℕ) :
    s.flying c' = (s.net.countP fun d => d.client = c') + if c = c' then 1 else 0 := by
  by_cases hc : c = c' <;> simp [EchoSys.flying, h, hc]

theorem flying_cons {d : Datagram} (hheld : t.held = s.held) (hnet : t.net = d ::ₘ s.net) (c : ℕ) :
    t.flying c = s.flying c + if d.client = c then 1 else 0 := by
  rw [EchoSys.flying, EchoSys.flying, hheld, hnet, Multiset.countP_cons, Nat.add_right_comm]

theorem flying_erase {d : Datagram} (hd : d ∈ s.net) (hheld : t.held = s.held)
    (hnet : t.net = s.net.erase d) (c : ℕ) :
    s.flying c = t.flying c + if d.client = c then 1 else 0 := by
  rw [EchoSys.flying, EchoSys.flying, hheld, hnet, countP_erase hd, Nat.add_right_comm]

theorem send_cases {c : ℕ} {tb : Now} (h : echoStep s (.send c tb) = some t) :
    (s.clients c).pc = .top ∧
      t.clients = Function.update s.clients c { s.clients c with
        pc := .sent, asked := (s.clients c).asked ++ [((s.clients c).i, tb)] } ∧
      t.net = .request c (probeText (s.clients c).i tb) ::ₘ s.net ∧
      t.held = s.held ∧ t.lost = s.lost := by
  simp only [echoStep] at h
  split_ifs at h with hpc
  cases h
  exact ⟨hpc.1, rfl, rfl, rfl, rfl⟩

theorem recv_cases {c : ℕ} {bytes : List UInt8} {tv2 : Now}
    (h : echoStep s (.recv c bytes tv2) = some t) :
    ∃ tv, (s.clients c).pc = .waiting tv ∧ .reply c bytes ∈ s.net ∧
      t.clients = Function.update s.clients c
        ((s.clients c).received tv tv2 (bytes.take 256)) ∧
      t.net = s.net.erase (.reply c bytes) ∧ t.held = s.held ∧ t.lost = s.lost := by
  simp only [echoStep] at h
  split at h
  next tv hpc =>
    split_ifs at h with hmem
    cases h
    exact ⟨tv, hpc, hmem, rfl, rfl, rfl, rfl⟩
  · cases h

/-- A client at another place. -/
theorem setClient_pc (s : EchoSys) (c : ℕ) (pc : EchoPc) (c' : ℕ) :
    ((s.setClient c { s.clients c with pc := pc }).clients c').asked = (s.clients c').asked ∧
      ((s.setClient c { s.clients c with pc := pc }).clients c').lines = (s.clients c').lines := by
  by_cases hc : c' = c
  · subst hc
    simp [EchoSys.setClient]
  · simp [EchoSys.setClient, hc]

/-- One request of a client at a time. -/
structure EchoSys.OneAtATime (s : EchoSys) : Prop where
  balance : ∀ c, (s.clients c).asked.length =
    (s.clients c).lines.length + s.flying c + s.losses c
  last : ∀ d ∈ s.net, ∃ j, s.Of j d ∧ j + 1 = (s.clients d.client).asked.length
  held : ∀ c bytes, s.held = some (c, bytes) →
    ∃ j, s.Of j (.request c bytes) ∧ j + 1 = (s.clients c).asked.length
  lines : ∀ c k line, (s.clients c).lines[k]? = some line → s.Shows c k line

theorem oneAtATime_init (args : ℕ → EchoArgs) : (echoInit args).OneAtATime where
  balance _ := rfl
  last d hd := by simp [echoInit] at hd
  held c bytes h := by simp [echoInit] at h
  lines c k line h := by simp [echoInit] at h

namespace EchoSys.OneAtATime

theorem one (h : s.OneAtATime) (hinv : EchoInv args s) (c : ℕ) :
    s.flying c + s.losses c ≤ 1 := by
  have hle := (hinv.counted c).le
  have hbal := h.balance c
  omega

/-- At the head of the loop nothing is on its way. -/
theorem idle (h : s.OneAtATime) (hinv : EchoInv args s) {c : ℕ} (hpc : (s.clients c).pc = .top) :
    s.flying c = 0 ∧ s.losses c = 0 := by
  have htop := (hinv.counted c).top hpc
  have hbal := h.balance c
  omega

theorem flying_pos {c : ℕ} {d : Datagram} (hd : d ∈ s.net) (hc : d.client = c) : 0 < s.flying c :=
  Nat.lt_add_right _ (Multiset.countP_pos.2 ⟨d, hd, hc⟩)

/-- A step that changes neither the clients nor what is known of a datagram. -/
theorem of_net (h : s.OneAtATime) (hlater : s.Later t) (hclients : t.clients = s.clients)
    (hcount : ∀ c, t.flying c + t.losses c = s.flying c + s.losses c)
    (hlast : ∀ d ∈ t.net, d ∈ s.net ∨
      ∃ j, t.Of j d ∧ j + 1 = (t.clients d.client).asked.length)
    (hheld : ∀ c bytes, t.held = some (c, bytes) → s.held = some (c, bytes) ∨
      ∃ j, t.Of j (.request c bytes) ∧ j + 1 = (t.clients c).asked.length) : t.OneAtATime where
  balance c := by
    have hbal := h.balance c
    have hc := hcount c
    rw [hclients]
    omega
  last d hd := by
    rcases hlast d hd with hs | hj
    · obtain ⟨j, hof, hj⟩ := h.last d hs
      exact ⟨j, hlater.of hof, by rw [hclients]; exact hj⟩
    · exact hj
  held c bytes hc := by
    rcases hheld c bytes hc with hs | hj
    · obtain ⟨j, hof, hj⟩ := h.held c bytes hs
      exact ⟨j, hlater.of hof, by rw [hclients]; exact hj⟩
    · exact hj
  lines c k line hk := by
    rw [hclients] at hk
    exact hlater.shows (h.lines c k line hk)

/-- A step at a client that neither sends nor prints. -/
theorem of_pc (h : s.OneAtATime) (c : ℕ) (pc : EchoPc) :
    (s.setClient c { s.clients c with pc := pc }).OneAtATime := by
  have hlater : s.Later (s.setClient c { s.clients c with pc := pc }) := .set s rfl List.prefix_rfl
  have hsame := setClient_pc s c pc
  refine ⟨fun c' => ?_, fun d hd => ?_, fun c' bytes hheld => ?_, fun c' k line hk => ?_⟩
  · rw [(hsame c').1, (hsame c').2]
    exact h.balance c'
  · obtain ⟨j, hof, hj⟩ := h.last d hd
    exact ⟨j, hlater.of hof, by rw [(hsame _).1]; exact hj⟩
  · obtain ⟨j, hof, hj⟩ := h.held c' bytes hheld
    exact ⟨j, hlater.of hof, by rw [(hsame _).1]; exact hj⟩
  · rw [(hsame c').2] at hk
    exact hlater.shows (h.lines c' k line hk)

/-- The next request. -/
theorem send (h : s.OneAtATime) (hinv : EchoInv args s) {c : ℕ} {tb : Now}
    (hstep : echoStep s (.send c tb) = some t) : t.OneAtATime := by
  have hlater := echoStep_later hstep
  obtain ⟨hpc, hclients, hnet, hheld, hlost⟩ := send_cases hstep
  obtain ⟨hfly, hloss⟩ := h.idle hinv hpc
  have hi : (((s.clients c).asked.length : ℕ) : ℤ) = (s.clients c).i := by
    rw [(hinv.counted c).top hpc, (hinv.counted c).lines]
  have hother : ∀ c' ≠ c, t.clients c' = s.clients c' := fun c' hc => by
    rw [hclients, Function.update_of_ne hc]
  refine ⟨fun c' => ?_, fun d hd => ?_, fun c' bytes hc' => ?_, fun c' k line hk => ?_⟩
  · have hbal := h.balance c'
    have hfly' := flying_cons hheld hnet c'
    rw [client_request] at hfly'
    rw [EchoSys.losses, hlost, ← EchoSys.losses]
    by_cases hc : c' = c
    · subst hc
      rw [if_pos rfl] at hfly'
      rw [hclients, Function.update_self]
      simp only [List.length_append, List.length_singleton]
      omega
    · rw [if_neg (Ne.symm hc)] at hfly'
      rw [hother c' hc]
      omega
  · rw [hnet] at hd
    rcases Multiset.mem_cons.1 hd with rfl | hd
    · refine ⟨(s.clients c).asked.length, ⟨tb, ?_, by rw [hi]⟩, ?_⟩
      · rw [EchoSys.Asked, hclients, Function.update_self, List.getElem?_concat_length, hi]
      · rw [client_request, hclients, Function.update_self, List.length_append,
          List.length_singleton]
    · obtain ⟨j, hof, hj⟩ := h.last d hd
      have hc : d.client ≠ c := fun hc => by
        have hpos := flying_pos hd hc
        omega
      exact ⟨j, hlater.of hof, by rw [hother _ hc, hj]⟩
  · rw [hheld] at hc'
    have hc : c' ≠ c := by
      rintro rfl
      rw [EchoSys.flying, hc', Option.map_some, if_pos rfl] at hfly
      omega
    obtain ⟨j, hof, hj⟩ := h.held c' bytes hc'
    exact ⟨j, hlater.of hof, by rw [hother c' hc, hj]⟩
  · refine hlater.shows (h.lines c' k line ?_)
    by_cases hc : c' = c
    · subst hc
      rwa [hclients, Function.update_self] at hk
    · rwa [hother c' hc] at hk

/-- The answer. -/
theorem recv (h : s.OneAtATime) (hinv : EchoInv args s) {c : ℕ} (hfit : (args c).Fit)
    {bytes : List UInt8} {tv2 : Now} (hstep : echoStep s (.recv c bytes tv2) = some t) :
    t.OneAtATime := by
  have hlater := echoStep_later hstep
  obtain ⟨tv, hpc, hmem, hclients, hnet, hheld, hlost⟩ := recv_cases hstep
  obtain ⟨j, hof, hj⟩ := h.last _ hmem
  obtain ⟨line', hshows, hrec⟩ := hinv.received_of hof hfit tv tv2
  rw [hrec] at hclients
  rw [client_reply] at hj
  have hwait := (hinv.counted c).waiting tv hpc
  have hother : ∀ c' ≠ c, t.clients c' = s.clients c' := fun c' hc => by
    rw [hclients, Function.update_of_ne hc]
  have hasked : ∀ c', (t.clients c').asked = (s.clients c').asked := by
    intro c'
    by_cases hc : c' = c
    · rw [hclients, hc, Function.update_self]
    · rw [hother c' hc]
  refine ⟨fun c' => ?_, fun d hd => ?_, fun c' bytes hc' => ?_, fun c' k line hk => ?_⟩
  · have hbal := h.balance c'
    have hfly := flying_erase hmem hheld hnet c'
    rw [client_reply] at hfly
    rw [hasked, EchoSys.losses, hlost, ← EchoSys.losses]
    by_cases hc : c' = c
    · subst hc
      rw [if_pos rfl] at hfly
      rw [hclients, Function.update_self, List.length_append, List.length_singleton]
      omega
    · rw [if_neg (Ne.symm hc)] at hfly
      rw [hother c' hc]
      omega
  · rw [hnet] at hd
    obtain ⟨j', hof', hj'⟩ := h.last d (Multiset.mem_of_mem_erase hd)
    exact ⟨j', hlater.of hof', by rw [hasked, hj']⟩
  · rw [hheld] at hc'
    obtain ⟨j', hof', hj'⟩ := h.held c' bytes hc'
    exact ⟨j', hlater.of hof', by rw [hasked, hj']⟩
  · by_cases hc : c' = c
    · subst hc
      rw [hclients, Function.update_self] at hk
      rcases lt_or_ge k (s.clients c').lines.length with hlt | hge
      · exact hlater.shows (h.lines c' k line (by rwa [List.getElem?_append_left hlt] at hk))
      · -- the answer is to the last request, which has the number of the line
        rw [List.getElem?_append_right hge, List.getElem?_singleton] at hk
        split_ifs at hk
        cases hk
        obtain rfl : k = j := by omega
        exact hlater.shows hshows
    · rw [hother c' hc] at hk
      exact hlater.shows (h.lines c' k line hk)

theorem step (h : s.OneAtATime) (hinv : EchoInv args s) (hfit : ∀ c, (args c).Fit) {a : EchoAct}
    (hcopy : ∀ d, a ≠ .copy d) (hstep : echoStep s a = some t) : t.OneAtATime := by
  cases a with
  | send c tb => exact h.send hinv hstep
  | recv c bytes tv2 => exact h.recv hinv (hfit c) hstep
  | copy d => exact absurd rfl (hcopy d)
  | sendFail c | stamp c tv =>
    simp only [echoStep] at hstep
    split_ifs at hstep
    cases hstep
    exact h.of_pc c _
  | recvFail c =>
    simp only [echoStep] at hstep
    split at hstep <;> cases hstep
    exact h.of_pc c _
  | serve c bytes =>
    have hlater := echoStep_later hstep
    simp only [echoStep] at hstep
    split_ifs at hstep with hpc
    obtain ⟨-, hnone, hmem⟩ := hpc
    cases hstep
    refine h.of_net hlater rfl (fun c' => ?_) (fun d hd => .inl (Multiset.mem_of_mem_erase hd)) ?_
    · rw [flying_of_none hnone, flying_of_some rfl, countP_erase hmem]
      rfl
    · intro c' bytes' hheld
      obtain ⟨rfl, rfl⟩ := Prod.mk.inj (Option.some.inj hheld)
      obtain ⟨j, ⟨tb, ha, rfl⟩, hj⟩ := h.last _ hmem
      exact .inr ⟨j, ⟨tb, hlater.of_asked ha, take_request (hinv.number ha).1 tb⟩, hj⟩
  | serveFail =>
    have hlater := echoStep_later hstep
    simp only [echoStep] at hstep
    split_ifs at hstep
    cases hstep
    exact h.of_net hlater rfl (fun _ => rfl) (fun _ => .inl) fun _ _ => .inl
  | answer ts =>
    have hlater := echoStep_later hstep
    simp only [echoStep] at hstep
    split at hstep
    next c bytes hheld =>
      cases hstep
      refine h.of_net hlater rfl (fun c' => ?_) (fun d hd => ?_) nofun
      · rw [flying_of_none rfl, flying_of_some hheld, Multiset.countP_cons]
        rfl
      · rcases Multiset.mem_cons.1 hd with rfl | hd
        · obtain ⟨j, ⟨tb, ha, rfl⟩, hj⟩ := h.held c bytes hheld
          exact .inr ⟨j, ⟨tb, ts, ⟨hlater.of_asked ha,
            List.mem_append_right _ List.mem_cons_self⟩, rfl⟩, hj⟩
        · exact .inl hd
    · cases hstep
  | lose d =>
    have hlater := echoStep_later hstep
    simp only [echoStep] at hstep
    split_ifs at hstep with hmem
    cases hstep
    refine h.of_net hlater rfl (fun c => ?_) (fun d hd => .inl (Multiset.mem_of_mem_erase hd))
      fun _ _ => .inl
    simp only [EchoSys.flying, EchoSys.losses, countP_erase hmem, List.countP_append,
      List.countP_singleton, decide_eq_true_eq]
    omega

end EchoSys.OneAtATime

/-- Both invariants, along every run without duplicates. -/
theorem oneAtATime_run (hfit : ∀ c, (args c).Fit) {acts : List EchoAct}
    (hcopy : ∀ a ∈ acts, ∀ d, a ≠ .copy d)
    (hrun : Lts.run echoStep (echoInit args) acts = some t) : EchoInv args t ∧ t.OneAtATime :=
  Lts.run_invariant_of_mem (I := fun s => EchoInv args s ∧ s.OneAtATime)
    (p := fun a => ∀ d, a ≠ .copy d)
    (fun _ _ _ h hcopy hstep => ⟨echoInv_step hfit h.1 hstep, h.2.step h.1 hfit hcopy hstep⟩)
    ⟨echoInv_init args, oneAtATime_init args⟩ hcopy hrun

/-- **Lock-step**: as long as the network duplicates nothing, the line `k` of a client is for its
request `k`. Each of its requests has its line, or it or its answer is on its way, or one of them is
lost; there is no more than one without a line. -/
theorem echo_lockstep (args : ℕ → EchoArgs) (hfit : ∀ c, (args c).Fit) (acts : List EchoAct)
    (hcopy : ∀ a ∈ acts, ∀ d, a ≠ .copy d) (t : EchoSys)
    (hrun : Lts.run echoStep (echoInit args) acts = some t) (c : ℕ) :
    (t.clients c).asked.length = (t.clients c).lines.length + t.flying c + t.losses c ∧
      t.flying c + t.losses c ≤ 1 ∧
      ∀ k line, (t.clients c).lines[k]? = some line →
        ∃ tb ts tv tv2, t.Answered c k tb ts ∧
          line = lineText (args c).host (args c).port k tb ts tv tv2 := by
  obtain ⟨hinv, h⟩ := oneAtATime_run hfit hcopy hrun
  refine ⟨h.balance c, h.one hinv c, fun k line hk => ?_⟩
  obtain ⟨tb, ts, tv, tv2, ha, rfl⟩ := h.lines c k line hk
  exact ⟨tb, ts, tv, tv2, ha, by rw [hinv.args]⟩

/-- The first round succeeds, and the request of the second is lost. -/
def lossyActs : List EchoAct :=
  let reply := replyText (probeText 0 (nowOf 1)) (nowOf 2)
  [.send 0 (nowOf 1), .serve 0 (probeText 0 (nowOf 1)), .answer (nowOf 2), .stamp 0 (nowOf 3),
    .recv 0 reply (nowOf 4), .send 0 (nowOf 5), .lose (.request 0 (probeText 1 (nowOf 5)))]

theorem echo_lockstep_lossy : ∃ t,
    Lts.run echoStep (echoInit fun _ => localArgs) lossyActs = some t ∧
      (t.clients 0).asked.length = (t.clients 0).lines.length + t.flying 0 + t.losses 0 ∧
      t.flying 0 + t.losses 0 ≤ 1 ∧
      ∀ k line, (t.clients 0).lines[k]? = some line →
        ∃ tb ts tv tv2, t.Answered 0 k tb ts ∧
          line = lineText localArgs.host localArgs.port k tb ts tv tv2 := by
  have hrun : (Lts.run echoStep (echoInit fun _ => localArgs) lossyActs).isSome := by decide
  obtain ⟨t, ht⟩ := Option.isSome_iff_exists.1 hrun
  exact ⟨t, ht, echo_lockstep _ (fun _ => by decide) _ (by simp [lossyActs]) t ht 0⟩

/-- A step of the programs or of the network when a datagram of the client `c` is lost. -/
theorem EchoSys.OneAtATime.lost_step (h : s.OneAtATime) (hinv : EchoInv args s) {c : ℕ}
    (hlost : 0 < s.losses c) {a : EchoAct} (hstep : echoStep s a = some t) :
    (t.clients c).asked = (s.clients c).asked ∧ (t.clients c).lines = (s.clients c).lines ∧
      0 < t.losses c := by
  have hone := h.one hinv c
  cases a with
  | send c' tb =>
    obtain ⟨hpc, hclients, -, -, hlost'⟩ := send_cases hstep
    have hc : c ≠ c' := by
      rintro rfl
      have hidle := h.idle hinv hpc
      omega
    rw [hclients, Function.update_of_ne hc, EchoSys.losses, hlost']
    exact ⟨rfl, rfl, hlost⟩
  | recv c' bytes tv2 =>
    obtain ⟨tv, -, hmem, hclients, -, -, hlost'⟩ := recv_cases hstep
    have hc : c ≠ c' := by
      rintro rfl
      have hpos := EchoSys.OneAtATime.flying_pos hmem (client_reply c bytes)
      omega
    rw [hclients, Function.update_of_ne hc, EchoSys.losses, hlost']
    exact ⟨rfl, rfl, hlost⟩
  | sendFail c' | stamp c' tv =>
    simp only [echoStep] at hstep
    split_ifs at hstep
    cases hstep
    exact ⟨(setClient_pc s c' _ c).1, (setClient_pc s c' _ c).2, hlost⟩
  | recvFail c' =>
    simp only [echoStep] at hstep
    split at hstep <;> cases hstep
    exact ⟨(setClient_pc s c' _ c).1, (setClient_pc s c' _ c).2, hlost⟩
  | serve c' bytes | serveFail | copy d =>
    simp only [echoStep] at hstep
    split_ifs at hstep
    cases hstep
    exact ⟨rfl, rfl, hlost⟩
  | answer ts =>
    simp only [echoStep] at hstep
    split at hstep <;> cases hstep
    exact ⟨rfl, rfl, hlost⟩
  | lose d =>
    simp only [echoStep] at hstep
    split_ifs at hstep
    cases hstep
    refine ⟨rfl, rfl, ?_⟩
    rw [EchoSys.losses, List.countP_append]
    exact Nat.lt_add_right _ hlost

/-- **A lost datagram silences its client**, which waits for ever: in no continuation of the run
does it send or print anything. -/
theorem lost_silences (args : ℕ → EchoArgs) (hfit : ∀ c, (args c).Fit) (acts more : List EchoAct)
    (hcopy : ∀ a ∈ acts ++ more, ∀ d, a ≠ .copy d) (t u : EchoSys)
    (hrun : Lts.run echoStep (echoInit args) acts = some t)
    (hmore : Lts.run echoStep t more = some u) (c : ℕ) (hlost : 0 < t.losses c) :
    (u.clients c).asked = (t.clients c).asked ∧ (u.clients c).lines = (t.clients c).lines := by
  have hstart := oneAtATime_run hfit (fun a ha => hcopy a (List.mem_append_left _ ha)) hrun
  have hend := Lts.run_invariant_of_mem
    (I := fun s => (EchoInv args s ∧ s.OneAtATime) ∧ (s.clients c).asked = (t.clients c).asked ∧
      (s.clients c).lines = (t.clients c).lines ∧ 0 < s.losses c)
    (p := fun a => ∀ d, a ≠ .copy d) (fun _ _ _ h hcopy hstep => by
      obtain ⟨⟨hinv, h⟩, hasked, hlines, hlost⟩ := h
      obtain ⟨hasked', hlines', hlost'⟩ := h.lost_step hinv hlost hstep
      exact ⟨⟨echoInv_step hfit hinv hstep, h.step hinv hfit hcopy hstep⟩,
        hasked'.trans hasked, hlines'.trans hlines, hlost'⟩)
    ⟨hstart, rfl, rfl, hlost⟩ (fun a ha => hcopy a (List.mem_append_right _ ha)) hmore
  exact ⟨hend.2.1, hend.2.2.1⟩

/-- The other clients go on. -/
def laterActs : List EchoAct :=
  [.stamp 0 (nowOf 6), .send 1 (nowOf 7), .serve 1 (probeText 0 (nowOf 7)), .answer (nowOf 8)]

theorem lost_silences_lossy : ∃ t u,
    Lts.run echoStep (echoInit fun _ => localArgs) lossyActs = some t ∧
      Lts.run echoStep t laterActs = some u ∧ (u.clients 0).asked = (t.clients 0).asked ∧
      (u.clients 0).lines = (t.clients 0).lines := by
  have hrun : ((Lts.run echoStep (echoInit fun _ => localArgs) lossyActs).bind fun t =>
      (Lts.run echoStep t laterActs).filter fun _ => decide (0 < t.losses 0)).isSome := by decide
  obtain ⟨u, hu⟩ := Option.isSome_iff_exists.1 hrun
  obtain ⟨t, ht, hu⟩ := Option.bind_eq_some_iff.1 hu
  obtain ⟨hmore, hlost⟩ := Option.filter_eq_some_iff.1 hu
  exact ⟨t, u, ht, hmore, lost_silences _ (fun _ => by decide) _ _
    (by simp [lossyActs, laterActs]) t u ht hmore 0 (of_decide_eq_true hlost)⟩

end F1Goal
