import F1Goal.BasicFuncs
import F1Goal.Lib.Decimal
import F1Goal.TimeInterval

/-!
# The texts of the time probe (`tools/simple_client.c`, `tools/simple_server.c`)

A client sends its number and its time, the server sends them back with its own time behind, and the
client prints the three fields that it finds in what it receives, with the times of its own around
the receive. `display_reply` says that of the answer to a request these are the number and the time
of the request and the time of the server, and that all buffers are large enough for a host and a
port of at most 893 bytes. Nothing checks how long these are (`display_overrun`).
-/

open Block CString Decimal

namespace F1Goal

/-- A time of `gettimeofday`. -/
abbrev Now := {tv : Timeval // tv.Normal}

/-- `"%ld.%ld"` -/
def Now.text (now : Now) : List UInt8 := print now.1.sec ++ ascii "." ++ print now.1.usec

/-- `"&seq=%d;&client_timeb=%ld.%ld;"` -/
def probeText (seq : ℤ) (tb : Now) : List UInt8 :=
  ascii "&seq=" ++ print seq ++ ascii ";&client_timeb=" ++ tb.text ++ ascii ";"

/-- `"&server_time=%ld.%ld;"` -/
def serverText (ts : Now) : List UInt8 := ascii "&server_time=" ++ ts.text ++ ascii ";"

/-- What the server sends back for what it has received. -/
def replyText (received : List UInt8) (ts : Now) : List UInt8 := received ++ serverText ts

/-- `substr` on the bytes received, with a buffer of 128 bytes. -/
def fieldOf (received prev : List UInt8) : Option (List UInt8) :=
  substr (ofList received) 0 (0 + received.length) prev (ascii ";") 128

/-- `sprintf(disp_buf+strlen(disp_buf), …)`: `none` when the text leaves the buffer. -/
def dispPut (disp text : List UInt8) : Option (List UInt8) :=
  if (disp ++ text).length < 1024 then some (disp ++ text) else none

/-- A field of the line: it is copied, and printed with `"%.*s|"`. The inner `none` is the
`continue` behind `len <= 0`. -/
def dispField (disp received prev : List UInt8) : Option (Option (List UInt8)) := do
  let tbuf ← fieldOf received prev
  if tbuf = [] then some none else (dispPut disp (cstr tbuf ++ ascii "|")).map some

/-- The line that a client prints for what it has received between `tv` and `tv2`; the inner `none`
is no line. -/
def display (host port received : List UInt8) (tv tv2 : Now) : Option (Option (List UInt8)) := do
  let disp ← dispPut [] (host ++ ascii "|" ++ port ++ ascii "|")
  let some disp ← dispField disp received (ascii "&seq=") | some none
  let some disp ← dispField disp received (ascii "&client_timeb=") | some none
  let some disp ← dispField disp received (ascii "&server_time=") | some none
  (dispPut disp (tv.text ++ ascii "|" ++ tv2.text ++ ascii "|")).map fun disp =>
    some (disp ++ ascii "\n")

/-- The line for a request that was answered. -/
def lineText (host port : List UInt8) (seq : ℤ) (tb ts tv tv2 : Now) : List UInt8 :=
  host ++ ascii "|" ++ port ++ ascii "|" ++ print seq ++ ascii "|" ++ tb.text ++ ascii "|" ++
    ts.text ++ ascii "|" ++ tv.text ++ ascii "|" ++ tv2.text ++ ascii "|" ++ ascii "\n"

/-! ### How long the texts are -/

theorem notMem_text {now : Now} {c : UInt8} (h1 : c ≠ 45) (h2 : c ≠ 46) (h3 : c < 48 ∨ 57 < c) :
    c ∉ now.text := by
  simp only [Now.text, List.mem_append, not_or]
  exact ⟨⟨notMem_print h1 h3, by simpa [ascii] using h2⟩, notMem_print h1 h3⟩

theorem length_text (now : Now) : now.text.length ≤ 28 := by
  have hsec : (print now.1.sec).length ≤ 19 + 1 :=
    length_print_le (by decide) (by have h1 := now.2.sec_ge; have h2 := now.2.sec_lt; omega)
  have husec : (print now.1.usec).length ≤ 6 + 1 :=
    length_print_le (by decide) (by
      have h1 := now.2.usec_nonneg
      have h2 := now.2.usec_lt
      omega)
  simp only [Now.text, List.length_append, ascii, List.length_map]
  have hdot : ".".toList.length = 1 := rfl
  omega

/-! ### The fields of an answer -/

/-- A mark that does not stand at the first byte. -/
theorem restBehind_cons {sub w : List UInt8} {c : UInt8} (h : ¬ sub <+: c :: w) :
    restBehind sub (c :: w) = restBehind sub w := by
  rw [restBehind, restBehind, firstAt, if_neg h, Option.map_map]
  congr 1
  funext i
  rw [Function.comp_apply, Nat.add_right_comm, List.drop_succ_cons]

/-- Behind bytes that a mark does not start with. -/
theorem restBehind_append_of_notMem {c : UInt8} {w : List UInt8} (sub rest : List UInt8)
    (h : c ∉ w) : restBehind (c :: sub) (w ++ rest) = restBehind (c :: sub) rest := by
  induction w with
  | nil => rfl
  | cons d w ih =>
    obtain ⟨hd, hw⟩ := List.ne_and_not_mem_of_not_mem_cons h
    rw [List.cons_append, restBehind_cons (by simp [hd]), ih hw]

theorem restBehind_self (sub rest : List UInt8) : restBehind sub (sub ++ rest) = some rest := by
  rw [restBehind, firstAt_of_isPrefix (List.prefix_append _ _)]
  simp

/-- What stands behind a mark up to the next semicolon. -/
theorem behind_eq {prev w v rest : List UInt8} (h : restBehind prev w = some (v ++ 59 :: rest))
    (hv : 59 ∉ v) : behind prev (ascii ";") w = some v := by
  have hfirst : firstAt (ascii ";") (v ++ ([59] ++ rest)) = some v.length := firstAt_append rest hv
  rw [behind, h, Option.map_some, ← List.singleton_append, hfirst]
  simp

/-- **A field is found** when it fits the buffer. -/
theorem fieldOf_eq {received prev v : List UInt8} (h : behind prev (ascii ";") received = some v)
    (hprev : prev.length < 512) (hv : v.length ≤ 128) : fieldOf received prev = some v := by
  rw [fieldOf, show (128 : ℤ) = ((128 : ℕ) : ℤ) by norm_num,
    substr_spec (holds_ofList_self received) hprev (by decide), h,
    Option.filter_some_pos (by simpa using hv), Option.getD_some]

/-- Behind a field of another name. -/
theorem restBehind_field (sub name : List UInt8) {v : List UInt8} (rest : List UInt8)
    (hname : 38 ∉ name) (hv : 38 ∉ v)
    (hne : ¬ sub <+: name ++ (v ++ 59 :: rest)) :
    restBehind (38 :: sub) (38 :: (name ++ (v ++ 59 :: rest))) = restBehind (38 :: sub) rest := by
  have hfield : 38 ∉ name ++ (v ++ [59]) := by simp [hname, hv]
  have hskip := restBehind_append_of_notMem sub rest hfield
  simp only [List.append_assoc, List.singleton_append] at hskip
  rw [restBehind_cons (by simpa using hne), hskip]

theorem and_notMem_print (n : ℤ) : 38 ∉ print n := notMem_print (by decide) (by decide)

theorem and_notMem_text (now : Now) : 38 ∉ now.text :=
  notMem_text (by decide) (by decide) (by decide)

/-- The fields of the answer to a request. -/
def answerFields (seq : ℤ) (tb ts : Now) : List UInt8 :=
  38 :: (ascii "seq=" ++ (print seq ++ 59 :: 38 :: (ascii "client_timeb=" ++ (tb.text ++ 59 ::
    38 :: (ascii "server_time=" ++ (ts.text ++ 59 :: []))))))

theorem reply_eq (seq : ℤ) (tb ts : Now) :
    replyText (probeText seq tb) ts = answerFields seq tb ts := by
  simp [replyText, probeText, serverText, answerFields, ascii]

theorem seq_field (seq : ℤ) (tb ts : Now) :
    behind (ascii "&seq=") (ascii ";") (replyText (probeText seq tb) ts) = some (print seq) := by
  rw [reply_eq]
  exact behind_eq (restBehind_self (ascii "&seq=") _) (notMem_print (by decide) (by decide))

theorem client_field (seq : ℤ) (tb ts : Now) :
    behind (ascii "&client_timeb=") (ascii ";") (replyText (probeText seq tb) ts) =
      some tb.text := by
  have hskip := restBehind_field (ascii "client_timeb=") (ascii "seq=")
    (38 :: (ascii "client_timeb=" ++ (tb.text ++ 59 ::
      38 :: (ascii "server_time=" ++ (ts.text ++ 59 :: [])))))
    (by decide) (and_notMem_print seq) (by simp [ascii])
  rw [reply_eq]
  exact behind_eq (hskip.trans (restBehind_self (ascii "&client_timeb=") _))
    (notMem_text (by decide) (by decide) (by decide))

theorem server_field (seq : ℤ) (tb ts : Now) :
    behind (ascii "&server_time=") (ascii ";") (replyText (probeText seq tb) ts) =
      some ts.text := by
  have hskip := restBehind_field (ascii "server_time=") (ascii "client_timeb=")
    (38 :: (ascii "server_time=" ++ (ts.text ++ 59 :: [])))
    (by decide) (and_notMem_text tb) (by simp [ascii])
  have hskip' := restBehind_field (ascii "server_time=") (ascii "seq=")
    (38 :: (ascii "client_timeb=" ++ (tb.text ++ 59 ::
      38 :: (ascii "server_time=" ++ (ts.text ++ 59 :: [])))))
    (by decide) (and_notMem_print seq) (by simp [ascii])
  rw [reply_eq]
  exact behind_eq (hskip'.trans (hskip.trans (restBehind_self (ascii "&server_time=") _)))
    (notMem_text (by decide) (by decide) (by decide))

/-! ### The line -/

/-- A number of a request is an `int`. -/
def IsSeq (seq : ℤ) : Prop := 0 ≤ seq ∧ seq < 2 ^ 31

theorem length_seq {seq : ℤ} (h : IsSeq seq) : (print seq).length ≤ 11 := by
  obtain ⟨h1, h2⟩ := h
  exact length_print_le (by decide) (by omega)

/-- A request fits the buffers of both sides. -/
theorem length_request {seq : ℤ} (h : IsSeq seq) (tb : Now) :
    (probeText seq tb).length ≤ 60 := by
  have h1 := length_seq h
  have h2 := length_text tb
  have h3 : (ascii "&seq=").length = 5 := rfl
  have h4 : (ascii ";&client_timeb=").length = 15 := rfl
  have h5 : (ascii ";").length = 1 := rfl
  simp only [probeText, List.length_append]
  omega

/-- An answer fits the buffer of the client. -/
theorem length_reply {seq : ℤ} (h : IsSeq seq) (tb ts : Now) :
    (replyText (probeText seq tb) ts).length ≤ 102 := by
  have h1 := length_request h tb
  have h2 := length_text ts
  have h3 : (ascii "&server_time=").length = 13 := rfl
  have h5 : (ascii ";").length = 1 := rfl
  simp only [replyText, serverText, List.length_append]
  omega

theorem cstr_print (n : ℤ) : cstr (print n) = print n :=
  cstr_of_notMem (notMem_print (by decide) (by decide))

theorem cstr_text (now : Now) : cstr now.text = now.text :=
  cstr_of_notMem (notMem_text (by decide) (by decide) (by decide))

theorem text_ne_nil (now : Now) : now.text ≠ [] := by
  simp [Now.text, ascii]

theorem dispPut_eq {disp text : List UInt8} (h : disp.length + text.length < 1024) :
    dispPut disp text = some (disp ++ text) := if_pos (by rwa [List.length_append])

/-- A field of the line that is found. -/
theorem dispField_eq {disp received prev v : List UInt8}
    (h : behind prev (ascii ";") received = some v) (hprev : prev.length < 512)
    (hne : v ≠ []) (hz : cstr v = v) (hv : v.length ≤ 28) (hdisp : disp.length + 29 < 1024) :
    dispField disp received prev = some (some (disp ++ (v ++ ascii "|"))) := by
  have hlen : (v ++ ascii "|").length ≤ 29 := by
    rw [List.length_append]
    exact Nat.add_le_add hv (le_refl 1)
  rw [dispField, fieldOf_eq h hprev (by omega)]
  simp only [Option.bind_eq_bind, Option.bind_some, if_neg hne, hz]
  rw [dispPut_eq (by omega), Option.map_some]

/-- **A client prints for an answer** the number and the time of the request and the time of the
server. -/
theorem display_reply {host port : List UInt8} {seq : ℤ} (hseq : IsSeq seq)
    (hargs : host.length + port.length ≤ 893) (tb ts tv tv2 : Now) :
    display host port (replyText (probeText seq tb) ts) tv tv2 =
      some (some (lineText host port seq tb ts tv tv2)) := by
  have hbar : (ascii "|").length = 1 := rfl
  have h1 := length_seq hseq
  have h2 := length_text tb
  have h3 := length_text ts
  have h4 := length_text tv
  have h5 := length_text tv2
  rw [display, dispPut_eq (by simp only [List.length_append, List.length_nil]; omega)]
  simp only [Option.bind_eq_bind, Option.bind_some]
  rw [dispField_eq (seq_field seq tb ts) (by decide) (print_ne_nil _) (cstr_print _) (by omega)
    (by simp only [List.length_append, List.length_nil]; omega)]
  simp only [Option.bind_some]
  rw [dispField_eq (client_field seq tb ts) (by decide) (text_ne_nil _) (cstr_text _) h2
    (by simp only [List.length_append, List.length_nil]; omega)]
  simp only [Option.bind_some]
  rw [dispField_eq (server_field seq tb ts) (by decide) (text_ne_nil _) (cstr_text _) h3
    (by simp only [List.length_append, List.length_nil]; omega)]
  simp only [Option.bind_some]
  rw [dispPut_eq (by simp only [List.length_append, List.length_nil]; omega)]
  simp [lineText]

/-- A host and a port that alone leave `disp_buf`, whatever is received. -/
theorem display_overrun {host port : List UInt8} (h : 1022 ≤ host.length + port.length)
    (received : List UInt8) (tv tv2 : Now) : display host port received tv tv2 = none := by
  have hbar : (ascii "|").length = 1 := rfl
  have hlen : ¬ ([] ++ (host ++ ascii "|" ++ port ++ ascii "|")).length < 1024 := by
    simp only [List.length_append, List.length_nil]
    omega
  rw [display, dispPut, if_neg hlen, Option.bind_eq_bind, Option.bind_none]

end F1Goal
