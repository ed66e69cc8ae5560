import Libws.Session.Refinement
import Libws.Session.Sending

/-!
# Session — delivery of messages

Messages encoded by `ws_send_message` go through the network in chunks cut anywhere, and the peer
hands each chunk to `ws_conn_recv` and polls until `WS_EV_NONE`.

* `Sent.bytes_wire`: what is sent is the wire of a frame with the message in it.
* `Holding.deliver`: a message is delivered, and the bytes behind it are intact when they are the
  same read from the start of the message (`Undisturbed`).
* `delivery`: **then the peer receives exactly the messages sent**, in order and with no other
  event.
-/

namespace Libws
open Libws.Support

/-! ### Sending -/

/-- A message an open endpoint of this role has encoded. -/
structure Sent (role : WsRole) where
  conn : WsConn
  key : MaskKey
  op : WsOpcode
  payload : List UInt8
  out : List UInt8
  role_eq : conn.role = role
  is_open : conn.state = .open
  op_data : op = .text ∨ op = .bin
  utf8 : op = .text → IsUtf8 payload
  out_lt : out.length < 2 ^ 64
  sent : 0 < (wsSendMessage 64 conn key op payload out).n

namespace Sent

variable {role : WsRole} (m : Sent role)

/-- The bytes `ws_send_message` reports to have written. -/
def bytes : List UInt8 :=
  (wsSendMessage 64 m.conn m.key m.op m.payload m.out).out.take
    (wsSendMessage 64 m.conn m.key m.op m.payload m.out).n

/-- The event the peer is to see. -/
def event : Event := .message m.op m.payload

theorem bytes_wire (hlen : m.payload.length < 2 ^ 63) :
    ∃ f : Frame, m.bytes = f.wire ∧ f.h = sendHeader m.conn m.key m.op m.payload.length ∧
      f.payload = m.payload := by
  have hact : wsLcActive m.conn = true := by simp [wsLcActive, m.is_open]
  have hbuild : wsSendMessage 64 m.conn m.key m.op m.payload m.out
      = buildFrame 64 m.conn m.key m.op m.payload m.out := by
    rw [wsSendMessage, hact]; rfl
  have hsent := m.sent
  rw [hbuild] at hsent
  obtain ⟨hop, -, hplen, hrsv, -⟩ := sendHeader_fields m.conn m.key m.op m.payload.length
  have hdata : wsClassifyOpcode m.op = .data ∧ m.op < 16 := by
    rcases m.op_data with h | h <;> rw [h] <;> decide
  rw [bytes, hbuild]
  refine buildFrame_wire ⟨hrsv, ?_, ?_, fun hc => ?_⟩ hlen m.out_lt hsent
  · rw [hop]; exact hdata.2
  · rw [hplen, UInt64.toNat_ofNat_of_lt' (show m.payload.length < 2 ^ 64 by omega)]
    exact hlen
  · rw [hop, hdata.1] at hc; cases hc

end Sent

/-! ### Receiving -/

/-- Poll until `WS_EV_NONE`, reading each event before the next call; at most `fuel` polls. -/
def drain (w : Nat) : Nat → WsConn → Option (List Event × WsConn)
  | 0, _ => .none
  | fuel + 1, c =>
    if (wsConnPoll w c).ret = .none then some ([], (wsConnPoll w c).conn)
    else match drain w fuel (wsConnPoll w c).conn with
      | .none => .none
      | some (es, d) => some ((wsConnPoll w c).event :: es, d)

/-- Hand over the chunks one by one, draining the events after each. -/
def receive (w fuel : Nat) : WsConn → List (List UInt8) → Option (List Event × WsConn)
  | c, [] => some ([], c)
  | c, chunk :: chunks =>
    match drain w fuel (wsConnRecv w c chunk).2 with
    | .none => .none
    | some (es, d) => match receive w fuel d chunks with
      | .none => .none
      | some (es', e) => some (es ++ es', e)

/-- Every chunk is accepted when it is handed over. -/
def AllAccepted (w fuel : Nat) : WsConn → List (List UInt8) → Prop
  | _, [] => True
  | c, chunk :: chunks => Accepts c (.recv chunk) ∧
    match drain w fuel (wsConnRecv w c chunk).2 with
    | .none => True
    | some (_, d) => AllAccepted w fuel d chunks

instance AllAccepted.decidable (w fuel : Nat) :
    ∀ (c : WsConn) (chunks : List (List UInt8)), Decidable (AllAccepted w fuel c chunks)
  | _, [] => .isTrue trivial
  | c, chunk :: chunks =>
    have : Decidable (match drain w fuel (wsConnRecv w c chunk).2 with
        | .none => True
        | some (_, d) => AllAccepted w fuel d chunks) :=
      match drain w fuel (wsConnRecv w c chunk).2 with
      | .none => .isTrue trivial
      | some (_, d) => AllAccepted.decidable w fuel d chunks
    inferInstanceAs (Decidable (_ ∧ _))

/-- Where the frame of a message ends inside a chunk, the bytes `t` of the chunk behind it stay the
same when they are read from the start of the payload. -/
def Undisturbed {role : WsRole} (sent : List (Sent role)) (chunks : List (List UInt8)) : Prop :=
  ∀ ms m ms' cs chunk cs' t, sent = ms ++ m :: ms' → chunks = cs ++ chunk :: cs' →
    (ms ++ [m]).flatMap Sent.bytes ++ t = cs.flatten ++ chunk → t.length < chunk.length →
    t <+: m.payload ++ t

/-- The places where a frame can end are those of the messages and the chunks. -/
theorem undisturbed_iff {role : WsRole} {sent : List (Sent role)} {chunks : List (List UInt8)} :
    Undisturbed sent chunks ↔ ∀ (k : Fin sent.length) (j : Fin chunks.length),
      let x := (sent.take (k + 1)).flatMap Sent.bytes
      let y := (chunks.take (j + 1)).flatten
      x <+: y → (y.drop x.length).length < chunks[j].length →
        y.drop x.length <+: sent[k].payload ++ y.drop x.length := by
  constructor
  · rintro h k j x y ⟨t, ht⟩ hlt
    have hdrop : y.drop x.length = t := by rw [← ht, List.drop_left]
    rw [hdrop] at hlt ⊢
    refine h (sent.take k) sent[k] (sent.drop (k + 1)) (chunks.take j) chunks[j]
      (chunks.drop (j + 1)) t (by simp) (by simp) ?_ hlt
    rw [Fin.getElem_fin, Fin.getElem_fin, List.take_concat_get', ← List.flatten_concat,
      List.take_concat_get']
    exact ht
  · -- the frame of `m` is the one behind `ms`, and the chunk the one behind `cs`
    rintro h ms m ms' cs chunk cs' t rfl rfl heq hlt
    have hk := h ⟨ms.length, by simp⟩ ⟨cs.length, by simp⟩
    simp only [Fin.getElem_fin, List.take_length_add_append, List.take_succ_cons, List.take_zero,
      List.getElem_append_right, Nat.le_refl, Nat.sub_self, List.getElem_cons_zero,
      List.flatten_concat, ← heq, List.drop_left] at hk
    exact hk (List.prefix_append ..) hlt

instance {role : WsRole} (sent : List (Sent role)) (chunks : List (List UInt8)) :
    Decidable (Undisturbed sent chunks) := decidable_of_iff' _ undisturbed_iff

/-! ### One message -/

/-- An open connection between two messages. -/
def Receiver.idle : Receiver := ⟨.open, .none, [], false⟩

variable {role : WsRole}

/-- The frame of a message starts one, and finishes it. -/
theorem Sent.verdict {m : Sent role} {f : Frame}
    (hf : f.h = sendHeader m.conn m.key m.op m.payload.length) (hp : f.payload = m.payload) :
    ∃ type, Receiver.idle.verdict role.opposite f = .deliver type ∧ type.op = m.op := by
  obtain ⟨hop, hfin, -, -, hmask, -⟩ := sendHeader_fields m.conn m.key m.op m.payload.length
  rw [← hf] at hop hfin hmask
  have hadm : Receiver.idle.Admits role.opposite f := by
    refine ⟨rfl, .inl rfl, fun hr => hmask.mpr ?_⟩
    rw [m.role_eq]
    cases role with
    | server => cases hr
    | client => rfl
  have hutf : m.op = .text → IsUtf8 (Receiver.idle.msg ++ f.payload) := by
    rw [hp]; exact m.utf8
  rcases m.op_data with ht | hb
  · have hk : f.kind = .text := by rw [Frame.kind, hop, ht]; rfl
    refine ⟨.text, ?_, ht.symm⟩
    exact Receiver.verdict_deliver_iff.mpr ⟨hadm, .text hk rfl, hfin, fun _ => hutf ht⟩
  · have hk : f.kind = .bin := by rw [Frame.kind, hop, hb]; rfl
    refine ⟨.bin, ?_, hb.symm⟩
    exact Receiver.verdict_deliver_iff.mpr ⟨hadm, .bin hk rfl, hfin, fun h => by cases h⟩

/-- **A message is delivered**, and the bytes behind it come next if they are undisturbed. -/
theorem Holding.deliver {m : Sent role} {c : WsConn} {t : List UInt8}
    (hlen : m.payload.length < 2 ^ 63) (h : Holding role.opposite c .idle (m.bytes ++ t))
    (ht : t <+: m.payload ++ t) :
    (wsConnPoll 64 c).event = m.event ∧
      Holding role.opposite (wsConnPoll 64 c).conn .idle t := by
  obtain ⟨f, hbytes, hf, hp⟩ := m.bytes_wire hlen
  obtain ⟨type, hverdict, hop⟩ := Sent.verdict hf hp
  obtain ⟨hstate, -, hmsg, hfailed⟩ := Receiver.mk.inj h.receiver
  have hs := h.sound
  obtain ⟨-, ho⟩ := hs.poll_frame hfailed (f := f) (t := t) (by rw [h.raw hfailed, hbytes])
  rw [h.receiver, h.role_eq, hverdict, hmsg] at ho
  obtain ⟨hret, hdata, hview⟩ := ho.view_deliver
  obtain ⟨⟨hevop, hcode⟩, hstate', hfrag', hfailed', hrole'⟩ := ho.of_deliver
  rw [List.nil_append, hp] at hdata hview
  rw [← List.prefix_iff_eq_take.mp ht] at hview
  constructor
  · rw [Poll.event, hret, hevop, hop, hdata, hcode]
    rfl
  · refine ⟨hs.poll, hrole'.trans h.role_eq, ?_, fun _ => hview.rawBytes_eq⟩
    rw [WsConn.receiver, hview.msg_eq, hstate', hfrag', hfailed', hstate, hfailed]
    rfl

/-! ### Draining and receiving -/

/-- A connection that holds no complete frame is drained by one poll. -/
theorem Holding.drain_wait {c : WsConn} {rx : List UInt8} (h : Holding role c .idle rx)
    (hno : ¬ HoldsFrame rx) {fuel : Nat} (hfuel : 0 < fuel) : drain 64 fuel c = some ([], c) := by
  obtain ⟨hev, hconn⟩ := h.wait hno
  have hret : (wsConnPoll 64 c).ret = .none := congrArg Event.type hev
  match fuel, hfuel with
  | fuel + 1, _ => rw [drain, if_pos hret, hconn]

/-- Less than the bytes of a message hold no complete frame. -/
theorem Sent.not_holdsFrame {m : Sent role} (hlen : m.payload.length < 2 ^ 63)
    {rx future rest : List UInt8} (h : rx ++ future = m.bytes ++ rest)
    (hlt : rx.length < m.bytes.length) : ¬ HoldsFrame rx := by
  obtain ⟨f, hbytes, -⟩ := m.bytes_wire hlen
  obtain ⟨s, hs⟩ := List.prefix_of_prefix_length_le ⟨future, h⟩ (List.prefix_append ..) hlt.le
  have hne : s ≠ [] := by
    rintro rfl
    rw [List.append_nil] at hs
    rw [hs] at hlt
    exact Nat.lt_irrefl _ hlt
  exact f.not_holdsFrame_prefix (hs.trans hbytes) hne

/-- **Draining delivers the messages whose frames are complete**, and leaves the part of the next
one that has arrived. -/
theorem Holding.drain {ms : List (Sent role)} {c : WsConn} {rx future : List UInt8} {fuel : Nat}
    (h : Holding role.opposite c .idle rx) (hlen : ∀ m ∈ ms, m.payload.length < 2 ^ 63)
    (hstream : rx ++ future = ms.flatMap Sent.bytes) (hfuel : ms.length < fuel)
    (hok : ∀ ds m es t, ms = ds ++ m :: es → rx = (ds ++ [m]).flatMap Sent.bytes ++ t →
      t <+: m.payload ++ t) :
    ∃ done rest rx' d, ms = done ++ rest ∧ Libws.drain 64 fuel c = some (done.map Sent.event, d) ∧
      Holding role.opposite d .idle rx' ∧ rx = done.flatMap Sent.bytes ++ rx' ∧
      ∀ m es, rest = m :: es → rx'.length < m.bytes.length := by
  induction ms generalizing c rx fuel with
  | nil =>
      obtain ⟨rfl, -⟩ := List.append_eq_nil_iff.mp hstream
      refine ⟨[], [], [], c, rfl, h.drain_wait not_holdsFrame_nil (by omega), h, rfl, ?_⟩
      rintro m es ⟨⟩
  | cons m ms ih =>
      rw [List.flatMap_cons] at hstream
      rw [List.length_cons] at hfuel
      rcases Nat.lt_or_ge rx.length m.bytes.length with hlt | hge
      · -- the frame is not complete
        have hno := Sent.not_holdsFrame (hlen m (by simp)) hstream hlt
        refine ⟨[], m :: ms, rx, c, rfl, h.drain_wait hno (by omega), h, rfl, ?_⟩
        rintro m' es ⟨⟩
        exact hlt
      · obtain ⟨t, rfl⟩ := List.prefix_of_prefix_length_le (List.prefix_append ..)
          ⟨future, hstream⟩ hge
        have ht := hok [] m ms t rfl (by simp)
        obtain ⟨hev, hnext⟩ := h.deliver (hlen m (by simp)) ht
        have hret : (wsConnPoll 64 c).ret ≠ .none := by
          rw [show (wsConnPoll 64 c).ret = .message from congrArg Event.type hev]
          simp
        match fuel, hfuel with
        | fuel + 1, hfuel =>
            rw [List.append_assoc, List.append_cancel_left_eq] at hstream
            obtain ⟨done, rest, rx', d, rfl, hd, hh, rfl, hrest⟩ := ih hnext
              (fun m' hm' => hlen m' (by simp [hm'])) hstream
              (show ms.length < fuel by omega) (by
                rintro ds m' es t' rfl hrx
                exact hok (m :: ds) m' es t' rfl (by rw [hrx]; simp))
            refine ⟨m :: done, rest, rx', d, rfl, ?_, hh, by simp, hrest⟩
            rw [Libws.drain, if_neg hret, hd, hev]
            rfl

/-- **Receiving delivers all messages**, from any point inside the stream. -/
theorem Holding.receive {chunks : List (List UInt8)} {ms : List (Sent role)} {c : WsConn}
    {rx : List UInt8} {fuel : Nat} (h : Holding role.opposite c .idle rx)
    (hlen : ∀ m ∈ ms, m.payload.length < 2 ^ 63)
    (hstream : rx ++ chunks.flatten = ms.flatMap Sent.bytes)
    (hhead : ∀ m es, ms = m :: es → rx.length < m.bytes.length)
    (hok : ∀ ds m es cs chunk cs' t, ms = ds ++ m :: es → chunks = cs ++ chunk :: cs' →
      (ds ++ [m]).flatMap Sent.bytes ++ t = rx ++ (cs.flatten ++ chunk) →
      t.length < chunk.length → t <+: m.payload ++ t)
    (hacc : AllAccepted 64 fuel c chunks) (hfuel : ms.length < fuel) :
    ∃ d, Libws.receive 64 fuel c chunks = some (ms.map Sent.event, d) := by
  induction chunks generalizing ms c rx with
  | nil =>
      match ms with
      | [] => exact ⟨c, rfl⟩
      | m :: ms =>
          have := hhead m ms rfl
          have hl := congrArg List.length hstream
          simp only [List.flatten_nil, List.append_nil, List.flatMap_cons, List.length_append] at hl
          omega
  | cons chunk chunks ih =>
      obtain ⟨ha, hrest⟩ := hacc
      have h₁ := h.recv ha
      rw [List.flatten_cons, ← List.append_assoc] at hstream
      obtain ⟨done, rest, rx', d, rfl, hd, hh, hrx, hhead'⟩ := h₁.drain hlen hstream hfuel (by
        rintro ds m es t rfl hrx
        refine hok ds m es [] chunk chunks t rfl rfl (by rw [← hrx]; rfl) ?_
        -- the frame does not end before the chunk
        have hfirst : rx.length < ((ds ++ [m]).flatMap Sent.bytes).length := by
          match ds, hhead with
          | [], hhead => simpa using hhead m es rfl
          | m' :: ds, hhead =>
              have := hhead m' (ds ++ m :: es) rfl
              simp only [List.cons_append, List.flatMap_cons, List.length_append]
              omega
        have hl := congrArg List.length hrx
        simp only [List.length_append] at hl
        omega)
      rw [exec] at hd
      rw [hd] at hrest
      rw [hrx, List.append_assoc, List.flatMap_append, List.append_cancel_left_eq] at hstream
      obtain ⟨e, he⟩ := ih hh (fun m hm => hlen m (by simp [hm])) hstream hhead' (by
        rintro ds m es cs chunk' cs' t rfl rfl heq hlt
        refine hok (done ++ ds) m es (chunk :: cs) chunk' cs' t (by simp) rfl ?_ hlt
        calc (done ++ ds ++ [m]).flatMap Sent.bytes ++ t
            = done.flatMap Sent.bytes ++ ((ds ++ [m]).flatMap Sent.bytes ++ t) := by simp
          _ = done.flatMap Sent.bytes ++ rx' ++ (cs.flatten ++ chunk') := by
              rw [heq, List.append_assoc]
          _ = rx ++ ((chunk :: cs).flatten ++ chunk') := by rw [← hrx]; simp)
        hrest (by rw [List.length_append] at hfuel; omega)
      refine ⟨e, ?_⟩
      rw [Libws.receive, hd]
      simp only [he, List.map_append]

/-- **Delivery.**  Messages sent by an open endpoint of one role are handed in accepted chunks, cut
anywhere, to an open endpoint of the other role between two messages, which polls until
`WS_EV_NONE` after each.  If each payload has less than `2 ^ 63` bytes and the bytes that stand in a
chunk behind a message are undisturbed, the events are exactly the messages sent, in order. -/
theorem delivery (role : WsRole) (sent : List (Sent role)) (chunks : List (List UInt8))
    (buf : MsgBuf 64) (calls : List Call) (fuel : Nat)
    (hg : Guarded (exec 64) (NoWrap 64) (wsConnInit role.opposite buf.bytes) calls) :
    let c := run (exec 64) (wsConnInit role.opposite buf.bytes) calls
    c.state = .open → c.failed = false → c.frag = .none → c.rxLen = 0 →
    chunks.flatten = sent.flatMap Sent.bytes → AllAccepted 64 fuel c chunks →
    sent.length < fuel → (∀ m ∈ sent, m.payload.length < 2 ^ 63) → Undisturbed sent chunks →
      ∃ d, receive 64 fuel c chunks = some (sent.map Sent.event, d) := by
  intro c hstate hfailed hfrag hrx hstream hacc hfuel hlen hund
  have hs : Sound c := sound_run hg
  have hmsg : c.msg = [] := by rw [WsConn.msg, hs.boundary hfrag, List.take_zero]
  have h : Holding role.opposite c .idle [] := by
    refine ⟨hs, run_role 64 _ calls, ?_, fun _ => ?_⟩
    · rw [WsConn.receiver, hstate, hfrag, hmsg, hfailed]; rfl
    · rw [rawBytes, hrx]; rfl
  refine h.receive hlen hstream (fun m es _ => ?_) ?_ hacc hfuel
  · obtain ⟨f, hbytes, -⟩ := m.bytes_wire (hlen m (by simp_all))
    rw [hbytes]
    exact List.length_pos_of_ne_nil f.wire_ne_nil
  · intro ds m es cs chunk cs' t h₁ h₂ h₃ h₄
    exact hund ds m es cs chunk cs' t h₁ h₂ h₃ h₄

/-- An open client. -/
def someClient : WsConn := wsConnOpen (wsConnInit .client [])

/-- The binary message `a`. -/
def binA : Sent .client where
  conn := someClient
  key := #v[0x10, 0x20, 0x30, 0x40]
  op := .bin
  payload := [0x61]
  out := List.replicate 16 0
  role_eq := rfl
  is_open := rfl
  op_data := .inr rfl
  utf8 := fun h => by cases h
  out_lt := by decide
  sent := by decide +kernel

/-- The binary message `b`. -/
def binB : Sent .client where
  conn := someClient
  key := #v[0x50, 0x60, 0x70, 0x80]
  op := .bin
  payload := [0x62]
  out := List.replicate 16 0
  role_eq := rfl
  is_open := rfl
  op_data := .inr rfl
  utf8 := fun h => by cases h
  out_lt := by decide
  sent := by decide +kernel

/-- The two messages in one chunk: the second is lost. -/
theorem delivery_lost :
    let c := run (exec 64) (wsConnInit .server (zeroBuf 32 (by decide)).bytes) [.open]
    c.state = .open ∧ c.failed = false ∧ c.frag = .none ∧ c.rxLen = 0 ∧
      AllAccepted 64 5 c [binA.bytes ++ binB.bytes] ∧
      (receive 64 5 c [binA.bytes ++ binB.bytes]).map Prod.fst = some [binA.event] ∧
      (receive 64 5 c [binA.bytes ++ binB.bytes]).map Prod.fst ≠ some [binA.event, binB.event] := by
  decide +kernel

/-- The binary message of the byte `82`. -/
def bin82 : Sent .client where
  conn := someClient
  key := #v[0x10, 0x20, 0x30, 0x40]
  op := .bin
  payload := [0x82]
  out := List.replicate 16 0
  role_eq := rfl
  is_open := rfl
  op_data := .inr rfl
  utf8 := fun h => by cases h
  out_lt := by decide
  sent := by decide +kernel

/-- The first byte of the second message comes with the first message, whose payload it equals. -/
theorem delivery_split :
    let c := run (exec 64) (wsConnInit .server (zeroBuf 32 (by decide)).bytes) [.open]
    ∃ d, receive 64 5 c [bin82.bytes ++ binB.bytes.take 1, binB.bytes.drop 1]
      = some ([bin82.event, binB.event], d) :=
  delivery .client [bin82, binB] [bin82.bytes ++ binB.bytes.take 1, binB.bytes.drop 1]
    (zeroBuf 32 (by decide)) [.open] 5 (by decide +kernel) (by decide +kernel) (by decide +kernel)
    (by decide +kernel) (by decide +kernel) (by decide +kernel) (by decide +kernel) (by decide)
    (by decide +kernel) (by decide +kernel)

end Libws
