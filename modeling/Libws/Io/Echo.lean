import Libws.Io.Dialogue
import Libws.Io.Output
import Libws.Session.Receiving
import Libws.Session.Sending

/-!
# Io — the echo server

`example/echo_server.c`: the handler of the example, on the server of `io_posix.c`.  It sends a
message back, answers a ping with a pong, and calls `ws_io_send_close` for a close; that call
builds nothing, since the poll that reported the close has closed the connection.

* `echo_event`: what the handler does with what a poll reports.
* `Echoes`: deeds that hand over one frame for each message and each ping they report, in order.
* `echo_replies`: in every run a client is sent the echoes of its dialogue.
-/

namespace Libws
open Libws.Support Prog

/-! ### The example -/

section Example

variable {n : Nat}

def echoReply (key : MaskKey) (c : Fin n) (ev : Event) : Reply n Unit :=
  if ev.type = .message then .send c (.message key ev.op ev.data) fun _ => .done ()
  else if ev.type = .ping then .send c (.pong key ev.data) fun _ => .done ()
  else .done ()

/-- `on_event` of the example. -/
def echoOnEvent (key : MaskKey) (c : Fin n) (ev : Event) : Reply n Unit :=
  if ev.type = .close then .send c (.close key ev.closeCode) fun _ => .done ()
  else echoReply key c ev

end Example

/-- `ws_serve(port, WS_ROLE_SERVER, on_event)`, once its listener is set up. -/
def echoServe (key : MaskKey) (maxConns maxMessage listenFd : Nat)
    (h : maxMessage + chunkCap < 2 ^ 64) : Server Unit where
  maxConns := maxConns
  maxMessage := maxMessage
  maxMessage_lt := h
  role := .server
  listenFd := listenFd
  onEvent := fun _ c ev => echoOnEvent key c ev

/-- A server with the handler of the example. -/
structure IsEcho (key : MaskKey) (sv : Server Unit) : Prop where
  role : sv.role = .server
  onEvent : ∀ a c ev, sv.onEvent a c ev = echoOnEvent key c ev

/-- A final frame as a server sends it. -/
def plainFrame (op : WsOpcode) (payload : List UInt8) : List UInt8 :=
  headerBytes { WsFrameHeader.zero with
    opcode := op, payloadLen := UInt64.ofNat payload.length, fin := true } ++ payload

/-- The frames sent for an event. -/
def echoFrame (ev : Event) : List (List UInt8) :=
  match ev.type with
  | .message => [plainFrame ev.op ev.data]
  | .ping => [plainFrame .pong ev.data]
  | _ => []

/-- The events among what is said. -/
def heard (ts : List Talk) : List Event :=
  ts.filterMap fun
    | .chunk _ => none
    | .event ev => some ev

theorem heard_append (ts us : List Talk) : heard (ts ++ us) = heard ts ++ heard us :=
  List.filterMap_append ..

/-! ### One event -/

section Polling

variable {c : WsConn}

/-- A poll changes neither the role nor the size of the buffer. -/
theorem poll_keeps (w : Nat) (c : WsConn) :
    (wsConnPoll w c).conn.role = c.role ∧
      (wsConnPoll w c).conn.msgBuf.length = c.msgBuf.length := by
  refine poll_shape (P := fun p => p.conn.role = c.role ∧
    p.conn.msgBuf.length = c.msgBuf.length) w c (fun _ => ⟨rfl, rfl⟩) (fun _ => ⟨rfl, rfl⟩) ?_
  intro p _ hs
  cases hs with
  | refuse hb | control hb | close hb | extend hb | deliver hb => exact ⟨rfl, hb⟩

/-- After a message or a ping a connection can still be sent on. -/
theorem poll_answerable (w : Nat) (c : WsConn) :
    (wsConnPoll w c).ret = .message ∨ (wsConnPoll w c).ret = .ping →
      wsLcActive (wsConnPoll w c).conn = true := by
  refine poll_shape (P := fun p => p.ret = .message ∨ p.ret = .ping → wsLcActive p.conn = true)
    w c (fun _ => by simp) (fun _ => by simp) ?_
  intro p _ hs
  cases hs with
  | refuse | close | extend => simp
  | control _ hact | deliver _ hact => exact fun _ => hact

theorem Poll.data_length_le (p : Poll) : p.data.length ≤ p.conn.msgBuf.length := by
  rw [Poll.data]
  split
  · exact Nat.zero_le _
  · simp only [slice, List.length_take, List.length_drop]
    omega

/-- A server's frame for a payload that fits the message buffer. -/
theorem buildFrame_plain {key : MaskKey} {op : WsOpcode} {payload : List UInt8} {maxMessage : Nat}
    (hrole : c.role = .server) (hlen : payload.length ≤ maxMessage)
    (hmax : maxMessage + chunkCap < 2 ^ 64) :
    let b := buildFrame 64 c key op payload (List.replicate (maxMessage + 16) 0)
    0 < b.n ∧ b.out.take b.n = plainFrame op payload := by
  have hheader : sendHeader c key op payload.length = { WsFrameHeader.zero with
      opcode := op, payloadLen := UInt64.ofNat payload.length, fin := true } := by
    rw [sendHeader, outHeader, if_neg (by rw [hrole]; decide)]
    rfl
  have hout : (List.replicate (maxMessage + 16) (0 : UInt8)).length < 2 ^ 64 := by
    rw [List.length_replicate]
    simp only [chunkCap] at hmax
    omega
  have hge := headerBytes_length_ge (sendHeader c key op payload.length)
  have hle := headerBytes_length_le (sendHeader c key op payload.length)
  have hroom : (headerBytes (sendHeader c key op payload.length)).length + payload.length
      ≤ (List.replicate (maxMessage + 16) (0 : UInt8)).length := by
    rw [List.length_replicate]
    omega
  rcases buildFrame_cases c key op hout with ⟨hsmall, -⟩ | ⟨-, heq⟩
  · exact absurd hroom hsmall.not_ge
  · intro b
    have hbody : wireBody (sendHeader c key op payload.length) payload = payload := by
      rw [hheader, wireBody]
      rfl
    simp only [b, heq, hbody]
    refine ⟨by omega, ?_⟩
    rw [plainFrame, ← hheader, List.take_left' (by rw [List.length_append])]

end Polling

section Handling

variable {key : MaskKey} {sv : Server Unit} {i : Fin sv.maxConns} {io io' : WsIo sv.maxConns Unit}
  {t : Trace sv.maxConns}

/-- A reply that consists of one frame. -/
theorem sendBuilt_frame {b : Built} {bytes : List UInt8} {rc : Int}
    (hu : (io.conns i).used = true) (hn : 0 < b.n) (hbytes : b.out.take b.n = bytes)
    (hr : Runs (sendBuilt io i b) t rc) : Writes i (io.conns i).fd .frame bytes t rc := by
  rw [sendBuilt, slotByConn_eq, if_pos hu] at hr
  dsimp only at hr
  rw [if_neg hn.ne', hbytes] at hr
  exact writeAll_writes hr

/-- **The handler** answers what a poll reports with the frames of the echo, and leaves the pool as
it is. -/
theorem echo_event (he : IsEcho key sv) (hu : (io.conns i).used = true)
    (hrole : (io.conns i).conn.role = .server)
    (hcap : (io.conns i).conn.msgBuf.length = sv.maxMessage)
    (hr : Runs (onEvent sv
      (io.setConn i (wsConnPoll 64 (io.conns i).conn).conn) i
      (wsConnPoll 64 (io.conns i).conn).event) t io') :
    ∃ u, t = ⟨.client i (io.conns i).fd (.event (wsConnPoll 64 (io.conns i).conn).event), ()⟩ :: u ∧
      io'.conns = (io.setConn i (wsConnPoll 64 (io.conns i).conn).conn).conns ∧
      (echoFrame (wsConnPoll 64 (io.conns i).conn).event = [] ∧ u = [] ∨
        ∃ bytes rc, echoFrame (wsConnPoll 64 (io.conns i).conn).event = [bytes] ∧
          Writes i (io.conns i).fd .frame bytes u rc) := by
  have hkeep := poll_keeps 64 (io.conns i).conn
  have hact := poll_answerable 64 (io.conns i).conn
  have hclosed := poll_close_state 64 (io.conns i).conn
  have hdata := (wsConnPoll 64 (io.conns i).conn).data_length_le
  rw [hkeep.2, hcap] at hdata
  obtain ⟨_, t₁, u, rfl, h₁, hk⟩ := runs_bind.mp hr
  obtain rfl := runs_request.mp h₁
  generalize wsConnPoll 64 (io.conns i).conn = p at *
  have hfd : ((io.setConn i p.conn).conns i).fd = (io.conns i).fd := by rw [WsIo.setConn_same]
  have hused : ((io.setConn i p.conn).conns i).used = true := by rw [WsIo.setConn_same]; exact hu
  have hconn : ((io.setConn i p.conn).conns i).conn = p.conn := by rw [WsIo.setConn_same]
  refine ⟨u, by rw [hfd]; rfl, ?_⟩
  -- one frame goes out and nothing changes
  have sends : ∀ {m : Send} {b : Built} (bytes : List UInt8), echoFrame p.event = [bytes] →
      wsIoSend sv.maxMessage (io.setConn i p.conn) i m
        = (sendBuilt (io.setConn i p.conn) i b >>= fun rc => pure (rc, io.setConn i p.conn)) →
      0 < b.n ∧ b.out.take b.n = bytes →
      Runs (reply sv.maxMessage (io.setConn i p.conn) (.send i m fun _ => .done ())) u io' →
      io'.conns = (io.setConn i p.conn).conns ∧
      (echoFrame p.event = [] ∧ u = [] ∨ ∃ bytes rc, echoFrame p.event = [bytes] ∧
        Writes i (io.conns i).fd .frame bytes u rc) := by
    rintro m b bytes hecho hm ⟨hn, hbytes⟩ hk
    rw [reply, hm] at hk
    obtain ⟨r, v, w, rfl, hv, hw⟩ := runs_bind.mp hk
    obtain ⟨rc, v₁, v₂, rfl, hv₁, hv₂⟩ := runs_bind.mp hv
    obtain ⟨rfl, rfl⟩ := runs_pure.mp hv₂
    obtain ⟨rfl, rfl⟩ := runs_pure.mp hw
    have hwrites := sendBuilt_frame hused hn hbytes hv₁
    rw [hfd] at hwrites
    rw [List.append_nil, List.append_nil]
    exact ⟨rfl, .inr ⟨bytes, rc, hecho, hwrites⟩⟩
  rw [he.onEvent, echoOnEvent, echoReply] at hk
  cases hret : p.ret with
  | none | pong | error =>
      simp only [Poll.event, hret] at hk
      obtain ⟨rfl, rfl⟩ := runs_pure.mp hk
      exact ⟨rfl, .inl ⟨by simp [echoFrame, Poll.event, hret], rfl⟩⟩
  | message =>
      simp only [Poll.event, hret] at hk
      refine sends (plainFrame p.ev.op p.data) ?_ rfl ?_ hk
      · simp [echoFrame, Poll.event, hret]
      · rw [hconn, wsSendMessage, hact (.inl hret)]
        exact buildFrame_plain (hkeep.1.trans hrole) hdata sv.maxMessage_lt
  | ping =>
      simp only [Poll.event, hret] at hk
      refine sends (plainFrame .pong p.data) ?_ rfl ?_ hk
      · simp [echoFrame, Poll.event, hret]
      · rw [hconn, wsSendPong, hact (.inr hret)]
        exact buildFrame_plain (hkeep.1.trans hrole) hdata sv.maxMessage_lt
  | close =>
      -- the connection is closed already, so `ws_send_close` builds nothing
      have hnone : wsSendClose 64 p.conn key p.ev.closeCode (List.replicate 32 0)
          = (⟨0, List.replicate 32 0⟩, p.conn, []) := by
        rw [wsSendClose, if_pos (by rw [hclosed hret]; decide)]
      simp only [Poll.event, hret] at hk
      obtain ⟨r, v, w, rfl, hv, hw⟩ := runs_bind.mp hk
      obtain ⟨rfl, rfl⟩ := runs_pure.mp hw
      have hself : (io.setConn i p.conn).setConn i p.conn = io.setConn i p.conn := by
        have := (io.setConn i p.conn).setConn_self i
        rwa [hconn] at this
      rw [wsIoSend, wsIoSendClose, hconn, hnone] at hv
      dsimp only at hv
      rw [hself] at hv
      obtain ⟨rc, v₁, v₂, rfl, hv₁, hv₂⟩ := runs_bind.mp hv
      obtain ⟨rfl, rfl⟩ := runs_pure.mp hv₂
      rcases sendBuilt_runs hv₁ with
        rfl | ⟨-, hpos, -⟩
      · exact ⟨rfl, .inl ⟨by simp [echoFrame, Poll.event, hret], rfl⟩⟩
      · exact absurd hpos (Nat.lt_irrefl 0)

/-! ### Echoes -/

/-- The frames handed to `write_all`, in order. -/
def framesOf (l : List Deed) : List (List UInt8) := (sends l).reverse.map Sending.frame

/-- Deeds that hand over one frame for each message and each ping they report. -/
def Echoes (m : List Deed) : Prop :=
  ∀ l, Settled l → Settled (l ++ m) ∧
    framesOf (l ++ m) = framesOf l ++ (heard (talk m)).flatMap echoFrame

theorem Echoes.append {m m' : List Deed} (h : Echoes m) (h' : Echoes m') : Echoes (m ++ m') := by
  intro l hl
  obtain ⟨hs, hf⟩ := h l hl
  obtain ⟨hs', hf'⟩ := h' (l ++ m) hs
  rw [← List.append_assoc]
  refine ⟨hs', ?_⟩
  rw [hf', hf, talk_append, heard_append, List.flatMap_append, List.append_assoc]

/-- What writes no frame and reports nothing. -/
theorem Echoes.of_still {m : List Deed} (hsends : ∀ as, run sendStep as m = as)
    (htalk : heard (talk m) = []) : Echoes m := by
  intro l hl
  have heq : sends (l ++ m) = sends l := by rw [sends_append, hsends]
  refine ⟨by rw [Settled, heq]; exact hl, ?_⟩
  rw [framesOf, heq, htalk]
  exact (List.append_nil _).symm

theorem Echoes.nil : Echoes [] := .of_still (fun _ => rfl) rfl

/-- Reads, chunks, the close, and the writes of the handshake. -/
theorem Echoes.single {d : Deed} (hsend : ∀ as, sendStep as d = as)
    (htalk : heard (talk [d]) = []) : Echoes [d] := .of_still hsend htalk

theorem Echoes.writes {fd : Nat} {m : List Deed}
    (hm : ∀ d ∈ m, ∃ bytes w, d = ⟨fd, .write .handshake bytes, w⟩) : Echoes m := by
  induction m with
  | nil => exact .nil
  | cons d m ih =>
      obtain ⟨bytes, w, rfl⟩ := hm d (List.mem_cons_self ..)
      exact (Echoes.single (fun _ => rfl) rfl).append (ih fun d hd => hm d (List.mem_cons_of_mem _ hd))

theorem Sending.pending_of_rest {a : Sending} {buf : List UInt8} (hok : a.failed = false)
    (hbuf : buf = a.frame.drop a.sent) (hne : buf ≠ []) : a.pending = true := by
  have : ¬ a.frame.length ≤ a.sent := fun hle => hne (hbuf.trans (List.drop_eq_nil_iff.mpr hle))
  simpa [Sending.pending, hok] using this

/-- What is left of a frame is written, or a write fails. -/
theorem sends_rest {fd : Nat} {buf : List UInt8} {u : Trace sv.maxConns} {rc : Int}
    (hw : Writes i fd .frame buf u rc) {l : List Deed} {a : Sending} {older : List Sending}
    (hl : sends l = a :: older) (hbuf : buf = a.frame.drop a.sent) (hok : a.failed = false) :
    ∃ b, sends (l ++ deeds u) = b :: older ∧ b.frame = a.frame ∧ b.pending = false := by
  induction hw generalizing l a with
  | done =>
      have hall := List.drop_eq_nil_iff.mp hbuf.symm
      refine ⟨a, by rw [deeds_nil, List.append_nil, hl], rfl, ?_⟩
      simpa [Sending.pending, hok] using hall
  | @fail buf w hne hz =>
      have hpend := Sending.pending_of_rest hok hbuf hne
      refine ⟨a.write w.val, ?_, rfl, by simp [Sending.pending, Sending.write, hz]⟩
      rw [sends_append, hl]
      simp [sendStep, inFlight, hpend]
  | @more buf w t rc hne hpos _ ih =>
      have hpend := Sending.pending_of_rest hok hbuf hne
      have hone : sends (l ++ [⟨fd, .write .frame buf, w⟩]) = a.write w.val :: older := by
        rw [sends_append, hl]
        simp [sendStep, inFlight, hpend]
      rw [deeds_client, List.append_cons]
      exact ih (a := a.write w.val) hone ((congrArg (List.drop w.val) hbuf).trans List.drop_drop)
        (decide_eq_false (by omega))

/-- **One frame** is handed over, whether or not it is written in full. -/
theorem sends_frame {fd : Nat} {buf : List UInt8} {u : Trace sv.maxConns} {rc : Int} {l : List Deed}
    (hw : Writes i fd .frame buf u rc) (hne : buf ≠ []) (hl : Settled l) :
    Settled (l ++ deeds u) ∧ framesOf (l ++ deeds u) = framesOf l ++ [buf] := by
  obtain ⟨b, hb, hframe, hpend⟩ : ∃ b, sends (l ++ deeds u) = b :: sends l ∧ b.frame = buf ∧
      b.pending = false := by
    cases hw with
    | done => exact absurd rfl hne
    | @fail _ w _ hz =>
        refine ⟨(Sending.start buf).write w.val, ?_, rfl, by simp [Sending.pending, Sending.write, hz]⟩
        rw [sends_append]
        simp only [deeds_client, deeds_nil, run_cons, run_nil, sendStep]
        rw [hl]
    | @more _ w t _ _ hpos hrest =>
        have hone : sends (l ++ [⟨fd, .write .frame buf, w⟩])
            = (Sending.start buf).write w.val :: sends l := by
          rw [sends_append]
          simp only [run_cons, run_nil, sendStep]
          rw [hl]
        rw [deeds_client, List.append_cons]
        exact sends_rest hrest hone (by simp [Sending.write, Sending.start])
          (decide_eq_false (by omega))
  refine ⟨by rw [Settled, hb, inFlight, hpend]; rfl, ?_⟩
  rw [framesOf, hb, List.reverse_cons, List.map_append, framesOf]
  simp [hframe]

theorem plainFrame_ne_nil (op : WsOpcode) (payload : List UInt8) : plainFrame op payload ≠ [] := by
  intro hnil
  have := headerBytes_length_ge { WsFrameHeader.zero with
    opcode := op, payloadLen := UInt64.ofNat payload.length, fin := true }
  rw [plainFrame, List.append_eq_nil_iff] at hnil
  rw [hnil.1] at this
  cases this

theorem echoFrame_ne_nil {ev : Event} {bytes : List UInt8} (h : echoFrame ev = [bytes]) :
    bytes ≠ [] := by
  rw [echoFrame] at h
  split at h
  · obtain rfl := List.singleton_inj.mp h
    exact plainFrame_ne_nil _ _
  · obtain rfl := List.singleton_inj.mp h
    exact plainFrame_ne_nil _ _
  · cases h

theorem talk_writes {fd : Nat} {src : Source} {m : List Deed}
    (hm : ∀ d ∈ m, ∃ bytes w, d = ⟨fd, .write src bytes, w⟩) : talk m = [] := by
  refine List.filterMap_eq_nil_iff.mpr fun d hd => ?_
  obtain ⟨bytes, w, rfl⟩ := hm d hd
  rfl

/-- An event and its answer. -/
theorem Echoes.event {fd : Nat} {ev : Event} {u : Trace sv.maxConns}
    (hu : echoFrame ev = [] ∧ u = [] ∨
      ∃ bytes rc, echoFrame ev = [bytes] ∧ Writes i fd .frame bytes u rc) :
    Echoes (⟨fd, .event ev, ()⟩ :: deeds u) := by
  intro l hl
  have hquiet : sends (l ++ [⟨fd, .event ev, ()⟩]) = sends l := sends_append ..
  have hevent : framesOf (l ++ [⟨fd, .event ev, ()⟩]) = framesOf l := by rw [framesOf, hquiet]; rfl
  have hset : Settled (l ++ [⟨fd, .event ev, ()⟩]) := by rw [Settled, hquiet]; exact hl
  rw [List.append_cons]
  rcases hu with ⟨hnone, rfl⟩ | ⟨bytes, rc, hecho, hw⟩
  · rw [deeds_nil, List.append_nil, hevent]
    refine ⟨hset, ?_⟩
    change framesOf l = framesOf l ++ (echoFrame ev ++ [])
    rw [hnone]
    exact (List.append_nil _).symm
  · obtain ⟨hset', hframes⟩ := sends_frame hw (echoFrame_ne_nil hecho) hset
    refine ⟨hset', ?_⟩
    have htalk : talk (⟨fd, .event ev, ()⟩ :: deeds u) = [.event ev] := by
      change Talk.event ev :: talk (deeds u) = [.event ev]
      rw [talk_writes hw.mem]
    rw [hframes, hevent, htalk]
    change framesOf l ++ [bytes] = framesOf l ++ (echoFrame ev ++ [])
    rw [hecho]
    rfl

/-- A slot in use whose connection the echo server can answer. -/
structure Answerable (maxMessage : Nat) (s : WsSlot) : Prop where
  used : s.used = true
  role : s.conn.role = .server
  cap : s.conn.msgBuf.length = maxMessage

/-- What is done for the client of slot `i`, and for no other, echoes what it reports. -/
structure Echoing (i : Fin sv.maxConns) (io : WsIo sv.maxConns Unit) (t : Trace sv.maxConns)
    (io' : WsIo sv.maxConns Unit) : Prop where
  only : Only i (io.conns i).fd t
  echoes : Echoes (deeds t)
  fd : (io'.conns i).fd = (io.conns i).fd

theorem Echoing.trans {io₁ : WsIo sv.maxConns Unit} {u : Trace sv.maxConns}
    (h : Echoing i io t io₁) (h' : Echoing i io₁ u io') : Echoing i io (t ++ u) io' := by
  have honly := h'.only
  rw [h.fd] at honly
  refine ⟨h.only.append honly, ?_, h'.fd.trans h.fd⟩
  rw [deeds_append]
  exact h.echoes.append h'.echoes

/-- A read, a chunk, or the close. -/
theorem Echoing.deed {a : Act} (r : a.Answer) (hfd : (io'.conns i).fd = (io.conns i).fd)
    (hsend : ∀ as, sendStep as ⟨(io.conns i).fd, a, r⟩ = as)
    (htalk : heard (talk [⟨(io.conns i).fd, a, r⟩]) = []) :
    Echoing i io [⟨.client i (io.conns i).fd a, r⟩] io' :=
  ⟨.cons _ .nil, .single hsend htalk, hfd⟩

theorem setConn_fd (io : WsIo sv.maxConns Unit) (i : Fin sv.maxConns) (c : WsConn) :
    ((io.setConn i c).conns i).fd = (io.conns i).fd := by
  rw [WsIo.setConn_same]

/-- **`drain_events`** of the echo server. -/
theorem drainLoop_echo {fuel : Nat} {r : Bool × WsIo sv.maxConns Unit} (he : IsEcho key sv)
    (ha : Answerable sv.maxMessage (io.conns i)) (hr : Runs (drainLoop sv i fuel io) t r) :
    Echoing i io t r.2 := by
  induction fuel generalizing io t with
  | zero =>
      obtain ⟨rfl, rfl⟩ := runs_pure.mp hr
      exact ⟨.nil, .nil, rfl⟩
  | succ fuel ih =>
      rw [drainLoop] at hr
      split at hr
      · obtain ⟨rfl, rfl⟩ := runs_pure.mp hr
        exact ⟨.nil, .nil, setConn_fd ..⟩
      · obtain ⟨io₁, t₁, t₂, rfl, h₁, hk⟩ := runs_bind.mp hr
        obtain ⟨u, rfl, hconns, hu⟩ := echo_event he ha.used ha.role ha.cap h₁
        obtain ⟨hrole, hcap⟩ := poll_keeps 64 (io.conns i).conn
        have hslot : io₁.conns i
            = { io.conns i with conn := (wsConnPoll 64 (io.conns i).conn).conn } := by
          rw [hconns, WsIo.setConn_same]
        have hturn : Echoing i io (⟨.client i (io.conns i).fd
            (.event (wsConnPoll 64 (io.conns i).conn).event), ()⟩ :: u) io₁ := by
          refine ⟨.cons _ ?_, .event hu, by rw [hslot]⟩
          rcases hu with ⟨-, rfl⟩ | ⟨bytes, rc, -, hw⟩
          · exact .nil
          · exact hw.only
        split at hk
        · obtain ⟨rfl, rfl⟩ := runs_pure.mp hk
          rw [List.append_nil]
          exact hturn
        · have ha₁ : Answerable sv.maxMessage (io₁.conns i) := by
            rw [hslot]
            exact ⟨ha.used, hrole.trans ha.role, hcap.trans ha.cap⟩
          exact hturn.trans (ih ha₁ hk)

theorem feed_echo {bytes : List UInt8} {r : Bool × WsIo sv.maxConns Unit} (he : IsEcho key sv)
    (ha : Answerable sv.maxMessage (io.conns i)) (hr : Runs (feed sv io i bytes) t r) :
    Echoing i io t r.2 := by
  rw [feed] at hr
  split at hr
  · obtain ⟨_, t₁, t₂, rfl, h₁, hk⟩ := runs_bind.mp hr
    obtain rfl := runs_request.mp h₁
    have hrecv : Echoing i io [⟨.client i (io.conns i).fd (.recv bytes), ()⟩]
        (io.setConn i (wsConnRecv 64 (io.conns i).conn bytes).2) :=
      .deed (a := .recv bytes) () (setConn_fd ..) (fun _ => rfl) rfl
    dsimp only at hk
    split at hk
    · obtain ⟨rfl, rfl⟩ := runs_pure.mp hk
      exact hrecv
    · have ha₁ : Answerable sv.maxMessage
          ((io.setConn i (wsConnRecv 64 (io.conns i).conn bytes).2).conns i) := by
        rw [WsIo.setConn_same]
        exact ⟨ha.used, (exec_role 64 (io.conns i).conn (.recv bytes)).trans ha.role,
          (exec_msgCap 64 (io.conns i).conn (.recv bytes)).trans ha.cap⟩
      exact hrecv.trans (drainLoop_echo he ha₁ hk)
  · exact drainLoop_echo he ha hr

theorem leave_echo {p : Bool × WsIo sv.maxConns Unit} (h : Runs (leave i p) t io') :
    Echoing i p.2 t io' := by
  rcases leave_cases h with ⟨-, rfl, rfl⟩ | ⟨-, rfl, rfl⟩
  · exact .deed (a := .close) () (by rw [WsIo.set_same]) (fun _ => rfl) rfl
  · exact ⟨.nil, .nil, rfl⟩

/-- The answer to the handshake, in full or not. -/
theorem Answers.echo {accept : List UInt8} {rc : Int}
    (h : Answers i (io.conns i).fd accept t rc) : Echoing i io t io :=
  ⟨h.only, .writes h.mem, rfl⟩

/-- **A service** of a client by the echo server. -/
theorem Service.echo (he : IsEcho key sv) (hs : Service sv i io t io')
    (hu : (io.conns i).used = true)
    (hbuf : (io.conns i).isOpen = false → (io.conns i).msgBuf.length = sv.maxMessage)
    (hlive : (io.conns i).isOpen = true → Answerable sv.maxMessage (io.conns i)) :
    Only i (io.conns i).fd t ∧ Echoes (deeds t) := by
  have hread : ∀ {room : Nat} (r : Act.Answer (.read room)),
      Echoing i io [⟨.client i (io.conns i).fd (.read room), r⟩] io := fun r =>
    .deed r rfl (fun _ => rfl) rfl
  have hclose : ∀ {io' : WsIo sv.maxConns Unit}, (io'.conns i).fd = (io.conns i).fd →
      Echoing i io [⟨.client i (io.conns i).fd .close, ()⟩] io' := fun hfd =>
    .deed (a := .close) () hfd (fun _ => rfl) rfl
  suffices ∃ io', Echoing i io t io' from this.elim fun _ h => ⟨h.only, h.echoes⟩
  cases hs with
  | @wait r => exact ⟨io, hread r⟩
  | @reject r t s _ hrej =>
      have hrej' : Echoing i io t io := by
        cases hrej with
        | ended | large | keyless => exact ⟨.nil, .nil, rfl⟩
        | unwritten hans => exact hans.echo
      exact ⟨io, ((hread r).trans hrej').trans (hclose rfl)⟩
  | @upgrade r accept rest t u v p io' ho _ hans _ hf hv =>
      have hopened : Echoing i io [] (io.set i (((io.conns i).gather r.val).opened sv.role)) :=
        ⟨.nil, .nil, by rw [WsIo.set_same]; rfl⟩
      have hfed := feed_echo he ⟨by rw [WsIo.set_same]; exact hu,
        by rw [WsIo.set_same]; exact he.role, by rw [WsIo.set_same]; exact hbuf ho⟩ hf
      have := ((((hread r).trans hans.echo).trans hopened).trans hfed).trans (leave_echo hv)
      rw [List.append_nil] at this
      exact ⟨io', this⟩
  | @eof r => exact ⟨io, (hread r).trans (hclose rfl)⟩
  | @pump r u v p io' ho _ hf hv =>
      exact ⟨io', ((hread r).trans (feed_echo he (hlive ho) hf)).trans (leave_echo hv)⟩

end Handling

/-! ### Runs -/

theorem Dialogue.drain_keeps (fuel : Nat) (d : Dialogue) :
    (d.drain fuel).conn.role = d.conn.role ∧
      (d.drain fuel).conn.msgBuf.length = d.conn.msgBuf.length := by
  induction fuel generalizing d with
  | zero => exact ⟨rfl, rfl⟩
  | succ fuel ih =>
      have hpoll := poll_keeps 64 d.conn
      rw [Dialogue.drain]
      split
      · exact hpoll
      · dsimp only
        split
        · exact hpoll
        · exact ⟨(ih _).1.trans hpoll.1, (ih _).2.trans hpoll.2⟩

/-- A dialogue keeps its role and its buffer. -/
theorem dialogue_keeps (role : WsRole) (maxMessage : Nat) (cs : List (List UInt8)) :
    (dialogue role maxMessage cs).conn.role = role ∧
      (dialogue role maxMessage cs).conn.msgBuf.length = maxMessage := by
  refine run_inv_all (P := fun d : Dialogue => d.conn.role = role ∧
    d.conn.msgBuf.length = maxMessage) (fun d bytes hd => ?_) cs ?_
  · have hrole := exec_role 64 d.conn (.recv bytes)
    have hcap := exec_msgCap 64 d.conn (.recv bytes)
    rw [Dialogue.give]
    split
    · exact hd
    · dsimp only
      split
      · exact ⟨hrole.trans hd.1, hcap.trans hd.2⟩
      · have hdrain := Dialogue.drain_keeps ((wsConnRecv 64 d.conn bytes).2.rxLen + 1)
          ⟨d.talk ++ [.chunk bytes], false, (wsConnRecv 64 d.conn bytes).2⟩
        exact ⟨hdrain.1.trans (hrole.trans hd.1), hdrain.2.trans (hcap.trans hd.2)⟩
  · refine ⟨rfl, ?_⟩
    exact List.length_replicate

theorem Settled.pending {l : List Deed} (h : Settled l) : ∀ a ∈ sends l, a.pending = false := by
  intro a ha
  have htail := pending_of_mem_tail l a
  rw [Settled] at h
  cases hs : sends l with
  | nil => rw [hs] at ha; cases ha
  | cons b bs =>
      rw [hs] at h ha htail
      rcases List.mem_cons.mp ha with rfl | ha
      · simpa [inFlight] using h
      · exact htail ha

/-- No frame is on its way and none failed, so each of them is out in full. -/
theorem Stream.written_frames {l : List Deed} (h : Stream l) (hs : Settled l)
    (hok : ∀ a ∈ sends l, a.failed = false) :
    Libws.written l = answered l ++ (framesOf l).flatten := by
  have hpart : ∀ a ∈ (sends l).reverse, a.part = a.frame := by
    intro a ha
    have ha := List.mem_reverse.mp ha
    have hpend := hs.pending a ha
    have hsent : a.frame.length ≤ a.sent := by simpa [Sending.pending, hok a ha] using hpend
    exact List.take_of_length_le hsent
  rw [h.written, framesOf, ← List.flatMap_def]
  exact congrArg _ (List.flatMap_congr hpart)

/-- The frames of a life are the echoes of what was reported in it, and none is on its way. -/
structure Echoed (l : List Deed) : Prop where
  settled : Settled l
  frames : framesOf l = (heard (talk l)).flatMap echoFrame

theorem Echoed.append {l m : List Deed} (h : Echoed l) (hm : Echoes m) : Echoed (l ++ m) := by
  obtain ⟨hs, hf⟩ := hm l h.settled
  refine ⟨hs, ?_⟩
  rw [hf, h.frames, talk_append, heard_append, List.flatMap_append]

theorem echoed_run {key : MaskKey} {sv : Server Unit} (he : IsEcho key sv) {fds : List Nat}
    {t : Trace sv.maxConns} {io : WsIo sv.maxConns Unit}
    (hr : Runs (runLoop sv (wsServe sv ()) fds) t io) (i : Fin sv.maxConns) :
    Echoed (life i t) := by
  refine (runLoop_services (P := fun io h => (∀ i, Conversing sv (io.conns i) (life i h)) ∧
    ∀ i, Echoed (life i h)) ?_ ?_ ⟨fun _ => .silent rfl rfl fun hno => (by cases hno),
      fun _ => ⟨rfl, rfl⟩⟩ hr).2 i
  · rintro io h k t io' - ⟨hall, hech⟩ hu hs
    have hk := hall k
    refine ⟨.service hall hu hs, fun j => ?_⟩
    obtain ⟨honly, hechoes⟩ := hs.echo he hu
      (fun ho => by rw [(hk.shaking hu ho).2, List.length_replicate])
      (fun ho => by
        have hsent := (hk.live hu ho).2
        obtain ⟨hrole, hcap⟩ := dialogue_keeps sv.role sv.maxMessage (chunks (talk (life k h)))
        exact ⟨hu, hsent.role.trans (hrole.trans he.role),
          (congrArg List.length hsent.msgBuf).trans hcap⟩)
    by_cases hjk : j = k
    · subst hjk
      rw [life_same honly]
      exact (hech j).append hechoes
    · rw [life_other honly hjk]
      exact hech j
  · rintro io h t io' ⟨hall, hech⟩ ha
    refine ⟨.arrival hall ha, fun j => ?_⟩
    cases ha with
    | failed | refuse =>
        rw [life, run_append]
        exact hech j
    | @seat k fd =>
        rw [life_seat]
        split
        · exact ⟨rfl, rfl⟩
        · exact hech j

/-- **The echo server.**  In every run, for every client: the frames handed to the socket are one
for each message and each ping that the dialogue of its chunks reports, in order: the message as it
was reported, or a pong with the bytes of the ping, and nothing for a close, a pong or an error.
They follow the whole 101 response, and as long as the write of no frame fails the client is sent
exactly these bytes. -/
theorem echo_replies (key : MaskKey) (maxConns maxMessage listenFd : Nat)
    (hmax : maxMessage + chunkCap < 2 ^ 64) (fds : List Nat) (t : Trace maxConns)
    (io : WsIo maxConns Unit)
    (hr : Runs (runLoop (echoServe key maxConns maxMessage listenFd hmax)
      (wsServe (echoServe key maxConns maxMessage listenFd hmax) ()) fds) t io)
    (i : Fin maxConns) :
    let l := life i t
    let echoes := (heard (dialogue .server maxMessage (chunks (talk l))).talk).flatMap echoFrame
    framesOf l = echoes ∧
      (echoes ≠ [] → ∃ accept, Asked l accept ∧ answered l = response accept) ∧
      ((∀ a ∈ sends l, a.failed = false) → written l = answered l ++ echoes.flatten) := by
  intro l echoes
  have he : IsEcho key (echoServe key maxConns maxMessage listenFd hmax) := ⟨rfl, fun _ _ _ => rfl⟩
  have hech := echoed_run he hr i
  have htalk := (conversing_run hr i).talk
  have hstream := ((outward_run hr).now i).stream
  have hframes : framesOf l = echoes := by
    exact hech.frames.trans (congrArg (fun ts => (heard ts).flatMap echoFrame) htalk)
  refine ⟨hframes, fun hne => ?_, fun hok => ?_⟩
  · have hsends : sends l ≠ [] := by
      intro hnil
      refine hne (hframes.symm.trans ?_)
      rw [framesOf, hnil]
      rfl
    rcases hstream.response with ⟨-, hnil⟩ | ⟨accept, hask, -, hall⟩
    · exact absurd hnil hsends
    · exact ⟨accept, hask, hall hsends⟩
  · rw [← hframes]
    exact hstream.written_frames hech.settled hok

theorem sixtyFour_fits : 64 + chunkCap < 2 ^ 64 := by decide

/-- A client of the echo server that sends a message. -/
def echoExample : Trace 1 × WsIo 1 Unit :=
  let sv := echoServe (.replicate 4 0) 1 64 3 sixtyFour_fits
  play (environment [5] [upgradeRequest, hiFrame]) [] (runLoop sv (wsServe sv ()) [3, 5, 5])

theorem echo_replies_example :
    let l := life 0 echoExample.1
    framesOf l = [[0x81, 0x02, 0x48, 0x69]] ∧
      written l = answered l ++ [0x81, 0x02, 0x48, 0x69] := by
  intro l
  have hechoes : (heard (dialogue .server 64 (chunks (talk l))).talk).flatMap echoFrame
      = [[0x81, 0x02, 0x48, 0x69]] := by decide +kernel
  obtain ⟨hframes, -, hwritten⟩ := echo_replies (.replicate 4 0) 1 64 3 sixtyFour_fits [3, 5, 5]
    echoExample.1 echoExample.2 (runs_play _ _ _) 0
  rw [hechoes] at hframes hwritten
  exact ⟨hframes, hwritten (by decide +kernel)⟩

end Libws
