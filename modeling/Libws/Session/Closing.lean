import Libws.Session.LifecycleSpec

/-!
# Session — the closing handshake, seen from the sender

What the `ws_send_*` calls can still put on the wire once a close has been sent or received.
`ws_send_close` works in `OPEN` only, the other two in `OPEN` and `CLOSING`, and the peer's close
takes the connection from either to `CLOSED` in one step.

* `close_unanswered`: after the peer's close `sent_close` is set and no call sends anything, so
  the close is never answered.
* `close_sent_once`: after a close of its own the endpoint sends no second one, and no message
  from the peer's close on; until then it sends messages as before.
-/

namespace Libws
open Libws.Support

/-! ### What a call sends -/

/-- The bytes a builder reports to have written, when it reports any. -/
def Built.frames (b : Built) : List (List UInt8) := if 0 < b.n then [b.out.take b.n] else []

/-- The frames a call produces. -/
def produced (w : Nat) (c : WsConn) : Call → List (List UInt8)
  | .sendMessage key op payload out => (wsSendMessage w c key op payload out).frames
  | .sendPong key payload out => (wsSendPong w c key payload out).frames
  | .sendClose key code out => (wsSendClose w c key code out).1.frames
  | _ => []

/-- A frame with the opcode of a close. -/
def IsClose (frame : List UInt8) : Prop := frame.headD 0 &&& 0x0F = WsOpcode.close

instance : DecidablePred IsClose := fun _ => inferInstanceAs (Decidable (_ = _))

section Guards

variable {c : WsConn} {w : Nat}

theorem wsSendClose_not_open (h : c.state ≠ .open) (key : MaskKey) (code : UInt16)
    (out : List UInt8) : wsSendClose w c key code out = (⟨0, out⟩, c, []) := by
  rw [wsSendClose, if_pos h]

theorem wsSendMessage_inactive (h : wsLcActive c = false) (key : MaskKey) (op : WsOpcode)
    (payload out : List UInt8) : wsSendMessage w c key op payload out = ⟨0, out⟩ := by
  rw [wsSendMessage, h]
  rfl

theorem wsSendMessage_active (h : wsLcActive c = true) (key : MaskKey) (op : WsOpcode)
    (payload out : List UInt8) :
    wsSendMessage w c key op payload out = buildFrame w c key op payload out := by
  rw [wsSendMessage, h]
  rfl

theorem wsSendPong_inactive (h : wsLcActive c = false) (key : MaskKey)
    (payload out : List UInt8) : wsSendPong w c key payload out = ⟨0, out⟩ := by
  rw [wsSendPong, h]
  rfl

theorem inactive_of_closed (h : c.state = .closed) : wsLcActive c = false := by
  simp [wsLcActive, h]

/-- A closed connection sends nothing. -/
theorem produced_closed (h : c.state = .closed) (call : Call) : produced w c call = [] := by
  have hin := inactive_of_closed h
  have hne : c.state ≠ .open := by simp [h]
  cases call with
  | sendMessage key op payload out => rw [produced, wsSendMessage_inactive hin]; rfl
  | sendPong key payload out => rw [produced, wsSendPong_inactive hin]; rfl
  | sendClose key code out => rw [produced, wsSendClose_not_open hne]; rfl
  | «open» | recv | poll => rfl

theorem trace_produced_closed (h : c.state = .closed) (more : List Call) :
    trace (exec w) (produced w) c more = [] := by
  induction more generalizing c with
  | nil => rfl
  | cons call more ih =>
      rw [trace, produced_closed h, ih ((exec_latched w c call).2 h)]
      rfl

/-- A close is refused and nothing changes, or it is sent and leaves the connection in
`CLOSING`. -/
theorem wsSendClose_cases (w : Nat) (c : WsConn) (key : MaskKey) (code : UInt16)
    (out : List UInt8) :
    (wsSendClose w c key code out).1.n = 0 ∧ (wsSendClose w c key code out).2.1 = c ∨
    0 < (wsSendClose w c key code out).1.n ∧ c.state = .open ∧
      (wsSendClose w c key code out).2.1 = { c with sentClose := true, state := .closing } := by
  by_cases ho : c.state = .open
  · rw [wsSendClose, if_neg (not_not.mpr ho)]
    simp only
    split
    · rename_i hn
      rw [wsLcSendClose, if_neg (not_not.mpr ho)]
      exact .inr ⟨hn, ho, rfl⟩
    · rename_i hn
      exact .inl ⟨Nat.eq_zero_of_not_pos hn, rfl⟩
  · rw [wsSendClose_not_open ho]
    exact .inl ⟨rfl, rfl⟩

end Guards

/-! ### The peer's close -/

/-- A buffered close with a valid body is reported. -/
theorem Sound.poll_reports_close {c : WsConn} (hs : Sound c) (hopen : c.state = .open)
    (hf : c.failed = false) {f : Frame} {t : List UInt8} (hraw : rawBytes c = f.wire ++ t)
    (hop : f.h.opcode = .close) (hmask : maskOk c f.h = true)
    (hbody : (closeBody f.payload).isSome) : (wsConnPoll 64 c).ret = .close := by
  obtain ⟨code, hcode⟩ := Option.isSome_iff_exists.mp hbody
  have hadm : (c.receiver c.msg).Admits c.role f := by
    refine ⟨hf, .inl hopen, fun hr => ?_⟩
    simpa [maskOk, hr] using hmask
  have hk : f.kind = .close := by rw [Frame.kind, hop]; rfl
  have ho := (hs.poll_frame hf hraw).2
  simp only [Receiver.verdict_of_admits hadm, hk, hcode] at ho
  generalize wsConnPoll 64 c = p at ho
  cases ho with
  | close => rfl

/-- **A close of the peer cannot be answered.**  Whatever has happened before, on an open
connection that has sent no close: the poll of a complete close frame with a well-formed body
reports the close, and from the poll that reports it on `sent_close` is set, while the calls made
so far have produced no close frame and those to come produce no frame at all. -/
theorem close_unanswered (role : WsRole) (buf : MsgBuf 64) (calls : List Call) :
    let c₀ := wsConnInit role buf.bytes
    let c := run (exec 64) c₀ calls
    let p := wsConnPoll 64 c
    c.state = .open → (∀ frame ∈ trace (exec 64) (produced 64) c₀ calls, ¬ IsClose frame) →
    (Guarded (exec 64) (NoWrap 64) c₀ calls → c.failed = false → ∀ (f : Frame) (t : List UInt8),
      rawBytes c = f.wire ++ t → f.h.opcode = .close → maskOk c f.h = true →
      (closeBody f.payload).isSome → p.ret = .close) ∧
    (p.ret = .close → ∀ more,
      let d := run (exec 64) c₀ (calls ++ .poll :: more)
      d.sentClose = true ∧
      (∀ frame ∈ trace (exec 64) (produced 64) c₀ (calls ++ .poll :: more), ¬ IsClose frame) ∧
      ∀ key code out, (wsSendClose 64 d key code out).1.n = 0) := by
  intro c₀ c p hopen hnone
  constructor
  · intro hg hf f t hraw hop hmask hbody
    exact (sound_run hg).poll_reports_close hopen hf hraw hop hmask hbody
  · intro hclose more
    have hrun : run (exec 64) c₀ (calls ++ .poll :: more) = run (exec 64) p.conn more := by
      rw [run_append]
      rfl
    have hpoll : p.conn.state = .closed := poll_close_state 64 c hclose
    have hend : (run (exec 64) c₀ (calls ++ .poll :: more)).state = .closed :=
      hrun ▸ run_closed 64 more hpoll
    refine ⟨?_, ?_, ?_⟩
    · exact ((strong_run 64 role buf.bytes (calls ++ .poll :: more)).inv1.mp hend).1
    · rw [trace_append]
      have hlater : trace (exec 64) (produced 64) c (.poll :: more) = [] :=
        trace_produced_closed hpoll more
      rw [hlater, List.append_nil]
      exact hnone
    · intro key code out
      rw [wsSendClose_not_open (by simp [hend])]

/-- A masked close with the code 1000. -/
def closeNormal : Frame where
  hdr := [0x88, 0x82, 5, 6, 7, 8]
  h := ⟨.close, 2, #v[5, 6, 7, 8], true, true, 0⟩
  body := [0x06, 0xEE]
  parsed := by decide +kernel
  body_len := by decide

/-- The driver reports the close of the peer and refuses the reply it asks for. -/
theorem close_reply_refused :
    let c := run (exec 64) (wsConnInit .server (zeroBuf 16 (by decide)).bytes)
      [.open, .recv closeNormal.wire]
    c.state = .open ∧ c.failed = false ∧ rawBytes c = closeNormal.wire ∧
      closeBody closeNormal.payload = some 1000 ∧ wsCloseCodeSendable 1000 = true ∧
      (wsConnPoll 64 c).ret = .close ∧ (wsConnPoll 64 c).conn.sentClose = true ∧
      (wsSendClose 64 (wsConnPoll 64 c).conn (Vector.replicate 4 0) 1000
        (List.replicate 8 0)).1.n = 0 := by
  decide +kernel

theorem close_unanswered_normal :
    let calls : List Call := [.open, .recv closeNormal.wire]
    let c₀ := wsConnInit .server (zeroBuf 16 (by decide)).bytes
    (wsConnPoll 64 (run (exec 64) c₀ calls)).ret = .close ∧
      ∀ more key code out,
        (wsSendClose 64 (run (exec 64) c₀ (calls ++ .poll :: more)) key code out).1.n = 0 := by
  intro calls c₀
  obtain ⟨hret, hdead⟩ := close_unanswered .server (zeroBuf 16 (by decide)) calls
    (by decide +kernel) (by decide +kernel)
  have hclose := hret (by decide +kernel) (by decide +kernel) closeNormal [] (by decide +kernel)
    (by decide +kernel) (by decide +kernel) (by decide +kernel)
  exact ⟨hclose, fun more => (hdead hclose more).2.2⟩

/-! ### A close of its own -/

/-- Where a connection that has sent a close stands, by the events its polls have shown since. -/
def AfterClose (c : WsConn) (shown : List WsEventType) : Prop :=
  c.state = .closing ∧ .close ∉ shown ∨ c.state = .closed ∧ .close ∈ shown

/-- **One call** after a close has been sent. -/
theorem exec_afterClose (w : Nat) {c : WsConn} (call : Call) {shown : List WsEventType}
    (h : AfterClose c shown) : AfterClose (exec w c call) (shown ++ polled w c call) := by
  rcases h with ⟨hs, hno⟩ | ⟨hs, hin⟩
  · by_cases hcall : call = .poll
    · subst hcall
      rw [polled, exec]
      refine poll_shape (P := fun p => AfterClose p.conn (shown ++ [p.ret])) w c ?_ ?_ ?_
      · intro _; exact .inl ⟨hs, by simp [hno]⟩
      · intro _; exact .inl ⟨hs, by simp [hno]⟩
      · intro p _ hp
        cases hp with
        | close => exact .inr ⟨rfl, by simp⟩
        | control _ _ ht _ => rcases ht with rfl | rfl <;> exact .inl ⟨hs, by simp [hno]⟩
        | refuse | extend | deliver => exact .inl ⟨hs, by simp [hno]⟩
    · rw [polled_eq_nil hcall, List.append_nil]
      have hq := exec_quiet w c call hcall
      generalize exec w c call = d at hq
      cases hq with
      | same | recv => exact .inl ⟨hs, hno⟩
      | handshake hc => simp [hs] at hc
      | sendClose ho => simp [hs] at ho
  · exact .inr ⟨(exec_latched w c call).2 hs, List.mem_append_left _ hin⟩

/-- **One close, and messages until the peer's close.**  In every run, once `ws_send_close` has
produced a frame every later one returns `0`; a later `ws_send_message` returns `0` from the poll
that reports the peer's close on, and builds the frame as in an open connection until then. -/
theorem close_sent_once (w : Nat) (role : WsRole) (buf : List UInt8) (calls : List Call)
    (key : MaskKey) (code : UInt16) (out : List UInt8) :
    let c := run (exec w) (wsConnInit role buf) calls
    let sent := exec w c (.sendClose key code out)
    0 < (wsSendClose w c key code out).1.n → ∀ more,
      let d := run (exec w) sent more
      (∀ key' code' out', (wsSendClose w d key' code' out').1.n = 0) ∧
      ∀ key' op payload out', wsSendMessage w d key' op payload out' =
        if .close ∈ trace (exec w) (polled w) sent more then ⟨0, out'⟩
        else buildFrame w d key' op payload out' := by
  intro c sent hn more
  have hsent : sent.state = .closing := by
    rcases wsSendClose_cases w c key code out with ⟨hz, -⟩ | ⟨-, -, hc⟩
    · omega
    · rw [show sent = _ from hc]
  have h₀ : AfterClose sent [] := .inl ⟨hsent, by simp⟩
  have hafter := run_trace_inv (P := AfterClose) (o := polled w)
    (fun c call shown h _ => exec_afterClose w call h)
    (guarded_of_forall (fun _ _ => trivial) sent more) h₀
  rw [List.nil_append] at hafter
  rcases hafter with ⟨hs, hno⟩ | ⟨hs, hin⟩
  · refine ⟨fun key' code' out' => ?_, fun key' op payload out' => ?_⟩
    · rw [wsSendClose_not_open (by simp [hs])]
    · rw [if_neg hno, wsSendMessage_active (by simp [wsLcActive, hs])]
  · refine ⟨fun key' code' out' => ?_, fun key' op payload out' => ?_⟩
    · rw [wsSendClose_not_open (by simp [hs])]
    · rw [if_pos hin, wsSendMessage_inactive (inactive_of_closed hs)]

/-- A server that has sent a close sends a text message behind it. -/
theorem message_after_close :
    let c := run (exec 64) (wsConnInit .server (zeroBuf 16 (by decide)).bytes) [.open]
    let sent := wsSendClose 64 c (Vector.replicate 4 0) 1000 (List.replicate 8 0)
    sent.1.n = 4 ∧
      wsSendMessage 64 sent.2.1 (Vector.replicate 4 0) .text [0x61] (List.replicate 4 0)
        = ⟨3, [0x81, 0x01, 0x61, 0]⟩ := by
  decide +kernel

theorem close_sent_once_peer :
    let calls : List Call := [.recv closeNormal.wire, .poll]
    let c := run (exec 64) (wsConnInit .server (zeroBuf 16 (by decide)).bytes) [.open]
    let sent := exec 64 c (.sendClose (Vector.replicate 4 0) 1000 (List.replicate 8 0))
    0 < (wsSendClose 64 c (Vector.replicate 4 0) 1000 (List.replicate 8 0)).1.n ∧
      wsSendMessage 64 (run (exec 64) sent calls) (Vector.replicate 4 0) .text [0x61] [0, 0, 0]
        = ⟨0, [0, 0, 0]⟩ := by
  intro calls c sent
  have hn : 0 < (wsSendClose 64 c (Vector.replicate 4 0) 1000 (List.replicate 8 0)).1.n := by
    decide +kernel
  have h := (close_sent_once 64 .server (zeroBuf 16 (by decide)).bytes [.open] _ _ _ hn calls).2
    (Vector.replicate 4 0) .text [0x61] [0, 0, 0]
  rw [if_pos (by decide +kernel)] at h
  exact ⟨hn, h⟩

end Libws
