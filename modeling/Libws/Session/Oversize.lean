import Libws.Session.Calls

/-!
# Session — messages that do not fit

Requirement S9 has `data_illegal` fail the connection when a fragment would push the message past
`msg_cap`.  The test is made on a frame that is complete in the same buffer, behind the message and
with its header, so it cannot succeed (`Sound.dataIllegal_eq`).  A frame that does not fit is never
complete: the connection waits for it and takes no more than the buffer holds (`Oversize`).

* `oversize_waits`: **from then on nothing happens**, whatever bytes and calls follow.
-/

namespace Libws
open Libws.Support

/-- **The size test of S9 decides nothing**: a complete frame fits behind the message. -/
theorem Sound.dataIllegal_eq {c : WsConn} (hs : Sound c) {h : WsFrameHeader} {hdr total : Nat}
    (hr : frameReady 64 c = some (h, hdr, total)) (isCont : Bool) :
    dataIllegal 64 c h isCont = (isStrayCont c isCont || isInterleave c isCont) := by
  have hv := View.ofFits hs.fits
  have hframe : HoldsFrame (rawBytes c) := by
    by_contra hno
    rw [hv.frameReady_none hno] at hr
    cases hr
  obtain ⟨f, t, hraw⟩ := (holdsFrame_iff _).mp hframe
  rw [hraw] at hv
  rw [hv.frameReady_wire hs.cap_lt, Option.some.injEq, Prod.mk.injEq] at hr
  obtain ⟨rfl, -⟩ := hr
  have hle := hv.le_cap
  have hcap := hs.cap_lt
  rw [List.length_append, f.wire_length, ← hv.msgLen] at hle
  rw [dataIllegal, sizeT_of_lt (by omega), szAdd_of_lt (by omega),
    decide_eq_false (by rw [WsConn.msgCap]; omega)]
  cases isStrayCont c isCont <;> cases isInterleave c isCont <;> rfl

/-- The head of the unparsed bytes announces a frame that ends outside the buffer. -/
structure Oversize (c : WsConn) (msg : List UInt8) : Prop where
  sound : Sound c
  failed : c.failed = false
  msg_eq : c.msg = msg
  frame : ∃ n h, wsParseHeader (rawBytes c) .zero = .ok (n, h) ∧
    c.msgCap < c.msgLen + (n + h.payloadLen.toNat)

namespace Oversize

variable {c : WsConn} {msg : List UInt8}

theorem poll (h : Oversize c msg) : wsConnPoll 64 c = ⟨.none, c, clearEvent, []⟩ := by
  refine poll_idle (View.ofFits h.sound.fits) ?_ h.failed
  rintro ⟨n, hd, hp, hle⟩
  obtain ⟨n', hd', hp', hlt⟩ := h.frame
  rw [hp, Except.ok.injEq, Prod.mk.injEq] at hp'
  obtain ⟨rfl, rfl⟩ := hp'
  have hrx := (View.ofFits h.sound.fits).rxLen
  have := h.sound.fits
  omega

/-- No call leaves this state. -/
theorem exec (h : Oversize c msg) {call : Call} (hg : NoWrap 64 c call) :
    Oversize (exec 64 c call) msg := by
  have hs := h.sound.exec hg
  have hother : (∀ bytes, call ≠ .recv bytes) → call ≠ .poll →
      Oversize (Libws.exec 64 c call) msg := by
    intro hrecv hpoll
    obtain ⟨state, sent, hexec⟩ := exec_lifecycle 64 c hpoll hrecv
    rw [hexec] at hs ⊢
    exact ⟨hs, h.failed, h.msg_eq, h.frame⟩
  cases call with
  | poll => rw [Libws.exec, h.poll]; exact h
  | recv bytes =>
      rcases h.sound.recv_cases hg with ⟨-, hsame⟩ | ⟨-, b, hb, hexec, hv⟩
      · rw [hsame]; exact h
      · obtain ⟨n, hd, hp, hlt⟩ := h.frame
        rw [hexec] at hs hv ⊢
        refine ⟨hs, h.failed, hv.msg_eq.trans h.msg_eq, n, hd, ?_, ?_⟩
        · rw [hv.rawBytes_eq]
          exact parse_append_ok hp bytes
        · simpa only [WsConn.msgCap, hb] using hlt
  | «open» | sendMessage | sendPong | sendClose => exact hother (by simp) (by simp)

end Oversize

/-- **A message that does not fit stops the connection without an error.**  In every state a run
reaches, the size test of S9 adds nothing to the other two tests of `data_illegal` on a complete
frame.  Once the unparsed bytes announce a frame that ends outside the buffer, every later poll
returns `WS_EV_NONE` and changes nothing, whatever bytes and calls follow: the connection never
fails, and the message in flight stays where it is. -/
theorem oversize_waits (role : WsRole) (buf : MsgBuf 64) (calls : List Call)
    (hg : Guarded (exec 64) (NoWrap 64) (wsConnInit role buf.bytes) calls) :
    let c := run (exec 64) (wsConnInit role buf.bytes) calls
    (∀ h hdr total isCont, frameReady 64 c = some (h, hdr, total) →
      dataIllegal 64 c h isCont = (isStrayCont c isCont || isInterleave c isCont)) ∧
    ∀ n h, c.failed = false → wsParseHeader (rawBytes c) .zero = .ok (n, h) →
      c.msgCap < c.msgLen + (n + h.payloadLen.toNat) →
      ∀ more, Guarded (exec 64) (NoWrap 64) c more →
        let d := run (exec 64) c more
        wsConnPoll 64 d = ⟨.none, d, clearEvent, []⟩ ∧ d.failed = false ∧ d.msg = c.msg := by
  intro c
  have hs : Sound c := sound_run hg
  refine ⟨fun h hdr total isCont hr => hs.dataIllegal_eq hr isCont, ?_⟩
  intro n h hf hp hlt more hmore
  have ho : Oversize (run (exec 64) c more) c.msg :=
    run_inv (P := fun d => Oversize d c.msg) (fun _ _ h hg => h.exec hg) hmore
      ⟨hs, hf, rfl, n, h, hp, hlt⟩
  exact ⟨ho.poll, ho.failed, ho.msg_eq⟩

/-- In a buffer of eight bytes, a first fragment `a` and the header of a second one of eight bytes:
the fragment stays in flight, and the next chunk is refused. -/
theorem oversize_waits_fragment :
    let c := run (exec 64) (wsConnInit .server (zeroBuf 8 (by decide)).bytes)
      [.open, .recv [0x01, 0x81, 1, 2, 3, 4, 0x60], .poll, .recv [0x80, 0x88, 1, 2, 3, 4]]
    let d := run (exec 64) c [.poll, .recv [5], .recv [6], .poll]
    c.msg = [0x61] ∧ (wsConnRecv 64 (exec 64 c (.recv [5])) [6]).1 < 0 ∧
      wsConnPoll 64 d = ⟨.none, d, clearEvent, []⟩ ∧ d.failed = false ∧ d.msg = [0x61] := by
  have hg : Guarded (exec 64) (NoWrap 64) (wsConnInit .server (zeroBuf 8 (by decide)).bytes)
    [.open, .recv [0x01, 0x81, 1, 2, 3, 4, 0x60], .poll, .recv [0x80, 0x88, 1, 2, 3, 4]] := by
    decide +kernel
  obtain ⟨hpoll, hfailed, hmsg⟩ := (oversize_waits .server (zeroBuf 8 (by decide)) _ hg).2 6 _
    (by decide +kernel) (by rfl) (by decide +kernel) [.poll, .recv [5], .recv [6], .poll]
    (by decide +kernel)
  exact ⟨by decide +kernel, by decide +kernel, hpoll, hfailed, hmsg.trans (by decide +kernel)⟩

end Libws
