import Libws.Session.Calls

/-!
# Session — what a single poll leaves behind

Three questions about one poll in a state some run reaches, each answered for every content of the
unparsed bytes.

* `none_drained_iff`: when `WS_EV_NONE` means that no complete frame is left.  A fragment that is
  not final is consumed and reported as `NONE` too, and a frame buffered behind it stays.
* `header_violation_none`: a header that `ws_parse_header` refuses is reported as `NONE`, now and
  for ever.
* `control_payload_iff`: when the payload of a ping or pong can be read where the event points.
  The bytes buffered behind the frame slide over it before the poll returns.
-/

namespace Libws
open Libws.Support

/-! ### Fragments with frames behind them -/

/-- The head of the unparsed bytes is a fragment that is not final, with a complete frame right
behind it. -/
def FrameBehindFragment (c : WsConn) : Prop :=
  ∃ (f : Frame) (t : List UInt8) (type : WsFrag), rawBytes c = f.wire ++ t ∧
    (c.receiver c.msg).Admits c.role f ∧ (c.receiver c.msg).Joins f type ∧ f.h.fin = false ∧
    HoldsFrame t

theorem Sound.drained_iff {c : WsConn} (hs : Sound c) (hf : c.failed = false) :
    ((wsConnPoll 64 c).ret = .none → ¬ HoldsFrame (rawBytes (wsConnPoll 64 c).conn)) ↔
      ¬ FrameBehindFragment c := by
  rcases hs.poll_cases hf with ⟨hno, hp⟩ | ⟨f, t, hv, ho⟩
  · rw [hp]
    refine ⟨fun _ => ?_, fun _ _ => hno⟩
    rintro ⟨f, t, type, hraw, -⟩
    exact hno ((holdsFrame_iff _).mpr ⟨f, t, hraw⟩)
  · constructor
    · rintro h ⟨g, t', type, hraw, hadm, hjoins, hfin, hholds⟩
      obtain ⟨rfl, rfl⟩ := Frame.wire_inj (hv.rawBytes_eq.symm.trans hraw)
      have hverdict := Receiver.verdict_extend_iff.mpr ⟨hadm, hjoins, hfin⟩
      rw [hverdict] at ho
      obtain ⟨hnone, hv'⟩ := ho.view_extend
      exact h hnone (hv'.rawBytes_eq ▸ hholds)
    · intro hnot hnone hholds
      obtain ⟨type, hext⟩ := ho.extend_of_none hnone
      obtain ⟨hadm, hjoins, hfin⟩ := Receiver.verdict_extend_iff.mp hext
      rw [hext] at ho
      rw [ho.view_extend.2.rawBytes_eq] at hholds
      exact hnot ⟨f, t, type, hv.rawBytes_eq, hadm, hjoins, hfin, hholds⟩

/-- **`WS_EV_NONE` means drained exactly when no complete frame stands behind a fragment that is
not final.** -/
theorem none_drained_iff (role : WsRole) (buf : MsgBuf 64) (calls : List Call)
    (hg : Guarded (exec 64) (NoWrap 64) (wsConnInit role buf.bytes) calls) :
    let c := run (exec 64) (wsConnInit role buf.bytes) calls
    c.failed = false →
      (((wsConnPoll 64 c).ret = .none → ¬ HoldsFrame (rawBytes (wsConnPoll 64 c).conn)) ↔
        ¬ FrameBehindFragment c) :=
  fun hf => (sound_run hg).drained_iff hf

/-- A text message in two fragments, received at once. -/
def twoFragments : List Call :=
  [.open, .recv [0x01, 0x81, 1, 2, 3, 4, 0x60, 0x80, 0x81, 5, 6, 7, 8, 0x67]]

/-- The poll after it returns `NONE` and leaves the second fragment. -/
theorem none_not_drained :
    let c := run (exec 64) (wsConnInit .server (zeroBuf 32 (by decide)).bytes) twoFragments
    c.failed = false ∧ (wsConnPoll 64 c).ret = .none ∧
      HoldsFrame (rawBytes (wsConnPoll 64 c).conn) := by
  refine ⟨by decide +kernel, by decide +kernel, 6, ⟨.cont, 1, #v[5, 6, 7, 8], true, true, 0⟩, ?_⟩
  decide +kernel

theorem none_drained_iff_twoFragments :
    let c := run (exec 64) (wsConnInit .server (zeroBuf 32 (by decide)).bytes) twoFragments
    Guarded (exec 64) (NoWrap 64) (wsConnInit .server (zeroBuf 32 (by decide)).bytes)
      twoFragments ∧ c.failed = false ∧
    (((wsConnPoll 64 c).ret = .none → ¬ HoldsFrame (rawBytes (wsConnPoll 64 c).conn)) ↔
      ¬ FrameBehindFragment c) := by
  have hg : Guarded (exec 64) (NoWrap 64) (wsConnInit .server (zeroBuf 32 (by decide)).bytes)
    twoFragments := by decide +kernel
  have hf : (run (exec 64) (wsConnInit .server (zeroBuf 32 (by decide)).bytes)
    twoFragments).failed = false := by decide +kernel
  exact ⟨hg, hf, none_drained_iff .server (zeroBuf 32 (by decide)) twoFragments hg hf⟩

/-! ### Headers that are refused -/

/-- A refused header stays at the head of the unparsed bytes, and the connection does not fail. -/
structure Refused (c : WsConn) : Prop where
  sound : Sound c
  failed : c.failed = false
  parse : wsParseHeader (rawBytes c) .zero = .error .errProtocol

theorem Refused.poll {c : WsConn} (h : Refused c) :
    wsConnPoll 64 c = ⟨.none, c, clearEvent, []⟩ := by
  refine poll_idle (View.ofFits h.sound.fits) ?_ h.failed
  rintro ⟨n, hd, hp, -⟩
  rw [h.parse] at hp
  cases hp

theorem Refused.exec {c : WsConn} (h : Refused c) {call : Call} (hg : NoWrap 64 c call) :
    Refused (exec 64 c call) := by
  have hs := h.sound.exec hg
  have hother : (∀ bytes, call ≠ .recv bytes) → call ≠ .poll → Refused (Libws.exec 64 c call) := by
    intro hrecv hpoll
    obtain ⟨state, sent, hexec⟩ := exec_lifecycle 64 c hpoll hrecv
    rw [hexec] at hs ⊢
    exact ⟨hs, h.failed, h.parse⟩
  cases call with
  | poll => rw [Libws.exec, h.poll]; exact h
  | recv bytes =>
      rcases h.sound.recv_cases hg with ⟨-, hsame⟩ | ⟨-, b, -, hexec, hv⟩
      · rw [hsame]; exact h
      · rw [hexec] at hs hv ⊢
        refine ⟨hs, h.failed, ?_⟩
        rw [hv.rawBytes_eq]
        exact parse_append_protocol h.parse bytes
  | «open» | sendMessage | sendPong | sendClose => exact hother (by simp) (by simp)

/-- **A refused header is reported as `WS_EV_NONE`**: the poll changes nothing, and neither does
any poll after it, whatever bytes and calls follow. -/
theorem header_violation_none (role : WsRole) (buf : MsgBuf 64) (calls : List Call)
    (hg : Guarded (exec 64) (NoWrap 64) (wsConnInit role buf.bytes) calls) :
    let c := run (exec 64) (wsConnInit role buf.bytes) calls
    c.state = .open ∨ c.state = .closing → c.failed = false →
    wsParseHeader (rawBytes c) .zero = .error .errProtocol →
      ∀ more, Guarded (exec 64) (NoWrap 64) c more →
        let d := run (exec 64) c more
        (wsConnPoll 64 d).ret = .none ∧ (wsConnPoll 64 d).conn = d := by
  intro c _ hf hp more hmore
  have hr : Refused (run (exec 64) c more) :=
    run_inv (fun _ _ h hg => h.exec hg) hmore ⟨sound_run hg, hf, hp⟩
  exact ⟨by rw [hr.poll], by rw [hr.poll]⟩

/-- A text frame with a reserved bit set. -/
def reservedBit : List Call := [.open, .recv [0xC1, 0x85]]

/-- The connection is open and `ws_parse_header` refuses the header; the poll returns `NONE` and
the connection has not failed. -/
theorem header_violation_unreported :
    let c := run (exec 64) (wsConnInit .server (zeroBuf 32 (by decide)).bytes) reservedBit
    c.state = .open ∧ c.failed = false ∧
      wsParseHeader (rawBytes c) .zero = .error .errProtocol ∧
      (wsConnPoll 64 c).ret = .none ∧ (wsConnPoll 64 c).conn.failed = false := by
  decide +kernel

theorem header_violation_none_reservedBit :
    let c := run (exec 64) (wsConnInit .server (zeroBuf 32 (by decide)).bytes) reservedBit
    let d := run (exec 64) c [.poll, .recv [0x81, 0x80, 1, 2, 3, 4]]
    (wsConnPoll 64 d).ret = .none ∧ (wsConnPoll 64 d).conn = d :=
  header_violation_none .server (zeroBuf 32 (by decide)) reservedBit (by decide +kernel)
    (by decide +kernel) (by decide +kernel) (by decide +kernel) _ (by decide +kernel)

/-! ### Control payloads -/

/-- The payload of a ping or pong, read where the event points after the slide. -/
theorem control_data (msg t slack : List UInt8) (f : Frame) :
    slice (msg ++ t ++ (f.hdr ++ f.payload ++ t ++ slack).drop t.length)
      (msg.length + f.hdr.length) f.payload.length = f.payload ↔
    (t.drop f.hdr.length).take f.payload.length <+: f.payload := by
  have hdrop : (msg ++ t ++ (f.hdr ++ f.payload ++ t ++ slack).drop t.length).drop
      (msg.length + f.hdr.length)
      = t.drop f.hdr.length
        ++ (f.payload ++ (t ++ slack)).drop (t.drop f.hdr.length).length := by
    rw [List.append_assoc, ← List.drop_drop, List.drop_left, List.drop_append, List.drop_drop,
      List.length_drop, List.append_assoc, List.append_assoc]
    congr 1
    rcases Nat.le_total t.length f.hdr.length with hle | hle
    · rw [show t.length + (f.hdr.length - t.length) = f.hdr.length by omega, List.drop_left,
        show t.length - f.hdr.length = 0 by omega, List.drop_zero]
    · rw [show t.length + (f.hdr.length - t.length) = f.hdr.length + (t.length - f.hdr.length) by
        omega, ← List.drop_drop, List.drop_left]
  rw [slice, hdrop, take_overlay_iff]

theorem Outcome.control_iff {c : WsConn} {msg t : List UInt8} {f : Frame} {v : Verdict} {p : Poll}
    (hv : View c msg (f.wire ++ t)) (ho : Outcome c msg f t v p) (hk : v = .ping ∨ v = .pong) :
    p.ret = (if v = .ping then .ping else .pong) ∧ p.conn.frag = c.frag ∧
      p.conn.msgLen = c.msgLen ∧ p.conn.msg = c.msg ∧
      (p.data = f.payload ↔ (t.drop f.hdr.length).take f.payload.length <+: f.payload) := by
  have hv' := ho.view_control hk
  have hmsg : p.conn.msg = c.msg := hv'.msg_eq.trans hv.msg_eq.symm
  have hlen : p.conn.msgLen = c.msgLen := hv'.msgLen.trans hv.msgLen.symm
  rcases hk with rfl | rfl
  · cases ho with
    | @ping slack => exact ⟨rfl, rfl, hlen, hmsg, control_data msg t slack f⟩
  · cases ho with
    | @pong slack => exact ⟨rfl, rfl, hlen, hmsg, control_data msg t slack f⟩

/-- **A ping or pong payload can be read where the event points exactly when the bytes that slide
over it agree with it.**  With `t` the bytes behind the frame these are the bytes of `t` from the
length of the frame's header on; the message in flight is untouched in any case. -/
theorem control_payload_iff (role : WsRole) (buf : MsgBuf 64) (calls : List Call)
    (hg : Guarded (exec 64) (NoWrap 64) (wsConnInit role buf.bytes) calls) :
    let c := run (exec 64) (wsConnInit role buf.bytes) calls
    ∀ (f : Frame) (t : List UInt8), c.state = .open ∨ c.state = .closing → c.failed = false →
      rawBytes c = f.wire ++ t → f.h.opcode = .ping ∨ f.h.opcode = .pong → maskOk c f.h = true →
      let p := wsConnPoll 64 c
      (p.ret = (if f.h.opcode = .ping then .ping else .pong) ∧ p.data = f.payload ∧
          p.conn.frag = c.frag ∧ p.conn.msgLen = c.msgLen ∧ p.conn.msg = c.msg) ↔
        (t.drop f.hdr.length).take f.payload.length <+: f.payload := by
  intro c f t hact hf hraw hop hmask
  have hs : Sound c := sound_run hg
  obtain ⟨hv, ho⟩ := hs.poll_frame hf hraw
  have hadm : (c.receiver c.msg).Admits c.role f := by
    refine ⟨hf, hact, fun hr => ?_⟩
    simpa [maskOk, hr] using hmask
  rw [Receiver.verdict_of_admits hadm] at ho
  rcases hop with hop | hop
  · have hk : f.kind = .ping := by rw [Frame.kind, hop]; rfl
    rw [hk] at ho
    obtain ⟨hret, hfrag, hlen, hmsg, hdata⟩ := ho.control_iff hv (.inl rfl)
    rw [← hdata]
    exact ⟨fun h => h.2.1, fun h => ⟨by rw [hop]; exact hret, h, hfrag, hlen, hmsg⟩⟩
  · have hk : f.kind = .pong := by rw [Frame.kind, hop]; rfl
    rw [hk] at ho
    obtain ⟨hret, hfrag, hlen, hmsg, hdata⟩ := ho.control_iff hv (.inr rfl)
    rw [← hdata]
    exact ⟨fun h => h.2.1, fun h => ⟨by rw [hop]; exact hret, h, hfrag, hlen, hmsg⟩⟩

/-- A masked ping with the payload `a`. -/
def pingA : Frame where
  hdr := [0x89, 0x81, 1, 2, 3, 4]
  h := ⟨.ping, 1, #v[1, 2, 3, 4], true, true, 0⟩
  body := [0x60]
  parsed := by decide +kernel
  body_len := by decide

/-- Two pings received at once: the first event shows the payload of the second. -/
theorem control_payload_lost :
    let c := run (exec 64) (wsConnInit .server (zeroBuf 32 (by decide)).bytes)
      [.open, .recv (pingA.wire ++ [0x89, 0x81, 0, 0, 0, 0, 0x62])]
    c.state = .open ∧ c.failed = false ∧
      rawBytes c = pingA.wire ++ [0x89, 0x81, 0, 0, 0, 0, 0x62] ∧ maskOk c pingA.h = true ∧
      (wsConnPoll 64 c).ret = .ping ∧ (wsConnPoll 64 c).data = [0x62] ∧
      pingA.payload = [0x61] := by
  decide +kernel

/-- A ping with the start of the next frame behind it. -/
theorem control_payload_iff_short :
    let c := run (exec 64) (wsConnInit .server (zeroBuf 32 (by decide)).bytes)
      [.open, .recv (pingA.wire ++ [0x81, 0x80])]
    (wsConnPoll 64 c).ret = .ping ∧ (wsConnPoll 64 c).data = pingA.payload := by
  have h := (control_payload_iff .server (zeroBuf 32 (by decide))
    [.open, .recv (pingA.wire ++ [0x81, 0x80])] (by decide +kernel) pingA [0x81, 0x80]
    (by decide +kernel) (by decide +kernel) (by decide +kernel) (by decide +kernel)
    (by decide +kernel)).mpr (by decide +kernel)
  exact ⟨h.1, h.2.1⟩

end Libws
