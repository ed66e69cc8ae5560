import Libws.Session.Draining

/-!
# Session — the driver refines the reference receiver

Frames are supplied one at a time, each cut into chunks anywhere, with a poll after every chunk.
`Holding c r rx` relates a connection in the middle of a frame to the receiver: `c` stands for `r`
and has the bytes `rx` of the frame.

* `Holding.recv`, `Holding.wait`, `Holding.finish`: the three kinds of step.
* `frame_refinement`: every poll before a frame's last byte does nothing, and the one after it
  yields the event of the receiver and leaves a connection that stands for the receiver.
-/

namespace Libws
open Libws.Support

/-- The receiver after some frames. -/
def Receiver.after (role : WsRole) (r : Receiver) (fs : List Frame) : Receiver :=
  fs.foldl (fun r f => (r.step role f).2) r

/-- A frame cut into chunks; the last one brings its last byte. -/
structure Cut where
  frame : Frame
  pieces : List (List UInt8)
  last : List UInt8
  joined : pieces.flatten ++ last = frame.wire
  last_ne : last ≠ []

/-- A chunk and the poll after it. -/
def supply (bytes : List UInt8) : List Call := [.recv bytes, .poll]

def Cut.calls (cut : Cut) : List Call := cut.pieces.flatMap supply ++ supply cut.last

/-- A chunk that is handed over is accepted. -/
def Accepts (c : WsConn) : Call → Prop
  | .recv bytes => c.msgLen + c.rxLen + bytes.length ≤ c.msgCap
  | _ => True

instance (c : WsConn) : (call : Call) → Decidable (Accepts c call)
  | .recv bytes => inferInstanceAs (Decidable (c.msgLen + c.rxLen + bytes.length ≤ c.msgCap))
  | .open | .poll | .sendMessage .. | .sendPong .. | .sendClose .. => .isTrue trivial

/-! ### The relation -/

/-- `c` stands for `r` in the middle of a frame of which it has the bytes `rx`. -/
structure Holding (role : WsRole) (c : WsConn) (r : Receiver) (rx : List UInt8) : Prop where
  sound : Sound c
  role_eq : c.role = role
  receiver : c.receiver c.msg = r
  raw : c.failed = false → rawBytes c = rx

namespace Holding

variable {role : WsRole} {c : WsConn} {r : Receiver} {rx : List UInt8}

theorem failed_eq (h : Holding role c r rx) : r.failed = c.failed := by rw [← h.receiver]; rfl

/-- An accepted chunk is appended. -/
theorem recv (h : Holding role c r rx) {bytes : List UInt8} (ha : Accepts c (.recv bytes)) :
    Holding role (exec 64 c (.recv bytes)) r (rx ++ bytes) := by
  have hle : c.msgLen + c.rxLen + bytes.length ≤ c.msgCap := ha
  have hwrap : NoWrap 64 c (.recv bytes) := Nat.lt_of_le_of_lt hle h.sound.cap_lt
  have hs := h.sound.exec hwrap
  rcases h.sound.recv_cases hwrap with ⟨hlt, -⟩ | ⟨-, b, -, hexec, hv⟩
  · omega
  · refine ⟨hs, ?_, ?_, fun hf => ?_⟩
    · rw [hexec]; exact h.role_eq
    · rw [hv.msg_eq, hexec]; exact h.receiver
    · rw [hexec] at hf
      rw [hv.rawBytes_eq, h.raw hf]

/-- **A poll in the middle of a frame does nothing**; of a failed connection it reports the
failure. -/
theorem wait (h : Holding role c r rx) (hno : ¬ HoldsFrame rx) :
    (wsConnPoll 64 c).event = (if r.failed then .error else .none) ∧
      (wsConnPoll 64 c).conn = c := by
  rw [h.failed_eq]
  cases hf : c.failed with
  | true => rw [poll_failed hf]; exact ⟨rfl, rfl⟩
  | false =>
      rw [poll_idle (View.ofFits h.sound.fits) (by rwa [h.raw hf]) hf]
      exact ⟨rfl, rfl⟩

end Holding

/-- A poll with nothing behind the frame: the event and the receiver after it. -/
theorem Outcome.refines {c : WsConn} {msg : List UInt8} {f : Frame} {v : Verdict} {p : Poll}
    (ho : Outcome c msg f [] v p) :
    p.event = (c.receiver msg).event f v ∧
      p.conn.receiver p.conn.msg = (c.receiver msg).next f v ∧ p.conn.role = c.role ∧
      p.ev.type = p.ret ∧ (p.conn.failed = false → p.conn.rxLen = 0) := by
  cases ho with
  | refuse => exact ⟨rfl, rfl, rfl, rfl, fun h => by simp at h⟩
  | close => exact ⟨rfl, rfl, rfl, rfl, fun _ => rfl⟩
  | @ping slack hlen =>
      have hdata := (control_data msg [] slack f).mpr (by simp)
      have hmsg : (msg ++ [] ++ (f.hdr ++ f.payload ++ [] ++ slack).drop 0).take msg.length = msg :=
        by simp
      refine ⟨congrArg Event.ping hdata, ?_, rfl, rfl, fun _ => rfl⟩
      exact congrArg c.receiver hmsg
  | @pong slack hlen =>
      have hdata := (control_data msg [] slack f).mpr (by simp)
      have hmsg : (msg ++ [] ++ (f.hdr ++ f.payload ++ [] ++ slack).drop 0).take msg.length = msg :=
        by simp
      refine ⟨congrArg Event.pong hdata, ?_, rfl, rfl, fun _ => rfl⟩
      exact congrArg c.receiver hmsg
  | @extend b slack type rcs hb hslack =>
      have hmsg : b.take (msg ++ f.payload).length = msg ++ f.payload := by
        rw [hslack, List.append_nil, List.take_left]
      refine ⟨rfl, ?_, rfl, rfl, fun _ => rfl⟩
      exact congrArg (Receiver.mk c.state type · c.failed) hmsg
  | @deliver b slack type rcs hb hslack =>
      have hdata : slice b 0 (msg ++ f.payload).length = msg ++ f.payload := by
        rw [hslack, slice, List.drop_zero, List.append_nil, List.take_left]
      exact ⟨congrArg (Event.message type.op) hdata, rfl, rfl, rfl, fun _ => rfl⟩

/-- **A poll on a whole frame is a step of the receiver.** -/
theorem Holding.finish {role : WsRole} {c : WsConn} {r : Receiver} {f : Frame}
    (h : Holding role c r f.wire) :
    (wsConnPoll 64 c).event = (r.step role f).1 ∧
      (wsConnPoll 64 c).ev.type = (wsConnPoll 64 c).ret ∧
      Holding role (wsConnPoll 64 c).conn (r.step role f).2 [] := by
  have hs := h.sound
  cases hf : c.failed with
  | true =>
      obtain ⟨hfrag, hlen⟩ := hs.reset hf
      have hmsg : c.msg = [] := by rw [WsConn.msg, hlen, List.take_zero]
      have hrf : r.failed = true := h.failed_eq.trans hf
      have hv : r.verdict role f = .refuse := by rw [Receiver.verdict, if_pos hrf]
      -- a failed receiver has already dropped its message
      have hnext : { r with failed := true, frag := .none, msg := [] } = r := by
        rw [← h.receiver, WsConn.receiver, hmsg, hf, hfrag]
      rw [poll_failed hf, Receiver.step, hv]
      refine ⟨rfl, rfl, hs, h.role_eq, ?_, fun hf' => by simp [hf] at hf'⟩
      exact h.receiver.trans hnext.symm
  | false =>
      obtain ⟨-, ho⟩ := hs.poll_frame hf (t := []) (by rw [h.raw hf, List.append_nil])
      rw [h.receiver, h.role_eq] at ho
      obtain ⟨hev, hrec, hrole, htype, hrx⟩ := ho.refines
      rw [h.receiver] at hev hrec
      refine ⟨hev, htype, hs.poll, hrole.trans h.role_eq, hrec, fun hf' => ?_⟩
      rw [rawBytes, hrx hf']
      rfl

/-! ### Whole frames and lists of frames -/

/-- The chunks of a frame before its last one. -/
theorem Holding.pieces {role : WsRole} {f : Frame} {rest : List UInt8} (hrest : rest ≠ [])
    {c : WsConn} {r : Receiver} {rx : List UInt8} {ps : List (List UInt8)}
    (h : Holding role c r rx) (hw : rx ++ ps.flatten ++ rest = f.wire)
    (ha : Guarded (exec 64) Accepts c (ps.flatMap supply)) :
    Holding role (run (exec 64) c (ps.flatMap supply)) r (rx ++ ps.flatten) := by
  induction ps generalizing c rx with
  | nil => simpa using h
  | cons p ps ih =>
      have h₁ := h.recv ha.1
      have hno : ¬ HoldsFrame (rx ++ p) := by
        refine f.not_holdsFrame_prefix (b := ps.flatten ++ rest) ?_ (by simp [hrest])
        simpa using hw
      have hsame : exec 64 (exec 64 c (.recv p)) .poll = exec 64 c (.recv p) := (h₁.wait hno).2
      have h₂ : Holding role (exec 64 (exec 64 c (.recv p)) .poll) r (rx ++ p) := by rwa [hsame]
      have := ih h₂ (by simpa using hw) ha.2.2
      rwa [List.append_assoc, ← List.flatten_cons] at this

/-- One whole frame. -/
theorem Holding.cut {role : WsRole} {cut : Cut} {c : WsConn} {r : Receiver}
    (h : Holding role c r []) (ha : Guarded (exec 64) Accepts c cut.calls) :
    Holding role (run (exec 64) c (cut.pieces.flatMap supply ++ [.recv cut.last])) r
        cut.frame.wire ∧
      Holding role (run (exec 64) c cut.calls) (r.step role cut.frame).2 [] := by
  obtain ⟨ha₁, ha₂⟩ := guarded_append.mp ha
  have h₁ := (h.pieces cut.last_ne (f := cut.frame) (by simpa using cut.joined) ha₁).recv ha₂.1
  rw [List.nil_append, cut.joined] at h₁
  refine ⟨by rw [run_append]; exact h₁, ?_⟩
  rw [Cut.calls, run_append]
  exact h₁.finish.2.2

theorem Holding.cuts {role : WsRole} {cuts : List Cut} {c : WsConn} {r : Receiver}
    (h : Holding role c r []) (ha : Guarded (exec 64) Accepts c (cuts.flatMap Cut.calls)) :
    Holding role (run (exec 64) c (cuts.flatMap Cut.calls))
      (r.after role (cuts.map Cut.frame)) [] := by
  induction cuts generalizing c r with
  | nil => exact h
  | cons cut cuts ih =>
      obtain ⟨ha₁, ha₂⟩ := guarded_append.mp ha
      rw [List.flatMap_cons, run_append]
      exact ih (h.cut ha₁).2 ha₂

/-- A connection that is connecting, or has just been opened. -/
def WsConn.start (role : WsRole) (buf : MsgBuf 64) (opened : Bool) : WsConn :=
  if opened then wsConnOpen (wsConnInit role buf.bytes) else wsConnInit role buf.bytes

theorem Holding.start (role : WsRole) (buf : MsgBuf 64) (opened : Bool) :
    let c := WsConn.start role buf opened
    Holding role c (c.receiver []) [] := by
  have hinit := Sound.init role buf
  cases opened with
  | false => exact ⟨hinit, rfl, rfl, fun _ => rfl⟩
  | true => exact ⟨hinit.exec (show NoWrap 64 _ .open from trivial), rfl, rfl, fun _ => rfl⟩

/-- **The driver refines the receiver, frame by frame.**  A server's connection over any buffer,
connecting or open, is given any frames, each in accepted chunks cut anywhere with a poll after
each.  A poll before a frame's last byte reports nothing, or the failure of a failed connection,
and leaves the connection as it was.  The poll after the last byte yields exactly the event of the
reference receiver, and its phase, message in flight and failure are those of the connection. -/
theorem frame_refinement (buf : MsgBuf 64) (opened : Bool) (cuts : List Cut)
    (ha : Guarded (exec 64) Accepts (WsConn.start .server buf opened) (cuts.flatMap Cut.calls)) :
    let c₀ := WsConn.start .server buf opened
    ∀ before cut behind, cuts = before ++ cut :: behind →
      let c := run (exec 64) c₀ (before.flatMap Cut.calls)
      let r := (c₀.receiver []).after .server (before.map Cut.frame)
      (∀ ps p qs, cut.pieces = ps ++ p :: qs →
        let d := run (exec 64) c (ps.flatMap supply ++ [.recv p])
        (wsConnPoll 64 d).event = (if r.failed then .error else .none) ∧
          (wsConnPoll 64 d).conn = d) ∧
      let p := wsConnPoll 64 (run (exec 64) c (cut.pieces.flatMap supply ++ [.recv cut.last]))
      p.event = (r.step .server cut.frame).1 ∧ p.ev.type = p.ret ∧
        p.conn.receiver p.conn.msg = (r.step .server cut.frame).2 := by
  rintro c₀ before cut behind rfl c r
  rw [List.flatMap_append, List.flatMap_cons] at ha
  obtain ⟨ha₁, ha₂⟩ := guarded_append.mp ha
  obtain ⟨ha₂, -⟩ := guarded_append.mp ha₂
  have h : Holding .server c r [] := (Holding.start .server buf opened).cuts ha₁
  constructor
  · intro ps p qs hps
    have hw : [] ++ ps.flatten ++ (p ++ (qs.flatten ++ cut.last)) = cut.frame.wire := by
      rw [← cut.joined, hps]; simp
    rw [Cut.calls, hps, List.flatMap_append, List.flatMap_cons, List.append_assoc,
      List.append_assoc] at ha₂
    obtain ⟨ha₃, ha₄⟩ := guarded_append.mp ha₂
    have hd := (h.pieces (by simp [cut.last_ne]) hw ha₃).recv ha₄.1
    simp only [run_append]
    refine hd.wait ?_
    refine cut.frame.not_holdsFrame_prefix (b := qs.flatten ++ cut.last) ?_ (by simp [cut.last_ne])
    rw [← hw]; simp
  · obtain ⟨hev, htype, hnext⟩ := (h.cut ha₂).1.finish
    exact ⟨hev, htype, hnext.receiver⟩

/-- The ping `a` in three chunks. -/
def pingCut : Cut where
  frame := pingA
  pieces := [[0x89], [0x81, 1, 2]]
  last := [3, 4, 0x60]
  joined := rfl
  last_ne := by simp

/-- The first fragment `a` of a text, in two chunks. -/
def textCut : Cut where
  frame :=
    { hdr := [0x01, 0x81, 3, 3, 3, 3]
      h := ⟨.text, 1, .replicate 4 3, false, true, 0⟩
      body := [0x62]
      parsed := by decide +kernel
      body_len := rfl }
  pieces := [[0x01, 0x81, 3]]
  last := [3, 3, 3, 0x62]
  joined := rfl
  last_ne := by simp

/-- Its last fragment `b`, cut before the payload. -/
def contCut : Cut where
  frame :=
    { hdr := [0x80, 0x81, 4, 4, 4, 4]
      h := ⟨.cont, 1, .replicate 4 4, true, true, 0⟩
      body := [0x66]
      parsed := by decide +kernel
      body_len := rfl }
  pieces := [[0x80, 0x81, 4, 4, 4, 4]]
  last := [0x66]
  joined := rfl
  last_ne := by simp

/-- A text in two fragments with a ping between them: the message is in flight at the ping, and at
the poll in the middle of the last fragment. -/
theorem frame_refinement_fragmented :
    let c := WsConn.start .server (zeroBuf 16 (by decide)) true
    let d := run (exec 64) c ([textCut, pingCut].flatMap Cut.calls)
    let p := wsConnPoll 64 (run (exec 64) d (contCut.pieces.flatMap supply ++ [.recv contCut.last]))
    Guarded (exec 64) Accepts c ([textCut, pingCut, contCut].flatMap Cut.calls) ∧
      d.receiver d.msg = ⟨.open, .text, [0x61], false⟩ ∧
      (wsConnPoll 64 (exec 64 d (.recv [0x80, 0x81, 4, 4, 4, 4]))).event = .none ∧
      p.event = .message .text [0x61, 0x62] ∧
      p.conn.receiver p.conn.msg = ⟨.open, .none, [], false⟩ := by
  have ha : Guarded (exec 64) Accepts (WsConn.start .server (zeroBuf 16 (by decide)) true)
    ([textCut, pingCut, contCut].flatMap Cut.calls) := by decide +kernel
  obtain ⟨hwait, hev, -, hrec⟩ := frame_refinement (zeroBuf 16 (by decide)) true
    [textCut, pingCut, contCut] ha [textCut, pingCut] contCut [] rfl
  exact ⟨ha, by decide +kernel, (hwait [] _ [] rfl).1, hev, hrec⟩

end Libws
