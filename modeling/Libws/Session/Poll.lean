import Libws.Session.Layout
import Libws.Session.Shape

/-!
# Session — one poll

What `ws_conn_poll` does on a buffer that holds a complete frame, next to what the reference
receiver makes of the frame.

* `Outcome`: for each verdict of the receiver, the result, connection and event of the poll.
* `poll_outcome`: **the poll is the outcome of the receiver's verdict**.
* `poll_idle`: without a complete frame it does nothing.

`Outcome` says where the bytes behind the frame end up, so that the results below need not unfold
the driver again.
-/

namespace Libws
open Libws.Support

/-! ### Opcodes -/

/-- The opcode of a kind, and the class the driver gives it. -/
def Kind.Classified (op : WsOpcode) : Kind → Prop
  | .cont => op = .cont ∧ wsClassifyOpcode op = .data
  | .text => op = .text ∧ wsClassifyOpcode op = .data
  | .bin => op = .bin ∧ wsClassifyOpcode op = .data
  | .close => op = .close ∧ wsClassifyOpcode op = .control
  | .ping => op = .ping ∧ wsClassifyOpcode op = .control
  | .pong => op = .pong ∧ wsClassifyOpcode op = .control
  | .reserved => wsClassifyOpcode op = .reserved

instance (op : WsOpcode) : (k : Kind) → Decidable (k.Classified op)
  | .cont | .text | .bin | .close | .ping | .pong => inferInstanceAs (Decidable (_ ∧ _))
  | .reserved => inferInstanceAs (Decidable (_ = _))

theorem kind_classified (op : WsOpcode) : op < 16 → (Kind.ofOpcode op.toNat).Classified op :=
  forall_uint8 (P := fun op => op < 16 → (Kind.ofOpcode op.toNat).Classified op)
    (by decide +kernel) op

theorem Frame.classified (f : Frame) : f.kind.Classified f.h.opcode :=
  kind_classified _ f.wellFormed.opcode

/-- `route`, by the kind of the frame. -/
theorem route_kind (w : Nat) (c : WsConn) (f : Frame) (hdr : Nat) (ev : WsEvent) :
    route w c f.h hdr ev = match f.kind with
      | .reserved => fail c ev
      | .close => onClose w c f.h hdr ev
      | .ping | .pong => onControl w c f.h hdr ev
      | .cont | .text | .bin => onData w c f.h hdr ev := by
  have h := f.classified
  rw [route]
  generalize f.kind = k at h
  cases k with
  | reserved => rw [show wsClassifyOpcode f.h.opcode = .reserved from h]
  | close => rw [h.2, onControl, if_pos h.1]
  | ping | pong | cont | text | bin => rw [h.2]

/-! ### Close bodies -/

/-- `ws_close_code_sendable` is the rule of RFC 6455 §7.4. -/
theorem wsCloseCodeSendable_iff (code : UInt16) :
    wsCloseCodeSendable code = true ↔ Sendable code.toNat := by
  have e : ∀ v : UInt16, code = v ↔ code.toNat = v.toNat := fun v => UInt16.toNat_inj.symm
  have hlo : inRange16 code 1000 1011 = true ↔ 1000 ≤ code.toNat ∧ code.toNat ≤ 1011 := by
    simp [inRange16, UInt16.le_iff_toNat_le]
  have hhi : inRange16 code 3000 4999 = true ↔ 3000 ≤ code.toNat ∧ code.toNat ≤ 4999 := by
    simp [inRange16, UInt16.le_iff_toNat_le]
  have hres : closeReserved code = true ↔
      code.toNat = 1004 ∨ code.toNat = 1005 ∨ code.toNat = 1006 := by
    simp [closeReserved, e]
  have hprot : closeProtocolOk code = true ↔ (1000 ≤ code.toNat ∧ code.toNat ≤ 1011) ∧
      ¬ (code.toNat = 1004 ∨ code.toNat = 1005 ∨ code.toNat = 1006) := by
    rw [← hlo, ← hres, closeProtocolOk]
    cases inRange16 code 1000 1011 <;> simp
  have hor : wsCloseCodeSendable code = true ↔
      closeProtocolOk code = true ∨ inRange16 code 3000 4999 = true := by
    rw [wsCloseCodeSendable]
    cases closeProtocolOk code <;> simp
  rw [hor, hprot, hhi, Sendable]
  omega

theorem be16_eq (x y : UInt8) :
    (x.toUInt16 <<< 8) ||| y.toUInt16 = UInt16.ofNat (x.toNat * 256 + y.toNat) := by
  have hx := x.toNat_lt
  have hy := y.toNat_lt
  apply UInt16.toNat.inj
  have hshift : (x.toUInt16 <<< 8).toNat = x.toNat * 2 ^ 8 := by
    rw [UInt16.toNat_shiftLeft, UInt8.toNat_toUInt16, Nat.shiftLeft_eq]
    exact Nat.mod_eq_of_lt (show x.toNat * 2 ^ 8 < 2 ^ 16 by omega)
  rw [UInt16.toNat_or, hshift, UInt8.toNat_toUInt16, UInt16.toNat_ofNat', Nat.mul_comm,
    ← Nat.two_pow_add_eq_or_of_lt (show y.toNat < 2 ^ 8 by omega),
    Nat.mod_eq_of_lt (by omega)]
  omega

section Body

variable {c : WsConn} {msg a t : List UInt8} {h : WsFrameHeader} {w : Nat}

/-- The two bytes at the head of a body spell the code. -/
theorem View.closeCodeAt {x y : UInt8} {reason : List UInt8}
    (hv : View c msg (a ++ x :: y :: reason ++ t)) :
    Libws.closeCodeAt c a.length = UInt16.ofNat (x.toNat * 256 + y.toNat) := by
  obtain ⟨slack, hbuf⟩ := hv.buf
  have hb : c.msgBuf = (msg ++ a) ++ (x :: y :: (reason ++ t ++ slack)) := by
    rw [hbuf]; simp
  have h0 : c.msgBuf.getD (msg.length + a.length) 0 = x := by
    rw [hb, ← List.length_append, List.getD_append_right _ _ _ _ (Nat.le_refl _), Nat.sub_self]
    rfl
  have h1 : c.msgBuf.getD (msg.length + (a.length + 1)) 0 = y := by
    rw [hb, List.getD_append_right _ _ _ _ (by rw [List.length_append]; omega),
      List.length_append, show msg.length + (a.length + 1) - (msg.length + a.length) = 1 by omega]
    rfl
  rw [Libws.closeCodeAt, raw, hv.msgLen, h0, h1, be16_eq]

/-- `close_body_ok` accepts exactly the bodies that have a code. -/
theorem View.closeBodyOk {body : List UInt8} (hv : View c msg (a ++ body ++ t))
    (hcap : c.msgBuf.length < 2 ^ w) (hb : h.payloadLen.toNat = body.length) :
    Libws.closeBodyOk w c h a.length = (closeBody body).isSome := by
  have hle := hv.le_cap
  simp only [List.length_append] at hle
  have hp : sizeT w h.payloadLen.toNat = body.length := by rw [hb, sizeT_of_lt (by omega)]
  simp only [Libws.closeBodyOk, hp]
  rcases body with _ | ⟨x, _ | ⟨y, reason⟩⟩
  · rfl
  · rfl
  · have hx := x.toNat_lt
    have hy := y.toNat_lt
    have hcode := hv.closeCodeAt
    have hreason : slice c.msgBuf (raw c + a.length + 2) ((x :: y :: reason).length - 2)
        = reason := by
      obtain ⟨slack, hbuf⟩ := hv.buf
      have := slice_append_mid (msg ++ a ++ [x, y]) reason (t ++ slack)
      rw [raw, hv.msgLen, hbuf]
      simpa [Nat.add_assoc] using this
    have hnat : (UInt16.ofNat (x.toNat * 256 + y.toNat)).toNat = x.toNat * 256 + y.toNat := by
      rw [UInt16.toNat_ofNat', Nat.mod_eq_of_lt (by omega)]
    have hsend := wsCloseCodeSendable_iff (UInt16.ofNat (x.toNat * 256 + y.toNat))
    have hutf := wsUtf8Valid_iff reason
    rw [hnat] at hsend
    rw [if_neg (by simp), if_neg (by simp), closeCodeReasonOk, hcode, hreason, closeBody]
    generalize UInt16.ofNat (x.toNat * 256 + y.toNat) = code at hsend
    by_cases hs : Sendable (x.toNat * 256 + y.toNat)
    · by_cases hu : IsUtf8 reason
      · simp [hsend.mpr hs, hutf.mpr hu, hs, hu]
      · simp [hsend.mpr hs, hs, hu, mt hutf.mp hu]
    · simp [hs, mt hsend.mp hs]

/-- The code `on_close` stores is the one of the body; `0`, when there is none, is what the
connection holds until it sees a close. -/
theorem View.closeCode_set {body : List UInt8} {code : UInt16} (hv : View c msg (a ++ body ++ t))
    (hbody : closeBody body = some code) (hcode : c.closeCode = 0) :
    (if body.length ≥ 2 then { c with closeCode := Libws.closeCodeAt c a.length } else c)
      = { c with closeCode := code } := by
  match body, hv, hbody with
  | [], _, hbody =>
      rw [if_neg (by simp), ← Option.some.inj hbody, ← hcode]
  | x :: y :: reason, hv, hbody =>
      rw [if_pos (by simp), hv.closeCodeAt]
      rw [closeBody] at hbody
      split at hbody
      · rw [Option.some.inj hbody]
      · cases hbody

end Body

/-! ### The outcome of a verdict -/

/-- The receiver a connection stands for while it holds the message `msg`. -/
def WsConn.receiver (c : WsConn) (msg : List UInt8) : Receiver := ⟨c.state, c.frag, msg, c.failed⟩

/-- What a poll does when the buffer holds `msg`, the frame `f` and the bytes `t`, by the
receiver's verdict on `f`. -/
inductive Outcome (c : WsConn) (msg : List UInt8) (f : Frame) (t : List UInt8) :
    Verdict → Poll → Prop where
  | refuse {b : List UInt8} {n : Nat} {rcs : List WsStatus} :
      b.length = c.msgBuf.length → n ≤ c.rxLen →
      Outcome c msg f t .refuse
        { ret := .error
          conn := { c with failed := true, frag := .none, msgBuf := b, msgLen := 0, rxLen := n }
          ev := { clearEvent with type := .error }
          rcs := rcs }
  | ping {slack : List UInt8} :
      (msg ++ (f.hdr ++ f.payload ++ t) ++ slack).length = c.msgBuf.length →
      Outcome c msg f t .ping
        { ret := .ping
          conn := { c with
            msgBuf := msg ++ t ++ (f.hdr ++ f.payload ++ t ++ slack).drop t.length
            msgLen := msg.length, rxLen := t.length }
          ev := { clearEvent with
            type := .ping, data := some (msg.length + f.hdr.length), len := f.payload.length }
          rcs := [] }
  | pong {slack : List UInt8} :
      (msg ++ (f.hdr ++ f.payload ++ t) ++ slack).length = c.msgBuf.length →
      Outcome c msg f t .pong
        { ret := .pong
          conn := { c with
            msgBuf := msg ++ t ++ (f.hdr ++ f.payload ++ t ++ slack).drop t.length
            msgLen := msg.length, rxLen := t.length }
          ev := { clearEvent with
            type := .pong, data := some (msg.length + f.hdr.length), len := f.payload.length }
          rcs := [] }
  | close {b : List UInt8} {code : UInt16} {rcs : List WsStatus} :
      b.length = c.msgBuf.length →
      Outcome c msg f t (.close code)
        { ret := .close
          conn := { c with
            state := .closed, sentClose := true, rcvdClose := true, frag := .none, msgBuf := b
            msgLen := 0, rxLen := t.length, closeCode := code }
          ev := { clearEvent with type := .close, closeCode := code }
          rcs := rcs }
  | extend {b slack : List UInt8} {type : WsFrag} {rcs : List WsStatus} :
      b.length = c.msgBuf.length → b = msg ++ f.payload ++ t ++ slack →
      Outcome c msg f t (.extend type)
        { ret := .none
          conn := { c with
            frag := type, msgBuf := b, msgLen := (msg ++ f.payload).length, rxLen := t.length }
          ev := clearEvent
          rcs := rcs }
  | deliver {b slack : List UInt8} {type : WsFrag} {rcs : List WsStatus} :
      b.length = c.msgBuf.length → b = msg ++ f.payload ++ t ++ slack →
      Outcome c msg f t (.deliver type)
        { ret := .message
          conn := { c with frag := .none, msgBuf := b, msgLen := 0, rxLen := t.length }
          ev := { clearEvent with
            type := .message, op := type.op, data := some 0, len := (msg ++ f.payload).length }
          rcs := rcs }

section Frames

variable {c : WsConn} {msg t : List UInt8} {f : Frame} {w : Nat}

theorem wsLcActive_iff (c : WsConn) (msg : List UInt8) :
    wsLcActive c = true ↔ (c.receiver msg).Active := by
  simp [wsLcActive, WsConn.receiver, Receiver.Active]

/-- The sizes of a frame that is in the buffer do not wrap around. -/
theorem View.frame_sizes (hv : View c msg (f.hdr ++ f.payload ++ t))
    (hcap : c.msgBuf.length < 2 ^ w) :
    sizeT w f.h.payloadLen.toNat = f.payload.length ∧
      szAdd w f.hdr.length f.payload.length = (f.hdr ++ f.payload).length := by
  have hle := hv.le_cap
  simp only [List.length_append, f.payload_length] at hle
  constructor
  · rw [sizeT_of_lt (by omega), f.payload_length]
  · rw [szAdd_of_lt (by rw [f.payload_length]; omega), List.length_append]

/-- A ping or pong: the event points at the payload, and then the frame is consumed. -/
theorem onControl_outcome (hv : View c msg (f.hdr ++ f.payload ++ t))
    (hcap : c.msgBuf.length < 2 ^ w) :
    (f.kind = .ping → Outcome c msg f t .ping (onControl w c f.h f.hdr.length clearEvent)) ∧
    (f.kind = .pong → Outcome c msg f t .pong (onControl w c f.h f.hdr.length clearEvent)) := by
  have hcl := f.classified
  obtain ⟨hp, htake⟩ := hv.frame_sizes hcap
  obtain ⟨slack, hbuf⟩ := hv.buf
  have hcons := View.rawConsume hbuf hv.msgLen hv.rxLen hcap
  constructor
  · intro hk
    rw [hk] at hcl
    have hne : f.h.opcode ≠ .close := by rw [hcl.1]; decide
    simp only [onControl, if_neg hne, if_pos hcl.1, hp, htake, hcons, raw, hv.msgLen]
    exact .ping (by rw [hbuf])
  · intro hk
    rw [hk] at hcl
    have hne : f.h.opcode ≠ .close := by rw [hcl.1]; decide
    have hne' : f.h.opcode ≠ .ping := by rw [hcl.1]; decide
    simp only [onControl, if_neg hne, if_neg hne', hp, htake, hcons, raw, hv.msgLen]
    exact .pong (by rw [hbuf])

/-- A close frame, by its body. -/
theorem onClose_outcome (hv : View c msg (f.hdr ++ f.payload ++ t))
    (hcap : c.msgBuf.length < 2 ^ w) (hact : wsLcActive c = true) (hcode : c.closeCode = 0) :
    Outcome c msg f t (match closeBody f.payload with
      | some code => .close code
      | .none => .refuse) (onClose w c f.h f.hdr.length clearEvent) := by
  obtain ⟨hp, htake⟩ := hv.frame_sizes hcap
  have hok := hv.closeBodyOk hcap f.payload_length.symm
  rw [onClose, hok]
  cases hbody : closeBody f.payload with
  | none => exact .refuse rfl (Nat.le_refl _)
  | some code =>
      simp only [Option.isSome_some, Bool.not_true, Bool.false_eq_true, if_false, hp]
      rw [hv.closeCode_set hbody hcode]
      have hrecv : wsLcRecvClose { c with closeCode := code } = (.ok, { c with
          closeCode := code, rcvdClose := true, sentClose := true, state := .closed, frag := .none
          msgLen := 0 }) := by
        rw [wsLcRecvClose, show wsLcActive { c with closeCode := code } = true from hact]
        rfl
      have hrest : szSub w c.rxLen (f.hdr ++ f.payload).length = t.length := by
        have hle := hv.le_cap
        have hrx := hv.rxLen
        rw [List.length_append] at hle hrx
        rw [szSub_of_le (by omega) (by omega)]
        omega
      simp only [hrecv, htake, rawConsume, hrest]
      exact .close (fwdCopy_length ..)

/-- The payload of a data frame joins the message of type `type`. -/
theorem assemble_outcome {type : WsFrag} (hfrag : type ≠ .none)
    (hv : View c msg (f.hdr ++ f.payload ++ t))
    (hcap : c.msgBuf.length < 2 ^ w) (hact : wsLcActive c = true) (rcs : List WsStatus) {p : Poll}
    (hp : p = if !f.h.fin
      then emit (accumulate w { c with frag := type } f.h f.hdr.length) clearEvent .none
      else finishMessage (accumulate w { c with frag := type } f.h f.hdr.length) clearEvent) :
    Outcome c msg f t ((c.receiver msg).assemble f type) { p with rcs := rcs ++ p.rcs } := by
  have hv' : View { c with frag := type } msg (f.hdr ++ f.payload ++ t) :=
    ⟨hv.buf, hv.msgLen, hv.rxLen⟩
  obtain ⟨b, hb, hacc, slack, hslack⟩ := hv'.accumulate hcap f.payload_length.symm
  have hview : View { c with
      frag := type, msgBuf := b, msgLen := (msg ++ f.payload).length, rxLen := t.length }
      (msg ++ f.payload) t := ⟨⟨slack, hslack⟩, rfl, rfl⟩
  have hfm := finishMessage_eq (c := { c with
    frag := type, msgBuf := b, msgLen := (msg ++ f.payload).length, rxLen := t.length }) hact hfrag
    clearEvent
  rw [hview.message_eq] at hfm
  simp only [hacc, hfm] at hp
  show Outcome c msg f t (if f.h.fin = false then .extend type
    else if type = .text ∧ ¬ IsUtf8 (msg ++ f.payload) then .refuse else .deliver type) _
  cases hfin : f.h.fin with
  | false =>
      rw [hfin] at hp
      rw [hp]
      exact .extend hb hslack
  | true =>
      rw [hfin] at hp
      rw [hp, if_neg (by simp)]
      by_cases hbad : type = .text ∧ ¬ IsUtf8 (msg ++ f.payload)
      · simp only [if_pos hbad]
        refine .refuse hb ?_
        show t.length ≤ c.rxLen
        rw [hv.rxLen, List.length_append]
        omega
      · simp only [if_neg hbad]
        exact .deliver hb hslack

/-- A frame that is in the buffer is not too big for it. -/
theorem dataIllegal_eq (hv : View c msg (f.hdr ++ f.payload ++ t))
    (hcap : c.msgBuf.length < 2 ^ w) (isCont : Bool) :
    dataIllegal w c f.h isCont = (isStrayCont c isCont || isInterleave c isCont) := by
  have hle := hv.le_cap
  simp only [List.length_append] at hle
  have hfits : ¬ szAdd w c.msgLen (sizeT w f.h.payloadLen.toNat) > c.msgCap := by
    rw [hv.msgLen, (hv.frame_sizes hcap).1, szAdd_of_lt (by omega), WsConn.msgCap]
    omega
  rw [dataIllegal, decide_eq_false hfits]
  cases isStrayCont c isCont <;> cases isInterleave c isCont <;> rfl

/-- A continuation frame. -/
theorem cont_outcome (hv : View c msg (f.hdr ++ f.payload ++ t)) (hcap : c.msgBuf.length < 2 ^ w)
    (hact : wsLcActive c = true) (hop : f.h.opcode = .cont) :
    Outcome c msg f t (if c.frag = .none then .refuse else (c.receiver msg).assemble f c.frag)
      (onData w c f.h f.hdr.length clearEvent) := by
  have hill := dataIllegal_eq hv hcap (decide (f.h.opcode = .cont))
  rw [decide_eq_true hop] at hill
  by_cases hf : c.frag = .none
  · rw [if_pos hf, onData_illegal (by simp [hop, hill, isStrayCont, hf])]
    exact .refuse rfl (Nat.le_refl _)
  · rw [if_neg hf, onData_legal (p := _) (by simp [hop, hill, isStrayCont, isInterleave, hf])
      (by rw [decide_eq_true hop]) rfl]
    exact assemble_outcome hf hv hcap hact [] rfl

/-- A frame that starts a message. -/
theorem start_outcome {type : WsFrag} (hv : View c msg (f.hdr ++ f.payload ++ t))
    (hcap : c.msgBuf.length < 2 ^ w) (hact : wsLcActive c = true) (hop : f.h.opcode ≠ .cont)
    (htype : (if f.h.opcode = .bin then WsFrag.bin else .text) = type) :
    Outcome c msg f t (if c.frag = .none then (c.receiver msg).assemble f type else .refuse)
      (onData w c f.h f.hdr.length clearEvent) := by
  have hne : type ≠ .none := by rw [← htype]; split <;> simp
  have hill := dataIllegal_eq hv hcap (decide (f.h.opcode = .cont))
  rw [decide_eq_false hop] at hill
  by_cases hf : c.frag = .none
  · have hbegin : beginData c f.h (decide (f.h.opcode = .cont))
        = ({ c with frag := type }, [.ok]) := by
      simp [beginData, wsLcStartFrag, hop, hact, hf, htype]
    rw [if_pos hf, onData_legal (p := _) (by simp [hop, hill, isStrayCont, isInterleave, hf])
      hbegin rfl]
    exact assemble_outcome hne hv hcap hact [.ok] rfl
  · rw [if_neg hf, onData_illegal (by simp [hop, hill, isInterleave, hf])]
    exact .refuse rfl (Nat.le_refl _)

/-- A fragment that is not final joins the message, and the bytes behind it come next. -/
theorem Outcome.view_extend {type : WsFrag} {p : Poll} (ho : Outcome c msg f t (.extend type) p) :
    p.ret = .none ∧ View p.conn (msg ++ f.payload) t := by
  cases ho with
  | @extend b slack _ rcs hb hslack => exact ⟨rfl, ⟨slack, hslack⟩, rfl, rfl⟩

/-- A ping or pong leaves the message alone, and the bytes behind it come next. -/
theorem Outcome.view_control {v : Verdict} {p : Poll} (ho : Outcome c msg f t v p)
    (hk : v = .ping ∨ v = .pong) : View p.conn msg t := by
  rcases hk with rfl | rfl <;> cases ho <;> exact ⟨⟨_, rfl⟩, rfl, rfl⟩

theorem Outcome.of_refuse {p : Poll} (ho : Outcome c msg f t .refuse p) :
    p.ret = .error ∧ p.conn.failed = true := by
  cases ho with
  | refuse => exact ⟨rfl, rfl⟩

theorem Outcome.of_close {code : UInt16} {p : Poll} (ho : Outcome c msg f t (.close code) p) :
    p.ret = .close ∧ p.conn.state = .closed := by
  cases ho with
  | close => exact ⟨rfl, rfl⟩

/-- A message that is delivered leaves none in flight, and changes nothing else but the buffer. -/
theorem Outcome.of_deliver {type : WsFrag} {p : Poll} (ho : Outcome c msg f t (.deliver type) p) :
    (p.ev.op = type.op ∧ p.ev.closeCode = 0) ∧ p.conn.state = c.state ∧ p.conn.frag = .none ∧
      p.conn.failed = c.failed ∧ p.conn.role = c.role := by
  cases ho with
  | deliver => exact ⟨⟨rfl, rfl⟩, rfl, rfl, rfl, rfl⟩

/-- A message is where the event says.  The bytes behind it do not move, but `raw` does: what comes
next is read from the start of the buffer. -/
theorem Outcome.view_deliver {type : WsFrag} {p : Poll}
    (ho : Outcome c msg f t (.deliver type) p) : p.ret = .message ∧ p.data = msg ++ f.payload ∧
      View p.conn [] ((msg ++ f.payload ++ t).take t.length) := by
  cases ho with
  | @deliver b slack _ rcs hb hslack =>
      refine ⟨rfl, ?_, ⟨((msg ++ f.payload ++ t).drop t.length) ++ slack, ?_⟩, rfl, ?_⟩
      · show slice b 0 (msg ++ f.payload).length = msg ++ f.payload
        rw [hslack, slice, List.drop_zero, List.append_assoc, List.take_left]
      · rw [List.nil_append, ← List.append_assoc, List.take_append_drop]
        exact hslack
      · rw [List.length_take_of_le]
        rw [List.length_append]
        omega

/-- Only a fragment that is not final is reported as `NONE`. -/
theorem Outcome.extend_of_none {v : Verdict} {p : Poll} (ho : Outcome c msg f t v p)
    (h : p.ret = .none) : ∃ type, v = .extend type := by
  cases ho with
  | extend => exact ⟨_, rfl⟩
  | refuse | ping | pong | close | deliver => cases h

/-- The buffer's bytes are overwritten in every outcome, so an outcome of the connection with its
payload unmasked is an outcome of the connection. -/
theorem Outcome.of_msgBuf {b : List UInt8} (hb : b.length = c.msgBuf.length) {v : Verdict}
    {p : Poll} (h : Outcome { c with msgBuf := b } msg f t v p) : Outcome c msg f t v p := by
  cases h with
  | refuse h1 h2 => exact .refuse (h1.trans hb) h2
  | ping h1 => exact .ping (h1.trans hb)
  | pong h1 => exact .pong (h1.trans hb)
  | close h1 => exact .close (h1.trans hb)
  | extend h1 h2 => exact .extend (h1.trans hb) h2
  | deliver h1 h2 => exact .deliver (h1.trans hb) h2

/-- **A poll on a complete frame is the outcome of the receiver's verdict.** -/
theorem poll_outcome (hv : View c msg (f.wire ++ t)) (hcap : c.msgBuf.length < 2 ^ w)
    (hfail : c.failed = false) (hcode : wsLcActive c = true → c.closeCode = 0) :
    Outcome c msg f t ((c.receiver msg).verdict c.role f) (wsConnPoll w c) := by
  have hA := wsLcActive_iff c msg
  rw [wsConnPoll, hv.frameReady_wire hcap]
  simp only [hfail, Bool.false_eq_true, if_false, dispatch, admitFrame, Receiver.verdict,
    show (c.receiver msg).failed = c.failed from rfl]
  by_cases hact : wsLcActive c = true
  · rw [if_neg (not_not.mpr (hA.mp hact)), hact]
    by_cases hmask : c.role = .server ∧ f.h.masked = false
    · have hno : maskOk c f.h = false := by simp [maskOk, hmask.1, hmask.2]
      rw [if_pos hmask, hno]
      exact .refuse rfl (Nat.le_refl _)
    · have hyes : maskOk c f.h = true := by
        rw [maskOk]
        split
        · rfl
        · rename_i hr
          rw [not_not] at hr
          exact Bool.not_eq_false _ ▸ fun h => hmask ⟨hr, h⟩
      rw [if_neg hmask, hyes]
      obtain ⟨b, hb, hun, hv'⟩ := hv.unmask hcap
      simp only [Bool.not_true, Bool.false_eq_true, if_false, hun, route_kind]
      refine Outcome.of_msgBuf hb ?_
      have hcap' : b.length < 2 ^ w := hb ▸ hcap
      have hcl := f.classified
      generalize hk : f.kind = k at hcl
      cases k with
      | reserved => exact .refuse rfl (Nat.le_refl _)
      | close => exact onClose_outcome hv' hcap' hact (hcode hact)
      | ping => exact (onControl_outcome hv' hcap').1 hk
      | pong => exact (onControl_outcome hv' hcap').2 hk
      | cont => exact cont_outcome hv' hcap' hact hcl.1
      | text => exact start_outcome hv' hcap' hact (by rw [hcl.1]; decide) (by rw [hcl.1]; rfl)
      | bin => exact start_outcome hv' hcap' hact (by rw [hcl.1]; decide) (by rw [hcl.1]; rfl)
  · rw [Bool.not_eq_true] at hact
    rw [if_pos (mt hA.mpr (by simp [hact])), hact]
    exact .refuse rfl (Nat.le_refl _)

/-- Without a complete frame a poll does nothing. -/
theorem poll_idle {rx : List UInt8} (hv : View c msg rx) (h : ¬ HoldsFrame rx)
    (hfail : c.failed = false) : wsConnPoll 64 c = ⟨.none, c, clearEvent, []⟩ := by
  rw [wsConnPoll, hv.frameReady_none h, hfail]
  rfl

end Frames

end Libws
