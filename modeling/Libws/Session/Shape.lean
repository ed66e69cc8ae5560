import Libws.Session.Receiver

/-!
# Session — the shape of a poll

What `ws_conn_poll` can do to the control fields of a connection, for every connection and every
width of `size_t`.  `Shape` keeps the size of the buffer and says nothing of where bytes end up:
`Poll` does that for buffers in order.

* `poll_shape`: what holds of the shapes, of a poll that does nothing and of one that reports an
  old failure holds of every poll.
* `finishMessage_eq`, `onData_legal`, `onData_illegal`: the data path, one function at a time.
-/

namespace Libws
open Libws.Support

/-- How a data frame enters a message of type `type`: it continues one, or starts one through
`ws_lc_start_frag`, whose return code is dropped. -/
def Enters (c : WsConn) (type : WsFrag) (rcs : List WsStatus) : Prop :=
  type ≠ .none ∧ (c.frag = type ∧ rcs = [] ∨ c.frag = .none ∧ rcs = [.ok])

/-- What a poll does with a complete frame. -/
inductive Shape (c : WsConn) : Poll → Prop where
  | refuse {b : List UInt8} {n : Nat} {rcs : List WsStatus} :
      b.length = c.msgBuf.length → (∀ rc ∈ rcs, rc = .ok) →
      Shape c
        { ret := .error
          conn := { c with failed := true, frag := .none, msgBuf := b, msgLen := 0, rxLen := n }
          ev := { clearEvent with type := .error }
          rcs := rcs }
  | control {t : WsEventType} {b : List UInt8} {n off len : Nat} :
      b.length = c.msgBuf.length → wsLcActive c = true → t = .ping ∨ t = .pong → len ≤ 125 →
      Shape c
        { ret := t
          conn := { c with msgBuf := b, rxLen := n }
          ev := { clearEvent with type := t, data := some off, len := len }
          rcs := [] }
  | close {b : List UInt8} {n : Nat} {code : UInt16} :
      b.length = c.msgBuf.length → wsLcActive c = true →
      code = c.closeCode ∨ wsCloseCodeSendable code = true →
      Shape c
        { ret := .close
          conn := { c with
            state := .closed, sentClose := true, rcvdClose := true, frag := .none, msgBuf := b
            msgLen := 0, rxLen := n, closeCode := code }
          ev := { clearEvent with type := .close, closeCode := code }
          rcs := [.ok] }
  | extend {b : List UInt8} {m n : Nat} {type : WsFrag} {rcs : List WsStatus} :
      b.length = c.msgBuf.length → wsLcActive c = true → Enters c type rcs → m ≤ c.msgCap →
      Shape c
        { ret := .none
          conn := { c with frag := type, msgBuf := b, msgLen := m, rxLen := n }
          ev := clearEvent
          rcs := rcs }
  | deliver {b : List UInt8} {m n : Nat} {type : WsFrag} {rcs : List WsStatus} :
      b.length = c.msgBuf.length → wsLcActive c = true → Enters c type rcs → m ≤ c.msgCap →
      (type = .text → IsUtf8 (slice b 0 m)) →
      Shape c
        { ret := .message
          conn := { c with frag := .none, msgBuf := b, msgLen := 0, rxLen := n }
          ev := { clearEvent with type := .message, op := type.op, data := some 0, len := m }
          rcs := rcs ++ [.ok] }

variable {w : Nat} {c : WsConn} {h : WsFrameHeader} {hdr : Nat} {ev : WsEvent}

theorem Shape.fail (c : WsConn) : Shape c (Libws.fail c clearEvent) :=
  .refuse rfl (show ∀ rc ∈ ([] : List WsStatus), rc = WsStatus.ok by simp)

/-! ### Data frames -/

/-- `finish_message`, by the message the buffer holds. -/
theorem finishMessage_eq (hact : wsLcActive c = true) (hfrag : c.frag ≠ .none) (ev : WsEvent) :
    finishMessage c ev = if c.frag = .text ∧ ¬ IsUtf8 (slice c.msgBuf 0 c.msgLen) then fail c ev
      else
        { ret := .message
          conn := { c with frag := .none, msgLen := 0 }
          ev := { ev with type := .message, op := c.frag.op, data := some 0, len := c.msgLen }
          rcs := [.ok] } := by
  have hutf : messageUtf8Ok c = true ↔
      ¬ (c.frag = .text ∧ ¬ IsUtf8 (slice c.msgBuf 0 c.msgLen)) := by
    unfold messageUtf8Ok
    by_cases ht : c.frag = .text
    · simp [ht, wsUtf8Valid_iff]
    · simp [ht]
  have hop : (if c.frag = .bin then WsOpcode.bin else WsOpcode.text) = c.frag.op := by
    cases c.frag <;> rfl
  have hfinish : wsLcFinishFrag c = (.ok, { c with frag := .none }) := by
    rw [wsLcFinishFrag, hact]
    simp [hfrag]
  rw [finishMessage, hfinish, hop]
  by_cases hbad : c.frag = .text ∧ ¬ IsUtf8 (slice c.msgBuf 0 c.msgLen)
  · have hno : messageUtf8Ok c = false := by
      rw [← Bool.not_eq_true]; exact fun h => hutf.mp h hbad
    rw [if_pos hbad, hno]
    rfl
  · rw [if_neg hbad, hutf.mpr hbad]
    rfl

theorem dataIllegal_eq_false {isCont : Bool} : dataIllegal w c h isCont = false ↔
    (isCont = true → c.frag ≠ .none) ∧ (isCont = false → c.frag = .none) ∧
      szAdd w c.msgLen (sizeT w h.payloadLen.toNat) ≤ c.msgCap := by
  rw [dataIllegal, isStrayCont, isInterleave]
  cases isCont <;> by_cases hf : c.frag = .none <;> simp [hf]

theorem onData_illegal (hill : dataIllegal w c h (decide (h.opcode = .cont)) = true) :
    onData w c h hdr ev = fail c ev := by
  simp only [onData, hill, if_true]

/-- A legal data frame enters the message, and a final one finishes it. -/
theorem onData_legal {d : WsConn} {rcs : List WsStatus} {p : Poll}
    (hill : dataIllegal w c h (decide (h.opcode = .cont)) = false)
    (hbegin : beginData c h (decide (h.opcode = .cont)) = (d, rcs))
    (hp : p = if !h.fin then emit (accumulate w d h hdr) ev .none
      else finishMessage (accumulate w d h hdr) ev) :
    onData w c h hdr ev = { p with rcs := rcs ++ p.rcs } := by
  simp only [onData, hill, hbegin, hp, Bool.false_eq_true, if_false]

/-- `begin_data` on a legal frame: the lifecycle accepts the start. -/
theorem beginData_enters (hact : wsLcActive c = true)
    (hill : dataIllegal w c h (decide (h.opcode = .cont)) = false) :
    ∃ type rcs, beginData c h (decide (h.opcode = .cont)) = ({ c with frag := type }, rcs) ∧
      Enters c type rcs := by
  obtain ⟨hcont, hstart, -⟩ := dataIllegal_eq_false.mp hill
  by_cases hop : h.opcode = .cont
  · refine ⟨c.frag, [], ?_, hcont (decide_eq_true hop), .inl ⟨rfl, rfl⟩⟩
    rw [decide_eq_true hop]
    rfl
  · have hf := hstart (decide_eq_false hop)
    refine ⟨if h.opcode = .bin then .bin else .text, [.ok], ?_, ?_, .inr ⟨hf, rfl⟩⟩
    · simp [beginData, wsLcStartFrag, hop, hact, hf]
    · split <;> simp

theorem accumulate_length (w : Nat) (c : WsConn) (h : WsFrameHeader) (hdr : Nat) :
    (accumulate w c h hdr).msgBuf.length = c.msgBuf.length := by
  simp [accumulate]

theorem onData_shape (hact : wsLcActive c = true) : Shape c (onData w c h hdr clearEvent) := by
  by_cases hill : dataIllegal w c h (decide (h.opcode = .cont)) = true
  · rw [onData_illegal hill]
    exact Shape.fail c
  · rw [Bool.not_eq_true] at hill
    obtain ⟨type, rcs, hbegin, hent⟩ := beginData_enters hact hill
    have hcap := (dataIllegal_eq_false.mp hill).2.2
    have hb := accumulate_length w { c with frag := type } h hdr
    have hok : ∀ rc ∈ rcs, rc = .ok := by
      rcases hent.2 with ⟨-, rfl⟩ | ⟨-, rfl⟩ <;> simp
    cases hfin : h.fin with
    | false =>
        rw [onData_legal (p := emit (accumulate w { c with frag := type } h hdr) clearEvent .none)
          hill hbegin (by rw [hfin]; rfl)]
        simp only [emit, List.append_nil]
        exact .extend hb hact hent hcap
    | true =>
        rw [onData_legal
          (p := finishMessage (accumulate w { c with frag := type } h hdr) clearEvent)
          hill hbegin (by rw [hfin]; rfl),
          finishMessage_eq (c := accumulate w { c with frag := type } h hdr) hact hent.1]
        split
        · exact .refuse hb (by simpa [fail] using hok)
        · rename_i hgood
          refine .deliver hb hact hent hcap fun ht => ?_
          exact not_not.mp fun hu => hgood ⟨ht, hu⟩

/-! ### Control frames -/

theorem onClose_shape (hact : wsLcActive c = true) :
    Shape c (onClose w c h hdr clearEvent) := by
  rw [onClose]
  by_cases hok : closeBodyOk w c h hdr = true
  · have hrecv : ∀ code, wsLcRecvClose { c with closeCode := code } = (.ok, { c with
        closeCode := code, rcvdClose := true, sentClose := true, state := .closed, frag := .none
        msgLen := 0 }) := fun code => by
      rw [wsLcRecvClose, show wsLcActive { c with closeCode := code } = true from hact]
      rfl
    simp only [hok, Bool.not_true, Bool.false_eq_true, if_false]
    split
    · rename_i h2
      -- a body of two bytes or more has passed the code check
      have hsend : wsCloseCodeSendable (closeCodeAt c hdr) = true := by
        simp only [closeBodyOk] at hok
        rw [if_neg (by omega), if_neg (by omega), closeCodeReasonOk] at hok
        by_contra hno
        rw [Bool.not_eq_true] at hno
        simp [hno] at hok
      rw [hrecv]
      exact .close (fwdCopy_length ..) hact (.inr hsend)
    · rw [show c = { c with closeCode := c.closeCode } from rfl, hrecv]
      exact .close (fwdCopy_length ..) hact (.inl rfl)
  · rw [Bool.not_eq_true] at hok
    rw [hok]
    exact Shape.fail c

theorem onControl_shape (hact : wsLcActive c = true)
    (hlen : h.payloadLen.toNat ≤ 125) : Shape c (onControl w c h hdr clearEvent) := by
  have hmod : sizeT w h.payloadLen.toNat ≤ 125 := Nat.le_trans (Nat.mod_le _ _) hlen
  rw [onControl]
  split
  · exact onClose_shape hact
  · refine .control (fwdCopy_length ..) hact ?_ hmod
    split <;> simp

/-! ### The whole poll -/

/-- Only a well-formed header is dispatched. -/
theorem frameReady_wellFormed {total : Nat} (hr : frameReady w c = some (h, hdr, total)) :
    h.WellFormed := by
  rw [frameReady] at hr
  split at hr
  · cases hr
  · rename_i hp
    split at hr
    · cases hr
    · simp only at hr
      split at hr
      · cases hr
        exact (parse_ok_inv hp).1
      · cases hr

/-- Every shape overwrites the bytes of the buffer, so a shape of the connection with its payload
unmasked is a shape of the connection. -/
theorem Shape.of_msgBuf {b : List UInt8} (hb : b.length = c.msgBuf.length) {p : Poll}
    (hs : Shape { c with msgBuf := b } p) : Shape c p := by
  cases hs with
  | refuse h0 h1 => exact .refuse (h0.trans hb) h1
  | control h0 h1 h2 h3 => exact .control (h0.trans hb) h1 h2 h3
  | close h0 h1 h2 => exact .close (h0.trans hb) h1 h2
  | extend h0 h1 h2 h3 => exact .extend (h0.trans hb) h1 h2 (h3.trans_eq hb)
  | deliver h0 h1 h2 h3 h4 => exact .deliver (h0.trans hb) h1 h2 (h3.trans_eq hb) h4

theorem unmaskPayload_eq (w : Nat) (c : WsConn) (h : WsFrameHeader) (hdr : Nat) :
    ∃ b, unmaskPayload w c h hdr = { c with msgBuf := b } ∧ b.length = c.msgBuf.length := by
  rw [unmaskPayload]
  split
  · exact ⟨_, rfl, wsMask_length ..⟩
  · exact ⟨_, rfl, rfl⟩

/-- A frame that is not admitted fails; any other is routed, with its payload unmasked. -/
theorem dispatch_cases (w : Nat) (c : WsConn) (h : WsFrameHeader) (hdr : Nat) (ev : WsEvent) :
    dispatch w c h hdr ev = fail c ev ∨ wsLcActive c = true ∧ ∃ b, b.length = c.msgBuf.length ∧
      dispatch w c h hdr ev = route w { c with msgBuf := b } h hdr ev := by
  rw [dispatch, admitFrame]
  cases hact : wsLcActive c with
  | false => exact .inl rfl
  | true =>
      cases hmask : maskOk c h with
      | false => exact .inl rfl
      | true =>
          obtain ⟨b, hun, hb⟩ := unmaskPayload_eq w c h hdr
          exact .inr ⟨rfl, b, hb, by rw [← hun]; rfl⟩

theorem dispatch_shape (hw : h.WellFormed) : Shape c (dispatch w c h hdr clearEvent) := by
  rcases dispatch_cases w c h hdr clearEvent with hfail | ⟨hact, b, hb, hroute⟩
  · rw [hfail]
    exact Shape.fail c
  · rw [hroute]
    refine Shape.of_msgBuf hb ?_
    rw [route]
    split
    · rename_i hcl
      exact onControl_shape hact (hw.control hcl).2
    · exact onData_shape hact
    · exact Shape.fail _

/-- A failed connection reports its failure and nothing else. -/
theorem poll_failed (hf : c.failed = true) :
    wsConnPoll w c = ⟨.error, c, { clearEvent with type := .error }, []⟩ := by
  rw [wsConnPoll, if_pos hf]
  rfl

/-- **Every poll** reports an old failure, does nothing, or has a `Shape`. -/
theorem poll_shape {P : Poll → Prop} (w : Nat) (c : WsConn)
    (failed : c.failed = true → P ⟨.error, c, { clearEvent with type := .error }, []⟩)
    (idle : c.failed = false → P ⟨.none, c, clearEvent, []⟩)
    (frame : ∀ p, c.failed = false → Shape c p → P p) : P (wsConnPoll w c) := by
  cases hf : c.failed with
  | true => rw [poll_failed hf]; exact failed hf
  | false =>
      rw [wsConnPoll, hf]
      cases hr : frameReady w c with
      | none => exact idle hf
      | some r => exact frame _ hf (dispatch_shape (frameReady_wellFormed hr))

end Libws
