import Libws.Session.Outbound
import Libws.Session.Refinement

/-!
# Session — what an endpoint sends

The three senders of `ws.h` as one operation.  An `Item` is what the application asks for; it is
`Valid` when the peer can take it: a text is UTF-8, a control payload has at most 125 bytes, and a
close has a code an endpoint may send.

* `send_carries`: **an open endpoint puts a valid item on the wire as one frame**, on which a peer
  between two messages shows the item's event and nothing else.
-/

namespace Libws
open Libws.Support

/-- What an application sends. -/
inductive Item where
  | message (op : WsOpcode) (payload : List UInt8)
  | pong (payload : List UInt8)
  | close (code : UInt16)
  deriving DecidableEq, Repr

namespace Item

def op : Item → WsOpcode
  | .message op _ => op
  | .pong _ => .pong
  | .close _ => .close

def body : Item → List UInt8
  | .message _ payload => payload
  | .pong payload => payload
  | .close code => closeBytes code

/-- What the peer can take. -/
def Valid : Item → Prop
  | .message op payload => payload.length < 2 ^ 63 ∧
    (op = .text ∧ IsUtf8 payload ∨ op = .bin ∨ op = .ping ∧ payload.length ≤ 125)
  | .pong payload => payload.length ≤ 125
  | .close code => Sendable code.toNat

instance : DecidablePred Valid
  | .message _ _ => inferInstanceAs (Decidable (_ ∧ _))
  | .pong _ => inferInstanceAs (Decidable (_ ≤ _))
  | .close _ => inferInstanceAs (Decidable (Sendable _))

/-- The event the peer is to see. -/
def event : Item → Event
  | .message op payload => if op = .ping then .ping payload else .message op payload
  | .pong payload => .pong payload
  | .close code => .close code

/-- The phase of the peer after it. -/
def phase (p : WsState) : Item → WsState
  | .close _ => .closed
  | _ => p

end Item

/-- The call that sends an item: what it writes, and the connection after. -/
def send (c : WsConn) (key : MaskKey) (out : List UInt8) : Item → Built × WsConn
  | .message op payload => (wsSendMessage 64 c key op payload out, c)
  | .pong payload => (wsSendPong 64 c key payload out, c)
  | .close code => ((wsSendClose 64 c key code out).1, (wsSendClose 64 c key code out).2.1)

/-- The bytes a send reports to have written. -/
def Built.bytes (b : Built) : List UInt8 := b.out.take b.n

/-- A peer of this role between two messages takes the frame as the item, in either phase. -/
def Carries (role : WsRole) (f : Frame) (i : Item) : Prop :=
  ∀ phase, phase = .open ∨ phase = .closing →
    Receiver.step role ⟨phase, .none, [], false⟩ f = (i.event, ⟨i.phase phase, .none, [], false⟩)

variable {c : WsConn} {key : MaskKey} {out : List UInt8} {i : Item}

theorem send_built (ho : c.state = .open) (key : MaskKey) (out : List UInt8) (i : Item) :
    (send c key out i).1 = buildFrame 64 c key i.op i.body out := by
  have hact : wsLcActive c = true := by simp [wsLcActive, ho]
  cases i with
  | message => rw [send, wsSendMessage, hact]; rfl
  | pong => exact wsSendPong_active hact key _ out
  | close code => exact wsSendClose_open ho key code out

/-- The header a valid item is sent with is well formed. -/
theorem Item.Valid.wellFormed (hv : i.Valid) (c : WsConn) (key : MaskKey) :
    (sendHeader c key i.op i.body.length).WellFormed ∧ i.body.length < 2 ^ 63 := by
  have hlen : i.body.length < 2 ^ 63 := by
    cases i with
    | message => exact hv.1
    | pong => exact lt_of_le_of_lt hv (by decide)
    | close => exact (show 2 < 2 ^ 63 by decide)
  obtain ⟨hop, hfin, -, hrsv, -⟩ := sendHeader_fields c key i.op i.body.length
  have hplen := sendHeader_len c key i.op (show i.body.length < 2 ^ 64 by omega)
  refine ⟨⟨hrsv, ?_, by rw [hplen]; exact hlen, fun hc => ⟨hfin, ?_⟩⟩, hlen⟩
  · rw [hop]
    cases i with
    | message op payload =>
        rcases hv.2 with ⟨h, -⟩ | h | ⟨h, -⟩ <;> rw [Item.op, h] <;> decide
    | pong => exact (show WsOpcode.pong < 16 by decide)
    | close => exact (show WsOpcode.close < 16 by decide)
  · rw [hop] at hc
    rw [hplen]
    cases i with
    | message op payload =>
        rcases hv.2 with ⟨h, -⟩ | h | ⟨-, hle⟩
        · rw [Item.op, h] at hc; cases hc
        · rw [Item.op, h] at hc; cases hc
        · exact hle
    | pong => exact hv
    | close => exact (show 2 ≤ 125 by decide)

/-- **A valid item goes out as one frame that carries it.** -/
theorem send_carries (ho : c.state = .open) (hv : i.Valid) (hout : out.length < 2 ^ 64)
    (hn : 0 < (send c key out i).1.n) :
    ∃ f : Frame, (send c key out i).1.bytes = f.wire ∧ Carries c.role.opposite f i := by
  rw [send_built ho] at hn ⊢
  obtain ⟨hw, hlen⟩ := hv.wellFormed c key
  obtain ⟨f, hwire, hh, hbody⟩ := buildFrame_wire hw hlen hout hn
  obtain ⟨hop, hfin, -, -, hmask, -⟩ := sendHeader_fields c key i.op i.body.length
  refine ⟨f, hwire, fun phase hact => ?_⟩
  have hadm : Receiver.Admits c.role.opposite ⟨phase, .none, [], false⟩ f := by
    refine ⟨rfl, hact, fun hr => ?_⟩
    rw [hh, hmask]
    cases hc : c.role with
    | server => rw [hc] at hr; cases hr
    | client => rfl
  have hkind : f.kind = .ofOpcode i.op.toNat := by rw [Frame.kind, hh, hop]
  have hfin' : f.h.fin = true := by rw [hh, hfin]
  have hverdict := Receiver.verdict_of_admits hadm
  cases i with
  | pong payload =>
      rw [hkind] at hverdict
      rw [Receiver.step, hverdict, ← show f.payload = payload from hbody]
      rfl
  | close code =>
      have hb : closeBody f.payload = some code := by
        rw [show f.payload = closeBytes code from hbody, closeBody_closeBytes]
        exact if_pos hv
      rw [hkind, hb] at hverdict
      rw [Receiver.step, hverdict]
      rfl
  | message op payload =>
      rw [← show f.payload = payload from hbody]
      rcases hv.2 with ⟨rfl, hutf⟩ | rfl | ⟨rfl, -⟩
      · have hdeliver := Receiver.verdict_deliver_iff.mpr
          ⟨hadm, .text hkind rfl, hfin', fun _ => by rwa [show f.payload = payload from hbody]⟩
        rw [Receiver.step, hdeliver]
        rfl
      · have hdeliver := Receiver.verdict_deliver_iff.mpr
          ⟨hadm, .bin hkind rfl, hfin', fun h => by cases h⟩
        rw [Receiver.step, hdeliver]
        rfl
      · rw [hkind] at hverdict
        rw [Receiver.step, hverdict]
        rfl

end Libws
