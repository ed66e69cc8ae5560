import Libws.Session.Stream
import Libws.Support.Paths

/-!
# Session — the specification `WsStream`

`spec/WsStream.tla`: its variables, the disjuncts of `Next` and the invariants, under their names
there.  `CAP` and `PAYMAX` are any numbers; the model checker runs them at small constants.  A step
carries the disjunct it takes, and `Disjunct.event` is what the poll behind it returns.

* `Strong.next`: one step keeps the invariants, with one more that they need: no byte is buffered
  outside `OPEN` and `CLOSING`.
* `stream_safety`: **they hold along every path**, `failed` is never left, and the disjuncts
  `TooBig` (S9) and `IllegalState` (S14) are never taken.
-/

namespace Libws.WsStream
open Libws.Support

/-- `vars`. -/
structure Vars where
  state : WsState
  frag : WsFrag
  msgLen : Nat
  rxLen : Nat
  failed : Bool
  lastEvent : WsEventType
  deriving DecidableEq, Repr

namespace Vars

/-- `Active`. -/
def Active (s : Vars) : Prop := s.state = .open ∨ s.state = .closing

/-- `HasFrame`. -/
def HasFrame (s : Vars) : Prop := 1 ≤ s.rxLen

/-- `Init`. -/
def init : Vars := ⟨.connecting, .none, 0, 0, false, .none⟩

/-- What every error disjunct does (S9a). -/
def violate (s : Vars) : Vars :=
  { s with rxLen := s.rxLen - 1, failed := true, frag := .none, msgLen := 0, lastEvent := .error }

end Vars

/-- The disjuncts of `Next`. -/
inductive Disjunct where
  | terminated
  | handshake
  | toClosing
  | toClosed
  | recv
  | recvReject
  | startFrag (type : WsFrag)
  | continueFrag
  | finishFrag
  | interleave
  | strayCont
  | tooBig
  | control (ev : WsEventType)
  | recvCloseFrame
  | illegalState
  | pollWhenFailed
  deriving DecidableEq, Repr

/-- What the poll behind a disjunct returns; a poll that returns `NONE` shows nothing. -/
def Disjunct.event : Disjunct → List WsEventType
  | .finishFrag => [.message]
  | .interleave | .strayCont | .tooBig | .illegalState | .pollWhenFailed => [.error]
  | .control ev => [ev]
  | .recvCloseFrame => [.close]
  | _ => []

/-- `Next`, one constructor for each disjunct. -/
inductive Next (CAP PAYMAX : Nat) : Disjunct → Vars → Vars → Prop where
  | terminated {s : Vars} : s.state = .closed → s.rxLen = 0 → Next CAP PAYMAX .terminated s s
  | handshake {s : Vars} : s.state = .connecting →
      Next CAP PAYMAX .handshake s { s with state := .open }
  | toClosing {s : Vars} : s.state = .open →
      Next CAP PAYMAX .toClosing s { s with state := .closing }
  | toClosed {s : Vars} : s.state = .open ∨ s.state = .closing →
      Next CAP PAYMAX .toClosed s { s with state := .closed, frag := .none, msgLen := 0, rxLen := 0 }
  | recv {s : Vars} {chunk : Nat} : s.Active → s.failed = false → 1 ≤ chunk → chunk ≤ PAYMAX →
      s.msgLen + s.rxLen + chunk ≤ CAP →
      Next CAP PAYMAX .recv s { s with rxLen := s.rxLen + chunk }
  | recvReject {s : Vars} {chunk : Nat} : s.Active → s.failed = false → 1 ≤ chunk →
      chunk ≤ PAYMAX → CAP < s.msgLen + s.rxLen + chunk → Next CAP PAYMAX .recvReject s s
  | startFrag {s : Vars} {type : WsFrag} {pay : Nat} : type = .text ∨ type = .bin →
      s.failed = false → s.Active → s.frag = .none → s.HasFrame → 1 ≤ pay → pay ≤ PAYMAX →
      pay ≤ s.rxLen → s.msgLen + pay ≤ CAP →
      Next CAP PAYMAX (.startFrag type) s { s with
        frag := type, msgLen := s.msgLen + pay, rxLen := s.rxLen - pay, lastEvent := .none }
  | continueFrag {s : Vars} {pay : Nat} : s.failed = false → s.Active → s.frag ≠ .none →
      s.HasFrame → 1 ≤ pay → pay ≤ PAYMAX → pay ≤ s.rxLen → s.msgLen + pay ≤ CAP →
      Next CAP PAYMAX .continueFrag s { s with
        msgLen := s.msgLen + pay, rxLen := s.rxLen - pay, lastEvent := .none }
  | finishFrag {s : Vars} {pay : Nat} : s.failed = false → s.Active → s.frag ≠ .none →
      s.HasFrame → pay ≤ PAYMAX → pay ≤ s.rxLen → s.msgLen + pay ≤ CAP →
      Next CAP PAYMAX .finishFrag s { s with
        frag := .none, msgLen := 0, rxLen := s.rxLen - pay, lastEvent := .message }
  | interleave {s : Vars} : s.failed = false → s.Active → s.frag ≠ .none → s.HasFrame →
      Next CAP PAYMAX .interleave s s.violate
  | strayCont {s : Vars} : s.failed = false → s.Active → s.frag = .none → s.HasFrame →
      Next CAP PAYMAX .strayCont s s.violate
  | tooBig {s : Vars} {pay : Nat} : s.failed = false → s.Active → s.frag ≠ .none → s.HasFrame →
      1 ≤ pay → pay ≤ PAYMAX → pay ≤ s.rxLen → CAP < s.msgLen + pay →
      Next CAP PAYMAX .tooBig s s.violate
  | control {s : Vars} {ev : WsEventType} : ev = .ping ∨ ev = .pong → s.failed = false →
      s.Active → s.HasFrame →
      Next CAP PAYMAX (.control ev) s { s with rxLen := s.rxLen - 1, lastEvent := ev }
  | recvCloseFrame {s : Vars} : s.failed = false → s.Active → s.HasFrame →
      Next CAP PAYMAX .recvCloseFrame s { s with
        state := .closed, frag := .none, msgLen := 0, rxLen := 0, lastEvent := .close }
  | illegalState {s : Vars} : s.failed = false → ¬ s.Active → s.HasFrame →
      Next CAP PAYMAX .illegalState s s.violate
  | pollWhenFailed {s : Vars} : s.failed = true → s.HasFrame →
      Next CAP PAYMAX .pollWhenFailed s { s with rxLen := s.rxLen - 1, lastEvent := .error }

/-! ### The invariants -/

/-- `Inv`: the bounds of `TypeOK` and `SINV1` to `SINV5`, `SINV7` and `SINV8`. -/
structure Inv (CAP : Nat) (s : Vars) : Prop where
  typeOK : s.msgLen ≤ CAP ∧ s.rxLen ≤ CAP
  sinv1 : s.msgLen + s.rxLen ≤ CAP
  sinv2 : s.frag = .none ↔ s.msgLen = 0
  sinv3 : s.failed = true → s.lastEvent = .error ∨ s.lastEvent = .none
  sinv4 : s.frag ≠ .none → s.Active
  sinv5 : s.lastEvent = .message → s.frag = .none ∧ s.msgLen = 0
  sinv7 : s.lastEvent = .error → s.failed = true
  sinv8 : s.failed = true → s.frag = .none ∧ s.msgLen = 0

/-- `Inv` does not say that bytes are buffered only while frames are processed; that `IllegalState`
is never taken rests on it. -/
structure Strong (CAP : Nat) (s : Vars) : Prop extends Inv CAP s where
  drained : ¬ s.Active → s.rxLen = 0

variable {CAP PAYMAX : Nat} {s s' : Vars} {a : Disjunct}

theorem Strong.init : Strong CAP Vars.init := by
  refine ⟨⟨?_, ?_, ?_, ?_, ?_, ?_, ?_, ?_⟩, ?_⟩ <;> simp [Vars.init]

/-- An error keeps the invariants, from wherever it is raised. -/
theorem Strong.violate (h : Strong CAP s) : Strong CAP s.violate := by
  have hle := h.sinv1
  refine ⟨⟨⟨Nat.zero_le _, ?_⟩, ?_, ?_, ?_, ?_, ?_, ?_, ?_⟩, fun hna => ?_⟩
  case refine_9 =>
    have h0 : s.rxLen = 0 := h.drained hna
    simp [Vars.violate, h0]
  all_goals simp [Vars.violate] <;> omega

/-- The steps that take `pay` bytes of the buffer into the message. -/
theorem Strong.take (h : Strong CAP s) {type : WsFrag} {pay : Nat} (hf : s.failed = false)
    (ha : s.Active) (ht : type ≠ .none) (hpay : 1 ≤ pay) (hrx : pay ≤ s.rxLen) :
    Strong CAP { s with
      frag := type, msgLen := s.msgLen + pay, rxLen := s.rxLen - pay, lastEvent := .none } := by
  have hle := h.sinv1
  refine ⟨⟨⟨?_, ?_⟩, ?_, ?_, ?_, fun _ => ha, ?_, ?_, ?_⟩, fun hna => absurd ha hna⟩
  all_goals simp only [reduceCtorEq, false_implies]
  · omega
  · omega
  · omega
  · exact ⟨fun h0 => absurd h0 ht, fun h0 => by omega⟩
  · exact fun _ => .inr trivial
  · simp [hf]

/-- **One step of the specification keeps the invariants.** -/
theorem Strong.next (hn : Next CAP PAYMAX a s s') (h : Strong CAP s) : Strong CAP s' := by
  have hle := h.sinv1
  cases hn with
  | terminated | recvReject => exact h
  | handshake => exact ⟨{ h.toInv with sinv4 := fun _ => .inl rfl }, fun hna => absurd (.inl rfl) hna⟩
  | toClosing => exact ⟨{ h.toInv with sinv4 := fun _ => .inr rfl }, fun hna => absurd (.inr rfl) hna⟩
  | toClosed =>
      refine ⟨⟨⟨?_, ?_⟩, ?_, ?_, h.sinv3, ?_, ?_, h.sinv7, ?_⟩, fun _ => rfl⟩ <;> simp
  | recv ha _ _ _ hcap =>
      exact ⟨{ h.toInv with
        typeOK := ⟨h.typeOK.1, by simp only; omega⟩
        sinv1 := by simp only; omega }, fun hna => absurd ha hna⟩
  | startFrag ht hf ha _ _ hpay _ hrx =>
      refine h.take hf ha ?_ hpay hrx
      rcases ht with rfl | rfl <;> simp
  | continueFrag hf ha hne _ hpay _ hrx => exact h.take hf ha hne hpay hrx
  | finishFrag hf ha =>
      refine ⟨⟨⟨?_, ?_⟩, ?_, ?_, ?_, ?_, ?_, ?_, ?_⟩, fun hna => absurd ha hna⟩ <;>
        simp [hf] <;> omega
  | interleave | strayCont | tooBig | illegalState => exact h.violate
  | @control _ ev hev hf ha =>
      have hne : ev ≠ .message ∧ ev ≠ .error := by rcases hev with rfl | rfl <;> simp
      exact ⟨{ h.toInv with
        typeOK := ⟨h.typeOK.1, by simp only; omega⟩
        sinv1 := by simp only; omega
        sinv3 := fun ht => absurd ht (by simp [hf])
        sinv5 := fun he => absurd he hne.1
        sinv7 := fun he => absurd he hne.2 }, fun hna => absurd ha hna⟩
  | recvCloseFrame hf =>
      refine ⟨⟨⟨?_, ?_⟩, ?_, ?_, ?_, ?_, ?_, ?_, ?_⟩, fun _ => rfl⟩ <;> simp [hf]
  | pollWhenFailed hf =>
      refine ⟨{ h.toInv with
        typeOK := ⟨h.typeOK.1, by simp only; omega⟩
        sinv1 := by simp only; omega
        sinv3 := fun _ => .inl rfl
        sinv5 := fun he => by cases he
        sinv7 := fun _ => hf }, fun hna => ?_⟩
      have := h.drained hna
      simp [this]

/-- The disjuncts with no state to be taken in. -/
def Disjunct.Dead (a : Disjunct) : Prop := a = .tooBig ∨ a = .illegalState

/-- `TooBig` asks for bytes in the buffer that `SINV1` leaves no room for, and `IllegalState` for
bytes where there are none. -/
theorem Next.not_dead (hn : Next CAP PAYMAX a s s') (h : Strong CAP s) : ¬ a.Dead := by
  have hle := h.sinv1
  cases hn with
  | tooBig => omega
  | illegalState _ hna hfr =>
      have h0 := h.drained hna
      rw [Vars.HasFrame] at hfr
      omega
  | _ => simp [Disjunct.Dead]

/-- `Monotone`. -/
theorem Next.failed (hn : Next CAP PAYMAX a s s') (hf : s.failed = true) : s'.failed = true := by
  cases hn with
  | interleave | strayCont | tooBig | illegalState => rfl
  | _ => exact hf

/-- **Safety of the specification, at every size.**  Along every path from `Init` the invariants
hold, `failed` is never left again, and neither `TooBig` nor `IllegalState` is ever taken. -/
theorem stream_safety (CAP PAYMAX : Nat) {as : List Disjunct} {s : Vars}
    (hp : Walk (Next CAP PAYMAX) Vars.init as s) :
    Inv CAP s ∧ (∀ a ∈ as, ¬ a.Dead) ∧
      ∀ as' s', Walk (Next CAP PAYMAX) s as' s' → s.failed = true → s'.failed = true := by
  have hstep : ∀ a s s', Next CAP PAYMAX a s s' → Strong CAP s → Strong CAP s' :=
    fun _ _ _ hn h => h.next hn
  refine ⟨(hp.inv hstep .init).toInv, ?_, ?_⟩
  · exact hp.label_inv hstep (fun _ _ _ hn h => hn.not_dead h) .init
  · intro as' s' hp' hf
    exact hp'.inv (P := fun s => s.failed = true) (fun _ _ _ hn h => hn.failed h) hf

/-- A text message of two bytes is started, in a buffer of four. -/
theorem stream_safety_started :
    let s : Vars := ⟨.open, .text, 2, 0, false, .none⟩
    Walk (Next 4 2) Vars.init [.handshake, .recv, .startFrag .text] s ∧ Inv 4 s := by
  have h₁ : Next 4 2 .handshake Vars.init ⟨.open, .none, 0, 0, false, .none⟩ := .handshake rfl
  have h₂ : Next 4 2 .recv ⟨.open, .none, 0, 0, false, .none⟩ ⟨.open, .none, 0, 0 + 2, false, .none⟩ :=
    .recv (.inl rfl) rfl (by decide) (by decide) (by decide)
  have h₃ : Next 4 2 (.startFrag .text) ⟨.open, .none, 0, 2, false, .none⟩
      ⟨.open, .text, 0 + 2, 2 - 2, false, .none⟩ :=
    .startFrag (.inl rfl) rfl (.inl rfl) rfl (Nat.le_succ 1) (by decide) (by decide) (by decide)
      (by decide)
  have hp := Walk.cons h₁ (.cons h₂ (.one h₃))
  exact ⟨hp, (stream_safety 4 2 hp).1⟩

end Libws.WsStream
