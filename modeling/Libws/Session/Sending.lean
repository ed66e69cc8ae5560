import Libws.Framing.Wire
import Libws.Session.Stream

/-!
# Session — what the builders write

`build_frame` writes a header and the payload behind it, masked when the endpoint is a client, or
reports that there is no room (`buildFrame_cases`).  The bytes it reports to have written are the
wire of a frame whose payload is the one it was given (`buildFrame_wire`).
-/

namespace Libws
open Libws.Support

/-- The other side. -/
def WsRole.opposite : WsRole → WsRole
  | .server => .client
  | .client => .server

/-- The header `build_frame` fills in. -/
def sendHeader (c : WsConn) (key : MaskKey) (op : WsOpcode) (len : Nat) : WsFrameHeader :=
  outHeader c key { WsFrameHeader.zero with
    opcode := op, payloadLen := UInt64.ofNat len, fin := true, masked := false }

theorem sendHeader_fields (c : WsConn) (key : MaskKey) (op : WsOpcode) (len : Nat) :
    (sendHeader c key op len).opcode = op ∧ (sendHeader c key op len).fin = true ∧
      (sendHeader c key op len).payloadLen = UInt64.ofNat len ∧
      (sendHeader c key op len).rsv = 0 ∧
      ((sendHeader c key op len).masked = true ↔ c.role = .client) ∧
      (sendHeader c key op len).into .zero = sendHeader c key op len := by
  rw [sendHeader, outHeader]
  split
  · rename_i hr; exact ⟨rfl, rfl, rfl, rfl, by simp [hr], rfl⟩
  · rename_i hr; exact ⟨rfl, rfl, rfl, rfl, by simp [hr], rfl⟩

/-- A payload as it goes on the wire. -/
def wireBody (h : WsFrameHeader) (payload : List UInt8) : List UInt8 :=
  if h.masked then masked h.maskKey payload else payload

@[simp] theorem wireBody_length (h : WsFrameHeader) (payload : List UInt8) :
    (wireBody h payload).length = payload.length := by
  rw [wireBody]
  split
  · exact masked_length ..
  · rfl

/-- Unmasking what goes on the wire gives the payload back. -/
theorem wireBody_wireBody (h : WsFrameHeader) (payload : List UInt8) :
    wireBody h (wireBody h payload) = payload := by
  simp only [wireBody]
  split
  · exact masked_masked ..
  · rfl

/-- **`build_frame`**: there is no room for the frame and it reports failure, or it writes the
header and the body behind it. -/
theorem buildFrame_cases (c : WsConn) (key : MaskKey) (op : WsOpcode) {payload out : List UInt8}
    (hout : out.length < 2 ^ 64) :
    let h := sendHeader c key op payload.length
    let n := (headerBytes h).length + payload.length
    out.length < n ∧ (buildFrame 64 c key op payload out).n = 0 ∨
      n ≤ out.length ∧
        buildFrame 64 c key op payload out
          = ⟨n, headerBytes h ++ wireBody h payload ++ out.drop n⟩ := by
  intro h n
  rw [buildFrame, ← sendHeader]
  rcases Nat.lt_or_ge out.length (headerBytes h).length with hsmall | hroom
  · rw [wsBuildHeader_small h out hsmall]
    exact .inl ⟨by omega, rfl⟩
  · rw [wsBuildHeader_eq h out hroom]
    have hsub : szSub 64 out.length (headerBytes h).length = out.length - (headerBytes h).length :=
      szSub_of_le hroom hout
    simp only [frameFits, hsub]
    rcases Nat.lt_or_ge (out.length - (headerBytes h).length) payload.length with hlt | hfit
    · rw [decide_eq_false (by omega)]
      exact .inl ⟨by omega, rfl⟩
    · rw [decide_eq_true hfit]
      refine .inr ⟨by omega, ?_⟩
      have hcopy : wsMemcpy (headerBytes h ++ out.drop (headerBytes h).length)
          (headerBytes h).length payload payload.length
          = headerBytes h ++ payload ++ out.drop n := by
        rw [wsMemcpy_append _ _ _ (by rw [List.length_drop]; exact hfit), List.drop_drop]
      have htotal : szAdd 64 (headerBytes h).length payload.length = n := szAdd_of_lt (by omega)
      simp only [Bool.not_true, Bool.false_eq_true, if_false, hcopy, htotal, wireBody]
      split
      · rw [wsMask_append]
      · rfl

/-- **What `build_frame` writes is a frame**: one with the header it filled in and the payload it
was given, masked when the endpoint is a client. -/
theorem buildFrame_wire {c : WsConn} {key : MaskKey} {op : WsOpcode} {payload out : List UInt8}
    (hw : (sendHeader c key op payload.length).WellFormed) (hlen : payload.length < 2 ^ 63)
    (hout : out.length < 2 ^ 64) (hn : 0 < (buildFrame 64 c key op payload out).n) :
    ∃ f : Frame, (buildFrame 64 c key op payload out).out.take
        (buildFrame 64 c key op payload out).n = f.wire ∧
      f.h = sendHeader c key op payload.length ∧ f.payload = payload := by
  obtain ⟨-, -, hplen, -, -, hinto⟩ := sendHeader_fields c key op payload.length
  rcases buildFrame_cases c key op hout with ⟨-, hzero⟩ | ⟨-, heq⟩
  · exact absurd hzero hn.ne'
  · rw [heq]
    generalize sendHeader c key op payload.length = h at *
    have hpn : payload.length = h.payloadLen.toNat := by
      rw [hplen, UInt64.toNat_ofNat_of_lt' (show payload.length < 2 ^ 64 by omega)]
    have hparse := parse_headerBytes hw .zero []
    rw [List.append_nil, hinto] at hparse
    refine ⟨⟨headerBytes h, h, wireBody h payload, hparse, ?_⟩, ?_, rfl, ?_⟩
    · rw [wireBody_length, hpn]
    · exact List.take_left' (by rw [List.length_append, wireBody_length])
    · exact wireBody_wireBody h payload

end Libws
