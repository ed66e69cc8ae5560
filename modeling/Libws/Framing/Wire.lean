import Libws.Framing.Incremental

/-!
# Framing — frames on the wire

A `Frame` is a header `ws_parse_header` accepts with a body of the length it announces.  `wire`
is its bytes as sent and `payload` its body unmasked.

* `holdsFrame_iff`: a complete frame stands at the head of `bs` exactly when `bs` is the wire of a
  frame and a rest.
* `Frame.wire_inj`: the frame and the rest are determined by the bytes.
-/

namespace Libws
open Libws.Support

/-- A parsed header and the body that goes with it. -/
structure Frame where
  hdr : List UInt8
  h : WsFrameHeader
  body : List UInt8
  parsed : wsParseHeader hdr .zero = .ok (hdr.length, h)
  body_len : body.length = h.payloadLen.toNat

namespace Frame

variable (f : Frame)

/-- The bytes of the frame. -/
def wire : List UInt8 := f.hdr ++ f.body

/-- The body, unmasked when the header says so. -/
def payload : List UInt8 := if f.h.masked then masked f.h.maskKey f.body else f.body

@[simp] theorem payload_length : f.payload.length = f.h.payloadLen.toNat := by
  rw [payload]
  split
  · rw [masked_length, f.body_len]
  · exact f.body_len

@[simp] theorem wire_length : f.wire.length = f.hdr.length + f.h.payloadLen.toNat := by
  rw [wire, List.length_append, f.body_len]

theorem wellFormed : f.h.WellFormed := (parse_ok_inv f.parsed).1

theorem hdr_length : 2 ≤ f.hdr.length ∧ f.hdr.length ≤ 14 := by
  obtain ⟨-, -, hn, -⟩ := parse_ok_inv f.parsed
  rw [hn]
  exact ⟨headerBytes_length_ge _, headerBytes_length_le _⟩

theorem wire_ne_nil : f.wire ≠ [] := by
  have := f.hdr_length
  rw [← List.length_pos_iff, wire_length]
  omega

/-- The header is read off the wire, whatever follows it. -/
theorem parse_wire (t : List UInt8) :
    wsParseHeader (f.wire ++ t) .zero = .ok (f.hdr.length, f.h) := by
  rw [wire, List.append_assoc]
  exact parse_append_ok f.parsed _

end Frame

/-- `ws_parse_header` accepts the head of `bs` as a header of `n` bytes, and the `n` bytes and the
payload it announces are there. -/
def HoldsFrame (bs : List UInt8) : Prop :=
  ∃ n h, wsParseHeader bs .zero = .ok (n, h) ∧ n + h.payloadLen.toNat ≤ bs.length

theorem holdsFrame_iff (bs : List UInt8) :
    HoldsFrame bs ↔ ∃ (f : Frame) (t : List UInt8), bs = f.wire ++ t := by
  constructor
  · rintro ⟨n, h, hp, hle⟩
    obtain ⟨hw, hi, rfl, s, rfl⟩ := parse_ok_inv hp
    obtain ⟨body, t, rfl, hb⟩ := exists_append_of_le (l := s) (n := h.payloadLen.toNat) (by
      rw [List.length_append] at hle; omega)
    refine ⟨⟨headerBytes h, h, body, ?_, hb⟩, t, (List.append_assoc ..).symm⟩
    have := parse_headerBytes hw .zero []
    rwa [List.append_nil, hi] at this
  · rintro ⟨f, t, rfl⟩
    refine ⟨_, _, f.parse_wire t, ?_⟩
    rw [List.length_append, f.wire_length]
    omega

theorem not_holdsFrame_nil : ¬ HoldsFrame [] := by
  rintro ⟨n, h, hp, -⟩
  cases hp

/-- **The frame at the head of a byte sequence is unique**, and so is what follows it. -/
theorem Frame.wire_inj {f g : Frame} {s t : List UInt8} (h : f.wire ++ s = g.wire ++ t) :
    f = g ∧ s = t := by
  have hp := g.parse_wire t
  rw [← h, f.parse_wire s] at hp
  obtain ⟨hn, hh⟩ := Prod.mk.inj (Except.ok.inj hp)
  have hlen : f.wire.length = g.wire.length := by
    rw [f.wire_length, g.wire_length, hn, hh]
  obtain ⟨hwire, rfl⟩ := List.append_inj h hlen
  obtain ⟨hhdr, hbody⟩ := List.append_inj hwire hn
  obtain ⟨fh, f', fb, _, _⟩ := f
  obtain ⟨gh, g', gb, _, _⟩ := g
  cases hh
  cases hhdr
  cases hbody
  exact ⟨rfl, rfl⟩

/-- A proper prefix of a frame holds no frame. -/
theorem Frame.not_holdsFrame_prefix (f : Frame) {a b : List UInt8} (h : a ++ b = f.wire)
    (hb : b ≠ []) : ¬ HoldsFrame a := by
  intro hc
  obtain ⟨g, t, rfl⟩ := (holdsFrame_iff a).mp hc
  rw [List.append_assoc] at h
  have h' : g.wire ++ (t ++ b) = f.wire ++ [] := by rw [h, List.append_nil]
  obtain ⟨-, hnil⟩ := Frame.wire_inj h'
  exact hb (List.append_eq_nil_iff.mp hnil).2

end Libws
