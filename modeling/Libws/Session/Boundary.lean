import Libws.Session.Inbound

/-!
# Session — the message boundary

`frag = NONE` says that no message is in flight, and `msg_len` counts its bytes.  The two agree
until a message is started by an empty fragment that is not final: then a message is in flight and
has no bytes.

* `exec_atBoundary_iff`: the calls that keep the two together.
* `boundary_iff`: they agree in every state of a run exactly when no poll of the run starts a
  message so.
-/

namespace Libws
open Libws.Support

/-- No message is in flight exactly when it has no bytes. -/
def AtBoundary (c : WsConn) : Prop := c.frag = .none ↔ c.msgLen = 0

instance : DecidablePred AtBoundary := fun _ => inferInstanceAs (Decidable (_ ↔ _))

/-- The call is a poll that starts a message with an empty fragment that is not final. -/
def StartsEmpty (c : WsConn) : Call → Prop
  | .poll => c.failed = false ∧ wsLcActive c = true ∧ c.frag = .none ∧
      ∃ r ∈ frameReady 64 c, maskOk c r.1 = true ∧
        (r.1.opcode = .text ∨ r.1.opcode = .bin) ∧ r.1.fin = false ∧ r.1.payloadLen = 0
  | _ => False

instance (c : WsConn) : (call : Call) → Decidable (StartsEmpty c call)
  | .poll => inferInstanceAs (Decidable (_ ∧ _))
  | .open | .recv _ | .sendMessage .. | .sendPong .. | .sendClose .. => .isFalse id

section Poll

variable {c : WsConn} {f : Frame} {t : List UInt8}

/-- The frame that starts a message so, in the terms of the receiver. -/
theorem startsEmpty_iff (hcap : c.msgBuf.length < 2 ^ 64) (hv : View c c.msg (f.wire ++ t))
    (hf : c.failed = false) : StartsEmpty c .poll ↔
      (∃ type, (c.receiver c.msg).verdict c.role f = .extend type) ∧ c.frag = .none ∧
        f.payload = [] := by
  have hready := hv.frameReady_wire hcap
  have hempty : f.h.payloadLen = 0 ↔ f.payload = [] := by
    rw [← List.length_eq_zero_iff, f.payload_length, ← UInt64.toNat_inj]
    rfl
  have hmask : maskOk c f.h = true ↔ (c.role = .server → f.h.masked = true) := by
    cases hr : c.role with
    | server => simp [maskOk, hr]
    | client => simp [maskOk, hr]
  have hcl := f.classified
  constructor
  · rintro ⟨-, hact, hfrag, r, hr, hm, hop, hfin, hlen⟩
    rw [hready, Option.mem_some_iff] at hr
    subst hr
    have hadm : (c.receiver c.msg).Admits c.role f :=
      ⟨hf, (wsLcActive_iff c c.msg).mp hact, hmask.mp hm⟩
    refine ⟨?_, hfrag, hempty.mp hlen⟩
    rcases hop with hop | hop
    · have hk : f.kind = .text := by rw [Frame.kind, hop]; rfl
      exact ⟨_, Receiver.verdict_extend_iff.mpr ⟨hadm, .text hk hfrag, hfin⟩⟩
    · have hk : f.kind = .bin := by rw [Frame.kind, hop]; rfl
      exact ⟨_, Receiver.verdict_extend_iff.mpr ⟨hadm, .bin hk hfrag, hfin⟩⟩
  · rintro ⟨⟨type, hv⟩, hfrag, hlen⟩
    obtain ⟨⟨-, hact, hm⟩, hj, hfin⟩ := Receiver.verdict_extend_iff.mp hv
    refine ⟨hf, (wsLcActive_iff c c.msg).mpr hact, hfrag, _, hready, hmask.mpr hm, ?_, hfin,
      hempty.mpr hlen⟩
    cases hj with
    | cont hk hne => exact absurd hfrag hne
    | text hk =>
        rw [hk] at hcl
        exact .inl hcl.1
    | bin hk =>
        rw [hk] at hcl
        exact .inr hcl.1

/-- A message that is extended has a type. -/
theorem extend_type {role : WsRole} {r : Receiver} {type : WsFrag}
    (h : r.verdict role f = .extend type) : type ≠ .none := by
  obtain ⟨-, hj, -⟩ := Receiver.verdict_extend_iff.mp h
  cases hj with
  | cont _ hne => exact hne
  | text | bin => simp

/-- **One poll** of a sound connection at its boundary. -/
theorem poll_atBoundary_iff (hs : Sound c) (hb : AtBoundary c) :
    AtBoundary (wsConnPoll 64 c).conn ↔ ¬ StartsEmpty c .poll := by
  cases hf : c.failed with
  | true =>
      rw [poll_failed hf]
      exact ⟨fun _ h => by simp [h.1] at hf, fun _ => hb⟩
  | false =>
      rcases hs.poll_cases hf with ⟨hno, hp⟩ | ⟨f, t, hv, ho⟩
      · have hready := (View.ofFits hs.fits).frameReady_none hno
        rw [hp]
        refine ⟨fun _ ⟨_, _, _, r, hr, _⟩ => ?_, fun _ => hb⟩
        rw [hready] at hr
        cases hr
      · rw [startsEmpty_iff hs.cap_lt hv hf]
        have hmsg := hv.msgLen
        have htype : ∀ type, (c.receiver c.msg).verdict c.role f = .extend type → type ≠ .none :=
          fun _ => extend_type
        generalize wsConnPoll 64 c = p at ho
        generalize (c.receiver c.msg).verdict c.role f = v at ho htype
        cases ho with
        | refuse | close | deliver => simp [AtBoundary]
        | ping | pong => simpa [AtBoundary, ← hmsg] using hb
        | @extend b slack type rcs =>
            -- a message in flight had bytes before the fragment, or gets them from it
            have hne := htype type rfl
            have hsum : (c.msg ++ f.payload).length = 0 ↔ c.frag = .none ∧ f.payload = [] := by
              rw [List.length_append, ← hmsg, Nat.add_eq_zero_iff, List.length_eq_zero_iff]
              exact and_congr hb.symm Iff.rfl
            have hafter : AtBoundary { c with
                frag := type, msgBuf := b, msgLen := (c.msg ++ f.payload).length
                rxLen := t.length } ↔ ¬ (c.msg ++ f.payload).length = 0 := by
              constructor
              · intro h hzero
                exact hne (h.mpr hzero)
              · intro h
                exact ⟨fun h' => absurd h' hne, fun h' => absurd h' h⟩
            rw [hafter, hsum]
            simp

end Poll

/-- **One call** of a sound connection at its boundary. -/
theorem exec_atBoundary_iff {c : WsConn} {call : Call} (hs : Sound c) (hb : AtBoundary c) :
    AtBoundary (exec 64 c call) ↔ ¬ StartsEmpty c call := by
  by_cases hcall : call = .poll
  · subst hcall
    exact poll_atBoundary_iff hs hb
  · have hstart : ¬ StartsEmpty c call := by
      cases call with
      | poll => exact absurd rfl hcall
      | «open» | recv | sendMessage | sendPong | sendClose => exact id
    have hq := exec_quiet 64 c call hcall
    generalize exec 64 c call = d at hq
    cases hq with
    | same | handshake | sendClose | recv => exact ⟨fun _ => hstart, fun _ => hb⟩

/-- **The message boundary is sound** in every state of a run exactly when no poll of the run
starts a message with an empty fragment that is not final. -/
theorem boundary_iff (role : WsRole) (buf : MsgBuf 64) (calls : List Call)
    (hg : Guarded (exec 64) (NoWrap 64) (wsConnInit role buf.bytes) calls) :
    (∀ done rest, calls = done ++ rest →
      let c := run (exec 64) (wsConnInit role buf.bytes) done
      (c.frag = .none ↔ c.msgLen = 0)) ↔
    Guarded (exec 64) (fun c call => ¬ StartsEmpty c call) (wsConnInit role buf.bytes) calls :=
  always_iff_guarded (I := Sound) (P := AtBoundary) (fun _ _ hs hg => hs.exec hg)
    (fun _ _ hs _ hb => exec_atBoundary_iff hs hb) hg (.init role buf)
    ⟨fun _ => rfl, fun _ => rfl⟩

/-- An empty first fragment leaves a message in flight that has no bytes. -/
theorem empty_fragment_in_flight :
    let c := run (exec 64) (wsConnInit .server (zeroBuf 16 (by decide)).bytes)
      [.open, .recv [0x01, 0x80, 1, 2, 3, 4], .poll]
    c.frag = .text ∧ c.msgLen = 0 := by
  decide +kernel

/-- A message of two fragments. -/
theorem boundary_iff_fragments :
    let calls : List Call := [.open, .recv [0x01, 0x81, 1, 2, 3, 4, 0x49], .poll,
      .recv [0x80, 0x80, 1, 2, 3, 4], .poll]
    let c₀ := wsConnInit .server (zeroBuf 16 (by decide)).bytes
    ∀ done rest, calls = done ++ rest →
      ((run (exec 64) c₀ done).frag = .none ↔ (run (exec 64) c₀ done).msgLen = 0) := by
  intro calls c₀
  exact (boundary_iff .server (zeroBuf 16 (by decide)) calls (by decide +kernel)).mpr
    (by decide +kernel)

end Libws
