import Libws.Session.Closing
import Libws.Session.Receiving

/-!
# Session — what arrives

A frame at the head of the raw region, in any connection a run reaches, however it was received.
The raw region is the `rx_len` bytes at `raw(c)`; nothing else is asked of the run.

* `run_outcome`: the poll is the outcome of the receiver's verdict.
* `mask_enforced_iff`: a frame with the wrong mask bit is refused by a server, and by a client only
  if it breaks another rule.
* `close_discards_iff`: a close leaves nothing in the raw region only if nothing stood behind it.
-/

namespace Libws
open Libws.Support

/-! ### The raw region of a run -/

/-- No call takes the message out of the buffer. -/
theorem exec_msgLen_le (w : Nat) {c : WsConn} (call : Call) (h : c.msgLen ≤ c.msgCap) :
    (exec w c call).msgLen ≤ (exec w c call).msgCap := by
  refine exec_shape (P := fun d => d.msgLen ≤ d.msgCap) w c call h ?_ ?_
  · intro p _ hs
    cases hs with
    | refuse | close | deliver => exact Nat.zero_le _
    | control hb => exact h.trans_eq hb.symm
    | extend hb _ _ hm => exact hm.trans_eq hb.symm
  · intro d hq
    cases hq with
    | same | handshake | sendClose => exact h
    | recv hb => exact h.trans_eq hb.symm

theorem run_msgLen_le (w : Nat) (role : WsRole) (buf : List UInt8) (calls : List Call) :
    let c := run (exec w) (wsConnInit role buf) calls
    c.msgLen ≤ c.msgCap :=
  run_inv_all (P := fun c : WsConn => c.msgLen ≤ c.msgCap)
    (fun _ call h => exec_msgLen_le w call h) calls (Nat.zero_le _)

/-- A raw region that lies in the buffer gives a view. -/
theorem View.ofRaw {c : WsConn} {rx : List UInt8} (hmsg : c.msgLen ≤ c.msgCap)
    (hlen : c.rxLen = rx.length) (hraw : rawBytes c = rx) : View c c.msg rx := by
  have hsize : rx.length = min c.rxLen (c.msgBuf.length - c.msgLen) := by
    rw [← hraw, rawBytes, slice, List.length_take, List.length_drop, raw]
  rw [WsConn.msgCap] at hmsg
  have hv := View.ofFits (c := c) (by rw [WsConn.msgCap]; omega)
  rwa [hraw] at hv

section Run

variable {role : WsRole} {buf : MsgBuf 64} {calls : List Call} {c : WsConn} {f : Frame}
  {t : List UInt8}

/-- **A frame at the head of the raw region** of any run: the poll is the outcome of the receiver's
verdict on it. -/
theorem run_outcome (hc : run (exec 64) (wsConnInit role buf.bytes) calls = c)
    (hf : c.failed = false) (hlen : c.rxLen = (f.wire ++ t).length)
    (hraw : rawBytes c = f.wire ++ t) :
    Outcome c c.msg f t ((c.receiver c.msg).verdict role f) (wsConnPoll 64 c) := by
  subst hc
  have hcap := (run_msgCap 64 (wsConnInit role buf.bytes) calls).trans_lt buf.cap_lt
  have hrole : _ = role := run_role 64 (wsConnInit role buf.bytes) calls
  have hcode := run_closeCode 64 role buf.bytes calls
  have hv := View.ofRaw (run_msgLen_le 64 role buf.bytes calls) hlen hraw
  have ho := poll_outcome hv hcap hf fun hact => hcode fun hcl => by
    simp [wsLcActive, hcl] at hact
  rwa [hrole] at ho

end Run

/-! ### The mask bit -/

/-- The mask bit is wrong for the endpoint that receives the frame (RFC 6455 §5.1). -/
def WrongMask (role : WsRole) (h : WsFrameHeader) : Prop :=
  role = .server ∧ h.masked = false ∨ role = .client ∧ h.masked = true

instance (role : WsRole) (h : WsFrameHeader) : Decidable (WrongMask role h) :=
  inferInstanceAs (Decidable (_ ∨ _))

/-- The rules a frame can break, the mask bit apart. -/
inductive Breaks (r : Receiver) (f : Frame) : Prop where
  | reserved : f.kind = .reserved → Breaks r f
  | body : f.kind = .close → closeBody f.payload = none → Breaks r f
  | stray : f.kind = .cont → r.frag = .none → Breaks r f
  | interleaved : f.kind = .text ∨ f.kind = .bin → r.frag ≠ .none → Breaks r f
  | utf8 : f.kind = .text ∨ f.kind = .cont ∧ r.frag = .text → f.h.fin = true →
      ¬ IsUtf8 (r.msg ++ f.payload) → Breaks r f

theorem assemble_refuse_iff {r : Receiver} {f : Frame} {type : WsFrag} :
    r.assemble f type = .refuse ↔
      type = .text ∧ f.h.fin = true ∧ ¬ IsUtf8 (r.msg ++ f.payload) := by
  rw [Receiver.assemble]
  by_cases hfin : f.h.fin = false
  · simp [hfin]
  · rw [if_neg hfin]
    by_cases hbad : type = .text ∧ ¬ IsUtf8 (r.msg ++ f.payload)
    · simp [hbad, hfin]
    · simp only [if_neg hbad, reduceCtorEq, false_iff]
      exact fun h => hbad ⟨h.1, h.2.2⟩

/-- **A frame that is processed is refused** exactly when it breaks a rule. -/
theorem verdict_refuse_iff {role : WsRole} {r : Receiver} {f : Frame} (h : r.Admits role f) :
    r.verdict role f = .refuse ↔ Breaks r f := by
  rw [Receiver.verdict_of_admits h]
  constructor
  · intro hv
    cases hk : f.kind with
    | reserved => exact .reserved hk
    | ping | pong => simp [hk] at hv
    | close =>
        cases hb : closeBody f.payload with
        | none => exact .body hk hb
        | some code => simp [hk, hb] at hv
    | cont =>
        by_cases hf : r.frag = .none
        · exact .stray hk hf
        · simp only [hk, if_neg hf] at hv
          obtain ⟨ht, hfin, hu⟩ := assemble_refuse_iff.mp hv
          exact .utf8 (.inr ⟨hk, ht⟩) hfin hu
    | text =>
        by_cases hf : r.frag = .none
        · simp only [hk, if_pos hf] at hv
          obtain ⟨-, hfin, hu⟩ := assemble_refuse_iff.mp hv
          exact .utf8 (.inl hk) hfin hu
        · exact .interleaved (.inl hk) hf
    | bin =>
        by_cases hf : r.frag = .none
        · simp only [hk, if_pos hf] at hv
          cases (assemble_refuse_iff.mp hv).1
        · exact .interleaved (.inr hk) hf
  · intro hb
    cases hb with
    | reserved hk => simp only [hk]
    | body hk hb => simp only [hk, hb]
    | stray hk hf => simp only [hk, if_pos hf]
    | interleaved hk hf => rcases hk with hk | hk <;> simp only [hk, if_neg hf]
    | utf8 hk hfin hu =>
        rcases hk with hk | ⟨hk, ht⟩
        · simp only [hk, assemble_refuse_iff.mpr ⟨rfl, hfin, hu⟩, ite_self]
        · simp only [hk, ht, assemble_refuse_iff.mpr ⟨rfl, hfin, hu⟩, ite_self]

/-- An error is reported for a frame that is refused, and for no other. -/
theorem Outcome.error_iff {c : WsConn} {msg t : List UInt8} {f : Frame} {v : Verdict} {p : Poll}
    (ho : Outcome c msg f t v p) : p.ret = .error ↔ v = .refuse := by
  cases ho with
  | refuse => simp
  | ping | pong | close | extend | deliver => simp

/-- **The mask bit is enforced** by a server, and by a client on no frame that does not break
another rule: `mask_ok` lets a client take masked frames. -/
theorem mask_enforced_iff (role : WsRole) (buf : MsgBuf 64) (calls : List Call) (f : Frame)
    (t : List UInt8) :
    let c := run (exec 64) (wsConnInit role buf.bytes) calls
    let p := wsConnPoll 64 c
    wsLcActive c = true → c.failed = false → c.rxLen = (f.wire ++ t).length →
    rawBytes c = f.wire ++ t → WrongMask role f.h →
    (p.ret = .error ∧ p.conn.failed = true ↔
      role = .server ∨ Breaks (c.receiver c.msg) f) := by
  intro c p hact hf hlen hraw hwrong
  have ho := run_outcome rfl hf hlen hraw
  have hret : p.ret = .error ∧ p.conn.failed = true ↔
      (c.receiver c.msg).verdict role f = .refuse := by
    rw [← poll_error_iff 64 c, and_self]
    exact ho.error_iff
  rw [hret]
  rcases hwrong with ⟨hrole, hbare⟩ | ⟨hrole, -⟩
  · have hrefuse : (c.receiver c.msg).verdict role f = .refuse := by
      by_contra hne
      have hmasked := (Receiver.verdict_admits hne).2.2 hrole
      rw [hbare] at hmasked
      cases hmasked
    exact ⟨fun _ => .inl hrole, fun _ => hrefuse⟩
  · have hadm : (c.receiver c.msg).Admits role f := by
      refine ⟨hf, (wsLcActive_iff c c.msg).mp hact, fun hserver => ?_⟩
      rw [hrole] at hserver
      cases hserver
    rw [verdict_refuse_iff hadm, hrole]
    simp

/-- A masked text message of two bytes. -/
def maskedText : Frame where
  hdr := [0x81, 0x82, 9, 10, 11, 12]
  h := ⟨.text, 2, #v[9, 10, 11, 12], true, true, 0⟩
  body := [0x41, 0x63]
  parsed := by decide +kernel
  body_len := rfl

/-- A client delivers a masked message. -/
theorem client_takes_masked :
    let c := run (exec 64) (wsConnInit .client (zeroBuf 16 (by decide)).bytes)
      [.open, .recv maskedText.wire]
    c.state = .open ∧ c.failed = false ∧ c.rxLen = maskedText.wire.length ∧
      rawBytes c = maskedText.wire ∧ WrongMask .client maskedText.h ∧
      (wsConnPoll 64 c).ret = .message ∧ (wsConnPoll 64 c).conn.failed = false := by
  decide +kernel

/-- An unmasked ping. -/
def barePing : Frame where
  hdr := [0x89, 0x00]
  h := ⟨.ping, 0, #v[0, 0, 0, 0], true, false, 0⟩
  body := []
  parsed := by decide +kernel
  body_len := rfl

theorem mask_enforced_iff_ping :
    let calls : List Call := [.open, .recv (barePing.wire ++ [0x89])]
    let c := run (exec 64) (wsConnInit .server (zeroBuf 16 (by decide)).bytes) calls
    (wsConnPoll 64 c).ret = .error ∧ (wsConnPoll 64 c).conn.failed = true := by
  intro calls c
  have hiff := mask_enforced_iff .server (zeroBuf 16 (by decide)) calls barePing [0x89]
    (by decide +kernel) (by decide +kernel) (by decide +kernel) (by decide +kernel)
    (.inl ⟨rfl, rfl⟩)
  exact hiff.mpr (.inl rfl)

/-! ### What stands behind a close -/

section Silence

variable {c : WsConn}

theorem frameReady_empty (w : Nat) (h : c.rxLen = 0) : frameReady w c = .none := by
  have hraw : rawBytes c = [] := by simp [rawBytes, slice, h]
  rw [frameReady, hraw]
  rfl

/-- With nothing in the raw region, only a receive changes that. -/
theorem exec_empty (w : Nat) {call : Call} (hrecv : ∀ bytes, call ≠ .recv bytes)
    (h : c.rxLen = 0 ∧ c.failed = false) :
    (exec w c call).rxLen = 0 ∧ (exec w c call).failed = false := by
  by_cases hpoll : call = .poll
  · subst hpoll
    rw [exec, wsConnPoll, if_neg (by simp [h.2]), frameReady_empty w h.1]
    exact h
  · obtain ⟨state, sent, heq⟩ := exec_lifecycle w c hpoll hrecv
    rw [heq]
    exact h

/-- With nothing in the raw region the polls report nothing until the next receive. -/
theorem poll_none_of_empty (w : Nat) (h : c.rxLen = 0) (hf : c.failed = false) {more : List Call}
    (hmore : ∀ call ∈ more, ∀ bytes, call ≠ .recv bytes) :
    (wsConnPoll w (run (exec w) c more)).ret = .none := by
  have hrun : (run (exec w) c more).rxLen = 0 ∧ (run (exec w) c more).failed = false := by
    induction more generalizing c with
    | nil => exact ⟨h, hf⟩
    | cons call more ih =>
        obtain ⟨hrx, hfail⟩ := exec_empty w (hmore call (.head _)) ⟨h, hf⟩
        exact ih hrx hfail fun call' hmem => hmore call' (.tail _ hmem)
  rw [wsConnPoll, if_neg (by simp [hrun.2]), frameReady_empty w hrun.1]

end Silence

/-- **A close discards what stands behind it** only if nothing does.  The poll that reports it
leaves the connection closed and no message in flight; the raw region is empty after it, and the
polls stay silent until more is received, exactly when the raw region ended with the close. -/
theorem close_discards_iff (role : WsRole) (buf : MsgBuf 64) (calls : List Call) (f : Frame)
    (t : List UInt8) :
    let c := run (exec 64) (wsConnInit role buf.bytes) calls
    let p := wsConnPoll 64 c
    wsLcActive c = true → c.failed = false → c.rxLen = (f.wire ++ t).length →
    rawBytes c = f.wire ++ t → f.h.opcode = .close → maskOk c f.h = true →
    (closeBody f.payload).isSome →
    p.ret = .close ∧ p.conn.state = .closed ∧ p.conn.frag = .none ∧ p.conn.msgLen = 0 ∧
    (p.conn.rxLen = 0 ∧ (∀ more : List Call, (∀ call ∈ more, ∀ bytes, call ≠ .recv bytes) →
      (wsConnPoll 64 (run (exec 64) p.conn more)).ret = .none) ↔ t = []) := by
  intro c p hact hf hlen hraw hop hmask hbody
  obtain ⟨code, hcode⟩ := Option.isSome_iff_exists.mp hbody
  have hrole : c.role = role := run_role 64 (wsConnInit role buf.bytes) calls
  have hadm : (c.receiver c.msg).Admits role f := by
    refine ⟨hf, (wsLcActive_iff c c.msg).mp hact, fun hserver => ?_⟩
    simpa [maskOk, hrole, hserver] using hmask
  have hkind : f.kind = .close := by rw [Frame.kind, hop]; rfl
  have ho : Outcome c c.msg f t ((c.receiver c.msg).verdict role f) p :=
    run_outcome rfl hf hlen hraw
  rw [Receiver.verdict_of_admits hadm] at ho
  simp only [hkind, hcode] at ho
  generalize p = q at ho
  cases ho with
  | close hb =>
      refine ⟨rfl, rfl, rfl, rfl, ?_⟩
      constructor
      · intro h
        exact List.eq_nil_of_length_eq_zero h.1
      · rintro rfl
        refine ⟨rfl, fun more hmore => ?_⟩
        refine poll_none_of_empty 64 ?_ ?_ hmore
        · rfl
        · exact hf

/-- A ping behind a close stays in the raw region, and the next poll fails the connection. -/
theorem close_leaves_ping :
    let c := run (exec 64) (wsConnInit .server (zeroBuf 16 (by decide)).bytes)
      [.open, .recv (closeNormal.wire ++ [0x89, 0x80, 1, 2, 3, 4])]
    let p := wsConnPoll 64 c
    c.state = .open ∧ c.failed = false ∧
      rawBytes c = closeNormal.wire ++ [0x89, 0x80, 1, 2, 3, 4] ∧
      p.ret = .close ∧ p.conn.rxLen = 6 ∧ (wsConnPoll 64 p.conn).ret = .error := by
  decide +kernel

theorem close_discards_iff_normal :
    let calls : List Call := [.open, .recv closeNormal.wire]
    let c := run (exec 64) (wsConnInit .server (zeroBuf 16 (by decide)).bytes) calls
    let p := wsConnPoll 64 c
    p.ret = .close ∧ p.conn.rxLen = 0 ∧ (wsConnPoll 64 (exec 64 p.conn .poll)).ret = .none := by
  intro calls c p
  obtain ⟨hret, -, -, -, hiff⟩ := close_discards_iff .server (zeroBuf 16 (by decide)) calls
    closeNormal [] (by decide +kernel) (by decide +kernel) (by decide +kernel) (by decide +kernel)
    (by decide) (by decide +kernel) (by decide +kernel)
  obtain ⟨hrx, hnone⟩ := hiff.mpr rfl
  exact ⟨hret, hrx, hnone [.poll] (by simp)⟩

end Libws
