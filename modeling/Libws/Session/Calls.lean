import Libws.Support.Runs
import Libws.Session.Poll

/-!
# Session — calls and runs

A `Call` is a call of the driver with what the caller passes, and `exec` the connection after it.
A run is a list of calls from `ws_conn_init`.  `NoWrap` asks of each `ws_conn_recv` that the sum
it tests does not wrap around; nothing else is asked of the caller.

* `exec_shape`: what a call can do to the connection.
* `Sound`: the counters stay inside the buffer, no message is held at a message boundary or after
  a failure, and no close code is set before the connection is closed.  `sound_run` carries it
  along every run.
* `Sound.poll_cases`: what a poll does in a sound connection.
* `accounting`: the counters and the latches.
* `events_wellFormed`: what the application may rely on in an event, for every run at all.
-/

namespace Libws
open Libws.Support

/-! ### Calls -/

/-- A call of the driver.  `key` is what `ws_client_mask_key` holds at the call. -/
inductive Call where
  | open
  | recv (bytes : List UInt8)
  | poll
  | sendMessage (key : MaskKey) (op : WsOpcode) (payload out : List UInt8)
  | sendPong (key : MaskKey) (payload out : List UInt8)
  | sendClose (key : MaskKey) (code : UInt16) (out : List UInt8)
  deriving DecidableEq, Repr

/-- The connection after a call; the message and pong builders only read it. -/
def exec (w : Nat) (c : WsConn) : Call → WsConn
  | .open => wsConnOpen c
  | .recv bytes => (wsConnRecv w c bytes).2
  | .poll => (wsConnPoll w c).conn
  | .sendMessage .. => c
  | .sendPong .. => c
  | .sendClose key code out => (wsSendClose w c key code out).2.1

/-- The sum `ws_conn_recv` tests does not wrap around. -/
def NoWrap (w : Nat) (c : WsConn) : Call → Prop
  | .recv bytes => c.msgLen + c.rxLen + bytes.length < 2 ^ w
  | _ => True

instance (w : Nat) (c : WsConn) : (call : Call) → Decidable (NoWrap w c call)
  | .recv bytes => inferInstanceAs (Decidable (c.msgLen + c.rxLen + bytes.length < 2 ^ w))
  | .open | .poll | .sendMessage .. | .sendPong .. | .sendClose .. => .isTrue trivial

/-- What a call returns, when it is a poll. -/
def polled (w : Nat) (c : WsConn) : Call → List WsEventType
  | .poll => [(wsConnPoll w c).ret]
  | _ => []

/-- What a call other than a poll can do. -/
inductive Quiet (w : Nat) (c : WsConn) : Call → WsConn → Prop where
  | same {call : Call} : Quiet w c call c
  | handshake : c.state = .connecting → Quiet w c .open { c with state := .open }
  | sendClose {key : MaskKey} {code : UInt16} {out : List UInt8} : c.state = .open →
      Quiet w c (.sendClose key code out) { c with sentClose := true, state := .closing }
  | recv {bytes b : List UInt8} : b.length = c.msgBuf.length →
      szAdd w (szAdd w c.msgLen c.rxLen) bytes.length ≤ c.msgCap →
      Quiet w c (.recv bytes) { c with msgBuf := b, rxLen := szAdd w c.rxLen bytes.length }

theorem exec_quiet (w : Nat) (c : WsConn) (call : Call) (h : call ≠ .poll) :
    Quiet w c call (exec w c call) := by
  cases call with
  | poll => exact absurd rfl h
  | sendMessage | sendPong => exact .same
  | «open» =>
      rw [exec, wsConnOpen, wsLcHandshake]
      split
      · exact .same
      · rename_i hs
        exact .handshake (not_not.mp hs)
  | recv bytes =>
      rw [exec, wsConnRecv]
      split
      · exact .same
      · rename_i hle
        exact .recv (wsMemcpy_length ..) (Nat.le_of_not_lt hle)
  | sendClose key code out =>
      rw [exec, wsSendClose]
      split
      · exact .same
      · rename_i hs
        rw [not_not] at hs
        simp only
        split
        · rw [wsLcSendClose, if_neg (not_not.mpr hs)]
          exact .sendClose hs
        · exact .same

/-- **Every call** does nothing, is a poll that has a `Shape`, or is `Quiet`. -/
theorem exec_shape {P : WsConn → Prop} (w : Nat) (c : WsConn) (call : Call) (same : P c)
    (frame : ∀ p, c.failed = false → Shape c p → P p.conn)
    (quiet : ∀ d, Quiet w c call d → P d) : P (exec w c call) := by
  by_cases hcall : call = .poll
  · subst hcall
    exact poll_shape (P := fun p => P p.conn) w c (fun _ => same) (fun _ => same) frame
  · exact quiet _ (exec_quiet w c call hcall)

/-- The calls that neither poll nor receive leave the buffer and the message alone. -/
theorem exec_lifecycle (w : Nat) (c : WsConn) {call : Call} (hpoll : call ≠ .poll)
    (hrecv : ∀ bytes, call ≠ .recv bytes) :
    ∃ state sent, exec w c call = { c with state := state, sentClose := sent } := by
  have hq := exec_quiet w c call hpoll
  generalize exec w c call = d at hq
  cases hq with
  | same => exact ⟨c.state, c.sentClose, rfl⟩
  | handshake => exact ⟨.open, c.sentClose, rfl⟩
  | sendClose => exact ⟨.closing, true, rfl⟩
  | @recv bytes => exact absurd rfl (hrecv bytes)

/-! ### Latches -/

section Latches

variable {w : Nat} {c : WsConn}

/-- A poll reports an error exactly when the connection has failed after it. -/
theorem poll_error_iff (w : Nat) (c : WsConn) :
    (wsConnPoll w c).ret = .error ↔ (wsConnPoll w c).conn.failed = true := by
  refine poll_shape (P := fun p => p.ret = .error ↔ p.conn.failed = true) w c ?_ ?_ ?_
  · intro hf; simp [hf]
  · intro hf; simp [hf]
  · intro p hf hs
    cases hs with
    | refuse => simp
    | control _ _ ht _ => rcases ht with rfl | rfl <;> simp [hf]
    | close | extend | deliver => simp [hf]

theorem poll_message (w : Nat) (c : WsConn) : (wsConnPoll w c).ret = .message →
    (wsConnPoll w c).conn.frag = .none ∧ (wsConnPoll w c).conn.msgLen = 0 := by
  refine poll_shape (P := fun p => p.ret = .message → p.conn.frag = .none ∧ p.conn.msgLen = 0)
    w c (fun _ => by simp) (fun _ => by simp) ?_
  intro p _ hs h
  cases hs with
  | deliver => exact ⟨rfl, rfl⟩
  | control _ _ ht _ => rcases ht with rfl | rfl <;> cases h
  | refuse | close | extend => cases h

theorem poll_close_state (w : Nat) (c : WsConn) : (wsConnPoll w c).ret = .close →
    (wsConnPoll w c).conn.state = .closed := by
  refine poll_shape (P := fun p => p.ret = .close → p.conn.state = .closed)
    w c (fun _ => by simp) (fun _ => by simp) ?_
  intro p _ hs h
  cases hs with
  | close => rfl
  | control _ _ ht _ => rcases ht with rfl | rfl <;> cases h
  | refuse | extend | deliver => cases h

/-- The events of the peer are reported only while frames are processed. -/
theorem poll_active (w : Nat) (c : WsConn) :
    (wsConnPoll w c).ret = .none ∨ (wsConnPoll w c).ret = .error ∨ wsLcActive c = true := by
  refine poll_shape (P := fun p => p.ret = .none ∨ p.ret = .error ∨ wsLcActive c = true)
    w c (fun _ => by simp) (fun _ => by simp) ?_
  intro p _ hs
  cases hs with
  | refuse => simp
  | control _ hact | close _ hact | extend _ hact | deliver _ hact => simp [hact]

/-- Neither a failure nor a closed state is ever left. -/
theorem exec_latched (w : Nat) (c : WsConn) (call : Call) :
    (c.failed = true → (exec w c call).failed = true) ∧
      (c.state = .closed → (exec w c call).state = .closed) := by
  refine exec_shape (P := fun d => (c.failed = true → d.failed = true) ∧
    (c.state = .closed → d.state = .closed)) w c call ⟨id, id⟩ ?_ ?_
  · intro p _ hs
    cases hs with
    | refuse => exact ⟨fun _ => rfl, id⟩
    | close => exact ⟨id, fun _ => rfl⟩
    | control | extend | deliver => exact ⟨id, id⟩
  · intro d hq
    cases hq with
    | same | recv => exact ⟨id, id⟩
    | handshake hc => exact ⟨id, fun hs => by simp [hs] at hc⟩
    | sendClose hc => exact ⟨id, fun hs => by simp [hs] at hc⟩

theorem run_failed (w : Nat) {c : WsConn} (calls : List Call) (h : c.failed = true) :
    (run (exec w) c calls).failed = true :=
  run_inv_all (P := fun c => c.failed = true) (fun c call => (exec_latched w c call).1) calls h

theorem run_closed (w : Nat) {c : WsConn} (calls : List Call) (h : c.state = .closed) :
    (run (exec w) c calls).state = .closed :=
  run_inv_all (P := fun c => c.state = .closed) (fun c call => (exec_latched w c call).2) calls h

/-- A closed connection reports nothing more of the peer. -/
theorem poll_closed (w : Nat) {c : WsConn} (h : c.state = .closed) :
    (wsConnPoll w c).ret = .none ∨ (wsConnPoll w c).ret = .error := by
  rcases poll_active w c with hr | hr | hact
  · exact .inl hr
  · exact .inr hr
  · simp [wsLcActive, h] at hact

theorem polled_eq_nil {call : Call} (h : call ≠ .poll) : polled w c call = [] := by
  cases call with
  | poll => exact absurd rfl h
  | «open» | recv | sendMessage | sendPong | sendClose => rfl

/-- At most one close among the events shown, and then the connection is closed. -/
def CloseShown (c : WsConn) (shown : List WsEventType) : Prop :=
  shown.count .close ≤ 1 ∧ (shown.count .close = 1 → c.state = .closed)

/-- **At most one close is reported in a run.** -/
theorem count_close_le (w : Nat) (c : WsConn) (calls : List Call) :
    (trace (exec w) (polled w) c calls).count .close ≤ 1 := by
  have step : ∀ c call shown, CloseShown c shown → True →
      CloseShown (exec w c call) (shown ++ polled w c call) := by
    rintro c call shown ⟨hle, hclosed⟩ -
    have hstay := (exec_latched w c call).2
    by_cases hcall : call = .poll
    · subst hcall
      rw [CloseShown, List.count_append, polled]
      by_cases hclose : (wsConnPoll w c).ret = .close
      · have hzero : shown.count .close = 0 := by
          by_contra hne
          have hs := hclosed (by omega)
          rcases poll_closed w hs with h | h <;> rw [h] at hclose <;> cases hclose
        rw [hclose, hzero]
        exact ⟨by simp, fun _ => poll_close_state w c hclose⟩
      · have hzero : [(wsConnPoll w c).ret].count .close = 0 := by simp [hclose]
        rw [hzero]
        exact ⟨hle, fun h => hstay (hclosed h)⟩
    · rw [polled_eq_nil hcall, List.append_nil]
      exact ⟨hle, fun h => hstay (hclosed h)⟩
  have h₀ : CloseShown c [] := ⟨by simp, by simp⟩
  exact (run_trace_inv step (guarded_of_forall (fun _ _ => trivial) c calls) h₀).1

end Latches

/-! ### Sound connections -/

theorem exec_role (w : Nat) (c : WsConn) (call : Call) : (exec w c call).role = c.role := by
  refine exec_shape (P := fun d => d.role = c.role) w c call rfl ?_ ?_
  · intro p _ hs
    cases hs with
    | refuse | control | close | extend | deliver => rfl
  · intro d hq
    cases hq with
    | same | handshake | sendClose | recv => rfl

theorem run_role (w : Nat) (c : WsConn) (calls : List Call) :
    (run (exec w) c calls).role = c.role :=
  run_inv_all (P := fun d : WsConn => d.role = c.role)
    (fun d call h => (exec_role w d call).trans h) calls rfl

/-- No close code is set before the connection is closed. -/
theorem exec_closeCode (w : Nat) {c : WsConn} (call : Call)
    (h : c.state ≠ .closed → c.closeCode = 0) :
    (exec w c call).state ≠ .closed → (exec w c call).closeCode = 0 := by
  refine exec_shape (P := fun d => d.state ≠ .closed → d.closeCode = 0) w c call h ?_ ?_
  · intro p _ hs
    cases hs with
    | close => exact fun hne => absurd rfl hne
    | refuse | control | extend | deliver => exact h
  · intro d hq
    cases hq with
    | same | recv => exact h
    | handshake hc => exact fun _ => h (by simp [hc])
    | sendClose hc => exact fun _ => h (by simp [hc])

theorem run_closeCode (w : Nat) (role : WsRole) (buf : List UInt8) (calls : List Call) :
    let c := run (exec w) (wsConnInit role buf) calls
    c.state ≠ .closed → c.closeCode = 0 :=
  run_inv_all (P := fun c : WsConn => c.state ≠ .closed → c.closeCode = 0)
    (fun _ call h => exec_closeCode w call h) calls fun _ => rfl

/-- What every run keeps, with a 64-bit `size_t`. -/
structure Sound (c : WsConn) : Prop where
  cap_lt : c.msgBuf.length < 2 ^ 64
  fits : c.msgLen + c.rxLen ≤ c.msgCap
  failed_frag : c.failed = true → c.frag = .none
  boundary : c.frag = .none → c.msgLen = 0
  closeCode : c.state ≠ .closed → c.closeCode = 0

namespace Sound

variable {c : WsConn}

theorem init (role : WsRole) (buf : MsgBuf 64) : Sound (wsConnInit role buf.bytes) where
  cap_lt := buf.cap_lt
  fits := Nat.zero_le _
  failed_frag := fun _ => rfl
  boundary := fun _ => rfl
  closeCode := fun _ => rfl

/-- A failed connection holds no message. -/
theorem reset (hs : Sound c) (hf : c.failed = true) : c.frag = .none ∧ c.msgLen = 0 :=
  ⟨hs.failed_frag hf, hs.boundary (hs.failed_frag hf)⟩

theorem closeCode_of_active (hs : Sound c) (h : wsLcActive c = true) : c.closeCode = 0 := by
  refine hs.closeCode fun hc => ?_
  simp [wsLcActive, hc] at h

/-- A poll of a sound connection that holds a complete frame. -/
theorem poll_frame (hs : Sound c) (hf : c.failed = false) {f : Frame} {t : List UInt8}
    (hraw : rawBytes c = f.wire ++ t) : View c c.msg (f.wire ++ t) ∧
      Outcome c c.msg f t ((c.receiver c.msg).verdict c.role f) (wsConnPoll 64 c) := by
  have hv := View.ofFits hs.fits
  rw [hraw] at hv
  exact ⟨hv, poll_outcome hv hs.cap_lt hf hs.closeCode_of_active⟩

/-- **A poll of a sound connection** that has not failed finds no complete frame and does
nothing, or is the outcome of the receiver's verdict on the frame it finds. -/
theorem poll_cases (hs : Sound c) (hf : c.failed = false) :
    ¬ HoldsFrame (rawBytes c) ∧ wsConnPoll 64 c = ⟨.none, c, clearEvent, []⟩ ∨
    ∃ f t, View c c.msg (f.wire ++ t) ∧
      Outcome c c.msg f t ((c.receiver c.msg).verdict c.role f) (wsConnPoll 64 c) := by
  by_cases hc : HoldsFrame (rawBytes c)
  · obtain ⟨f, t, hraw⟩ := (holdsFrame_iff _).mp hc
    exact .inr ⟨f, t, hs.poll_frame hf hraw⟩
  · exact .inl ⟨hc, poll_idle (View.ofFits hs.fits) hc hf⟩

end Sound

/-- Every outcome leaves the counters inside the buffer. -/
theorem Outcome.fits {c : WsConn} {msg t : List UInt8} {f : Frame} {v : Verdict} {p : Poll}
    (hv : View c msg (f.wire ++ t)) (ho : Outcome c msg f t v p) :
    p.conn.msgBuf.length = c.msgBuf.length ∧
      p.conn.msgLen + p.conn.rxLen ≤ p.conn.msgCap := by
  have hle := hv.le_cap
  have hrx := hv.rxLen
  simp only [List.length_append, f.wire_length] at hle hrx
  rw [WsConn.msgCap]
  cases ho with
  | refuse hb hn =>
      refine ⟨hb, ?_⟩
      simp only [hb]
      omega
  | ping hb | pong hb =>
      simp only [List.length_append, f.payload_length] at hb
      simp only [List.length_append, List.length_drop, f.payload_length]
      omega
  | close hb =>
      refine ⟨hb, ?_⟩
      simp only [hb]
      omega
  | extend hb | deliver hb =>
      refine ⟨hb, ?_⟩
      simp only [hb, List.length_append, f.payload_length]
      omega

/-- A poll leaves no message in flight in a failed connection, and none of no type. -/
theorem poll_boundary (w : Nat) {c : WsConn} (h₁ : c.failed = true → c.frag = .none)
    (h₂ : c.frag = .none → c.msgLen = 0) :
    ((wsConnPoll w c).conn.failed = true → (wsConnPoll w c).conn.frag = .none) ∧
      ((wsConnPoll w c).conn.frag = .none → (wsConnPoll w c).conn.msgLen = 0) := by
  refine poll_shape (P := fun p => (p.conn.failed = true → p.conn.frag = .none) ∧
    (p.conn.frag = .none → p.conn.msgLen = 0)) w c (fun _ => ⟨h₁, h₂⟩) (fun _ => ⟨h₁, h₂⟩) ?_
  intro p hf hs
  cases hs with
  | refuse | close | deliver => exact ⟨fun _ => rfl, fun _ => rfl⟩
  | control => exact ⟨h₁, h₂⟩
  | extend _ _ he => exact ⟨fun h => by simp [hf] at h, fun h => absurd h he.1⟩

theorem Sound.poll {c : WsConn} (hs : Sound c) : Sound (wsConnPoll 64 c).conn := by
  have hroom : (wsConnPoll 64 c).conn.msgBuf.length = c.msgBuf.length ∧
      (wsConnPoll 64 c).conn.msgLen + (wsConnPoll 64 c).conn.rxLen
        ≤ (wsConnPoll 64 c).conn.msgCap := by
    cases hf : c.failed with
    | true => rw [poll_failed hf]; exact ⟨rfl, hs.fits⟩
    | false =>
        rcases hs.poll_cases hf with ⟨-, hp⟩ | ⟨f, t, hv, ho⟩
        · rw [hp]; exact ⟨rfl, hs.fits⟩
        · exact ho.fits hv
  obtain ⟨h₁, h₂⟩ := poll_boundary 64 hs.failed_frag hs.boundary
  exact ⟨hroom.1 ▸ hs.cap_lt, hroom.2, h₁, h₂, exec_closeCode 64 .poll hs.closeCode⟩

/-- **One call** keeps a connection sound. -/
theorem Sound.exec {c : WsConn} (hs : Sound c) {call : Call} (hg : NoWrap 64 c call) :
    Sound (exec 64 c call) := by
  by_cases hcall : call = .poll
  · subst hcall
    exact hs.poll
  · have hcode := exec_closeCode 64 call hs.closeCode
    have hq := exec_quiet 64 c call hcall
    generalize Libws.exec 64 c call = d at hq hcode
    cases hq with
    | same => exact hs
    | handshake | sendClose => exact ⟨hs.cap_lt, hs.fits, hs.failed_frag, hs.boundary, hcode⟩
    | recv hb hle =>
        have hwrap : c.msgLen + c.rxLen + _ < 2 ^ 64 := hg
        rw [szAdd_of_lt (a := c.msgLen) (b := c.rxLen) (by omega), szAdd_of_lt hwrap] at hle
        refine ⟨hb ▸ hs.cap_lt, ?_, hs.failed_frag, hs.boundary, hcode⟩
        rw [WsConn.msgCap, hb, szAdd_of_lt (by omega)]
        exact (Nat.add_assoc ..).symm.trans_le hle

/-- A chunk is rejected and nothing changes, or it fits and is appended to the unparsed bytes. -/
theorem Sound.recv_cases {c : WsConn} (hs : Sound c) {bytes : List UInt8}
    (hg : NoWrap 64 c (.recv bytes)) :
    c.msgCap < c.msgLen + c.rxLen + bytes.length ∧ Libws.exec 64 c (.recv bytes) = c ∨
    c.msgLen + c.rxLen + bytes.length ≤ c.msgCap ∧ ∃ b, b.length = c.msgBuf.length ∧
      Libws.exec 64 c (.recv bytes)
        = { c with msgBuf := b, rxLen := (rawBytes c ++ bytes).length } ∧
      View (Libws.exec 64 c (.recv bytes)) c.msg (rawBytes c ++ bytes) := by
  have hwrap : c.msgLen + c.rxLen + bytes.length < 2 ^ 64 := hg
  rcases Nat.lt_or_ge c.msgCap (c.msgLen + c.rxLen + bytes.length) with hlt | hle
  · refine .inl ⟨hlt, ?_⟩
    rw [Libws.exec, wsConnRecv, szAdd_of_lt (a := c.msgLen) (b := c.rxLen) (by omega),
      szAdd_of_lt hwrap, if_pos hlt]
  · have hv := View.ofFits hs.fits
    have hfit := hle
    rw [hv.msgLen, hv.rxLen] at hfit
    obtain ⟨b, hb, hrecv, hv'⟩ := hv.recv hs.cap_lt hfit
    rw [Libws.exec, hrecv]
    exact .inr ⟨hle, b, hb, rfl, hv'⟩

/-- **Every run is sound.** -/
theorem sound_run {role : WsRole} {buf : MsgBuf 64} {calls : List Call}
    (hg : Guarded (exec 64) (NoWrap 64) (wsConnInit role buf.bytes) calls) :
    Sound (run (exec 64) (wsConnInit role buf.bytes) calls) :=
  run_inv (fun _ _ hs hg => hs.exec hg) hg (.init role buf)

/-! ### The accounting and the events of every run -/

/-- **Fail-closed and accounting.**  In every run the counters stay inside the buffer and a failed
connection holds no message; a poll reports an error exactly when the connection has failed, and
then every later poll does; a message leaves nothing in flight; and after a close the polls report
nothing more of the peer, so that a run has at most one. -/
theorem accounting (role : WsRole) (buf : MsgBuf 64) (calls : List Call)
    (hg : Guarded (exec 64) (NoWrap 64) (wsConnInit role buf.bytes) calls) :
    let c := run (exec 64) (wsConnInit role buf.bytes) calls
    let p := wsConnPoll 64 c
    c.msgLen + c.rxLen ≤ c.msgCap ∧
    (c.failed = true → c.frag = .none ∧ c.msgLen = 0) ∧
    (p.ret = .error ↔ p.conn.failed = true) ∧
    (∀ more, c.failed = true → (run (exec 64) c more).failed = true) ∧
    (∀ more, p.ret = .error → (wsConnPoll 64 (run (exec 64) p.conn more)).ret = .error) ∧
    (p.ret = .message → p.conn.frag = .none ∧ p.conn.msgLen = 0) ∧
    (∀ more, p.ret = .close →
      let q := wsConnPoll 64 (run (exec 64) p.conn more)
      q.ret = .none ∨ q.ret = .error) ∧
    (trace (exec 64) (polled 64) (wsConnInit role buf.bytes) calls).count .close ≤ 1 := by
  have hs := sound_run hg
  refine ⟨hs.fits, hs.reset, poll_error_iff 64 _, fun more => run_failed 64 more, ?_,
    poll_message 64 _, ?_, count_close_le 64 _ calls⟩
  · intro more herr
    have hfail := run_failed 64 more ((poll_error_iff 64 _).mp herr)
    rw [poll_failed hfail]
  · intro more hclose
    exact poll_closed 64 (run_closed 64 more (poll_close_state 64 _ hclose))

/-- A buffer of `n` zero bytes. -/
def zeroBuf (n : Nat) (h : n < 2 ^ 64) : MsgBuf 64 := ⟨List.replicate n 0, by simpa using h⟩

/-- A server that receives an unmasked frame fails, and has failed a ping later. -/
theorem accounting_unmasked :
    let calls : List Call := [.open, .recv [0x81, 0x00]]
    let c := run (exec 64) (wsConnInit .server (zeroBuf 16 (by decide)).bytes) calls
    Guarded (exec 64) (NoWrap 64) (wsConnInit .server (zeroBuf 16 (by decide)).bytes) calls ∧
    (wsConnPoll 64 c).ret = .error ∧ (wsConnPoll 64 c).conn.failed = true ∧
    (wsConnPoll 64 (run (exec 64) (wsConnPoll 64 c).conn
      [.recv [0x89, 0x80, 1, 2, 3, 4]])).ret = .error := by
  intro calls c
  have hg : Guarded (exec 64) (NoWrap 64) (wsConnInit .server (zeroBuf 16 (by decide)).bytes)
    calls := by decide +kernel
  obtain ⟨-, -, herr, -, hlater, -⟩ := accounting .server (zeroBuf 16 (by decide)) calls hg
  have hret : (wsConnPoll 64 c).ret = .error := by decide +kernel
  exact ⟨hg, hret, herr.mp hret, hlater _ hret⟩

/-- A message is in the buffer, and is UTF-8 when it is text. -/
theorem poll_message_fits (w : Nat) (c : WsConn) : (wsConnPoll w c).ret = .message →
    (wsConnPoll w c).ev.len ≤ c.msgCap ∧
      (wsConnPoll w c).data.length = (wsConnPoll w c).ev.len ∧
      ((wsConnPoll w c).ev.op = .text → IsUtf8 (wsConnPoll w c).data) := by
  refine poll_shape (P := fun p => p.ret = .message → p.ev.len ≤ c.msgCap ∧
    p.data.length = p.ev.len ∧ (p.ev.op = .text → IsUtf8 p.data))
    w c (fun _ => by simp) (fun _ => by simp) ?_
  intro p _ hs h
  cases hs with
  | @deliver b m n type rcs hb _ hent hm hutf =>
      refine ⟨hm, slice_length (by rw [hb, Nat.zero_add]; exact hm), fun hop => hutf ?_⟩
      cases type with
      | text => rfl
      | bin => exact absurd (show WsOpcode.bin = WsOpcode.text from hop) (by decide)
      | none => exact absurd rfl hent.1
  | control _ _ ht _ => rcases ht with rfl | rfl <;> cases h
  | refuse | close | extend => cases h

/-- A ping or pong has at most 125 bytes: `ws_parse_header` accepts no longer one. -/
theorem poll_control_len (w : Nat) (c : WsConn) :
    (wsConnPoll w c).ret = .ping ∨ (wsConnPoll w c).ret = .pong →
      (wsConnPoll w c).ev.len ≤ 125 := by
  refine poll_shape (P := fun p => p.ret = .ping ∨ p.ret = .pong → p.ev.len ≤ 125)
    w c (fun _ => by simp) (fun _ => by simp) ?_
  intro p _ hs h
  cases hs with
  | control _ _ _ hlen => exact hlen
  | refuse | close | extend | deliver => simp at h

/-- A close carries no code or one an endpoint may send. -/
theorem poll_close_code (w : Nat) {c : WsConn} (hcode : c.state ≠ .closed → c.closeCode = 0) :
    (wsConnPoll w c).ret = .close → (wsConnPoll w c).ev.closeCode = 0 ∨
      wsCloseCodeSendable (wsConnPoll w c).ev.closeCode = true := by
  refine poll_shape (P := fun p => p.ret = .close →
    p.ev.closeCode = 0 ∨ wsCloseCodeSendable p.ev.closeCode = true)
    w c (fun _ => by simp) (fun _ => by simp) ?_
  intro p _ hs h
  cases hs with
  | close _ hact hc =>
      -- a body without a code leaves the one the connection has, and an active one has none
      have h0 : c.closeCode = 0 := hcode fun hcl => by simp [wsLcActive, hcl] at hact
      rw [h0] at hc
      exact hc
  | control _ _ ht _ => rcases ht with rfl | rfl <;> cases h
  | refuse | extend | deliver => cases h

/-- **Every event is well formed**, whatever the peer sends and in whatever order the driver is
called: a message fits the buffer and is UTF-8 when it is text, a ping or pong has at most 125
bytes, a close carries no code or one an endpoint may send, and all four are reported only by a
poll that starts in `OPEN` or `CLOSING`. -/
theorem events_wellFormed (w : Nat) (role : WsRole) (buf : List UInt8) (calls : List Call) :
    let c := run (exec w) (wsConnInit role buf) calls
    let p := wsConnPoll w c
    (p.ret = .message → p.ev.len ≤ c.msgCap ∧ p.data.length = p.ev.len ∧
      (p.ev.op = .text → IsUtf8 p.data)) ∧
    (p.ret = .ping ∨ p.ret = .pong → p.ev.len ≤ 125) ∧
    (p.ret = .close → p.ev.closeCode = 0 ∨ wsCloseCodeSendable p.ev.closeCode = true) ∧
    (p.ret ≠ .none → p.ret ≠ .error → c.state = .open ∨ c.state = .closing) := by
  have hcode := run_closeCode w role buf calls
  generalize run (exec w) (wsConnInit role buf) calls = c at hcode
  refine ⟨poll_message_fits w c, poll_control_len w c, poll_close_code w hcode, fun hne hne' => ?_⟩
  rcases poll_active w c with h | h | h
  · exact absurd h hne
  · exact absurd h hne'
  · simpa [wsLcActive] using h

end Libws
