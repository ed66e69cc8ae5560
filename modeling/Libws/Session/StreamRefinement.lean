import Libws.Session.Receiving
import Libws.Session.StreamSpec

/-!
# Session — the driver refines `WsStream`

The specification counts payload bytes where the driver counts the bytes of whole frames, headers
included, so `rxLen` is not compared: the specification receives what a frame brings when the
driver polls it.  Of the driver's own accord three things differ.  A message that arrives in one
frame starts and finishes in one poll; a first fragment may be empty, where the specification
asks for a byte: an open message of no bytes stands for one of one byte (`WsConn.assembled`); and
a failed connection repeats its error at every poll, which shows nothing new (`reported`).

Frames polled outside `OPEN` and `CLOSING` are the specification's `IllegalState`, which it can
never take; a run that polls none (`Prompt`) is a path of the specification.

* `Abstracts.poll`: a poll is a path that shows the event it returns.
* `stream_refinement`: **so is every prompt run**, of a connection over any buffer.
-/

namespace Libws
open Libws.Support
open Libws.WsStream (Disjunct)

/-- `Next` with the buffer's size for both constants. -/
abbrev StreamPath (cap : Nat) : WsStream.Vars → List Disjunct → WsStream.Vars → Prop :=
  Walk (WsStream.Next cap cap)

/-! ### Paths of the specification -/

namespace WsStream

variable {CAP : Nat} {s : Vars}

/-- A frame of `n` bytes arrives. -/
theorem path_recv {n : Nat} (hf : s.failed = false) (ha : s.Active) (hrx : s.rxLen = 0)
    (hn : 1 ≤ n) (hcap : s.msgLen + n ≤ CAP) : StreamPath CAP s [.recv] { s with rxLen := n } := by
  have hstep : Next CAP CAP .recv s { s with rxLen := s.rxLen + n } :=
    .recv ha hf hn (by omega) (by omega)
  rw [hrx, Nat.zero_add] at hstep
  exact .one hstep

/-- A frame arrives and is refused. -/
theorem path_violate (hf : s.failed = false) (ha : s.Active) (hrx : s.rxLen = 0)
    (hcap : s.msgLen + 1 ≤ CAP) :
    ∃ as, as.flatMap Disjunct.event = [.error] ∧ StreamPath CAP s as { s with
      frag := .none, msgLen := 0, rxLen := 0, failed := true, lastEvent := .error } := by
  have hrecv := path_recv hf ha hrx (Nat.le_refl 1) hcap
  by_cases hfrag : s.frag = .none
  · exact ⟨[.recv, .strayCont], rfl, hrecv.append (.one (.strayCont hf ha hfrag (Nat.le_refl 1)))⟩
  · exact ⟨[.recv, .interleave], rfl, hrecv.append (.one (.interleave hf ha hfrag (Nat.le_refl 1)))⟩

/-- A ping or pong arrives and is shown. -/
theorem path_control {ev : WsEventType} (hev : ev = .ping ∨ ev = .pong) (hf : s.failed = false)
    (ha : s.Active) (hrx : s.rxLen = 0) (hcap : s.msgLen + 1 ≤ CAP) :
    StreamPath CAP s [.recv, .control ev] { s with rxLen := 0, lastEvent := ev } :=
  (path_recv hf ha hrx (Nat.le_refl 1) hcap).append (.one (.control hev hf ha (Nat.le_refl 1)))

theorem path_close (hf : s.failed = false) (ha : s.Active) (hrx : s.rxLen = 0)
    (hcap : s.msgLen + 1 ≤ CAP) :
    StreamPath CAP s [.recv, .recvCloseFrame] { s with
      state := .closed, frag := .none, msgLen := 0, rxLen := 0, lastEvent := .close } :=
  (path_recv hf ha hrx (Nat.le_refl 1) hcap).append (.one (.recvCloseFrame hf ha (Nat.le_refl 1)))

/-- `pay` bytes enter a message, which they may start. -/
theorem path_extend {type : WsFrag} {pay : Nat} (ht : type ≠ .none)
    (hfrag : s.frag = type ∨ s.frag = .none) (hf : s.failed = false) (ha : s.Active)
    (hrx : s.rxLen = 0) (hpay : 1 ≤ pay) (hcap : s.msgLen + pay ≤ CAP) :
    ∃ as, as.flatMap Disjunct.event = [] ∧ StreamPath CAP s as
      { s with frag := type, msgLen := s.msgLen + pay, rxLen := 0, lastEvent := .none } := by
  have hrecv := path_recv hf ha hrx hpay hcap
  rw [← Nat.sub_self pay]
  rcases hfrag with rfl | hnone
  · refine ⟨[.recv, .continueFrag], rfl, hrecv.append (.one ?_)⟩
    exact .continueFrag hf ha ht hpay hpay (by omega) (Nat.le_refl _) hcap
  · have htype : type = .text ∨ type = .bin := by cases type <;> simp_all
    refine ⟨[.recv, .startFrag type], rfl, hrecv.append (.one ?_)⟩
    exact .startFrag htype hf ha hnone hpay hpay (by omega) (Nat.le_refl _) hcap

/-- The message in flight is finished. -/
theorem path_finish (hfrag : s.frag ≠ .none) (hf : s.failed = false) (ha : s.Active)
    (hrx : s.rxLen = 0) (hcap : s.msgLen + 1 ≤ CAP) :
    StreamPath CAP s [.recv, .finishFrag]
      { s with frag := .none, msgLen := 0, rxLen := 0, lastEvent := .message } := by
  have hstep : Next CAP CAP .finishFrag { s with rxLen := 1 }
      { s with frag := .none, msgLen := 0, rxLen := 1 - 1, lastEvent := .message } :=
    .finishFrag hf ha hfrag (Nat.le_refl 1) (by omega) (Nat.le_refl 1) hcap
  exact (path_recv hf ha hrx (Nat.le_refl 1) hcap).append (.one hstep)

end WsStream

/-! ### The abstraction -/

/-- The length of the message in flight, where an open message of no bytes has one. -/
def WsConn.assembled (c : WsConn) : Nat := if c.frag = .none then 0 else max 1 c.msgLen

/-- The connection stands for a state of the specification with nothing received. -/
structure Abstracts (c : WsConn) (s : WsStream.Vars) : Prop where
  state : s.state = c.state
  frag : s.frag = c.frag
  msgLen : s.msgLen = c.assembled
  rxLen : s.rxLen = 0
  failed : s.failed = c.failed

/-- No frame is polled outside `OPEN` and `CLOSING`, and no sum wraps. -/
def Prompt (c : WsConn) : Call → Prop
  | .poll => c.failed = true ∨ wsLcActive c = true ∨ frameReady 64 c = .none
  | call => NoWrap 64 c call

instance (c : WsConn) : (call : Call) → Decidable (Prompt c call)
  | .poll => inferInstanceAs (Decidable (_ ∨ _ ∨ _))
  | .recv bytes => inferInstanceAs (Decidable (NoWrap 64 c (.recv bytes)))
  | .open | .sendMessage .. | .sendPong .. | .sendClose .. => .isTrue trivial

/-- The event a poll adds: a failed connection only repeats its error. -/
def reported (c : WsConn) : Call → List WsEventType
  | .poll => if c.failed then [] else [(wsConnPoll 64 c).ret].filter (· ≠ .none)
  | _ => []

theorem Prompt.noWrap {c : WsConn} {call : Call} (h : Prompt c call) : NoWrap 64 c call := by
  cases call with
  | poll => trivial
  | «open» | recv | sendMessage | sendPong | sendClose => exact h

/-- The header of a buffered frame takes two bytes more than the message it ends in. -/
theorem View.room {c : WsConn} {f : Frame} {msg t : List UInt8} (hv : View c msg (f.wire ++ t)) :
    max 1 (msg ++ f.payload).length + 1 ≤ c.msgCap := by
  have hle := hv.le_cap
  have h2 := f.hdr_length.1
  simp only [List.length_append, f.wire_length, f.payload_length] at hle ⊢
  rw [WsConn.msgCap]
  omega

/-- A data frame that joins a message leaves its type in flight. -/
theorem Receiver.Joins.frag {r : Receiver} {f : Frame} {type : WsFrag} (hj : r.Joins f type) :
    type ≠ .none ∧ (r.frag = type ∨ r.frag = .none) := by
  cases hj with
  | cont _ hne => exact ⟨hne, .inl rfl⟩
  | text _ h0 | bin _ h0 => exact ⟨by simp, .inr h0⟩

namespace Abstracts

variable {c : WsConn} {s : WsStream.Vars}

theorem active (h : Abstracts c s) (ha : wsLcActive c = true) : s.Active := by
  rw [wsLcActive, decide_eq_true_iff] at ha
  rw [WsStream.Vars.Active, h.state]
  exact ha

/-- A connection that holds a complete frame has room for the specification's next byte. -/
theorem room (h : Abstracts c s) {f : Frame} {t : List UInt8} (hv : View c c.msg (f.wire ++ t)) :
    s.msgLen + 1 ≤ c.msgCap := by
  have hnext := hv.room
  rw [List.length_append] at hnext
  rw [h.msgLen, WsConn.assembled, hv.msgLen]
  split <;> omega

/-- A data frame enters the message, perhaps as its first one. -/
theorem extend (h : Abstracts c s) {f : Frame} {t : List UInt8} {type : WsFrag}
    (hv : View c c.msg (f.wire ++ t)) (hf : c.failed = false) (ha : wsLcActive c = true)
    (ht : type ≠ .none) (hfrag : c.frag = type ∨ c.frag = .none) :
    ∃ as s', as.flatMap Disjunct.event = [] ∧ StreamPath c.msgCap s as s' ∧
      s'.state = c.state ∧ s'.frag = type ∧ s'.msgLen = max 1 (c.msg ++ f.payload).length ∧
      s'.rxLen = 0 ∧ s'.failed = c.failed := by
  have hroom := hv.room
  have hold : s.msgLen ≤ max 1 (c.msg ++ f.payload).length := by
    rw [h.msgLen, WsConn.assembled, hv.msgLen, List.length_append]
    split <;> omega
  obtain ⟨pay, hpay⟩ := Nat.exists_eq_add_of_le hold
  rcases Nat.eq_zero_or_pos pay with rfl | hpos
  · -- nothing new: the message was open and its length does not change
    have hopen : s.frag = type := by
      rcases hfrag with heq | hnone
      · exact h.frag.trans heq
      · have : s.msgLen = 0 := by rw [h.msgLen, WsConn.assembled, if_pos hnone]
        omega
    exact ⟨[], s, rfl, .nil, h.state, hopen, hpay.symm, h.rxLen, h.failed⟩
  · obtain ⟨as, hev, hp⟩ := WsStream.path_extend ht (hfrag.imp h.frag.trans h.frag.trans)
      (h.failed.trans hf) (h.active ha) h.rxLen hpos (hpay ▸ (Nat.le_succ _).trans hroom)
    exact ⟨as, _, hev, hp, h.state, rfl, hpay.symm, rfl, h.failed⟩

/-- **A poll is a path of the specification** that shows the event the poll returns. -/
theorem poll (h : Abstracts c s) (hs : Sound c) (hp : Prompt c .poll) :
    ∃ as s', StreamPath c.msgCap s as s' ∧ as.flatMap Disjunct.event = reported c .poll ∧
      Abstracts (wsConnPoll 64 c).conn s' := by
  cases hf : c.failed with
  | true =>
      rw [reported, poll_failed hf, if_pos hf]
      exact ⟨[], s, .nil, rfl, h⟩
  | false =>
      rw [reported, if_neg (by simp [hf])]
      rcases hs.poll_cases hf with ⟨-, hidle⟩ | ⟨f, t, hv, ho⟩
      · rw [hidle]
        exact ⟨[], s, .nil, rfl, h⟩
      · have ha : wsLcActive c = true := by
          rcases hp with hp | hp | hp
          · simp [hf] at hp
          · exact hp
          · rw [hv.frameReady_wire hs.cap_lt] at hp
            cases hp
        have hact := h.active ha
        have hf' : s.failed = false := h.failed.trans hf
        have hroom := h.room hv
        generalize hver : (c.receiver c.msg).verdict c.role f = v at ho
        generalize wsConnPoll 64 c = p at ho
        cases ho with
        | refuse =>
            obtain ⟨as, hev, hpath⟩ := WsStream.path_violate hf' hact h.rxLen hroom
            exact ⟨as, _, hpath, hev, h.state, rfl, rfl, rfl, rfl⟩
        | ping =>
            refine ⟨_, _, WsStream.path_control (.inl rfl) hf' hact h.rxLen hroom, rfl,
              h.state, h.frag, ?_, rfl, h.failed⟩
            rw [h.msgLen, WsConn.assembled, hv.msgLen]
            rfl
        | pong =>
            refine ⟨_, _, WsStream.path_control (.inr rfl) hf' hact h.rxLen hroom, rfl,
              h.state, h.frag, ?_, rfl, h.failed⟩
            rw [h.msgLen, WsConn.assembled, hv.msgLen]
            rfl
        | close =>
            exact ⟨_, _, WsStream.path_close hf' hact h.rxLen hroom, rfl, rfl, rfl, rfl, rfl,
              h.failed⟩
        | extend =>
            obtain ⟨-, hj, -⟩ := Receiver.verdict_joins (.inl hver)
            obtain ⟨ht, hfrag⟩ := hj.frag
            obtain ⟨as, s', hev, hpath, h₁, h₂, h₃, h₄, h₅⟩ := h.extend hv hf ha ht hfrag
            refine ⟨as, s', hpath, hev, h₁, h₂, ?_, h₄, h₅⟩
            rw [h₃, WsConn.assembled, if_neg ht]
        | deliver =>
            obtain ⟨-, hj, -⟩ := Receiver.verdict_joins (.inr hver)
            obtain ⟨ht, hfrag⟩ := hj.frag
            obtain ⟨as, s', hev, hpath, h₁, h₂, h₃, h₄, h₅⟩ := h.extend hv hf ha ht hfrag
            have hact' : s'.Active := by rwa [WsStream.Vars.Active, h₁, ← h.state]
            have hfin := WsStream.path_finish (h₂ ▸ ht) (h₅.trans hf) hact' h₄
              (h₃ ▸ hv.room)
            refine ⟨_, _, hpath.append hfin, ?_, h₁, rfl, rfl, rfl, h₅⟩
            rw [List.flatMap_append, hev]
            rfl

/-- **Each prompt call is a path of the specification.** -/
theorem exec (h : Abstracts c s) (hs : Sound c) {call : Call} (hp : Prompt c call) :
    ∃ as s', StreamPath c.msgCap s as s' ∧ as.flatMap Disjunct.event = reported c call ∧
      Abstracts (Libws.exec 64 c call) s' := by
  by_cases hcall : call = .poll
  · subst hcall
    exact h.poll hs hp
  · have hshow : reported c call = [] := by
      cases call with
      | poll => exact absurd rfl hcall
      | «open» | recv | sendMessage | sendPong | sendClose => rfl
    have hq := exec_quiet 64 c call hcall
    rw [hshow]
    generalize Libws.exec 64 c call = d at hq
    cases hq with
    | same => exact ⟨[], s, .nil, rfl, h⟩
    | recv => exact ⟨[], s, .nil, rfl, ⟨h.state, h.frag, h.msgLen, h.rxLen, h.failed⟩⟩
    | handshake hc =>
        exact ⟨[.handshake], _, .one (.handshake (h.state.trans hc)), rfl,
          ⟨rfl, h.frag, h.msgLen, h.rxLen, h.failed⟩⟩
    | sendClose ho =>
        exact ⟨[.toClosing], _, .one (.toClosing (h.state.trans ho)), rfl,
          ⟨rfl, h.frag, h.msgLen, h.rxLen, h.failed⟩⟩

end Abstracts

/-! ### What the specification cannot show -/

/-- In the specification a connection fails only after it was opened, and never after a close. -/
structure FailsActive (s : WsStream.Vars) (shown : List WsEventType) : Prop where
  opened : s.failed = true → s.state ≠ .connecting
  closed : .close ∈ shown → s.state = .closed ∧ s.failed = false

theorem FailsActive.next {CAP PAYMAX : Nat} {a : Disjunct} {s s' : WsStream.Vars}
    {shown : List WsEventType} (hn : WsStream.Next CAP PAYMAX a s s') (hs : WsStream.Strong CAP s)
    (h : FailsActive s shown) : FailsActive s' (shown ++ a.event) := by
  have hopen : s.Active → s.state ≠ .connecting ∧ .close ∉ shown := by
    intro ha
    refine ⟨fun hc => ?_, fun hm => ?_⟩
    · rcases ha with ha | ha <;> rw [ha] at hc <;> cases hc
    · rcases ha with ha | ha <;> rw [(h.closed hm).1] at ha <;> cases ha
  cases hn with
  | terminated | recvReject => simpa [Disjunct.event] using h
  | handshake hc =>
      refine ⟨by simp, fun hm => ?_⟩
      have hcl := (h.closed (by simpa [Disjunct.event] using hm)).1
      rw [hcl] at hc
      cases hc
  | toClosing ho =>
      exact ⟨by simp, fun hm => absurd (by simpa [Disjunct.event] using hm) (hopen (.inl ho)).2⟩
  | toClosed ho => exact ⟨by simp, fun hm => absurd (by simpa [Disjunct.event] using hm) (hopen ho).2⟩
  | recv ha | startFrag _ _ ha | continueFrag _ ha | finishFrag _ ha =>
      exact ⟨h.opened, fun hm => absurd (by simpa [Disjunct.event] using hm) (hopen ha).2⟩
  | interleave _ ha | strayCont _ ha | tooBig _ ha =>
      exact ⟨fun _ => (hopen ha).1, fun hm => absurd (by simpa [Disjunct.event] using hm) (hopen ha).2⟩
  | control hev _ ha =>
      refine ⟨h.opened, fun hm => absurd ?_ (hopen ha).2⟩
      rcases hev with rfl | rfl <;> simpa [Disjunct.event] using hm
  | recvCloseFrame hf => exact ⟨by simp, fun _ => ⟨rfl, hf⟩⟩
  | illegalState _ hna hfr =>
      rw [WsStream.Vars.HasFrame, hs.drained hna] at hfr
      omega
  | pollWhenFailed hf =>
      refine ⟨h.opened, fun hm => ?_⟩
      have := (h.closed (by simpa [Disjunct.event] using hm)).2
      simp [hf] at this

theorem FailsActive.path {CAP PAYMAX : Nat} {as : List Disjunct} {s : WsStream.Vars}
    (hp : Walk (WsStream.Next CAP PAYMAX) WsStream.Vars.init as s) :
    FailsActive s (as.flatMap Disjunct.event) := by
  have h₀ : WsStream.Strong CAP WsStream.Vars.init ∧ FailsActive WsStream.Vars.init [] :=
    ⟨.init, by simp [WsStream.Vars.init], by simp⟩
  have hstep : ∀ a s s' shown, WsStream.Next CAP PAYMAX a s s' →
      WsStream.Strong CAP s ∧ FailsActive s shown →
      WsStream.Strong CAP s' ∧ FailsActive s' (shown ++ a.event) :=
    fun _ _ _ _ hn h => ⟨h.1.next hn, h.2.next hn h.1⟩
  exact (hp.shown_inv hstep h₀).2

/-- A connection is closed by a close it has reported. -/
theorem closed_reported (c : WsConn) (call : Call) {shown : List WsEventType}
    (h : c.state = .closed → .close ∈ shown) :
    (exec 64 c call).state = .closed → .close ∈ shown ++ reported c call := by
  by_cases hcall : call = .poll
  · subst hcall
    rw [exec, reported]
    refine poll_shape (P := fun p => p.conn.state = .closed → .close ∈ shown ++
      if c.failed then [] else [p.ret].filter (· ≠ .none)) 64 c ?_ ?_ ?_
    · exact fun _ hc => List.mem_append_left _ (h hc)
    · exact fun _ hc => List.mem_append_left _ (h hc)
    · intro p hf hs
      cases hs with
      | close => simp [hf]
      | refuse | control | extend | deliver => exact fun hc => List.mem_append_left _ (h hc)
  · have hq := exec_quiet 64 c call hcall
    generalize exec 64 c call = d at hq
    cases hq with
    | same | recv => exact fun hc => List.mem_append_left _ (h hc)
    | handshake | sendClose => exact fun hc => by cases hc

/-! ### Runs -/

/-- The run so far is a path of the specification that shows the same events. -/
def Follows (role : WsRole) (buf : MsgBuf 64) (calls : List Call) : Prop :=
  ∃ as s, StreamPath buf.bytes.length WsStream.Vars.init as s ∧
    as.flatMap Disjunct.event = trace (exec 64) reported (wsConnInit role buf.bytes) calls ∧
    Abstracts (run (exec 64) (wsConnInit role buf.bytes) calls) s

theorem follows_of_prompt {role : WsRole} {buf : MsgBuf 64} {calls : List Call}
    (hg : Guarded (exec 64) Prompt (wsConnInit role buf.bytes) calls) : Follows role buf calls := by
  have h₀ : Abstracts (wsConnInit role buf.bytes) WsStream.Vars.init := ⟨rfl, rfl, rfl, rfl, rfl⟩
  let R := fun c s => Sound c ∧ c.msgCap = buf.bytes.length ∧ Abstracts c s
  have hmatch : ∀ c call s, R c s → Prompt c call →
      ∃ as s', StreamPath buf.bytes.length s as s' ∧
        as.flatMap Disjunct.event = reported c call ∧ R (exec 64 c call) s' := by
    rintro c call s ⟨hs, hcap, h⟩ hp
    obtain ⟨as, s', hpath, hev, h'⟩ := h.exec hs hp
    rw [hcap] at hpath
    exact ⟨as, s', hpath, hev, hs.exec hp.noWrap, (exec_msgCap 64 c call).trans hcap, h'⟩
  obtain ⟨as, s, hp, hev, -, -, h⟩ := run_path hmatch hg ⟨.init role buf, rfl, h₀⟩
  exact ⟨as, s, hp, hev, h⟩

/-- A run that is a path of the specification does not end in a frame polled where none is
processed. -/
theorem Follows.prompt {role : WsRole} {buf : MsgBuf 64} {calls : List Call} {call : Call}
    (hw : NoWrap 64 (run (exec 64) (wsConnInit role buf.bytes) calls) call)
    (h : Follows role buf (calls ++ [call])) :
    Prompt (run (exec 64) (wsConnInit role buf.bytes) calls) call := by
  obtain ⟨as, s, hp, hev, habs⟩ := h
  have hact := FailsActive.path hp
  have hclosed := run_trace_inv (G := fun _ _ => True) (o := reported)
    (P := fun c shown => c.state = .closed → .close ∈ shown) (t := [])
    (fun c call shown h _ => closed_reported c call h)
    (guarded_of_forall (fun _ _ => trivial) (wsConnInit role buf.bytes) (calls ++ [call]))
    (by simp [wsConnInit])
  rw [hev] at hact
  generalize trace (exec 64) reported (wsConnInit role buf.bytes) (calls ++ [call]) = shown at *
  rw [run_append, run_cons, run_nil] at habs hclosed
  generalize run (exec 64) (wsConnInit role buf.bytes) calls = c at *
  cases call with
  | «open» | recv | sendMessage | sendPong | sendClose => exact hw
  | poll =>
      by_contra hno
      simp only [Prompt, not_or, Bool.not_eq_true] at hno
      obtain ⟨hf, ha, hready⟩ := hno
      obtain ⟨r, hr⟩ := Option.ne_none_iff_exists'.mp hready
      have hp : wsConnPoll 64 c = fail c clearEvent := by
        rw [wsConnPoll, hf, hr]
        simp [dispatch, admitFrame, ha]
      rw [exec, hp] at habs hclosed
      have hfail : s.failed = true := habs.failed
      cases hst : c.state with
      | connecting => exact hact.opened hfail (habs.state.trans hst)
      | «open» | closing => simp [wsLcActive, hst] at ha
      | closed =>
          have := (hact.closed (hclosed hst)).2
          simp [hfail] at this

/-- **The driver refines the stream specification, exactly when it is polled promptly.**  A run
over any buffer is at every point a path of `WsStream` from `Init`, with the buffer's size for both
constants, that shows the events reported and reaches the same lifecycle state, fragment and
failure, and the length `WsConn.assembled` of the message in flight, if and only if it polls no
complete frame outside `OPEN` and `CLOSING`. -/
theorem stream_refinement (role : WsRole) (buf : MsgBuf 64) (calls : List Call)
    (hg : Guarded (exec 64) (NoWrap 64) (wsConnInit role buf.bytes) calls) :
    (∀ done rest, calls = done ++ rest → Follows role buf done) ↔
      Guarded (exec 64) Prompt (wsConnInit role buf.bytes) calls := by
  constructor
  · intro h
    refine guarded_iff.mpr fun done call rest hd => ?_
    exact (h (done ++ [call]) rest (by simp [hd])).prompt (guarded_iff.mp hg done call rest hd)
  · rintro h done rest rfl
    exact follows_of_prompt (guarded_append.mp h).1

/-- A server opens, and polls a masked text message of one byte. -/
theorem stream_refinement_text :
    let calls : List Call := [.open, .recv [0x81, 0x81, 1, 2, 3, 4, 0x60], .poll]
    Guarded (exec 64) (NoWrap 64) (wsConnInit .server (zeroBuf 16 (by decide)).bytes) calls ∧
    trace (exec 64) reported (wsConnInit .server (zeroBuf 16 (by decide)).bytes) calls
      = [.message] ∧
    ∀ done rest, calls = done ++ rest → Follows .server (zeroBuf 16 (by decide)) done := by
  intro calls
  have hg : Guarded (exec 64) (NoWrap 64) (wsConnInit .server (zeroBuf 16 (by decide)).bytes)
    calls := by decide +kernel
  refine ⟨hg, by decide +kernel, ?_⟩
  exact (stream_refinement .server (zeroBuf 16 (by decide)) calls hg).mpr (by decide +kernel)

end Libws
