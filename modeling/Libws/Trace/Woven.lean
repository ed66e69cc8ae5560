import Libws.Session.Calls
import Libws.Trace.Format

/-!
# Trace — the driver of a debug build

`src/session/stream.c` and `src/session/lifecycle.c` with `WS_DEBUG`: the functions that reach a
trace point, each with the points it reaches, in order.  They are written as in `Session`, and the
others are those of `Session`.

* `exec_val`: **the trace points change nothing**.
* `exec_log`: the points of one call are its change of state, and the event it reports.
* `debug_log`: what a run of a debug build writes tells the events it reported and the states it
  went through, and can be read in one way.
-/

namespace Libws.Debug
open Libws.Support

/-- A result, and the trace points reached before it. -/
structure Traced (α : Type) where
  val : α
  log : List TracePoint

instance : Monad Traced where
  pure a := ⟨a, []⟩
  bind x f := ⟨(f x.val).val, x.log ++ (f x.val).log⟩

/-- `WS_TRACE_EVENT`, `WS_TRACE_STATE`. -/
def wsTrace (p : TracePoint) : Traced Unit := ⟨(), [p]⟩

section Traced

variable {α β : Type}

@[simp] theorem val_pure (a : α) : (pure a : Traced α).val = a := rfl

@[simp] theorem log_pure (a : α) : (pure a : Traced α).log = [] := rfl

@[simp] theorem val_bind (x : Traced α) (f : α → Traced β) : (x >>= f).val = (f x.val).val := rfl

@[simp] theorem log_bind (x : Traced α) (f : α → Traced β) :
    (x >>= f).log = x.log ++ (f x.val).log := rfl

@[simp] theorem log_wsTrace (p : TracePoint) : (wsTrace p).log = [p] := rfl

@[simp] theorem val_ite {b : Prop} [Decidable b] (x y : Traced α) :
    (if b then x else y).val = if b then x.val else y.val := apply_ite ..

@[simp] theorem log_ite {b : Prop} [Decidable b] (x y : Traced α) :
    (if b then x else y).log = if b then x.log else y.log := apply_ite ..

end Traced

/-! ### `lifecycle.c` -/

def wsLcHandshake (c : WsConn) : Traced (WsStatus × WsConn) :=
  if c.state ≠ .connecting then pure (.errIllegalState, c)
  else do
    let old := c.state
    let c := { c with state := .open }
    wsTrace (.state old c.state (bytesOf "handshake"))
    pure (.ok, c)

def wsLcSendClose (c : WsConn) : Traced (WsStatus × WsConn) :=
  if c.state ≠ .open then pure (.errIllegalState, c)
  else do
    let old := c.state
    let c := { c with sentClose := true, state := .closing }
    wsTrace (.state old c.state (bytesOf "send_close"))
    pure (.ok, c)

def wsLcRecvClose (c : WsConn) : Traced (WsStatus × WsConn) :=
  if !wsLcActive c then pure (.errIllegalState, c)
  else do
    let old := c.state
    let c := { c with
      rcvdClose := true, sentClose := true, state := .closed, frag := .none, msgLen := 0 }
    wsTrace (.state old c.state (bytesOf "recv_close"))
    pure (.ok, c)

/-! ### `stream.c` -/

def wsConnOpen (c : WsConn) : Traced WsConn := do
  let (_, c) ← wsLcHandshake c
  pure c

def fail (c : WsConn) (ev : WsEvent) : Traced Poll := do
  wsTrace (.event .error 0 0)
  pure (Libws.fail c ev)

def emit (c : WsConn) (ev : WsEvent) (t : WsEventType) : Traced Poll := do
  if t ≠ .none then wsTrace (.event t (UInt64.ofNat ev.len) ev.closeCode)
  pure (Libws.emit c ev t)

def finishMessage (c : WsConn) (ev : WsEvent) : Traced Poll :=
  if !messageUtf8Ok c then fail c ev
  else do
    let ev := { ev with
      op := if c.frag = .bin then .bin else .text, data := some 0, len := c.msgLen }
    let (rc, c) := wsLcFinishFrag c
    let p ← emit { c with msgLen := 0 } ev .message
    pure { p with rcs := [rc] }

def onData (w : Nat) (c : WsConn) (h : WsFrameHeader) (hdr : Nat) (ev : WsEvent) : Traced Poll :=
  let isCont := decide (h.opcode = .cont)
  if dataIllegal w c h isCont then fail c ev
  else do
    let (c, rcs) := beginData c h isCont
    let c := accumulate w c h hdr
    let p ← if !h.fin then emit c ev .none else finishMessage c ev
    pure { p with rcs := rcs ++ p.rcs }

def onClose (w : Nat) (c : WsConn) (h : WsFrameHeader) (hdr : Nat) (ev : WsEvent) : Traced Poll :=
  if !closeBodyOk w c h hdr then fail c ev
  else do
    let plen := sizeT w h.payloadLen.toNat
    let c := if plen ≥ 2 then { c with closeCode := closeCodeAt c hdr } else c
    let ev := { ev with closeCode := c.closeCode }
    let (rc, c) ← wsLcRecvClose c
    let p ← emit (rawConsume w c (szAdd w hdr plen)) ev .close
    pure { p with rcs := [rc] }

def onControl (w : Nat) (c : WsConn) (h : WsFrameHeader) (hdr : Nat) (ev : WsEvent) :
    Traced Poll :=
  if h.opcode = .close then onClose w c h hdr ev
  else
    let plen := sizeT w h.payloadLen.toNat
    let ev := { ev with data := some (raw c + hdr), len := plen }
    let t := if h.opcode = .ping then .ping else .pong
    emit (rawConsume w c (szAdd w hdr plen)) ev t

def route (w : Nat) (c : WsConn) (h : WsFrameHeader) (hdr : Nat) (ev : WsEvent) : Traced Poll :=
  match wsClassifyOpcode h.opcode with
  | .control => onControl w c h hdr ev
  | .data => onData w c h hdr ev
  | .reserved => fail c ev

def admitFrame (c : WsConn) (h : WsFrameHeader) (ev : WsEvent) : Traced (Option Poll) :=
  if !wsLcActive c then some <$> fail c ev
  else if !maskOk c h then some <$> fail c ev
  else pure .none

def dispatch (w : Nat) (c : WsConn) (h : WsFrameHeader) (hdr : Nat) (ev : WsEvent) :
    Traced Poll := do
  match ← admitFrame c h ev with
  | some out => pure out
  | .none => route w (unmaskPayload w c h hdr) h hdr ev

def wsConnPoll (w : Nat) (c : WsConn) : Traced Poll :=
  let ev := clearEvent
  if c.failed then emit c ev .error
  else match frameReady w c with
    | .none => pure ⟨.none, c, ev, []⟩
    | some (h, hdr, _) => dispatch w c h hdr ev

def wsSendClose (w : Nat) (c : WsConn) (key : MaskKey) (code : UInt16) (out : List UInt8) :
    Traced (Built × WsConn × List WsStatus) :=
  if c.state ≠ .open then pure (⟨0, out⟩, c, [])
  else
    let body := [(code >>> 8).toUInt8, code.toUInt8]
    let b := buildFrame w c key .close body out
    if b.n > 0 then do
      let (rc, c) ← wsLcSendClose c
      pure (b, c, [rc])
    else pure (b, c, [])

/-- The connection after a call of the application. -/
def exec (w : Nat) (c : WsConn) : Call → Traced WsConn
  | .open => wsConnOpen c
  | .poll => return (← wsConnPoll w c).conn
  | .sendClose key code out => return (← wsSendClose w c key code out).2.1
  | call => pure (Libws.exec w c call)

/-! ### The results -/

section Results

variable {w : Nat} {c : WsConn} {h : WsFrameHeader} {hdr : Nat} {ev : WsEvent}

theorem handshake_val (c : WsConn) : (wsLcHandshake c).val = Libws.wsLcHandshake c := by
  rw [wsLcHandshake, Libws.wsLcHandshake, val_ite]
  rfl

theorem sendClose_val (c : WsConn) : (wsLcSendClose c).val = Libws.wsLcSendClose c := by
  rw [wsLcSendClose, Libws.wsLcSendClose, val_ite]
  rfl

theorem recvClose_val (c : WsConn) : (wsLcRecvClose c).val = Libws.wsLcRecvClose c := by
  rw [wsLcRecvClose, Libws.wsLcRecvClose, val_ite]
  rfl

theorem emit_val (c : WsConn) (ev : WsEvent) (t : WsEventType) :
    (emit c ev t).val = Libws.emit c ev t := by
  rw [emit]
  split <;> rfl

theorem finishMessage_val (c : WsConn) (ev : WsEvent) :
    (finishMessage c ev).val = Libws.finishMessage c ev := by
  rw [finishMessage, Libws.finishMessage, val_ite]
  rfl

theorem onData_val : (onData w c h hdr ev).val = Libws.onData w c h hdr ev := by
  rw [onData, Libws.onData]
  simp only [val_ite, val_bind, val_pure, emit_val, finishMessage_val]
  split
  · rfl
  · split <;> rfl

theorem onClose_val : (onClose w c h hdr ev).val = Libws.onClose w c h hdr ev := by
  rw [onClose, Libws.onClose]
  simp only [val_ite, val_bind, recvClose_val]
  rfl

theorem onControl_val : (onControl w c h hdr ev).val = Libws.onControl w c h hdr ev := by
  rw [onControl, Libws.onControl]
  simp only [val_ite, emit_val, onClose_val]

theorem route_val : (route w c h hdr ev).val = Libws.route w c h hdr ev := by
  rw [route, Libws.route]
  cases wsClassifyOpcode h.opcode with
  | control => exact onControl_val
  | data => exact onData_val
  | reserved => rfl

theorem admitFrame_val : (admitFrame c h ev).val = Libws.admitFrame c h ev := by
  rw [admitFrame, Libws.admitFrame]
  simp only [val_ite]
  rfl

theorem dispatch_val : (dispatch w c h hdr ev).val = Libws.dispatch w c h hdr ev := by
  rw [dispatch, Libws.dispatch, val_bind, admitFrame_val]
  cases Libws.admitFrame c h ev with
  | none => exact route_val
  | some out => rfl

theorem poll_val (w : Nat) (c : WsConn) : (wsConnPoll w c).val = Libws.wsConnPoll w c := by
  rw [wsConnPoll, Libws.wsConnPoll, val_ite]
  cases frameReady w c with
  | none => rfl
  | some r => rw [dispatch_val]; rfl

theorem wsSendClose_val (w : Nat) (c : WsConn) (key : MaskKey) (code : UInt16) (out : List UInt8) :
    (wsSendClose w c key code out).val = Libws.wsSendClose w c key code out := by
  rw [wsSendClose, Libws.wsSendClose]
  simp only [val_ite, val_bind, val_pure, sendClose_val]

/-- **The trace points change nothing.** -/
theorem exec_val (w : Nat) (c : WsConn) (call : Call) : (exec w c call).val = Libws.exec w c call := by
  cases call with
  | «open» => exact congrArg Prod.snd (handshake_val c)
  | poll => exact congrArg Poll.conn (poll_val w c)
  | sendClose key code out => exact congrArg (·.2.1) (wsSendClose_val w c key code out)
  | recv | sendMessage | sendPong => rfl

end Results

/-! ### The points of one poll -/

/-- The points of a poll: the change of state it made, and the event it reports. -/
def pollLog (c : WsConn) (p : Poll) : List TracePoint :=
  (if p.conn.state = c.state then []
    else [.state c.state p.conn.state (bytesOf "recv_close")]) ++
  if p.ret = .none then [] else [.event p.ret (UInt64.ofNat p.ev.len) p.ev.closeCode]

section Logs

variable {w : Nat} {c : WsConn} {h : WsFrameHeader} {hdr : Nat}

theorem pollLog_congr {c' : WsConn} {p p' : Poll} (hc : c'.state = c.state)
    (hs : p'.conn.state = p.conn.state) (hr : p'.ret = p.ret) (hev : p'.ev = p.ev) :
    pollLog c' p' = pollLog c p := by
  rw [pollLog, pollLog, hc, hs, hr, hev]

theorem fail_log (c : WsConn) :
    (fail c clearEvent).log = pollLog c (Libws.fail c clearEvent) := by
  simp [fail, pollLog, Libws.fail, clearEvent]

theorem emit_log {d : WsConn} (hd : d.state = c.state) (ev : WsEvent) (t : WsEventType) :
    (emit d ev t).log = pollLog c (Libws.emit d ev t) := by
  by_cases ht : t = .none
  · simp [emit, pollLog, Libws.emit, hd, ht]
  · simp [emit, pollLog, Libws.emit, hd, ht]

theorem finishFrag_state (c : WsConn) : (wsLcFinishFrag c).2.state = c.state := by
  rw [wsLcFinishFrag]
  split
  · rfl
  · split <;> rfl

theorem startFrag_state (c : WsConn) (type : WsFrag) :
    (wsLcStartFrag c type).2.state = c.state := by
  rw [wsLcStartFrag]
  split
  · rfl
  · split <;> rfl

theorem beginData_state (c : WsConn) (h : WsFrameHeader) (isCont : Bool) :
    (beginData c h isCont).1.state = c.state := by
  cases isCont with
  | true => rfl
  | false => exact startFrag_state ..

theorem finishMessage_log (c : WsConn) :
    (finishMessage c clearEvent).log = pollLog c (Libws.finishMessage c clearEvent) := by
  rw [finishMessage, Libws.finishMessage, log_ite]
  split
  · exact fail_log c
  · simp only [log_bind, log_pure, List.append_nil]
    have hd : ({ (wsLcFinishFrag c).2 with msgLen := 0 } : WsConn).state = c.state :=
      finishFrag_state c
    exact (emit_log hd _ _).trans (pollLog_congr rfl rfl rfl rfl)

theorem onData_log (w : Nat) (c : WsConn) (h : WsFrameHeader) (hdr : Nat) :
    (onData w c h hdr clearEvent).log = pollLog c (Libws.onData w c h hdr clearEvent) := by
  rw [onData, Libws.onData]
  simp only [log_ite, log_bind, log_pure, List.append_nil]
  split
  · exact fail_log c
  · -- the frame changes no state, so the points are those of what is left to do
    have hd : (accumulate w (beginData c h (decide (h.opcode = .cont))).1 h hdr).state = c.state :=
      beginData_state ..
    split
    · exact emit_log hd _ _
    · rw [finishMessage_log]
      exact pollLog_congr hd rfl rfl rfl

/-- A close that is accepted is reported behind the change of state it makes. -/
theorem onClose_log (hact : wsLcActive c = true) :
    (onClose w c h hdr clearEvent).log = pollLog c (Libws.onClose w c h hdr clearEvent) := by
  have hne : WsState.closed ≠ c.state := by
    intro he
    rw [wsLcActive, ← he] at hact
    cases hact
  rw [onClose, Libws.onClose]
  simp only [log_ite, log_bind, log_pure, List.append_nil]
  split
  · exact fail_log c
  · generalize hc' : (if sizeT w h.payloadLen.toNat ≥ 2
      then { c with closeCode := closeCodeAt c hdr } else c) = c'
    have hs : c'.state = c.state := by rw [← hc']; split <;> rfl
    have hact' : wsLcActive c' = true := by rw [wsLcActive, hs]; exact hact
    simp only [wsLcRecvClose, Libws.wsLcRecvClose, hact', Bool.not_true, Bool.false_eq_true,
      if_false, log_bind, log_wsTrace, log_pure, val_bind, val_pure, List.append_nil, hs]
    rw [emit_log rfl, pollLog, pollLog]
    simp [Libws.emit, rawConsume, hne]

theorem onControl_log (hact : wsLcActive c = true) :
    (onControl w c h hdr clearEvent).log = pollLog c (Libws.onControl w c h hdr clearEvent) := by
  rw [onControl, Libws.onControl]
  simp only [log_ite]
  split
  · exact onClose_log hact
  · exact emit_log rfl _ _

theorem route_log (hact : wsLcActive c = true) :
    (route w c h hdr clearEvent).log = pollLog c (Libws.route w c h hdr clearEvent) := by
  rw [route, Libws.route]
  cases wsClassifyOpcode h.opcode with
  | control => exact onControl_log hact
  | data => exact onData_log w c h hdr
  | reserved => exact fail_log c

theorem unmaskPayload_state (w : Nat) (c : WsConn) (h : WsFrameHeader) (hdr : Nat) :
    (unmaskPayload w c h hdr).state = c.state := by
  rw [unmaskPayload]
  split <;> rfl

theorem dispatch_log :
    (dispatch w c h hdr clearEvent).log = pollLog c (Libws.dispatch w c h hdr clearEvent) := by
  rw [dispatch, Libws.dispatch, log_bind, admitFrame_val, admitFrame, Libws.admitFrame]
  cases hact : wsLcActive c with
  | false => exact (List.append_nil _).trans (fail_log c)
  | true =>
      cases maskOk c h with
      | false => exact (List.append_nil _).trans (fail_log c)
      | true =>
          have hs := unmaskPayload_state w c h hdr
          have hact' : wsLcActive (unmaskPayload w c h hdr) = true := by
            rw [wsLcActive, hs]
            exact hact
          exact (route_log hact').trans (pollLog_congr hs rfl rfl rfl)

/-- **The points of a poll**. -/
theorem poll_log (w : Nat) (c : WsConn) :
    (wsConnPoll w c).log = pollLog c (Libws.wsConnPoll w c) := by
  rw [wsConnPoll, Libws.wsConnPoll, log_ite]
  split
  · exact emit_log rfl _ _
  · cases frameReady w c with
    | none => simp [pollLog]
    | some r => exact dispatch_log

end Logs

/-! ### The points of one call -/

/-- The transitions of `lifecycle.c`, each with the text it is traced with. -/
def transitions : List (WsState × WsState × List UInt8) :=
  [(.connecting, .open, bytesOf "handshake"), (.open, .closing, bytesOf "send_close"),
   (.open, .closed, bytesOf "recv_close"), (.closing, .closed, bytesOf "recv_close")]

/-- At most one transition, and the point that records it. -/
inductive Moved : WsState → WsState → List TracePoint → Prop where
  | stay {s : WsState} : Moved s s []
  | step {s t : WsState} {why : List UInt8} : (s, t, why) ∈ transitions →
      Moved s t [.state s t why]

/-- The type, length and code of an event. -/
abbrev EventFields := WsEventType × UInt64 × UInt16

/-- What a poll reports, if it reports an event. -/
def pollEvents (w : Nat) (c : WsConn) : Call → List EventFields
  | .poll =>
    let p := Libws.wsConnPoll w c
    if p.ret = .none then [] else [(p.ret, UInt64.ofNat p.ev.len, p.ev.closeCode)]
  | _ => []

def EventFields.point (e : EventFields) : TracePoint := .event e.1 e.2.1 e.2.2

section Calls

variable {w : Nat} {c : WsConn}

theorem handshake_moved (c : WsConn) :
    Moved c.state (Libws.wsLcHandshake c).2.state (wsLcHandshake c).log := by
  rw [wsLcHandshake, Libws.wsLcHandshake, log_ite]
  split
  · exact .stay
  · rename_i hs
    rw [not_not.mp hs]
    exact .step (List.mem_cons_self ..)

theorem sendClose_moved (w : Nat) (c : WsConn) (key : MaskKey) (code : UInt16) (out : List UInt8) :
    Moved c.state (Libws.wsSendClose w c key code out).2.1.state
      (wsSendClose w c key code out).log := by
  rw [wsSendClose, Libws.wsSendClose]
  simp only [log_ite, log_bind, log_pure, List.append_nil]
  split
  · exact .stay
  · rename_i hs
    have hs := not_not.mp hs
    split
    · rw [wsLcSendClose, Libws.wsLcSendClose, if_neg (not_not.mpr hs), if_neg (not_not.mpr hs)]
      dsimp only
      rw [hs]
      exact .step (by simp [transitions])
    · exact .stay

/-- A poll leaves the state, or receives a close on a connection that is active. -/
theorem poll_moved (w : Nat) (c : WsConn) :
    let p := Libws.wsConnPoll w c
    Moved c.state p.conn.state (if p.conn.state = c.state then []
      else [.state c.state p.conn.state (bytesOf "recv_close")]) := by
  refine poll_shape (P := fun p => Moved c.state p.conn.state (if p.conn.state = c.state then []
    else [.state c.state p.conn.state (bytesOf "recv_close")])) w c (fun _ => ?_) (fun _ => ?_) ?_
  · rw [if_pos rfl]
    exact .stay
  · rw [if_pos rfl]
    exact .stay
  · intro p _ hs
    cases hs with
    | refuse | control | extend | deliver =>
        rw [if_pos rfl]
        exact .stay
    | close _ hact =>
        dsimp only
        rw [wsLcActive, decide_eq_true_iff] at hact
        rcases hact with hs | hs
        · rw [hs]
          exact .step (by simp [transitions])
        · rw [hs]
          exact .step (by simp [transitions])

/-- Only a close has a code. -/
theorem pollEvents_code {call : Call} {e : EventFields} (he : e ∈ pollEvents w c call) :
    e.1 = .close ∨ e.2.2 = 0 := by
  cases call with
  | «open» | recv | sendMessage | sendPong | sendClose => cases he
  | poll =>
      have hcode : (Libws.wsConnPoll w c).ret = .close ∨
          (Libws.wsConnPoll w c).ev.closeCode = 0 := by
        refine poll_shape (P := fun p => p.ret = .close ∨ p.ev.closeCode = 0) w c
          (fun _ => .inr rfl) (fun _ => .inr rfl) ?_
        intro p _ hs
        cases hs with
        | close => exact .inl rfl
        | refuse | control | extend | deliver => exact .inr rfl
      rw [pollEvents] at he
      split at he
      · cases he
      · obtain rfl := List.mem_singleton.mp he
        exact hcode

/-- **The points of a call**: the transition it makes, then the event it reports. -/
theorem exec_log (w : Nat) (c : WsConn) (call : Call) :
    ∃ moved, (exec w c call).log = moved ++ (pollEvents w c call).map EventFields.point ∧
      Moved c.state (Libws.exec w c call).state moved := by
  cases call with
  | recv bytes =>
      refine ⟨[], rfl, ?_⟩
      have hs : (Libws.exec w c (.recv bytes)).state = c.state := by
        rw [Libws.exec, wsConnRecv]
        split <;> rfl
      rw [hs]
      exact .stay
  | sendMessage | sendPong => exact ⟨[], rfl, .stay⟩
  | «open» => exact ⟨_, by simp [exec, wsConnOpen, pollEvents], handshake_moved c⟩
  | sendClose key code out =>
      exact ⟨_, by simp [exec, pollEvents], sendClose_moved w c key code out⟩
  | poll =>
      refine ⟨_, ?_, poll_moved w c⟩
      change (wsConnPoll w c).log ++ [] = _
      rw [List.append_nil, poll_log, pollLog, pollEvents]
      by_cases hnone : (Libws.wsConnPoll w c).ret = .none
      · simp [hnone]
      · simp [hnone, EventFields.point]

end Calls

/-! ### Runs -/

/-- The state a log leads to from `s`, if it is a chain of transitions. -/
def replay : WsState → List TracePoint → Option WsState
  | s, [] => some s
  | s, .state s' t why :: l => if s = s' ∧ (s', t, why) ∈ transitions then replay t l else none
  | s, .event .. :: l => replay s l
  | s, .io .. :: l => replay s l

/-- The events of a log. -/
def loggedEvents (l : List TracePoint) : List EventFields :=
  l.filterMap fun
    | .event t len closeCode => some (t, len, closeCode)
    | .state .. | .io .. => none

/-- A run of the debug build: the connection after it, and all its points. -/
def execAll (w : Nat) (c : WsConn) (calls : List Call) : Traced WsConn := calls.foldlM (exec w) c

/-- The points of one call, between those of others. -/
theorem replay_moved {s t : WsState} {moved l : List TracePoint} (h : Moved s t moved)
    (es : List EventFields) :
    replay s (moved ++ es.map EventFields.point ++ l) = replay t l := by
  have hev : ∀ es : List EventFields, replay t (es.map EventFields.point ++ l) = replay t l := by
    intro es
    induction es with
    | nil => rfl
    | cons e es ih => exact ih
  cases h with
  | stay => exact hev es
  | step hmem =>
      rw [List.append_assoc, List.singleton_append, replay, if_pos ⟨rfl, hmem⟩]
      exact hev es

theorem loggedEvents_append (l m : List TracePoint) :
    loggedEvents (l ++ m) = loggedEvents l ++ loggedEvents m := List.filterMap_append ..

theorem loggedEvents_moved {s t : WsState} {moved : List TracePoint} (h : Moved s t moved)
    (es : List EventFields) : loggedEvents (moved ++ es.map EventFields.point) = es := by
  have hev : loggedEvents (es.map EventFields.point) = es := by
    induction es with
    | nil => rfl
    | cons e es ih => exact congrArg (e :: ·) ih
  cases h with
  | stay => exact hev
  | step => exact hev

theorem whole_moved {s t : WsState} {moved : List TracePoint} (h : Moved s t moved) :
    ∀ p ∈ moved, p.Whole := by
  intro p hp
  cases h with
  | stay => cases hp
  | step hmem =>
      obtain rfl := List.mem_singleton.mp hp
      have hshort : ∀ x ∈ transitions, x.2.2.length ≤ 41 ∧ 10 ∉ x.2.2 := by decide +kernel
      exact ⟨trivial, hshort _ hmem⟩

theorem exec_whole (w : Nat) (c : WsConn) (call : Call) : ∀ p ∈ (exec w c call).log, p.Whole := by
  obtain ⟨moved, hlog, hmoved⟩ := exec_log w c call
  intro p hp
  rw [hlog] at hp
  rcases List.mem_append.mp hp with hp | hp
  · exact whole_moved hmoved p hp
  · obtain ⟨e, he, rfl⟩ := List.mem_map.mp hp
    exact ⟨trivial, trivial, pollEvents_code he⟩

/-- One run after another call. -/
theorem execAll_cons (w : Nat) (c : WsConn) (call : Call) (calls : List Call) :
    execAll w c (call :: calls) = exec w c call >>= fun c => execAll w c calls := rfl

/-- What the points of a run tell. -/
structure Tells (w : Nat) (c : WsConn) (calls : List Call) (r : Traced WsConn) : Prop where
  val : r.val = run (Libws.exec w) c calls
  whole : ∀ p ∈ r.log, p.Whole
  replay : replay c.state r.log = some r.val.state
  events : loggedEvents r.log = trace (Libws.exec w) (pollEvents w) c calls

theorem execAll_tells (w : Nat) (c : WsConn) (calls : List Call) :
    Tells w c calls (execAll w c calls) := by
  induction calls generalizing c with
  | nil => exact ⟨rfl, List.forall_mem_nil _, rfl, rfl⟩
  | cons call calls ih =>
      have h := ih (Libws.exec w c call)
      obtain ⟨moved, hlog, hmoved⟩ := exec_log w c call
      rw [execAll_cons]
      constructor
      · rw [val_bind, exec_val]
        exact h.val
      · intro p hp
        rw [log_bind, exec_val] at hp
        exact (List.mem_append.mp hp).elim (exec_whole w c call p) (h.whole p)
      · rw [log_bind, val_bind, exec_val, hlog, replay_moved hmoved]
        exact h.replay
      · rw [log_bind, exec_val, hlog, loggedEvents_append, loggedEvents_moved hmoved]
        exact congrArg (_ ++ ·) h.events

/-- **The debug build.**  Over any buffer and for all calls, a debug build ends in the same
connection as the default one.  Its trace points are whole, and what it writes to `stderr` can be
read in one way as whole trace points, its own; these are a chain of the transitions of the
lifecycle from `CONNECTING` to the state of the connection, with the type, length and code of each
event the polls reported, in order. -/
theorem debug_log (w : Nat) (role : WsRole) (buf : List UInt8) (calls : List Call) :
    let c := wsConnInit role buf
    let r := execAll w c calls
    r.val = run (Libws.exec w) c calls ∧ (∀ p ∈ r.log, p.Whole) ∧
      (∃ text, stderrOf r.log = some text ∧
        ∀ l : List TracePoint, (∀ p ∈ l, p.Whole) → stderrOf l = some text → l = r.log) ∧
      replay .connecting r.log = some r.val.state ∧
      loggedEvents r.log = trace (Libws.exec w) (pollEvents w) c calls := by
  intro c r
  have h : Tells w c calls r := execAll_tells w c calls
  refine ⟨h.val, h.whole, ⟨_, stderrOf_eq h.whole, fun l hl htext => ?_⟩, h.replay, h.events⟩
  exact stderrOf_inj hl h.whole (htext.trans (stderrOf_eq h.whole).symm)

end Libws.Debug
