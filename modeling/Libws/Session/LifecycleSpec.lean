import Mathlib.Logic.Relation
import Libws.Session.Calls

/-!
# Session — the driver refines `WsLifecycle`

`spec/WsLifecycle.tla` as a relation: its variables, the disjuncts of `Next` and the invariants,
under their names there.  The driver writes the same four variables among others, and one call may
take several of the specification's steps, or none.

* `Next.inv`: the specification keeps its invariants.
* `exec_refines`: **each call is a sequence of `Next` steps**.
* `lifecycle_refinement`: so every run keeps the invariants, and the lifecycle return codes the
  driver drops are all `WS_OK`.
-/

namespace Libws
open Libws.Support Relation

/-! ### The specification -/

/-- `vars`. -/
structure Vars where
  state : WsState
  frag : WsFrag
  sentClose : Bool
  rcvdClose : Bool
  deriving DecidableEq, Repr

/-- `Active`. -/
def Vars.Active (s : Vars) : Prop := s.state = .open ∨ s.state = .closing

/-- `Init`. -/
def Vars.init : Vars := ⟨.connecting, .none, false, false⟩

/-- `Next`, one constructor for each disjunct. -/
inductive Next : Vars → Vars → Prop where
  | handshake {s : Vars} : s.state = .connecting → Next s { s with state := .open }
  | sendClose {s : Vars} : s.state = .open →
      Next s { s with sentClose := true, state := .closing }
  | recvClose {s : Vars} : s.Active → s.rcvdClose = false →
      Next s { s with rcvdClose := true, sentClose := true, state := .closed, frag := .none }
  | startFrag {s : Vars} (t : WsFrag) : t = .text ∨ t = .bin → s.Active → s.frag = .none →
      Next s { s with frag := t }
  | finishFrag {s : Vars} : s.Active → s.frag ≠ .none → Next s { s with frag := .none }
  | terminated {s : Vars} : s.state = .closed → Next s s

/-- `INV1`, `INV2`, `INV3`, `INV5` and `INV6`. -/
structure Vars.Inv (s : Vars) : Prop where
  inv1 : s.state = .closed ↔ s.sentClose = true ∧ s.rcvdClose = true
  inv2 : s.frag ≠ .none → s.Active
  inv3 : s.state = .closed → s.frag = .none
  inv5 : s.state = .closing ↔ s.sentClose = true ∧ s.rcvdClose = false
  inv6 : s.state = .connecting → s.sentClose = false ∧ s.rcvdClose = false

/-- `Monotone`. -/
def Vars.Monotone (s s' : Vars) : Prop :=
  (s.sentClose = true → s'.sentClose = true) ∧ (s.rcvdClose = true → s'.rcvdClose = true)

/-- `FragStep`. -/
def Vars.FragStep (s s' : Vars) : Prop := s.frag ≠ s'.frag → s.frag = .none ∨ s'.frag = .none

/-- The invariants do not say that an open connection has received no close; `recvClose` needs
it. -/
structure Vars.Strong (s : Vars) : Prop extends s.Inv where
  open_fresh : s.state = .open → s.sentClose = false ∧ s.rcvdClose = false

theorem Vars.strong_init : Vars.init.Strong := by
  refine ⟨⟨?_, ?_, ?_, ?_, ?_⟩, ?_⟩ <;> simp [Vars.init]

/-- An active connection has received no close. -/
theorem Vars.Strong.rcvdClose {s : Vars} (h : s.Strong) (ha : s.Active) : s.rcvdClose = false := by
  rcases ha with ho | hc
  · exact (h.open_fresh ho).2
  · exact (h.inv5.mp hc).2

/-- **A step of the specification keeps the invariants.** -/
theorem Next.inv {s s' : Vars} (hn : Next s s') (h : s.Strong) : s'.Strong := by
  cases hn with
  | handshake hc =>
      obtain ⟨hs, hr⟩ := h.inv6 hc
      have hfrag : s.frag = .none := by
        by_contra hne
        rcases h.inv2 hne with ho | ho <;> rw [ho] at hc <;> cases hc
      refine ⟨⟨?_, ?_, ?_, ?_, ?_⟩, ?_⟩ <;> simp [hs, hr, hfrag, Vars.Active]
  | sendClose ho =>
      obtain ⟨hs, hr⟩ := h.open_fresh ho
      refine ⟨⟨?_, ?_, ?_, ?_, ?_⟩, ?_⟩ <;> simp [hr, Vars.Active]
  | recvClose => refine ⟨⟨?_, ?_, ?_, ?_, ?_⟩, ?_⟩ <;> simp
  | startFrag t _ ha =>
      have hne : s.state ≠ .closed := by rcases ha with ho | ho <;> simp [ho]
      exact ⟨⟨h.inv1, fun _ => ha, fun hc => absurd hc hne, h.inv5, h.inv6⟩, h.open_fresh⟩
  | finishFrag =>
      exact ⟨⟨h.inv1, fun hne => absurd rfl hne, fun _ => rfl, h.inv5, h.inv6⟩, h.open_fresh⟩
  | terminated => exact h

theorem Next.inv_steps {s s' : Vars} (hn : ReflTransGen Next s s') (h : s.Strong) : s'.Strong := by
  induction hn with
  | refl => exact h
  | tail _ hn ih => exact hn.inv ih

theorem Next.monotone {s s' : Vars} (hn : ReflTransGen Next s s') : s.Monotone s' := by
  induction hn with
  | refl => exact ⟨id, id⟩
  | tail _ hn ih =>
      cases hn with
      | handshake | startFrag | finishFrag | terminated => exact ih
      | sendClose => exact ⟨fun _ => rfl, ih.2⟩
      | recvClose => exact ⟨fun _ => rfl, fun _ => rfl⟩

/-! ### The driver -/

/-- The variables of the specification in a connection. -/
def WsConn.vars (c : WsConn) : Vars := ⟨c.state, c.frag, c.sentClose, c.rcvdClose⟩

/-- The lifecycle return codes a call drops with `(void)`; those of `ws_conn_open` apart. -/
def dropped (w : Nat) (c : WsConn) : Call → List WsStatus
  | .poll => (wsConnPoll w c).rcs
  | .sendClose key code out => (wsSendClose w c key code out).2.2
  | _ => []

theorem vars_active {c : WsConn} (h : wsLcActive c = true) : c.vars.Active := by
  simpa [wsLcActive, Vars.Active, WsConn.vars] using h

theorem WsFrag.text_or_bin {t : WsFrag} (h : t ≠ .none) : t = .text ∨ t = .bin := by
  cases t with
  | none => exact absurd rfl h
  | text => exact .inl rfl
  | bin => exact .inr rfl

/-- What a data frame does to `frag`: nothing, or `StartFrag`. -/
theorem Enters.steps {c : WsConn} {type : WsFrag} {rcs : List WsStatus} (he : Enters c type rcs)
    (ha : wsLcActive c = true) : ReflTransGen Next c.vars { c.vars with frag := type } := by
  rcases he.2 with ⟨rfl, -⟩ | ⟨hnone, -⟩
  · exact .refl
  · exact .single (.startFrag type (WsFrag.text_or_bin he.1) (vars_active ha) hnone)

/-- The steps of a poll that finds a frame. -/
theorem Shape.steps {c : WsConn} {p : Poll} (hs : Shape c p) (h : c.vars.Strong) :
    ReflTransGen Next c.vars p.conn.vars := by
  cases hs with
  | refuse =>
      -- `fail` writes `frag` itself; with a message in flight this is `FinishFrag`
      by_cases hf : c.frag = .none
      · have : c.vars = { c.vars with frag := .none } := by rw [← hf]; rfl
        exact this ▸ .refl
      · exact .single (.finishFrag (h.inv2 hf) hf)
  | control => exact .refl
  | close _ ha => exact .single (.recvClose (vars_active ha) (h.rcvdClose (vars_active ha)))
  | extend _ ha he => exact he.steps ha
  | deliver _ ha he => exact (he.steps ha).tail (.finishFrag (vars_active ha) he.1)

theorem poll_rcs (w : Nat) (c : WsConn) : ∀ rc ∈ (wsConnPoll w c).rcs, rc = .ok := by
  refine poll_shape (P := fun p => ∀ rc ∈ p.rcs, rc = .ok)
    w c (fun _ => by simp) (fun _ => by simp) ?_
  intro p _ hs
  cases hs with
  | refuse _ hok => exact hok
  | control | close => simp
  | extend _ _ he => rcases he.2 with ⟨-, rfl⟩ | ⟨-, rfl⟩ <;> simp
  | deliver _ _ he => rcases he.2 with ⟨-, rfl⟩ | ⟨-, rfl⟩ <;> simp

/-- **Each call is a sequence of `Next` steps.** -/
theorem exec_refines (w : Nat) {c : WsConn} (h : c.vars.Strong) (call : Call) :
    ReflTransGen Next c.vars (exec w c call).vars := by
  refine exec_shape (P := fun d => ReflTransGen Next c.vars d.vars) w c call .refl ?_ ?_
  · intro p _ hs
    exact hs.steps h
  · intro d hq
    cases hq with
    | same | recv => exact .refl
    | handshake hc => exact .single (.handshake hc)
    | sendClose ho => exact .single (.sendClose ho)

/-- A call moves `frag` from or to `NONE`. -/
theorem exec_fragStep (w : Nat) (c : WsConn) (call : Call) :
    c.vars.FragStep (exec w c call).vars := by
  refine exec_shape (P := fun d => c.vars.FragStep d.vars) w c call
    (fun hne => absurd rfl hne) ?_ ?_
  · intro p _ hs
    cases hs with
    | refuse | close | deliver => exact fun _ => .inr rfl
    | control => exact fun hne => absurd rfl hne
    | extend _ _ he =>
        intro hne
        rcases he.2 with ⟨heq, -⟩ | ⟨hnone, -⟩
        · exact absurd heq hne
        · exact .inl hnone
  · intro d hq
    cases hq with
    | same | recv | handshake | sendClose => exact fun hne => absurd rfl hne

theorem dropped_ok (w : Nat) (c : WsConn) (call : Call) : ∀ rc ∈ dropped w c call, rc = .ok := by
  cases call with
  | poll => exact poll_rcs w c
  | sendClose key code out =>
      rw [dropped, wsSendClose]
      split
      · simp
      · rename_i ho
        simp only
        split
        · simp [wsLcSendClose, ho]
        · simp
  | «open» | recv | sendMessage | sendPong => simp [dropped]

theorem strong_run (w : Nat) (role : WsRole) (buf : List UInt8) (calls : List Call) :
    (run (exec w) (wsConnInit role buf) calls).vars.Strong :=
  run_inv_all (P := fun c : WsConn => c.vars.Strong)
    (fun _ call h => Next.inv_steps (exec_refines w h call) h) calls Vars.strong_init

/-- **The driver refines the lifecycle specification.**  From every state a run reaches, every
call is a finite sequence of `Next` steps; the invariants hold there, the call keeps the close
bits and does not turn one message type into the other, and the return codes `ws_conn_poll` and
`ws_send_close` drop are `WS_OK`. -/
theorem lifecycle_refinement (w : Nat) (role : WsRole) (buf : List UInt8) (calls : List Call) :
    (wsConnInit role buf).vars = Vars.init ∧
    let c := run (exec w) (wsConnInit role buf) calls
    c.vars.Inv ∧ ∀ call,
      ReflTransGen Next c.vars (exec w c call).vars ∧
      c.vars.Monotone (exec w c call).vars ∧
      c.vars.FragStep (exec w c call).vars ∧
      ∀ rc ∈ dropped w c call, rc = .ok := by
  have hs := strong_run w role buf calls
  refine ⟨rfl, hs.toInv, fun call => ?_⟩
  have hn := exec_refines w hs call
  exact ⟨hn, Next.monotone hn, exec_fragStep w _ call, dropped_ok w _ call⟩

end Libws
