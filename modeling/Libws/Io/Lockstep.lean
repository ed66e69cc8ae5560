import Libws.Io.Steps

/-!
# Io — a client served by two servers

The handler follows a `Script`: what it sends depends on the event, and on the results of its own
sends, and goes to the connection the event is about.  Then what serving a client does is decided
by the slot of that client and by the results of its own reads and writes, whatever the rest of
the pool holds.

* `Twin`: two slots that differ in the descriptor at most.
* `serviceClient_lock`: serving twins goes in lockstep, and leaves twins behind.
-/

namespace Libws
open Libws.Support Prog

/-! ### What is compared -/

/-- What a client sees of a read and of a write. -/
inductive Result where
  | read (bytes : List UInt8)
  | wrote (n : Nat)
  deriving DecidableEq, Repr

def Act.result : (a : Act) → a.Answer → Option Result
  | .read _, r => some (.read r.val)
  | .write _ _, w => some (.wrote w.val)
  | .recv _, _ | .event _, _ | .close, _ => none

/-- What is done for clients, whatever their slots and descriptors. -/
def watch {n : Nat} : Watch (Req.Answer (n := n)) (Option Act) Result where
  view
    | .client _ _ a => some a
    | _ => none
  val
    | .client _ _ a, r => a.result r
    | .accept, _ | .refuse _, _ | .seat _ _, _ => none

/-- Whether a request has a result is seen in the request. -/
theorem watch_isSome {n m : Nat} (e : Req n) (e' : Req m) (r : e.Answer) (r' : e'.Answer)
    (h : watch.view e = watch.view e') : (watch.val e r).isSome = (watch.val e' r').isSome := by
  cases e with
  | accept | refuse | seat =>
      cases e' with
      | client => cases h
      | accept | refuse | seat => rfl
  | client i fd a =>
      cases e' with
      | accept | refuse | seat => cases h
      | client j fd' a' =>
          obtain rfl : a = a' := Option.some.inj h
          cases a <;> rfl

/-- What a handler sends on the connection of an event. -/
inductive Script where
  | done
  | send (m : Send) (k : Int → Script)

/-- A handler that sends what the script says, on connection `i`. -/
def Reply.Follows {n : Nat} {σ : Type} (i : Fin n) : Reply n σ → Script → Prop
  | .done _, .done => True
  | .send c m k, .send m' k' => c = i ∧ m = m' ∧ ∀ rc, (k rc).Follows i (k' rc)
  | .done _, .send .. => False
  | .send .., .done => False

theorem Reply.Follows.within {n : Nat} {σ : Type} {i : Fin n} {r : Reply n σ} {s : Script}
    (h : r.Follows i s) : r.Within (· = i) := by
  induction r generalizing s with
  | done => trivial
  | send c m k ih =>
      cases s with
      | done => exact h.elim
      | send m' k' => exact ⟨h.1, fun rc => ih rc (h.2.2 rc)⟩

/-- Slots that differ in the descriptor at most. -/
structure Twin (s s' : WsSlot) : Prop where
  used : s.used = s'.used
  isOpen : s.isOpen = s'.isOpen
  conn : s.conn = s'.conn
  msgBuf : s.msgBuf = s'.msgBuf
  hsbuf : s.hsbuf = s'.hsbuf
  hslen : s.hslen = s'.hslen

theorem twin_mk₀ (maxMessage fd fd' : Nat) (used : Bool) :
    Twin (.mk₀ maxMessage fd used) (.mk₀ maxMessage fd' used) := ⟨rfl, rfl, rfl, rfl, rfl, rfl⟩

theorem Twin.setConn {n m : Nat} {σ τ : Type} {io : WsIo n σ} {jo : WsIo m τ} {i : Fin n}
    {j : Fin m} (h : Twin (io.conns i) (jo.conns j)) (c : WsConn) :
    Twin ((io.setConn i c).conns i) ((jo.setConn j c).conns j) := by
  rw [WsIo.setConn_same, WsIo.setConn_same]
  exact ⟨h.used, h.isOpen, rfl, h.msgBuf, h.hsbuf, h.hslen⟩

theorem Twin.gather {s s' : WsSlot} (h : Twin s s') (bytes : List UInt8) :
    Twin (s.gather bytes) (s'.gather bytes) :=
  ⟨h.used, h.isOpen, h.conn, h.msgBuf, by simp only [WsSlot.gather, h.hsbuf, h.hslen],
    by simp only [WsSlot.gather, h.hslen]⟩

theorem Twin.request {s s' : WsSlot} (h : Twin s s') : s.request = s'.request := by
  rw [WsSlot.request, WsSlot.request, h.hsbuf, h.hslen]

/-! ### Writing -/

section Writing

variable {n m : Nat} {i : Fin n} {j : Fin m} {fd fd' : Nat}

/-- A request for one client and for the other. -/
theorem client_lock {a a' : Act} (h : a = a') :
    Lock watch watch (fun r r' => a.result r = a'.result r')
      (request (Req.client i fd a)) (request (Req.client j fd' a')) :=
  Lock.request (congrArg some h)

theorem writeLoop_lock (src : Source) (fuel : Nat) (buf : List UInt8) :
    Lock watch watch Eq (writeLoop i fd src fuel buf) (writeLoop j fd' src fuel buf) := by
  induction fuel generalizing buf with
  | zero => exact Lock.pure rfl
  | succ fuel ih =>
      cases buf with
      | nil => exact Lock.pure rfl
      | cons b bs =>
          refine (client_lock (a := .write src (b :: bs)) rfl).bind fun w w' hw => ?_
          obtain hw : w.val = w'.val := by simpa [Act.result] using hw
          rw [hw]
          split
          · exact Lock.pure rfl
          · exact ih _

theorem writeAll_lock (src : Source) (buf : List UInt8) :
    Lock watch watch Eq (writeAll i fd src buf) (writeAll j fd' src buf) :=
  writeLoop_lock src buf.length buf

theorem sendAccept_lock (accept : List UInt8) :
    Lock watch watch Eq (sendAccept i fd accept) (sendAccept j fd' accept) := by
  refine (writeAll_lock .handshake acceptPre).bind fun rc _ hrc => ?_
  subst hrc
  split
  · exact Lock.pure rfl
  · refine (writeAll_lock .handshake accept).bind fun rc _ hrc => ?_
    subst hrc
    split
    · exact Lock.pure rfl
    · exact writeAll_lock .handshake crlf2

end Writing

/-! ### Sending -/

section Sending

variable {n m : Nat} {σ τ : Type} {io : WsIo n σ} {jo : WsIo m τ} {i : Fin n} {j : Fin m}

theorem sendBuilt_lock (h : Twin (io.conns i) (jo.conns j)) (b : Built) :
    Lock watch watch Eq (sendBuilt io i b) (sendBuilt jo j b) := by
  rw [sendBuilt, sendBuilt, slotByConn_eq, slotByConn_eq, h.used]
  by_cases hu : (jo.conns j).used = true
  · simp only [if_pos hu]
    split
    · exact Lock.pure rfl
    · exact writeAll_lock .frame _
  · simp only [if_neg hu]
    exact Lock.pure rfl

/-- The same result, and twins. -/
def Alike (i : Fin n) (j : Fin m) {ρ : Type} (r : ρ × WsIo n σ) (r' : ρ × WsIo m τ) : Prop :=
  r.1 = r'.1 ∧ Twin (r.2.conns i) (r'.2.conns j)

theorem wsIoSend_lock (h : Twin (io.conns i) (jo.conns j)) (maxMessage : Nat) (s : Send) :
    Lock watch watch (Alike i j) (wsIoSend maxMessage io i s) (wsIoSend maxMessage jo j s) := by
  cases s with
  | message key op payload =>
      rw [wsIoSend, wsIoSend, wsIoSendMessage, wsIoSendMessage, h.conn]
      exact (sendBuilt_lock h _).bind fun rc rc' hrc => Lock.pure ⟨hrc, h⟩
  | pong key payload =>
      rw [wsIoSend, wsIoSend, wsIoSendPong, wsIoSendPong, h.conn]
      exact (sendBuilt_lock h _).bind fun rc rc' hrc => Lock.pure ⟨hrc, h⟩
  | close key code =>
      rw [wsIoSend, wsIoSend, wsIoSendClose, wsIoSendClose, h.conn]
      exact (sendBuilt_lock (h.setConn _) _).bind fun rc rc' hrc => Lock.pure ⟨hrc, h.setConn _⟩

/-- Handlers that follow one script. -/
theorem reply_lock (h : Twin (io.conns i) (jo.conns j)) {maxMessage : Nat} {s : Script}
    {r : Reply n σ} {r' : Reply m τ} (hr : r.Follows i s) (hr' : r'.Follows j s) :
    Lock watch watch (fun io jo => Twin (io.conns i) (jo.conns j)) (reply maxMessage io r)
      (reply maxMessage jo r') := by
  induction s generalizing io jo r r' with
  | done =>
      cases r with
      | send => exact hr.elim
      | done a =>
          cases r' with
          | send => exact hr'.elim
          | done a' => exact Lock.pure h
  | send m k ih =>
      cases r with
      | done => exact hr.elim
      | send c m₁ k₁ =>
          cases r' with
          | done => exact hr'.elim
          | send c' m₂ k₂ =>
              obtain ⟨rfl, rfl, hk₁⟩ := hr
              obtain ⟨rfl, rfl, hk₂⟩ := hr'
              refine (wsIoSend_lock h maxMessage _).bind ?_
              rintro ⟨rc, io₁⟩ ⟨rc', jo₁⟩ ⟨hrc, htwin⟩
              obtain rfl : rc = rc' := hrc
              exact ih rc htwin (hk₁ rc) (hk₂ rc)

end Sending

/-! ### Serving -/

section Serving

variable {σ τ : Type} {sv : Server σ} {tv : Server τ} {io : WsIo sv.maxConns σ}
  {jo : WsIo tv.maxConns τ} {i : Fin sv.maxConns} {j : Fin tv.maxConns} {script : Event → Script}

/-- Two servers of one build and role, whose handlers follow one script. -/
structure Peers (sv : Server σ) (tv : Server τ) (script : Event → Script) : Prop where
  role : sv.role = tv.role
  maxMessage : sv.maxMessage = tv.maxMessage
  follows : ∀ a i ev, (sv.onEvent a i ev).Follows i (script ev)
  follows' : ∀ a i ev, (tv.onEvent a i ev).Follows i (script ev)

theorem onEvent_lock (hp : Peers sv tv script) (h : Twin (io.conns i) (jo.conns j)) (ev : Event) :
    Lock watch watch (fun io jo => Twin (io.conns i) (jo.conns j)) (onEvent sv io i ev)
      (onEvent tv jo j ev) := by
  refine (client_lock (a := .event ev) rfl).bind fun _ _ _ => ?_
  rw [hp.maxMessage]
  exact reply_lock h (hp.follows _ _ _) (hp.follows' _ _ _)

theorem drainLoop_lock (hp : Peers sv tv script) (h : Twin (io.conns i) (jo.conns j))
    (fuel : Nat) :
    Lock watch watch (Alike i j) (drainLoop sv i fuel io) (drainLoop tv j fuel jo) := by
  induction fuel generalizing io jo with
  | zero => exact Lock.pure ⟨rfl, h⟩
  | succ fuel ih =>
      rw [drainLoop, drainLoop, h.conn]
      split
      · exact Lock.pure ⟨rfl, h.setConn _⟩
      · refine (onEvent_lock hp (h.setConn _) _).bind fun io₁ jo₁ h₁ => ?_
        split
        · exact Lock.pure ⟨rfl, h₁⟩
        · exact ih h₁

theorem drainEvents_lock (hp : Peers sv tv script) (h : Twin (io.conns i) (jo.conns j)) :
    Lock watch watch (Alike i j) (drainEvents sv io i) (drainEvents tv jo j) := by
  rw [drainEvents, drainEvents, h.conn]
  exact drainLoop_lock hp h _

theorem feed_lock (hp : Peers sv tv script) (h : Twin (io.conns i) (jo.conns j))
    (bytes : List UInt8) :
    Lock watch watch (Alike i j) (feed sv io i bytes) (feed tv jo j bytes) := by
  rw [feed, feed, h.conn]
  split
  · refine (client_lock (a := .recv bytes) rfl).bind fun _ _ _ => ?_
    dsimp only
    split
    · exact Lock.pure ⟨rfl, h.setConn _⟩
    · exact drainEvents_lock hp (h.setConn _)
  · exact drainEvents_lock hp h

theorem finishHandshake_lock (hp : Peers sv tv script) (h : Twin (io.conns i) (jo.conns j))
    (pos : Nat) :
    Lock watch watch (Alike i j) (finishHandshake sv io i pos) (finishHandshake tv jo j pos) := by
  cases hkey : computeAccept ((jo.conns j).hsbuf.take pos) with
  | none =>
      rw [finishHandshake_none (by rw [h.hsbuf]; exact hkey), finishHandshake_none hkey]
      exact Lock.pure ⟨rfl, h⟩
  | some accept =>
      rw [finishHandshake_some (by rw [h.hsbuf]; exact hkey), finishHandshake_some hkey]
      refine (sendAccept_lock accept).bind fun rc _ hrc => ?_
      subst hrc
      split
      · exact Lock.pure ⟨rfl, h⟩
      · rw [h.hsbuf, h.hslen]
        refine feed_lock hp ?_ _
        rw [WsIo.set_same, WsIo.set_same, hp.role]
        exact ⟨h.used, rfl, by rw [h.msgBuf], h.msgBuf, h.hsbuf, h.hslen⟩

theorem handshakeStep_lock (hp : Peers sv tv script) (h : Twin (io.conns i) (jo.conns j)) :
    Lock watch watch (Alike i j) (handshakeStep sv io i) (handshakeStep tv jo j) := by
  cases hfind : findSub (jo.conns j).request crlf2 with
  | none =>
      rw [handshakeStep_none (by rw [h.request]; exact hfind), handshakeStep_none hfind, h.hslen]
      exact Lock.pure ⟨rfl, h⟩
  | some pos =>
      rw [handshakeStep_some (by rw [h.request]; exact hfind), handshakeStep_some hfind]
      exact finishHandshake_lock hp h pos

theorem onHandshakeData_lock (hp : Peers sv tv script) (h : Twin (io.conns i) (jo.conns j)) :
    Lock watch watch (Alike i j) (onHandshakeData sv io i) (onHandshakeData tv jo j) := by
  have hroom : Act.read (hsCap - (io.conns i).hslen) = .read (hsCap - (jo.conns j).hslen) := by
    rw [h.hslen]
  refine (client_lock hroom).bind fun r r' hr => ?_
  obtain hr : r.val = r'.val := by simpa [Act.result] using hr
  rw [hr]
  split
  · exact Lock.pure ⟨rfl, h⟩
  · refine handshakeStep_lock hp ?_
    rw [WsIo.set_same, WsIo.set_same]
    exact h.gather r'.val

theorem onClientData_lock (hp : Peers sv tv script) (h : Twin (io.conns i) (jo.conns j)) :
    Lock watch watch (Alike i j) (onClientData sv io i) (onClientData tv jo j) := by
  rw [onClientData, onClientData, h.isOpen]
  split
  · exact onHandshakeData_lock hp h
  · refine (client_lock (a := .read chunkCap) rfl).bind fun r r' hr => ?_
    obtain hr : r.val = r'.val := by simpa [Act.result] using hr
    rw [hr]
    split
    · exact Lock.pure ⟨rfl, h⟩
    · exact feed_lock hp h _

/-- **Serving twins** goes in lockstep, and leaves twins behind. -/
theorem serviceClient_lock (hp : Peers sv tv script) (h : Twin (io.conns i) (jo.conns j)) :
    Lock watch watch (fun io jo => Twin (io.conns i) (jo.conns j)) (serviceClient sv io i)
      (serviceClient tv jo j) := by
  refine (onClientData_lock hp h).bind ?_
  rintro ⟨rc, io₁⟩ ⟨rc', jo₁⟩ ⟨hrc, h₁⟩
  obtain rfl : rc = rc' := hrc
  cases rc with
  | false => exact Lock.pure h₁
  | true =>
      refine (client_lock (a := .close) rfl).bind fun _ _ _ => Lock.pure ?_
      rw [WsIo.set_same, WsIo.set_same]
      exact ⟨rfl, h₁.isOpen, h₁.conn, h₁.msgBuf, h₁.hsbuf, h₁.hslen⟩

end Serving

end Libws
