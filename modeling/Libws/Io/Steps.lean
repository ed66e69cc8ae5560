import Libws.Io.Server
import Libws.Session.Closing

/-!
# Io — what the loop can do

`Serve sv T i` lists what can happen while the loop serves slot `i`: the state before, what is
shown, and the state after.  `T` are the connections the handler sends on.  `Step` adds the
accepting of clients.  A call of the loop is a sequence of these steps:

* `serviceClient_trail`: serving a slot that is in use;
* `runLoop_trail`: any number of ready descriptors.

So what each step keeps holds in every run (`Trail.inv`).
-/

namespace Libws
open Libws.Support Prog

/-! ### Writing -/

/-- The calls of `write_all` for `buf`, and its result: each call offers what is left, and the
first that writes nothing ends it. -/
inductive Writes {n : Nat} (i : Fin n) (fd : Nat) (src : Source) :
    List UInt8 → Trace n → Int → Prop where
  | done : Writes i fd src [] [] 0
  | fail {buf : List UInt8} {w : { w : Nat // w ≤ buf.length }} : buf ≠ [] → w.val = 0 →
      Writes i fd src buf [⟨.client i fd (.write src buf), w⟩] (-1)
  | more {buf : List UInt8} {w : { w : Nat // w ≤ buf.length }} {t : Trace n} {rc : Int} :
      buf ≠ [] → 0 < w.val → Writes i fd src (buf.drop w.val) t rc →
      Writes i fd src buf (⟨.client i fd (.write src buf), w⟩ :: t) rc

section Writing

variable {n : Nat} {i : Fin n} {fd : Nat} {src : Source} {t : Trace n} {rc : Int}

theorem writeLoop_writes {fuel : Nat} {buf : List UInt8} (hfuel : buf.length ≤ fuel)
    (h : Runs (writeLoop i fd src fuel buf) t rc) : Writes i fd src buf t rc := by
  induction fuel generalizing buf t with
  | zero =>
      obtain rfl : buf = [] := List.length_eq_zero_iff.mp (by omega)
      obtain ⟨rfl, rfl⟩ := runs_pure.mp h
      exact .done
  | succ fuel ih =>
      cases buf with
      | nil =>
          obtain ⟨rfl, rfl⟩ := runs_pure.mp h
          exact .done
      | cons b bs =>
          obtain ⟨w, t₁, t₂, rfl, hw, hk⟩ := runs_bind.mp h
          obtain rfl := runs_request.mp hw
          split at hk
          · rename_i hzero
            obtain ⟨rfl, rfl⟩ := runs_pure.mp hk
            exact .fail (List.cons_ne_nil b bs) hzero
          · rename_i hpos
            refine .more (List.cons_ne_nil b bs) (Nat.pos_of_ne_zero hpos) (ih ?_ hk)
            rw [List.length_drop]
            omega

theorem writeAll_writes {buf : List UInt8} (h : Runs (writeAll i fd src buf) t rc) :
    Writes i fd src buf t rc :=
  writeLoop_writes (Nat.le_refl _) h

/-- The calls of `send_accept` for the answer with `accept`: they stop at the first part of the
response that is not written in full. -/
inductive Answers {n : Nat} (i : Fin n) (fd : Nat) (accept : List UInt8) : Trace n → Int → Prop
  | pre {t : Trace n} {rc : Int} : Writes i fd .handshake acceptPre t rc → rc ≠ 0 →
      Answers i fd accept t (-1)
  | accept {t u : Trace n} {rc : Int} : Writes i fd .handshake acceptPre t 0 →
      Writes i fd .handshake accept u rc → rc ≠ 0 → Answers i fd accept (t ++ u) (-1)
  | blank {t u v : Trace n} {rc : Int} : Writes i fd .handshake acceptPre t 0 →
      Writes i fd .handshake accept u 0 → Writes i fd .handshake crlf2 v rc →
      Answers i fd accept (t ++ u ++ v) rc

theorem sendAccept_answers {accept : List UInt8} (h : Runs (sendAccept i fd accept) t rc) :
    Answers i fd accept t rc := by
  obtain ⟨rc₁, t₁, t₂, rfl, h₁, hk⟩ := runs_bind.mp h
  have hw₁ := writeAll_writes h₁
  split at hk
  · rename_i hne
    obtain ⟨rfl, rfl⟩ := runs_pure.mp hk
    rw [List.append_nil]
    exact .pre hw₁ hne
  · rename_i hz₁
    rw [not_not] at hz₁
    subst hz₁
    obtain ⟨rc₂, u, v, rfl, h₂, hv⟩ := runs_bind.mp hk
    have hw₂ := writeAll_writes h₂
    split at hv
    · rename_i hne
      obtain ⟨rfl, rfl⟩ := runs_pure.mp hv
      rw [List.append_nil]
      exact .accept hw₁ hw₂ hne
    · rename_i hz₂
      rw [not_not] at hz₂
      subst hz₂
      rw [← List.append_assoc]
      exact .blank hw₁ hw₂ (writeAll_writes hv)

end Writing

/-! ### The pool -/

section Lookup

variable {n : Nat} {σ : Type} {io : WsIo n σ} {i : Fin n}

@[simp] theorem WsIo.set_same (io : WsIo n σ) (i : Fin n) (s : WsSlot) :
    (io.set i s).conns i = s := Function.update_self ..

theorem WsIo.set_other (io : WsIo n σ) {i j : Fin n} (s : WsSlot) (h : j ≠ i) :
    (io.set i s).conns j = io.conns j := Function.update_of_ne h ..

theorem WsIo.set_set (io : WsIo n σ) (i : Fin n) (s s' : WsSlot) :
    (io.set i s).set i s' = io.set i s' := by
  simp [WsIo.set]

@[simp] theorem WsIo.setConn_same (io : WsIo n σ) (i : Fin n) (c : WsConn) :
    (io.setConn i c).conns i = { io.conns i with conn := c } := io.set_same ..

theorem allocSlot_some (h : allocSlot io = some i) : (io.conns i).used = false := by
  simpa using List.find?_some h

theorem slotByFd_some {fd : Nat} (h : slotByFd io fd = some i) :
    (io.conns i).used = true ∧ (io.conns i).fd = fd := by
  have := List.find?_some h
  simpa [slotHasFd] using this

/-- A connection of a slot that is not in use is found nowhere. -/
theorem slotByConn_eq (io : WsIo n σ) (c : Fin n) :
    slotByConn io c = if (io.conns c).used then some c else none := by
  have hat : ∀ i, slotHasConn (io.conns i) i c = true ↔ (io.conns i).used = true ∧ i = c := by
    simp [slotHasConn]
  rw [slotByConn]
  split
  · rename_i hu
    cases hf : (List.finRange n).find? fun i => slotHasConn (io.conns i) i c with
    | none =>
        exact absurd ((hat c).mpr ⟨hu, rfl⟩) (List.find?_eq_none.mp hf c (List.mem_finRange c))
    | some i =>
        have hi : slotHasConn (io.conns i) i c = true := by simpa using List.find?_some hf
        rw [((hat i).mp hi).2]
  · rename_i hu
    refine List.find?_eq_none.mpr fun i _ h => ?_
    obtain ⟨hi, rfl⟩ := (hat i).mp h
    exact hu hi

end Lookup

/-! ### Steps -/

/-- The bytes of the request in a slot. -/
def WsSlot.request (s : WsSlot) : List UInt8 := s.hsbuf.take s.hslen

/-- A slot with `bytes` behind its request. -/
def WsSlot.gather (s : WsSlot) (bytes : List UInt8) : WsSlot :=
  { s with hsbuf := splice s.hsbuf s.hslen bytes, hslen := s.hslen + bytes.length }

/-- What a call of `ws_send_*` builds. -/
inductive BuiltBySend : Built → Prop where
  | message (c : WsConn) (key : MaskKey) (op : WsOpcode) (payload out : List UInt8) :
      BuiltBySend (wsSendMessage 64 c key op payload out)
  | pong (c : WsConn) (key : MaskKey) (payload out : List UInt8) :
      BuiltBySend (wsSendPong 64 c key payload out)
  | close (c : WsConn) (key : MaskKey) (code : UInt16) (out : List UInt8) :
      BuiltBySend (wsSendClose 64 c key code out).1

/-- A frame that `ws_send_*` built. -/
def IsSentFrame (bytes : List UInt8) : Prop :=
  ∃ b, BuiltBySend b ∧ 0 < b.n ∧ bytes = b.out.take b.n

/-- A send of the handler stays with the connections `T`. -/
def Reply.Within {n : Nat} {σ : Type} (T : Fin n → Prop) : Reply n σ → Prop
  | .done _ => True
  | .send c _ k => T c ∧ ∀ rc, (k rc).Within T

section Steps

variable {σ : Type} (sv : Server σ)

/-- The connection of an upgraded client, with the bytes that came behind the request, and how
they are shown to be received. -/
def upgraded (s : WsSlot) (rest : List UInt8) : WsSlot :=
  let c := wsConnOpen (wsConnInit sv.role s.msgBuf)
  { s with isOpen := true, conn := if rest = [] then c else (wsConnRecv 64 c rest).2 }

def recvd {n : Nat} (i : Fin n) (fd : Nat) (rest : List UInt8) : Trace n :=
  if rest = [] then [] else [⟨.client i fd (.recv rest), ()⟩]

/-- Why a client is dropped before it is upgraded, after the bytes `r` were read and `t` was
written: nothing was read, the request is too large or has no key, or a write failed. -/
inductive Rejected {n : Nat} (i : Fin n) (s : WsSlot) (r : List UInt8) : Trace n → Prop where
  | ended : r = [] → Rejected i s r []
  | large : findSub (s.gather r).request crlf2 = none → hsCap ≤ (s.gather r).hslen →
      Rejected i s r []
  | keyless {pos : Nat} : findSub (s.gather r).request crlf2 = some pos →
      computeAccept ((s.gather r).hsbuf.take pos) = none → Rejected i s r []
  | unwritten {accept : List UInt8} {t : Trace n} {rc : Int} {pos : Nat} :
      Answers i s.fd accept t rc → rc ≠ 0 → findSub (s.gather r).request crlf2 = some pos →
      computeAccept ((s.gather r).hsbuf.take pos) = some accept → Rejected i s r t

/-- What can happen while slot `i` is served. -/
inductive Serve (T : Fin sv.maxConns → Prop) (i : Fin sv.maxConns) :
    WsIo sv.maxConns σ → Trace sv.maxConns → WsIo sv.maxConns σ → Prop where
  | app {io : WsIo sv.maxConns σ} {a : σ} : Serve T i io [] { io with app := a }
  | sendClose {io : WsIo sv.maxConns σ} {j : Fin sv.maxConns} : T j →
      (io.conns j).conn.state = .open →
      Serve T i io [] (io.setConn j { (io.conns j).conn with
        sentClose := true, state := .closing })
  | frame {io : WsIo sv.maxConns σ} {j : Fin sv.maxConns} {bytes : List UInt8}
      {t : Trace sv.maxConns} {rc : Int} : T j → (io.conns j).used = true →
      wsLcActive (io.conns j).conn = true → Writes j (io.conns j).fd .frame bytes t rc →
      IsSentFrame bytes → Serve T i io t io
  | poll {io : WsIo sv.maxConns σ} : (io.conns i).used = true → (io.conns i).isOpen = true →
      Serve T i io [] (io.setConn i (wsConnPoll 64 (io.conns i).conn).conn)
  | event {io : WsIo sv.maxConns σ} {ev : Event} : (io.conns i).used = true →
      (io.conns i).isOpen = true →
      Serve T i io [⟨.client i (io.conns i).fd (.event ev), ()⟩] io
  | eof {io : WsIo sv.maxConns σ} {r : { bs : List UInt8 // bs.length ≤ chunkCap }} :
      (io.conns i).used = true → (io.conns i).isOpen = true → r.val = [] →
      Serve T i io [⟨.client i (io.conns i).fd (.read chunkCap), r⟩] io
  | pump {io : WsIo sv.maxConns σ} {r : { bs : List UInt8 // bs.length ≤ chunkCap }} :
      (io.conns i).used = true → (io.conns i).isOpen = true → r.val ≠ [] →
      Serve T i io [⟨.client i (io.conns i).fd (.read chunkCap), r⟩,
          ⟨.client i (io.conns i).fd (.recv r.val), ()⟩]
        (io.setConn i (wsConnRecv 64 (io.conns i).conn r.val).2)
  | close {io : WsIo sv.maxConns σ} : (io.conns i).used = true → (io.conns i).isOpen = true →
      Serve T i io [⟨.client i (io.conns i).fd .close, ()⟩]
        (io.set i { io.conns i with used := false })
  | wait {io : WsIo sv.maxConns σ}
      {r : { bs : List UInt8 // bs.length ≤ hsCap - (io.conns i).hslen }} :
      (io.conns i).used = true → (io.conns i).isOpen = false → r.val ≠ [] →
      findSub ((io.conns i).gather r.val).request crlf2 = none →
      ((io.conns i).gather r.val).hslen < hsCap →
      Serve T i io [⟨.client i (io.conns i).fd (.read (hsCap - (io.conns i).hslen)), r⟩]
        (io.set i ((io.conns i).gather r.val))
  | upgrade {io : WsIo sv.maxConns σ}
      {r : { bs : List UInt8 // bs.length ≤ hsCap - (io.conns i).hslen }} {pos : Nat}
      {accept rest : List UInt8} {t : Trace sv.maxConns} :
      (io.conns i).used = true → (io.conns i).isOpen = false → r.val ≠ [] →
      findSub ((io.conns i).gather r.val).request crlf2 = some pos →
      computeAccept (((io.conns i).gather r.val).hsbuf.take pos) = some accept →
      Answers i (io.conns i).fd accept t 0 →
      rest = slice ((io.conns i).gather r.val).hsbuf (pos + 4)
        (((io.conns i).gather r.val).hslen - (pos + 4)) →
      Serve T i io (⟨.client i (io.conns i).fd (.read (hsCap - (io.conns i).hslen)), r⟩ :: t
          ++ recvd i (io.conns i).fd rest)
        (io.set i (upgraded sv ((io.conns i).gather r.val) rest))
  | quit {io : WsIo sv.maxConns σ}
      {r : { bs : List UInt8 // bs.length ≤ hsCap - (io.conns i).hslen }}
      {t : Trace sv.maxConns} {s : WsSlot} :
      (io.conns i).used = true → (io.conns i).isOpen = false → Rejected i (io.conns i) r.val t →
      s.used = false → s.fd = (io.conns i).fd →
      Serve T i io (⟨.client i (io.conns i).fd (.read (hsCap - (io.conns i).hslen)), r⟩ :: t
          ++ [⟨.client i (io.conns i).fd .close, ()⟩]) (io.set i s)

/-- What can happen when the listener is ready. -/
inductive Arrival : WsIo sv.maxConns σ → Trace sv.maxConns → WsIo sv.maxConns σ → Prop where
  | failed {io : WsIo sv.maxConns σ} : Arrival io [⟨.accept, none⟩] io
  | refuse {io : WsIo sv.maxConns σ} {fd : Nat} : allocSlot io = none →
      Arrival io [⟨.accept, some fd⟩, ⟨.refuse fd, ()⟩] io
  | seat {io : WsIo sv.maxConns σ} {i : Fin sv.maxConns} {fd : Nat} : allocSlot io = some i →
      Arrival io [⟨.accept, some fd⟩, ⟨.seat i fd, ()⟩] (io.set i (.mk₀ sv.maxMessage fd true))

/-- What can happen in the loop, when the handler of an event of `i` sends on `T i` only. -/
inductive Step (T : Fin sv.maxConns → Fin sv.maxConns → Prop) :
    WsIo sv.maxConns σ → Trace sv.maxConns → WsIo sv.maxConns σ → Prop where
  | accept {io io' : WsIo sv.maxConns σ} {t : Trace sv.maxConns} :
      Arrival sv io t io' → Step T io t io'
  | serve {io io' : WsIo sv.maxConns σ} {t : Trace sv.maxConns} (i : Fin sv.maxConns) :
      Serve sv (T i) i io t io' → Step T io t io'

end Steps

/-! ### The loop takes these steps -/

/-- Only connections differ. -/
def Recon {n : Nat} {σ : Type} (io io' : WsIo n σ) : Prop :=
  ∀ j, ∃ c, io'.conns j = { io.conns j with conn := c }

section Recon

variable {n : Nat} {σ : Type} {io io₁ io₂ : WsIo n σ}

theorem Recon.refl (io : WsIo n σ) : Recon io io := fun j => ⟨(io.conns j).conn, rfl⟩

theorem Recon.trans (h : Recon io io₁) (h' : Recon io₁ io₂) : Recon io io₂ := by
  intro j
  obtain ⟨c, hc⟩ := h j
  obtain ⟨c', hc'⟩ := h' j
  exact ⟨c', by rw [hc', hc]⟩

theorem Recon.setConn (io : WsIo n σ) (i : Fin n) (c : WsConn) : Recon io (io.setConn i c) := by
  intro j
  by_cases hj : j = i
  · subst hj
    exact ⟨c, io.setConn_same j c⟩
  · exact ⟨(io.conns j).conn, io.set_other _ hj⟩

theorem Recon.used (h : Recon io io₁) (j : Fin n) : (io₁.conns j).used = (io.conns j).used := by
  obtain ⟨c, hc⟩ := h j
  rw [hc]

theorem Recon.isOpen (h : Recon io io₁) (j : Fin n) :
    (io₁.conns j).isOpen = (io.conns j).isOpen := by
  obtain ⟨c, hc⟩ := h j
  rw [hc]

theorem WsIo.setConn_self (io : WsIo n σ) (i : Fin n) : io.setConn i (io.conns i).conn = io := by
  simp [WsIo.setConn, WsIo.set]

end Recon

section Refinement

variable {σ : Type} {sv : Server σ} {T : Fin sv.maxConns → Prop} {i : Fin sv.maxConns}
  {io : WsIo sv.maxConns σ} {t : Trace sv.maxConns}

/-- A frame is written only to a slot that is in use. -/
theorem sendBuilt_runs {c : Fin sv.maxConns} {b : Built} {rc : Int}
    (h : Runs (sendBuilt io c b) t rc) : t = [] ∨ (io.conns c).used = true ∧ 0 < b.n ∧
      Writes c (io.conns c).fd .frame (b.out.take b.n) t rc := by
  rw [sendBuilt, slotByConn_eq] at h
  split at h
  · exact .inl (runs_pure.mp h).1
  · rename_i j hj
    split at hj
    · rename_i hu
      cases hj
      split at h
      · exact .inl (runs_pure.mp h).1
      · rename_i hn
        exact .inr ⟨hu, Nat.pos_of_ne_zero hn, writeAll_writes h⟩
    · cases hj

/-- Writing a frame that was built while the connection was active. -/
theorem sendBuilt_trail {c : Fin sv.maxConns} {b : Built} {rc : Int} (hT : T c)
    (hb : BuiltBySend b) (hact : 0 < b.n → wsLcActive (io.conns c).conn = true)
    (h : Runs (sendBuilt io c b) t rc) : Trail (Serve sv T i) io t io := by
  rcases sendBuilt_runs h with rfl | ⟨hu, hn, hw⟩
  · exact .refl io
  · exact .single (.frame hT hu (hact hn) hw ⟨b, hb, hn, rfl⟩)

theorem wsSendMessage_pos {w : Nat} {c : WsConn} {key : MaskKey} {op : WsOpcode}
    {payload out : List UInt8} (h : 0 < (wsSendMessage w c key op payload out).n) :
    wsLcActive c = true := by
  by_contra hno
  rw [Bool.not_eq_true] at hno
  rw [wsSendMessage_inactive hno] at h
  exact absurd h (Nat.lt_irrefl 0)

theorem wsSendPong_pos {w : Nat} {c : WsConn} {key : MaskKey} {payload out : List UInt8}
    (h : 0 < (wsSendPong w c key payload out).n) : wsLcActive c = true := by
  by_contra hno
  rw [Bool.not_eq_true] at hno
  rw [wsSendPong_inactive hno] at h
  exact absurd h (Nat.lt_irrefl 0)

/-- A send of the handler. -/
theorem wsIoSend_trail {c : Fin sv.maxConns} {m : Send} {r : Int × WsIo sv.maxConns σ} (hT : T c)
    (h : Runs (wsIoSend sv.maxMessage io c m) t r) :
    Trail (Serve sv T i) io t r.2 ∧ Recon io r.2 := by
  cases m with
  | message key op payload =>
      obtain ⟨rc, t₁, t₂, rfl, h₁, hk⟩ := runs_bind.mp h
      obtain ⟨rfl, rfl⟩ := runs_pure.mp hk
      rw [List.append_nil]
      exact ⟨sendBuilt_trail hT (.message ..) wsSendMessage_pos h₁, .refl io⟩
  | pong key payload =>
      obtain ⟨rc, t₁, t₂, rfl, h₁, hk⟩ := runs_bind.mp h
      obtain ⟨rfl, rfl⟩ := runs_pure.mp hk
      rw [List.append_nil]
      exact ⟨sendBuilt_trail hT (.pong ..) wsSendPong_pos h₁, .refl io⟩
  | close key code =>
      obtain ⟨rc, t₁, t₂, rfl, h₁, hk⟩ := runs_bind.mp h
      obtain ⟨rfl, rfl⟩ := runs_pure.mp hk
      rw [List.append_nil]
      refine ⟨?_, .setConn io c _⟩
      have hb : BuiltBySend (wsSendClose 64 (io.conns c).conn key code (List.replicate 32 0)).1 :=
        .close ..
      rcases wsSendClose_cases 64 (io.conns c).conn key code (List.replicate 32 0)
        with ⟨hz, hc⟩ | ⟨-, ho, hc⟩
      · simp only [hc, WsIo.setConn_self] at h₁ ⊢
        exact sendBuilt_trail hT hb (fun hn => by omega) h₁
      · simp only [hc] at h₁ ⊢
        have hclose : Serve sv T i io [] (io.setConn c { (io.conns c).conn with
            sentClose := true, state := .closing }) := .sendClose hT ho
        refine (Trail.single hclose).trans (sendBuilt_trail hT hb (fun _ => ?_) h₁)
        rw [WsIo.setConn_same]
        rfl

theorem reply_trail {r : Reply sv.maxConns σ} {io' : WsIo sv.maxConns σ} (hr : r.Within T)
    (h : Runs (reply sv.maxMessage io r) t io') :
    Trail (Serve sv T i) io t io' ∧ Recon io io' := by
  induction r generalizing io t with
  | done app =>
      obtain ⟨rfl, rfl⟩ := runs_pure.mp h
      exact ⟨.single .app, .refl io⟩
  | send c m k ih =>
      obtain ⟨r, t₁, t₂, rfl, h₁, hk⟩ := runs_bind.mp h
      obtain ⟨htrail, hrecon⟩ := wsIoSend_trail (i := i) hr.1 h₁
      obtain ⟨htrail', hrecon'⟩ := ih r.1 (hr.2 r.1) hk
      exact ⟨htrail.trans htrail', hrecon.trans hrecon'⟩

theorem onEvent_trail {ev : Event} {io' : WsIo sv.maxConns σ}
    (hT : ∀ a ev, (sv.onEvent a i ev).Within T) (hu : (io.conns i).used = true)
    (ho : (io.conns i).isOpen = true) (h : Runs (onEvent sv io i ev) t io') :
    Trail (Serve sv T i) io t io' ∧ Recon io io' := by
  obtain ⟨_, t₁, t₂, rfl, h₁, hk⟩ := runs_bind.mp h
  obtain rfl := runs_request.mp h₁
  obtain ⟨htrail, hrecon⟩ := reply_trail (i := i) (hT io.app ev) hk
  exact ⟨(Trail.single (.event hu ho)).trans htrail, hrecon⟩

theorem drainLoop_trail {fuel : Nat} {r : Bool × WsIo sv.maxConns σ}
    (hT : ∀ a ev, (sv.onEvent a i ev).Within T) (hu : (io.conns i).used = true)
    (ho : (io.conns i).isOpen = true) (h : Runs (drainLoop sv i fuel io) t r) :
    Trail (Serve sv T i) io t r.2 ∧ Recon io r.2 := by
  induction fuel generalizing io t with
  | zero =>
      obtain ⟨rfl, rfl⟩ := runs_pure.mp h
      exact ⟨.refl io, .refl io⟩
  | succ fuel ih =>
      rw [drainLoop] at h
      have hpoll : Serve sv T i io [] (io.setConn i (wsConnPoll 64 (io.conns i).conn).conn) :=
        .poll hu ho
      have hrecon := Recon.setConn io i (wsConnPoll 64 (io.conns i).conn).conn
      split at h
      · obtain ⟨rfl, rfl⟩ := runs_pure.mp h
        exact ⟨.single hpoll, hrecon⟩
      · obtain ⟨io₁, t₁, t₂, rfl, h₁, hk⟩ := runs_bind.mp h
        obtain ⟨htrail₁, hrecon₁⟩ := onEvent_trail hT ((hrecon.used i).trans hu)
          ((hrecon.isOpen i).trans ho) h₁
        have hsofar := (Trail.single hpoll).trans htrail₁
        have hkept := hrecon.trans hrecon₁
        split at hk
        · obtain ⟨rfl, rfl⟩ := runs_pure.mp hk
          rw [List.append_nil]
          exact ⟨hsofar, hkept⟩
        · obtain ⟨htrail₂, hrecon₂⟩ := ih ((hkept.used i).trans hu) ((hkept.isOpen i).trans ho) hk
          exact ⟨hsofar.trans htrail₂, hkept.trans hrecon₂⟩

/-- `feed` hands the bytes over, if there are any, and drains. -/
theorem feed_trail {bytes : List UInt8} {r : Bool × WsIo sv.maxConns σ}
    (hT : ∀ a ev, (sv.onEvent a i ev).Within T) (hu : (io.conns i).used = true)
    (ho : (io.conns i).isOpen = true) (h : Runs (feed sv io i bytes) t r) :
    ∃ t', t = recvd i (io.conns i).fd bytes ++ t' ∧
      let io₁ := if bytes = [] then io
        else io.setConn i (wsConnRecv 64 (io.conns i).conn bytes).2
      Trail (Serve sv T i) io₁ t' r.2 ∧ Recon io₁ r.2 := by
  rw [feed] at h
  split at h
  · rename_i hpos
    have hne : bytes ≠ [] := List.length_pos_iff.mp hpos
    obtain ⟨_, t₁, t₂, rfl, h₁, hk⟩ := runs_bind.mp h
    obtain rfl := runs_request.mp h₁
    have hrecon := Recon.setConn io i (wsConnRecv 64 (io.conns i).conn bytes).2
    refine ⟨t₂, by rw [recvd, if_neg hne], ?_⟩
    rw [if_neg hne]
    dsimp only at hk
    split at hk
    · obtain ⟨rfl, rfl⟩ := runs_pure.mp hk
      exact ⟨.refl _, .refl _⟩
    · exact drainLoop_trail hT ((hrecon.used i).trans hu) ((hrecon.isOpen i).trans ho) hk
  · rename_i hpos
    have hnil : bytes = [] := by simpa using hpos
    refine ⟨t, by rw [recvd, if_pos hnil]; rfl, ?_⟩
    rw [if_pos hnil]
    exact drainLoop_trail hT hu ho h

/-- What serving a client leads to before the slot is closed: steps, after which the slot may be
closed if it is open, or the end of a handshake that failed. -/
def Served (sv : Server σ) (T : Fin sv.maxConns → Prop) (i : Fin sv.maxConns)
    (io : WsIo sv.maxConns σ) (t : Trace sv.maxConns) (r : Bool × WsIo sv.maxConns σ) : Prop :=
  Trail (Serve sv T i) io t r.2 ∧
      (r.1 = true → (r.2.conns i).used = true ∧ (r.2.conns i).isOpen = true) ∨
  r.1 = true ∧ (io.conns i).isOpen = false ∧ ∃ x t' s,
    t = ⟨.client i (io.conns i).fd (.read (hsCap - (io.conns i).hslen)), x⟩ :: t' ∧
      Rejected i (io.conns i) x.val t' ∧ r.2 = io.set i s ∧ s.fd = (io.conns i).fd

theorem WsIo.set_self {n : Nat} (io : WsIo n σ) (i : Fin n) : io.set i (io.conns i) = io := by
  simp [WsIo.set]

/-- The connection is set up and given the bytes behind the request. -/
theorem upgraded_eq (s : WsSlot) (rest : List UInt8) :
    let io₁ := io.set i { s with
      conn := wsConnOpen (wsConnInit sv.role s.msgBuf), isOpen := true }
    (if rest = [] then io₁ else io₁.setConn i (wsConnRecv 64 (io₁.conns i).conn rest).2)
      = io.set i (upgraded sv s rest) := by
  intro io₁
  split
  · rename_i hnil
    simp only [io₁, upgraded, if_pos hnil]
  · rename_i hne
    simp only [io₁, upgraded, if_neg hne, WsIo.setConn, WsIo.set_same, WsIo.set_set]

theorem handshakeStep_none (h : findSub (io.conns i).request crlf2 = none) :
    handshakeStep sv io i = pure (decide ((io.conns i).hslen ≥ hsCap), io) := by
  rw [WsSlot.request] at h
  simp only [handshakeStep, h]

theorem handshakeStep_some {pos : Nat} (h : findSub (io.conns i).request crlf2 = some pos) :
    handshakeStep sv io i = finishHandshake sv io i pos := by
  rw [WsSlot.request] at h
  simp only [handshakeStep, h]

theorem finishHandshake_none {pos : Nat}
    (h : computeAccept ((io.conns i).hsbuf.take pos) = none) :
    finishHandshake sv io i pos = pure (true, io) := by
  unfold finishHandshake
  dsimp only
  rw [h]

theorem finishHandshake_some {pos : Nat} {accept : List UInt8}
    (h : computeAccept ((io.conns i).hsbuf.take pos) = some accept) :
    finishHandshake sv io i pos = sendAccept i (io.conns i).fd accept >>= fun rc =>
      if rc ≠ 0 then pure (true, io)
      else feed sv (io.set i { io.conns i with
          conn := wsConnOpen (wsConnInit sv.role (io.conns i).msgBuf), isOpen := true }) i
        (slice (io.conns i).hsbuf (pos + 4) ((io.conns i).hslen - (pos + 4))) := by
  unfold finishHandshake
  dsimp only
  rw [h]

/-- The upgrade: the answer, the connection, and the bytes behind the request. -/
theorem finishHandshake_runs {pos : Nat} {accept : List UInt8} {r : Bool × WsIo sv.maxConns σ}
    (h : computeAccept ((io.conns i).hsbuf.take pos) = some accept)
    (hr : Runs (finishHandshake sv io i pos) t r) :
    ∃ rc u v, t = u ++ v ∧ Answers i (io.conns i).fd accept u rc ∧
      (rc ≠ 0 ∧ v = [] ∧ r = (true, io) ∨ rc = 0 ∧
        Runs (feed sv (io.set i { io.conns i with
            conn := wsConnOpen (wsConnInit sv.role (io.conns i).msgBuf), isOpen := true }) i
          (slice (io.conns i).hsbuf (pos + 4) ((io.conns i).hslen - (pos + 4)))) v r) := by
  rw [finishHandshake_some h] at hr
  obtain ⟨rc, u, v, rfl, h₁, hk⟩ := runs_bind.mp hr
  refine ⟨rc, u, v, rfl, sendAccept_answers h₁, ?_⟩
  by_cases hrc : rc = 0
  · rw [if_neg (not_not.mpr hrc)] at hk
    exact .inr ⟨hrc, hk⟩
  · rw [if_pos hrc] at hk
    exact .inl ⟨hrc, runs_pure.mp hk⟩

theorem onHandshakeData_served {r : Bool × WsIo sv.maxConns σ}
    (hT : ∀ a ev, (sv.onEvent a i ev).Within T) (hu : (io.conns i).used = true)
    (ho : (io.conns i).isOpen = false) (h : Runs (onHandshakeData sv io i) t r) :
    Served sv T i io t r := by
  obtain ⟨x, t₁, t₂, rfl, h₁, hk⟩ := runs_bind.mp h
  obtain rfl := runs_request.mp h₁
  -- what a failed handshake leaves behind
  have rejected : ∀ {t s}, Rejected i (io.conns i) x.val t → s.fd = (io.conns i).fd →
      Served sv T i io
        ([⟨.client i (io.conns i).fd (.read (hsCap - (io.conns i).hslen)), x⟩] ++ t)
        (true, io.set i s) :=
    fun hr hfd => .inr ⟨rfl, ho, x, _, _, rfl, hr, rfl, hfd⟩
  split at hk
  · rename_i hz
    obtain ⟨rfl, rfl⟩ := runs_pure.mp hk
    have hnil : x.val = [] := List.length_eq_zero_iff.mp hz
    have := rejected (s := io.conns i) (.ended hnil) rfl
    rwa [WsIo.set_self] at this
  · rename_i hz
    have hne : x.val ≠ [] := fun hnil => hz (by rw [hnil]; rfl)
    change Runs (handshakeStep sv (io.set i ((io.conns i).gather x.val)) i) t₂ r at hk
    cases hfind : findSub ((io.conns i).gather x.val).request crlf2 with
    | none =>
      rw [handshakeStep_none (by rw [WsIo.set_same]; exact hfind), WsIo.set_same] at hk
      obtain ⟨rfl, rfl⟩ := runs_pure.mp hk
      by_cases hfull : hsCap ≤ ((io.conns i).gather x.val).hslen
      · rw [decide_eq_true hfull]
        exact rejected (.large hfind hfull) rfl
      · rw [decide_eq_false hfull, List.append_nil]
        refine .inl ⟨.single (.wait hu ho hne hfind (by omega)), fun h => ?_⟩
        cases h
    | some pos =>
      rw [handshakeStep_some (by rw [WsIo.set_same]; exact hfind)] at hk
      cases hkey : computeAccept (((io.conns i).gather x.val).hsbuf.take pos) with
      | none =>
          rw [finishHandshake_none (by rw [WsIo.set_same]; exact hkey)] at hk
          obtain ⟨rfl, rfl⟩ := runs_pure.mp hk
          exact rejected (.keyless hfind hkey) rfl
      | some accept =>
          obtain ⟨rc, u, v, rfl, hans, hv⟩ :=
            finishHandshake_runs (by rw [WsIo.set_same]; exact hkey) hk
          rw [WsIo.set_same] at hans hv
          rcases hv with ⟨hrc, rfl, rfl⟩ | ⟨rfl, hv⟩
          · rw [List.append_nil]
            exact rejected (.unwritten hans hrc hfind hkey) rfl
          · rw [WsIo.set_set] at hv
            obtain ⟨t', rfl, htrail, hrecon⟩ := feed_trail hT
              (by rw [WsIo.set_same]; exact hu) (by rw [WsIo.set_same]) hv
            rw [upgraded_eq] at htrail hrecon
            rw [WsIo.set_same, show ((io.conns i).gather x.val).fd = (io.conns i).fd from rfl]
            have hstep := Serve.upgrade (T := T) hu ho hne hfind hkey hans rfl
            refine .inl ⟨?_, fun _ => ⟨(hrecon.used i).trans ?_, (hrecon.isOpen i).trans ?_⟩⟩
            · simpa only [List.cons_append, List.nil_append, List.append_assoc]
                using (Trail.single hstep).trans htrail
            · rw [WsIo.set_same]; exact hu
            · rw [WsIo.set_same]; rfl

theorem onClientData_served {r : Bool × WsIo sv.maxConns σ}
    (hT : ∀ a ev, (sv.onEvent a i ev).Within T) (hu : (io.conns i).used = true)
    (h : Runs (onClientData sv io i) t r) : Served sv T i io t r := by
  rw [onClientData] at h
  split at h
  · rename_i ho
    exact onHandshakeData_served hT hu (by simpa using ho) h
  · rename_i ho
    have ho : (io.conns i).isOpen = true := by simpa using ho
    obtain ⟨x, t₁, t₂, rfl, h₁, hk⟩ := runs_bind.mp h
    obtain rfl := runs_request.mp h₁
    split at hk
    · rename_i hz
      obtain ⟨rfl, rfl⟩ := runs_pure.mp hk
      rw [List.append_nil]
      exact .inl ⟨.single (.eof hu ho (List.length_eq_zero_iff.mp hz)), fun _ => ⟨hu, ho⟩⟩
    · rename_i hz
      have hne : x.val ≠ [] := fun hnil => hz (by rw [hnil]; rfl)
      obtain ⟨t', rfl, htrail, hrecon⟩ := feed_trail hT hu ho hk
      rw [if_neg hne] at htrail hrecon
      have hkept := (Recon.setConn io i _).trans hrecon
      refine .inl ⟨?_, fun _ => ⟨(hkept.used i).trans hu, (hkept.isOpen i).trans ho⟩⟩
      rw [recvd, if_neg hne]
      have hstep : Serve sv T i io _ _ := .pump (r := x) hu ho hne
      exact (Trail.single hstep).trans htrail

theorem slotClose_runs {io' : WsIo sv.maxConns σ} (h : Runs (slotClose io i) t io') :
    t = [⟨.client i (io.conns i).fd .close, ()⟩] ∧
      io' = io.set i { io.conns i with used := false } := by
  obtain ⟨_, u, v, rfl, hu, hk⟩ := runs_bind.mp h
  obtain rfl := runs_request.mp hu
  obtain ⟨rfl, rfl⟩ := runs_pure.mp hk
  exact ⟨rfl, rfl⟩

/-- **Serving a client** takes these steps. -/
theorem serviceClient_trail {io' : WsIo sv.maxConns σ}
    (hT : ∀ a ev, (sv.onEvent a i ev).Within T) (hu : (io.conns i).used = true)
    (h : Runs (serviceClient sv io i) t io') : Trail (Serve sv T i) io t io' := by
  obtain ⟨⟨rc, io₁⟩, t₁, t₂, rfl, h₁, hk⟩ := runs_bind.mp h
  rcases onClientData_served hT hu h₁ with
    ⟨htrail, hclose⟩ | ⟨hrc, ho, x, t', s, rfl, href, hio, hfd⟩
  · cases rc with
    | false =>
        obtain ⟨rfl, rfl⟩ := runs_pure.mp hk
        rw [List.append_nil]
        exact htrail
    | true =>
        obtain ⟨rfl, rfl⟩ := slotClose_runs hk
        obtain ⟨hused, hopen⟩ := hclose rfl
        exact htrail.trans (.single (.close hused hopen))
  · obtain rfl : rc = true := hrc
    obtain rfl : io₁ = io.set i s := hio
    obtain ⟨rfl, rfl⟩ := slotClose_runs hk
    rw [WsIo.set_same, WsIo.set_set, hfd]
    exact .single (.quit hu ho href rfl hfd)

/-- Accepting takes one step. -/
theorem onAccept_arrival {io' : WsIo sv.maxConns σ} (h : Runs (onAccept sv io) t io') :
    Arrival sv io t io' := by
  obtain ⟨fd, t₁, t₂, rfl, h₁, hk⟩ := runs_bind.mp h
  obtain rfl := runs_request.mp h₁
  cases fd with
  | none =>
      obtain ⟨rfl, rfl⟩ := runs_pure.mp hk
      exact .failed
  | some cfd =>
      cases ha : allocSlot io with
      | none =>
          simp only [ha] at hk
          obtain ⟨_, u, v, rfl, hu, hv⟩ := runs_bind.mp hk
          obtain rfl := runs_request.mp hu
          obtain ⟨rfl, rfl⟩ := runs_pure.mp hv
          exact .refuse ha
      | some i =>
          simp only [ha] at hk
          obtain ⟨_, u, v, rfl, hu, hv⟩ := runs_bind.mp hk
          obtain rfl := runs_request.mp hu
          obtain ⟨rfl, rfl⟩ := runs_pure.mp hv
          exact .seat ha

theorem onReadable_trail {io' : WsIo sv.maxConns σ} {fd : Nat}
    {T : Fin sv.maxConns → Fin sv.maxConns → Prop}
    (hT : ∀ a i ev, (sv.onEvent a i ev).Within (T i)) (h : Runs (onReadable sv io fd) t io') :
    Trail (Step sv T) io t io' := by
  rw [onReadable] at h
  split at h
  · exact .single (.accept (onAccept_arrival h))
  · split at h
    · obtain ⟨rfl, rfl⟩ := runs_pure.mp h
      exact .refl _
    · rename_i i hi
      have hserve := serviceClient_trail (fun a => hT a i) (slotByFd_some hi).1 h
      exact hserve.map fun _ _ _ => Step.serve i

/-- **The loop** takes these steps. -/
theorem runLoop_trail {io' : WsIo sv.maxConns σ} {fds : List Nat}
    {T : Fin sv.maxConns → Fin sv.maxConns → Prop}
    (hT : ∀ a i ev, (sv.onEvent a i ev).Within (T i)) (h : Runs (runLoop sv io fds) t io') :
    Trail (Step sv T) io t io' := by
  induction fds generalizing io t with
  | nil =>
      obtain ⟨rfl, rfl⟩ := runs_pure.mp h
      exact .refl _
  | cons fd fds ih =>
      obtain ⟨io₁, t₁, t₂, rfl, h₁, hk⟩ := runs_bind.mp h
      exact (onReadable_trail hT h₁).trans (ih hk)

end Refinement

/-- Every handler sends on the connections of the pool. -/
theorem Reply.within_all {n : Nat} {σ : Type} (r : Reply n σ) : r.Within fun _ => True := by
  induction r with
  | done => trivial
  | send c m k ih => exact ⟨trivial, ih⟩

/-- **What every step keeps holds in every run**, whatever the handler does. -/
theorem runLoop_inv {σ : Type} {sv : Server σ}
    {P : WsIo sv.maxConns σ → Trace sv.maxConns → Prop}
    (hs : ∀ io h t io', P io h → Step sv (fun _ _ => True) io t io' → P io' (h ++ t)) {app : σ}
    {fds : List Nat} {t : Trace sv.maxConns} {io : WsIo sv.maxConns σ}
    (h₀ : P (wsServe sv app) []) (h : Runs (runLoop sv (wsServe sv app) fds) t io) : P io t := by
  have htrail := runLoop_trail (T := fun _ _ => True) (fun a i ev => Reply.within_all _) h
  simpa using htrail.inv hs h₀

end Libws
