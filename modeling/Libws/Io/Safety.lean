import Libws.Io.CheckedRequest
import Libws.Io.Drain
import Libws.Session.CheckedCalls
import Libws.Session.Receiving
import Libws.Support.Stopping

/-!
# Io — the server stays inside its arrays

The server of `src/io/io_posix.c` once more, from the event loop down to the frame and the accept it
builds, with every load, every store and every size checked.  For each event the arrays on the stack hold
anything where a call finds them (`Stack`); a buffer is read within the bytes that have been stored
in it, and what the kernel reads or writes is loaded and stored like the rest.

* `Kept`: what a handler may change.  `Safe`: what the checks need, kept by every service.
* `server_in_bounds`: **in every run no check fails**, and what the stack held does not count.
-/

namespace Libws.Checked
open Libws.Support Prog

/-- What the arrays on the stack hold before they are written. -/
structure Stack (maxMessage : Nat) extends Locals where
  out : Vector UInt8 (maxMessage + 16)
  closeOut : Vector UInt8 32
  chunk : Vector UInt8 chunkCap

/-- The server's programs, with checks. -/
abbrev Guard (n : Nat) (α : Type) : Type := Stopping (Req n) Req.Answer α

/-! ### Sending -/

section Pool

variable {n maxMessage : Nat} {σ : Type}

/-- `send_accept(fd, accept)`. -/
def sendAccept (i : Fin n) (fd : Nat) (accept : List UInt8) : Guard n Int := do
  let bytes ← check (loads (readIn accept 0 28) 28)
  liftM (Libws.sendAccept i fd bytes)

def sendBuilt (io : WsIo n σ) (c : Fin n) (b : Built) : Guard n Int :=
  match slotByConn io c with
  | none => pure (-1)
  | some i =>
    if b.n = 0 then pure (-1)
    else do
      let bytes ← check (loads (readIn b.out 0 b.n) b.n)
      liftM (writeAll i (io.conns i).fd .frame bytes)

def wsIoSend (st : Stack maxMessage) (io : WsIo n σ) (c : Fin n) : Send → Guard n (Int × WsIo n σ)
  | .message key op payload => do
    let b ← check (wsSendMessage 64 (io.conns c).conn key op payload st.out.toList)
    let rc ← sendBuilt io c b
    pure (rc, io)
  | .pong key payload => do
    let b ← check (wsSendPong 64 (io.conns c).conn key payload st.out.toList)
    let rc ← sendBuilt io c b
    pure (rc, io)
  | .close key code => do
    let r ← check (wsSendClose 64 (io.conns c).conn key code st.closeOut.toList)
    let io := io.setConn c r.2.1
    let rc ← sendBuilt io c r.1
    pure (rc, io)

def reply (st : Stack maxMessage) (io : WsIo n σ) : Reply n σ → Guard n (WsIo n σ)
  | .done app => pure { io with app := app }
  | .send c m k => do
    let r ← wsIoSend st io c m
    reply st r.2 (k r.1)

end Pool

/-! ### One client -/

/-- What an event shows, the bytes loaded through `ev->data`. -/
def event (p : Poll) : Option Event := do
  let data ← match p.ev.data with
    | none => some []
    | some off => loads (fun j => readIn p.conn.msgBuf 0 p.conn.msgBuf.length (off + j)) p.ev.len
  some ⟨p.ret, p.ev.op, data, p.ev.closeCode⟩

section Client

variable {σ : Type} (sv : Server σ) (st : Stack sv.maxMessage)

def onEvent (io : WsIo sv.maxConns σ) (i : Fin sv.maxConns) (ev : Event) :
    Guard sv.maxConns (WsIo sv.maxConns σ) := do
  liftM (Prog.request (R := Req.Answer) (Req.client i (io.conns i).fd (.event ev)))
  reply st io (sv.onEvent io.app i ev)

def drainLoop (i : Fin sv.maxConns) :
    Nat → WsIo sv.maxConns σ → Guard sv.maxConns (Bool × WsIo sv.maxConns σ)
  | 0, io => pure (false, io)
  | fuel + 1, io => do
    let p ← check (wsConnPoll 64 (io.conns i).conn)
    let io := io.setConn i p.conn
    if p.ret = .none then pure (false, io)
    else do
      let ev ← check (event p)
      let io ← onEvent sv st io i ev
      if isTerminal p.ev.type then pure (true, io) else drainLoop i fuel io

def drainEvents (io : WsIo sv.maxConns σ) (i : Fin sv.maxConns) :
    Guard sv.maxConns (Bool × WsIo sv.maxConns σ) :=
  drainLoop sv st i ((io.conns i).conn.rxLen + 1) io

/-- `feed(io, s, bytes, len)`, where `bytes` is read through `rd`. -/
def feed (io : WsIo sv.maxConns σ) (i : Fin sv.maxConns) (rd : Nat → Option UInt8) (len : Nat) :
    Guard sv.maxConns (Bool × WsIo sv.maxConns σ) :=
  if len > 0 then do
    let bytes ← check (loads rd len)
    liftM (Prog.request (R := Req.Answer) (Req.client i (io.conns i).fd (.recv bytes)))
    let r ← check (wsConnRecv 64 (io.conns i).conn rd len)
    let io := io.setConn i r.2
    if r.1 < 0 then pure (true, io) else drainEvents sv st io i
  else drainEvents sv st io i

def finishHandshake (io : WsIo sv.maxConns σ) (i : Fin sv.maxConns) (bodyAt : Nat) :
    Guard sv.maxConns (Bool × WsIo sv.maxConns σ) := do
  let s := io.conns i
  match ← check (computeAccept st.toLocals (readIn s.hsbuf 0 bodyAt) bodyAt) with
  | none => pure (true, io)
  | some accept => do
    let rc ← sendAccept i s.fd accept
    if rc ≠ 0 then pure (true, io)
    else do
      let conn := wsConnOpen (wsConnInit sv.role s.msgBuf)
      let io := io.set i { s with conn := conn, isOpen := true }
      let off ← check (checkedAdd 64 bodyAt 4)
      let len ← check (checkedSub s.hslen off)
      feed sv st io i (fun j => readIn s.hsbuf 0 s.hslen (off + j)) len

def handshakeStep (io : WsIo sv.maxConns σ) (i : Fin sv.maxConns) :
    Guard sv.maxConns (Bool × WsIo sv.maxConns σ) := do
  let s := io.conns i
  match ← check (findSub (readIn s.hsbuf 0 s.hslen) s.hslen crlf2) with
  | none => pure (decide (s.hslen ≥ hsCap), io)
  | some bodyAt => finishHandshake sv st io i bodyAt

def onHandshakeData (io : WsIo sv.maxConns σ) (i : Fin sv.maxConns) :
    Guard sv.maxConns (Bool × WsIo sv.maxConns σ) := do
  let s := io.conns i
  let room ← check (checkedSub hsCap s.hslen)
  let r ← liftM (sysRead i s.fd room)
  if r.val.length = 0 then pure (true, io)
  else do
    let hsbuf ← check (copyFrom s.hsbuf s.hslen (readIn r.val 0 r.val.length) r.val.length)
    let hslen ← check (checkedAdd 64 s.hslen r.val.length)
    handshakeStep sv st (io.set i { s with hsbuf := hsbuf, hslen := hslen }) i

def onClientData (io : WsIo sv.maxConns σ) (i : Fin sv.maxConns) :
    Guard sv.maxConns (Bool × WsIo sv.maxConns σ) :=
  let s := io.conns i
  if !s.isOpen then onHandshakeData sv st io i
  else do
    let r ← liftM (sysRead i s.fd chunkCap)
    if r.val.length = 0 then pure (true, io)
    else do
      let chunk ← check
        (copyFrom st.chunk.toList 0 (readIn r.val 0 r.val.length) r.val.length)
      feed sv st io i (readIn chunk 0 r.val.length) r.val.length

def serviceClient (io : WsIo sv.maxConns σ) (i : Fin sv.maxConns) :
    Guard sv.maxConns (WsIo sv.maxConns σ) := do
  let r ← onClientData sv st io i
  if r.1 then liftM (slotClose r.2 i) else pure r.2

/-! ### The loop -/

def onReadable (io : WsIo sv.maxConns σ) (fd : Nat) : Guard sv.maxConns (WsIo sv.maxConns σ) :=
  if fd = sv.listenFd then liftM (onAccept sv io)
  else match slotByFd io fd with
    | none => pure io
    | some i => serviceClient sv st io i

/-- Each descriptor with what the stack holds while it is served. -/
def runLoop (io : WsIo sv.maxConns σ) :
    List (Nat × Stack sv.maxMessage) → Guard sv.maxConns (WsIo sv.maxConns σ)
  | [] => pure io
  | (fd, st) :: evs => do
    let io ← onReadable sv st io fd
    runLoop io evs

end Client

/-! ### What the checks need -/

section Invariant

variable {n maxMessage : Nat} {σ : Type} {io io' io'' : WsIo n σ}

/-- What a handler leaves: it has sent on some connections, and changed its own state. -/
def Kept (io io' : WsIo n σ) : Prop :=
  ∀ j, ∃ d, SentOn (io.conns j).conn d ∧ io'.conns j = { io.conns j with conn := d }

theorem Kept.of_eq (h : io'.conns = io.conns) : Kept io io' :=
  fun j => ⟨(io.conns j).conn, .same, by rw [h]⟩

theorem Kept.trans (h : Kept io io') (h' : Kept io' io'') : Kept io io'' := by
  intro j
  obtain ⟨d, hd, heq⟩ := h j
  obtain ⟨d', hd', heq'⟩ := h' j
  rw [heq] at hd' heq'
  exact ⟨d', hd.trans hd', heq'⟩

/-- The sizes of a slot; its connection counts once it is open. -/
structure SafeSlot (maxMessage : Nat) (s : WsSlot) : Prop where
  hsbuf : s.hsbuf.length = hsCap
  hslen : s.hslen ≤ hsCap
  msgBuf : s.msgBuf.length = maxMessage
  sound : s.isOpen = true → Sound s.conn
  cap : s.isOpen = true → s.conn.msgBuf.length = maxMessage

def Safe (maxMessage : Nat) (io : WsIo n σ) : Prop := ∀ j, SafeSlot maxMessage (io.conns j)

theorem Safe.set (h : Safe maxMessage io) {i : Fin n} {s : WsSlot} (hs : SafeSlot maxMessage s) :
    Safe maxMessage (io.set i s) := by
  intro j
  by_cases hj : j = i
  · subst hj
    rw [WsIo.set_same]
    exact hs
  · rw [io.set_other s hj]
    exact h j

/-- The connection of an open slot may change, inside its buffer. -/
theorem Safe.setConn (h : Safe maxMessage io) {i : Fin n} {c : WsConn} (hc : Sound c)
    (hlen : c.msgBuf.length = maxMessage) : Safe maxMessage (io.setConn i c) :=
  h.set ⟨(h i).hsbuf, (h i).hslen, (h i).msgBuf, fun _ => hc, fun _ => hlen⟩

theorem Safe.kept (h : Safe maxMessage io) (hk : Kept io io') : Safe maxMessage io' := by
  intro j
  obtain ⟨d, hd, heq⟩ := hk j
  rw [heq]
  refine ⟨(h j).hsbuf, (h j).hslen, (h j).msgBuf, fun ho => hd.sound ((h j).sound ho), fun ho => ?_⟩
  have hcap := (h j).cap ho
  generalize (io.conns j).conn = c at hd hcap
  cases hd with
  | same => exact hcap
  | close => exact hcap

theorem Kept.isOpen (hk : Kept io io') (j : Fin n) :
    (io'.conns j).isOpen = (io.conns j).isOpen := by
  obtain ⟨d, -, heq⟩ := hk j
  rw [heq]

theorem SafeSlot.fresh (maxMessage fd : Nat) (used : Bool) :
    SafeSlot maxMessage (.mk₀ maxMessage fd used) :=
  ⟨List.length_replicate, Nat.zero_le _, List.length_replicate, fun ho => (by cases ho),
    fun ho => (by cases ho)⟩

end Invariant

/-! ### Every check passes -/

section Sending

variable {n maxMessage : Nat} {σ : Type} {io : WsIo n σ}

theorem computeAccept_length {req accept : List UInt8} (h : Libws.computeAccept req = some accept) :
    accept.length = 28 := by
  cases hkey : Libws.extractKey req 64 with
  | none =>
      have hnone : Libws.computeAccept req = none := by
        unfold Libws.computeAccept
        simp only [hkey]
      exact absurd (hnone.symm.trans h) (Option.some_ne_none accept).symm
  | some key =>
      rw [computeAccept_of_key hkey (extractKey_length_le hkey)] at h
      by_cases hnil : key = []
      · rw [if_pos hnil] at h
        cases h
      · rw [if_neg hnil] at h
        rw [← Option.some.inj h, wsBase64_length, wsSha1_length]

theorem sendAccept_passes (i : Fin n) (fd : Nat) {accept : List UInt8} (h : accept.length = 28) :
    Passes (fun _ => True) (sendAccept i fd accept) (Libws.sendAccept i fd accept) := by
  have hloads := loads_eq (agrees_bytes accept)
  rw [h] at hloads
  exact .check hloads (.lift fun _ _ _ => trivial)

theorem sendBuilt_passes (c : Fin n) {b b' : Built} (hsent : sent b = sent b')
    (hle : b.n ≤ b.out.length) :
    Passes (fun _ => True) (sendBuilt io c b) (Libws.sendBuilt io c b') := by
  obtain ⟨hn, htake⟩ := Prod.mk.inj hsent
  rw [← hn] at htake
  rw [sendBuilt, Libws.sendBuilt, ← hn, ← htake]
  cases slotByConn io c with
  | none => exact .pure trivial
  | some i =>
      refine .ite (fun _ => .pure trivial) fun _ => ?_
      have hloads := loads_eq (agrees_readIn hle)
      rw [List.length_take_of_le hle] at hloads
      exact .check hloads (.lift fun _ _ _ => trivial)

theorem wsIoSend_passes (st : Stack maxMessage) (hmax : maxMessage + chunkCap < 2 ^ 64)
    (io : WsIo n σ) (c : Fin n) (m : Send) :
    Passes (fun r => Kept io r.2) (wsIoSend st io c m) (Libws.wsIoSend maxMessage io c m) := by
  have hcap : chunkCap = 4096 := rfl
  have hout : st.out.toList.length = (List.replicate (maxMessage + 16) (0 : UInt8)).length := by
    rw [Vector.length_toList, List.length_replicate]
  have hlt : st.out.toList.length < 2 ^ 64 := by
    rw [Vector.length_toList]
    omega
  cases m with
  | message key op payload =>
      obtain ⟨hsent, hle⟩ := wsSendMessage_sent hout hlt
      exact .check (wsSendMessage_eq hlt) (.bind (sendBuilt_passes c hsent hle) fun _ _ =>
        .pure (.of_eq rfl))
  | pong key payload =>
      obtain ⟨hsent, hle⟩ := wsSendPong_sent hout hlt
      exact .check (wsSendPong_eq hlt) (.bind (sendBuilt_passes c hsent hle) fun _ _ =>
        .pure (.of_eq rfl))
  | close key code =>
      have hclose : st.closeOut.toList.length = (List.replicate 32 (0 : UInt8)).length := by
        rw [Vector.length_toList, List.length_replicate]
      have hlt' : st.closeOut.toList.length < 2 ^ 64 := by
        rw [Vector.length_toList]
        decide
      obtain ⟨hsent, hle, hconn⟩ :=
        @wsSendClose_sent (io.conns c).conn key _ code _ hclose hlt'
      have hkept : Kept io (io.setConn c
          (Libws.wsSendClose 64 (io.conns c).conn key code (List.replicate 32 0)).2.1) := by
        intro j
        by_cases hj : j = c
        · subst hj
          refine ⟨_, ?_, WsIo.set_same ..⟩
          rcases wsSendClose_cases 64 (io.conns j).conn key code (List.replicate 32 0) with
            ⟨-, heq⟩ | ⟨-, ho, heq⟩
          · rw [heq]
            exact .same
          · rw [heq]
            exact .close ho
        · exact ⟨_, .same, io.set_other _ hj⟩
      refine .check (wsSendClose_eq hlt') ?_
      rw [hconn]
      exact .bind (sendBuilt_passes c hsent hle) fun _ _ => .pure hkept

theorem reply_passes (st : Stack maxMessage) (hmax : maxMessage + chunkCap < 2 ^ 64)
    (r : Reply n σ) (io : WsIo n σ) :
    Passes (Kept io) (reply st io r) (Libws.reply maxMessage io r) := by
  induction r generalizing io with
  | done app => exact .pure (.of_eq rfl)
  | send c m k ih =>
      refine .bind (wsIoSend_passes st hmax io c m) ?_
      rintro ⟨rc, io'⟩ hkept
      exact (ih rc io').weaken fun io'' hk => hkept.trans hk

end Sending

section Events

/-- The payload of an event lies in the buffer. -/
theorem event_fits {c : WsConn} (hs : Sound c) {off : Nat}
    (h : (Libws.wsConnPoll 64 c).ev.data = some off) :
    off + (Libws.wsConnPoll 64 c).ev.len ≤ (Libws.wsConnPoll 64 c).conn.msgBuf.length := by
  cases hf : c.failed with
  | true =>
      rw [poll_failed hf] at h
      cases h
  | false =>
      rcases hs.poll_cases hf with ⟨-, hp⟩ | ⟨f, t, hv, ho⟩
      · rw [hp] at h
        cases h
      · obtain ⟨hlen, -⟩ := ho.fits hv
        rw [hlen]
        generalize Libws.wsConnPoll 64 c = p at ho h
        generalize (c.receiver c.msg).verdict c.role f = v at ho
        cases ho with
        | refuse | close | extend => cases h
        | ping hb | pong hb =>
            cases h
            simp only [List.length_append] at hb
            dsimp only
            omega
        | deliver hb hbuf =>
            cases h
            subst hbuf
            simp only [List.length_append] at hb
            simp only [List.length_append]
            omega

theorem event_eq {c : WsConn} (hs : Sound c) :
    event (Libws.wsConnPoll 64 c) = some (Libws.wsConnPoll 64 c).event := by
  rw [event, Poll.event, Poll.data]
  cases hdata : (Libws.wsConnPoll 64 c).ev.data with
  | none => rfl
  | some off =>
      have hfits := event_fits hs hdata
      have hloads := loads_eq (agrees_slice (Nat.zero_le off) hfits (Nat.le_refl _))
      rw [slice_length hfits] at hloads
      dsimp only
      rw [hloads]
      rfl

end Events

section Service

variable {σ : Type} (sv : Server σ) (st : Stack sv.maxMessage) {io : WsIo sv.maxConns σ}
  {i : Fin sv.maxConns}

theorem onEvent_passes (ev : Event) :
    Passes (Kept io) (onEvent sv st io i ev) (Libws.onEvent sv io i ev) :=
  .bind (.lift fun _ _ _ => trivial) fun _ _ => reply_passes st sv.maxMessage_lt _ io

/-- Induction on the turns left. -/
theorem drainLoop_passes (fuel : Nat) (hs : Safe sv.maxMessage io)
    (ho : (io.conns i).isOpen = true) :
    Passes (fun r => Safe sv.maxMessage r.2) (drainLoop sv st i fuel io)
      (Libws.drainLoop sv i fuel io) := by
  induction fuel generalizing io with
  | zero => exact .pure hs
  | succ fuel ih =>
      have hc := (hs i).sound ho
      have hcap : (Libws.wsConnPoll 64 (io.conns i).conn).conn.msgBuf.length = sv.maxMessage :=
        (exec_msgCap 64 (io.conns i).conn .poll).trans ((hs i).cap ho)
      have hpolled : Safe sv.maxMessage
          (io.setConn i (Libws.wsConnPoll 64 (io.conns i).conn).conn) := hs.setConn hc.poll hcap
      refine .check (wsConnPoll_eq ⟨hc.cap_lt, hc.fits⟩) ?_
      refine .ite (fun _ => .pure hpolled) fun _ => ?_
      refine .check (event_eq hc) ?_
      refine .bind (onEvent_passes sv st _) fun io' hk => ?_
      refine .ite (fun _ => .pure (hpolled.kept hk)) fun _ => ?_
      refine ih (hpolled.kept hk) ?_
      rw [hk.isOpen, WsIo.setConn, WsIo.set_same]
      exact ho

theorem drainEvents_passes (hs : Safe sv.maxMessage io) (ho : (io.conns i).isOpen = true) :
    Passes (fun r => Safe sv.maxMessage r.2) (drainEvents sv st io i)
      (Libws.drainEvents sv io i) :=
  drainLoop_passes sv st _ hs ho

theorem feed_passes {rd : Nat → Option UInt8} {bytes : List UInt8} (hs : Safe sv.maxMessage io)
    (ho : (io.conns i).isOpen = true) (h : Agrees rd bytes) (hle : bytes.length ≤ chunkCap) :
    Passes (fun r => Safe sv.maxMessage r.2) (feed sv st io i rd bytes.length)
      (Libws.feed sv io i bytes) := by
  have hc := (hs i).sound ho
  have hcap : (io.conns i).conn.msgCap = sv.maxMessage := (hs i).cap ho
  have hwrap : (io.conns i).conn.msgLen + (io.conns i).conn.rxLen + bytes.length < 2 ^ 64 := by
    have hfits := hc.fits
    have hmax := sv.maxMessage_lt
    omega
  refine .ite (fun _ => ?_) fun _ => drainEvents_passes sv st hs ho
  refine .check (loads_eq h) ?_
  refine .bind (.lift (Q := fun _ => True) fun _ _ _ => trivial) fun _ _ => ?_
  refine .check (wsConnRecv_eq h hwrap) ?_
  have hsound : Sound (exec 64 (io.conns i).conn (.recv bytes)) := hc.exec hwrap
  have hgot : Safe sv.maxMessage
      (io.setConn i (Libws.wsConnRecv 64 (io.conns i).conn bytes).2) :=
    hs.setConn hsound ((exec_msgCap 64 (io.conns i).conn (.recv bytes)).trans hcap)
  refine .ite (fun _ => .pure hgot) fun _ => drainEvents_passes sv st hgot ?_
  rw [WsIo.setConn, WsIo.set_same]
  exact ho

theorem finishHandshake_passes {bodyAt : Nat} (hs : Safe sv.maxMessage io)
    (hbody : bodyAt + 4 ≤ (io.conns i).hslen) :
    Passes (fun r => Safe sv.maxMessage r.2) (finishHandshake sv st io i bodyAt)
      (Libws.finishHandshake sv io i bodyAt) := by
  have hcap : hsCap = 2048 := rfl
  have hmax := sv.maxMessage_lt
  have hslen := (hs i).hslen
  have hsbuf := (hs i).hsbuf
  have hle : bodyAt ≤ (io.conns i).hsbuf.length := by omega
  have hread := agrees_readIn hle
  have hlen : ((io.conns i).hsbuf.take bodyAt).length = bodyAt := List.length_take_of_le hle
  have haccept := computeAccept_eq st.toLocals hread (by omega)
  rw [hlen] at haccept
  cases hacc : Libws.computeAccept ((io.conns i).hsbuf.take bodyAt) with
  | none =>
      rw [hacc] at haccept
      rw [Libws.finishHandshake_none hacc]
      exact .check haccept (.pure hs)
  | some accept =>
      rw [hacc] at haccept
      rw [Libws.finishHandshake_some hacc]
      refine .check haccept ?_
      refine .bind (sendAccept_passes i _ (computeAccept_length hacc)) fun rc _ => ?_
      refine .ite (fun _ => .pure hs) fun _ => ?_
      refine .check (checkedAdd_eq (by omega)) ?_
      refine .check (checkedSub_eq hbody) ?_
      have hbuf : (io.conns i).msgBuf.length < 2 ^ 64 := by
        have := (hs i).msgBuf
        omega
      have hsound : Sound (exec 64 (wsConnInit sv.role (io.conns i).msgBuf) .open) :=
        (Sound.init sv.role ⟨_, hbuf⟩).exec trivial
      have hopened : Safe sv.maxMessage (io.set i { io.conns i with
          conn := wsConnOpen (wsConnInit sv.role (io.conns i).msgBuf), isOpen := true }) :=
        hs.set ⟨hsbuf, hslen, (hs i).msgBuf, fun _ => hsound, fun _ =>
          (exec_msgCap 64 (wsConnInit sv.role (io.conns i).msgBuf) .open).trans (hs i).msgBuf⟩
      have htail : (slice (io.conns i).hsbuf (bodyAt + 4)
          ((io.conns i).hslen - (bodyAt + 4))).length = (io.conns i).hslen - (bodyAt + 4) :=
        slice_length (by omega)
      have htailread : Agrees
          (fun j => readIn (io.conns i).hsbuf 0 (io.conns i).hslen (bodyAt + 4 + j))
          (slice (io.conns i).hsbuf (bodyAt + 4) ((io.conns i).hslen - (bodyAt + 4))) :=
        agrees_slice (Nat.zero_le _) (by omega) (by omega)
      have hchunk : chunkCap = 4096 := rfl
      have hfeed := feed_passes sv st hopened (by rw [WsIo.set_same]) htailread (by omega)
      rw [htail] at hfeed
      exact hfeed

theorem handshakeStep_passes (hs : Safe sv.maxMessage io) :
    Passes (fun r => Safe sv.maxMessage r.2) (handshakeStep sv st io i)
      (Libws.handshakeStep sv io i) := by
  have hle : (io.conns i).hslen ≤ (io.conns i).hsbuf.length := by
    rw [(hs i).hsbuf]
    exact (hs i).hslen
  have hfind := findSub_eq (agrees_readIn hle) crlf2
  rw [List.length_take_of_le hle] at hfind
  refine .check hfind ?_
  cases hpos : Libws.findSub ((io.conns i).hsbuf.take (io.conns i).hslen) crlf2 with
  | none =>
      rw [Libws.handshakeStep_none hpos]
      exact .pure hs
  | some bodyAt =>
      rw [Libws.handshakeStep_some hpos]
      have hne : crlf2 ≠ [] := by decide
      have hbody := length_of_prefix_drop hne ((findSub_eq_some_iff hne).mp hpos).1
      rw [List.length_take_of_le hle] at hbody
      exact finishHandshake_passes sv st hs hbody

theorem onHandshakeData_passes (hs : Safe sv.maxMessage io) (ho : (io.conns i).isOpen = false) :
    Passes (fun r => Safe sv.maxMessage r.2) (onHandshakeData sv st io i)
      (Libws.onHandshakeData sv io i) := by
  have hcap : hsCap = 2048 := rfl
  have hsbuf := (hs i).hsbuf
  have hslen := (hs i).hslen
  refine .check (checkedSub_eq hslen) ?_
  refine .bind (.lift (Q := fun _ => True) fun _ _ _ => trivial) fun r _ => ?_
  refine .ite (fun _ => .pure hs) fun _ => ?_
  have hroom := r.property
  have hread := agrees_bytes r.val
  have hfit : (io.conns i).hslen + r.val.length ≤ (io.conns i).hsbuf.length := by omega
  refine .check (copyFrom_splice hread hfit) ?_
  refine .check (checkedAdd_eq (by omega)) ?_
  refine handshakeStep_passes sv st (hs.set ⟨?_, by dsimp only; omega, (hs i).msgBuf, ?_, ?_⟩)
  · dsimp only
    rw [splice_length hfit]
    exact hsbuf
  · intro hopen
    exact absurd (ho.symm.trans hopen) (by decide)
  · intro hopen
    exact absurd (ho.symm.trans hopen) (by decide)

theorem onClientData_passes (hs : Safe sv.maxMessage io) :
    Passes (fun r => Safe sv.maxMessage r.2) (onClientData sv st io i)
      (Libws.onClientData sv io i) := by
  cases ho : (io.conns i).isOpen with
  | false =>
      rw [onClientData, Libws.onClientData, ho]
      exact onHandshakeData_passes sv st hs ho
  | true =>
      rw [onClientData, Libws.onClientData, ho]
      refine .bind (.lift (Q := fun _ => True) fun _ _ _ => trivial) fun r _ => ?_
      refine .ite (fun _ => .pure hs) fun _ => ?_
      have hread := agrees_bytes r.val
      have hchunk : st.chunk.toList.length = chunkCap := Vector.length_toList
      have hfit : 0 + r.val.length ≤ st.chunk.toList.length := by
        rw [Nat.zero_add, hchunk]
        exact r.property
      refine .check (copyFrom_splice hread hfit) ?_
      have hle : r.val.length ≤ (splice st.chunk.toList 0 r.val).length := by
        rw [splice_length hfit]
        omega
      have hgot := agrees_readIn hle
      rw [show (splice st.chunk.toList 0 r.val).take r.val.length = r.val by simp [splice]] at hgot
      exact feed_passes sv st hs ho hgot r.property

theorem serviceClient_passes (hs : Safe sv.maxMessage io) :
    Passes (Safe sv.maxMessage) (serviceClient sv st io i) (Libws.serviceClient sv io i) := by
  refine .bind (onClientData_passes sv st hs) ?_
  rintro ⟨rc, io'⟩ hs'
  refine .ite (fun _ => .lift fun t io'' hrun => ?_) fun _ => .pure hs'
  obtain ⟨_, t₁, t₂, -, -, h₂⟩ := runs_bind.mp hrun
  obtain ⟨-, rfl⟩ := runs_pure.mp h₂
  exact hs'.set ⟨(hs' i).hsbuf, (hs' i).hslen, (hs' i).msgBuf, (hs' i).sound, (hs' i).cap⟩

/-- A slot that is seated is a fresh one. -/
theorem onAccept_safe (hs : Safe sv.maxMessage io) {t : Trace sv.maxConns}
    {io' : WsIo sv.maxConns σ} (h : Runs (Libws.onAccept sv io) t io') :
    Safe sv.maxMessage io' := by
  obtain ⟨r, t₁, t₂, -, -, hk⟩ := runs_bind.mp h
  cases r with
  | none =>
      obtain ⟨-, rfl⟩ := runs_pure.mp hk
      exact hs
  | some cfd =>
      dsimp only at hk
      split at hk
      · obtain ⟨_, t₃, t₄, -, -, hk⟩ := runs_bind.mp hk
        obtain ⟨-, rfl⟩ := runs_pure.mp hk
        exact hs
      · obtain ⟨_, t₃, t₄, -, -, hk⟩ := runs_bind.mp hk
        obtain ⟨-, rfl⟩ := runs_pure.mp hk
        exact hs.set (.fresh sv.maxMessage cfd true)

theorem onReadable_passes (hs : Safe sv.maxMessage io) (fd : Nat) :
    Passes (Safe sv.maxMessage) (onReadable sv st io fd) (Libws.onReadable sv io fd) := by
  refine .ite (fun _ => .lift fun t io' h => onAccept_safe sv hs h) fun _ => ?_
  cases slotByFd io fd with
  | none => exact .pure hs
  | some i => exact serviceClient_passes sv st hs

/-- Induction on the events. -/
theorem runLoop_passes (evs : List (Nat × Stack sv.maxMessage)) (hs : Safe sv.maxMessage io) :
    Passes (Safe sv.maxMessage) (runLoop sv io evs)
      (Libws.runLoop sv io (evs.map Prod.fst)) := by
  induction evs generalizing io with
  | nil => exact .pure hs
  | cons ev evs ih => exact .bind (onReadable_passes sv ev.2 hs ev.1) fun io' hs' => ih hs'

end Service

end Libws.Checked

namespace Libws
open Libws.Support Prog

/-- **The server stays inside its arrays**: whatever the clients send, whatever the handler does
and whatever the stack holds, it runs with every check as it does without. -/
theorem server_in_bounds {σ : Type} (sv : Server σ) (app : σ)
    (evs : List (Nat × Checked.Stack sv.maxMessage)) (t : Trace sv.maxConns)
    (r : Option (WsIo sv.maxConns σ)) :
    Runs (Checked.runLoop sv (wsServe sv app) evs).run t r ↔
      ∃ io, r = some io ∧ Runs (runLoop sv (wsServe sv app) (evs.map Prod.fst)) t io := by
  have hstart : Checked.Safe sv.maxMessage (wsServe sv app) :=
    fun _ => .fresh sv.maxMessage 0 false
  exact (Checked.runLoop_passes sv evs hstart).runs

end Libws
