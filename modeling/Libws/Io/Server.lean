import Mathlib.Logic.Function.Basic
import Libws.Support.Interaction
import Libws.Io.Request
import Libws.Session.Receiver

/-!
# Io — the server

`src/io/io_posix.c` from the connection pool on, function by function, as a program that makes
system calls.  A call for a client names the slot it is made for beside the descriptor.  What the
trace shows besides the system calls is the calls of `ws_conn_recv` and of the event handler, and
which slot an accepted client is given.

The readiness of descriptors is not asked for: `run_loop` serves any list of them.  The epoll
registrations return nothing the loop reads and are left out, as is the setup of the listener.
-/

namespace Libws
open Libws.Support

/-! ### System calls -/

/-- Which function writes: `send_accept`, or `send_built` with a frame. -/
inductive Source where
  | handshake
  | frame
  deriving DecidableEq, Repr

/-- What is done for one client. -/
inductive Act where
  | read (room : Nat)
  | write (src : Source) (bytes : List UInt8)
  | recv (bytes : List UInt8)
  | event (ev : Event)
  | close
  deriving DecidableEq, Repr

/-- The bytes read, none at the end of the stream and on an error; the number of bytes written,
`0` on an error. -/
abbrev Act.Answer : Act → Type
  | .read room => { bs : List UInt8 // bs.length ≤ room }
  | .write _ bytes => { n : Nat // n ≤ bytes.length }
  | .recv _ | .event _ | .close => Unit

/-- What the server does: `refuse` closes a client for which no slot is free, `seat` gives one a
slot. -/
inductive Req (n : Nat) where
  | accept
  | refuse (fd : Nat)
  | seat (i : Fin n) (fd : Nat)
  | client (i : Fin n) (fd : Nat) (a : Act)
  deriving DecidableEq, Repr

/-- `accept` returns a descriptor or fails. -/
abbrev Req.Answer {n : Nat} : Req n → Type
  | .accept => Option Nat
  | .refuse _ | .seat _ _ => Unit
  | .client _ _ a => a.Answer

/-- What a pool of `n` slots shows. -/
abbrev Trace (n : Nat) : Type := List (Entry (Req.Answer (n := n)))

/-- A program that makes these calls for the clients of a pool of `n` slots. -/
abbrev Sys (n : Nat) : Type → Type := Prog (Req n) Req.Answer

section Calls

variable {n : Nat}

def sysAccept : Sys n (Option Nat) := Prog.request Req.accept

def sysRead (i : Fin n) (fd room : Nat) : Sys n { bs : List UInt8 // bs.length ≤ room } :=
  Prog.request (Req.client i fd (.read room))

def sysWrite (i : Fin n) (fd : Nat) (src : Source) (bytes : List UInt8) :
    Sys n { w : Nat // w ≤ bytes.length } :=
  Prog.request (Req.client i fd (.write src bytes))

def sysClose (i : Fin n) (fd : Nat) : Sys n Unit := Prog.request (Req.client i fd .close)

/-- The loop of `write_all`; `buf` is what is left to write, and each turn writes some of it. -/
def writeLoop (i : Fin n) (fd : Nat) (src : Source) : Nat → List UInt8 → Sys n Int
  | 0, _ => pure 0
  | _ + 1, [] => pure 0
  | fuel + 1, b :: bs => do
    let w ← sysWrite i fd src (b :: bs)
    if w.val = 0 then pure (-1) else writeLoop i fd src fuel ((b :: bs).drop w.val)

def writeAll (i : Fin n) (fd : Nat) (src : Source) (buf : List UInt8) : Sys n Int :=
  writeLoop i fd src buf.length buf

def acceptPre : List UInt8 := bytesOf ("HTTP/1.1 101 Switching Protocols\r\n" ++
  "Upgrade: websocket\r\nConnection: Upgrade\r\nSec-WebSocket-Accept: ")

def crlf2 : List UInt8 := [0x0D, 0x0A, 0x0D, 0x0A]

def sendAccept (i : Fin n) (fd : Nat) (accept : List UInt8) : Sys n Int := do
  if (← writeAll i fd .handshake acceptPre) ≠ 0 then pure (-1)
  else if (← writeAll i fd .handshake accept) ≠ 0 then pure (-1)
  else writeAll i fd .handshake crlf2

end Calls

/-! ### The pool -/

/-- `ws_conn` with every field zero; the buffer is `NULL`. -/
def WsConn.zero : WsConn := ⟨.connecting, .none, .server, false, false, [], 0, 0, 0, false⟩

/-- `ws_slot`.  After `ws_conn_init` the bytes of `msg_buf` are those in `conn`. -/
structure WsSlot where
  fd : Nat
  used : Bool
  isOpen : Bool
  conn : WsConn
  msgBuf : List UInt8
  hsbuf : List UInt8
  hslen : Nat

/-- `sizeof s->hsbuf`. -/
def hsCap : Nat := 2048

/-- `sizeof chunk`. -/
def chunkCap : Nat := 4096

/-- `(ws_slot){.fd = fd, .used = used}`. -/
def WsSlot.mk₀ (maxMessage fd : Nat) (used : Bool) : WsSlot where
  fd := fd
  used := used
  isOpen := false
  conn := .zero
  msgBuf := List.replicate maxMessage 0
  hsbuf := List.replicate hsCap 0
  hslen := 0

/-- A call of `ws_io_send_*`.  `key` is what `ws_client_mask_key` holds at the call. -/
inductive Send where
  | message (key : MaskKey) (op : WsOpcode) (payload : List UInt8)
  | pong (key : MaskKey) (payload : List UInt8)
  | close (key : MaskKey) (code : UInt16)
  deriving DecidableEq, Repr

/-- What an event handler does: it sends on connections of the pool, sees what each send returns,
and leaves its own state behind. -/
inductive Reply (n : Nat) (σ : Type) where
  | done (app : σ)
  | send (c : Fin n) (m : Send) (k : Int → Reply n σ)

/-- What the build and `ws_serve` fix: `WS_IO_MAX_CONNS`, `WS_MAX_MESSAGE`, and the fields of
`ws_io` that do not change. -/
structure Server (σ : Type) where
  maxConns : Nat
  maxMessage : Nat
  maxMessage_lt : maxMessage + chunkCap < 2 ^ 64
  role : WsRole
  listenFd : Nat
  onEvent : σ → Fin maxConns → Event → Reply maxConns σ

/-- The slots of `ws_io`, and the state of the handler. -/
structure WsIo (n : Nat) (σ : Type) where
  conns : Fin n → WsSlot
  app : σ

namespace WsIo

variable {n : Nat} {σ : Type}

def set (io : WsIo n σ) (i : Fin n) (s : WsSlot) : WsIo n σ :=
  { io with conns := Function.update io.conns i s }

def setConn (io : WsIo n σ) (i : Fin n) (c : WsConn) : WsIo n σ :=
  io.set i { io.conns i with conn := c }

end WsIo

section Pool

variable {n : Nat} {σ : Type}

def allocSlot (io : WsIo n σ) : Option (Fin n) :=
  (List.finRange n).find? fun i => !(io.conns i).used

def slotHasFd (s : WsSlot) (fd : Nat) : Bool := if !s.used then false else decide (s.fd = fd)

/-- `&s->conn == c`, where `s` is slot `i` and `c` points into slot `c`. -/
def slotHasConn (s : WsSlot) (i c : Fin n) : Bool := if !s.used then false else decide (i = c)

def slotByFd (io : WsIo n σ) (fd : Nat) : Option (Fin n) :=
  (List.finRange n).find? fun i => slotHasFd (io.conns i) fd

def slotByConn (io : WsIo n σ) (c : Fin n) : Option (Fin n) :=
  (List.finRange n).find? fun i => slotHasConn (io.conns i) i c

def slotClose (io : WsIo n σ) (i : Fin n) : Sys n (WsIo n σ) := do
  sysClose i (io.conns i).fd
  pure (io.set i { io.conns i with used := false })

/-! ### Sending -/

def sendBuilt (io : WsIo n σ) (c : Fin n) (b : Built) : Sys n Int :=
  match slotByConn io c with
  | none => pure (-1)
  | some i => if b.n = 0 then pure (-1) else writeAll i (io.conns i).fd .frame (b.out.take b.n)

def wsIoSendMessage (maxMessage : Nat) (io : WsIo n σ) (c : Fin n) (key : MaskKey)
    (op : WsOpcode) (payload : List UInt8) : Sys n (Int × WsIo n σ) := do
  let out := List.replicate (maxMessage + 16) 0
  let rc ← sendBuilt io c (wsSendMessage 64 (io.conns c).conn key op payload out)
  pure (rc, io)

def wsIoSendPong (maxMessage : Nat) (io : WsIo n σ) (c : Fin n) (key : MaskKey)
    (payload : List UInt8) : Sys n (Int × WsIo n σ) := do
  let out := List.replicate (maxMessage + 16) 0
  let rc ← sendBuilt io c (wsSendPong 64 (io.conns c).conn key payload out)
  pure (rc, io)

def wsIoSendClose (io : WsIo n σ) (c : Fin n) (key : MaskKey) (code : UInt16) :
    Sys n (Int × WsIo n σ) := do
  let r := wsSendClose 64 (io.conns c).conn key code (List.replicate 32 0)
  let io := io.setConn c r.2.1
  let rc ← sendBuilt io c r.1
  pure (rc, io)

def wsIoSend (maxMessage : Nat) (io : WsIo n σ) (c : Fin n) : Send → Sys n (Int × WsIo n σ)
  | .message key op payload => wsIoSendMessage maxMessage io c key op payload
  | .pong key payload => wsIoSendPong maxMessage io c key payload
  | .close key code => wsIoSendClose io c key code

/-- The handler at work. -/
def reply (maxMessage : Nat) (io : WsIo n σ) : Reply n σ → Sys n (WsIo n σ)
  | .done app => pure { io with app := app }
  | .send c m k => do
    let (rc, io) ← wsIoSend maxMessage io c m
    reply maxMessage io (k rc)

end Pool

/-! ### One client -/

section Client

variable {σ : Type} (sv : Server σ)

def onAccept (io : WsIo sv.maxConns σ) : Sys sv.maxConns (WsIo sv.maxConns σ) := do
  match ← sysAccept with
  | none => pure io
  | some cfd =>
    match allocSlot io with
    | none =>
      Prog.request (Req.refuse cfd)
      pure io
    | some i =>
      Prog.request (Req.seat i cfd)
      pure (io.set i (.mk₀ sv.maxMessage cfd true))

def isTerminal (t : WsEventType) : Bool := decide (t = .close ∨ t = .error)

/-- `io->on_event(io, &s->conn, &ev)`. -/
def onEvent (io : WsIo sv.maxConns σ) (i : Fin sv.maxConns) (ev : Event) :
    Sys sv.maxConns (WsIo sv.maxConns σ) := do
  Prog.request (Req.client i (io.conns i).fd (.event ev))
  reply sv.maxMessage io (sv.onEvent io.app i ev)

/-- The loop of `drain_events`; true to close. -/
def drainLoop (i : Fin sv.maxConns) :
    Nat → WsIo sv.maxConns σ → Sys sv.maxConns (Bool × WsIo sv.maxConns σ)
  | 0, io => pure (false, io)
  | fuel + 1, io => do
    let p := wsConnPoll 64 (io.conns i).conn
    let io := io.setConn i p.conn
    if p.ret = .none then pure (false, io)
    else
      let io ← onEvent sv io i p.event
      if isTerminal p.ev.type then pure (true, io) else drainLoop i fuel io

/-- Each turn consumes bytes of the raw region or ends the loop, so the fuel does not run out
(`drainLoop_fuel`). -/
def drainEvents (io : WsIo sv.maxConns σ) (i : Fin sv.maxConns) :
    Sys sv.maxConns (Bool × WsIo sv.maxConns σ) :=
  drainLoop sv i ((io.conns i).conn.rxLen + 1) io

def feed (io : WsIo sv.maxConns σ) (i : Fin sv.maxConns) (bytes : List UInt8) :
    Sys sv.maxConns (Bool × WsIo sv.maxConns σ) := do
  if bytes.length > 0 then
    Prog.request (Req.client i (io.conns i).fd (.recv bytes))
    let r := wsConnRecv 64 (io.conns i).conn bytes
    let io := io.setConn i r.2
    if r.1 < 0 then pure (true, io) else drainEvents sv io i
  else drainEvents sv io i

def finishHandshake (io : WsIo sv.maxConns σ) (i : Fin sv.maxConns) (bodyAt : Nat) :
    Sys sv.maxConns (Bool × WsIo sv.maxConns σ) := do
  let s := io.conns i
  match computeAccept (s.hsbuf.take bodyAt) with
  | none => pure (true, io)
  | some accept =>
    if (← sendAccept i s.fd accept) ≠ 0 then pure (true, io)
    else
      let conn := wsConnOpen (wsConnInit sv.role s.msgBuf)
      let io := io.set i { s with conn := conn, isOpen := true }
      let off := bodyAt + 4
      feed sv io i (slice s.hsbuf off (s.hslen - off))

def handshakeStep (io : WsIo sv.maxConns σ) (i : Fin sv.maxConns) :
    Sys sv.maxConns (Bool × WsIo sv.maxConns σ) :=
  let s := io.conns i
  match findSub (s.hsbuf.take s.hslen) crlf2 with
  | none => pure (decide (s.hslen ≥ hsCap), io)
  | some bodyAt => finishHandshake sv io i bodyAt

def onHandshakeData (io : WsIo sv.maxConns σ) (i : Fin sv.maxConns) :
    Sys sv.maxConns (Bool × WsIo sv.maxConns σ) := do
  let s := io.conns i
  let r ← sysRead i s.fd (hsCap - s.hslen)
  if r.val.length = 0 then pure (true, io)
  else
    handshakeStep sv (io.set i { s with
      hsbuf := splice s.hsbuf s.hslen r.val, hslen := s.hslen + r.val.length }) i

def onClientData (io : WsIo sv.maxConns σ) (i : Fin sv.maxConns) :
    Sys sv.maxConns (Bool × WsIo sv.maxConns σ) := do
  let s := io.conns i
  if !s.isOpen then onHandshakeData sv io i
  else
    let r ← sysRead i s.fd chunkCap
    if r.val.length = 0 then pure (true, io) else feed sv io i r.val

def serviceClient (io : WsIo sv.maxConns σ) (i : Fin sv.maxConns) :
    Sys sv.maxConns (WsIo sv.maxConns σ) := do
  let (rc, io) ← onClientData sv io i
  if rc then slotClose io i else pure io

/-! ### The loop -/

def onReadable (io : WsIo sv.maxConns σ) (fd : Nat) : Sys sv.maxConns (WsIo sv.maxConns σ) :=
  if fd = sv.listenFd then onAccept sv io
  else match slotByFd io fd with
    | none => pure io
    | some i => serviceClient sv io i

/-- `run_loop`, as far as these descriptors take it. -/
def runLoop (io : WsIo sv.maxConns σ) : List Nat → Sys sv.maxConns (WsIo sv.maxConns σ)
  | [] => pure io
  | fd :: fds => do
    let io ← onReadable sv io fd
    runLoop io fds

/-- The `static ws_io` before the loop. -/
def wsServe (app : σ) : WsIo sv.maxConns σ := ⟨fun _ => .mk₀ sv.maxMessage 0 false, app⟩

end Client

/-- An environment that accepts the descriptors `fds`, lets the reads see `chunks`, one each, and
writes all it is given. -/
def environment {n : Nat} (fds : List Nat) (chunks : List (List UInt8)) (h : Trace n) :
    (e : Req n) → e.Answer
  | .accept => fds[h.countP fun e => e.1 matches .accept]?
  | .refuse _ | .seat .. => ()
  | .client _ _ (.read room) =>
    ⟨(chunks.getD (h.countP fun e => e.1 matches .client _ _ (.read _)) []).take room, by simp⟩
  | .client _ _ (.write _ bytes) => ⟨bytes.length, Nat.le_refl _⟩
  | .client _ _ (.recv _) | .client _ _ (.event _) | .client _ _ .close => ()

/-- A server of `n` slots that answers every message with its bytes. -/
def echoServer (n : Nat) : Server Unit where
  maxConns := n
  maxMessage := 64
  maxMessage_lt := by decide
  role := .server
  listenFd := 3
  onEvent := fun _ i ev => .send i (.message (.replicate 4 0) ev.op ev.data) fun _ => .done ()

def upgradeRequest : List UInt8 := bytesOf ("GET / HTTP/1.1\r\n" ++
  "Sec-WebSocket-Key: dGhlIHNhbXBsZSBub25jZQ==\r\n\r\n")

/-- A short text message, masked. -/
def hiFrame : List UInt8 := [0x81, 0x82, 0x01, 0x02, 0x03, 0x04, 0x49, 0x6B]

end Libws
