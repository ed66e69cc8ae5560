import Libws.Framing.Frame

/-!
# Session — the connection and its lifecycle

The driver types of `include/ws/ws.h` and `src/session/lifecycle.c`.  The caller's message buffer
is a list of bytes and `msg_cap` its length, so `msg_cap` is not a field.
-/

namespace Libws

/-- `ws_role`. -/
inductive WsRole where
  | server
  | client
  deriving DecidableEq, Repr

/-- `ws_state`. -/
inductive WsState where
  | connecting
  | open
  | closing
  | closed
  deriving DecidableEq, Repr

/-- `ws_frag`: the type of the message in flight. -/
inductive WsFrag where
  | none
  | text
  | bin
  deriving DecidableEq, Repr

/-- `ws_conn`. -/
structure WsConn where
  state : WsState
  frag : WsFrag
  role : WsRole
  sentClose : Bool
  rcvdClose : Bool
  msgBuf : List UInt8
  msgLen : Nat
  rxLen : Nat
  closeCode : UInt16
  failed : Bool
  deriving DecidableEq, Repr

/-- `msg_cap`. -/
def WsConn.msgCap (c : WsConn) : Nat := c.msgBuf.length

/-- TLA+ `Active`. -/
def wsLcActive (c : WsConn) : Bool := decide (c.state = .open ∨ c.state = .closing)

def wsLcHandshake (c : WsConn) : WsStatus × WsConn :=
  if c.state ≠ .connecting then (.errIllegalState, c) else (.ok, { c with state := .open })

def wsLcSendClose (c : WsConn) : WsStatus × WsConn :=
  if c.state ≠ .open then (.errIllegalState, c)
  else (.ok, { c with sentClose := true, state := .closing })

def wsLcRecvClose (c : WsConn) : WsStatus × WsConn :=
  if !wsLcActive c then (.errIllegalState, c)
  else (.ok, { c with
    rcvdClose := true, sentClose := true, state := .closed, frag := .none, msgLen := 0 })

def wsLcStartFrag (c : WsConn) (startType : WsFrag) : WsStatus × WsConn :=
  if !wsLcActive c then (.errIllegalState, c)
  else if c.frag ≠ .none then (.errIllegalState, c)
  else (.ok, { c with frag := startType })

def wsLcFinishFrag (c : WsConn) : WsStatus × WsConn :=
  if !wsLcActive c then (.errIllegalState, c)
  else if c.frag = .none then (.errIllegalState, c)
  else (.ok, { c with frag := .none })

end Libws
