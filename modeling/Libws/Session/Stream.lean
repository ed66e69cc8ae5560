import Libws.Framing.Utf8
import Libws.Session.Lifecycle

/-!
# Session — the sans-I/O driver

`src/session/stream.c`, function by function.  `w` is the width of `size_t`.  The message buffer
holds the assembled message at `[0, msg_len)` and the unparsed bytes at
`[msg_len, msg_len + rx_len)`; `ev->data` points into it and is an offset.

A function that returns a `ws_event_type` and writes `*c` and `*ev` returns all three as a
`Poll`.  Its last field lists the lifecycle return codes the call drops with `(void)`; no
function reads it.
-/

namespace Libws
open Libws.Support

/-- `ws_event_type`. -/
inductive WsEventType where
  | none
  | message
  | ping
  | pong
  | close
  | error
  deriving DecidableEq, Repr

/-- `ws_event`; `data` is an offset into the message buffer, or `NULL`. -/
structure WsEvent where
  type : WsEventType
  op : WsOpcode
  data : Option Nat
  len : Nat
  closeCode : UInt16
  deriving DecidableEq, Repr

/-- The outcome of a polling function: its result, `*c`, `*ev`, and the return codes dropped. -/
structure Poll where
  ret : WsEventType
  conn : WsConn
  ev : WsEvent
  rcs : List WsStatus
  deriving DecidableEq, Repr

/-- The bytes `ev->data[0, ev->len)` as they stand in the buffer. -/
def Poll.data (p : Poll) : List UInt8 :=
  match p.ev.data with
  | .none => []
  | some off => slice p.conn.msgBuf off p.ev.len

/-! ### Connecting and receiving -/

/-- A buffer whose size is a `size_t`. -/
structure MsgBuf (w : Nat) where
  bytes : List UInt8
  cap_lt : bytes.length < 2 ^ w

def wsConnInit (role : WsRole) (msgBuf : List UInt8) : WsConn where
  state := .connecting
  frag := .none
  role := role
  sentClose := false
  rcvdClose := false
  msgBuf := msgBuf
  msgLen := 0
  rxLen := 0
  closeCode := 0
  failed := false

def wsConnOpen (c : WsConn) : WsConn := (wsLcHandshake c).2

/-- `(int)n`. -/
def toInt (n : Nat) : Int := Int.bmod n (2 ^ 32)

def wsConnRecv (w : Nat) (c : WsConn) (bytes : List UInt8) : Int × WsConn :=
  if szAdd w (szAdd w c.msgLen c.rxLen) bytes.length > c.msgCap then (WsStatus.errTooSmall.code, c)
  else (toInt bytes.length, { c with
    msgBuf := wsMemcpy c.msgBuf (c.msgLen + c.rxLen) bytes bytes.length
    rxLen := szAdd w c.rxLen bytes.length })

/-! ### The raw region -/

/-- The offset `raw(c)` points to. -/
def raw (c : WsConn) : Nat := c.msgLen

/-- The `rx_len` bytes at `raw(c)`. -/
def rawBytes (c : WsConn) : List UInt8 := slice c.msgBuf (raw c) c.rxLen

def rawConsume (w : Nat) (c : WsConn) (take : Nat) : WsConn :=
  let n := szSub w c.rxLen take
  { c with msgBuf := fwdCopy c.msgBuf (raw c) (raw c + take) n, rxLen := n }

def fail (c : WsConn) (ev : WsEvent) : Poll where
  ret := .error
  conn := { c with failed := true, frag := .none, msgLen := 0 }
  ev := { ev with type := .error }
  rcs := []

def emit (c : WsConn) (ev : WsEvent) (t : WsEventType) : Poll where
  ret := t
  conn := c
  ev := { ev with type := t }
  rcs := []

/-- The header, its size and the size of the frame, when the buffered frame is complete. -/
def frameReady (w : Nat) (c : WsConn) : Option (WsFrameHeader × Nat × Nat) :=
  match wsParseHeader (rawBytes c) .zero with
  | .error _ => .none
  | .ok (hn, h) =>
    if hn = 0 then .none
    else
      let total := szAdd w hn (sizeT w h.payloadLen.toNat)
      if c.rxLen ≥ total then some (h, hn, total) else .none

def unmaskPayload (w : Nat) (c : WsConn) (h : WsFrameHeader) (hdr : Nat) : WsConn :=
  if h.masked then
    { c with msgBuf := wsMask c.msgBuf (raw c + hdr) (sizeT w h.payloadLen.toNat) h.maskKey }
  else c

/-! ### Data frames -/

def accumulate (w : Nat) (c : WsConn) (h : WsFrameHeader) (hdr : Nat) : WsConn :=
  let plen := sizeT w h.payloadLen.toNat
  let rest := szSub w (szSub w c.rxLen hdr) plen
  let buf := fwdCopy c.msgBuf (raw c) (raw c + hdr) plen
  let buf := fwdCopy buf (raw c + plen) (raw c + hdr + plen) rest
  { c with msgBuf := buf, msgLen := szAdd w c.msgLen plen, rxLen := rest }

def messageUtf8Ok (c : WsConn) : Bool :=
  if c.frag ≠ .text then true else wsUtf8Valid (slice c.msgBuf 0 c.msgLen)

def finishMessage (c : WsConn) (ev : WsEvent) : Poll :=
  if !messageUtf8Ok c then fail c ev
  else
    let ev := { ev with
      op := if c.frag = .bin then .bin else .text, data := some 0, len := c.msgLen }
    let (rc, c) := wsLcFinishFrag c
    { emit { c with msgLen := 0 } ev .message with rcs := [rc] }

def isInterleave (c : WsConn) (isCont : Bool) : Bool :=
  if isCont then false else decide (c.frag ≠ .none)

def isStrayCont (c : WsConn) (isCont : Bool) : Bool :=
  if !isCont then false else decide (c.frag = .none)

def dataIllegal (w : Nat) (c : WsConn) (h : WsFrameHeader) (isCont : Bool) : Bool :=
  if isStrayCont c isCont then true
  else if isInterleave c isCont then true
  else decide (szAdd w c.msgLen (sizeT w h.payloadLen.toNat) > c.msgCap)

/-- The connection with `frag` set, and the return code dropped. -/
def beginData (c : WsConn) (h : WsFrameHeader) (isCont : Bool) : WsConn × List WsStatus :=
  if isCont then (c, [])
  else
    let (rc, c) := wsLcStartFrag c (if h.opcode = .bin then .bin else .text)
    (c, [rc])

def onData (w : Nat) (c : WsConn) (h : WsFrameHeader) (hdr : Nat) (ev : WsEvent) : Poll :=
  let isCont := decide (h.opcode = .cont)
  if dataIllegal w c h isCont then fail c ev
  else
    let (c, rcs) := beginData c h isCont
    let c := accumulate w c h hdr
    let p := if !h.fin then emit c ev .none else finishMessage c ev
    { p with rcs := rcs ++ p.rcs }

/-! ### Control frames -/

/-- `(uint16_t)((raw(c)[hdr] << 8) | raw(c)[hdr + 1])`. -/
def closeCodeAt (c : WsConn) (hdr : Nat) : UInt16 :=
  ((c.msgBuf.getD (raw c + hdr) 0).toUInt16 <<< 8) |||
    (c.msgBuf.getD (raw c + (hdr + 1)) 0).toUInt16

def closeCodeReasonOk (c : WsConn) (hdr plen : Nat) : Bool :=
  if !wsCloseCodeSendable (closeCodeAt c hdr) then false
  else wsUtf8Valid (slice c.msgBuf (raw c + hdr + 2) (plen - 2))

def closeBodyOk (w : Nat) (c : WsConn) (h : WsFrameHeader) (hdr : Nat) : Bool :=
  let plen := sizeT w h.payloadLen.toNat
  if plen = 0 then true
  else if plen = 1 then false
  else closeCodeReasonOk c hdr plen

def onClose (w : Nat) (c : WsConn) (h : WsFrameHeader) (hdr : Nat) (ev : WsEvent) : Poll :=
  if !closeBodyOk w c h hdr then fail c ev
  else
    let plen := sizeT w h.payloadLen.toNat
    let c := if plen ≥ 2 then { c with closeCode := closeCodeAt c hdr } else c
    let ev := { ev with closeCode := c.closeCode }
    let (rc, c) := wsLcRecvClose c
    { emit (rawConsume w c (szAdd w hdr plen)) ev .close with rcs := [rc] }

def onControl (w : Nat) (c : WsConn) (h : WsFrameHeader) (hdr : Nat) (ev : WsEvent) : Poll :=
  if h.opcode = .close then onClose w c h hdr ev
  else
    let plen := sizeT w h.payloadLen.toNat
    let ev := { ev with data := some (raw c + hdr), len := plen }
    let t := if h.opcode = .ping then .ping else .pong
    emit (rawConsume w c (szAdd w hdr plen)) ev t

/-! ### Polling -/

def route (w : Nat) (c : WsConn) (h : WsFrameHeader) (hdr : Nat) (ev : WsEvent) : Poll :=
  match wsClassifyOpcode h.opcode with
  | .control => onControl w c h hdr ev
  | .data => onData w c h hdr ev
  | .reserved => fail c ev

def maskOk (c : WsConn) (h : WsFrameHeader) : Bool :=
  if c.role ≠ .server then true else h.masked

/-- `admit`: the failure that stops the frame, if there is one. -/
def admitFrame (c : WsConn) (h : WsFrameHeader) (ev : WsEvent) : Option Poll :=
  if !wsLcActive c then some (fail c ev)
  else if !maskOk c h then some (fail c ev)
  else .none

def clearEvent : WsEvent := ⟨.none, .text, .none, 0, 0⟩

def dispatch (w : Nat) (c : WsConn) (h : WsFrameHeader) (hdr : Nat) (ev : WsEvent) : Poll :=
  match admitFrame c h ev with
  | some out => out
  | .none => route w (unmaskPayload w c h hdr) h hdr ev

def wsConnPoll (w : Nat) (c : WsConn) : Poll :=
  let ev := clearEvent
  if c.failed then emit c ev .error
  else match frameReady w c with
    | .none => ⟨.none, c, ev, []⟩
    | some (h, hdr, _) => dispatch w c h hdr ev

/-! ### Sending

`key` is what `ws_client_mask_key` holds at the call. -/

/-- The bytes written, `0` on failure, and the caller's buffer after the call. -/
structure Built where
  n : Nat
  out : List UInt8
  deriving DecidableEq, Repr

def outHeader (c : WsConn) (key : MaskKey) (h : WsFrameHeader) : WsFrameHeader :=
  if c.role = .client then { h with masked := true, maskKey := key } else h

def frameFits (w hn len cap : Nat) : Bool := decide (szSub w cap hn ≥ len)

def buildFrame (w : Nat) (c : WsConn) (key : MaskKey) (op : WsOpcode) (payload out : List UInt8) :
    Built :=
  let h := outHeader c key { WsFrameHeader.zero with
    opcode := op, payloadLen := UInt64.ofNat payload.length, fin := true, masked := false }
  match wsBuildHeader h out with
  | .error _ => ⟨0, out⟩
  | .ok (hn, buf) =>
    if !frameFits w hn payload.length out.length then ⟨0, buf⟩
    else
      let buf := wsMemcpy buf hn payload payload.length
      let buf := if h.masked then wsMask buf hn payload.length h.maskKey else buf
      ⟨szAdd w hn payload.length, buf⟩

def wsSendMessage (w : Nat) (c : WsConn) (key : MaskKey) (op : WsOpcode)
    (payload out : List UInt8) : Built :=
  if !wsLcActive c then ⟨0, out⟩ else buildFrame w c key op payload out

def wsSendPong (w : Nat) (c : WsConn) (key : MaskKey) (payload out : List UInt8) : Built :=
  if !wsLcActive c then ⟨0, out⟩ else buildFrame w c key .pong payload out

/-- The frame, the connection after, and the return code dropped. -/
def wsSendClose (w : Nat) (c : WsConn) (key : MaskKey) (code : UInt16) (out : List UInt8) :
    Built × WsConn × List WsStatus :=
  if c.state ≠ .open then (⟨0, out⟩, c, [])
  else
    let body := [(code >>> 8).toUInt8, code.toUInt8]
    let b := buildFrame w c key .close body out
    if b.n > 0 then
      let (rc, c) := wsLcSendClose c
      (b, c, [rc])
    else (b, c, [])

end Libws
