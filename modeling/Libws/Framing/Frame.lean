import Libws.Util.Mem

/-!
# Framing — the frame header

`src/framing/frame.c` and the types of `include/ws/ws.h` it uses.  A C function that returns a
count or a negative `ws_status` returns `Except WsStatus` here.  A `(buf, len)` pair of arguments
is the list of the `len` bytes at `buf`, and the `cap` of an output buffer is the length of its
list.

`ws_opcode` is a C enumeration that the parser also stores reserved values in, so an opcode is a
byte and the enumerators are constants.
-/

namespace Libws
open Libws.Support

/-- `ws_status`. -/
inductive WsStatus where
  | ok
  | errNeedMore
  | errProtocol
  | errTooSmall
  | errIllegalState
  deriving DecidableEq, Repr

/-- The enumerators' values. -/
def WsStatus.code : WsStatus → Int
  | .ok => 0
  | .errNeedMore => -1
  | .errProtocol => -2
  | .errTooSmall => -3
  | .errIllegalState => -4

/-! ### Close codes -/

/-- `in_range` of `frame.c`. -/
def inRange16 (c lo hi : UInt16) : Bool := decide (c ≥ lo ∧ c ≤ hi)

def closeReserved (c : UInt16) : Bool := decide (c = 1004 ∨ c = 1005 ∨ c = 1006)

def closeProtocolOk (code : UInt16) : Bool :=
  if !inRange16 code 1000 1011 then false else !closeReserved code

def wsCloseCodeSendable (code : UInt16) : Bool :=
  if closeProtocolOk code then true else inRange16 code 3000 4999

/-! ### Opcodes -/

abbrev WsOpcode := UInt8

namespace WsOpcode

def cont : WsOpcode := 0x0
def text : WsOpcode := 0x1
def bin : WsOpcode := 0x2
def close : WsOpcode := 0x8
def ping : WsOpcode := 0x9
def pong : WsOpcode := 0xA

end WsOpcode

/-- `ws_opclass`. -/
inductive WsOpclass where
  | data
  | control
  | reserved
  deriving DecidableEq, Repr

def kOpClass : List WsOpclass :=
  [.data, .data, .data, .reserved,
   .reserved, .reserved, .reserved, .reserved,
   .control, .control, .control, .reserved,
   .reserved, .reserved, .reserved, .reserved]

def wsClassifyOpcode (opcode : UInt8) : WsOpclass := kOpClass.getD (opcode &&& 0x0F).toNat .reserved

/-! ### The header -/

/-- `ws_frame_header`. -/
structure WsFrameHeader where
  opcode : WsOpcode
  payloadLen : UInt64
  maskKey : MaskKey
  fin : Bool
  masked : Bool
  rsv : UInt8
  deriving DecidableEq, Repr

/-- `ws_frame_header h = {0}`; also what an uninitialised local is taken to hold. -/
def WsFrameHeader.zero : WsFrameHeader := ⟨0, 0, Vector.replicate 4 0, false, false, 0⟩

/-! ### Parsing -/

def readBe (buf : List UInt8) (n : Nat) : UInt64 :=
  forRange n (fun i v => (v <<< 8) ||| (buf.getD i 0).toUInt64) 0

def extBytes (l7 : UInt8) : Nat :=
  if l7 = 126 then 2 else if l7 = 127 then 8 else 0

def rawLen (buf : List UInt8) (ext : Nat) : UInt64 :=
  if ext = 0 then (buf.getD 1 0 &&& 0x7F).toUInt64 else readBe (buf.drop 2) ext

def len64Ok (v : UInt64) : Bool :=
  if v >>> 63 ≠ 0 then false else decide (v > 0xFFFF)

def lenOk (ext : Nat) (v : UInt64) : Bool :=
  if ext = 0 then true else if ext = 2 then decide (v ≥ 126) else len64Ok v

/-- The payload length and the header bytes before the mask key. -/
def decodeLen (buf : List UInt8) : Except WsStatus (UInt64 × Nat) :=
  let ext := extBytes (buf.getD 1 0 &&& 0x7F)
  let hdr := 2 + ext
  if buf.length < hdr then .error .errNeedMore
  else
    let len := rawLen buf ext
    if !lenOk ext len then .error .errProtocol else .ok (len, hdr)

def controlTooBig (op : WsOpcode) (plen : UInt64) : Bool :=
  decide (wsClassifyOpcode op = .control ∧ plen > 125)

def controlFragmented (op : WsOpcode) (fin : Bool) : Bool :=
  decide (wsClassifyOpcode op = .control ∧ fin = false)

def fillFields (buf : List UInt8) (plen : UInt64) (out : WsFrameHeader) : WsFrameHeader :=
  { out with
    fin := decide (buf.getD 0 0 &&& 0x80 ≠ 0)
    rsv := (buf.getD 0 0 >>> 4) &&& 0x07
    opcode := buf.getD 0 0 &&& 0x0F
    masked := decide (buf.getD 1 0 &&& 0x80 ≠ 0)
    payloadLen := plen }

/-- The four bytes of `buf` from `hdr`. -/
def keyAt (buf : List UInt8) (hdr : Nat) : MaskKey := Vector.ofFn fun i => buf.getD (hdr + i) 0

def parseMask (buf : List UInt8) (hdr : Nat) (out : WsFrameHeader) :
    Except WsStatus (Nat × WsFrameHeader) :=
  if !out.masked then .ok (hdr, out)
  else if buf.length < hdr + 4 then .error .errNeedMore
  else .ok (hdr + 4, { out with maskKey := keyAt buf hdr })

def headerWellFormed (h : WsFrameHeader) : Bool :=
  if h.rsv ≠ 0 then false
  else if controlTooBig h.opcode h.payloadLen then false
  else !controlFragmented h.opcode h.fin

def finishParse (buf : List UInt8) (hdr : Nat) (out : WsFrameHeader) :
    Except WsStatus (Nat × WsFrameHeader) :=
  if !headerWellFormed out then .error .errProtocol else parseMask buf hdr out

/-- `out` is what the caller's struct holds before the call: an unmasked header leaves its
`mask_key` in place.  No caller reads the struct after an error. -/
def wsParseHeader (buf : List UInt8) (out : WsFrameHeader) :
    Except WsStatus (Nat × WsFrameHeader) :=
  if buf.length < 2 then .error .errNeedMore
  else match decodeLen buf with
    | .error rc => .error rc
    | .ok (plen, hdr) => finishParse buf hdr (fillFields buf plen out)

/-! ### Building -/

/-- `write_be(buf + off, v, n)`. -/
def writeBe (buf : List UInt8) (off : Nat) (v : UInt64) (n : Nat) : List UInt8 :=
  forRange n (fun i b => b.set (off + (n - 1 - i)) (v >>> (8 * UInt64.ofNat i)).toUInt8) buf

def hdrLen (plen : UInt64) : Nat :=
  if plen < 126 then 2 else if plen ≤ 0xFFFF then 4 else 10

def lenField (plen : UInt64) (hdr : Nat) : UInt8 :=
  if hdr = 2 then plen.toUInt8 else if hdr = 4 then 126 else 127

def setHighBit (b : UInt8) (flag : Bool) : UInt8 := if flag then b ||| 0x80 else b

def buildLen (h : WsFrameHeader) (buf : List UInt8) (hdr : Nat) : List UInt8 :=
  let buf := buf.set 1 (setHighBit (lenField h.payloadLen hdr) h.masked)
  if hdr > 2 then writeBe buf 2 h.payloadLen (hdr - 2) else buf

def buildByte0 (h : WsFrameHeader) : UInt8 := setHighBit (h.opcode &&& 0x0F) h.fin

def buildMask (h : WsFrameHeader) (buf : List UInt8) (hdr : Nat) : List UInt8 :=
  if h.masked then wsMemcpy buf hdr h.maskKey.toList 4 else buf

def totalLen (hdr : Nat) (masked : Bool) : Nat := if masked then hdr + 4 else hdr

/-- The bytes written and the buffer after. -/
def wsBuildHeader (h : WsFrameHeader) (buf : List UInt8) : Except WsStatus (Nat × List UInt8) :=
  let hdr := hdrLen h.payloadLen
  let need := totalLen hdr h.masked
  if buf.length < need then .error .errTooSmall
  else .ok (need, buildMask h (buildLen h (buf.set 0 (buildByte0 h)) hdr) hdr)

end Libws
