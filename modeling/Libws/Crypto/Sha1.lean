import Libws.Util.Mem

/-!
# Crypto — SHA-1

`src/crypto/sha1.c`, function by function.  The file-local names are in their own namespace: the
driver has an `emit` too.
-/

namespace Libws.Sha1
open Libws.Support

def rotl32 (x n : UInt32) : UInt32 := (x <<< n) ||| (x >>> (32 - n))

def kK : List UInt32 := [0x5A827999, 0x6ED9EBA1, 0x8F1BBCDC, 0xCA62C1D6]

def roundF (stage : Nat) (b c d : UInt32) : UInt32 :=
  if stage = 0 then (b &&& c) ||| (~~~b &&& d)
  else if stage = 2 then (b &&& c) ||| (b &&& d) ||| (c &&& d)
  else b ^^^ c ^^^ d

/-- The schedule `w[80]`, which is written in full before it is read. -/
def expand (blk : List UInt8) : List UInt32 :=
  let w := forRange 16 (fun i w => w.set i
    (((blk.getD (i * 4) 0).toUInt32 <<< 24) ||| ((blk.getD (i * 4 + 1) 0).toUInt32 <<< 16) |||
      ((blk.getD (i * 4 + 2) 0).toUInt32 <<< 8) ||| (blk.getD (i * 4 + 3) 0).toUInt32))
    (List.replicate 80 0)
  forRange 64 (fun j w =>
    let i := 16 + j
    w.set i (rotl32 (w.getD (i - 3) 0 ^^^ w.getD (i - 8) 0 ^^^ w.getD (i - 14) 0 ^^^
      w.getD (i - 16) 0) 1)) w

/-- The working variables of a compression. -/
structure Regs where
  a : UInt32
  b : UInt32
  c : UInt32
  d : UInt32
  e : UInt32
  deriving DecidableEq, Repr

/-- One turn of the loop in `compress`. -/
def round (w : List UInt32) (i : Nat) (s : Regs) : Regs :=
  let stage := i / 20
  let t := rotl32 s.a 5 + roundF stage s.b s.c s.d + s.e + w.getD i 0 + kK.getD stage 0
  ⟨t, s.a, rotl32 s.b 30, s.c, s.d⟩

def compress (h : Regs) (blk : List UInt8) : Regs :=
  let s := forRange 80 (round (expand blk)) h
  ⟨h.a + s.a, h.b + s.b, h.c + s.c, h.d + s.d, h.e + s.e⟩

/-- The blocks `last` holds, and `last[128]`. -/
def finalize (tail : List UInt8) (rem : Nat) (bits : UInt64) : Nat × List UInt8 :=
  let last := wsMemcpy (List.replicate 128 0) 0 tail rem
  let last := last.set rem 0x80
  let blocks := if rem ≥ 56 then 2 else 1
  let lenp := blocks * 64 - 8
  (blocks, forRange 8 (fun i l =>
    l.set (lenp + i) (bits >>> (56 - 8 * UInt64.ofNat i)).toUInt8) last)

def compressN (h : Regs) (buf : List UInt8) (n : Nat) : Regs :=
  forRange n (fun i h => compress h (buf.drop (i * 64))) h

/-- The big-endian bytes of a state word. -/
def word (x : UInt32) : List UInt8 :=
  [(x >>> 24).toUInt8, (x >>> 16).toUInt8, (x >>> 8).toUInt8, x.toUInt8]

def emit (h : Regs) : List UInt8 := word h.a ++ word h.b ++ word h.c ++ word h.d ++ word h.e

def init : Regs := ⟨0x67452301, 0xEFCDAB89, 0x98BADCFE, 0x10325476, 0xC3D2E1F0⟩

end Libws.Sha1

namespace Libws

/-- The digest of `msg`. -/
def wsSha1 (msg : List UInt8) : List UInt8 :=
  let full := msg.length / 64
  let h := Sha1.compressN Sha1.init msg full
  let rem := msg.length - full * 64
  let (blocks, last) := Sha1.finalize (msg.drop (full * 64)) rem (UInt64.ofNat msg.length * 8)
  Sha1.emit (Sha1.compressN h last blocks)

theorem wsSha1_length (msg : List UInt8) : (wsSha1 msg).length = 20 := rfl

end Libws
