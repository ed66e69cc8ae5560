import Mathlib.Data.Nat.Find
import Libws.Support.Blocks
import Libws.Support.Bytes

/-!
# Crypto — SHA-1 as RFC 3174 defines it

The standard's own definition, over a whole padded message: nothing here is read off `sha1.c`.
The section numbers are those of RFC 3174.  `schedule` is a function of the index, the padding
takes the least number of zeros (`padZeros`), and the digest folds `compress` over the blocks of
the padded message.
-/

namespace Libws.Rfc3174
open Libws.Support

/-- `S^n(X)`, the circular left shift (§3). -/
def rotl (n : Nat) (x : UInt32) : UInt32 := ⟨x.toBitVec.rotateLeft n⟩

/-! ### Functions and constants (§5) -/

/-- `f(t;B,C,D)`. -/
def f (t : Nat) (b c d : UInt32) : UInt32 :=
  if t < 20 then (b &&& c) ||| (~~~b &&& d)
  else if t < 40 then b ^^^ c ^^^ d
  else if t < 60 then (b &&& c) ||| (b &&& d) ||| (c &&& d)
  else b ^^^ c ^^^ d

/-- `K(t)`. -/
def k (t : Nat) : UInt32 :=
  if t < 20 then 0x5A827999
  else if t < 40 then 0x6ED9EBA1
  else if t < 60 then 0x8F1BBCDC
  else 0xCA62C1D6

/-! ### The message digest (§6.1) -/

/-- Word `t` of a block, most significant byte first. -/
def word (block : List UInt8) (t : Nat) : UInt32 := UInt32.ofNat (beVal (slice block (4 * t) 4))

/-- `W(t)`: the words of the block, continued by the recurrence. -/
def schedule (m : Nat → UInt32) : Nat → UInt32
  | t + 16 => rotl 1 (schedule m (t + 13) ^^^ schedule m (t + 8) ^^^ schedule m (t + 2) ^^^
      schedule m t)
  | t => m t

theorem schedule_lt (m : Nat → UInt32) {t : Nat} (h : t < 16) : schedule m t = m t := by
  rw [schedule]
  intro j hj
  omega

theorem schedule_add (m : Nat → UInt32) (t : Nat) : schedule m (t + 16) = rotl 1
    (schedule m (t + 13) ^^^ schedule m (t + 8) ^^^ schedule m (t + 2) ^^^ schedule m t) := by
  rw [schedule]

/-- Five words: a buffer `A` to `E`, or `H0` to `H4`. -/
structure Buffer where
  a : UInt32
  b : UInt32
  c : UInt32
  d : UInt32
  e : UInt32
  deriving DecidableEq, Repr

/-- Step (d) for one `t`. -/
def step (w : Nat → UInt32) (t : Nat) : Buffer → Buffer
  | ⟨a, b, c, d, e⟩ => ⟨rotl 5 a + f t b c d + e + w t + k t, a, rotl 30 b, c, d⟩

/-- Step (e). -/
def Buffer.add (h s : Buffer) : Buffer :=
  ⟨h.a + s.a, h.b + s.b, h.c + s.c, h.d + s.d, h.e + s.e⟩

/-- The compression function: steps (a) to (e) for one block. -/
def compress (h : Buffer) (block : List UInt8) : Buffer :=
  h.add (forRange 80 (step (schedule (word block))) h)

/-- The `H`s before the first block. -/
def initial : Buffer := ⟨0x67452301, 0xEFCDAB89, 0x98BADCFE, 0x10325476, 0xC3D2E1F0⟩

/-- The message digest: `H0 H1 H2 H3 H4`, each most significant byte first. -/
def Buffer.bytes (h : Buffer) : List UInt8 :=
  [h.a, h.b, h.c, h.d, h.e].flatMap fun x => beBytes 4 x.toNat

/-! ### Padding (§4) -/

theorem exists_padZeros (n : Nat) : ∃ z, 64 ∣ n + 1 + z + 8 := ⟨(119 - n % 64) % 64, by omega⟩

/-- The least number of zero bytes that makes a message of `n` bytes, the byte `0x80`, the zeros
and the eight bytes of the length whole blocks. -/
def padZeros (n : Nat) : Nat := Nat.find (exists_padZeros n)

/-- The message with its padding. -/
def pad (msg : List UInt8) : List UInt8 :=
  msg ++ [0x80] ++ List.replicate (padZeros msg.length) 0 ++ beBytes 8 (8 * msg.length)

theorem padZeros_eq {n z : Nat} (hd : 64 ∣ n + 1 + z + 8) (hz : z < 64) : padZeros n = z := by
  rw [padZeros, Nat.find_eq_iff]
  exact ⟨hd, fun m hm hdvd => by omega⟩

/-- The digest of a message. -/
def digest (msg : List UInt8) : List UInt8 := ((blocks 64 (pad msg)).foldl compress initial).bytes

end Libws.Rfc3174
