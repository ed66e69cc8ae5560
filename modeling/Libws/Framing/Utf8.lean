import Libws.Util.Mem

/-!
# Framing — UTF-8 validation

`src/framing/utf8.c`.  The `while` loop of `ws_utf8_valid` runs on fuel.  Every turn advances the
index, so the length of the text is fuel enough: `utf8Scan_iff` holds of any fuel not below it.
-/

namespace Libws

/-- `in_range` of `utf8.c`. -/
def inRange8 (b lo hi : UInt8) : Bool := decide (b ≥ lo ∧ b ≤ hi)

/-- The 256-entry table, one run of equal entries at a time. -/
def kContCount : List UInt8 :=
  List.replicate 0x80 0 ++ List.replicate 66 255 ++ List.replicate 30 1 ++ List.replicate 16 2 ++
    List.replicate 5 3 ++ List.replicate 11 255

def firstLo (b0 : UInt8) : UInt8 :=
  if b0 = 0xE0 then 0xA0 else if b0 = 0xF0 then 0x90 else 0x80

def firstHi (b0 : UInt8) : UInt8 :=
  if b0 = 0xED then 0x9F else if b0 = 0xF4 then 0x8F else 0xBF

/-- `conts_ok(data + p, n)`. -/
def contsOk (data : List UInt8) (p n : Nat) : Bool :=
  (List.range n).all fun i => inRange8 (data.getD (p + i) 0) 0x80 0xBF

def tailOk (data : List UInt8) (i : Nat) (b0 : UInt8) (cont : Nat) : Bool :=
  if !inRange8 (data.getD (i + 1) 0) (firstLo b0) (firstHi b0) then false
  else contsOk data (i + 2) (cont - 1)

/-- The sum is at most `len + 3`: it wraps for no text that ends three bytes below the top of the
address space. -/
def seqFits (i len cont : Nat) : Bool :=
  if cont = 255 then false else decide (i + 1 + cont ≤ len)

def tailGuardOk (data : List UInt8) (i cont : Nat) : Bool :=
  if cont = 0 then true else tailOk data i (data.getD i 0) cont

/-- The index past the sequence at `i`, if it is well formed. -/
def decodeStep (data : List UInt8) (i : Nat) : Option Nat :=
  let cont := (kContCount.getD (data.getD i 0).toNat 255).toNat
  if !seqFits i data.length cont then none
  else if !tailGuardOk data i cont then none
  else some (i + (1 + cont))

/-- `while (i < len) if (!decode_step(…)) return false;`, for at most `fuel` turns. -/
def utf8Scan (data : List UInt8) : Nat → Nat → Bool
  | 0, i => !decide (i < data.length)
  | fuel + 1, i =>
    if i < data.length then
      match decodeStep data i with
      | none => false
      | some i' => utf8Scan data fuel i'
    else true

def wsUtf8Valid (data : List UInt8) : Bool := utf8Scan data data.length 0

end Libws
