import Libws.Support.Checked
import Libws.Framing.Utf8Valid
import Libws.Framing.Frame

/-!
# Framing — parsing and validating stay inside their input

`ws_utf8_valid` and `ws_parse_header` once more, over a reader instead of an array: `rd i` is what
is read at index `i`, or `none` where nothing may be read.  A function that gives a result has
read only where the reader allows it.

* `wsUtf8Valid_eq`, `wsParseHeader_eq`: a reader that allows the indices below `len` is enough,
  and the result is the one without checks.
* `utf8_exact`: `ws_utf8_valid` accepts exactly UTF-8, and reads nothing at `len` or beyond.
-/

namespace Libws.Checked
open Libws.Support

/-! ### UTF-8 -/

section Utf8

variable (rd : Nat → Option UInt8)

def contsOk : Nat → Nat → Option Bool
  | _, 0 => some true
  | p, n + 1 => do
    if !inRange8 (← rd p) 0x80 0xBF then some false else contsOk (p + 1) n

def tailOk (i : Nat) (b0 : UInt8) (cont : Nat) : Option Bool := do
  if !inRange8 (← rd (i + 1)) (firstLo b0) (firstHi b0) then some false
  else contsOk rd (i + 2) (cont - 1)

def tailGuardOk (i cont : Nat) : Option Bool := do
  if cont = 0 then some true else tailOk rd i (← rd i) cont

def decodeStep (len i : Nat) : Option (Option Nat) := do
  let cont := (kContCount.getD (← rd i).toNat 255).toNat
  if !seqFits i len cont then some none
  else if !(← tailGuardOk rd i cont) then some none
  else some (some (i + (1 + cont)))

def utf8Scan (len : Nat) : Nat → Nat → Option Bool
  | 0, i => some (!decide (i < len))
  | fuel + 1, i => do
    if i < len then
      match ← decodeStep rd len i with
      | none => some false
      | some i' => utf8Scan len fuel i'
    else some true

def wsUtf8Valid (len : Nat) : Option Bool := utf8Scan rd len len 0

end Utf8

/-- The reader allows the indices of `data`, and finds its bytes there. -/
def Agrees (rd : Nat → Option UInt8) (data : List UInt8) : Prop :=
  ∀ i, i < data.length → rd i = some (data.getD i 0)

section Utf8

variable {rd : Nat → Option UInt8} {data : List UInt8}

theorem contsOk_succ (data : List UInt8) (p n : Nat) : Libws.contsOk data p (n + 1)
    = if !inRange8 (data.getD p 0) 0x80 0xBF then false else Libws.contsOk data (p + 1) n := by
  have hnext : (fun i => inRange8 (data.getD (p + i) 0) 0x80 0xBF) ∘ Nat.succ
      = fun i => inRange8 (data.getD (p + 1 + i) 0) 0x80 0xBF := by
    funext i
    rw [Function.comp, Nat.succ_eq_add_one, show p + (i + 1) = p + 1 + i by omega]
  rw [Libws.contsOk, List.range_succ_eq_map, List.all_cons, List.all_map, hnext, Nat.add_zero,
    Libws.contsOk]
  cases inRange8 (data.getD p 0) 0x80 0xBF <;> rfl

theorem contsOk_eq (h : Agrees rd data) {p n : Nat} (hn : p + n ≤ data.length) :
    contsOk rd p n = some (Libws.contsOk data p n) := by
  induction n generalizing p with
  | zero => rfl
  | succ n ih =>
      rw [contsOk, h p (by omega), contsOk_succ, ih (by omega)]
      exact (apply_ite some _ _ _).symm

theorem tailOk_eq (h : Agrees rd data) {i cont : Nat} (b0 : UInt8) (hpos : 0 < cont)
    (hfit : i + 1 + cont ≤ data.length) :
    tailOk rd i b0 cont = some (Libws.tailOk data i b0 cont) := by
  rw [tailOk, h (i + 1) (by omega), contsOk_eq h (by omega)]
  exact (apply_ite some _ _ _).symm

theorem tailGuardOk_eq (h : Agrees rd data) {i cont : Nat} (hfit : i + 1 + cont ≤ data.length) :
    tailGuardOk rd i cont = some (Libws.tailGuardOk data i cont) := by
  rw [tailGuardOk, Libws.tailGuardOk]
  split
  · rfl
  · rw [h i (by omega)]
    exact tailOk_eq h _ (by omega) hfit

theorem decodeStep_eq (h : Agrees rd data) {i : Nat} (hi : i < data.length) :
    decodeStep rd data.length i = some (Libws.decodeStep data i) := by
  rw [decodeStep, h i hi, Libws.decodeStep]
  change (if _ then _ else _) = some (if _ then _ else _)
  generalize (kContCount.getD (data.getD i 0).toNat 255).toNat = cont
  split
  · rfl
  · rename_i hfits
    have hfit := ((seqFits_iff _ _ _).mp (by simpa using hfits)).2
    rw [tailGuardOk_eq h hfit]
    exact (apply_ite some _ _ _).symm

theorem utf8Scan_eq (h : Agrees rd data) (fuel i : Nat) :
    utf8Scan rd data.length fuel i = some (Libws.utf8Scan data fuel i) := by
  induction fuel generalizing i with
  | zero => rfl
  | succ fuel ih =>
      rw [utf8Scan, Libws.utf8Scan]
      split
      · rename_i hi
        rw [decodeStep_eq h hi]
        cases Libws.decodeStep data i with
        | none => rfl
        | some i' => exact ih i'
      · rfl

/-- **The checked validator.** -/
theorem wsUtf8Valid_eq (h : Agrees rd data) :
    wsUtf8Valid rd data.length = some (Libws.wsUtf8Valid data) := utf8Scan_eq h data.length 0

end Utf8

/-! ### The frame header -/

section Header

variable (rd : Nat → Option UInt8)

/-- `read_be(buf + off, n)`. -/
def readBe (off n : Nat) : Option UInt64 :=
  forRangeM n (fun i v => do some ((v <<< 8) ||| (← rd (off + i)).toUInt64)) 0

def rawLen (ext : Nat) : Option UInt64 := do
  if ext = 0 then some ((← rd 1) &&& 0x7F).toUInt64 else readBe rd 2 ext

def decodeLen (len : Nat) : Option (Except WsStatus (UInt64 × Nat)) := do
  let ext := extBytes ((← rd 1) &&& 0x7F)
  let hdr := 2 + ext
  if len < hdr then some (.error .errNeedMore)
  else
    let plen ← rawLen rd ext
    if !lenOk ext plen then some (.error .errProtocol) else some (.ok (plen, hdr))

def fillFields (plen : UInt64) (out : WsFrameHeader) : Option WsFrameHeader := do
  let b0 ← rd 0
  let b1 ← rd 1
  some { out with
    fin := decide (b0 &&& 0x80 ≠ 0)
    rsv := (b0 >>> 4) &&& 0x07
    opcode := b0 &&& 0x0F
    masked := decide (b1 &&& 0x80 ≠ 0)
    payloadLen := plen }

def keyAt (hdr : Nat) : Option MaskKey := do
  some #v[← rd hdr, ← rd (hdr + 1), ← rd (hdr + 2), ← rd (hdr + 3)]

def parseMask (len hdr : Nat) (out : WsFrameHeader) :
    Option (Except WsStatus (Nat × WsFrameHeader)) := do
  if !out.masked then some (.ok (hdr, out))
  else if len < hdr + 4 then some (.error .errNeedMore)
  else some (.ok (hdr + 4, { out with maskKey := ← keyAt rd hdr }))

def finishParse (len hdr : Nat) (out : WsFrameHeader) :
    Option (Except WsStatus (Nat × WsFrameHeader)) :=
  if !headerWellFormed out then some (.error .errProtocol) else parseMask rd len hdr out

def wsParseHeader (len : Nat) (out : WsFrameHeader) :
    Option (Except WsStatus (Nat × WsFrameHeader)) := do
  if len < 2 then some (.error .errNeedMore)
  else match ← decodeLen rd len with
    | .error rc => some (.error rc)
    | .ok (plen, hdr) => finishParse rd len hdr (← fillFields rd plen out)

end Header

section Header

variable {rd : Nat → Option UInt8} {buf : List UInt8}

theorem readBe_eq (h : Agrees rd buf) {off n : Nat} (hn : off + n ≤ buf.length) :
    readBe rd off n = some (Libws.readBe (buf.drop off) n) := by
  refine forRangeM_eq (P := fun _ => True) trivial fun i v hi _ => ⟨?_, trivial⟩
  rw [h (off + i) (by omega), List.getD_eq_getElem?_getD, List.getD_eq_getElem?_getD,
    List.getElem?_drop]
  rfl

theorem rawLen_eq (h : Agrees rd buf) {ext : Nat} (hfit : 2 + ext ≤ buf.length) :
    rawLen rd ext = some (Libws.rawLen buf ext) := by
  rw [rawLen, Libws.rawLen]
  split
  · rw [h 1 (by omega)]
    rfl
  · exact readBe_eq h hfit

theorem decodeLen_eq (h : Agrees rd buf) (hlen : 2 ≤ buf.length) :
    decodeLen rd buf.length = some (Libws.decodeLen buf) := by
  rw [decodeLen, h 1 (by omega), Libws.decodeLen]
  change (if _ then _ else _) = some (if _ then _ else _)
  split
  · rfl
  · rw [rawLen_eq h (by omega)]
    exact (apply_ite some _ _ _).symm

theorem fillFields_eq (h : Agrees rd buf) (hlen : 2 ≤ buf.length) (plen : UInt64)
    (out : WsFrameHeader) :
    fillFields rd plen out = some (Libws.fillFields buf plen out) := by
  rw [fillFields, h 0 (by omega), h 1 (by omega)]
  rfl

theorem keyAt_eq (h : Agrees rd buf) {hdr : Nat} (hfit : hdr + 4 ≤ buf.length) :
    keyAt rd hdr = some (Libws.keyAt buf hdr) := by
  rw [keyAt, h hdr (by omega), h (hdr + 1) (by omega), h (hdr + 2) (by omega),
    h (hdr + 3) (by omega)]
  rfl

theorem parseMask_eq (h : Agrees rd buf) (hdr : Nat) (out : WsFrameHeader) :
    parseMask rd buf.length hdr out = some (Libws.parseMask buf hdr out) := by
  rw [parseMask, Libws.parseMask]
  split
  · rfl
  · split
    · rfl
    · rw [keyAt_eq h (by omega)]
      rfl

/-- **The checked parser.** -/
theorem wsParseHeader_eq (h : Agrees rd buf) (out : WsFrameHeader) :
    wsParseHeader rd buf.length out = some (Libws.wsParseHeader buf out) := by
  rw [wsParseHeader, Libws.wsParseHeader]
  split
  · rfl
  · rename_i hlen
    have hlen : 2 ≤ buf.length := by omega
    rw [decodeLen_eq h hlen]
    cases Libws.decodeLen buf with
    | error rc => rfl
    | ok r =>
        change (fillFields rd r.1 out >>= fun out => finishParse rd buf.length r.2 out) = _
        rw [fillFields_eq h hlen]
        change finishParse rd buf.length r.2 _ = some (Libws.finishParse buf r.2 _)
        rw [finishParse, Libws.finishParse, parseMask_eq h]
        exact (apply_ite some _ _ _).symm

end Header

end Libws.Checked

namespace Libws

/-- **`ws_utf8_valid` is exact.**  It accepts exactly the encodings of lists of Unicode scalar
values, and reads nothing at `len` or beyond: over a reader that allows no such read it still
gives its result. -/
theorem utf8_exact (data : List UInt8) :
    (wsUtf8Valid data = true ↔ ∃ cs : List Char, data = cs.flatMap String.utf8EncodeChar) ∧
      Checked.wsUtf8Valid (fun i => data[i]?) data.length = some (wsUtf8Valid data) := by
  refine ⟨wsUtf8Valid_iff data, Checked.wsUtf8Valid_eq fun i hi => ?_⟩
  rw [List.getD_eq_getElem?_getD, List.getElem?_eq_getElem hi]
  rfl

end Libws
