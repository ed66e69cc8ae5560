import Libws.Framing.Handshake

/-!
# Io — the upgrade request

The part of `src/io/io_posix.c` that reads the HTTP request.  `find_sub` finds the first place
where a text stands (`findSub_eq_some_iff`), and finding it does not depend on what follows it
(`FirstAt.append`).  The accept is computed from what stands behind the first place of the field
name (`accept_of_first_field`), whether or not a line starts there (`accept_not_by_line`).
-/

namespace Libws
open Libws.Support

/-- A NUL-terminated string literal of the source, without the NUL. -/
def bytesOf (s : String) : List UInt8 := s.toUTF8.data.toList

/-! ### Searching -/

/-- The offset, or none for `-1`. -/
def findSub (buf needle : List UInt8) : Option Nat :=
  (List.range (buf.length + 1 - needle.length)).find? fun i =>
    decide (wsMemcmp (buf.drop i) needle needle.length = 0)

/-- `needle` stands in `buf` at `pos`, and nowhere before. -/
def FirstAt (needle buf : List UInt8) (pos : Nat) : Prop :=
  needle <+: buf.drop pos ∧ ∀ j < pos, ¬ needle <+: buf.drop j

section Search

variable {needle buf : List UInt8} {pos : Nat}

theorem length_of_prefix_drop (hne : needle ≠ []) (h : needle <+: buf.drop pos) :
    pos + needle.length ≤ buf.length := by
  have hle := h.length_le
  have := List.length_pos_iff.mpr hne
  rw [List.length_drop] at hle
  omega

/-- The places `find_sub` looks at are the places where `needle` can stand. -/
theorem findSub_spec (hne : needle ≠ []) (i : Nat) :
    (i < buf.length + 1 - needle.length ∧ wsMemcmp (buf.drop i) needle needle.length = 0) ↔
      needle <+: buf.drop i := by
  constructor
  · rintro ⟨hi, hz⟩
    exact (wsMemcmp_eq_zero_iff (by rw [List.length_drop]; omega)).mp hz
  · intro h
    have hlen := length_of_prefix_drop hne h
    exact ⟨by omega, (wsMemcmp_eq_zero_iff (by rw [List.length_drop]; omega)).mpr h⟩

theorem findSub_eq_none_iff (hne : needle ≠ []) :
    findSub buf needle = none ↔ ∀ i, ¬ needle <+: buf.drop i := by
  rw [findSub, List.find?_eq_none]
  constructor
  · intro h i hi
    obtain ⟨hlt, hz⟩ := (findSub_spec hne i).mpr hi
    exact h i (List.mem_range.mpr hlt) (decide_eq_true hz)
  · intro h i hi hz
    exact h i ((findSub_spec hne i).mp ⟨List.mem_range.mp hi, of_decide_eq_true hz⟩)

/-- **`find_sub` finds the first place.** -/
theorem findSub_eq_some_iff (hne : needle ≠ []) :
    findSub buf needle = some pos ↔ FirstAt needle buf pos := by
  have hrange : ∀ n i, (List.range n).find? (fun i =>
      decide (wsMemcmp (buf.drop i) needle needle.length = 0)) = some i ↔
      (i < n ∧ wsMemcmp (buf.drop i) needle needle.length = 0) ∧
        ∀ j < i, ¬ wsMemcmp (buf.drop j) needle needle.length = 0 := by
    intro n i
    rw [List.find?_range_eq_some, List.mem_range, decide_eq_true_iff]
    constructor
    · rintro ⟨hz, hi, hbefore⟩
      exact ⟨⟨hi, hz⟩, fun j hj => by simpa using hbefore j hj⟩
    · rintro ⟨⟨hi, hz⟩, hbefore⟩
      exact ⟨hz, hi, fun j hj => by simpa using hbefore j hj⟩
  rw [findSub, hrange, findSub_spec hne, FirstAt]
  constructor
  · rintro ⟨h, hbefore⟩
    refine ⟨h, fun j hj hp => hbefore j hj ((findSub_spec hne j).mpr hp).2⟩
  · rintro ⟨h, hbefore⟩
    have hlen := length_of_prefix_drop hne h
    exact ⟨h, fun j hj hz => hbefore j hj ((findSub_spec hne j).mp ⟨by omega, hz⟩)⟩

/-- An occurrence that ends inside `buf` is one of `buf`. -/
theorem prefix_drop_append {i : Nat} {s : List UInt8} (hi : i + needle.length ≤ buf.length) :
    needle <+: (buf ++ s).drop i ↔ needle <+: buf.drop i := by
  have hle : i ≤ buf.length := by omega
  rw [List.drop_append_of_le_length hle]
  constructor
  · intro h
    exact List.prefix_of_prefix_length_le h (List.prefix_append _ s)
      (by rw [List.length_drop]; omega)
  · intro h
    exact h.trans (List.prefix_append _ s)

/-- **The first place stands** when more follows. -/
theorem FirstAt.append (hne : needle ≠ []) (h : FirstAt needle buf pos) (s : List UInt8) :
    FirstAt needle (buf ++ s) pos := by
  have hlen := length_of_prefix_drop hne h.1
  refine ⟨(prefix_drop_append hlen).mpr h.1, fun j hj hp => ?_⟩
  exact h.2 j hj ((prefix_drop_append (by omega)).mp hp)

theorem FirstAt.unique {pos' : Nat} (h : FirstAt needle buf pos) (h' : FirstAt needle buf pos') :
    pos = pos' := by
  by_contra hne
  rcases Nat.lt_or_gt_of_ne hne with hlt | hlt
  · exact h'.2 pos hlt h.1
  · exact h.2 pos' hlt h'.1

end Search

/-! ### The key -/

def isSpace (c : UInt8) : Bool := c = 0x20 || c = 0x09

def isEol (c : UInt8) : Bool := c = 0x0D || c = 0x0A

def skipSpaces (buf : List UInt8) (i : Nat) : Nat := i + ((buf.drop i).takeWhile isSpace).length

def copyValue (buf : List UInt8) (i limit : Nat) : List UInt8 :=
  ((buf.take limit).drop i).takeWhile fun c => !isEol c

/-- The value of `Sec-WebSocket-Key`, cut at `cap` bytes. -/
def extractKey (buf : List UInt8) (cap : Nat) : Option (List UInt8) :=
  let hdr := bytesOf "Sec-WebSocket-Key:"
  match findSub buf hdr with
  | none => none
  | some pos =>
    let i := skipSpaces buf (pos + hdr.length)
    let limit := if buf.length < i + cap then buf.length else i + cap
    some (copyValue buf i limit)

/-- `accept[28]`, when there is a key. -/
def computeAccept (req : List UInt8) : Option (List UInt8) :=
  match extractKey req 64 with
  | none => none
  | some key =>
    if key.length = 0 then none
    else match wsHandshakeAccept key with
      | .error _ => none
      | .ok out => if out.length = 28 then some out else none

/-! ### Where the accept comes from -/

def keyField : List UInt8 := bytesOf "Sec-WebSocket-Key:"

/-- What stands behind a field name: the text up to the end of the line, without the blanks in
front of it. -/
def fieldValue (rest : List UInt8) : List UInt8 :=
  (rest.dropWhile isSpace).takeWhile fun c => !isEol c

theorem drop_skipSpaces (buf : List UInt8) (i : Nat) :
    buf.drop (skipSpaces buf i) = (buf.drop i).dropWhile isSpace := by
  rw [skipSpaces, ← List.drop_drop]
  calc (buf.drop i).drop ((buf.drop i).takeWhile isSpace).length
      = ((buf.drop i).takeWhile isSpace ++ (buf.drop i).dropWhile isSpace).drop
          ((buf.drop i).takeWhile isSpace).length := by rw [List.takeWhile_append_dropWhile]
    _ = (buf.drop i).dropWhile isSpace := List.drop_left

/-- The key is the value behind the first field name, cut at `cap`. -/
theorem extractKey_eq (buf : List UInt8) (cap : Nat) :
    extractKey buf cap = (findSub buf keyField).map fun pos =>
      (fieldValue (buf.drop (pos + keyField.length))).take cap := by
  -- the limit is the end of the buffer or `cap` bytes from the value on, whichever comes first
  have hlimit : ∀ i, buf.take (if buf.length < i + cap then buf.length else i + cap)
      = buf.take (i + cap) := by
    intro i
    split
    · rw [List.take_length, List.take_of_length_le (by omega)]
    · rfl
  have hvalue : ∀ i, copyValue buf (skipSpaces buf i)
      (if buf.length < skipSpaces buf i + cap then buf.length else skipSpaces buf i + cap)
      = (fieldValue (buf.drop i)).take cap := by
    intro i
    rw [copyValue, hlimit, List.drop_take, Nat.add_sub_cancel_left, drop_skipSpaces, fieldValue,
      List.take_takeWhile]
  have hname : bytesOf "Sec-WebSocket-Key:" = keyField := rfl
  unfold extractKey
  simp only [hname]
  cases findSub buf keyField with
  | none => rfl
  | some pos => exact congrArg some (hvalue _)

/-- A key of at most 64 bytes makes an accept, unless it is empty. -/
theorem computeAccept_of_key {req key : List UInt8} (h : extractKey req 64 = some key)
    (hlen : key.length ≤ 64) :
    computeAccept req
      = if key = [] then none else some (wsBase64 (wsSha1 (key ++ kGuid))) := by
  obtain ⟨haccept, h28⟩ := wsHandshakeAccept_of_le hlen
  unfold computeAccept
  simp only [h, haccept, List.length_eq_zero_iff]
  rw [if_pos h28]

/-- **The accept is that of the first field name.**  `compute_accept` searches the request for
`Sec-WebSocket-Key:`, spelled so, and takes the first place where it stands, which need not be the
start of a line.  There is no accept when the name does not stand anywhere, and none when the value
behind it is empty.  A value of at most 64 bytes makes the accept of RFC 6455, with the blanks at
the end of the value part of the key. -/
theorem accept_of_first_field (req : List UInt8) :
    ((∀ i, ¬ keyField <+: req.drop i) → computeAccept req = none) ∧
    ∀ pos, FirstAt keyField req pos →
      let value := fieldValue (req.drop (pos + keyField.length))
      (value = [] → computeAccept req = none) ∧
      (value ≠ [] → value.length ≤ 64 →
        computeAccept req = some (wsBase64 (wsSha1 (value ++ kGuid)))) := by
  have hne : keyField ≠ [] := by decide
  constructor
  · intro h
    unfold computeAccept
    rw [extractKey_eq, (findSub_eq_none_iff hne).mpr h]
    rfl
  · intro pos h value
    have hkey : extractKey req 64 = some (value.take 64) := by
      rw [extractKey_eq, (findSub_eq_some_iff hne).mpr h]
      rfl
    have haccept := computeAccept_of_key hkey (List.length_take_le 64 value)
    constructor
    · intro hnil
      rw [haccept, hnil]
      rfl
    · intro hsome hlen
      rw [haccept, List.take_of_length_le hlen, if_neg hsome]

/-- A tab in front of the key, and a space behind it. -/
theorem accept_of_first_field_blanks :
    computeAccept (bytesOf "GET / HTTP/1.1\r\nSec-WebSocket-Key:\tdGhlIHNhbXBsZQ== \r\n\r\n")
      = some (wsBase64 (wsSha1 (bytesOf "dGhlIHNhbXBsZQ== " ++ kGuid))) := by
  set req := bytesOf "GET / HTTP/1.1\r\nSec-WebSocket-Key:\tdGhlIHNhbXBsZQ== \r\n\r\n"
  have hfirst : FirstAt keyField req 16 := (findSub_eq_some_iff (by decide)).mp (by decide +kernel)
  have hvalue : fieldValue (req.drop (16 + keyField.length)) = bytesOf "dGhlIHNhbXBsZQ== " := by
    decide +kernel
  have haccept := ((accept_of_first_field req).2 16 hfirst).2
  rw [hvalue] at haccept
  exact haccept (by decide +kernel) (by decide +kernel)

/-! ### Lines -/

/-- A request head: its lines, and the empty line. -/
def headOf (lines : List (List UInt8)) : List UInt8 :=
  (lines.map (· ++ [0x0D, 0x0A])).flatten ++ [0x0D, 0x0A]

def lower (c : UInt8) : UInt8 := if 0x41 ≤ c ∧ c ≤ 0x5A then c + 0x20 else c

/-- The line is a `Sec-WebSocket-Key` field, whatever the case of its letters. -/
def isKeyLine (line : List UInt8) : Bool :=
  (line.take keyField.length).map lower = keyField.map lower

/-- **The search does not look at lines.**  The name in the target of a request makes an accept
where no line is a key field, and a key field in small letters makes none. -/
theorem accept_not_by_line :
    let target := bytesOf "GET /?Sec-WebSocket-Key:x HTTP/1.1"
    let host := bytesOf "Host: a"
    let small := bytesOf "sec-websocket-key: dGhlIHNhbXBsZSBub25jZQ=="
    isKeyLine host = false ∧ (computeAccept (headOf [target, host])).isSome ∧
      isKeyLine small ∧ computeAccept (headOf [bytesOf "GET / HTTP/1.1", small]) = none := by
  decide +kernel

end Libws
