import Libws.Framing.CheckedAccept
import Libws.Io.Request

/-!
# Io — the request is read inside its bytes

The part of `io_posix.c` that searches the request and takes the key from it, once more, over a
reader for the bytes received and with the stores into `key[64]` and the arrays of the accept
checked.

* `findSub_eq`, `extractKey_eq`: no check fails, for any request.
* `computeAccept_eq`: what the arrays held before does not count for the accept.
-/

namespace Libws.Checked
open Libws.Support

/-! ### Searching -/

/-- The loop of `ws_memcmp` from `i` on, `n` bytes before its end. -/
def memcmpFrom (a b : Nat → Option UInt8) (i : Nat) : Nat → Option Int
  | 0 => some 0
  | n + 1 => do
    let x ← a i
    let y ← b i
    if x ≠ y then some (x.toNat - y.toNat) else memcmpFrom a b (i + 1) n

def wsMemcmp (a b : Nat → Option UInt8) (n : Nat) : Option Int := memcmpFrom a b 0 n

/-- The loop of `find_sub` from `i` on, with `k` places left to look at. -/
def findFrom (rd : Nat → Option UInt8) (needle : List UInt8) (i : Nat) :
    Nat → Option (Option Nat)
  | 0 => some none
  | k + 1 => do
    let d ← wsMemcmp (fun j => rd (i + j)) (readIn needle 0 needle.length) needle.length
    if d = 0 then some (some i) else findFrom rd needle (i + 1) k

def findSub (rd : Nat → Option UInt8) (len : Nat) (needle : List UInt8) : Option (Option Nat) :=
  findFrom rd needle 0 (len + 1 - needle.length)

/-! ### The key -/

/-- The loop of `skip_spaces` from `i` on, `n` bytes before the end. -/
def skipFrom (rd : Nat → Option UInt8) (i : Nat) : Nat → Option Nat
  | 0 => some i
  | n + 1 => do if isSpace (← rd i) then skipFrom rd (i + 1) n else some i

def skipSpaces (rd : Nat → Option UInt8) (i len : Nat) : Option Nat := skipFrom rd i (len - i)

/-- The loop of `copy_value` from `i` on, `k` bytes before the limit; `n` are copied. -/
def copyFromTo (rd : Nat → Option UInt8) (i n : Nat) (key : List UInt8) :
    Nat → Option (Nat × List UInt8)
  | 0 => some (n, key)
  | k + 1 => do
    let b ← rd i
    if isEol b then some (n, key)
    else copyFromTo rd (i + 1) (n + 1) (← writeIn key n b) k

def copyValue (rd : Nat → Option UInt8) (i limit : Nat) (key : List UInt8) :
    Option (Nat × List UInt8) :=
  copyFromTo rd i 0 key (limit - i)

/-- The length of the value and `key` behind it, or none for `-1`. -/
def extractKey (rd : Nat → Option UInt8) (len : Nat) (key : List UInt8) (cap : Nat) :
    Option (Option (Nat × List UInt8)) := do
  let hdr := bytesOf "Sec-WebSocket-Key:"
  match ← findSub rd len hdr with
  | none => some none
  | some pos =>
    let i ← skipSpaces rd (← checkedAdd 64 pos hdr.length) len
    let most ← checkedAdd 64 i cap
    let limit := if len < most then len else most
    some (some (← copyValue rd i limit key))

/-- What the arrays of `compute_accept` and of its callers hold before the call. -/
structure Locals extends Scratch where
  key : Vector UInt8 64
  accept : Vector UInt8 28

/-- `accept[28]`, or none for `-1`. -/
def computeAccept (st : Locals) (rd : Nat → Option UInt8) (got : Nat) :
    Option (Option (List UInt8)) := do
  match ← extractKey rd got st.key.toList 64 with
  | none => some none
  | some (keyLen, key) =>
    if keyLen = 0 then some none
    else match ← wsHandshakeAccept st.toScratch key keyLen st.accept.toList with
      | .error _ => some none
      | .ok (n, accept) => if n = 28 then some (some accept) else some none

section Passing

variable {rd : Nat → Option UInt8} {buf : List UInt8}

theorem memcmpFrom_eq {a b : List UInt8} {rd' : Nat → Option UInt8} (ha : Agrees rd a)
    (hb : Agrees rd' b) {i n : Nat} (hna : i + n ≤ a.length) (hnb : i + n ≤ b.length) :
    memcmpFrom rd rd' i n = some (match (List.range' i n).find? fun j =>
        decide (a.getD j 0 ≠ b.getD j 0) with
      | none => 0
      | some j => (a.getD j 0).toNat - (b.getD j 0).toNat) := by
  induction n generalizing i with
  | zero => rfl
  | succ n ih =>
      rw [memcmpFrom, ha i (by omega), hb i (by omega), List.range'_succ, List.find?_cons]
      simp only [Option.bind_eq_bind, Option.bind_some]
      by_cases hne : a.getD i 0 ≠ b.getD i 0
      · rw [if_pos hne, decide_eq_true hne]
      · rw [if_neg hne, decide_eq_false hne]
        exact ih (by omega) (by omega)

theorem wsMemcmp_eq {a b : List UInt8} {rd' : Nat → Option UInt8} (ha : Agrees rd a)
    (hb : Agrees rd' b) {n : Nat} (hna : n ≤ a.length) (hnb : n ≤ b.length) :
    wsMemcmp rd rd' n = some (Libws.wsMemcmp a b n) := by
  rw [wsMemcmp, Libws.wsMemcmp, List.range_eq_range']
  exact memcmpFrom_eq ha hb (by omega) (by omega)

theorem findFrom_eq (h : Agrees rd buf) (needle : List UInt8) {i k : Nat}
    (hk : i + k ≤ buf.length + 1 - needle.length) :
    findFrom rd needle i k = some ((List.range' i k).find? fun j =>
      decide (Libws.wsMemcmp (buf.drop j) needle needle.length = 0)) := by
  induction k generalizing i with
  | zero => rfl
  | succ k ih =>
      have hneedle := agrees_bytes needle
      rw [findFrom, wsMemcmp_eq (h.drop i) hneedle (by rw [List.length_drop]; omega)
        (Nat.le_refl _), List.range'_succ, List.find?_cons]
      simp only [Option.bind_eq_bind, Option.bind_some]
      by_cases hz : Libws.wsMemcmp (buf.drop i) needle needle.length = 0
      · rw [if_pos hz, decide_eq_true hz]
      · rw [if_neg hz, decide_eq_false hz]
        exact ih (by omega)

/-- **The checked `find_sub`.** -/
theorem findSub_eq (h : Agrees rd buf) (needle : List UInt8) :
    findSub rd buf.length needle = some (Libws.findSub buf needle) := by
  rw [findSub, findFrom_eq h needle (by omega), Libws.findSub, List.range_eq_range']

theorem agrees_head (h : Agrees rd buf) {i : Nat} (hi : i < buf.length) :
    ∃ b, rd i = some b ∧ buf.drop i = b :: buf.drop (i + 1) := by
  refine ⟨buf[i], ?_, List.drop_eq_getElem_cons hi⟩
  rw [h i hi, List.getD_eq_getElem _ _ hi]

theorem skipFrom_eq (h : Agrees rd buf) {i n : Nat} (hn : n = buf.length - i) :
    skipFrom rd i n = some (Libws.skipSpaces buf i) := by
  induction n generalizing i with
  | zero =>
      rw [skipFrom, Libws.skipSpaces, List.drop_eq_nil_of_le (by omega)]
      rfl
  | succ n ih =>
      obtain ⟨b, hread, hdrop⟩ := agrees_head h (show i < buf.length by omega)
      rw [skipFrom, hread, Libws.skipSpaces, hdrop, List.takeWhile_cons, Option.bind_eq_bind,
        Option.bind_some]
      split
      · rw [ih (by omega), Libws.skipSpaces, List.length_cons]
        exact congrArg some (by omega)
      · rfl

theorem skipSpaces_le {i : Nat} (hi : i ≤ buf.length) : Libws.skipSpaces buf i ≤ buf.length := by
  have hle := (List.takeWhile_prefix (l := buf.drop i) isSpace).length_le
  rw [List.length_drop] at hle
  rw [Libws.skipSpaces]
  omega

/-- The bytes copied stand behind those copied before, and the rest of the array stays. -/
theorem copyFromTo_eq (h : Agrees rd buf) {i k : Nat} (hk : i + k ≤ buf.length)
    (front : List UInt8) {r : List UInt8} (hr : k ≤ r.length) :
    ∃ r', copyFromTo rd i front.length (front ++ r) k
      = some ((front ++ ((buf.drop i).take k).takeWhile fun c => !isEol c).length,
        (front ++ ((buf.drop i).take k).takeWhile fun c => !isEol c) ++ r') := by
  induction k generalizing i front r with
  | zero => exact ⟨r, by simp [copyFromTo]⟩
  | succ k ih =>
      obtain ⟨b, hread, hdrop⟩ := agrees_head h (show i < buf.length by omega)
      obtain ⟨x, r, rfl⟩ : ∃ x s, r = x :: s := List.exists_cons_of_length_pos
        (show 0 < r.length by omega)
      rw [copyFromTo, hread, hdrop, List.take_succ_cons, List.takeWhile_cons]
      simp only [Option.bind_eq_bind, Option.bind_some]
      by_cases heol : isEol b = true
      · rw [if_pos heol, if_neg (by simp [heol])]
        exact ⟨x :: r, by simp⟩
      · have hstore : writeIn (front ++ x :: r) front.length b = some ((front ++ [b]) ++ r) := by
          refine (writeIn_append front (r := x :: r) (i := 0) b (Nat.succ_pos _)).trans ?_
          simp
        rw [List.length_cons] at hr
        obtain ⟨r', hih⟩ := @ih (i + 1) (by omega) (front ++ [b]) r (by omega)
        rw [List.length_append, List.length_singleton] at hih
        rw [if_neg heol, if_pos (by simp [heol]), hstore, Option.bind_some, hih]
        exact ⟨r', by simp⟩

theorem copyValue_eq (h : Agrees rd buf) {i limit : Nat} {key : List UInt8}
    (hi : i ≤ limit) (hlimit : limit ≤ buf.length) (hkey : limit ≤ i + key.length) :
    ∃ r, copyValue rd i limit key = some ((Libws.copyValue buf i limit).length,
      Libws.copyValue buf i limit ++ r) := by
  obtain ⟨r, hr⟩ := copyFromTo_eq h (i := i) (k := limit - i) (by omega) [] (r := key) (by omega)
  have hdrop : (buf.take limit).drop i = (buf.drop i).take (limit - i) := List.drop_take ..
  refine ⟨r, ?_⟩
  rw [Libws.copyValue, hdrop]
  exact hr

/-- **The checked `extract_key`.** -/
theorem extractKey_eq (h : Agrees rd buf) {key : List UInt8} {cap : Nat} (hkey : key.length = cap)
    (hwrap : buf.length + cap < 2 ^ 64) :
    ∃ r, extractKey rd buf.length key cap = some ((Libws.extractKey buf cap).map fun value =>
      (value.length, value ++ r)) := by
  have hhdr : bytesOf "Sec-WebSocket-Key:" ≠ [] := by decide
  unfold extractKey Libws.extractKey
  generalize bytesOf "Sec-WebSocket-Key:" = hdr at hhdr
  dsimp only
  rw [findSub_eq h, Option.bind_eq_bind, Option.bind_some]
  cases hfind : Libws.findSub buf hdr with
  | none => exact ⟨[], rfl⟩
  | some pos =>
      have hpos := length_of_prefix_drop hhdr ((findSub_eq_some_iff hhdr).mp hfind).1
      have hskip := skipSpaces_le hpos
      dsimp only
      rw [checkedAdd_eq (by omega), Option.bind_eq_bind, Option.bind_some, skipSpaces,
        skipFrom_eq h rfl]
      generalize Libws.skipSpaces buf (pos + hdr.length) = i at hskip
      have hbounds : i ≤ (if buf.length < i + cap then buf.length else i + cap) ∧
          (if buf.length < i + cap then buf.length else i + cap) ≤ buf.length ∧
          (if buf.length < i + cap then buf.length else i + cap) ≤ i + key.length := by
        split <;> omega
      obtain ⟨r, hr⟩ := copyValue_eq h hbounds.1 hbounds.2.1 hbounds.2.2
      refine ⟨r, ?_⟩
      rw [Option.bind_some, checkedAdd_eq (by omega), Option.bind_some, hr, Option.bind_eq_bind,
        Option.bind_some, Option.map_some]

theorem extractKey_length_le {cap : Nat} {key : List UInt8}
    (h : Libws.extractKey buf cap = some key) : key.length ≤ cap := by
  rw [Libws.extractKey_eq] at h
  obtain ⟨pos, -, rfl⟩ := Option.map_eq_some_iff.mp h
  exact List.length_take_le ..

/-- **The checked `compute_accept`.** -/
theorem computeAccept_eq (st : Locals) (h : Agrees rd buf) (hwrap : buf.length + 64 < 2 ^ 64) :
    computeAccept st rd buf.length = some (Libws.computeAccept buf) := by
  have hlen : st.key.toList.length = 64 := Vector.length_toList
  obtain ⟨r, hr⟩ := extractKey_eq h hlen hwrap
  unfold computeAccept Libws.computeAccept
  rw [hr, Option.bind_eq_bind, Option.bind_some]
  cases hkey : Libws.extractKey buf 64 with
  | none => rfl
  | some key =>
      have h64 : key.length ≤ wsKeyMax := extractKey_length_le hkey
      have haccept : wsHandshakeAccept st.toScratch (key ++ r) key.length st.accept.toList
          = some (.ok (28, Libws.wsBase64 (Libws.wsSha1 ((key ++ r).take key.length ++ kGuid)))) :=
        wsHandshakeAccept_eq st.toScratch (by rw [List.length_append]; omega) h64
          Vector.length_toList
      rw [List.take_left] at haccept
      obtain ⟨hmodel, h28⟩ := wsHandshakeAccept_of_le h64
      generalize Libws.wsBase64 (Libws.wsSha1 (key ++ kGuid)) = out at haccept hmodel h28
      simp only [Option.map_some, haccept, hmodel, Option.bind_eq_bind, Option.bind_some, h28,
        if_true]
      exact (apply_ite some _ _ _).symm

end Passing

end Libws.Checked
