import Libws.Io.Request
import Libws.Support.Checked
import Libws.Support.Decimal
import Libws.Session.Stream

/-!
# Trace — the lines of the debug log

`src/trace.c`.  A line is put together in an array of the stack, which nothing has written before,
and goes to `stderr` in one `write`.  Here a cell that is not yet written is `none`, and a
computation gives `none` when it leaves an array, reads a cell that was never written, or negates
`LONG_MIN`.

* `Line.of cap text`: an array of `cap` cells that holds `text`, cut at its end.  Each function
  appends to the text (`putStr_of`, `putNum_of`, `putInt_of`).
* `TracePoint.stderr_eq`: what a trace point writes, for all arguments.
* `trace_log`: **the lines of whole points are read in one way**.
-/

namespace Libws.Debug
open Libws.Support

/-! ### The functions of `trace.c` -/

/-- `char a[n];`. -/
def fresh (n : Nat) : List (Option UInt8) := List.replicate n none

/-- The array of a line, and the offset of `p` in it; `end` is behind the array. -/
structure Line where
  chars : List (Option UInt8)
  p : Nat

/-- `*p++ = b`. -/
def Line.put (l : Line) (b : UInt8) : Option Line := do
  some ⟨← writeIn l.chars l.p (some b), l.p + 1⟩

def putStr : Line → List UInt8 → Option Line
  | l, [] => some l
  | l, b :: s => if l.p < l.chars.length then l.put b >>= fun l => putStr l s else some l

def putRev (tmp : List (Option UInt8)) : Line → Nat → Option Line
  | l, 0 => some l
  | l, n + 1 =>
    if l.p < l.chars.length then do
      let b ← (readIn tmp 0 tmp.length n).join
      l.put b >>= fun l => putRev tmp l n
    else some l

/-- The loop of `put_num`: the array of digits, and how many it holds. -/
def storeDigits (tmp : List (Option UInt8)) (n v : Nat) : Option (List (Option UInt8) × Nat) := do
  let tmp ← writeIn tmp n (some (UInt8.ofNat (48 + v % 10)))
  if h : v / 10 = 0 then some (tmp, n + 1)
  else storeDigits tmp (n + 1) (v / 10)
termination_by v
decreasing_by omega

def putNum (l : Line) (v : UInt64) : Option Line := do
  let (tmp, n) ← storeDigits (fresh 20) 0 v.toNat
  putRev tmp l n

/-- `-v` for a `long`. -/
def negLong (v : Int64) : Option Int64 := if v = Int64.minValue then none else some (-v)

def putInt (l : Line) (v : Int64) : Option Line :=
  if v < 0 then do
    let l ← putStr l (bytesOf "-")
    putNum l (← negLong v).toUInt64
  else putNum l v.toUInt64

def evNames : List String := ["NONE", "MESSAGE", "PING", "PONG", "CLOSE", "ERROR"]

def evName (t : Int) : List UInt8 :=
  if t < 0 ∨ t > 5 then bytesOf "?" else bytesOf (evNames.getD t.toNat "")

def stateNames : List String := ["CONNECTING", "OPEN", "CLOSING", "CLOSED"]

def stateName (s : Int) : List UInt8 :=
  if s < 0 ∨ s > 3 then bytesOf "?" else bytesOf (stateNames.getD s.toNat "")

/-- `sys_write2(2, line, p - line)`: the bytes written. -/
def Line.written (l : Line) : Option (List UInt8) := (l.chars.take l.p).mapM id

def wsTraceEvent (evType : Int) (len : UInt64) (closeCode : UInt16) : Option (List UInt8) := do
  let p ← putStr ⟨fresh 64, 0⟩ (bytesOf "[ws] event=")
  let p ← putStr p (evName evType)
  let p ← putStr p (bytesOf " len=")
  let p ← putNum p len
  let p ←
    if evType = 4 then do
      let p ← putStr p (bytesOf " code=")
      putNum p closeCode.toUInt64
    else some p
  let p ← putStr p (bytesOf "\n")
  p.written

def wsTraceState («from» «to» : Int) (why : List UInt8) : Option (List UInt8) := do
  let p ← putStr ⟨fresh 80, 0⟩ (bytesOf "[ws] state ")
  let p ← putStr p (stateName «from»)
  let p ← putStr p (bytesOf " -> ")
  let p ← putStr p (stateName «to»)
  let p ← putStr p (bytesOf " (")
  let p ← putStr p why
  let p ← putStr p (bytesOf ")\n")
  p.written

def wsTraceIo (what : List UInt8) (fd : Int32) (detail : Int64) : Option (List UInt8) := do
  let p ← putStr ⟨fresh 64, 0⟩ (bytesOf "[ws] io ")
  let p ← putStr p what
  let p ← putStr p (bytesOf " fd=")
  let p ← putInt p fd.toInt64
  let p ← putStr p (bytesOf " detail=")
  let p ← putInt p detail
  let p ← putStr p (bytesOf "\n")
  p.written

/-! ### What they write -/

/-- An array of `cap` cells that holds `text` as far as it fits. -/
def Line.of (cap : Nat) (text : List UInt8) : Line where
  chars := (text.take cap).map some ++ fresh (cap - text.length)
  p := (text.take cap).length

section Line

variable {cap : Nat} {text : List UInt8}

theorem Line.of_length (cap : Nat) (text : List UInt8) : (Line.of cap text).chars.length = cap := by
  simp only [Line.of, fresh, List.length_append, List.length_map, List.length_take,
    List.length_replicate]
  omega

/-- A full line takes nothing more. -/
theorem Line.of_full (h : cap ≤ text.length) (s : List UInt8) :
    Line.of cap (text ++ s) = Line.of cap text := by
  rw [Line.of, Line.of, List.take_append_of_le_length h, List.length_append,
    Nat.sub_eq_zero_of_le h, Nat.sub_eq_zero_of_le (le_trans h (Nat.le_add_right ..))]

theorem Line.of_p_lt : (Line.of cap text).p < (Line.of cap text).chars.length ↔
    text.length < cap := by
  rw [Line.of_length]
  simp only [Line.of, List.length_take]
  omega

theorem Line.put_of (h : text.length < cap) (b : UInt8) :
    (Line.of cap text).put b = some (Line.of cap (text ++ [b])) := by
  obtain ⟨k, hk⟩ : ∃ k, cap - text.length = k + 1 := ⟨cap - text.length - 1, by omega⟩
  have hlen : (text ++ [b]).length = text.length + 1 := by simp
  have hchars : (Line.of cap text).chars = text.map some ++ none :: fresh k := by
    rw [Line.of, List.take_of_length_le (le_of_lt h), hk]
    rfl
  have hp : (Line.of cap text).p = (text.map some).length + 0 := by
    rw [Line.of, List.take_of_length_le (le_of_lt h), List.length_map, Nat.add_zero]
  rw [Line.put, hchars, hp, writeIn_append _ _ (Nat.succ_pos _)]
  rw [Line.of, List.take_of_length_le (by omega), hlen, show cap - (text.length + 1) = k by omega]
  simp

/-- Appending one byte at a time, while there is room. -/
theorem putStr_of (s : List UInt8) :
    putStr (Line.of cap text) s = some (Line.of cap (text ++ s)) := by
  induction s generalizing text with
  | nil => rw [putStr, List.append_nil]
  | cons b s ih =>
      rw [putStr]
      split
      · rename_i hlt
        rw [Line.put_of (Line.of_p_lt.mp hlt)]
        have := @ih (text ++ [b])
        rw [List.append_assoc] at this
        exact this
      · rename_i hge
        rw [Line.of_full (Nat.le_of_not_lt (mt Line.of_p_lt.mpr hge))]

/-- The digits are emitted in the reverse of the order they are stored in. -/
theorem putRev_of (ds : List UInt8) (rest : List (Option UInt8)) :
    putRev (ds.map some ++ rest) (Line.of cap text) ds.length
      = some (Line.of cap (text ++ ds.reverse)) := by
  induction ds using List.reverseRecOn generalizing text rest with
  | nil => simp [putRev]
  | append_singleton ds d ih =>
      have htmp : (ds ++ [d]).map some ++ rest = ds.map some ++ (some d :: rest) := by simp
      rw [htmp, List.length_append, List.length_singleton, putRev]
      split
      · rename_i hlt
        have hread : (readIn (ds.map some ++ (some d :: rest)) 0
            (ds.map some ++ (some d :: rest)).length ds.length).join = some d := by
          rw [readIn, if_pos (by simp)]
          simp
        rw [hread]
        change (Line.put _ _ >>= _) = _
        rw [Line.put_of (Line.of_p_lt.mp hlt)]
        have := @ih (text ++ [d]) (some d :: rest)
        rw [List.append_assoc] at this
        rw [List.reverse_append]
        exact this
      · rename_i hge
        rw [Line.of_full (Nat.le_of_not_lt (mt Line.of_p_lt.mpr hge))]

/-- The digits of `v` are stored from the last to the first, in an array that has room for
them. -/
theorem storeDigits_eq (ds : List (Option UInt8)) {r v : Nat} (h : (decimal v).length ≤ r) :
    storeDigits (ds ++ fresh r) ds.length v
      = some (ds ++ ((decimal v).reverse.map some ++ fresh (r - (decimal v).length)),
        ds.length + (decimal v).length) := by
  induction v using Nat.strongRecOn generalizing ds r with
  | ind v ih =>
      have hpos := List.length_pos_of_ne_nil (decimal_ne_nil v)
      obtain ⟨k, rfl⟩ : ∃ k, r = k + 1 := ⟨r - 1, by omega⟩
      have hwrite : writeIn (ds ++ fresh (k + 1)) ds.length (some (UInt8.ofNat (48 + v % 10)))
          = some ((ds ++ [some (UInt8.ofNat (48 + v % 10))]) ++ fresh k) := by
        refine (writeIn_append ds (r := fresh (k + 1)) (i := 0) _ (by simp [fresh])).trans ?_
        simp [fresh, List.replicate_succ]
      rw [storeDigits, hwrite]
      change (if h : v / 10 = 0 then _ else _) = _
      rcases Nat.lt_or_ge v 10 with hlt | hge
      · have hone := decimal_lt hlt
        rw [dif_pos (Nat.div_eq_of_lt hlt), hone, Nat.mod_eq_of_lt hlt]
        simp
      · have hlast := decimal_ge hge
        have hlen : (decimal v).length = (decimal (v / 10)).length + 1 := by
          rw [hlast, List.length_append, List.length_singleton]
        have := ih (v / 10) (by omega) (ds ++ [some (UInt8.ofNat (48 + v % 10))])
          (r := k) (by omega)
        rw [List.length_append, List.length_singleton] at this
        rw [dif_neg (by omega), this, hlast]
        simp
        omega

/-- Twenty digits are enough for an `unsigned long`. -/
theorem putNum_of (v : UInt64) :
    putNum (Line.of cap text) v = some (Line.of cap (text ++ decimal v.toNat)) := by
  have hlen : (decimal v.toNat).length ≤ 20 :=
    decimal_length_le (by decide) (lt_trans v.toNat_lt (by decide))
  have hstore := storeDigits_eq [] hlen
  rw [List.nil_append, List.length_nil, List.nil_append, Nat.zero_add] at hstore
  have hrev := @putRev_of cap text (decimal v.toNat).reverse
    (fresh (20 - (decimal v.toNat).length))
  rw [List.reverse_reverse, List.length_reverse] at hrev
  rw [putNum, hstore]
  exact hrev

end Line

/-- The text of an integer. -/
def intText (v : Int) : List UInt8 :=
  if v < 0 then bytesOf "-" ++ decimal v.natAbs else decimal v.natAbs

/-- `(unsigned long)v`. -/
theorem toNat_toUInt64 {v : Int64} (h : 0 ≤ v.toInt) : v.toUInt64.toNat = v.toInt.natAbs := by
  rw [Int64.toNat_toUInt64_of_le (Int64.le_iff_toInt_le.mpr h)]
  change v.toInt.toNat = _
  omega

theorem toInt_neg {v : Int64} (h : v ≠ Int64.minValue) : (-v).toInt = -v.toInt := by
  have hne : v.toInt ≠ -2 ^ 63 := fun he => h (Int64.toInt_inj.mp he)
  have hle := v.le_toInt
  have hlt := v.toInt_lt
  rw [Int64.toInt_neg]
  exact Int.bmod_eq_of_le (by omega) (by omega)

/-- `LONG_MIN` apart, an integer goes out as its text. -/
theorem putInt_of {v : Int64} (hv : v ≠ Int64.minValue) (cap : Nat) (text : List UInt8) :
    putInt (Line.of cap text) v = some (Line.of cap (text ++ intText v.toInt)) := by
  have hiff : v < 0 ↔ v.toInt < 0 := Int64.lt_iff_toInt_lt
  rw [putInt, intText]
  by_cases hneg : v < 0
  · have hlt := hiff.mp hneg
    have hnum : (-v).toUInt64.toNat = v.toInt.natAbs := by
      rw [toNat_toUInt64 (by rw [toInt_neg hv]; omega), toInt_neg hv, Int.natAbs_neg]
    rw [if_pos hneg, if_pos hlt, putStr_of, negLong, if_neg hv, ← hnum, ← List.append_assoc]
    exact putNum_of _
  · have hge := mt hiff.mpr hneg
    rw [if_neg hneg, if_neg hge, putNum_of, toNat_toUInt64 (by omega)]

/-! ### Trace points -/

/-- The value of an enumerator. -/
def eventCode : WsEventType → Int
  | .none => 0
  | .message => 1
  | .ping => 2
  | .pong => 3
  | .close => 4
  | .error => 5

def stateCode : WsState → Int
  | .connecting => 0
  | .open => 1
  | .closing => 2
  | .closed => 3

/-- A join point of `include/ws/trace.h`, with its arguments. -/
inductive TracePoint where
  | event (type : WsEventType) (len : UInt64) (closeCode : UInt16)
  | state («from» «to» : WsState) (why : List UInt8)
  | io (what : List UInt8) (fd : Int32) (detail : Int64)
  deriving DecidableEq

namespace TracePoint

/-- What a join point writes to `stderr`. -/
def stderr : TracePoint → Option (List UInt8)
  | .event type len closeCode => wsTraceEvent (eventCode type) len closeCode
  | .state s t why => wsTraceState (stateCode s) (stateCode t) why
  | .io what fd detail => wsTraceIo what fd detail

/-- The size of the array of its line. -/
def cap : TracePoint → Nat
  | .event .. => 64
  | .state .. => 80
  | .io .. => 64

/-- The line, whatever its length. -/
def text : TracePoint → List UInt8
  | .event type len closeCode => bytesOf "[ws] event=" ++ evName (eventCode type) ++ bytesOf " len=" ++
    decimal len.toNat ++
    (if type = .close then bytesOf " code=" ++ decimal closeCode.toNat else []) ++ bytesOf "\n"
  | .state s t why => bytesOf "[ws] state " ++ stateName (stateCode s) ++ bytesOf " -> " ++
    stateName (stateCode t) ++ bytesOf " (" ++ why ++ bytesOf ")\n"
  | .io what fd detail => bytesOf "[ws] io " ++ what ++ bytesOf " fd=" ++ intText fd.toInt ++
    bytesOf " detail=" ++ intText detail.toInt ++ bytesOf "\n"

/-- The arguments for which the line is put together without a negation of `LONG_MIN`. -/
def Defined : TracePoint → Prop
  | .io _ _ detail => detail ≠ Int64.minValue
  | _ => True

/-- The arguments whose line is not cut. -/
def Fits : TracePoint → Prop
  | .event .. => True
  | .state _ _ why => why.length ≤ 41
  | .io what _ _ => what.length ≤ 12

/-- The arguments that can be read off the line: a text has no separator in it, and only a close has
a code. -/
def Plain : TracePoint → Prop
  | .event type _ closeCode => type = .close ∨ closeCode = 0
  | .state _ _ why => 10 ∉ why
  | .io what _ _ => 10 ∉ what ∧ 32 ∉ what

end TracePoint

theorem Line.written_of (cap : Nat) (text : List UInt8) :
    (Line.of cap text).written = some (text.take cap) := by
  have htake : (Line.of cap text).chars.take (Line.of cap text).p = (text.take cap).map some := by
    rw [Line.of, List.take_append_of_le_length (by simp)]
    exact List.take_of_length_le (by simp)
  rw [Line.written, htake]
  induction text.take cap with
  | nil => rfl
  | cons b s ih => simp [List.mapM_cons, ih]

theorem toInt64_ne_minValue (fd : Int32) : fd.toInt64 ≠ Int64.minValue := by
  intro h
  have := congrArg Int64.toInt h
  rw [Int32.toInt_toInt64] at this
  have hle := fd.le_toInt
  rw [this] at hle
  revert hle
  decide

/-- **What is written**: the line, as far as its array goes. -/
theorem TracePoint.stderr_eq {p : TracePoint} (h : p.Defined) :
    p.stderr = some (p.text.take p.cap) := by
  have h64 : (⟨fresh 64, 0⟩ : Line) = Line.of 64 [] := rfl
  have h80 : (⟨fresh 80, 0⟩ : Line) = Line.of 80 [] := rfl
  cases p with
  | event type len closeCode =>
      have hcode : closeCode.toUInt64.toNat = closeCode.toNat := rfl
      have hclose : eventCode type = 4 ↔ type = .close := by cases type <;> decide
      simp only [stderr, wsTraceEvent, h64, putStr_of, putNum_of, Option.bind_eq_bind,
        Option.bind_some, hclose, hcode, text, cap]
      split <;> simp [Line.written_of]
  | state s t why =>
      simp [stderr, wsTraceState, h80, putStr_of, Line.written_of, text, cap]
  | io what fd detail =>
      simp [stderr, wsTraceIo, h64, putStr_of, putInt_of h, putInt_of (toInt64_ne_minValue fd),
        Line.written_of, text, cap]

/-! ### Sizes -/

theorem evName_length_le (type : WsEventType) : (evName (eventCode type)).length ≤ 7 := by
  cases type <;> decide

theorem stateName_length_le (s : WsState) : (stateName (stateCode s)).length ≤ 10 := by
  cases s <;> decide

theorem intText_length_le {v : Int} {k : Nat} (hk : 0 < k) (h : v.natAbs < 10 ^ k) :
    (intText v).length ≤ k + 1 := by
  have hdec := decimal_length_le hk h
  have hminus : (bytesOf "-").length = 1 := by decide
  rw [intText]
  split
  · rw [List.length_append]
    omega
  · omega

/-- An event is never cut; a state change and a step of the server are not, when their text is
short. -/
theorem TracePoint.text_length_le {p : TracePoint} (h : p.Fits) : p.text.length ≤ p.cap := by
  cases p with
  | event type len closeCode =>
      have hname := evName_length_le type
      have hlen := decimal_length_le (k := 20) (by decide) (lt_trans len.toNat_lt (by decide))
      have hcode := decimal_length_le (k := 5) (by decide) (lt_trans closeCode.toNat_lt (by decide))
      have h₁ : (bytesOf "[ws] event=").length = 11 := by decide
      have h₂ : (bytesOf " len=").length = 5 := by decide
      have h₃ : (bytesOf " code=").length = 6 := by decide
      have h₄ : (bytesOf "\n").length = 1 := by decide
      simp only [text, cap, List.length_append]
      split
      · rw [List.length_append]
        omega
      · rw [List.length_nil]
        omega
  | state s t why =>
      have hs := stateName_length_le s
      have ht := stateName_length_le t
      have h₁ : (bytesOf "[ws] state ").length = 11 := by decide
      have h₂ : (bytesOf " -> ").length = 4 := by decide
      have h₃ : (bytesOf " (").length = 2 := by decide
      have h₄ : (bytesOf ")\n").length = 2 := by decide
      simp only [Fits] at h
      simp only [text, cap, List.length_append]
      omega
  | io what fd detail =>
      have hfd : (intText fd.toInt).length ≤ 11 := by
        refine intText_length_le (by decide) ?_
        have := fd.le_toInt
        have := fd.toInt_lt
        omega
      have hdetail : (intText detail.toInt).length ≤ 20 := by
        refine intText_length_le (by decide) ?_
        have := detail.le_toInt
        have := detail.toInt_lt
        omega
      have h₁ : (bytesOf "[ws] io ").length = 8 := by decide
      have h₂ : (bytesOf " fd=").length = 4 := by decide
      have h₃ : (bytesOf " detail=").length = 8 := by decide
      have h₄ : (bytesOf "\n").length = 1 := by decide
      simp only [Fits] at h
      simp only [text, cap, List.length_append]
      omega

/-! ### Reading a log -/

theorem digit_ne {b : UInt8} (h : IsDigit b) : b ≠ 10 ∧ b ≠ 32 ∧ b ≠ 45 := by
  refine ⟨?_, ?_, ?_⟩
  all_goals
    rintro rfl
    revert h
    decide

theorem decimal_clear (n : Nat) : 10 ∉ decimal n ∧ 32 ∉ decimal n ∧ 45 ∉ decimal n :=
  ⟨fun h => (digit_ne (decimal_isDigit h)).1 rfl, fun h => (digit_ne (decimal_isDigit h)).2.1 rfl,
    fun h => (digit_ne (decimal_isDigit h)).2.2 rfl⟩

theorem minus_eq : bytesOf "-" = [45] := by decide

theorem intText_clear (v : Int) : 10 ∉ intText v ∧ 32 ∉ intText v := by
  obtain ⟨hnl, hsp, -⟩ := decimal_clear v.natAbs
  rw [intText, minus_eq]
  split
  · simp [hnl, hsp]
  · exact ⟨hnl, hsp⟩

/-- The sign tells the two cases apart. -/
theorem intText_inj {v u : Int} (h : intText v = intText u) : v = u := by
  have hsign : ∀ m n : Nat, ¬ 45 :: decimal m = decimal n := by
    intro m n he
    exact (decimal_clear n).2.2 (he ▸ List.mem_cons_self ..)
  rw [intText, intText, minus_eq] at h
  split at h
  · split at h
    · have := decimal_inj (List.append_cancel_left h)
      omega
    · exact absurd h (hsign _ _)
  · split at h
    · exact absurd h.symm (hsign _ _)
    · have := decimal_inj h
      omega

theorem evName_clear (type : WsEventType) :
    10 ∉ evName (eventCode type) ∧ 32 ∉ evName (eventCode type) := by
  cases type <;> decide

theorem evName_inj {t u : WsEventType} (h : evName (eventCode t) = evName (eventCode u)) :
    t = u := by
  revert h
  cases t <;> cases u <;> decide

theorem stateName_clear (s : WsState) :
    10 ∉ stateName (stateCode s) ∧ 32 ∉ stateName (stateCode s) := by
  cases s <;> decide

theorem stateName_inj {s t : WsState} (h : stateName (stateCode s) = stateName (stateCode t)) :
    s = t := by
  revert h
  cases s <;> cases t <;> decide

namespace TracePoint

/-- A line without the newline that ends it. -/
def body : TracePoint → List UInt8
  | .event type len closeCode => bytesOf "[ws] event=" ++ (evName (eventCode type) ++
    32 :: (bytesOf "len=" ++ (decimal len.toNat ++
      if type = .close then 32 :: (bytesOf "code=" ++ decimal closeCode.toNat) else [])))
  | .state s t why => bytesOf "[ws] state " ++ (stateName (stateCode s) ++
    32 :: (bytesOf "-> " ++ (stateName (stateCode t) ++ 32 :: (bytesOf "(" ++ (why ++ bytesOf ")")))))
  | .io what fd detail => bytesOf "[ws] io " ++ (what ++
    32 :: (bytesOf "fd=" ++ (intText fd.toInt ++ 32 :: (bytesOf "detail=" ++ intText detail.toInt))))

theorem text_eq (p : TracePoint) : p.text = p.body ++ [10] := by
  have hnl : bytesOf "\n" = [10] := by decide
  cases p with
  | event type len closeCode =>
      have hlen : bytesOf " len=" = 32 :: bytesOf "len=" := by decide
      have hcode : bytesOf " code=" = 32 :: bytesOf "code=" := by decide
      rw [text, body, hnl, hlen, hcode]
      split <;> simp
  | state s t why =>
      have harrow : bytesOf " -> " = 32 :: bytesOf "-> " := by decide
      have hpar : bytesOf " (" = 32 :: bytesOf "(" := by decide
      have hend : bytesOf ")\n" = bytesOf ")" ++ [10] := by decide
      rw [text, body, harrow, hpar, hend]
      simp
  | io what fd detail =>
      have hfd : bytesOf " fd=" = 32 :: bytesOf "fd=" := by decide
      have hdetail : bytesOf " detail=" = 32 :: bytesOf "detail=" := by decide
      rw [text, body, hnl, hfd, hdetail]
      simp

/-- The newline at the end of a line is its only one. -/
theorem body_clear {p : TracePoint} (h : p.Plain) : 10 ∉ p.body := by
  cases p with
  | event type len closeCode =>
      have h₁ : 10 ∉ bytesOf "[ws] event=" := by decide
      have h₂ : 10 ∉ bytesOf "len=" := by decide
      have h₃ : 10 ∉ bytesOf "code=" := by decide
      rw [body]
      split <;> simp [h₁, h₂, h₃, evName_clear, decimal_clear]
  | state s t why =>
      have h₁ : 10 ∉ bytesOf "[ws] state " := by decide
      have h₂ : 10 ∉ bytesOf "-> " := by decide
      have h₃ : 10 ∉ bytesOf "(" := by decide
      have h₄ : 10 ∉ bytesOf ")" := by decide
      simp only [Plain] at h
      simp [body, h₁, h₂, h₃, h₄, stateName_clear, h]
  | io what fd detail =>
      have h₁ : 10 ∉ bytesOf "[ws] io " := by decide
      have h₂ : 10 ∉ bytesOf "fd=" := by decide
      have h₃ : 10 ∉ bytesOf "detail=" := by decide
      simp [body, h₁, h₂, h₃, intText_clear, h.1]

/-- The sixth byte tells the three kinds apart. -/
def kind : TracePoint → UInt8
  | .event .. => 0x65
  | .state .. => 0x73
  | .io .. => 0x69

theorem body_kind (p : TracePoint) : p.body[5]? = some p.kind := by
  have h₁ : (bytesOf "[ws] event=")[5]? = some 0x65 ∧ 5 < (bytesOf "[ws] event=").length := by
    decide
  have h₂ : (bytesOf "[ws] state ")[5]? = some 0x73 ∧ 5 < (bytesOf "[ws] state ").length := by
    decide
  have h₃ : (bytesOf "[ws] io ")[5]? = some 0x69 ∧ 5 < (bytesOf "[ws] io ").length := by
    decide
  cases p with
  | event => rw [body, List.getElem?_append_left h₁.2, h₁.1, kind]
  | state => rw [body, List.getElem?_append_left h₂.2, h₂.1, kind]
  | io => rw [body, List.getElem?_append_left h₃.2, h₃.1, kind]

/-- **A line is read in one way.** -/
theorem body_inj {p q : TracePoint} (hp : p.Plain) (hq : q.Plain) (h : p.body = q.body) :
    p = q := by
  have hkind : p.kind = q.kind := by
    have := body_kind p
    rw [h, body_kind q] at this
    exact (Option.some.inj this).symm
  cases p with
  | event t len code =>
      cases q with
      | state | io => cases hkind
      | event t' len' code' =>
          have h := List.append_cancel_left h
          obtain ⟨hname, h⟩ := append_sep_inj (evName_clear t).2 (evName_clear t').2 h
          obtain rfl := evName_inj hname
          have h := List.append_cancel_left h
          by_cases hclose : t = .close
          · rw [if_pos hclose, if_pos hclose] at h
            obtain ⟨hlen, h⟩ := append_sep_inj (decimal_clear _).2.1 (decimal_clear _).2.1 h
            have hcode := decimal_inj (List.append_cancel_left h)
            rw [UInt64.toNat_inj.mp (decimal_inj hlen), UInt16.toNat_inj.mp hcode]
          · rw [if_neg hclose, if_neg hclose, List.append_nil, List.append_nil] at h
            rw [UInt64.toNat_inj.mp (decimal_inj h), hp.resolve_left hclose,
              hq.resolve_left hclose]
  | state s t why =>
      cases q with
      | event | io => cases hkind
      | state s' t' why' =>
          have h := List.append_cancel_left h
          obtain ⟨hs, h⟩ := append_sep_inj (stateName_clear s).2 (stateName_clear s').2 h
          have h := List.append_cancel_left h
          obtain ⟨ht, h⟩ := append_sep_inj (stateName_clear t).2 (stateName_clear t').2 h
          have h := List.append_cancel_right (List.append_cancel_left h)
          rw [stateName_inj hs, stateName_inj ht, h]
  | io what fd detail =>
      cases q with
      | event | state => cases hkind
      | io what' fd' detail' =>
          have h := List.append_cancel_left h
          obtain ⟨hwhat, h⟩ := append_sep_inj hp.2 hq.2 h
          have h := List.append_cancel_left h
          obtain ⟨hfd, h⟩ := append_sep_inj (intText_clear _).2 (intText_clear _).2 h
          have hdetail := intText_inj (List.append_cancel_left h)
          rw [hwhat, Int32.toInt_inj.mp (intText_inj hfd), Int64.toInt_inj.mp hdetail]

end TracePoint

/-- Line by line: the first newline is where the first line ends. -/
theorem log_inj {ps qs : List TracePoint} (hps : ∀ p ∈ ps, p.Plain) (hqs : ∀ q ∈ qs, q.Plain)
    (h : ps.flatMap TracePoint.text = qs.flatMap TracePoint.text) : ps = qs := by
  induction ps generalizing qs with
  | nil =>
      cases qs with
      | nil => rfl
      | cons q qs => simp [TracePoint.text_eq] at h
  | cons p ps ih =>
      cases qs with
      | nil => simp [TracePoint.text_eq] at h
      | cons q qs =>
          rw [List.flatMap_cons, List.flatMap_cons, TracePoint.text_eq, TracePoint.text_eq,
            List.append_assoc, List.append_assoc] at h
          have hp := hps p (List.mem_cons_self ..)
          have hq := hqs q (List.mem_cons_self ..)
          obtain ⟨hbody, hrest⟩ :=
            append_sep_inj (TracePoint.body_clear hp) (TracePoint.body_clear hq) h
          rw [TracePoint.body_inj hp hq hbody,
            ih (fun r hr => hps r (List.mem_cons_of_mem _ hr))
              (fun r hr => hqs r (List.mem_cons_of_mem _ hr)) hrest]

/-- A point whose line is not cut and can be read back. -/
def TracePoint.Whole (p : TracePoint) : Prop := p.Defined ∧ p.Fits ∧ p.Plain

theorem TracePoint.stderr_fits {p : TracePoint} (hd : p.Defined) (hf : p.Fits) :
    p.stderr = some p.text := by
  rw [stderr_eq hd, List.take_of_length_le (text_length_le hf)]

/-- What a list of points writes to `stderr`. -/
def stderrOf (l : List TracePoint) : Option (List UInt8) :=
  return (← l.mapM TracePoint.stderr).flatten

theorem stderrOf_eq {l : List TracePoint} (h : ∀ p ∈ l, p.Whole) :
    stderrOf l = some (l.flatMap TracePoint.text) := by
  have hmap : l.mapM TracePoint.stderr = some (l.map TracePoint.text) := by
    induction l with
    | nil => rfl
    | cons p l ih =>
        obtain ⟨hd, hf, -⟩ := h p (List.mem_cons_self ..)
        rw [List.mapM_cons, TracePoint.stderr_fits hd hf,
          ih fun q hq => h q (List.mem_cons_of_mem _ hq)]
        rfl
  rw [stderrOf, hmap, List.flatMap_def]
  rfl

theorem stderrOf_inj {ps qs : List TracePoint} (hps : ∀ p ∈ ps, p.Whole)
    (hqs : ∀ q ∈ qs, q.Whole) (h : stderrOf ps = stderrOf qs) : ps = qs := by
  rw [stderrOf_eq hps, stderrOf_eq hqs] at h
  exact log_inj (fun p hp => (hps p hp).2.2) (fun q hq => (hqs q hq).2.2) (Option.some.inj h)

end Libws.Debug
