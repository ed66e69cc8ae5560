import Libws.Io.Request
import Libws.Support.Bytes
import Libws.Support.Decimal
import Libws.Support.Interaction

/-!
# Io — starting the echo server

From `_start` to the event loop: the port of the command line and the exit of
`example/echo_server.c`, and the setup of `src/io/io_posix.c`.  The kernel answers each call with
any `long`.

* `parsePort_eq`: a port is a decimal numeral up to 65535, leading zeros allowed.
* `Tries`: calls made one after another, up to the first that fails.  Each setup function makes its
  calls so, and returns the error of the one that failed (`ioSetup_tries`).
* `startup`: **every start** serves on the port asked for, or says which step failed and exits.
-/

namespace Libws.Startup
open Libws.Support Prog

/-! ### The port -/

def portDigit (acc : UInt64) (ch : UInt8) : UInt64 :=
  if ch.toInt8 < 48 ∨ ch.toInt8 > 57 then 0x10000
  else acc * 10 + UInt64.ofNat (ch.toNat - 48)

/-- The loop of `parse_port`. -/
def parseDigits : UInt64 → List UInt8 → UInt16
  | v, [] => v.toUInt16
  | v, ch :: s =>
    let v := portDigit v ch
    if v > 65535 then 0 else parseDigits v s

def parsePort (s : List UInt8) : UInt16 := parseDigits 0 s

def defaultPort : UInt16 := 8080

/-- `argv` is the vector behind `sp[0]`, its strings without their NUL. -/
def portFromStack (argv : List (List UInt8)) : UInt16 :=
  if argv.length < 2 then defaultPort
  else
    let p := parsePort (argv.getD 1 [])
    if p ≠ 0 then p else defaultPort

/-- A numeral, of any length. -/
def isNumeral (s : List UInt8) : Bool := s.all fun b => decide (IsDigit b)

section Port

theorem digit_iff (ch : UInt8) : ¬ (ch.toInt8 < 48 ∨ ch.toInt8 > 57) ↔ IsDigit ch :=
  forall_uint8 (P := fun ch => ¬ (ch.toInt8 < 48 ∨ ch.toInt8 > 57) ↔ IsDigit ch)
    (by decide +kernel) ch

/-- The value only grows with more digits. -/
theorem le_foldl_decStep (v : Nat) (s : List UInt8) : v ≤ s.foldl decStep v := by
  induction s generalizing v with
  | nil => exact Nat.le_refl v
  | cons b s ih =>
      have := ih (decStep v b)
      rw [decStep] at this
      rw [List.foldl_cons, decStep]
      omega

/-- One digit, in a number that has not overflowed. -/
theorem portDigit_toNat {v : UInt64} {ch : UInt8} (hv : v.toNat ≤ 65535) (hd : IsDigit ch) :
    (portDigit v ch).toNat = decStep v.toNat ch := by
  obtain ⟨hlo, hhi⟩ := hd
  have hdigit : (UInt64.ofNat (ch.toNat - 48)).toNat = ch.toNat - 48 :=
    UInt64.toNat_ofNat_of_lt' (by change _ < 2 ^ 64; omega)
  rw [portDigit, if_neg ((digit_iff ch).mpr ⟨hlo, hhi⟩), UInt64.toNat_add, UInt64.toNat_mul, hdigit,
    decStep]
  change (v.toNat * 10 % 2 ^ 64 + (ch.toNat - 48)) % 2 ^ 64 = _
  omega

theorem parseDigits_toNat {v : UInt64} (hv : v.toNat ≤ 65535) (s : List UInt8) :
    (parseDigits v s).toNat =
      if isNumeral s ∧ s.foldl decStep v.toNat ≤ 65535
      then s.foldl decStep v.toNat else 0 := by
  induction s generalizing v with
  | nil =>
      rw [parseDigits, List.foldl_nil, if_pos ⟨rfl, hv⟩]
      exact Nat.mod_eq_of_lt (by omega)
  | cons ch s ih =>
      rw [parseDigits, List.foldl_cons]
      have hall : isNumeral (ch :: s) = (decide (IsDigit ch) && isNumeral s) := rfl
      rw [hall]
      by_cases hd : IsDigit ch
      · have hnext := portDigit_toNat hv hd
        by_cases hbig : portDigit v ch > 65535
        · -- the numeral is too large already
          have hgt : 65535 < decStep v.toNat ch := by
            rw [← hnext]
            exact UInt64.lt_iff_toNat_lt.mp hbig
          have := le_foldl_decStep (decStep v.toNat ch) s
          rw [if_pos hbig, if_neg (by omega)]
          rfl
        · have hle : (portDigit v ch).toNat ≤ 65535 := by
            rw [gt_iff_lt, UInt64.lt_iff_toNat_lt] at hbig
            exact Nat.le_of_not_lt hbig
          rw [if_neg hbig, ih hle, hnext]
          simp [hd]
      · have hinvalid : portDigit v ch = 0x10000 := by
          rw [portDigit, if_pos (not_not.mp (mt (digit_iff ch).mp hd))]
        rw [hinvalid, if_pos (by decide), if_neg (by simp [hd])]
        rfl

/-- **A port** is a numeral of digits whose value is at most 65535. -/
theorem parsePort_eq (s : List UInt8) : (parsePort s).toNat =
    if isNumeral s ∧ decValue s ≤ 65535 then decValue s else 0 :=
  parseDigits_toNat (Nat.zero_le _) s

end Port

/-! ### The calls -/

/-- A system call and its arguments; what a pointer points to stands in its place. -/
inductive SysCall where
  | socket (domain type protocol : Nat)
  | setsockopt (fd : Int32) (level optname value : Nat)
  | bind (fd : Int32) (addr : List UInt8)
  | listen (fd : Int32) (backlog : Nat)
  | epollCreate1 (flags : Nat)
  | epollCtl (epfd : Int32) (op : Nat) (fd : Int32) (events : UInt32) (data : UInt64)
  | write (fd : Nat) (bytes : List UInt8)
  | exit (code : Nat)
  deriving DecidableEq

/-- The kernel's answer, a `long`. -/
abbrev SysCall.Answer (_ : SysCall) : Type := Int64

abbrev Sys (α : Type) : Type := Prog SysCall SysCall.Answer α

/-- `ws_io_error`. -/
inductive WsIoError where
  | socket
  | bind
  | listen
  | epoll
  deriving DecidableEq, Repr

def WsIoError.code : WsIoError → Int
  | .socket => -1
  | .bind => -2
  | .listen => -3
  | .epoll => -4

def htons16 (v : UInt16) : UInt16 := (v <<< 8) ||| (v >>> 8)

/-- A `uint16_t` in memory. -/
def le16 (v : UInt16) : List UInt8 := [v.toUInt8, (v >>> 8).toUInt8]

/-- `struct sockaddr_in` in memory, as `do_bind` fills it. -/
def sockaddrIn (port : UInt16) : List UInt8 :=
  le16 2 ++ le16 (htons16 port) ++ List.replicate 4 0 ++ List.replicate 8 0

def doBind (fd : Int32) (port : UInt16) : Sys Int := do
  let _ ← request (.setsockopt fd 1 2 1)
  let r ← request (.bind fd (sockaddrIn port))
  if r < 0 then return WsIoError.bind.code
  return 0

def epollAdd (epfd fd : Int32) : Sys Int64 := request (.epollCtl epfd 1 fd 1 fd.toInt64.toUInt64)

def bindThenListen (fd : Int32) (port : UInt16) : Sys Int := do
  let rc ← doBind fd port
  if rc ≠ 0 then return rc
  let r ← request (.listen fd 16)
  return if r < 0 then WsIoError.listen.code else 0

/-- The error, and `io->listen_fd`. -/
def openListener (port : UInt16) : Sys (Int × Int32) := do
  let r ← request (.socket 2 1 0)
  let listenFd := r.toInt32
  if listenFd < 0 then return (WsIoError.socket.code, listenFd)
  return (← bindThenListen listenFd port, listenFd)

/-- The error, and `io->epoll_fd`. -/
def openEpoll (listenFd : Int32) : Sys (Int × Int32) := do
  let r ← request (.epollCreate1 0)
  let epollFd := r.toInt32
  if epollFd < 0 then return (WsIoError.epoll.code, epollFd)
  let r ← epollAdd epollFd listenFd
  return (if r < 0 then WsIoError.epoll.code else 0, epollFd)

/-- The descriptors of a `ws_io`, zero as long as they are not set. -/
structure Fds where
  listenFd : Int32
  epollFd : Int32
  deriving DecidableEq

def ioSetup (port : UInt16) : Sys (Int × Fds) := do
  let (rc, listenFd) ← openListener port
  if rc ≠ 0 then return (rc, ⟨listenFd, 0⟩)
  let (rc, epollFd) ← openEpoll listenFd
  return (rc, ⟨listenFd, epollFd⟩)

def messages : List String :=
  ["ok", "socket() failed", "bind() failed (port already in use?)", "listen() failed",
   "epoll setup failed"]

def wsIoStrerror (rc : Int) : List UInt8 :=
  let idx := if rc ≤ 0 ∧ rc ≥ WsIoError.epoll.code then (-rc).toNat else 0
  bytesOf (messages.getD idx "")

def warn (s : List UInt8) : Sys Unit := do
  let _ ← request (.write 2 s)

/-- `ws_serve`: the error it returns, or the descriptors `run_loop` goes on with; that function
does not return. -/
def wsServe (port : UInt16) : Sys (Except Int Fds) := do
  let (rc, fds) ← ioSetup port
  if rc ≠ 0 then return .error rc
  return .ok fds

/-- What becomes of the process. -/
inductive Outcome where
  | serving (fds : Fds)
  | exited (code : Nat)
  deriving DecidableEq

def wsMain (argv : List (List UInt8)) : Sys Outcome := do
  match ← wsServe (portFromStack argv) with
  | .ok fds => return .serving fds
  | .error rc =>
    if rc ≠ 0 then
      warn (bytesOf "echo-server: ")
      warn (wsIoStrerror rc)
      warn (bytesOf "\n")
    let code := if rc = 0 then 0 else 1
    let _ ← request (.exit code)
    return .exited code

/-! ### Up to the first failure -/

abbrev Trace : Type := List (Entry SysCall.Answer)

/-- The step of the setup a call is made for, unless its answer is ignored. -/
def SysCall.step : SysCall → Option WsIoError
  | .socket .. => some .socket
  | .bind .. => some .bind
  | .listen .. => some .listen
  | .epollCreate1 .. | .epollCtl .. => some .epoll
  | .setsockopt .. | .write .. | .exit .. => none

/-- The answer is taken for a failure of the step.  A descriptor is an `int`. -/
def Fails : (c : SysCall) → c.Answer → Prop
  | .socket .., r | .epollCreate1 .., r => r.toInt32 < 0
  | .bind .., r | .listen .., r | .epollCtl .., r => r < 0
  | .setsockopt .., _ | .write .., _ | .exit .., _ => False

/-- The calls `cs`, made one after another up to the first that fails; the step it was made for. -/
inductive Tries : List SysCall → Trace → Option WsIoError → Prop where
  | done : Tries [] [] none
  | ok {c : SysCall} {r : c.Answer} {cs : List SysCall} {t : Trace} {e : Option WsIoError} :
      ¬ Fails c r → Tries cs t e → Tries (c :: cs) (⟨c, r⟩ :: t) e
  | failed {c : SysCall} {r : c.Answer} {cs : List SysCall} :
      Fails c r → Tries (c :: cs) [⟨c, r⟩] c.step

/-- The descriptors are those the kernel gave. -/
structure Given (fds : Fds) (t : Trace) : Prop where
  listen : ∀ r, ⟨.socket 2 1 0, r⟩ ∈ t → fds.listenFd = r.toInt32
  epoll : ∀ r, ⟨.epollCreate1 0, r⟩ ∈ t → fds.epollFd = r.toInt32

/-- `0`, or the error of the step that failed. -/
def rcOf : Option WsIoError → Int
  | none => 0
  | some e => e.code

theorem rcOf_eq_zero {e : Option WsIoError} : rcOf e = 0 ↔ e = none := by
  cases e with
  | none => exact ⟨fun _ => rfl, fun _ => rfl⟩
  | some e => cases e <;> simp [rcOf, WsIoError.code]

section Setup

variable {cs cs' : List SysCall} {t t' : Trace} {e : Option WsIoError} {port : UInt16}

theorem Tries.then (h : Tries cs t none) (h' : Tries cs' t' e) : Tries (cs ++ cs') (t ++ t') e := by
  generalize hn : (none : Option WsIoError) = n at h
  induction h with
  | done => exact h'
  | ok hok _ ih => exact .ok hok (ih hn)
  | @failed c r cs hf =>
      cases c with
      | setsockopt | write | exit => exact absurd hf id
      | socket | bind | listen | epollCreate1 | epollCtl => cases hn

theorem Tries.stop (h : Tries cs t e) (he : e ≠ none) (cs' : List SysCall) :
    Tries (cs ++ cs') t e := by
  induction h with
  | done => exact absurd rfl he
  | ok hok _ ih => exact .ok hok (ih he)
  | failed hf => exact .failed hf

theorem Tries.mem {c : SysCall} {r : c.Answer} (h : Tries cs t e) (hm : ⟨c, r⟩ ∈ t) : c ∈ cs := by
  induction h with
  | done => cases hm
  | ok _ _ ih =>
      rcases List.mem_cons.mp hm with heq | hm
      · obtain ⟨rfl, -⟩ := Sigma.mk.inj heq
        exact List.mem_cons_self ..
      · exact List.mem_cons_of_mem _ (ih hm)
  | failed =>
      obtain ⟨rfl, -⟩ := Sigma.mk.inj (List.mem_singleton.mp hm)
      exact List.mem_cons_self ..

theorem doBind_tries {fd : Int32} {rc : Int} (h : Runs (doBind fd port) t rc) :
    ∃ e, Tries [.setsockopt fd 1 2 1, .bind fd (sockaddrIn port)] t e ∧ rc = rcOf e := by
  obtain ⟨r₁, t₁, rfl, r₂, t₂, rfl, h⟩ := h
  dsimp only [Prog.bind] at h
  split at h
  · rename_i hneg
    obtain ⟨rfl, rfl⟩ := h
    exact ⟨_, .ok id (.failed hneg), rfl⟩
  · rename_i hneg
    obtain ⟨rfl, rfl⟩ := h
    exact ⟨_, .ok id (.ok hneg .done), rfl⟩

/-- The calls that open the listener. -/
def listenCalls (fd : Int32) (port : UInt16) : List SysCall :=
  [.setsockopt fd 1 2 1, .bind fd (sockaddrIn port), .listen fd 16]

theorem bindThenListen_tries {fd : Int32} {rc : Int} (h : Runs (bindThenListen fd port) t rc) :
    ∃ e, Tries (listenCalls fd port) t e ∧ rc = rcOf e := by
  obtain ⟨rc₁, t₁, t₂, rfl, h₁, h₂⟩ := runs_bind.mp h
  obtain ⟨e, htries, rfl⟩ := doBind_tries h₁
  by_cases he : e = none
  · subst he
    obtain ⟨r, t₃, rfl, rfl, rfl⟩ := h₂
    by_cases hneg : r < 0
    · exact ⟨_, htries.then (.failed hneg), if_pos hneg⟩
    · exact ⟨_, htries.then (.ok hneg .done), if_neg hneg⟩
  · rw [if_pos (mt rcOf_eq_zero.mp he)] at h₂
    obtain ⟨rfl, rfl⟩ := h₂
    rw [List.append_nil]
    exact ⟨e, htries.stop he _, rfl⟩

theorem openListener_tries {r : Int × Int32} (h : Runs (openListener port) t r) :
    ∃ e, Tries (.socket 2 1 0 :: listenCalls r.2 port) t e ∧ r.1 = rcOf e ∧
      ∀ fd, Given ⟨r.2, fd⟩ t := by
  obtain ⟨r₁, t₁, rfl, h⟩ := h
  dsimp only [Prog.bind] at h
  split at h
  · rename_i hneg
    obtain ⟨rfl, rfl⟩ := h
    refine ⟨_, .failed hneg, rfl, fun fd => ⟨fun r hr => ?_, fun r hr => ?_⟩⟩
    · obtain ⟨-, heq⟩ := Sigma.mk.inj (List.mem_singleton.mp hr)
      rw [eq_of_heq heq]
    · obtain ⟨hno, -⟩ := Sigma.mk.inj (List.mem_singleton.mp hr)
      cases hno
  · rename_i hneg
    obtain ⟨rc, t₂, t₃, rfl, h₂, rfl, rfl⟩ := runs_bind.mp h
    obtain ⟨e, htries, rfl⟩ := bindThenListen_tries h₂
    rw [List.append_nil]
    refine ⟨e, .ok hneg htries, rfl, fun fd => ⟨fun r hr => ?_, fun r hr => ?_⟩⟩
    · rcases List.mem_cons.mp hr with heq | hr
      · obtain ⟨-, heq⟩ := Sigma.mk.inj heq
        rw [eq_of_heq heq]
      · exact absurd (htries.mem hr) (by simp [listenCalls])
    · rcases List.mem_cons.mp hr with heq | hr
      · obtain ⟨hno, -⟩ := Sigma.mk.inj heq
        cases hno
      · exact absurd (htries.mem hr) (by simp [listenCalls])

/-- The calls that watch the listener. -/
def epollCalls (fds : Fds) : List SysCall :=
  [.epollCreate1 0, .epollCtl fds.epollFd 1 fds.listenFd 1 fds.listenFd.toInt64.toUInt64]

theorem openEpoll_tries {listenFd : Int32} {r : Int × Int32} (h : Runs (openEpoll listenFd) t r) :
    ∃ e, Tries (epollCalls ⟨listenFd, r.2⟩) t e ∧ r.1 = rcOf e ∧
      ∀ s, ⟨.epollCreate1 0, s⟩ ∈ t → r.2 = s.toInt32 := by
  obtain ⟨r₁, t₁, rfl, h⟩ := h
  dsimp only [Prog.bind] at h
  split at h
  · rename_i hneg
    obtain ⟨rfl, rfl⟩ := h
    refine ⟨_, .failed hneg, rfl, fun s hs => ?_⟩
    obtain ⟨-, heq⟩ := Sigma.mk.inj (List.mem_singleton.mp hs)
    rw [eq_of_heq heq]
  · rename_i hneg
    obtain ⟨r₂, t₂, rfl, rfl, rfl⟩ := h
    have hgiven : ∀ s : SysCall.Answer (.epollCreate1 0),
        (⟨.epollCreate1 0, s⟩ : Entry SysCall.Answer) ∈ [⟨.epollCreate1 0, r₁⟩,
          ⟨.epollCtl r₁.toInt32 1 listenFd 1 listenFd.toInt64.toUInt64, r₂⟩] →
        r₁.toInt32 = s.toInt32 := by
      intro s hs
      rcases List.mem_cons.mp hs with heq | hs
      · obtain ⟨-, heq⟩ := Sigma.mk.inj heq
        rw [eq_of_heq heq]
      · obtain ⟨hno, -⟩ := Sigma.mk.inj (List.mem_singleton.mp hs)
        cases hno
    by_cases hneg₂ : r₂ < 0
    · exact ⟨_, .ok hneg (.failed hneg₂), if_pos hneg₂, hgiven⟩
    · exact ⟨_, .ok hneg (.ok hneg₂ .done), if_neg hneg₂, hgiven⟩

/-- All calls of the setup. -/
def setupCalls (fds : Fds) (port : UInt16) : List SysCall :=
  .socket 2 1 0 :: listenCalls fds.listenFd port ++ epollCalls fds

/-- **The setup** makes its calls up to the first that fails, and returns its error. -/
theorem ioSetup_tries {r : Int × Fds} (h : Runs (ioSetup port) t r) :
    ∃ e, Tries (setupCalls r.2 port) t e ∧ r.1 = rcOf e ∧ Given r.2 t := by
  obtain ⟨⟨rc, fd⟩, t₁, t₂, rfl, h₁, h₂⟩ := runs_bind.mp h
  obtain ⟨e, htries, rfl, hgiven⟩ := openListener_tries h₁
  dsimp only at h₂ htries hgiven
  by_cases he : e = none
  · subst he
    obtain ⟨⟨rc, efd⟩, t₃, t₄, rfl, h₃, rfl, rfl⟩ := runs_bind.mp h₂
    obtain ⟨e, htries₂, rfl, hgiven₂⟩ := openEpoll_tries h₃
    rw [List.append_nil]
    refine ⟨e, htries.then htries₂, rfl, fun s hs => ?_, fun s hs => ?_⟩
    · rcases List.mem_append.mp hs with hs | hs
      · exact (hgiven efd).listen s hs
      · exact absurd (htries₂.mem hs) (by simp [epollCalls])
    · rcases List.mem_append.mp hs with hs | hs
      · exact (hgiven efd).epoll s hs
      · exact hgiven₂ s hs
  · rw [if_pos (mt rcOf_eq_zero.mp he)] at h₂
    obtain ⟨rfl, rfl⟩ := h₂
    rw [List.append_nil]
    exact ⟨e, htries.stop he _, rfl, hgiven 0⟩

end Setup

/-! ### Starting -/

/-- What the user is told of the step that failed. -/
def WsIoError.text : WsIoError → List UInt8
  | .socket => bytesOf "socket() failed"
  | .bind => bytesOf "bind() failed (port already in use?)"
  | .listen => bytesOf "listen() failed"
  | .epoll => bytesOf "epoll setup failed"

theorem strerror_code (e : WsIoError) : wsIoStrerror e.code = e.text := by
  cases e <;> rfl

/-- The calls after a failure. -/
def complaint (e : WsIoError) : List SysCall :=
  [.write 2 (bytesOf "echo-server: "), .write 2 e.text, .write 2 (bytesOf "\n"), .exit 1]

/-- The port asked for on the command line, if it is one. -/
def askedPort (argv : List (List UInt8)) : Option Nat :=
  argv[1]?.bind fun s =>
    if isNumeral s ∧ 0 < decValue s ∧ decValue s ≤ 65535 then some (decValue s) else none

theorem portFromStack_eq (argv : List (List UInt8)) :
    (portFromStack argv).toNat = (askedPort argv).getD 8080 := by
  rw [portFromStack, askedPort]
  split
  · rename_i hlt
    rw [List.getElem?_eq_none (by omega)]
    rfl
  · rename_i hge
    have hone : argv[1]? = some (argv.getD 1 []) := by
      rw [List.getD_eq_getElem?_getD, List.getElem?_eq_getElem (by omega)]
      rfl
    have hport := parsePort_eq (argv.getD 1 [])
    have hzero : parsePort (argv.getD 1 []) = 0 ↔ (parsePort (argv.getD 1 [])).toNat = 0 :=
      UInt16.toNat_inj.symm
    rw [hone, Option.bind_some]
    generalize argv.getD 1 [] = s at hport hzero
    by_cases hok : isNumeral s ∧ 0 < decValue s ∧ decValue s ≤ 65535
    · rw [if_pos ⟨hok.1, hok.2.2⟩] at hport
      have hne : parsePort s ≠ 0 := by
        rw [Ne, hzero, hport]
        omega
      rw [if_pos hne, if_pos hok, hport]
      rfl
    · have hbad : parsePort s = 0 := by
        rw [hzero, hport]
        split
        · rename_i hle
          have : ¬ 0 < decValue s := fun hpos => hok ⟨hle.1, hpos, hle.2⟩
          omega
        · rfl
      rw [if_neg (not_not.mpr hbad), if_neg hok]
      rfl

theorem htons16_low (port : UInt16) : (htons16 port).toUInt8 = (port >>> 8).toUInt8 := by
  apply UInt8.toBitVec_inj.mp
  ext i hi
  simp [htons16]

theorem htons16_high (port : UInt16) : (htons16 port >>> 8).toUInt8 = port.toUInt8 := by
  apply UInt8.toBitVec_inj.mp
  ext i hi
  have h₁ : 8 + i < 16 := by omega
  have h₂ : ¬ 8 + i < 8 := by omega
  have h₃ : port.toBitVec.getLsbD (8 + (8 + i)) = false := BitVec.getLsbD_of_ge _ _ (by omega)
  simp only [htons16, UInt16.toBitVec_toUInt8, UInt16.toBitVec_shiftRight, UInt16.toBitVec_or,
    UInt16.toBitVec_shiftLeft]
  simp [h₁, h₂, h₃, BitVec.getLsbD_eq_getElem (show i < 16 by omega)]

/-- The port stands in network byte order. -/
theorem sockaddrIn_eq (port : UInt16) :
    sockaddrIn port = le16 2 ++ beBytes 2 port.toNat ++ List.replicate 12 0 := by
  have hhigh : UInt8.ofNat (port.toNat / 256) = (port >>> 8).toUInt8 := by
    apply UInt8.toNat_inj.mp
    simp [Nat.shiftRight_eq_div_pow]
  have hport : beBytes 2 port.toNat = [(port >>> 8).toUInt8, port.toUInt8] :=
    congrArg (fun b => [b, port.toUInt8]) hhigh
  rw [sockaddrIn, hport, show le16 (htons16 port) = [(port >>> 8).toUInt8, port.toUInt8] by
    rw [le16, htons16_low, htons16_high]]
  rfl

/-- **Every start.**  The server asks for the port of the command line, in network byte order, or
for 8080 when there is none or it is not a number from 1 to 65535.  It makes the calls of the setup
up to the first that fails.  When none does, it serves with the descriptors the kernel gave; when
one does, it says which step that was, and exits with the status 1. -/
theorem startup (argv : List (List UInt8)) (t : Trace) (out : Outcome)
    (hr : Runs (wsMain argv) t out) :
    ∃ (port : UInt16) (fds : Fds) (t₁ t₂ : Trace) (e : Option WsIoError),
      port.toNat = (askedPort argv).getD 8080 ∧
      sockaddrIn port = le16 2 ++ beBytes 2 port.toNat ++ List.replicate 12 0 ∧
      t = t₁ ++ t₂ ∧ Tries (setupCalls fds port) t₁ e ∧ Given fds t₁ ∧
      (e = none → t₂ = [] ∧ out = .serving fds) ∧
      ∀ step, e = some step → t₂.map Sigma.fst = complaint step ∧ out = .exited 1 := by
  obtain ⟨r, t₁, t₂, rfl, h₁, h₂⟩ := runs_bind.mp hr
  obtain ⟨⟨rc, fds⟩, t₃, t₄, rfl, h₃, h₄⟩ := runs_bind.mp h₁
  obtain ⟨e, htries, rfl, hgiven⟩ := ioSetup_tries h₃
  refine ⟨portFromStack argv, fds, t₃, t₂, e, portFromStack_eq argv, sockaddrIn_eq _, ?_⟩
  cases e with
  | none =>
      obtain ⟨rfl, rfl⟩ := h₄
      obtain ⟨rfl, rfl⟩ := h₂
      refine ⟨by simp, htries, hgiven, fun _ => ⟨rfl, rfl⟩, fun step hno => ?_⟩
      cases hno
  | some e =>
      have hne : rcOf (some e) ≠ 0 := mt rcOf_eq_zero.mp (by simp)
      dsimp only at h₄
      rw [if_pos hne] at h₄
      obtain ⟨rfl, rfl⟩ := h₄
      dsimp only at h₂
      rw [if_pos hne, if_neg hne] at h₂
      obtain ⟨r₁, t₅, rfl, r₂, t₆, rfl, r₃, t₇, rfl, r₄, t₈, rfl, rfl, rfl⟩ := h₂
      refine ⟨by simp, htries, hgiven, fun hno => (by cases hno), fun step hstep => ?_⟩
      obtain rfl := Option.some.inj hstep
      have hrc : wsIoStrerror (rcOf (some e)) = e.text := strerror_code e
      rw [hrc]
      exact ⟨rfl, rfl⟩

/-- The port is taken: `bind` answers `-EADDRINUSE`. -/
def busyPort (_ : Trace) : (c : SysCall) → c.Answer
  | .socket .. => 3
  | .bind .. => -98
  | _ => 0

def busyStart : Trace × Outcome :=
  play busyPort [] (wsMain [bytesOf "echo-server", bytesOf "09000"])

theorem startup_busy :
    ∃ (port : UInt16) (fds : Fds) (t₁ t₂ : Trace) (e : Option WsIoError),
      port.toNat = 9000 ∧ busyStart.1 = t₁ ++ t₂ ∧ Tries (setupCalls fds port) t₁ e ∧
      Given fds t₁ ∧ t₂.map Sigma.fst = complaint .bind := by
  obtain ⟨port, fds, t₁, t₂, e, hport, -, ht, htries, hgiven, hnone, hsome⟩ :=
    startup _ busyStart.1 busyStart.2 (runs_play busyPort [] _)
  have hasked : askedPort [bytesOf "echo-server", bytesOf "09000"] = some 9000 := by decide +kernel
  rw [hasked] at hport
  refine ⟨port, fds, t₁, t₂, e, hport, ht, htries, hgiven, ?_⟩
  cases e with
  | none =>
      have hexit : busyStart.2 = .exited 1 := by decide +kernel
      rw [hexit] at hnone
      cases (hnone rfl).2
  | some step =>
      obtain ⟨hlast, -⟩ := hsome step rfl
      have hcalls : busyStart.1.map Sigma.fst =
          [.socket 2 1 0, .setsockopt 3 1 2 1, .bind 3 (sockaddrIn 9000)] ++ complaint .bind := by
        decide +kernel
      rw [ht, List.map_append, hlast] at hcalls
      rw [hlast]
      exact List.append_inj_right' hcalls rfl

end Libws.Startup
