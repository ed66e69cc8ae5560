import Libws.Session.Calls

/-!
# Session — receiving at the ends of the integer types

`ws_conn_recv` compares a sum of three `size_t` with `msg_cap` and returns the length it accepted
as an `int`.  The sum can wrap around and the length may not be an `int`: `recv_exact_iff` says
which chunks are accounted for exactly.
-/

namespace Libws
open Libws.Support

/-- `ws_conn_recv` accounts for a chunk exactly: one that fits is appended to the unparsed bytes
and its length returned, any other is rejected and nothing changes. -/
def RecvExact (w : Nat) (c : WsConn) (bytes : List UInt8) : Prop :=
  if c.msgLen + c.rxLen + bytes.length ≤ c.msgCap then
    wsConnRecv w c bytes = ((bytes.length : Int), { c with
      msgBuf := splice c.msgBuf (c.msgLen + c.rxLen) bytes, rxLen := c.rxLen + bytes.length })
  else wsConnRecv w c bytes = (WsStatus.errTooSmall.code, c)

/-- `(int)n` is `n` exactly when `n` is an `int`. -/
theorem toInt_eq_iff (n : Nat) : toInt n = n ↔ n < 2147483648 := by
  have hmod : ((4294967296 : Nat) : Int) = 4294967296 := rfl
  have hhalf : ((4294967296 : Int) + 1) / 2 = 2147483648 := rfl
  rw [show toInt n = Int.bmod n 4294967296 from rfl, Int.bmod_def, hmod, hhalf]
  by_cases hlt : (n : Int) % 4294967296 < 2147483648
  · rw [if_pos hlt]
    omega
  · rw [if_neg hlt]
    omega

/-- No call changes the size of the buffer. -/
theorem exec_msgCap (w : Nat) (c : WsConn) (call : Call) : (exec w c call).msgCap = c.msgCap := by
  refine exec_shape (P := fun d => d.msgCap = c.msgCap) w c call rfl ?_ ?_
  · intro p _ hs
    cases hs with
    | refuse hb | control hb | close hb | extend hb | deliver hb => exact hb
  · intro d hq
    cases hq with
    | same | handshake | sendClose => rfl
    | recv hb => exact hb

theorem run_msgCap (w : Nat) (c : WsConn) (calls : List Call) :
    (run (exec w) c calls).msgCap = c.msgCap :=
  run_inv_all (P := fun d : WsConn => d.msgCap = c.msgCap)
    (fun d call h => (exec_msgCap w d call).trans h) calls rfl

section Chunks

variable {c : WsConn} {bytes : List UInt8}

/-- The sum the test computes. -/
theorem recv_sum (w a b n : Nat) : szAdd w (szAdd w a b) n = (a + b + n) % 2 ^ w := by
  rw [szAdd, szAdd, Nat.mod_add_mod]

/-- A chunk that fits is appended, and its length goes through `int`. -/
theorem wsConnRecv_fits (hcap : c.msgCap < 2 ^ 64)
    (hfit : c.msgLen + c.rxLen + bytes.length ≤ c.msgCap) :
    wsConnRecv 64 c bytes = (toInt bytes.length, { c with
      msgBuf := splice c.msgBuf (c.msgLen + c.rxLen) bytes, rxLen := c.rxLen + bytes.length }) := by
  have hcopy : wsMemcpy c.msgBuf (c.msgLen + c.rxLen) bytes bytes.length
      = splice c.msgBuf (c.msgLen + c.rxLen) bytes := by
    rw [wsMemcpy, forRange_set _ _ _ _ hfit, map_getD_range]
  have hsum : (c.msgLen + c.rxLen + bytes.length) % 2 ^ 64 = c.msgLen + c.rxLen + bytes.length :=
    Nat.mod_eq_of_lt (by omega)
  rw [wsConnRecv, recv_sum, hsum, if_neg (by omega), hcopy, szAdd_of_lt (by omega)]

/-- A chunk whose sum comes out above `msg_cap` is rejected. -/
theorem wsConnRecv_rejects
    (hlt : c.msgCap < (c.msgLen + c.rxLen + bytes.length) % 2 ^ 64) :
    wsConnRecv 64 c bytes = (WsStatus.errTooSmall.code, c) := by
  rw [wsConnRecv, recv_sum, if_pos hlt]

/-- A chunk whose sum comes out below `msg_cap` is counted, or is empty and returns `0`. -/
theorem wsConnRecv_counts (hlen : bytes.length < 2 ^ 64)
    (hle : (c.msgLen + c.rxLen + bytes.length) % 2 ^ 64 ≤ c.msgCap) :
    wsConnRecv 64 c bytes ≠ (WsStatus.errTooSmall.code, c) := by
  rw [wsConnRecv, recv_sum, if_neg (Nat.not_lt.mpr hle)]
  intro h
  obtain ⟨hret, hconn⟩ := Prod.mk.inj h
  have hrx : szAdd 64 c.rxLen bytes.length = c.rxLen := congrArg WsConn.rxLen hconn
  -- adding the length changes `rx_len`, unless it is zero
  have hzero : bytes.length = 0 := by
    rw [szAdd] at hrx
    omega
  rw [hzero] at hret
  exact absurd hret (by decide)

end Chunks

/-- **`ws_conn_recv` is exact** on exactly these chunks, in every run at all: those that fit and
whose length is an `int`, and those whose sum is above `msg_cap` also when it has wrapped
around. -/
theorem recv_exact_iff (role : WsRole) (buf : MsgBuf 64) (calls : List Call) (bytes : List UInt8)
    (hlen : bytes.length < 2 ^ 64) :
    let c := run (exec 64) (wsConnInit role buf.bytes) calls
    let sum := c.msgLen + c.rxLen + bytes.length
    RecvExact 64 c bytes ↔
      sum ≤ c.msgCap ∧ bytes.length < 2147483648 ∨ c.msgCap < sum % 2 ^ 64 := by
  intro c sum
  have hcap : c.msgCap < 2 ^ 64 := by
    rw [run_msgCap]
    exact buf.cap_lt
  rw [RecvExact]
  by_cases hfit : sum ≤ c.msgCap
  · have hmod : sum % 2 ^ 64 = sum := Nat.mod_eq_of_lt (by omega)
    rw [if_pos hfit, wsConnRecv_fits hcap hfit, ← toInt_eq_iff, hmod]
    constructor
    · intro h
      exact .inl ⟨hfit, (Prod.mk.inj h).1⟩
    · rintro (⟨-, h⟩ | h)
      · rw [h]
      · omega
  · rw [if_neg hfit]
    constructor
    · intro h
      by_contra hno
      exact wsConnRecv_counts hlen (by omega) h
    · rintro (⟨h, -⟩ | h)
      · exact absurd h hfit
      · exact wsConnRecv_rejects h

/-- A chunk of `2 ^ 31` bytes that fits is accepted, and the result is negative. -/
theorem recv_narrowed :
    let c := run (exec 64) (wsConnInit .server (zeroBuf (2 ^ 31) (by decide)).bytes) [.open]
    let bytes : List UInt8 := List.replicate (2 ^ 31) 0
    c.msgLen + c.rxLen + bytes.length ≤ c.msgCap ∧
      (wsConnRecv 64 c bytes).1 = -2147483648 ∧ (wsConnRecv 64 c bytes).2.rxLen = 2147483648 ∧
      ¬ RecvExact 64 c bytes := by
  intro c bytes
  have hlen : bytes.length = 2147483648 := List.length_replicate
  have hcap : c.msgCap = 2147483648 := List.length_replicate
  have hzero : c.msgLen = 0 ∧ c.rxLen = 0 := ⟨rfl, rfl⟩
  have hfit : c.msgLen + c.rxLen + bytes.length ≤ c.msgCap := by omega
  have hrecv := wsConnRecv_fits (by omega) hfit
  refine ⟨hfit, ?_, ?_, ?_⟩
  · rw [hrecv, hlen]
    decide
  · rw [hrecv]
    simp only [hlen, hzero.2]
  · rw [RecvExact, if_pos hfit, hrecv]
    intro h
    have hint := (toInt_eq_iff _).mp (Prod.mk.inj h).1
    omega

theorem recv_exact_iff_small :
    let c := run (exec 64) (wsConnInit .server (zeroBuf 4 (by decide)).bytes) [.open, .recv [1, 2]]
    RecvExact 64 c [3, 4] ∧ RecvExact 64 c [3, 4, 5] := by
  intro c
  exact ⟨(recv_exact_iff .server _ _ [3, 4] (by decide)).mpr (by decide +kernel),
    (recv_exact_iff .server _ _ [3, 4, 5] (by decide)).mpr (by decide +kernel)⟩

end Libws
