import Libws.Io.Steps

/-!
# Io — draining ends by itself

`drain_events` has no bound of its own; its model runs on fuel.  A poll that reports an event and
does not end the loop consumes a frame (`poll_consumes`), and the handler between two polls leaves
the raw bytes alone (`onEvent_sent`), so on a sound connection the loop ends before the fuel that
`drainEvents` gives it does: the runs of the model are those of the loop without a bound
(`drainLoop_drains`), and more fuel changes none of them (`drainLoop_fuel`).  `drain_ends` counts
the calls of the handler.
-/

namespace Libws
open Libws.Support Prog

/-! ### The handler -/

/-- What sends leave of a connection: it is unchanged, or its close has been sent. -/
inductive SentOn (c : WsConn) : WsConn → Prop where
  | same : SentOn c c
  | close : c.state = .open → SentOn c { c with sentClose := true, state := .closing }

theorem SentOn.trans {c d e : WsConn} (h : SentOn c d) (h' : SentOn d e) : SentOn c e := by
  cases h with
  | same => exact h'
  | close ho =>
      cases h' with
      | same => exact .close ho
      | close ho' => cases ho'

theorem SentOn.rxLen {c d : WsConn} (h : SentOn c d) : d.rxLen = c.rxLen := by
  cases h <;> rfl

theorem SentOn.sound {c d : WsConn} (h : SentOn c d) (hs : Sound c) : Sound d := by
  cases h with
  | same => exact hs
  | close ho =>
      have hcode : c.closeCode = 0 := hs.closeCode (by simp [ho])
      exact ⟨hs.cap_lt, hs.fits, hs.failed_frag, hs.boundary, fun _ => hcode⟩

section Handler

variable {n : Nat} {σ : Type} {io : WsIo n σ} {t : Trace n}

theorem wsIoSend_sent {maxMessage : Nat} {c : Fin n} {m : Send} {r : Int × WsIo n σ}
    (h : Runs (wsIoSend maxMessage io c m) t r) (j : Fin n) :
    SentOn (io.conns j).conn (r.2.conns j).conn := by
  cases m with
  | message key op payload | pong key payload =>
      obtain ⟨rc, t₁, t₂, rfl, -, hk⟩ := runs_bind.mp h
      obtain ⟨rfl, rfl⟩ := runs_pure.mp hk
      exact .same
  | close key code =>
      obtain ⟨rc, t₁, t₂, rfl, -, hk⟩ := runs_bind.mp h
      obtain ⟨rfl, rfl⟩ := runs_pure.mp hk
      by_cases hj : j = c
      · subst hj
        rw [WsIo.setConn_same]
        rcases wsSendClose_cases 64 (io.conns j).conn key code (List.replicate 32 0) with
          ⟨-, hc⟩ | ⟨-, ho, hc⟩
        · rw [hc]
          exact .same
        · rw [hc]
          exact .close ho
      · rw [WsIo.setConn, io.set_other _ hj]
        exact .same

theorem reply_sent {maxMessage : Nat} {r : Reply n σ} {io' : WsIo n σ}
    (h : Runs (reply maxMessage io r) t io') (j : Fin n) :
    SentOn (io.conns j).conn (io'.conns j).conn := by
  induction r generalizing io t with
  | done app =>
      obtain ⟨rfl, rfl⟩ := runs_pure.mp h
      exact .same
  | send c m k ih =>
      obtain ⟨r, t₁, t₂, rfl, h₁, hk⟩ := runs_bind.mp h
      exact (wsIoSend_sent h₁ j).trans (ih r.1 hk)

end Handler

/-! ### What the handler does -/

/-- An entry for bytes that are written to a client. -/
def IsWrite {n : Nat} : Entry (Req.Answer (n := n)) → Prop
  | ⟨.client _ _ (.write _ _), _⟩ => True
  | _ => False

theorem Writes.isWrite {n : Nat} {i : Fin n} {t : Trace n} {fd : Nat} {src : Source}
    {buf : List UInt8} {rc : Int} (h : Writes i fd src buf t rc) : ∀ e ∈ t, IsWrite e := by
  induction h with
  | done => simp
  | fail => simp [IsWrite]
  | more _ _ _ ih => simpa [IsWrite] using ih

section Sends

variable {σ : Type} {sv : Server σ} {io : WsIo sv.maxConns σ} {t : Trace sv.maxConns}

theorem wsIoSend_writes {c : Fin sv.maxConns} {m : Send} {r : Int × WsIo sv.maxConns σ}
    (h : Runs (wsIoSend sv.maxMessage io c m) t r) : ∀ e ∈ t, IsWrite e := by
  cases m with
  | message | pong | close =>
      obtain ⟨rc, t₁, t₂, rfl, h₁, hk⟩ := runs_bind.mp h
      obtain ⟨rfl, -⟩ := runs_pure.mp hk
      rw [List.append_nil]
      rcases sendBuilt_runs h₁ with rfl | ⟨-, -, hw⟩
      · simp
      · exact hw.isWrite

/-- **The handler only writes.** -/
theorem reply_writes {r : Reply sv.maxConns σ} {io' : WsIo sv.maxConns σ}
    (h : Runs (reply sv.maxMessage io r) t io') : ∀ e ∈ t, IsWrite e := by
  induction r generalizing io t with
  | done app =>
      obtain ⟨rfl, -⟩ := runs_pure.mp h
      simp
  | send c m k ih =>
      obtain ⟨r, t₁, t₂, rfl, h₁, hk⟩ := runs_bind.mp h
      intro e he
      exact (List.mem_append.mp he).elim (wsIoSend_writes h₁ e) (ih r.1 hk e)

end Sends

/-! ### The loop -/

/-- How often the handler is called. -/
def handlerCalls {n : Nat} (t : Trace n) : Nat :=
  t.countP fun
    | ⟨.client _ _ (.event _), _⟩ => true
    | _ => false

section Loop

variable {σ : Type} {sv : Server σ} {i : Fin sv.maxConns} {io : WsIo sv.maxConns σ}
  {t : Trace sv.maxConns}

theorem onEvent_sent {ev : Event} {io' : WsIo sv.maxConns σ}
    (h : Runs (onEvent sv io i ev) t io') (j : Fin sv.maxConns) :
    SentOn (io.conns j).conn (io'.conns j).conn := by
  obtain ⟨_, t₁, t₂, rfl, -, hk⟩ := runs_bind.mp h
  exact reply_sent hk j

/-- A write calls no handler. -/
theorem handlerCalls_writes (h : ∀ e ∈ t, IsWrite e) : handlerCalls t = 0 := by
  refine List.countP_eq_zero.mpr fun e he => ?_
  match e, h e he with
  | ⟨.client _ _ (.write _ _), _⟩, _ => simp

theorem handlerCalls_append (t u : Trace sv.maxConns) :
    handlerCalls (t ++ u) = handlerCalls t + handlerCalls u := List.countP_append ..

theorem onEvent_calls {ev : Event} {io' : WsIo sv.maxConns σ}
    (h : Runs (onEvent sv io i ev) t io') : handlerCalls t = 1 := by
  obtain ⟨_, t₁, t₂, rfl, h₁, hk⟩ := runs_bind.mp h
  obtain rfl := runs_request.mp h₁
  rw [handlerCalls_append, handlerCalls_writes (reply_writes hk)]
  rfl

/-- The event is of the type the poll returns. -/
theorem poll_type (w : Nat) (c : WsConn) : (wsConnPoll w c).ev.type = (wsConnPoll w c).ret := by
  refine poll_shape (P := fun p => p.ev.type = p.ret) w c (fun _ => rfl) (fun _ => rfl) ?_
  intro p _ hs
  cases hs <;> rfl

/-- **A poll that reports an event** and does not end the loop consumes a frame, of at least two
bytes. -/
theorem poll_consumes {c : WsConn} (hs : Sound c) (hret : (wsConnPoll 64 c).ret ≠ .none)
    (hterm : isTerminal (wsConnPoll 64 c).ret = false) :
    ∃ (f : Frame) (t : List UInt8), rawBytes c = f.wire ++ t ∧ 2 ≤ f.wire.length ∧
      (wsConnPoll 64 c).conn.rxLen + f.wire.length = c.rxLen := by
  cases hf : c.failed with
  | true =>
      rw [poll_failed hf] at hterm
      simp [isTerminal] at hterm
  | false =>
      rcases hs.poll_cases hf with ⟨-, hp⟩ | ⟨f, t, hv, ho⟩
      · rw [hp] at hret
        exact absurd rfl hret
      · have hrx := hv.rxLen
        have hhdr := f.hdr_length
        have hwire := f.wire_length
        rw [List.length_append] at hrx
        refine ⟨f, t, hv.rawBytes_eq, by omega, ?_⟩
        generalize wsConnPoll 64 c = p at ho hret hterm ⊢
        generalize (c.receiver c.msg).verdict c.role f = v at ho
        cases ho with
        | refuse | close => simp [isTerminal] at hterm
        | extend => exact absurd rfl hret
        | ping | pong | deliver =>
            dsimp only
            omega

/-- One turn of the loop of `drain_events`: a poll reports, and the handler is called. -/
def Turn (sv : Server σ) (i : Fin sv.maxConns) (io : WsIo sv.maxConns σ) (t : Trace sv.maxConns)
    (io' : WsIo sv.maxConns σ) : Prop :=
  let p := wsConnPoll 64 (io.conns i).conn
  p.ret ≠ .none ∧ Runs (onEvent sv (io.setConn i p.conn) i p.event) t io'

/-- The loop of `drain_events` as the source has it, with no bound: it ends when a poll reports
nothing or the event is terminal.  The number is that of the handler's calls. -/
inductive Drains (sv : Server σ) (i : Fin sv.maxConns) :
    Nat → WsIo sv.maxConns σ → Trace sv.maxConns → Bool × WsIo sv.maxConns σ → Prop where
  | quiet {io : WsIo sv.maxConns σ} : (wsConnPoll 64 (io.conns i).conn).ret = .none →
      Drains sv i 0 io [] (false, io.setConn i (wsConnPoll 64 (io.conns i).conn).conn)
  | last {io io' : WsIo sv.maxConns σ} {t : Trace sv.maxConns} : Turn sv i io t io' →
      isTerminal (wsConnPoll 64 (io.conns i).conn).ev.type = true → Drains sv i 1 io t (true, io')
  | next {io io' : WsIo sv.maxConns σ} {t u : Trace sv.maxConns} {k : Nat}
      {r : Bool × WsIo sv.maxConns σ} : Turn sv i io t io' →
      isTerminal (wsConnPoll 64 (io.conns i).conn).ev.type = false → Drains sv i k io' u r →
      Drains sv i (k + 1) io (t ++ u) r

/-- **A turn** leaves the connection sound; if the loop goes on after it, two raw bytes fewer are
left. -/
theorem Turn.progress {io' : WsIo sv.maxConns σ} (hs : Sound (io.conns i).conn)
    (h : Turn sv i io t io') : Sound (io'.conns i).conn ∧
      (isTerminal (wsConnPoll 64 (io.conns i).conn).ev.type = false →
        (io'.conns i).conn.rxLen + 2 ≤ (io.conns i).conn.rxLen) := by
  have hsent := onEvent_sent h.2 i
  rw [WsIo.setConn_same] at hsent
  refine ⟨hsent.sound hs.poll, fun hterm => ?_⟩
  rw [poll_type] at hterm
  obtain ⟨f, t, -, htwo, hlen⟩ := poll_consumes hs h.1 hterm
  have hrx := hsent.rxLen
  dsimp only at hrx
  omega

/-- The handler is called once in each turn. -/
theorem Drains.calls {k : Nat} {r : Bool × WsIo sv.maxConns σ} (h : Drains sv i k io t r) :
    handlerCalls t = k := by
  induction h with
  | quiet => rfl
  | last hturn => exact onEvent_calls hturn.2
  | next hturn _ _ ih => rw [handlerCalls_append, onEvent_calls hturn.2, ih, Nat.add_comm]

/-- The handler is called at most once for each two raw bytes, and once more. -/
theorem Drains.bound {k : Nat} {r : Bool × WsIo sv.maxConns σ} (hs : Sound (io.conns i).conn)
    (h : Drains sv i k io t r) : k ≤ (io.conns i).conn.rxLen / 2 + 1 := by
  induction h with
  | quiet => exact Nat.zero_le _
  | last => exact Nat.le_add_left 1 _
  | next hturn hterm _ ih =>
      obtain ⟨hs', hprog⟩ := hturn.progress hs
      have := ih hs'
      have := hprog hterm
      omega

/-- **The fuel does not run out**: with this much of it the model is the loop of the source. -/
theorem drainLoop_drains {fuel : Nat} {r : Bool × WsIo sv.maxConns σ}
    (hs : Sound (io.conns i).conn) (hfuel : (io.conns i).conn.rxLen / 2 < fuel) :
    Runs (drainLoop sv i fuel io) t r ↔ ∃ k, Drains sv i k io t r := by
  induction fuel generalizing io t with
  | zero => omega
  | succ fuel ih =>
      rw [drainLoop]
      constructor
      · intro h
        split at h
        · rename_i hret
          obtain ⟨rfl, rfl⟩ := runs_pure.mp h
          exact ⟨0, .quiet hret⟩
        · rename_i hret
          obtain ⟨io', t₁, t₂, rfl, h₁, hk⟩ := runs_bind.mp h
          have hturn : Turn sv i io t₁ io' := ⟨hret, h₁⟩
          obtain ⟨hs', hprog⟩ := hturn.progress hs
          split at hk
          · rename_i hterm
            obtain ⟨rfl, rfl⟩ := runs_pure.mp hk
            rw [List.append_nil]
            exact ⟨1, .last hturn hterm⟩
          · rename_i hterm
            rw [Bool.not_eq_true] at hterm
            have := hprog hterm
            obtain ⟨k, hd⟩ := (ih hs' (by omega)).mp hk
            exact ⟨k + 1, .next hturn hterm hd⟩
      · rintro ⟨k, h⟩
        cases h with
        | quiet hret =>
            rw [if_pos hret]
            exact runs_pure.mpr ⟨rfl, rfl⟩
        | last hturn hterm =>
            rw [if_neg hturn.1]
            refine runs_bind.mpr ⟨_, t, [], (List.append_nil t).symm, hturn.2, ?_⟩
            rw [if_pos hterm]
            exact runs_pure.mpr ⟨rfl, rfl⟩
        | next hturn hterm hd =>
            obtain ⟨hs', hprog⟩ := hturn.progress hs
            have := hprog hterm
            rw [if_neg hturn.1]
            refine runs_bind.mpr ⟨_, _, _, rfl, hturn.2, ?_⟩
            rw [if_neg (by simp [hterm])]
            exact (ih hs' (by omega)).mpr ⟨_, hd⟩

/-- **More fuel changes nothing.** -/
theorem drainLoop_fuel {fuel : Nat} {r : Bool × WsIo sv.maxConns σ} (k : Nat)
    (hs : Sound (io.conns i).conn) (hfuel : (io.conns i).conn.rxLen < fuel) :
    Runs (drainLoop sv i fuel io) t r ↔ Runs (drainLoop sv i (fuel + k) io) t r := by
  rw [drainLoop_drains hs (by omega), drainLoop_drains hs (by omega)]

/-- **`drain_events` ends**, on every connection that calls of the driver lead to and whatever the
environment answers, after at most `rx_len / 2 + 1` calls of the handler, one in each turn.  A poll
that reports a message, a ping or a pong consumes a frame, the handler leaves the raw bytes of every
connection alone, and a terminal event is the last. -/
theorem drain_ends (sv : Server σ) (i : Fin sv.maxConns) (io : WsIo sv.maxConns σ) (role : WsRole)
    (buf : MsgBuf 64) (calls : List Call)
    (hg : Guarded (exec 64) (NoWrap 64) (wsConnInit role buf.bytes) calls)
    (hc : (io.conns i).conn = run (exec 64) (wsConnInit role buf.bytes) calls) :
    let c := (io.conns i).conn
    let p := wsConnPoll 64 c
    (∀ o h, let d := play o h (drainEvents sv io i)
      ∃ k ≤ c.rxLen / 2 + 1, Drains sv i k io d.1 d.2) ∧
    (∀ k t r, Drains sv i k io t r → k ≤ c.rxLen / 2 + 1 ∧ handlerCalls t = k) ∧
    (p.ret = .message ∨ p.ret = .ping ∨ p.ret = .pong → ∃ (f : Frame) (t : List UInt8),
      rawBytes c = f.wire ++ t ∧ 2 ≤ f.wire.length ∧ p.conn.rxLen + f.wire.length = c.rxLen) ∧
    (∀ t io', Turn sv i io t io' →
      ∀ j, (io'.conns j).conn.rxLen = ((io.setConn i p.conn).conns j).conn.rxLen) ∧
    (p.ret = .close ∨ p.ret = .error → ∀ k t r, Drains sv i k io t r → k = 1 ∧ r.1 = true) := by
  intro c p
  have hs : Sound (io.conns i).conn := by
    rw [hc]
    exact sound_run hg
  refine ⟨fun o h => ?_, fun k t r hd => ⟨hd.bound hs, hd.calls⟩, fun hret => ?_,
    fun t io' h j => (onEvent_sent h.2 j).rxLen, fun hret k t r hd => ?_⟩
  · have hruns := runs_play o h (drainEvents sv io i)
    obtain ⟨k, hd⟩ := (drainLoop_drains hs (by omega)).mp hruns
    exact ⟨k, hd.bound hs, hd⟩
  · refine poll_consumes hs ?_ ?_
    · rcases hret with h | h | h <;> rw [h] <;> simp
    · rcases hret with h | h | h <;> rw [h] <;> rfl
  · have hterm : isTerminal (wsConnPoll 64 (io.conns i).conn).ev.type = true := by
      rw [poll_type]
      exact decide_eq_true hret
    cases hd with
    | quiet hquiet =>
        rw [poll_type, hquiet] at hterm
        cases hterm
    | last => exact ⟨rfl, rfl⟩
    | next _ hgo _ =>
        rw [hterm] at hgo
        cases hgo

end Loop

/-- A client that has sent one text message. -/
def greeted : WsIo (echoServer 1).maxConns Unit :=
  (wsServe (echoServer 1) ()).setConn ⟨0, Nat.one_pos⟩
    (run (exec 64) (wsConnInit .server (zeroBuf 64 (by decide)).bytes) [.open, .recv hiFrame])

theorem drain_ends_greeted :
    let d := play (environment [] []) [] (drainEvents (echoServer 1) greeted ⟨0, Nat.one_pos⟩)
    ∃ k ≤ 5, Drains (echoServer 1) ⟨0, Nat.one_pos⟩ k greeted d.1 d.2 := by
  have hrx : (greeted.conns ⟨0, Nat.one_pos⟩).conn.rxLen = 8 := by decide +kernel
  have hends := (drain_ends (echoServer 1) ⟨0, Nat.one_pos⟩ greeted .server
    (zeroBuf 64 (by decide)) [.open, .recv hiFrame] (by decide +kernel)
    (by rw [greeted, WsIo.setConn_same])).1 (environment [] []) []
  rwa [hrx] at hends

end Libws
