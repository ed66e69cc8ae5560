import Libws.Io.Upgrade

/-!
# Io — what goes out to a client

`sends l` are the frames that were handed to `write_all` in the life `l` of a client, and how far
each of them got.  A write may fail when part of a frame is out; `ws_io_send_*` then returns `-1`
and the slot stays open, so that the next frame is written behind the part.

* `Orderly`: a write offers the rest of what is going out, or starts the next frame when nothing is.
  `Serve.output` and `Step.output` carry it along every run.
* `Orderly.stream`: then the bytes written are those of the response and of the frames, as far as
  each got.
* `output_clean`: so they are a prefix of the response and complete frames, as long as no write
  fails in the middle of a frame, and exactly as long as nothing is written behind such a failure.
-/

namespace Libws
open Libws.Support Prog

/-! ### Frames on their way -/

/-- All bytes written. -/
def written (l : List Deed) : List UInt8 :=
  l.flatMap fun
    | ⟨_, .write _ bytes, w⟩ => bytes.take w.val
    | _ => []

/-- A frame handed to `write_all`: how many of its bytes were written, and whether the last write
failed. -/
structure Sending where
  frame : List UInt8
  sent : Nat
  failed : Bool
  deriving DecidableEq, Repr

namespace Sending

def start (frame : List UInt8) : Sending := ⟨frame, 0, false⟩

/-- After a write of `w` more bytes. -/
def write (a : Sending) (w : Nat) : Sending := ⟨a.frame, a.sent + w, decide (w = 0)⟩

/-- `write_all` is not done with it. -/
def pending (a : Sending) : Bool := !a.failed && decide (a.sent < a.frame.length)

/-- The part that was written. -/
def part (a : Sending) : List UInt8 := a.frame.take a.sent

end Sending

/-- The frame that is being written, if there is one; the newest stands first. -/
def inFlight : List Sending → Option Sending
  | [] => none
  | a :: _ => if a.pending then some a else none

def sendStep (as : List Sending) : Deed → List Sending
  | ⟨_, .write .frame bytes, w⟩ =>
    match inFlight as with
    | some a => a.write w.val :: as.tail
    | none => (Sending.start bytes).write w.val :: as
  | _ => as

/-- The frames handed to `write_all`, the newest first. -/
def sends (l : List Deed) : List Sending := run sendStep [] l

@[simp] theorem written_append (l m : List Deed) : written (l ++ m) = written l ++ written m :=
  List.flatMap_append

theorem sends_append (l m : List Deed) : sends (l ++ m) = run sendStep (sends l) m := run_append ..

theorem inFlight_some {as : List Sending} {a : Sending} (h : inFlight as = some a) :
    a.pending = true ∧ as = a :: as.tail := by
  cases as with
  | nil => cases h
  | cons b as =>
      rw [inFlight] at h
      split at h
      · cases h
        exact ⟨‹_›, rfl⟩
      · cases h

/-- What is not a write. -/
def Deed.Quiet : Deed → Prop
  | ⟨_, .write _ _, _⟩ => False
  | _ => True

theorem Deed.Quiet.still {d : Deed} (h : d.Quiet) (as : List Sending) :
    sendStep as d = as ∧ written [d] = [] ∧ answered [d] = [] := by
  match d with
  | ⟨_, .write _ _, _⟩ => exact h.elim
  | ⟨_, .read _, _⟩ | ⟨_, .recv _, _⟩ | ⟨_, .event _, _⟩ | ⟨_, .close, _⟩ => exact ⟨rfl, rfl, rfl⟩

/-- Only the newest frame can be on its way. -/
theorem pending_of_mem_tail (l : List Deed) : ∀ a ∈ (sends l).tail, a.pending = false := by
  refine run_inv_all (P := fun as : List Sending => ∀ a ∈ as.tail, a.pending = false) ?_ l ?_
  · intro as d has
    match d with
    | ⟨_, .write .frame bytes, w⟩ =>
        rw [sendStep]
        split
        · exact has
        · rename_i hnone
          intro a ha
          cases as with
          | nil => cases ha
          | cons b as =>
              rcases List.mem_cons.mp ha with rfl | ha
              · simpa [inFlight] using hnone
              · exact has a ha
    | ⟨_, .write .handshake _, _⟩ | ⟨_, .read _, _⟩ | ⟨_, .recv _, _⟩ | ⟨_, .event _, _⟩
    | ⟨_, .close, _⟩ => exact has
  · intro a ha
    cases ha

/-! ### Order -/

/-- `bytes` are what is to be written next: the rest of the frame on its way, or a new frame. -/
def Due (l : List Deed) (bytes : List UInt8) : Prop :=
  match inFlight (sends l) with
  | some a => bytes = a.frame.drop a.sent
  | none => IsSentFrame bytes

/-- A write after `l` is one of the response the client asks for, before any frame, or of a frame
that is due, behind the whole response. -/
def InTurn (l : List Deed) : Deed → Prop
  | ⟨_, .write .handshake bytes, _⟩ =>
    sends l = [] ∧ ∃ accept, Asked l accept ∧ answered l ++ bytes <+: response accept
  | ⟨_, .write .frame bytes, _⟩ =>
    (∃ accept, Asked l accept ∧ answered l = response accept) ∧ Due l bytes
  | _ => True

/-- The writes of `m` come in turn after `l`. -/
def Orderly (l m : List Deed) : Prop := Guarded (fun l d => l ++ [d]) InTurn l m

/-- No frame is on its way. -/
def Settled (l : List Deed) : Prop := inFlight (sends l) = none

section Order

variable {l m m' : List Deed}

theorem orderly_append : Orderly l (m ++ m') ↔ Orderly l m ∧ Orderly (l ++ m) m' := by
  rw [Orderly, guarded_append, run_concat]
  rfl

theorem Deed.Quiet.inTurn {d : Deed} (h : d.Quiet) (l : List Deed) : InTurn l d := by
  match d with
  | ⟨_, .write _ _, _⟩ => exact h.elim
  | ⟨_, .read _, _⟩ | ⟨_, .recv _, _⟩ | ⟨_, .event _, _⟩ | ⟨_, .close, _⟩ => exact trivial

/-- What is not a write is always in turn, and sends nothing. -/
theorem orderly_quiet (h : ∀ d ∈ m, d.Quiet) (l : List Deed) :
    Orderly l m ∧ sends (l ++ m) = sends l := by
  induction m generalizing l with
  | nil => exact ⟨trivial, by rw [List.append_nil]⟩
  | cons d m ih =>
      have hd := h d (List.mem_cons_self ..)
      obtain ⟨ho, hs⟩ := ih (fun d hd => h d (List.mem_cons_of_mem _ hd)) (l ++ [d])
      refine ⟨⟨hd.inTurn l, ho⟩, ?_⟩
      rw [List.append_cons, hs, sends_append]
      exact (hd.still _).1

/-- **A write of a frame in turn** goes to the frame on its way, or to a new one. -/
theorem sends_due (fd : Nat) {bytes : List UInt8} (w : Act.Answer (.write .frame bytes))
    (h : Due l bytes) : ∃ a older,
      sends (l ++ [⟨fd, .write .frame bytes, w⟩]) = a.write w.val :: older ∧
      bytes = a.frame.drop a.sent ∧
      (sends l = a :: older ∧ a.pending = true ∨
        sends l = older ∧ a = .start bytes ∧ IsSentFrame bytes) := by
  rw [sends_append, run_cons, run_nil, sendStep]
  rw [Due] at h
  cases hf : inFlight (sends l) with
  | some a =>
      rw [hf] at h
      obtain ⟨hp, htail⟩ := inFlight_some hf
      exact ⟨a, (sends l).tail, rfl, h, .inl ⟨htail, hp⟩⟩
  | none =>
      rw [hf] at h
      exact ⟨.start bytes, sends l, rfl, rfl, .inr ⟨rfl, rfl, h⟩⟩

end Order

/-! ### The bytes written -/

/-- The bytes written are those of the response and of the frames, as far as each of them got; the
response is the one the client asks for, and it is whole when there are frames. -/
structure Stream (l : List Deed) : Prop where
  written : written l = answered l ++ (sends l).reverse.flatMap Sending.part
  response : answered l = [] ∧ sends l = [] ∨ ∃ accept, Asked l accept ∧
    answered l <+: response accept ∧ (sends l ≠ [] → answered l = response accept)
  frames : ∀ a ∈ sends l, IsSentFrame a.frame ∧ a.sent ≤ a.frame.length

section Bytes

variable {l : List Deed} {fd : Nat} {bytes : List UInt8}

theorem flatMap_reverse_cons (f : Sending → List UInt8) (a : Sending) (as : List Sending) :
    (a :: as).reverse.flatMap f = as.reverse.flatMap f ++ f a := by
  simp

/-- What a write adds to the frame it goes to. -/
theorem Sending.part_write (a : Sending) (w : Nat) :
    (a.write w).part = a.part ++ (a.frame.drop a.sent).take w :=
  List.take_add

theorem Stream.answer (hs : Stream l) (w : Act.Answer (.write .handshake bytes))
    (h : InTurn l ⟨fd, .write .handshake bytes, w⟩) :
    Stream (l ++ [⟨fd, .write .handshake bytes, w⟩]) := by
  obtain ⟨hno, accept, hask, hpre⟩ := h
  have hsends : sends (l ++ [⟨fd, .write .handshake bytes, w⟩]) = [] := by
    rw [sends_append, hno]
    rfl
  have hans : answered (l ++ [⟨fd, .write .handshake bytes, w⟩])
      = answered l ++ bytes.take w.val := by
    rw [answered_append]
    simp [answered]
  refine ⟨?_, .inr ⟨accept, hask.append _, ?_, fun hne => absurd hsends hne⟩, ?_⟩
  · have hw := hs.written
    rw [hno] at hw
    rw [hsends, hans, written_append, hw]
    simp [Libws.written]
  · rw [hans]
    exact ((List.prefix_append_right_inj _).mpr (List.take_prefix _ _)).trans hpre
  · rw [hsends]
    simp

theorem Stream.frame (hs : Stream l) (w : Act.Answer (.write .frame bytes))
    (h : InTurn l ⟨fd, .write .frame bytes, w⟩) :
    Stream (l ++ [⟨fd, .write .frame bytes, w⟩]) := by
  obtain ⟨⟨accept, hask, hall⟩, hdue⟩ := h
  obtain ⟨a, older, hsends, hbytes, hfrom⟩ := sends_due fd w hdue
  have hans : answered (l ++ [⟨fd, .write .frame bytes, w⟩]) = answered l := by
    rw [answered_append]
    exact List.append_nil _
  -- the frames before the write, up to the one it goes to
  have hbefore : (sends l).reverse.flatMap Sending.part
      = older.reverse.flatMap Sending.part ++ a.part := by
    rcases hfrom with ⟨hl, -⟩ | ⟨hl, rfl, -⟩
    · rw [hl, flatMap_reverse_cons]
    · rw [hl]
      exact (List.append_nil _).symm
  have hframe : IsSentFrame a.frame ∧ a.sent ≤ a.frame.length ∧
      ∀ b ∈ older, IsSentFrame b.frame ∧ b.sent ≤ b.frame.length := by
    rcases hfrom with ⟨hl, -⟩ | ⟨hl, rfl, hf⟩
    · have hmem := hs.frames
      rw [hl] at hmem
      obtain ⟨hf, hle⟩ := hmem a (List.mem_cons_self ..)
      exact ⟨hf, hle, fun b hb => hmem b (List.mem_cons_of_mem _ hb)⟩
    · refine ⟨hf, Nat.zero_le _, ?_⟩
      rw [← hl]
      exact hs.frames
  refine ⟨?_, .inr ⟨accept, hask.append _, ?_, fun _ => hans.trans hall⟩, ?_⟩
  · have hone : Libws.written [⟨fd, .write .frame bytes, w⟩] = bytes.take w.val := by
      simp [Libws.written]
    calc Libws.written (l ++ [⟨fd, .write .frame bytes, w⟩])
        = answered l ++ (sends l).reverse.flatMap Sending.part ++ bytes.take w.val := by
          rw [written_append, hone, hs.written]
      _ = answered l ++ (older.reverse.flatMap Sending.part ++ (a.part ++ bytes.take w.val)) := by
          rw [hbefore]
          simp only [List.append_assoc]
      _ = answered l ++ (a.write w.val :: older).reverse.flatMap Sending.part := by
          rw [flatMap_reverse_cons, Sending.part_write, ← hbytes]
      _ = _ := by rw [hans, hsends]
  · rw [hans, hall]
  · rw [hsends]
    intro b hb
    rcases List.mem_cons.mp hb with rfl | hb
    · refine ⟨hframe.1, ?_⟩
      have hw := w.property
      have hlen : bytes.length = a.frame.length - a.sent := by rw [hbytes, List.length_drop]
      have := hframe.2.1
      show a.sent + w.val ≤ a.frame.length
      omega
    · exact hframe.2.2 b hb

theorem Stream.quiet {d : Deed} (hs : Stream l) (h : d.Quiet) : Stream (l ++ [d]) := by
  obtain ⟨hsend, hw, ha⟩ := h.still (sends l)
  have hsends : sends (l ++ [d]) = sends l := by
    rw [sends_append]
    exact hsend
  have hans : answered (l ++ [d]) = answered l := by rw [answered_append, ha, List.append_nil]
  refine ⟨?_, ?_, ?_⟩
  · rw [written_append, hw, List.append_nil, hsends, hans]
    exact hs.written
  · rw [hsends, hans]
    exact hs.response.imp_right fun ⟨accept, hask, h⟩ => ⟨accept, hask.append _, h⟩
  · rw [hsends]
    exact hs.frames

theorem Stream.step {d : Deed} (hs : Stream l) (h : InTurn l d) : Stream (l ++ [d]) := by
  match d with
  | ⟨_, .write .handshake _, w⟩ => exact hs.answer w h
  | ⟨_, .write .frame _, w⟩ => exact hs.frame w h
  | ⟨_, .read _, _⟩ | ⟨_, .recv _, _⟩ | ⟨_, .event _, _⟩ | ⟨_, .close, _⟩ => exact hs.quiet trivial

theorem stream_nil : Stream [] :=
  ⟨rfl, .inl ⟨rfl, rfl⟩, fun _ ha => by cases ha⟩

/-- **Orderly writes make a stream.** -/
theorem Orderly.stream (h : Orderly [] l) : Stream l := by
  have := run_inv (P := Stream) (fun _ _ hs ht => hs.step ht) h stream_nil
  rwa [run_concat] at this

end Bytes

/-! ### What the loop writes -/

section Writing

variable {n : Nat} {i : Fin n} {fd : Nat} {buf : List UInt8} {t : Trace n} {rc : Int}
  {l : List Deed}

/-- **`write_all` with a frame** offers the rest of the frame each time, and leaves none on its
way. -/
theorem orderly_frame (hw : Writes i fd .frame buf t rc)
    (hall : ∃ accept, Asked l accept ∧ answered l = response accept)
    (hdue : buf = [] ∧ Settled l ∨ Due l buf) :
    Orderly l (deeds t) ∧ Settled (l ++ deeds t) := by
  induction hw generalizing l with
  | done =>
      refine ⟨trivial, ?_⟩
      rw [deeds_nil, List.append_nil]
      rcases hdue with ⟨-, hs⟩ | hdue
      · exact hs
      · rw [Due] at hdue
        cases hf : inFlight (sends l) with
        | none => exact hf
        | some a =>
            -- a frame on its way has bytes left
            rw [hf] at hdue
            have hpend := (inFlight_some hf).1
            have := List.drop_eq_nil_iff.mp hdue.symm
            simp [Sending.pending] at hpend
            omega
  | @fail buf w hne hz =>
      have hdue : Due l buf := hdue.resolve_left fun h => hne h.1
      obtain ⟨a, older, hsends, -, -⟩ := sends_due fd w hdue
      refine ⟨⟨⟨hall, hdue⟩, trivial⟩, ?_⟩
      rw [deeds_client, deeds_nil, Settled, hsends, inFlight, Sending.pending, Sending.write]
      simp [hz]
  | @more buf w t rc hne hpos _ ih =>
      have hdue : Due l buf := hdue.resolve_left fun h => hne h.1
      obtain ⟨a, older, hsends, hbuf, -⟩ := sends_due fd w hdue
      have hall' : ∃ accept, Asked (l ++ [⟨fd, .write .frame buf, w⟩]) accept ∧
          answered (l ++ [⟨fd, .write .frame buf, w⟩]) = response accept := by
        obtain ⟨accept, hask, hans⟩ := hall
        refine ⟨accept, hask.append _, ?_⟩
        rw [answered_append, hans]
        exact List.append_nil _
      have hrest : buf.drop w.val = (a.write w.val).frame.drop (a.write w.val).sent :=
        (congrArg (List.drop w.val) hbuf).trans List.drop_drop
      have hok : (a.write w.val).failed = false := decide_eq_false (by omega)
      obtain ⟨ho, hs⟩ := ih hall' (by
        rw [Settled, Due, hsends, inFlight]
        cases hp : (a.write w.val).pending with
        | true => exact .inr hrest
        | false =>
            refine .inl ⟨?_, rfl⟩
            rw [hrest, List.drop_eq_nil_iff]
            simpa [Sending.pending, hok] using hp)
      refine ⟨⟨⟨hall, hdue⟩, ho⟩, ?_⟩
      rw [deeds_client, List.append_cons]
      exact hs

/-- `write_all` with a part of the response. -/
theorem orderly_answer {accept : List UInt8} (hw : Writes i fd .handshake buf t rc)
    (hno : sends l = []) (hask : Asked l accept) (hpre : answered l ++ buf <+: response accept) :
    Orderly l (deeds t) ∧ sends (l ++ deeds t) = [] := by
  induction hw generalizing l with
  | done => exact ⟨trivial, by rw [deeds_nil, List.append_nil, hno]⟩
  | @fail buf w =>
      refine ⟨⟨⟨hno, accept, hask, hpre⟩, trivial⟩, ?_⟩
      rw [sends_append, hno]
      rfl
  | @more buf w t rc _ _ _ ih =>
      have hsends : sends (l ++ [⟨fd, .write .handshake buf, w⟩]) = [] := by
        rw [sends_append, hno]
        rfl
      have hans : answered (l ++ [⟨fd, .write .handshake buf, w⟩]) ++ buf.drop w.val
          = answered l ++ buf := by
        rw [answered_append, List.append_assoc]
        congr 1
        simp [answered]
      obtain ⟨ho, hs⟩ := ih hsends (hask.append _) (by rw [hans]; exact hpre)
      refine ⟨⟨⟨hno, accept, hask, hpre⟩, ho⟩, ?_⟩
      rw [deeds_client, List.append_cons]
      exact hs

/-- `send_accept`. -/
theorem orderly_answers {accept : List UInt8} (h : Answers i fd accept t rc)
    (hno : sends l = []) (hask : Asked l accept) (hnil : answered l = []) :
    Orderly l (deeds t) ∧ sends (l ++ deeds t) = [] := by
  have hpre : ∀ {u : Trace n}, Writes i fd .handshake acceptPre u 0 →
      answered (l ++ deeds u) = acceptPre := by
    intro u hu
    rw [answered_append, hnil, hu.answered_of_zero]
    rfl
  have hfirst : answered l ++ acceptPre <+: response accept := by
    rw [hnil, response, List.append_assoc]
    exact List.prefix_append ..
  have hsecond : ∀ {u : Trace n}, Writes i fd .handshake acceptPre u 0 →
      answered (l ++ deeds u) ++ accept <+: response accept := by
    intro u hu
    rw [hpre hu, response]
    exact List.prefix_append ..
  cases h with
  | pre h₁ => exact orderly_answer h₁ hno hask hfirst
  | @accept u v _ h₁ h₂ =>
      obtain ⟨ho₁, hs₁⟩ := orderly_answer h₁ hno hask hfirst
      obtain ⟨ho₂, hs₂⟩ := orderly_answer h₂ hs₁ (hask.append _) (hsecond h₁)
      rw [deeds_append]
      refine ⟨orderly_append.mpr ⟨ho₁, ho₂⟩, ?_⟩
      rw [← List.append_assoc]
      exact hs₂
  | @blank u v x _ h₁ h₂ h₃ =>
      have hthird : answered (l ++ deeds u ++ deeds v) ++ crlf2 <+: response accept := by
        rw [answered_append, hpre h₁, h₂.answered_of_zero]
        exact List.prefix_rfl
      obtain ⟨ho₁, hs₁⟩ := orderly_answer h₁ hno hask hfirst
      obtain ⟨ho₂, hs₂⟩ := orderly_answer h₂ hs₁ (hask.append _) (hsecond h₁)
      obtain ⟨ho₃, hs₃⟩ := orderly_answer h₃ hs₂ ((hask.append _).append _) hthird
      rw [deeds_append, deeds_append]
      refine ⟨orderly_append.mpr ⟨orderly_append.mpr ⟨ho₁, ho₂⟩, ?_⟩, ?_⟩
      · rw [← List.append_assoc]
        exact ho₃
      · rw [← List.append_assoc, ← List.append_assoc]
        exact hs₃

end Writing

/-! ### Every run -/

/-- What every run keeps: the writes so far came in turn, at each point of the run and to every
client, and no frame is on its way. -/
structure Outward {n : Nat} (h : Trace n) : Prop where
  settled : ∀ i, Settled (life i h)
  orderly : ∀ h' u, h = h' ++ u → ∀ i, Orderly [] (life i h')

section Runs

variable {n : Nat} {h t : Trace n} {k : Fin n} {fd : Nat}

theorem Outward.now (hi : Outward h) (i : Fin n) : Orderly [] (life i h) :=
  hi.orderly h [] (List.append_nil h).symm i

/-- Something is done for the client of slot `k`. -/
theorem Outward.client (hi : Outward h) (honly : Only k fd t) (ho : Orderly (life k h) (deeds t))
    (hs : Settled (life k h ++ deeds t)) : Outward (h ++ t) := by
  refine ⟨fun i => ?_, fun h' u heq i => ?_⟩
  · by_cases hik : i = k
    · subst hik
      rw [life_same honly]
      exact hs
    · rw [life_other honly hik]
      exact hi.settled i
  · rcases List.append_eq_append_iff.mp heq with ⟨v, rfl, rfl⟩ | ⟨v, hv, -⟩
    · have hsome : Only k fd v := fun e he => honly e (List.mem_append_left _ he)
      by_cases hik : i = k
      · subst hik
        rw [deeds_append] at ho
        rw [life_same hsome]
        exact orderly_append.mpr ⟨hi.now i, (orderly_append.mp ho).1⟩
      · rw [life_other hsome hik]
        exact hi.now i
    · exact hi.orderly h' v hv i

/-- A call that is about no client; a life may end there and a new one begin. -/
theorem Outward.idle {e : Entry (Req.Answer (n := n))} (hi : Outward h)
    (he : ∀ i, life i (h ++ [e]) = life i h ∨ life i (h ++ [e]) = []) : Outward (h ++ [e]) := by
  refine ⟨fun i => ?_, fun h' u heq i => ?_⟩
  · rcases he i with hl | hl
    · rw [hl]
      exact hi.settled i
    · rw [hl]
      rfl
  · rcases List.append_eq_append_iff.mp heq with ⟨v, rfl, hv⟩ | ⟨v, hv, -⟩
    · cases v with
      | nil =>
          rw [List.append_nil]
          exact hi.now i
      | cons e' v =>
          obtain ⟨rfl, hnil⟩ := List.cons.inj hv
          rw [(List.append_eq_nil_iff.mp hnil.symm).1]
          rcases he i with hl | hl
          · rw [hl]
            exact hi.now i
          · rw [hl]
            trivial
    · exact hi.orderly h' v hv i

end Runs

section Loop

variable {σ : Type} {sv : Server σ} {io io' : WsIo sv.maxConns σ}
  {h t : Trace sv.maxConns} {i : Fin sv.maxConns}

/-- What is done for a client without a write. -/
theorem Outward.quiet {fd : Nat} (hi : Outward h) (honly : Only i fd t)
    (hq : ∀ d ∈ deeds t, d.Quiet) : Outward (h ++ t) := by
  obtain ⟨ho, hs⟩ := orderly_quiet hq (life i h)
  refine hi.client honly ho ?_
  rw [Settled, hs]
  exact hi.settled i

/-- The handshake of a client that was not answered before: a read, the response, and what is done
behind it without a write. -/
theorem Outward.handshake {fd room : Nat} {accept : List UInt8} {u v : Trace sv.maxConns} {rc : Int}
    (hi : Outward h) (hnil : answered (life i h) = []) (r : Act.Answer (.read room))
    (hask : Asked (life i h ++ [⟨fd, .read room, r⟩]) accept)
    (hans : Answers i fd accept u rc) (hv : Only i fd v) (hq : ∀ d ∈ deeds v, d.Quiet) :
    Outward (h ++ (⟨.client i fd (.read room), r⟩ :: u ++ v)) := by
  have hno : sends (life i h) = [] := by
    by_contra hne
    rcases (hi.now i).stream.response with ⟨-, hno⟩ | ⟨accept, -, -, hall⟩
    · exact hne hno
    · exact response_ne_nil accept ((hall hne).symm.trans hnil)
  have hread : ∀ d ∈ [(⟨fd, .read room, r⟩ : Deed)], d.Quiet := by
    intro d hd
    obtain rfl := List.mem_singleton.mp hd
    trivial
  obtain ⟨ho₀, hs₀⟩ := orderly_quiet hread (life i h)
  obtain ⟨ho₁, hs₁⟩ := orderly_answers hans (hs₀.trans hno) hask
    ((read_deed (life i h) fd room r).2.1.trans hnil)
  obtain ⟨ho₂, hs₂⟩ := orderly_quiet hq (life i h ++ [⟨fd, .read room, r⟩] ++ deeds u)
  refine hi.client ((Only.cons (a := .read room) r hans.only).append hv) ?_ ?_
  · rw [deeds_append, deeds_client]
    refine orderly_append.mpr ⟨orderly_append.mpr ⟨ho₀, ho₁⟩, ?_⟩
    rw [List.append_cons]
    exact ho₂
  · rw [deeds_append, deeds_client, ← List.append_assoc, List.append_cons, Settled, hs₂, hs₁]
    rfl

theorem quiet_recvd (fd : Nat) (rest : List UInt8) :
    ∀ d ∈ deeds (recvd i fd rest), d.Quiet := by
  rw [recvd]
  split
  · intro d hd
    cases hd
  · intro d hd
    obtain rfl := List.mem_singleton.mp hd
    trivial

/-- **One step of serving a client** keeps the order. -/
theorem Serve.output {T : Fin sv.maxConns → Prop} (hs : Serve sv T i io t io') (hi : Inv io h)
    (ho : Outward h) : Outward (h ++ t) := by
  cases hs with
  | app | sendClose | poll => rwa [List.append_nil]
  | @frame j bytes _ rc _ hu hact hw hsent =>
      have hup := (hi.stage j).opened hu ((hi.stage j).isOpen_of_active hu hact)
      obtain ⟨pos, accept, hpos, -, hkey, hans, -⟩ := hup
      have hdue : Due (life j h) bytes := by
        rw [Due, ho.settled j]
        exact hsent
      obtain ⟨hord, hset⟩ := orderly_frame hw ⟨accept, ⟨pos, hpos, hkey⟩, hans⟩ (.inr hdue)
      exact ho.client hw.only hord hset
  | @event ev => exact ho.quiet (.cons (a := .event ev) () .nil) (by simp [Deed.Quiet])
  | @eof r => exact ho.quiet (.cons (a := .read chunkCap) r .nil) (by simp [Deed.Quiet])
  | @pump r =>
      exact ho.quiet (.cons (a := .read chunkCap) r (.cons (a := .recv r.val) () .nil))
        (by simp [Deed.Quiet])
  | close => exact ho.quiet (.cons (a := .close) () .nil) (by simp [Deed.Quiet])
  | @wait r =>
      exact ho.quiet (.cons (a := .read (hsCap - (io.conns i).hslen)) r .nil)
        (by simp [Deed.Quiet])
  | @upgrade r pos accept rest u hu hopen _ hpos hkey hans =>
      have hsh := (hi.stage i).shaking hu hopen
      exact ho.handshake hsh.answered r (hsh.asked hpos hkey) hans (recvd_only i _ rest)
        (quiet_recvd _ rest)
  | @quit r u s hu hopen hrej =>
      cases hrej with
      | ended | large | keyless =>
          exact ho.quiet (.cons (a := .read (hsCap - (io.conns i).hslen)) r
            (.cons (a := .close) () .nil)) (by simp [Deed.Quiet])
      | unwritten hans _ hpos hkey =>
          have hsh := (hi.stage i).shaking hu hopen
          exact ho.handshake hsh.answered r (hsh.asked hpos hkey) hans
            (.cons (a := .close) () .nil) (by simp [Deed.Quiet])

/-- **One step of the loop** keeps the order. -/
theorem Step.output {T : Fin sv.maxConns → Fin sv.maxConns → Prop} (hs : Step sv T io t io')
    (hi : Inv io h) (ho : Outward h) : Outward (h ++ t) := by
  have haccept : ∀ r, Outward (h ++ [⟨.accept, r⟩]) := fun r =>
    ho.idle fun i => .inl (by rw [life, run_append]; rfl)
  cases hs with
  | accept ha =>
      cases ha with
      | failed => exact haccept none
      | @refuse fd =>
          have := (haccept (some fd)).idle (e := ⟨.refuse fd, ()⟩) fun i =>
            .inl (by rw [life, run_append]; rfl)
          rwa [List.append_assoc] at this
      | @seat j fd =>
          have := (haccept (some fd)).idle (e := ⟨.seat j fd, ()⟩) fun i => by
            rw [List.append_assoc, List.cons_append, List.nil_append, life_seat]
            split
            · exact .inr rfl
            · exact .inl (by rw [life, life, run_append]; rfl)
          rwa [List.append_assoc] at this
  | serve i hs => exact hs.output hi ho

theorem outward_run {app : σ} {fds : List Nat}
    (hr : Runs (runLoop sv (wsServe sv app) fds) t io) : Outward t := by
  have hboth : Inv io t ∧ Outward t := by
    refine runLoop_inv (P := fun io h => Inv io h ∧ Outward h)
      (fun io h t io' hi hs => ⟨hs.inv hi.1, hs.output hi.1 hi.2⟩) ⟨?_, ?_, ?_⟩ hr
    · exact inv_run (show Runs (runLoop sv (wsServe sv app) []) [] _ from ⟨rfl, rfl⟩)
    · exact fun i => rfl
    · intro h' u heq i
      rw [(List.append_eq_nil_iff.mp heq.symm).1]
      trivial
  exact hboth.2

end Loop

/-! ### Failing writes -/

/-- What a client may rely on: it is sent nothing, or a prefix of the response it asks for and of
frames that `ws_send_*` built, and a frame that was cut short is followed by nothing. -/
structure Clean (l : List Deed) : Prop where
  stream : written l = [] ∨ ∃ accept, Asked l accept ∧ written l <+: response accept ++
    ((sends l).reverse.filter fun a => decide (0 < a.sent)).flatMap Sending.frame
  frames : ∀ a ∈ sends l, IsSentFrame a.frame
  cut : ∀ newer a older, sends l = newer ++ a :: older → 0 < a.sent → a.sent < a.frame.length →
    ∀ b ∈ newer, b.sent = 0

/-- No write fails when part of the frame is out. -/
def Unbroken (l : List Deed) : Prop := ∀ a ∈ sends l, a.failed = true → a.sent = 0

instance (l : List Deed) : Decidable (Unbroken l) :=
  inferInstanceAs (Decidable (∀ a ∈ sends l, a.failed = true → a.sent = 0))

/-- Once a write has failed when part of the frame was out, the writes of later frames put no byte
out. -/
def Stopped (l : List Deed) : Prop := ∀ newer a older, sends l = newer ++ a :: older →
  a.failed = true → 0 < a.sent → ∀ b ∈ newer, b.sent = 0

section Failing

/-- The parts of frames that are out in full or not at all. -/
theorem flatMap_part {as : List Sending} (h : ∀ a ∈ as, a.sent = 0 ∨ a.sent = a.frame.length) :
    as.flatMap Sending.part
      = (as.filter fun a => decide (0 < a.sent)).flatMap Sending.frame := by
  induction as with
  | nil => rfl
  | cons a as ih =>
      have hrest := ih fun b hb => h b (List.mem_cons_of_mem _ hb)
      rw [List.flatMap_cons, hrest, Sending.part]
      rcases h a (List.mem_cons_self ..) with hz | hall
      · rw [List.filter_cons_of_neg (by simp [hz]), hz]
        rfl
      · rw [hall, List.take_length]
        by_cases hpos : 0 < a.sent
        · rw [List.filter_cons_of_pos (by simpa using hpos), List.flatMap_cons]
        · -- a frame of no bytes adds none
          have hnil : a.frame = [] := List.length_eq_zero_iff.mp (by omega)
          rw [List.filter_cons_of_neg (by simpa using hpos), hnil]
          rfl

/-- The same, when the newest frame may be out in part. -/
theorem prefix_of_flatMap_part {as : List Sending}
    (h : ∀ a ∈ as.tail, a.sent = 0 ∨ a.sent = a.frame.length) :
    as.reverse.flatMap Sending.part
      <+: (as.reverse.filter fun a => decide (0 < a.sent)).flatMap Sending.frame := by
  cases as with
  | nil => exact List.nil_prefix
  | cons a as =>
      have holder : as.reverse.flatMap Sending.part = _ :=
        flatMap_part fun b hb => h b (List.mem_reverse.mp hb)
      rw [flatMap_reverse_cons, holder, List.reverse_cons, List.filter_append, List.flatMap_append]
      refine (List.prefix_append_right_inj _).mpr ?_
      by_cases hpos : 0 < a.sent
      · rw [List.filter_cons_of_pos (by simpa using hpos)]
        exact (List.take_prefix _ _).trans (List.prefix_append ..)
      · rw [Sending.part, show a.sent = 0 by omega]
        exact List.nil_prefix

/-- The same, when nothing is out behind the frame that is out in part. -/
theorem prefix_of_untorn {as : List Sending} (hle : ∀ a ∈ as, a.sent ≤ a.frame.length)
    (h : ∀ newer a older, as = newer ++ a :: older → 0 < a.sent → a.sent < a.frame.length →
      ∀ b ∈ newer, b.sent = 0) :
    as.reverse.flatMap Sending.part
      <+: (as.reverse.filter fun a => decide (0 < a.sent)).flatMap Sending.frame := by
  induction as with
  | nil => exact List.nil_prefix
  | cons a as ih =>
      by_cases hpos : 0 < a.sent
      · -- bytes of the newest frame are out, so every older one is out in full or not at all
        refine prefix_of_flatMap_part fun b hb => ?_
        obtain ⟨newer, older, rfl⟩ := List.append_of_mem hb
        have hb := hle b (List.mem_cons_of_mem _ hb)
        by_contra hpart
        have := h (a :: newer) b older rfl (by omega) (by omega) a (List.mem_cons_self ..)
        omega
      · -- the newest frame adds nothing
        have hz : a.sent = 0 := by omega
        have hnil : a.part = [] := by rw [Sending.part, hz, List.take_zero]
        rw [flatMap_reverse_cons, hnil, List.append_nil, List.reverse_cons, List.filter_append,
          List.filter_cons_of_neg (by simpa using hpos), List.filter_nil, List.append_nil]
        refine ih (fun b hb => hle b (List.mem_cons_of_mem _ hb)) ?_
        intro newer b older heq hb hlt c hc
        exact h (a :: newer) b older (by rw [heq]; rfl) hb hlt c (List.mem_cons_of_mem _ hc)

variable {l : List Deed}

/-- A write that fails leaves something of its frame unwritten. -/
theorem failed_part (l : List Deed) :
    ∀ a ∈ sends l, a.failed = true → 0 < a.sent → a.sent < a.frame.length := by
  refine run_inv_all (P := fun as : List Sending =>
    ∀ a ∈ as, a.failed = true → 0 < a.sent → a.sent < a.frame.length) ?_ l (List.forall_mem_nil _)
  intro as d has
  match d with
  | ⟨_, .write .frame bytes, w⟩ =>
      rw [sendStep]
      split
      · rename_i b hb
        obtain ⟨hpend, heq⟩ := inFlight_some hb
        rintro a (_ | ⟨_, ha⟩) hf hpos
        · have hz : w.val = 0 := of_decide_eq_true hf
          rw [Sending.pending, Bool.and_eq_true, decide_eq_true_eq] at hpend
          simpa [Sending.write, hz] using hpend.2
        · exact has a (by rw [heq]; exact List.mem_cons_of_mem _ ha) hf hpos
      · rintro a (_ | ⟨_, ha⟩) hf hpos
        · have hz : w.val = 0 := of_decide_eq_true hf
          simp [Sending.write, Sending.start, hz] at hpos
        · exact has a ha hf hpos
  | ⟨_, .write .handshake _, _⟩ | ⟨_, .read _, _⟩ | ⟨_, .recv _, _⟩ | ⟨_, .event _, _⟩
  | ⟨_, .close, _⟩ => exact has

theorem Unbroken.stopped (h : Unbroken l) : Stopped l := by
  intro newer a older heq hf hpos
  have := h a (by rw [heq]; simp) hf
  omega

/-- **What goes out is clean exactly when it stops at a torn frame.** -/
theorem Stream.clean_iff (hs : Stream l) : Clean l ↔ Stopped l := by
  constructor
  · intro hc newer a older heq hf hpos
    exact hc.cut newer a older heq hpos (failed_part l a (by rw [heq]; simp) hf hpos)
  · intro h
    have hcut : ∀ newer a older, sends l = newer ++ a :: older → 0 < a.sent →
        a.sent < a.frame.length → ∀ b ∈ newer, b.sent = 0 := by
      intro newer a older heq hpos hlt b hb
      refine h newer a older heq ?_ hpos b hb
      -- it is not the newest, so it is no longer on its way
      obtain ⟨c, newer, rfl⟩ := List.exists_cons_of_ne_nil (List.ne_nil_of_mem hb)
      have hpend := pending_of_mem_tail l a (by rw [heq]; simp)
      simpa [Sending.pending, hlt] using hpend
    refine ⟨?_, fun a ha => (hs.frames a ha).1, hcut⟩
    rw [hs.written]
    rcases hs.response with ⟨hnil, hno⟩ | ⟨accept, hask, hpre, hall⟩
    · exact .inl (by rw [hnil, hno]; rfl)
    · refine .inr ⟨accept, hask, ?_⟩
      by_cases hno : sends l = []
      · rw [hno]
        simpa using hpre
      · rw [hall hno]
        exact (List.prefix_append_right_inj _).mpr
          (prefix_of_untorn (fun a ha => (hs.frames a ha).2) hcut)

end Failing

/-- **As long as no write fails in the middle of a frame**, a client is sent a prefix of the 101
response and complete frames, at every point of every run, whatever the handler sends and however
the writes are cut; and exactly as long as no byte of a frame is written behind such a failure. -/
theorem output_clean {σ : Type} (sv : Server σ) (app : σ) (fds : List Nat)
    (t : Trace sv.maxConns) (io : WsIo sv.maxConns σ)
    (hr : Runs (runLoop sv (wsServe sv app) fds) t io) (i : Fin sv.maxConns)
    (h u : Trace sv.maxConns) (ht : t = h ++ u) :
    (Unbroken (life i h) → Clean (life i h)) ∧ (Clean (life i h) ↔ Stopped (life i h)) := by
  have hiff := ((outward_run hr).orderly h u ht i).stream.clean_iff
  exact ⟨fun hok => hiff.mpr hok.stopped, hiff⟩

/-- As `environment`, but the writes of frames write no more than `limits` say, one each. -/
def choppy {n : Nat} (limits : List Nat) (fds : List Nat) (chunks : List (List UInt8))
    (h : Trace n) : (e : Req n) → e.Answer
  | .client _ _ (.write .frame bytes) =>
    let k := h.countP fun e => e.1 matches .client _ _ (.write .frame _)
    ⟨min (limits.getD k bytes.length) bytes.length, Nat.min_le_right ..⟩
  | e => environment fds chunks h e

/-- One client, which sends a message twice. -/
def choppyRun (limits : List Nat) :
    Trace (echoServer 1).maxConns × WsIo (echoServer 1).maxConns Unit :=
  play (choppy limits [5] [upgradeRequest, hiFrame, hiFrame]) []
    (runLoop (echoServer 1) (wsServe (echoServer 1) ()) [3, 5, 5, 5])

/-- The first byte of a frame is written, the next write fails, and the next frame is written in
full behind that byte. -/
theorem torn_frame_followed :
    let l := life echoSlot (choppyRun [1, 0]).1
    sends l = [⟨[0x81, 0x02, 0x48, 0x69], 4, false⟩, ⟨[0x81, 0x02, 0x48, 0x69], 1, true⟩] ∧
      (written l).drop (answered l).length = [0x81, 0x81, 0x02, 0x48, 0x69] ∧ ¬ Clean l := by
  intro l
  have hsends : sends l
      = [⟨[0x81, 0x02, 0x48, 0x69], 4, false⟩, ⟨[0x81, 0x02, 0x48, 0x69], 1, true⟩] := by
    decide +kernel
  refine ⟨hsends, by decide +kernel, fun hclean => ?_⟩
  have := hclean.cut [_] _ [] hsends (by decide) (by decide) _ (List.mem_singleton.mpr rfl)
  cases this

/-- The first frame goes out in three writes; the first write of the second fails. -/
theorem output_clean_choppy : Clean (life echoSlot (choppyRun [1, 2, 1, 0]).1) :=
  (output_clean (echoServer 1) () [3, 5, 5, 5] _ _ (runs_play _ _ _) echoSlot _ []
    (List.append_nil _).symm).1 (by decide +kernel)

end Libws
