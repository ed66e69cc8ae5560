import Libws.Io.Steps

/-!
# Io — the connection pool owns the open descriptors

`openFds t` is read off a trace: the client descriptors accepted and not closed since.  Of the
kernel it is assumed that `accept` returns no descriptor that is open (`FreshAccept`), along the
whole run.  Then the descriptors of the slots in use are exactly the open ones, each in one slot
(`Owns`), and no call closes a descriptor that is not open (`ClosesOpen`).

* `Owns.leave`, `Owns.join`, `Owns.same`: what the steps do to the pool.
* `pool_owns`: every run.
-/

namespace Libws
open Libws.Support Prog

/-! ### Open descriptors -/

section Descriptors

variable {n : Nat}

/-- `accept` opens a descriptor; the close of a client and the refusal of one close it. -/
def openStep (open_ : List Nat) : Entry (Req.Answer (n := n)) → List Nat
  | ⟨.accept, some fd⟩ => fd :: open_
  | ⟨.refuse fd, _⟩ => open_.erase fd
  | ⟨.client _ fd .close, _⟩ => open_.erase fd
  | _ => open_

/-- The client descriptors that are open after `t`. -/
def openFds (t : Trace n) : List Nat := run openStep [] t

/-- `accept` returns a descriptor that is not open. -/
def FreshAccept (listenFd : Nat) (open_ : List Nat) : Entry (Req.Answer (n := n)) → Prop
  | ⟨.accept, some fd⟩ => fd ∉ open_ ∧ fd ≠ listenFd
  | _ => True

/-- What is closed is open. -/
def ClosesOpen (open_ : List Nat) : Entry (Req.Answer (n := n)) → Prop
  | ⟨.refuse fd, _⟩ => fd ∈ open_
  | ⟨.client _ fd .close, _⟩ => fd ∈ open_
  | _ => True

/-- An entry that opens and closes nothing. -/
def Still (e : Entry (Req.Answer (n := n))) : Prop :=
  ∀ open_, openStep open_ e = open_ ∧ ClosesOpen open_ e

theorem run_still {t : Trace n} (h : ∀ e ∈ t, Still e) (open_ : List Nat) :
    run openStep open_ t = open_ ∧ Guarded openStep ClosesOpen open_ t := by
  induction t with
  | nil => exact ⟨rfl, trivial⟩
  | cons e t ih =>
      obtain ⟨hstep, hok⟩ := h e (List.mem_cons_self ..) open_
      obtain ⟨hrun, hguard⟩ := ih fun e' he' => h e' (List.mem_cons_of_mem _ he')
      rw [run_cons, hstep]
      exact ⟨hrun, hok, by rw [hstep]; exact hguard⟩

theorem Writes.still {i : Fin n} {fd : Nat} {src : Source} {buf : List UInt8} {t : Trace n}
    {rc : Int} (h : Writes i fd src buf t rc) : ∀ e ∈ t, Still e := by
  induction h with
  | done => simp
  | fail => simp [Still, openStep, ClosesOpen]
  | more _ _ _ ih => simpa [Still, openStep, ClosesOpen] using ih

theorem Answers.still {i : Fin n} {fd : Nat} {accept : List UInt8} {t : Trace n} {rc : Int}
    (h : Answers i fd accept t rc) : ∀ e ∈ t, Still e := by
  intro e he
  cases h with
  | pre h₁ => exact h₁.still e he
  | accept h₁ h₂ =>
      rcases List.mem_append.mp he with he | he
      · exact h₁.still e he
      · exact h₂.still e he
  | blank h₁ h₂ h₃ =>
      rcases List.mem_append.mp he with he | he
      · rcases List.mem_append.mp he with he | he
        · exact h₁.still e he
        · exact h₂.still e he
      · exact h₃.still e he

theorem Rejected.still {i : Fin n} {s : WsSlot} {r : List UInt8} {t : Trace n}
    (h : Rejected i s r t) : ∀ e ∈ t, Still e := by
  cases h with
  | ended | large | keyless => simp
  | unwritten h => exact h.still

theorem read_still (i : Fin n) (fd room : Nat) (r : Act.Answer (.read room)) :
    Still ⟨Req.client i fd (.read room), r⟩ := fun _ => ⟨rfl, trivial⟩

theorem recvd_still (i : Fin n) (fd : Nat) (rest : List UInt8) :
    ∀ e ∈ recvd i fd rest, Still e := by
  rw [recvd]
  split
  · simp
  · simp [Still, openStep, ClosesOpen]

end Descriptors

/-! ### Ownership -/

section Ownership

variable {σ : Type} {n : Nat}

/-- The slots in use hold the open descriptors, one each, and none holds the listener. -/
structure Owns (listenFd : Nat) (io : WsIo n σ) (open_ : List Nat) : Prop where
  nodup : open_.Nodup
  mem_iff : ∀ fd, fd ∈ open_ ↔ ∃ i, (io.conns i).used = true ∧ (io.conns i).fd = fd
  inj : ∀ i j, (io.conns i).used = true → (io.conns j).used = true →
    (io.conns i).fd = (io.conns j).fd → i = j
  not_listen : ∀ i, (io.conns i).used = true → (io.conns i).fd ≠ listenFd

variable {listenFd : Nat} {io io' : WsIo n σ} {open_ : List Nat} {i : Fin n}

/-- Slots may change in everything but `used` and `fd`. -/
theorem Owns.same (h : Owns listenFd io open_)
    (hs : ∀ j, (io'.conns j).used = (io.conns j).used ∧ (io'.conns j).fd = (io.conns j).fd) :
    Owns listenFd io' open_ := by
  refine ⟨h.nodup, fun fd => ?_, fun j k hj hk hfd => ?_, fun j hj => ?_⟩
  · simp only [h.mem_iff fd, hs]
  · rw [(hs j).1] at hj
    rw [(hs k).1] at hk
    rw [(hs j).2, (hs k).2] at hfd
    exact h.inj j k hj hk hfd
  · rw [(hs j).1] at hj
    rw [(hs j).2]
    exact h.not_listen j hj

theorem Owns.set (h : Owns listenFd io open_) {s : WsSlot} (hu : s.used = (io.conns i).used)
    (hfd : s.fd = (io.conns i).fd) : Owns listenFd (io.set i s) open_ := by
  refine h.same fun j => ?_
  by_cases hj : j = i
  · subst hj
    rw [WsIo.set_same]
    exact ⟨hu, hfd⟩
  · rw [io.set_other s hj]
    exact ⟨rfl, rfl⟩

/-- A slot gives up its descriptor. -/
theorem Owns.leave (h : Owns listenFd io open_) (hu : (io.conns i).used = true) {s : WsSlot}
    (hs : s.used = false) : Owns listenFd (io.set i s) (open_.erase (io.conns i).fd) := by
  -- the slots in use afterwards are the others
  have hne : ∀ j, ((io.set i s).conns j).used = true → j ≠ i := by
    rintro j hj rfl
    rw [WsIo.set_same, hs] at hj
    cases hj
  refine ⟨h.nodup.erase _, fun fd => ?_, fun j k hj hk hfd => ?_, fun j hj => ?_⟩
  · rw [h.nodup.mem_erase_iff, h.mem_iff fd]
    constructor
    · rintro ⟨hfd, j, hj, rfl⟩
      have hji : j ≠ i := fun hji => hfd (by rw [hji])
      refine ⟨j, ?_, ?_⟩
      · rw [io.set_other s hji]; exact hj
      · rw [io.set_other s hji]
    · rintro ⟨j, hj, hfd⟩
      have hji := hne j hj
      rw [io.set_other s hji] at hj hfd
      exact ⟨fun hsame => hji (h.inj j i hj hu (hfd.trans hsame)), j, hj, hfd⟩
  · have hji := hne j hj
    have hki := hne k hk
    rw [io.set_other s hji] at hj hfd
    rw [io.set_other s hki] at hk hfd
    exact h.inj j k hj hk hfd
  · have hji := hne j hj
    rw [io.set_other s hji] at hj ⊢
    exact h.not_listen j hj

/-- A slot that is not in use takes a descriptor that is not open. -/
theorem Owns.join (h : Owns listenFd io open_) (hu : (io.conns i).used = false) {s : WsSlot}
    (hs : s.used = true) (hfresh : s.fd ∉ open_) (hl : s.fd ≠ listenFd) :
    Owns listenFd (io.set i s) (s.fd :: open_) := by
  have hother : ∀ j, (io.conns j).used = true → j ≠ i := by
    rintro j hj rfl
    rw [hu] at hj
    cases hj
  have hfd : ∀ j, (io.conns j).used = true → (io.conns j).fd ≠ s.fd := fun j hj heq =>
    hfresh ((h.mem_iff s.fd).mpr ⟨j, hj, heq⟩)
  refine ⟨List.nodup_cons.mpr ⟨hfresh, h.nodup⟩, fun fd => ?_, fun j k hj hk heq => ?_,
    fun j hj => ?_⟩
  · rw [List.mem_cons, h.mem_iff fd]
    constructor
    · rintro (rfl | ⟨j, hj, rfl⟩)
      · exact ⟨i, by rw [WsIo.set_same]; exact hs, by rw [WsIo.set_same]⟩
      · refine ⟨j, ?_, ?_⟩
        · rw [io.set_other s (hother j hj)]; exact hj
        · rw [io.set_other s (hother j hj)]
    · rintro ⟨j, hj, hjfd⟩
      by_cases hji : j = i
      · subst hji
        rw [WsIo.set_same] at hjfd
        exact .inl hjfd.symm
      · rw [io.set_other s hji] at hj hjfd
        exact .inr ⟨j, hj, hjfd⟩
  · by_cases hji : j = i
    · by_cases hki : k = i
      · rw [hji, hki]
      · subst hji
        rw [WsIo.set_same, io.set_other s hki] at heq
        rw [io.set_other s hki] at hk
        exact absurd heq.symm (hfd k hk)
    · rw [io.set_other s hji] at hj heq
      by_cases hki : k = i
      · subst hki
        rw [WsIo.set_same] at heq
        exact absurd heq (hfd j hj)
      · rw [io.set_other s hki] at hk heq
        exact h.inj j k hj hk heq
  · by_cases hji : j = i
    · subst hji
      rw [WsIo.set_same]
      exact hl
    · rw [io.set_other s hji] at hj ⊢
      exact h.not_listen j hj

/-- The slot that owns a descriptor is the one `slot_by_fd` finds. -/
theorem Owns.slotByFd (h : Owns listenFd io open_) (fd : Nat) :
    Libws.slotByFd io fd = some i ↔ (io.conns i).used = true ∧ (io.conns i).fd = fd := by
  constructor
  · exact slotByFd_some
  · rintro ⟨hu, rfl⟩
    cases hf : Libws.slotByFd io (io.conns i).fd with
    | none =>
        refine absurd ?_ (List.find?_eq_none.mp hf i (List.mem_finRange i))
        simp [slotHasFd, hu]
    | some j =>
        obtain ⟨hj, hfd⟩ := slotByFd_some hf
        rw [h.inj j i hj hu hfd]

end Ownership

/-! ### Runs -/

section Runs

variable {σ : Type} {sv : Server σ} {io io' : WsIo sv.maxConns σ} {t : Trace sv.maxConns}

/-- What is shown opens and closes nothing. -/
theorem owns_still {listenFd : Nat} {open_ : List Nat} (h : Owns listenFd io open_)
    (ht : ∀ e ∈ t, Still e) :
    Owns listenFd io (run openStep open_ t) ∧ Guarded openStep ClosesOpen open_ t := by
  obtain ⟨hrun, hguard⟩ := run_still ht open_
  exact ⟨by rw [hrun]; exact h, hguard⟩

theorem Serve.owns {T : Fin sv.maxConns → Prop} {i : Fin sv.maxConns} {open_ : List Nat}
    (hs : Serve sv T i io t io') (h : Owns sv.listenFd io open_) :
    Owns sv.listenFd io' (run openStep open_ t) ∧ Guarded openStep ClosesOpen open_ t := by
  cases hs with
  | app => exact ⟨h.same fun _ => ⟨rfl, rfl⟩, trivial⟩
  | sendClose | poll => exact ⟨h.set rfl rfl, trivial⟩
  | frame _ _ _ hw => exact owns_still h hw.still
  | event | eof => exact ⟨h, trivial, trivial⟩
  | pump => exact ⟨h.set rfl rfl, trivial, trivial, trivial⟩
  | close hu => exact ⟨h.leave hu rfl, (h.mem_iff _).mpr ⟨i, hu, rfl⟩, trivial⟩
  | wait => exact ⟨h.set rfl rfl, trivial, trivial⟩
  | upgrade _ _ _ _ _ hans =>
      refine owns_still (h.set rfl rfl) fun e he => ?_
      rcases List.mem_append.mp he with he | he
      · rcases List.mem_cons.mp he with rfl | he
        · exact read_still _ _ _ _
        · exact hans.still e he
      · exact recvd_still _ _ _ e he
  | @quit r u s hu _ hrej hsu =>
      have hstill : ∀ e ∈ (⟨.client i (io.conns i).fd (.read (hsCap - (io.conns i).hslen)), r⟩ :: u
          : Trace sv.maxConns), Still e := by
        intro e he
        rcases List.mem_cons.mp he with rfl | he
        · exact read_still _ _ _ _
        · exact hrej.still e he
      obtain ⟨hrun, hguard⟩ := run_still hstill open_
      rw [run_append, hrun]
      refine ⟨h.leave hu hsu, guarded_append.mpr ⟨hguard, ?_⟩⟩
      rw [hrun]
      exact ⟨(h.mem_iff _).mpr ⟨i, hu, rfl⟩, trivial⟩

/-- **One step** of the loop, when `accept` returns no open descriptor. -/
theorem Step.owns {T : Fin sv.maxConns → Fin sv.maxConns → Prop} {open_ : List Nat}
    (hs : Step sv T io t io') (hk : Guarded openStep (FreshAccept sv.listenFd) open_ t)
    (h : Owns sv.listenFd io open_) :
    Owns sv.listenFd io' (run openStep open_ t) ∧ Guarded openStep ClosesOpen open_ t := by
  cases hs with
  | accept ha =>
      cases ha with
      | failed => exact ⟨h, trivial, trivial⟩
      | @refuse fd =>
          refine ⟨?_, trivial, List.mem_cons_self .., trivial⟩
          change Owns sv.listenFd io ((fd :: open_).erase fd)
          rw [List.erase_cons_head]
          exact h
      | seat ha =>
          obtain ⟨hfresh, hlisten⟩ := hk.1
          exact ⟨h.join (allocSlot_some ha) rfl hfresh hlisten, trivial, trivial, trivial⟩
  | serve i hs => exact hs.owns h

/-- **Any number of steps.** -/
theorem trail_owns {T : Fin sv.maxConns → Fin sv.maxConns → Prop} {open_ : List Nat}
    (ht : Trail (Step sv T) io t io') (hk : Guarded openStep (FreshAccept sv.listenFd) open_ t)
    (h : Owns sv.listenFd io open_) :
    Owns sv.listenFd io' (run openStep open_ t) ∧ Guarded openStep ClosesOpen open_ t := by
  refine ht.inv (P := fun io h => Guarded openStep (FreshAccept sv.listenFd) open_ h →
    Owns sv.listenFd io (run openStep open_ h) ∧ Guarded openStep ClosesOpen open_ h)
    (fun io h u io' ih hs hk => ?_) (h := []) (fun _ => ⟨h, trivial⟩) hk
  obtain ⟨hk₁, hk₂⟩ := guarded_append.mp hk
  obtain ⟨howns, hcloses⟩ := ih hk₁
  obtain ⟨howns', hcloses'⟩ := hs.owns hk₂ howns
  rw [run_append]
  exact ⟨howns', guarded_append.mpr ⟨hcloses, hcloses'⟩⟩

/-- No slot is in use at first. -/
theorem owns_wsServe (sv : Server σ) (app : σ) : Owns sv.listenFd (wsServe sv app) [] :=
  ⟨List.nodup_nil, fun fd => by simp [wsServe, WsSlot.mk₀],
    fun _ _ hi => (Bool.false_ne_true hi).elim, fun _ hi => (Bool.false_ne_true hi).elim⟩

/-- **The pool owns the open descriptors.**  In every state the loop reaches, whatever becomes
ready in whatever order and whatever the system calls and the handler do: the descriptors of the
slots in use differ from each other and from the listener, they are exactly the client
descriptors accepted and not yet closed, every close was of an open descriptor, and `slot_by_fd`
finds the one slot that owns a descriptor. -/
theorem pool_owns (sv : Server σ) (app : σ) (fds : List Nat) (t : Trace sv.maxConns)
    (io : WsIo sv.maxConns σ) (h : Runs (runLoop sv (wsServe sv app) fds) t io)
    (hk : Guarded openStep (FreshAccept sv.listenFd) [] t) :
    (∀ i j, (io.conns i).used = true → (io.conns j).used = true →
      (io.conns i).fd = (io.conns j).fd → i = j) ∧
    (∀ i, (io.conns i).used = true → (io.conns i).fd ≠ sv.listenFd) ∧
    (openFds t).Nodup ∧
    (∀ fd, fd ∈ openFds t ↔ ∃ i, (io.conns i).used = true ∧ (io.conns i).fd = fd) ∧
    Guarded openStep ClosesOpen [] t ∧
    (∀ fd i, slotByFd io fd = some i ↔ (io.conns i).used = true ∧ (io.conns i).fd = fd) := by
  have htrail := runLoop_trail (T := fun _ _ => True) (fun a i ev => Reply.within_all _) h
  obtain ⟨howns, hcloses⟩ := trail_owns htrail hk (owns_wsServe sv app)
  exact ⟨howns.inj, howns.not_listen, howns.nodup, howns.mem_iff, hcloses,
    fun fd i => howns.slotByFd fd⟩

end Runs

instance {n : Nat} (listenFd : Nat) (open_ : List Nat) :
    (e : Entry (Req.Answer (n := n))) → Decidable (FreshAccept listenFd open_ e)
  | ⟨.accept, some fd⟩ => inferInstanceAs (Decidable (fd ∉ open_ ∧ fd ≠ listenFd))
  | ⟨.accept, none⟩ | ⟨.refuse _, _⟩ | ⟨.seat .., _⟩ | ⟨.client .., _⟩ => .isTrue trivial

/-- A pool of two slots whose handler sends nothing. -/
def deafServer : Server Unit := { echoServer 2 with onEvent := fun _ _ _ => .done () }

/-- Clients on 5 and 6; the first leaves, and its descriptor and slot are used again. -/
theorem pool_owns_reuse :
    let p := play (environment [5, 6, 5] []) [] (runLoop deafServer (wsServe deafServer ())
      [3, 3, 5, 3])
    openFds p.1 = [5, 6] ∧ ∃ i, (p.2.conns i).used = true ∧ (p.2.conns i).fd = 5 := by
  intro p
  have hopen : openFds p.1 = [5, 6] := by decide +kernel
  obtain ⟨-, -, -, hmem, -, -⟩ := pool_owns deafServer () [3, 3, 5, 3] p.1 p.2 (runs_play _ _ _)
    (by decide +kernel)
  exact ⟨hopen, (hmem 5).mp (by rw [hopen]; decide)⟩

end Libws
