import Libws.Io.Steps

/-!
# Io — the life of a client

`life i t` is what was done for the client slot `i` was last given, in order; `tenant i t` is its
descriptor.  A slot is given to one client after another, so over all runs these are the lives of
all clients.

* `received`, `answered`, `passed`: the bytes read, the bytes of the 101 response written, and the
  bytes handed to `ws_conn_recv`.
* `Writes.deeds`, `Answers.deeds`: what `write_all` and `send_accept` add to them.
* `Serve.local`: a step of the loop is about one slot, and leaves the other slots and lives alone.
-/

namespace Libws
open Libws.Support Prog

/-- Something done for a client. -/
structure Deed where
  fd : Nat
  act : Act
  ans : act.Answer

section Lives

variable {n : Nat}

def lifeStep (i : Fin n) (life : List Deed) : Entry (Req.Answer (n := n)) → List Deed
  | ⟨.accept, _⟩ | ⟨.refuse _, _⟩ => life
  | ⟨.seat j _, _⟩ => if j = i then [] else life
  | ⟨.client j fd a, r⟩ => if j = i then life ++ [⟨fd, a, r⟩] else life

/-- What was done for the last client of slot `i`. -/
def life (i : Fin n) (t : Trace n) : List Deed := run (lifeStep i) [] t

def tenantStep (i : Fin n) (tenant : Option Nat) : Entry (Req.Answer (n := n)) → Option Nat
  | ⟨.seat j fd, _⟩ => if j = i then some fd else tenant
  | _ => tenant

/-- The descriptor of the last client of slot `i`. -/
def tenant (i : Fin n) (t : Trace n) : Option Nat := run (tenantStep i) none t

/-- What a trace does for clients. -/
def deeds (t : Trace n) : List Deed :=
  t.filterMap fun
    | ⟨.client _ fd a, r⟩ => some ⟨fd, a, r⟩
    | _ => none

@[simp] theorem deeds_nil : deeds ([] : Trace n) = [] := rfl

@[simp] theorem deeds_client (i : Fin n) (fd : Nat) (a : Act) (r : a.Answer) (t : Trace n) :
    deeds (⟨.client i fd a, r⟩ :: t) = ⟨fd, a, r⟩ :: deeds t := rfl

@[simp] theorem deeds_append (t u : Trace n) : deeds (t ++ u) = deeds t ++ deeds u :=
  List.filterMap_append ..

/-- Everything shown is done for slot `j`, on `fd`. -/
def Only (j : Fin n) (fd : Nat) (t : Trace n) : Prop :=
  ∀ e ∈ t, ∃ a r, e = ⟨Req.client j fd a, r⟩

variable {i j : Fin n} {fd : Nat} {t u : Trace n}

theorem Only.nil : Only j fd [] := by
  intro e he
  cases he

theorem Only.cons {a : Act} (r : a.Answer) (h : Only j fd t) :
    Only j fd (⟨.client j fd a, r⟩ :: t) := by
  intro e he
  rcases List.mem_cons.mp he with rfl | he
  · exact ⟨a, r, rfl⟩
  · exact h e he

theorem Only.append (h : Only j fd t) (h' : Only j fd u) : Only j fd (t ++ u) := by
  intro e he
  rcases List.mem_append.mp he with he | he
  · exact h e he
  · exact h' e he

/-- A fold that adds what is done for one client, or leaves out all of it. -/
theorem run_only {step : List Deed → Entry (Req.Answer (n := n)) → List Deed} {keep : Prop}
    [Decidable keep]
    (hstep : ∀ l a r, step l ⟨.client j fd a, r⟩ = if keep then l ++ [⟨fd, a, r⟩] else l)
    (ht : Only j fd t) (l : List Deed) :
    run step l t = if keep then l ++ deeds t else l := by
  induction t generalizing l with
  | nil => simp
  | cons e t ih =>
      obtain ⟨a, r, rfl⟩ := ht e (List.mem_cons_self ..)
      rw [run_cons, ih (fun e he => ht e (List.mem_cons_of_mem _ he)), hstep, deeds_client]
      split
      · rw [List.append_assoc]
        rfl
      · rfl

/-- What is done for a slot is added to its life, and to no other. -/
theorem run_lifeStep (ht : Only j fd t) (l : List Deed) :
    run (lifeStep i) l t = if j = i then l ++ deeds t else l :=
  run_only (fun _ _ _ => rfl) ht l

theorem life_same (ht : Only j fd t) (h : Trace n) : life j (h ++ t) = life j h ++ deeds t := by
  rw [life, run_append, run_lifeStep ht, if_pos rfl]
  rfl

theorem life_other (ht : Only j fd t) (hij : i ≠ j) (h : Trace n) :
    life i (h ++ t) = life i h := by
  rw [life, run_append, run_lifeStep ht, if_neg (Ne.symm hij)]
  rfl

theorem tenant_only (ht : Only j fd t) (h : Trace n) : tenant i (h ++ t) = tenant i h := by
  rw [tenant, run_append]
  change run (tenantStep i) (tenant i h) t = tenant i h
  induction t with
  | nil => rfl
  | cons e t ih =>
      obtain ⟨a, r, rfl⟩ := ht e (List.mem_cons_self ..)
      exact ih fun e he => ht e (List.mem_cons_of_mem _ he)

theorem deeds_fd (ht : Only j fd t) : ∀ d ∈ deeds t, d.fd = fd := by
  intro d hd
  obtain ⟨e, he, hed⟩ := List.mem_filterMap.mp hd
  obtain ⟨a, r, rfl⟩ := ht e he
  cases hed
  rfl

/-- The life of a client that is given slot `i` starts here. -/
theorem life_seat (h : Trace n) (i j : Fin n) (fd : Nat) (r : Option Nat) :
    life i (h ++ [⟨.accept, r⟩, ⟨.seat j fd, ()⟩]) = if j = i then [] else life i h := by
  rw [life, run_append]
  rfl

theorem tenant_seat (h : Trace n) (i j : Fin n) (fd : Nat) (r : Option Nat) :
    tenant i (h ++ [⟨.accept, r⟩, ⟨.seat j fd, ()⟩]) = if j = i then some fd else tenant i h := by
  rw [tenant, run_append]
  rfl

end Lives

/-! ### What is done with the bytes -/

/-- The bytes read. -/
def received (l : List Deed) : List UInt8 :=
  l.flatMap fun
    | ⟨_, .read _, r⟩ => r.val
    | _ => []

/-- The bytes of the answer to the handshake that were written. -/
def answered (l : List Deed) : List UInt8 :=
  l.flatMap fun
    | ⟨_, .write .handshake bytes, w⟩ => bytes.take w.val
    | _ => []

/-- The bytes handed to `ws_conn_recv`. -/
def passed (l : List Deed) : List UInt8 :=
  l.flatMap fun
    | ⟨_, .recv bytes, _⟩ => bytes
    | _ => []

/-- The 101 response. -/
def response (accept : List UInt8) : List UInt8 := acceptPre ++ accept ++ crlf2

/-- A read that gives nothing, or a write that writes nothing. -/
def Deed.Failed : Deed → Prop
  | ⟨_, .read _, r⟩ => r.val = []
  | ⟨_, .write _ _, w⟩ => w.val = 0
  | _ => False

@[simp] theorem received_append (l m : List Deed) :
    received (l ++ m) = received l ++ received m := List.flatMap_append

@[simp] theorem answered_append (l m : List Deed) :
    answered (l ++ m) = answered l ++ answered m := List.flatMap_append

@[simp] theorem passed_append (l m : List Deed) : passed (l ++ m) = passed l ++ passed m :=
  List.flatMap_append

/-- Deeds that move no bytes of the client's stream and no bytes of the answer. -/
structure Neutral (l : List Deed) : Prop where
  received : received l = []
  answered : answered l = []
  passed : passed l = []

section Writing

variable {n : Nat} {i : Fin n} {fd : Nat} {src : Source} {buf : List UInt8} {t : Trace n}
  {rc : Int}

theorem Writes.only (h : Writes i fd src buf t rc) : Only i fd t := by
  induction h with
  | done => exact .nil
  | fail => exact .cons _ .nil
  | more _ _ _ ih => exact .cons _ ih

/-- The calls of `write_all` are writes. -/
theorem Writes.mem (h : Writes i fd src buf t rc) :
    ∀ d ∈ deeds t, ∃ bytes w, d = ⟨fd, .write src bytes, w⟩ := by
  induction h with
  | done => simp
  | fail =>
      intro d hd
      obtain rfl := List.mem_singleton.mp hd
      exact ⟨_, _, rfl⟩
  | more _ _ _ ih =>
      intro d hd
      rcases List.mem_cons.mp hd with rfl | hd
      · exact ⟨_, _, rfl⟩
      · exact ih d hd

theorem received_writes {l : List Deed} (h : ∀ d ∈ l, ∃ bytes w, d = ⟨fd, .write src bytes, w⟩) :
    received l = [] ∧ passed l = [] := by
  constructor
  · refine List.flatMap_eq_nil_iff.mpr fun d hd => ?_
    obtain ⟨bytes, w, rfl⟩ := h d hd
    rfl
  · refine List.flatMap_eq_nil_iff.mpr fun d hd => ?_
    obtain ⟨bytes, w, rfl⟩ := h d hd
    rfl

/-- Writes of frames are neutral. -/
theorem neutral_frames {l : List Deed}
    (h : ∀ d ∈ l, ∃ bytes w, d = ⟨fd, .write .frame bytes, w⟩) : Neutral l := by
  obtain ⟨hr, hp⟩ := received_writes h
  refine ⟨hr, List.flatMap_eq_nil_iff.mpr fun d hd => ?_, hp⟩
  obtain ⟨bytes, w, rfl⟩ := h d hd
  rfl

/-- **`write_all`** writes all of its buffer, or one of its calls fails. -/
theorem Writes.answered (h : Writes i fd .handshake buf t rc) :
    rc = 0 ∧ answered (deeds t) = buf ∨ rc ≠ 0 ∧ ∃ d ∈ deeds t, d.Failed := by
  induction h with
  | done => exact .inl ⟨rfl, rfl⟩
  | fail _ hw => exact .inr ⟨by decide, _, List.mem_singleton.mpr rfl, hw⟩
  | @more buf w t rc _ _ _ ih =>
      rcases ih with ⟨hrc, hall⟩ | ⟨hrc, d, hd, hf⟩
      · refine .inl ⟨hrc, ?_⟩
        change buf.take w.val ++ Libws.answered (deeds t) = buf
        rw [hall, List.take_append_drop]
      · exact .inr ⟨hrc, d, List.mem_cons_of_mem _ hd, hf⟩

theorem Writes.answered_of_zero (h : Writes i fd .handshake buf t 0) :
    Libws.answered (deeds t) = buf :=
  h.answered.elim And.right fun hno => absurd rfl hno.1

end Writing

section Answering

variable {n : Nat} {i : Fin n} {fd : Nat} {accept : List UInt8} {t : Trace n} {rc : Int}

theorem Answers.only (h : Answers i fd accept t rc) : Only i fd t := by
  cases h with
  | pre h₁ => exact h₁.only
  | accept h₁ h₂ => exact h₁.only.append h₂.only
  | blank h₁ h₂ h₃ => exact (h₁.only.append h₂.only).append h₃.only

theorem Answers.mem (h : Answers i fd accept t rc) :
    ∀ d ∈ deeds t, ∃ bytes w, d = ⟨fd, .write .handshake bytes, w⟩ := by
  intro d hd
  cases h with
  | pre h₁ => exact h₁.mem d hd
  | accept h₁ h₂ =>
      rw [deeds_append] at hd
      rcases List.mem_append.mp hd with hd | hd
      · exact h₁.mem d hd
      · exact h₂.mem d hd
  | blank h₁ h₂ h₃ =>
      rw [deeds_append, deeds_append] at hd
      rcases List.mem_append.mp hd with hd | hd
      · rcases List.mem_append.mp hd with hd | hd
        · exact h₁.mem d hd
        · exact h₂.mem d hd
      · exact h₃.mem d hd

/-- **`send_accept`** writes the response, or a write fails. -/
theorem Answers.answered (h : Answers i fd accept t rc) :
    rc = 0 ∧ answered (deeds t) = response accept ∨ rc ≠ 0 ∧ ∃ d ∈ deeds t, d.Failed := by
  cases h with
  | pre h₁ hrc =>
      rcases h₁.answered with ⟨hz, -⟩ | ⟨-, hf⟩
      · exact absurd hz hrc
      · exact .inr ⟨by decide, hf⟩
  | accept h₁ h₂ hrc =>
      rcases h₂.answered with ⟨hz, -⟩ | ⟨-, d, hd, hf⟩
      · exact absurd hz hrc
      · exact .inr ⟨by decide, d, by rw [deeds_append]; exact List.mem_append_right _ hd, hf⟩
  | blank h₁ h₂ h₃ =>
      rcases h₁.answered with ⟨-, ha₁⟩ | ⟨hne, -⟩
      · rcases h₂.answered with ⟨-, ha₂⟩ | ⟨hne, -⟩
        · rcases h₃.answered with ⟨hz, ha₃⟩ | ⟨hne, d, hd, hf⟩
          · refine .inl ⟨hz, ?_⟩
            rw [deeds_append, deeds_append, answered_append, answered_append, ha₁, ha₂, ha₃]
            rfl
          · exact .inr ⟨hne, d, by rw [deeds_append]; exact List.mem_append_right _ hd, hf⟩
        · exact absurd rfl hne
      · exact absurd rfl hne

theorem recvd_only (i : Fin n) (fd : Nat) (rest : List UInt8) : Only i fd (recvd i fd rest) := by
  rw [recvd]
  split
  · exact .nil
  · exact .cons _ .nil

end Answering

/-! ### Steps are local -/

/-- **A step is about one slot**: the one that is served, or one the handler sends on. -/
theorem Serve.local {σ : Type} {sv : Server σ} {T : Fin sv.maxConns → Prop} {i : Fin sv.maxConns}
    {io io' : WsIo sv.maxConns σ} {t : Trace sv.maxConns} (h : Serve sv T i io t io') :
    ∃ k, (k = i ∨ T k) ∧ Only k (io.conns k).fd t ∧ ∀ j, j ≠ k → io'.conns j = io.conns j := by
  cases h with
  | app => exact ⟨i, .inl rfl, .nil, fun _ _ => rfl⟩
  | @sendClose k hT => exact ⟨k, .inr hT, .nil, fun j hj => io.set_other _ hj⟩
  | @frame k _ _ _ hT _ _ hw => exact ⟨k, .inr hT, hw.only, fun _ _ => rfl⟩
  | poll => exact ⟨i, .inl rfl, .nil, fun j hj => io.set_other _ hj⟩
  | event | eof => exact ⟨i, .inl rfl, .cons _ .nil, fun _ _ => rfl⟩
  | pump => exact ⟨i, .inl rfl, .cons _ (.cons _ .nil), fun j hj => io.set_other _ hj⟩
  | close | wait => exact ⟨i, .inl rfl, .cons _ .nil, fun j hj => io.set_other _ hj⟩
  | upgrade _ _ _ _ _ hans =>
      exact ⟨i, .inl rfl, (Only.cons _ hans.only).append (recvd_only _ _ _),
        fun j hj => io.set_other _ hj⟩
  | quit _ _ hrej =>
      refine ⟨i, .inl rfl, (Only.cons _ ?_).append (.cons _ .nil), fun j hj => io.set_other _ hj⟩
      cases hrej with
      | ended | large | keyless => exact .nil
      | unwritten hans => exact hans.only

end Libws
