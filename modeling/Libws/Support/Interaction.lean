import Mathlib.Algebra.Group.Nat.Even
import Mathlib.Data.List.Basic

/-!
# Support — programs that talk to an environment

A `Prog` makes requests and goes on with the answers.  `Runs p t a` says that `p` ends with the
result `a` when the environment gives the answers recorded in `t`; nothing is assumed about them,
and `play` finds a run against any environment that is a function.

* `runs_bind`: a run of a sequence is a run of each part, and the trace is cut between them.
* `Trail`: paths of a labelled transition relation, the labels joined, with the rule for
  invariants between the state and what has been shown so far (`Trail.inv`).
* `Lock`: two programs in lockstep make requests that look alike, to a `Watch` each, as long as they
  get answers of equal value (`Lock.runs`).
-/

namespace Libws.Support

/-- A program that makes requests in `E`, is answered in `R`, and ends with a result in `α`. -/
inductive Prog (E : Type) (R : E → Type) (α : Type) : Type where
  | ret (a : α)
  | call (e : E) (k : R e → Prog E R α)

/-- A request and its answer. -/
abbrev Entry {E : Type} (R : E → Type) : Type := (e : E) × R e

variable {E : Type} {R : E → Type} {α β : Type}

namespace Prog

def bind : Prog E R α → (α → Prog E R β) → Prog E R β
  | ret a, f => f a
  | call e k, f => call e fun r => (k r).bind f

instance : Monad (Prog E R) where
  pure := ret
  bind := bind

/-- One request. -/
def request (e : E) : Prog E R (R e) := call e ret

/-! ### Runs -/

/-- `p` ends with `a` when it is answered as in `t`. -/
def Runs : Prog E R α → List (Entry R) → α → Prop
  | ret a, t, b => t = [] ∧ b = a
  | call e k, t, b => ∃ r t', t = ⟨e, r⟩ :: t' ∧ Runs (k r) t' b

theorem runs_pure {a b : α} {t : List (Entry R)} :
    Runs (pure a : Prog E R α) t b ↔ t = [] ∧ b = a := Iff.rfl

theorem runs_request {e : E} {t : List (Entry R)} {b : R e} :
    Runs (request e) t b ↔ t = [⟨e, b⟩] := by
  constructor
  · rintro ⟨r, t', rfl, rfl, rfl⟩
    rfl
  · rintro rfl
    exact ⟨b, [], rfl, rfl, rfl⟩

/-- **A run of a sequence** is a run of the first part and one of what follows. -/
theorem runs_bind {p : Prog E R α} {f : α → Prog E R β} {t : List (Entry R)} {b : β} :
    Runs (p >>= f) t b ↔ ∃ a t₁ t₂, t = t₁ ++ t₂ ∧ Runs p t₁ a ∧ Runs (f a) t₂ b := by
  induction p generalizing t with
  | ret a =>
      constructor
      · intro h
        exact ⟨a, [], t, rfl, ⟨rfl, rfl⟩, h⟩
      · rintro ⟨a', t₁, t₂, rfl, ⟨rfl, rfl⟩, h⟩
        exact h
  | call e k ih =>
      constructor
      · rintro ⟨r, t', rfl, h⟩
        obtain ⟨a, t₁, t₂, rfl, h₁, h₂⟩ := (ih r).mp h
        exact ⟨a, ⟨e, r⟩ :: t₁, t₂, rfl, ⟨r, t₁, rfl, h₁⟩, h₂⟩
      · rintro ⟨a, t₁, t₂, rfl, ⟨r, t', rfl, h₁⟩, h₂⟩
        exact ⟨r, t' ++ t₂, rfl, (ih r).mpr ⟨a, t', t₂, rfl, h₁, h₂⟩⟩

/-- The run against an environment that answers by what has happened so far. -/
def play (o : List (Entry R) → (e : E) → R e) : List (Entry R) → Prog E R α → List (Entry R) × α
  | _, ret a => ([], a)
  | h, call e k =>
    let r := o h e
    let p := play o (h ++ [⟨e, r⟩]) (k r)
    (⟨e, r⟩ :: p.1, p.2)

/-- Every program ends, whatever it is answered. -/
theorem runs_play (o : List (Entry R) → (e : E) → R e) (h : List (Entry R)) (p : Prog E R α) :
    Runs p (play o h p).1 (play o h p).2 := by
  induction p generalizing h with
  | ret a => exact ⟨rfl, rfl⟩
  | call e k ih => exact ⟨o h e, _, rfl, ih _ _⟩

/-! ### Lockstep -/

section Lockstep

variable {E' : Type} {R' : E' → Type} {V U : Type}

/-- What is compared of the requests and answers of a program. -/
structure Watch (R : E → Type) (V U : Type) where
  view : E → V
  val : (e : E) → R e → Option U

/-- The values of the answers in a trace. -/
def Watch.vals (w : Watch R V U) (t : List (Entry R)) : List U :=
  t.filterMap fun x => w.val x.1 x.2

/-- How the requests of a trace look. -/
def Watch.views (w : Watch R V U) (t : List (Entry R)) : List V := t.map fun x => w.view x.1

variable (w : Watch R V U) (w' : Watch R' V U)

/-- The two programs make requests that look alike, as long as they get answers of equal value,
and end together with results related by `Q`. -/
def Lock (Q : α → β → Prop) : Prog E R α → Prog E' R' β → Prop
  | ret a, ret b => Q a b
  | call e k, call e' k' =>
      w.view e = w'.view e' ∧ ∀ r r', w.val e r = w'.val e' r' → Lock Q (k r) (k' r')
  | ret _, call _ _ => False
  | call _ _, ret _ => False

variable {w w'} {Q : α → β → Prop}

theorem Lock.pure {a : α} {b : β} (h : Q a b) :
    Lock w w' Q (Pure.pure a : Prog E R α) (Pure.pure b : Prog E' R' β) := h

theorem Lock.bind {γ δ : Type} {Q' : γ → δ → Prop} {p : Prog E R α} {q : Prog E' R' β}
    {f : α → Prog E R γ} {g : β → Prog E' R' δ} (h : Lock w w' Q p q)
    (hf : ∀ a b, Q a b → Lock w w' Q' (f a) (g b)) :
    Lock w w' Q' (p >>= f) (q >>= g) := by
  induction p generalizing q with
  | ret a =>
      cases q with
      | ret b => exact hf a b h
      | call => exact h.elim
  | call e k ih =>
      cases q with
      | ret => exact h.elim
      | call e' k' => exact ⟨h.1, fun r r' hr => ih r (h.2 r r' hr)⟩

theorem Lock.request {e : E} {e' : E'} (h : w.view e = w'.view e') :
    Lock w w' (fun r r' => w.val e r = w'.val e' r') (Prog.request e) (Prog.request e') :=
  ⟨h, fun _ _ hr => hr⟩

/-- **Programs in lockstep** that get the same values, in runs that may go on, look alike up to
where they end. -/
theorem Lock.runs
    (hval : ∀ e e' r r', w.view e = w'.view e' → (w.val e r).isSome = (w'.val e' r').isSome)
    {p : Prog E R α} {q : Prog E' R' β} (h : Lock w w' Q p q) {t : List (Entry R)}
    {t' : List (Entry R')} {a : α} {b : β} {x y : List U} (hp : Runs p t a) (hq : Runs q t' b)
    (heq : w.vals t ++ x = w'.vals t' ++ y) : w.views t = w'.views t' ∧ x = y ∧ Q a b := by
  induction p generalizing q t t' with
  | ret a₀ =>
      obtain ⟨rfl, rfl⟩ := hp
      cases q with
      | ret b₀ =>
          obtain ⟨rfl, rfl⟩ := hq
          exact ⟨rfl, heq, h⟩
      | call => exact h.elim
  | call e k ih =>
      obtain ⟨r, s, rfl, hp⟩ := hp
      cases q with
      | ret => exact h.elim
      | call e' k' =>
          obtain ⟨r', s', rfl, hq⟩ := hq
          obtain ⟨hview, hk⟩ := h
          have hsome := hval e e' r r' hview
          -- the two answers have the same value, for the values so far agree
          have hr : w.val e r = w'.val e' r' ∧ w.vals s ++ x = w'.vals s' ++ y := by
            cases hv : w.val e r with
            | none =>
                cases hv' : w'.val e' r' with
                | none => simpa [Watch.vals, hv, hv'] using heq
                | some u' => rw [hv, hv'] at hsome; cases hsome
            | some u =>
                cases hv' : w'.val e' r' with
                | none => rw [hv, hv'] at hsome; cases hsome
                | some u' => simpa [Watch.vals, hv, hv'] using heq
          obtain ⟨hviews, hxy, hQ⟩ := ih r (hk r r' hr.1) hp hq hr.2
          refine ⟨?_, hxy, hQ⟩
          simp only [Watch.views, List.map_cons, hview]
          exact congrArg _ hviews

end Lockstep

end Prog

/-! ### Trails -/

section Trails

variable {S L : Type}

/-- The paths of a labelled relation, with their labels joined. -/
inductive Trail (step : S → List L → S → Prop) : S → List L → S → Prop where
  | refl (s : S) : Trail step s [] s
  | tail {s s' s'' : S} {t u : List L} :
      Trail step s t s' → step s' u s'' → Trail step s (t ++ u) s''

variable {step : S → List L → S → Prop} {s s' s'' : S} {t u : List L}

theorem Trail.single (h : step s t s') : Trail step s t s' := by
  simpa using (Trail.refl s).tail h

theorem Trail.trans (h : Trail step s t s') (h' : Trail step s' u s'') :
    Trail step s (t ++ u) s'' := by
  induction h' with
  | refl => simpa using h
  | tail _ hs ih => simpa only [List.append_assoc] using ih.tail hs

theorem Trail.map {step' : S → List L → S → Prop}
    (hs : ∀ s u s', step s u s' → step' s u s') (h : Trail step s t s') : Trail step' s t s' := by
  induction h with
  | refl => exact .refl _
  | tail _ hstep ih => exact ih.tail (hs _ _ _ hstep)

/-- The first step of a trail. -/
theorem Trail.cases_head (h : Trail step s t s'') :
    t = [] ∧ s = s'' ∨ ∃ u s' v, t = u ++ v ∧ step s u s' ∧ Trail step s' v s'' := by
  induction h with
  | refl => exact .inl ⟨rfl, rfl⟩
  | @tail s' s'' t u _ hs ih =>
      rcases ih with ⟨rfl, rfl⟩ | ⟨v, x, w, rfl, hstep, htail⟩
      · exact .inr ⟨u, s'', [], by simp, hs, .refl _⟩
      · exact .inr ⟨v, x, w ++ u, List.append_assoc .., hstep, htail.tail hs⟩

/-- Induction on the first step of a trail. -/
theorem Trail.head_induct {P : S → List L → Prop} (refl : P s'' [])
    (head : ∀ s u s' v, step s u s' → P s' v → P s (u ++ v)) (h : Trail step s t s'') : P s t := by
  induction h generalizing P with
  | refl => exact refl
  | @tail s' s'' t u _ hs ih =>
      refine ih (P := fun s v => P s (v ++ u)) ?_ fun s v s' x hstep hx => ?_
      · simpa using head s' u s'' [] hs refl
      · rw [List.append_assoc]
        exact head s v s' (x ++ u) hstep hx

/-- **Invariance of a relation between the state and what has been shown so far.** -/
theorem Trail.inv {P : S → List L → Prop}
    (hs : ∀ s h u s', P s h → step s u s' → P s' (h ++ u)) (ht : Trail step s t s') {h : List L}
    (h₀ : P s h) : P s' (h ++ t) := by
  induction ht with
  | refl => simpa using h₀
  | tail _ hstep ih => simpa only [List.append_assoc] using hs _ _ _ _ ih hstep

end Trails

end Libws.Support
