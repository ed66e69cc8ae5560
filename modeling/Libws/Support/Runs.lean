import Mathlib.Algebra.Group.Nat.Even
import Mathlib.Data.List.Basic

/-!
# Support — runs of a deterministic machine

`run step s as` is the state after the actions `as`.  A run is `Guarded` by `G` when each of its
actions is taken in a state where `G` allows it, and `trace` collects what each action shows.

The rules are invariance along a guarded run (`run_inv`), invariance of a relation between the
state and what has been shown so far (`run_trace_inv`), and for a property that some actions break
the runs in which it holds throughout (`always_iff_guarded`).
-/

namespace Libws.Support

variable {S A β : Type*}

/-- The state after `as`. -/
def run (step : S → A → S) (s : S) (as : List A) : S := as.foldl step s

/-- Each action of `as` is taken in a state where `G` allows it. -/
def Guarded (step : S → A → S) (G : S → A → Prop) : S → List A → Prop
  | _, [] => True
  | s, a :: as => G s a ∧ Guarded step G (step s a) as

instance Guarded.decidable (step : S → A → S) (G : S → A → Prop) [∀ s a, Decidable (G s a)] :
    ∀ (s : S) (as : List A), Decidable (Guarded step G s as)
  | _, [] => .isTrue trivial
  | s, a :: as =>
    have := Guarded.decidable step G (step s a) as
    inferInstanceAs (Decidable (G s a ∧ Guarded step G (step s a) as))

/-- What the actions of `as` show, in order. -/
def trace (step : S → A → S) (o : S → A → List β) : S → List A → List β
  | _, [] => []
  | s, a :: as => o s a ++ trace step o (step s a) as

variable {step : S → A → S} {G : S → A → Prop} {o : S → A → List β}

@[simp] theorem run_nil (s : S) : run step s [] = s := rfl

@[simp] theorem run_cons (s : S) (a : A) (as : List A) :
    run step s (a :: as) = run step (step s a) as := rfl

theorem run_append (s : S) (as bs : List A) :
    run step s (as ++ bs) = run step (run step s as) bs :=
  List.foldl_append

/-- The run that collects its actions. -/
theorem run_concat (s as : List A) : run (fun s a => s ++ [a]) s as = s ++ as := by
  induction as generalizing s with
  | nil => simp
  | cons a as ih => rw [run_cons, ih, List.append_assoc]; rfl

theorem guarded_append {s : S} {as bs : List A} :
    Guarded step G s (as ++ bs) ↔ Guarded step G s as ∧ Guarded step G (run step s as) bs := by
  induction as generalizing s with
  | nil => simp [Guarded]
  | cons a as ih => simp [Guarded, ih, and_assoc]

/-- Guarded is guarded at each point. -/
theorem guarded_iff {s : S} {as : List A} : Guarded step G s as ↔
    ∀ done a rest, as = done ++ a :: rest → G (run step s done) a := by
  constructor
  · rintro h done a rest rfl
    exact (guarded_append.mp h).2.1
  · intro h
    induction as generalizing s with
    | nil => trivial
    | cons a as ih =>
        refine ⟨h [] a as rfl, ih fun done b rest hd => ?_⟩
        exact h (a :: done) b rest (by rw [hd, List.cons_append])

theorem guarded_and {G' : S → A → Prop} {s : S} {as : List A} (h : Guarded step G s as)
    (h' : Guarded step G' s as) : Guarded step (fun s a => G s a ∧ G' s a) s as := by
  induction as generalizing s with
  | nil => trivial
  | cons a as ih => exact ⟨⟨h.1, h'.1⟩, ih h.2 h'.2⟩

theorem guarded_of_forall (h : ∀ s a, G s a) (s : S) (as : List A) : Guarded step G s as := by
  induction as generalizing s with
  | nil => trivial
  | cons a as ih => exact ⟨h s a, ih _⟩

theorem trace_append (s : S) (as bs : List A) :
    trace step o s (as ++ bs) = trace step o s as ++ trace step o (run step s as) bs := by
  induction as generalizing s with
  | nil => rfl
  | cons a as ih => simp [trace, ih]

/-- **Invariance**: what each allowed action carries, a guarded run carries. -/
theorem run_inv {P : S → Prop} (hs : ∀ s a, P s → G s a → P (step s a)) {s : S} {as : List A}
    (hg : Guarded step G s as) (h₀ : P s) : P (run step s as) := by
  induction as generalizing s with
  | nil => exact h₀
  | cons a as ih => exact ih hg.2 (hs s a h₀ hg.1)

/-- Invariance along any run, when every action carries `P`. -/
theorem run_inv_all {P : S → Prop} (hs : ∀ s a, P s → P (step s a)) {s : S} (as : List A)
    (h₀ : P s) : P (run step s as) := by
  induction as generalizing s with
  | nil => exact h₀
  | cons a as ih => exact ih (hs s a h₀)

/-- **Invariance of a relation between the state and the trace so far.** -/
theorem run_trace_inv {P : S → List β → Prop}
    (hs : ∀ s a t, P s t → G s a → P (step s a) (t ++ o s a)) {s : S} {as : List A} {t : List β}
    (hg : Guarded step G s as) (h₀ : P s t) : P (run step s as) (t ++ trace step o s as) := by
  induction as generalizing s t with
  | nil => simpa [trace] using h₀
  | cons a as ih =>
      have := ih hg.2 (hs s a t h₀ hg.1)
      rwa [List.append_assoc] at this

/-- **A property holds throughout a run** exactly when no action of the run breaks it: where the
action may be taken and the property holds before it, `H` says whether it holds after it. -/
theorem always_iff_guarded {I P : S → Prop} {H : S → A → Prop}
    (hi : ∀ s a, I s → G s a → I (step s a))
    (hs : ∀ s a, I s → G s a → P s → (P (step s a) ↔ H s a)) {s : S} {as : List A}
    (hg : Guarded step G s as) (h₀ : I s) (hp : P s) :
    (∀ done rest, as = done ++ rest → P (run step s done)) ↔ Guarded step H s as := by
  induction as generalizing s with
  | nil =>
      refine ⟨fun _ => trivial, fun _ done rest h => ?_⟩
      rw [(List.append_eq_nil_iff.mp h.symm).1]
      exact hp
  | cons a as ih =>
      have hstep := hs s a h₀ hg.1 hp
      constructor
      · intro h
        have hnext : P (step s a) := h [a] as rfl
        refine ⟨hstep.mp hnext, (ih hg.2 (hi s a h₀ hg.1) hnext).mp fun done rest hd => ?_⟩
        exact h (a :: done) rest (by rw [hd, List.cons_append])
      · rintro ⟨hh, hrest⟩ done rest hd
        have hall := (ih hg.2 (hi s a h₀ hg.1) (hstep.mpr hh)).mpr hrest
        cases done with
        | nil => exact hp
        | cons b done =>
            obtain ⟨rfl, htail⟩ := List.cons.inj hd
            exact hall done rest htail

end Libws.Support
