import Libws.Support.Interaction

/-!
# Support — programs that stop at a check that fails

A `Stopping` program is a `Prog` that may stop on the way.  `Passes Q p' p` says that `p'` is the
program `p` with checks in it that none fails, and that what `p` ends with has `Q`; its rules follow
the shape of a program.

* `Passes.bind`: the checks of what follows may rest on what the first part leaves.
* `Passes.runs`: the two programs have the same runs, and the one with checks ends in each.
-/

namespace Libws.Support.Prog

variable {E : Type} {R : E → Type} {α β γ : Type}

/-- A program that may stop at a check. -/
abbrev Stopping (E : Type) (R : E → Type) (α : Type) : Type := OptionT (Prog E R) α

/-- Going on with a value, when there is one. -/
def check (o : Option α) : Stopping E R α := OptionT.mk (ret o)

/-- `p'` makes the requests of `p`, stops nowhere, and ends with its result, which has `Q`. -/
structure Passes (Q : α → Prop) (p' : Stopping E R α) (p : Prog E R α) : Prop where
  eq : p'.run = p >>= fun a => pure (some a)
  post : ∀ t a, Runs p t a → Q a

section Rules

variable {Q : α → Prop} {Q' : β → Prop}

theorem bind_bind (p : Prog E R α) (f : α → Prog E R β) (g : β → Prog E R γ) :
    p >>= f >>= g = p >>= fun a => f a >>= g := by
  induction p with
  | ret a => rfl
  | call e k ih => exact congrArg (call e) (funext ih)

/-- What follows a program counts only for what it can end with. -/
theorem bind_congr_runs {p : Prog E R α} {f g : α → Prog E R β}
    (h : ∀ t a, Runs p t a → f a = g a) : p >>= f = p >>= g := by
  induction p with
  | ret a => exact h [] a ⟨rfl, rfl⟩
  | call e k ih =>
      refine congrArg (call e) (funext fun r => ih r fun t a ha => ?_)
      exact h (⟨e, r⟩ :: t) a ⟨r, t, rfl, ha⟩

theorem Passes.pure {a : α} (h : Q a) :
    Passes Q (Pure.pure a : Stopping E R α) (Pure.pure a) := by
  refine ⟨rfl, fun t b hb => ?_⟩
  obtain ⟨-, rfl⟩ := runs_pure.mp hb
  exact h

/-- A part without checks. -/
theorem Passes.lift {p : Prog E R α} (h : ∀ t a, Runs p t a → Q a) :
    Passes Q (liftM p : Stopping E R α) p := ⟨rfl, h⟩

/-- **The rule of sequence.** -/
theorem Passes.bind {p' : Stopping E R α} {p : Prog E R α} {f' : α → Stopping E R β}
    {f : α → Prog E R β} (h : Passes Q p' p) (hf : ∀ a, Q a → Passes Q' (f' a) (f a)) :
    Passes Q' (p' >>= f') (p >>= f) := by
  constructor
  · have hrun : (p' >>= f').run = p'.run >>= fun o => match o with
        | some a => (f' a).run
        | none => Pure.pure none := rfl
    rw [hrun, h.eq, bind_bind, bind_bind]
    refine bind_congr_runs fun t a ha => ?_
    exact (hf a (h.post t a ha)).eq
  · intro t b hb
    obtain ⟨a, t₁, t₂, -, h₁, h₂⟩ := runs_bind.mp hb
    exact (hf a (h.post t₁ a h₁)).post t₂ b h₂

/-- **The rule of a check.** -/
theorem Passes.check {o : Option α} {a : α} {f' : α → Stopping E R β} {p : Prog E R β}
    (ho : o = some a) (h : Passes Q' (f' a) p) : Passes Q' (check o >>= f') p := by
  subst ho
  exact h

theorem Passes.ite {c : Prop} [Decidable c] {p' q' : Stopping E R α} {p q : Prog E R α}
    (ht : c → Passes Q p' p) (hf : ¬ c → Passes Q q' q) :
    Passes Q (if c then p' else q') (if c then p else q) := by
  by_cases h : c
  · rw [if_pos h, if_pos h]
    exact ht h
  · rw [if_neg h, if_neg h]
    exact hf h

theorem Passes.weaken {Q' : α → Prop} {p' : Stopping E R α} {p : Prog E R α} (h : Passes Q p' p)
    (hq : ∀ a, Q a → Q' a) : Passes Q' p' p := ⟨h.eq, fun t a ha => hq a (h.post t a ha)⟩

/-- **The same runs.** -/
theorem Passes.runs {p' : Stopping E R α} {p : Prog E R α} (h : Passes Q p' p)
    {t : List (Entry R)} {o : Option α} : Runs p'.run t o ↔ ∃ a, o = some a ∧ Runs p t a := by
  rw [h.eq, runs_bind]
  constructor
  · rintro ⟨a, t₁, t₂, rfl, ha, rfl, rfl⟩
    exact ⟨a, rfl, by rwa [List.append_nil]⟩
  · rintro ⟨a, rfl, ha⟩
    exact ⟨a, t, [], (List.append_nil t).symm, ha, rfl, rfl⟩

end Rules

end Libws.Support.Prog
