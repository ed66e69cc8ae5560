import Libws.Support.Runs

/-!
# Support — paths of a labelled transition relation

`Walk next s ls s'` is a finite path from `s` to `s'` whose steps carry the labels `ls`.

The rules are invariance along a path (`Walk.inv`), the labels a path cannot carry
(`Walk.label_inv`), invariance of a relation between the state and what the path has shown
(`Walk.shown_inv`), and simulation: when each action of a deterministic machine is matched by a path
that shows the same, so is each run (`run_path`).
-/

namespace Libws.Support

variable {S A T L β : Type*}

/-- A path with its labels, first to last. -/
inductive Walk (next : L → T → T → Prop) : T → List L → T → Prop where
  | nil {t : T} : Walk next t [] t
  | cons {l : L} {ls : List L} {t u v : T} : next l t u → Walk next u ls v → Walk next t (l :: ls) v

namespace Walk

variable {next : L → T → T → Prop} {t u v : T} {l : L} {ls ls' : List L}

theorem one (h : next l t u) : Walk next t [l] u := .cons h .nil

theorem append (h₁ : Walk next t ls u) (h₂ : Walk next u ls' v) : Walk next t (ls ++ ls') v := by
  induction h₁ with
  | nil => exact h₂
  | cons hs _ ih => exact .cons hs (ih h₂)

/-- **Invariance**: what each step carries, a path carries. -/
theorem inv {P : T → Prop} (hs : ∀ l t u, next l t u → P t → P u) (h : Walk next t ls u)
    (h₀ : P t) : P u := by
  induction h with
  | nil => exact h₀
  | cons hn _ ih => exact ih (hs _ _ _ hn h₀)

/-- A property of the labels that every step from an invariant state has. -/
theorem label_inv {P : T → Prop} {Q : L → Prop} (hs : ∀ l t u, next l t u → P t → P u)
    (hq : ∀ l t u, next l t u → P t → Q l) (h : Walk next t ls u) (h₀ : P t) : ∀ l ∈ ls, Q l := by
  induction h with
  | nil => exact fun _ hl => absurd hl List.not_mem_nil
  | cons hn _ ih =>
      intro l hl
      rcases List.mem_cons.mp hl with rfl | hl
      · exact hq _ _ _ hn h₀
      · exact ih (hs _ _ _ hn h₀) l hl

/-- Invariance of a relation between the state and what the path has shown so far. -/
theorem shown_inv {shows : L → List β} {P : T → List β → Prop}
    (hs : ∀ l t u bs, next l t u → P t bs → P u (bs ++ shows l)) {bs : List β}
    (h : Walk next t ls u) (h₀ : P t bs) : P u (bs ++ ls.flatMap shows) := by
  induction h generalizing bs with
  | nil => simpa using h₀
  | cons hn _ ih =>
      have := ih (hs _ _ _ _ hn h₀)
      rwa [List.append_assoc] at this

end Walk

/-- **Simulation.**  `R` relates the states of the machine to those of the relation, and each
action allowed by `G` is matched by a path that shows what the action shows. -/
theorem run_path {step : S → A → S} {G : S → A → Prop} {o : S → A → List β}
    {next : L → T → T → Prop} {shows : L → List β} {R : S → T → Prop}
    (hs : ∀ s a t, R s t → G s a →
      ∃ ls t', Walk next t ls t' ∧ ls.flatMap shows = o s a ∧ R (step s a) t')
    {s : S} {as : List A} {t : T} (hg : Guarded step G s as) (h₀ : R s t) :
    ∃ ls t', Walk next t ls t' ∧ ls.flatMap shows = trace step o s as ∧ R (run step s as) t' := by
  induction as generalizing s t with
  | nil => exact ⟨[], t, .nil, rfl, h₀⟩
  | cons a as ih =>
      obtain ⟨ls, u, hp, hl, hr⟩ := hs s a t h₀ hg.1
      obtain ⟨ls', v, hp', hl', hr'⟩ := ih hg.2 hr
      refine ⟨ls ++ ls', v, hp.append hp', ?_, hr'⟩
      rw [List.flatMap_append, hl, hl', trace]

end Libws.Support
