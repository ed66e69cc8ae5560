import Libws.Support.Regions

/-!
# Support — memory and arithmetic that stop at the first error

A computation in `Option` that gives `none` as soon as it reads outside its window, writes outside
its buffer, or as a sum or a difference leaves its range.  That such a computation agrees with one
that checks nothing says that no check of it ever fails.

* `readIn_eq`, `writeIn_eq`, `checkedAdd_eq`, `checkedSub_eq`: when a check passes.
* `forRangeM_eq`: a loop whose every turn passes its checks is the loop without them;
  `forRangeM_writeIn` for a loop that only stores, `forRangeM_inv` for one that is not compared.
-/

namespace Libws.Support

variable {α σ : Type}

/-- The cell at `i`, which must lie in the window `[lo, hi)` and in the buffer. -/
def readIn (l : List α) (lo hi i : Nat) : Option α := if lo ≤ i ∧ i < hi then l[i]? else none

/-- `v` stored at `i`, which must lie in the buffer. -/
def writeIn (l : List α) (i : Nat) (v : α) : Option (List α) :=
  if i < l.length then some (l.set i v) else none

/-- `a + b`, which must stay below `2 ^ w`. -/
def checkedAdd (w a b : Nat) : Option Nat := if a + b < 2 ^ w then some (a + b) else none

/-- `a - b`, which must not fall below zero. -/
def checkedSub (a b : Nat) : Option Nat := if b ≤ a then some (a - b) else none

theorem readIn_eq {l : List α} {lo hi i : Nat} (d : α) (hlo : lo ≤ i) (hhi : i < hi)
    (hl : i < l.length) : readIn l lo hi i = some (l.getD i d) := by
  rw [readIn, if_pos ⟨hlo, hhi⟩, List.getD_eq_getElem?_getD, List.getElem?_eq_getElem hl]
  rfl

theorem writeIn_eq {l : List α} {i : Nat} (v : α) (h : i < l.length) :
    writeIn l i v = some (l.set i v) := if_pos h

/-- A store behind `a` is a store in what follows it. -/
theorem writeIn_append (a : List α) {r : List α} {i : Nat} (v : α) (h : i < r.length) :
    writeIn (a ++ r) (a.length + i) v = some (a ++ r.set i v) := by
  rw [writeIn_eq v (by rw [List.length_append]; omega), List.set_append_right _ _ (by omega),
    Nat.add_sub_cancel_left]

theorem writeIn_append_mid (a : List α) {q : List α} (r : List α) {i : Nat} (v : α)
    (h : i < q.length) :
    writeIn (a ++ (q ++ r)) (a.length + i) v = some (a ++ (q.set i v ++ r)) := by
  rw [writeIn_append a v (by rw [List.length_append]; omega), List.set_append_left _ _ h]

theorem checkedAdd_eq {w a b : Nat} (h : a + b < 2 ^ w) : checkedAdd w a b = some (a + b) :=
  if_pos h

theorem checkedSub_eq {a b : Nat} (h : b ≤ a) : checkedSub a b = some (a - b) := if_pos h

/-- The counted loop, stopped by the first turn that fails. -/
def forRangeM (n : Nat) (f : Nat → σ → Option σ) (s : σ) : Option σ :=
  (List.range n).foldlM (fun s i => f i s) s

theorem forRangeM_succ (n : Nat) (f : Nat → σ → Option σ) (s : σ) :
    forRangeM (n + 1) f s = forRangeM n f s >>= f n := by
  simp [forRangeM, List.range_succ]

/-- **A loop whose turns pass their checks.**  `P` is what the checks need, and each turn keeps
it. -/
theorem forRangeM_eq {P : σ → Prop} {n : Nat} {f : Nat → σ → Option σ} {g : Nat → σ → σ} {s : σ}
    (h₀ : P s) (hs : ∀ i t, i < n → P t → f i t = some (g i t) ∧ P (g i t)) :
    forRangeM n f s = some (forRange n g s) := by
  suffices h : ∀ k, k ≤ n → forRangeM k f s = some (forRange k g s) ∧ P (forRange k g s) from
    (h n (Nat.le_refl n)).1
  intro k hk
  induction k with
  | zero => exact ⟨rfl, h₀⟩
  | succ k ih =>
      obtain ⟨heq, hP⟩ := ih (by omega)
      rw [forRangeM_succ, heq, forRange_succ]
      exact hs k _ (by omega) hP

/-- The rule for invariants, of a loop whose turns pass their checks. -/
theorem forRangeM_inv {P : Nat → σ → Prop} {n : Nat} {f : Nat → σ → Option σ} {s : σ} (h₀ : P 0 s)
    (hs : ∀ i t, i < n → P i t → ∃ t', f i t = some t' ∧ P (i + 1) t') :
    ∃ t, forRangeM n f s = some t ∧ P n t := by
  suffices h : ∀ k, k ≤ n → ∃ t, forRangeM k f s = some t ∧ P k t from h n (Nat.le_refl n)
  intro k hk
  induction k with
  | zero => exact ⟨s, rfl, h₀⟩
  | succ k ih =>
      obtain ⟨t, heq, hP⟩ := ih (by omega)
      rw [forRangeM_succ, heq]
      exact hs k t (by omega) hP

/-- A storing loop whose cells all lie in the buffer. -/
theorem forRangeM_writeIn {l : List α} {off n : Nat} (v : Nat → α) (h : off + n ≤ l.length) :
    forRangeM n (fun i l => writeIn l (off + i) (v i)) l
      = some (forRange n (fun i l => l.set (off + i) (v i)) l) := by
  refine forRangeM_eq (P := fun t => t.length = l.length) rfl ?_
  intro i t hi ht
  exact ⟨writeIn_eq _ (by omega), by rw [List.length_set, ht]⟩

end Libws.Support
