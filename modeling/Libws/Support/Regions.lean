import Mathlib.Algebra.Group.Nat.Even
import Mathlib.Data.List.Basic

/-!
# Support — regions of a buffer

A buffer is a list.  `slice l a n` is its `n` cells from offset `a`, and `splice l a bs` is `l`
with `bs` written over it from offset `a`.  `forRange n f s` runs the counted loop
`for (i = 0; i < n; i++) s = f i s`; a loop that stores into consecutive cells is a `splice`:

* `forRange_set`: stores that read nothing of the buffer (`memcpy` between two arrays);
* `forRange_set_rev`: the same, from the last cell to the first;
* `forRange_update`: every cell rewritten from its own old value;
* `forRange_copy`: a forward copy inside one buffer, to a place not above the source.  The two
  regions may overlap; what arrives is the source as it stood before the loop.

A read past the end of the list gives the default, and a store past its end does nothing.
-/

namespace Libws.Support

variable {α σ τ : Type*}

/-! ### Counted loops -/

/-- `for (i = 0; i < n; i++) s = f i s`. -/
def forRange (n : Nat) (f : Nat → σ → σ) (s : σ) : σ :=
  (List.range n).foldl (fun s i => f i s) s

@[simp] theorem forRange_zero (f : Nat → σ → σ) (s : σ) : forRange 0 f s = s := rfl

theorem forRange_succ (n : Nat) (f : Nat → σ → σ) (s : σ) :
    forRange (n + 1) f s = f n (forRange n f s) := by
  simp [forRange, List.range_succ]

/-- **The loop rule**: what holds before the loop and is carried by each turn holds after it. -/
theorem forRange_inv {P : Nat → σ → Prop} {n : Nat} {f : Nat → σ → σ} {s : σ} (h₀ : P 0 s)
    (hs : ∀ i t, i < n → P i t → P (i + 1) (f i t)) : P n (forRange n f s) := by
  induction n with
  | zero => exact h₀
  | succ n ih =>
      rw [forRange_succ]
      exact hs n _ n.lt_succ_self (ih fun i t hi ht => hs i t (Nat.lt_succ_of_lt hi) ht)

/-- A map that carries each turn of one loop to a turn of another carries the one to the other. -/
theorem forRange_hom (φ : σ → τ) {n : Nat} {f : Nat → σ → σ} {g : Nat → τ → τ}
    (h : ∀ i s, i < n → φ (f i s) = g i (φ s)) (s : σ) :
    φ (forRange n f s) = forRange n g (φ s) := by
  refine forRange_inv (P := fun i t => φ t = forRange i g (φ s)) rfl ?_
  intro i t hi ht
  rw [h i t hi, ht, forRange_succ]

/-! ### Slices and splices -/

/-- The `n` cells of `l` from offset `a`. -/
def slice (l : List α) (a n : Nat) : List α := (l.drop a).take n

/-- `l` with `bs` written over it from offset `a`. -/
def splice (l : List α) (a : Nat) (bs : List α) : List α :=
  l.take a ++ bs ++ l.drop (a + bs.length)

/-- A list cut at an offset inside it. -/
theorem exists_append_of_le {l : List α} {n : Nat} (h : n ≤ l.length) :
    ∃ a b, l = a ++ b ∧ a.length = n :=
  ⟨l.take n, l.drop n, (List.take_append_drop n l).symm, List.length_take_of_le h⟩

theorem slice_length {l : List α} {a n : Nat} (h : a + n ≤ l.length) :
    (slice l a n).length = n := by
  simp only [slice, List.length_take, List.length_drop]; omega

theorem slice_append_mid (a b c : List α) : slice (a ++ b ++ c) a.length b.length = b := by
  simp [slice]

theorem slice_append_left {a : List α} {i n : Nat} (b : List α) (h : i + n ≤ a.length) :
    slice (a ++ b) i n = slice a i n := by
  rw [slice, slice, List.drop_append_of_le_length (by omega),
    List.take_append_of_le_length (by rw [List.length_drop]; omega)]

theorem slice_append_right (a b : List α) (i n : Nat) :
    slice (a ++ b) (a.length + i) n = slice b i n := by
  rw [slice, slice, List.drop_append, List.drop_eq_nil_of_le (by omega), List.nil_append,
    Nat.add_sub_cancel_left]

theorem slice_succ {l : List α} {a n : Nat} {x : α} (h : l[a + n]? = some x) :
    slice l a (n + 1) = slice l a n ++ [x] := by
  rw [slice, slice, List.take_add_one, List.getElem?_drop, h]; rfl

/-- Writing over the middle of three parts. -/
theorem splice_append_mid (a b c : List α) {bs : List α} (h : bs.length = b.length) :
    splice (a ++ b ++ c) a.length bs = a ++ bs ++ c := by
  simp [splice, h]

/-- Writing `bs` right behind `a`: it covers the first `bs.length` cells of what follows. -/
theorem splice_append_left (a r : List α) (bs : List α) :
    splice (a ++ r) a.length bs = a ++ bs ++ r.drop bs.length := by
  simp [splice]

/-- Storing one more cell extends a splice. -/
theorem splice_set (l : List α) (a : Nat) (bs : List α) (x : α) (h : a + bs.length < l.length) :
    (splice l a bs).set (a + bs.length) x = splice l a (bs ++ [x]) := by
  have hlen : (l.take a ++ bs).length = a + bs.length := by
    simp only [List.length_append, List.length_take]; omega
  rw [splice, List.set_append_right _ _ (by omega), hlen, Nat.sub_self,
    List.drop_eq_getElem_cons h, List.set_cons_zero, splice]
  simp [Nat.add_assoc]

/-- Storing one cell in front of a splice extends it downwards. -/
theorem splice_set_front (l : List α) (a : Nat) (bs : List α) (x : α) (h : a < l.length) :
    (splice l (a + 1) bs).set a x = splice l a (x :: bs) := by
  have hlen : a < (l.take (a + 1)).length := by simp only [List.length_take]; omega
  rw [splice, List.append_assoc, List.set_append_left _ _ hlen, splice]
  have ht : (l.take (a + 1)).set a x = l.take a ++ [x] := by
    have hmin : min a l.length = a := Nat.min_eq_left (Nat.le_of_lt h)
    rw [List.take_succ_eq_append_getElem h, List.set_append_right _ _ (by simp [hmin])]
    simp [hmin]
  rw [ht]
  simp only [List.length_cons, List.append_assoc, List.cons_append, List.nil_append]
  rw [show a + 1 + bs.length = a + (bs.length + 1) by omega]

/-- A splice leaves the cells past its end alone. -/
theorem splice_getElem?_ge {l : List α} {a : Nat} {bs : List α} {j : Nat} (ha : a ≤ l.length)
    (hj : a + bs.length ≤ j) : (splice l a bs)[j]? = l[j]? := by
  rw [splice, List.getElem?_append_right (by simp [ha, hj]), List.getElem?_drop]
  congr 1
  simp only [List.length_append, List.length_take]; omega

/-- Cells laid over the front of `p` leave it as it was exactly when they agree with it. -/
theorem take_overlay_iff (t p r : List α) :
    (t ++ (p ++ r).drop t.length).take p.length = p ↔ t.take p.length <+: p := by
  rcases Nat.le_total t.length p.length with hle | hle
  · rw [List.take_of_length_le hle]
    constructor
    · intro h
      rw [← h, List.take_append, List.take_of_length_le hle]
      exact List.prefix_append _ _
    · rintro ⟨q, rfl⟩
      rw [List.append_assoc t q r, List.drop_left, ← List.append_assoc, List.take_left]
  · rw [List.take_append_of_le_length hle]
    constructor
    · intro h
      exact ⟨[], (List.append_nil _).trans h⟩
    · intro h
      exact h.eq_of_length (List.length_take_of_le hle)

/-! ### Storing loops -/

/-- Stores of values that do not depend on the buffer. -/
theorem forRange_set (l : List α) (off n : Nat) (v : Nat → α) (h : off + n ≤ l.length) :
    forRange n (fun i b => b.set (off + i) (v i)) l = splice l off ((List.range n).map v) := by
  induction n with
  | zero => simp [splice]
  | succ n ih =>
      rw [forRange_succ, ih (by omega), List.range_succ, List.map_append]
      have := splice_set l off ((List.range n).map v) (v n) (by simp; omega)
      simpa using this

/-- Stores from the last cell of the region down to the first. -/
theorem forRange_set_rev (l : List α) (off n : Nat) (v : Nat → α) (h : off + n ≤ l.length) :
    forRange n (fun i b => b.set (off + (n - 1 - i)) (v i)) l
      = splice l off (((List.range n).map v).reverse) := by
  -- after `k` turns the last `k` cells of the region are written
  have key : ∀ k, k ≤ n → forRange k (fun i b => b.set (off + (n - 1 - i)) (v i)) l
      = splice l (off + (n - k)) (((List.range k).map v).reverse) := by
    intro k
    induction k with
    | zero => intro _; simp [splice]
    | succ k ih =>
        intro hk
        rw [forRange_succ, ih (by omega), List.range_succ, List.map_append, List.reverse_append]
        have := splice_set_front l (off + (n - (k + 1))) ((List.range k).map v).reverse (v k)
          (by omega)
        rw [show off + (n - (k + 1)) + 1 = off + (n - k) by omega] at this
        rw [show off + (n - 1 - k) = off + (n - (k + 1)) by omega]
        simpa using this
  simpa using key n (Nat.le_refl n)

/-- Every cell of a region rewritten from its own value. -/
theorem forRange_update (l : List α) (off n : Nat) (d : α) (g : Nat → α → α)
    (h : off + n ≤ l.length) :
    forRange n (fun i b => b.set (off + i) (g i (b.getD (off + i) d))) l
      = splice l off ((slice l off n).mapIdx g) := by
  induction n with
  | zero => simp [splice, slice]
  | succ n ih =>
      have hlt : off + n < l.length := by omega
      have hlen : ((slice l off n).mapIdx g).length = n := by
        rw [List.length_mapIdx, slice_length (by omega)]
      have hread : (splice l off ((slice l off n).mapIdx g)).getD (off + n) d = l[off + n] := by
        rw [List.getD_eq_getElem?_getD, splice_getElem?_ge (by omega) (by omega),
          List.getElem?_eq_getElem hlt, Option.getD_some]
      rw [forRange_succ, ih (by omega), hread]
      have := splice_set l off ((slice l off n).mapIdx g) (g n l[off + n]) (by omega)
      rw [hlen] at this
      rw [this, slice_succ (List.getElem?_eq_getElem hlt), List.mapIdx_append,
        slice_length (by omega)]
      simp

/-- **A forward copy to a place not above its source** delivers the source as it stood before
the loop, overlapping or not. -/
theorem forRange_copy (l : List α) (dst src n : Nat) (d : α) (hds : dst ≤ src)
    (h : src + n ≤ l.length) :
    forRange n (fun i b => b.set (dst + i) (b.getD (src + i) d)) l
      = splice l dst (slice l src n) := by
  induction n with
  | zero => simp [splice, slice]
  | succ n ih =>
      have hlt : src + n < l.length := by omega
      have hlen : (slice l src n).length = n := slice_length (by omega)
      -- the cell read lies at or past the end of what has been written
      have hread : (splice l dst (slice l src n)).getD (src + n) d = l[src + n] := by
        rw [List.getD_eq_getElem?_getD, splice_getElem?_ge (by omega) (by omega),
          List.getElem?_eq_getElem hlt, Option.getD_some]
      rw [forRange_succ, ih (by omega), hread]
      have := splice_set l dst (slice l src n) l[src + n] (by omega)
      rw [hlen] at this
      rw [this, slice_succ (List.getElem?_eq_getElem hlt)]

end Libws.Support
