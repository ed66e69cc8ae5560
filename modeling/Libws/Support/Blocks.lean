import Libws.Support.Regions

/-!
# Support — blocks

`blocks n l` is `l` cut into consecutive blocks of `n` cells; cells left over at the end belong to
no block.  A loop that works through a buffer in place, `n` cells a turn, is a fold over its blocks
(`forRange_blocks`), and a front of whole blocks can be folded first (`blocks_append`).
-/

namespace Libws.Support

variable {α σ : Type*}

/-- The consecutive blocks of `n` cells of `l`. -/
def blocks (n : Nat) (l : List α) : List (List α) :=
  (List.range (l.length / n)).map fun i => slice l (i * n) n

/-- Blocks are cut on from the end of a front of whole blocks. -/
theorem blocks_append {n k : Nat} {a : List α} (b : List α) (hn : 0 < n) (h : a.length = k * n) :
    blocks n (a ++ b) = blocks n a ++ blocks n b := by
  have hlen : (a ++ b).length / n = k + b.length / n := by
    rw [List.length_append, h, Nat.mul_comm, Nat.mul_add_div hn]
  rw [blocks, blocks, blocks, hlen, h, Nat.mul_div_cancel k hn, List.range_add, List.map_append,
    List.map_map]
  congr 1
  · apply List.map_congr_left
    intro i hi
    have hle : (i + 1) * n ≤ k * n := Nat.mul_le_mul_right n (List.mem_range.mp hi)
    rw [Nat.succ_mul] at hle
    exact slice_append_left b (by omega)
  · apply List.map_congr_left
    intro i _
    show slice (a ++ b) ((k + i) * n) n = _
    rw [Nat.add_mul, ← h, slice_append_right]

/-- **A loop over a buffer in place**, `n` cells a turn, folds over its blocks. -/
theorem forRange_blocks {n k : Nat} {l : List α} (f : σ → List α → σ) (s : σ) (hn : 0 < n)
    (h : l.length = k * n) :
    forRange k (fun i s => f s (slice l (i * n) n)) s = (blocks n l).foldl f s := by
  rw [blocks, h, Nat.mul_div_cancel k hn, List.foldl_map]
  rfl

end Libws.Support
