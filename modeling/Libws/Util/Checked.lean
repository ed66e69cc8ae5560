import Libws.Support.Checked
import Libws.Util.Mem

/-!
# Util — the memory primitives stay inside their arrays

`ws_memset` and `ws_memcpy` of `src/util/mem.c` with every store checked against the array it goes
to, and every byte copied against the `n` it may be taken from.
-/

namespace Libws.Checked
open Libws.Support

/-- `ws_memset(dst + off, c, n)`. -/
def wsMemset (dst : List UInt8) (off : Nat) (c : UInt8) (n : Nat) : Option (List UInt8) :=
  forRangeM n (fun i d => writeIn d (off + i) c) dst

/-- `ws_memcpy(dst + off, src, n)` between two arrays. -/
def wsMemcpy (dst : List UInt8) (off : Nat) (src : List UInt8) (n : Nat) : Option (List UInt8) :=
  forRangeM n (fun i d => do writeIn d (off + i) (← readIn src 0 n i)) dst

theorem wsMemset_eq {dst : List UInt8} (c : UInt8) :
    wsMemset dst 0 c dst.length = some (List.replicate dst.length c) := by
  rw [wsMemset, forRangeM_writeIn _ (by omega), forRange_set _ _ _ _ (by omega), splice]
  simp

theorem wsMemcpy_eq {dst src : List UInt8} {off n : Nat} (hd : off + n ≤ dst.length)
    (hs : n ≤ src.length) : wsMemcpy dst off src n = some (Libws.wsMemcpy dst off src n) := by
  refine forRangeM_eq (P := fun t => t.length = dst.length) rfl ?_
  intro i t hi ht
  rw [readIn_eq 0 (Nat.zero_le i) hi (by omega)]
  exact ⟨writeIn_eq _ (by omega), by rw [List.length_set, ht]⟩

end Libws.Checked
