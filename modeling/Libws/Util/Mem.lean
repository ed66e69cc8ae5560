import Libws.Support.Regions

/-!
# Util — bytes, sizes and the memory primitives

`src/util/mem.c`, `src/util/mask.c` and the forward copy of `src/session/stream.c`.  An array is
a list of bytes and a pointer into it an offset.  A `size_t` is a `Nat` reduced modulo `2 ^ w`,
where `w` is the width of `size_t` on the target; the arithmetic that can wrap is written with
`szAdd` and `szSub`.
-/

namespace Libws
open Libws.Support

/-! ### `size_t` -/

/-- `(size_t)n` on a target whose `size_t` has `w` bits. -/
def sizeT (w n : Nat) : Nat := n % 2 ^ w

/-- `a + b` in `size_t`. -/
def szAdd (w a b : Nat) : Nat := (a + b) % 2 ^ w

/-- `a - b` in `size_t`, for operands below `2 ^ w`. -/
def szSub (w a b : Nat) : Nat := (a + 2 ^ w - b) % 2 ^ w

theorem sizeT_of_lt {w n : Nat} (h : n < 2 ^ w) : sizeT w n = n := Nat.mod_eq_of_lt h

theorem szAdd_of_lt {w a b : Nat} (h : a + b < 2 ^ w) : szAdd w a b = a + b :=
  Nat.mod_eq_of_lt h

theorem szSub_of_le {w a b : Nat} (hb : b ≤ a) (ha : a < 2 ^ w) : szSub w a b = a - b := by
  rw [szSub, show a + 2 ^ w - b = a - b + 2 ^ w by omega, Nat.add_mod_right,
    Nat.mod_eq_of_lt (by omega)]

/-! ### Copying -/

/-- `ws_memcpy(dst + off, src, n)` between two arrays. -/
def wsMemcpy (dst : List UInt8) (off : Nat) (src : List UInt8) (n : Nat) : List UInt8 :=
  forRange n (fun i d => d.set (off + i) (src.getD i 0)) dst

/-- `fwd_copy(buf + dst, buf + src, n)` inside one array. -/
def fwdCopy (buf : List UInt8) (dst src n : Nat) : List UInt8 :=
  forRange n (fun i b => b.set (dst + i) (b.getD (src + i) 0)) buf

theorem map_getD_range (src : List UInt8) :
    (List.range src.length).map (fun i => src.getD i 0) = src := by
  apply List.ext_getElem
  · simp
  · intro i h₁ h₂
    simp [List.getElem?_eq_getElem h₂]

@[simp] theorem wsMemcpy_length (dst : List UInt8) (off : Nat) (src : List UInt8) (n : Nat) :
    (wsMemcpy dst off src n).length = dst.length :=
  forRange_inv (P := fun _ (b : List UInt8) => b.length = dst.length) rfl
    fun _ _ _ h => by rw [List.length_set, h]

@[simp] theorem fwdCopy_length (buf : List UInt8) (dst src n : Nat) :
    (fwdCopy buf dst src n).length = buf.length :=
  forRange_inv (P := fun _ (b : List UInt8) => b.length = buf.length) rfl
    fun _ _ _ h => by rw [List.length_set, h]

/-- Copying all of `src` behind `a` covers the first `src.length` bytes of what follows. -/
theorem wsMemcpy_append (a r src : List UInt8) (h : src.length ≤ r.length) :
    wsMemcpy (a ++ r) a.length src src.length = a ++ src ++ r.drop src.length := by
  rw [wsMemcpy, forRange_set _ _ _ _ (by simp [h]), map_getD_range, splice_append_left]

/-- Copying `c` down over `b ++ c`, which may overlap it. -/
theorem fwdCopy_append (a b c r : List UInt8) :
    fwdCopy (a ++ b ++ c ++ r) a.length (a.length + b.length) c.length
      = a ++ c ++ (b ++ c ++ r).drop c.length := by
  have hs : slice (a ++ b ++ c ++ r) (a.length + b.length) c.length = c := by
    rw [← List.length_append]; exact slice_append_mid (a ++ b) c r
  have hlen : a.length + b.length + c.length ≤ (a ++ b ++ c ++ r).length := by
    simp only [List.length_append]; omega
  rw [fwdCopy, forRange_copy _ _ _ _ _ (Nat.le_add_right _ _) hlen, hs,
    List.append_assoc, List.append_assoc, splice_append_left, List.append_assoc b c r]

/-! ### Comparing -/

/-- `ws_memcmp(a, b, n)`: the difference of the first bytes that differ. -/
def wsMemcmp (a b : List UInt8) (n : Nat) : Int :=
  match (List.range n).find? fun i => decide (a.getD i 0 ≠ b.getD i 0) with
  | none => 0
  | some i => (a.getD i 0).toNat - (b.getD i 0).toNat

/-- `ws_memcmp` over all of `b` finds no difference when `b` is a prefix. -/
theorem wsMemcmp_eq_zero_iff {a b : List UInt8} (h : b.length ≤ a.length) :
    wsMemcmp a b b.length = 0 ↔ b <+: a := by
  have hall : (∀ i < b.length, a.getD i 0 = b.getD i 0) ↔ b <+: a := by
    rw [List.prefix_iff_getElem]
    constructor
    · intro hi
      refine ⟨h, fun i hib => ?_⟩
      have hia : i < a.length := Nat.lt_of_lt_of_le hib h
      simpa [List.getElem?_eq_getElem hib, List.getElem?_eq_getElem hia] using (hi i hib).symm
    · rintro ⟨_, hi⟩ i hib
      have hia : i < a.length := Nat.lt_of_lt_of_le hib h
      simp [List.getElem?_eq_getElem hib, List.getElem?_eq_getElem hia, hi i hib]
  rw [← hall, wsMemcmp]
  split
  · rename_i hnone
    simpa using hnone
  · rename_i i hsome
    have hib : i < b.length := by simpa using List.mem_of_find?_eq_some hsome
    have hne : a.getD i 0 ≠ b.getD i 0 := by simpa using List.find?_some hsome
    constructor
    · intro hz
      exact absurd (UInt8.toNat.inj (by omega)) hne
    · intro hi
      exact absurd (hi i hib) hne

/-! ### Masking -/

/-- A 4-byte masking key. -/
abbrev MaskKey := Vector UInt8 4

/-- The byte at index `i` of a payload, masked. -/
def maskByte (key : MaskKey) (i : Nat) (b : UInt8) : UInt8 := b ^^^ key[i % 4]

/-- `ws_mask(buf + off, len, key)`. -/
def wsMask (buf : List UInt8) (off len : Nat) (key : MaskKey) : List UInt8 :=
  forRange len (fun i b => b.set (off + i) (maskByte key i (b.getD (off + i) 0))) buf

@[simp] theorem wsMask_length (buf : List UInt8) (off len : Nat) (key : MaskKey) :
    (wsMask buf off len key).length = buf.length :=
  forRange_inv (P := fun _ (b : List UInt8) => b.length = buf.length) rfl
    fun _ _ _ h => by rw [List.length_set, h]

/-- A whole payload, masked. -/
def masked (key : MaskKey) (bs : List UInt8) : List UInt8 := bs.mapIdx (maskByte key)

@[simp] theorem masked_length (key : MaskKey) (bs : List UInt8) :
    (masked key bs).length = bs.length := List.length_mapIdx

/-- Masking twice with one key gives the payload back. -/
@[simp] theorem masked_masked (key : MaskKey) (bs : List UInt8) :
    masked key (masked key bs) = bs := by
  apply List.ext_getElem
  · simp
  · intro i h₁ h₂
    simp only [masked, maskByte, List.getElem_mapIdx, UInt8.xor_assoc, UInt8.xor_self,
      UInt8.xor_zero]

theorem wsMask_append (a b r : List UInt8) (key : MaskKey) :
    wsMask (a ++ b ++ r) a.length b.length key = a ++ masked key b ++ r := by
  rw [wsMask, forRange_update _ _ _ _ _ (by simp), slice_append_mid]
  exact splice_append_mid a b r List.length_mapIdx

end Libws
