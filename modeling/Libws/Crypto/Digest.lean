import Libws.Util.Checked
import Libws.Crypto.Rfc3174
import Libws.Crypto.Sha1

/-!
# Crypto — `ws_sha1` is RFC 3174

`sha1.c` compresses the full blocks where they stand in the message and pads only the tail, in a
buffer of one or two blocks.  Here that is shown to be the digest of the padded message.

* `expand_filled`, `compress_eq`: the schedule and the compression of a block.
* `compressN_eq`: compressing blocks in place folds the compression over them.
* `finalize_eq`: the last buffer begins with the tail and its padding, which fill it to a block.
* `wsSha1_eq`: the digest of any message whose bit length fits 64 bits.
-/

namespace Libws.Sha1
open Libws.Support
open Libws.Rfc3174 (schedule)

/-! ### One block -/

theorem rotl32_eq (x : UInt32) {n : UInt32} (h₀ : 0 < n.toNat) (h : n.toNat < 32) :
    rotl32 x n = Rfc3174.rotl n.toNat x := by
  have hsub : (32 - n).toNat = 32 - n.toNat := by
    rw [UInt32.toNat_sub_of_le _ _ (UInt32.le_iff_toNat_le.mpr (Nat.le_of_lt h))]; rfl
  rw [← UInt32.toNat_inj, rotl32, UInt32.toNat_or, UInt32.toNat_shiftLeft,
    UInt32.toNat_shiftRight, hsub, Nat.mod_eq_of_lt h,
    Nat.mod_eq_of_lt (show 32 - n.toNat < 32 by omega)]
  show _ = (BitVec.rotateLeft _ _).toNat
  rw [BitVec.toNat_rotateLeft, Nat.mod_eq_of_lt h]
  rfl

theorem roundF_eq {t : Nat} (ht : t < 80) (b c d : UInt32) :
    roundF (t / 20) b c d = Rfc3174.f t b c d := by
  unfold roundF Rfc3174.f
  split_ifs <;> first | rfl | omega

theorem kK_eq {t : Nat} (ht : t < 80) : kK.getD (t / 20) 0 = Rfc3174.k t := by
  unfold Rfc3174.k
  split_ifs
  · rw [show t / 20 = 0 by omega]; rfl
  · rw [show t / 20 = 1 by omega]; rfl
  · rw [show t / 20 = 2 by omega]; rfl
  · rw [show t / 20 = 3 by omega]; rfl

/-- The first `n` words of `w[80]` are those of the schedule. -/
def Filled (m : Nat → UInt32) (n : Nat) (w : List UInt32) : Prop :=
  w.length = 80 ∧ ∀ t < n, w.getD t 0 = schedule m t

theorem Filled.set {m : Nat → UInt32} {n : Nat} {w : List UInt32} {v : UInt32}
    (h : Filled m n w) (hn : n < 80) (hv : v = schedule m n) : Filled m (n + 1) (w.set n v) := by
  refine ⟨by rw [List.length_set, h.1], fun t ht => ?_⟩
  rcases Nat.lt_succ_iff_lt_or_eq.mp ht with hlt | rfl
  · rw [List.getD_eq_getElem?_getD, List.getElem?_set_ne (by omega),
      ← List.getD_eq_getElem?_getD, h.2 t hlt]
  · rw [List.getD_eq_getElem?_getD, List.getElem?_set_self (by rw [h.1]; exact hn), hv]
    rfl

theorem slice_four {l : List UInt8} {a : Nat} (h : a + 4 ≤ l.length) :
    slice l a 4 = [l.getD a 0, l.getD (a + 1) 0, l.getD (a + 2) 0, l.getD (a + 3) 0] := by
  have get : ∀ j, j < 4 → l[a + j]? = some (l.getD (a + j) 0) := by
    intro j hj
    rw [List.getD_eq_getElem?_getD, List.getElem?_eq_getElem (show a + j < l.length by omega)]
    rfl
  rw [slice_succ (get 3 (by decide)), slice_succ (get 2 (by decide)),
    slice_succ (get 1 (by decide)), slice_succ (get 0 (by decide))]
  rfl

/-- The first loop of `expand` loads the words of the block. -/
theorem load_eq {blk : List UInt8} (h : 64 ≤ blk.length) {t : Nat} (ht : t < 16) :
    (((blk.getD (t * 4) 0).toUInt32 <<< 24) ||| ((blk.getD (t * 4 + 1) 0).toUInt32 <<< 16) |||
      ((blk.getD (t * 4 + 2) 0).toUInt32 <<< 8) ||| (blk.getD (t * 4 + 3) 0).toUInt32)
      = Rfc3174.word (blk.take 64) t := by
  have hcut : slice (blk.take 64) (4 * t) 4 = slice blk (4 * t) 4 := by
    have := slice_append_left (a := blk.take 64) (i := 4 * t) (n := 4) (blk.drop 64)
      (by rw [List.length_take]; omega)
    rwa [List.take_append_drop, eq_comm] at this
  rw [Rfc3174.word, hcut, slice_four (by omega), ← toNat_load4, UInt32.ofNat_toNat,
    Nat.mul_comm 4 t]

/-- **The schedule.** -/
theorem expand_filled {blk : List UInt8} (h : 64 ≤ blk.length) :
    Filled (Rfc3174.word (blk.take 64)) 80 (expand blk) := by
  refine forRange_inv (P := fun j w => Filled (Rfc3174.word (blk.take 64)) (16 + j) w) ?_ ?_
  · refine forRange_inv (P := fun i w => Filled (Rfc3174.word (blk.take 64)) i w) ?_ ?_
    · exact ⟨List.length_replicate, fun t ht => absurd ht (Nat.not_lt_zero t)⟩
    · intro i w hi hw
      exact hw.set (by omega) ((load_eq h hi).trans (Rfc3174.schedule_lt _ hi).symm)
  · intro j w hj hw
    refine hw.set (by omega) ?_
    rw [rotl32_eq _ (by decide) (by decide), hw.2 (16 + j - 3) (by omega),
      hw.2 (16 + j - 8) (by omega), hw.2 (16 + j - 14) (by omega), hw.2 (16 + j - 16) (by omega),
      Nat.add_comm 16 j, Rfc3174.schedule_add]
    rfl

/-- The state, in the words of the standard. -/
def Regs.buffer (s : Regs) : Rfc3174.Buffer := ⟨s.a, s.b, s.c, s.d, s.e⟩

theorem round_eq {m : Nat → UInt32} {w : List UInt32} (hw : Filled m 80 w) {t : Nat} (ht : t < 80)
    (s : Regs) : (round w t s).buffer = Rfc3174.step (schedule m) t s.buffer := by
  have h5 : rotl32 s.a 5 = Rfc3174.rotl 5 s.a := rotl32_eq s.a (by decide) (by decide)
  have h30 : rotl32 s.b 30 = Rfc3174.rotl 30 s.b := rotl32_eq s.b (by decide) (by decide)
  rw [round, h5, h30, roundF_eq ht, kK_eq ht, hw.2 t ht]
  rfl

/-- **One compression** reads the first 64 bytes behind the pointer it is given. -/
theorem compress_eq {blk : List UInt8} (h : 64 ≤ blk.length) (s : Regs) :
    (compress s blk).buffer = Rfc3174.compress s.buffer (blk.take 64) := by
  have hrounds := forRange_hom Regs.buffer
    (fun t s ht => round_eq (expand_filled h) (t := t) ht s) s
  rw [Rfc3174.compress, ← hrounds]
  rfl

/-- **Blocks in place.**  Compressing `n` blocks folds over the blocks of that part. -/
theorem compressN_eq (s : Regs) {a : List UInt8} (b : List UInt8) {n : Nat}
    (h : a.length = n * 64) :
    (compressN s (a ++ b) n).buffer = (blocks 64 a).foldl Rfc3174.compress s.buffer := by
  rw [← forRange_blocks _ _ (by decide) h]
  refine forRange_hom Regs.buffer ?_ s
  intro i s hi
  have hle : i * 64 + 64 ≤ a.length := by omega
  rw [compress_eq (by rw [List.length_drop, List.length_append]; omega)]
  exact congrArg _ (slice_append_left b hle)

/-! ### The last blocks -/

/-- The shifts of the length loop pick the bytes of the numeral, first to last. -/
theorem lengthBytes_eq (bits : UInt64) :
    (List.range 8).map (fun i => (bits >>> (56 - 8 * UInt64.ofNat i)).toUInt8)
      = beBytes 8 bits.toNat := by
  have hshift : ∀ i < 8, 56 - 8 * UInt64.ofNat i = 8 * UInt64.ofNat (8 - 1 - i) := by decide
  rw [← beBytes_eq_reverse]
  apply List.ext_getElem
  · simp
  · intro i h _
    have hi : i < 8 := by simpa using h
    simp only [List.getElem_map, List.getElem_range, List.getElem_reverse, List.length_map,
      List.length_range]
    rw [hshift i hi, shiftRight_toUInt8 bits (by omega)]

/-- The length loop, at the end of what is written so far. -/
theorem storeLength_eq (a : List UInt8) (k : Nat) (bits : UInt64) :
    forRange 8 (fun i l => l.set (a.length + i) (bits >>> (56 - 8 * UInt64.ofNat i)).toUInt8)
        (a ++ List.replicate (8 + k) 0)
      = a ++ beBytes 8 bits.toNat ++ List.replicate k 0 := by
  rw [forRange_set _ _ _ _ (by rw [List.length_append, List.length_replicate]; omega),
    lengthBytes_eq, splice_append_left, beBytes_length, List.drop_replicate,
    Nat.add_sub_cancel_left]

theorem storeMark_eq (a : List UInt8) (x : UInt8) (k : Nat) :
    (a ++ List.replicate (k + 1) 0).set a.length x = a ++ [x] ++ List.replicate k 0 := by
  rw [List.set_append_right _ _ (Nat.le_refl _), Nat.sub_self, List.replicate_succ,
    List.set_cons_zero, List.append_assoc]
  rfl

/-- **The last buffer.**  A tail of less than a block and its padding fill the first `n` blocks,
with fewer than 64 zeros between the mark and the length. -/
theorem finalize_eq (tail : List UInt8) (h : tail.length < 64) (bits : UInt64) :
    ∃ n z, tail.length + 1 + z + 8 = n * 64 ∧ z < 64 ∧
      finalize tail tail.length bits = (n, tail ++ [0x80] ++ List.replicate z 0 ++
        beBytes 8 bits.toNat ++ List.replicate (128 - n * 64) 0) := by
  have hcopy : wsMemcpy (List.replicate 128 0) 0 tail tail.length
      = tail ++ List.replicate (127 - tail.length + 1) 0 := by
    have := wsMemcpy_append [] (List.replicate 128 0) tail (by rw [List.length_replicate]; omega)
    rwa [List.drop_replicate, show 128 - tail.length = 127 - tail.length + 1 by omega] at this
  have hlen : ∀ n z, tail.length + 1 + z + 8 = n * 64 → n * 64 ≤ 128 →
      forRange 8 (fun i l => l.set (n * 64 - 8 + i) (bits >>> (56 - 8 * UInt64.ofNat i)).toUInt8)
        (tail ++ [0x80] ++ List.replicate (127 - tail.length) 0)
        = tail ++ [0x80] ++ List.replicate z 0 ++ beBytes 8 bits.toNat ++
          List.replicate (128 - n * 64) 0 := by
    intro n z hz hn
    have hoff : n * 64 - 8 = (tail ++ [0x80] ++ List.replicate z 0).length := by
      simp only [List.length_append, List.length_replicate, List.length_singleton]; omega
    rw [hoff, ← storeLength_eq, List.append_assoc _ (List.replicate z 0),
      List.replicate_append_replicate, show z + (8 + (128 - n * 64)) = 127 - tail.length by omega]
  rw [finalize, hcopy, storeMark_eq]
  -- at 56 bytes and more the length no longer fits behind the mark
  by_cases h56 : tail.length ≥ 56
  · refine ⟨2, 119 - tail.length, by omega, by omega, ?_⟩
    rw [if_pos h56, hlen 2 (119 - tail.length) (by omega) (by decide)]
  · refine ⟨1, 55 - tail.length, by omega, by omega, ?_⟩
    rw [if_neg h56, hlen 1 (55 - tail.length) (by omega) (by decide)]

/-! ### The whole message -/

theorem word_eq_beBytes (x : UInt32) : word x = beBytes 4 x.toNat := by
  simp only [word, beBytes, Nat.div_div_eq_div_mul, List.nil_append, List.cons_append]
  refine congr_arg₂ _ ?_ (congr_arg₂ _ ?_ (congr_arg₂ _ ?_ (congr_arg₂ _ ?_ rfl))) <;>
    exact UInt8.toNat.inj (by simp [Nat.shiftRight_eq_div_pow])

theorem emit_eq (s : Regs) : emit s = s.buffer.bytes := by
  simp only [emit, word_eq_beBytes, Rfc3174.Buffer.bytes, Regs.buffer, List.flatMap_cons,
    List.flatMap_nil, List.append_nil, List.append_assoc]

/-- The bit length of a message below `2 ^ 61` bytes does not wrap. -/
theorem bits_toNat {n : Nat} (h : n < 2 ^ 61) : (UInt64.ofNat n * 8).toNat = 8 * n := by
  rw [UInt64.toNat_mul, UInt64.toNat_ofNat']
  show n % 2 ^ 64 * 8 % 2 ^ 64 = 8 * n
  omega

end Libws.Sha1

namespace Libws
open Libws.Support Sha1

/-- **The digest.** -/
theorem wsSha1_eq {msg : List UInt8} (h : msg.length < 2 ^ 61) :
    wsSha1 msg = Rfc3174.digest msg := by
  obtain ⟨a, tail, rfl, ha⟩ := exists_append_of_le (Nat.div_mul_le_self msg.length 64)
  have hdiv : (a ++ tail).length / 64 * 64 = a.length := ha.symm
  have hrem : (a ++ tail).length - a.length = tail.length := by
    rw [List.length_append]; omega
  obtain ⟨n, z, hnz, hz, hfin⟩ := finalize_eq tail (by omega)
    (UInt64.ofNat (a ++ tail).length * 8)
  have hpad : Rfc3174.pad (a ++ tail) = a ++ (tail ++ [0x80] ++ List.replicate z 0 ++
      beBytes 8 (UInt64.ofNat (a ++ tail).length * 8).toNat) := by
    rw [Rfc3174.pad, Rfc3174.padZeros_eq (z := z) (by omega) hz, bits_toNat h]
    simp only [List.append_assoc]
  -- from here on only the length of the padded tail counts
  generalize hlast : tail ++ [0x80] ++ List.replicate z 0 ++
    beBytes 8 (UInt64.ofNat (a ++ tail).length * 8).toNat = last at hfin hpad
  have hblocks : last.length = n * 64 := by
    rw [← hlast, ← hnz]
    simp only [List.length_append, List.length_replicate, List.length_singleton, beBytes_length]
  rw [wsSha1]
  simp only [hdiv, hrem, List.drop_left, hfin]
  rw [emit_eq, compressN_eq _ _ hblocks, compressN_eq _ _ ha, Rfc3174.digest, hpad,
    blocks_append _ (by decide) ha, List.foldl_append]
  rfl

end Libws

namespace Libws.Checked
open Libws.Support

/-! ### The stores of `finalize`

`finalize` once more, from the array as the stack leaves it: every store must lie in the array, and
every byte copied must lie in the tail. -/

def finalize (last tail : List UInt8) (rem : Nat) (bits : UInt64) :
    Option (Nat × List UInt8) := do
  let last ← wsMemset last 0 0 128
  let last ← wsMemcpy last 0 tail rem
  let last ← writeIn last rem 0x80
  let blocks := if rem ≥ 56 then 2 else 1
  let lenp := blocks * 64 - 8
  let last ← forRangeM 8 (fun i l =>
    writeIn l (lenp + i) (bits >>> (56 - 8 * UInt64.ofNat i)).toUInt8) last
  some (blocks, last)

/-- `ws_sha1`, where `last` is the array before `finalize` fills it. -/
def wsSha1 (last msg : List UInt8) : Option (List UInt8) := do
  let full := msg.length / 64
  let h := Sha1.compressN Sha1.init msg full
  let rem := msg.length - full * 64
  let (blocks, last) ← finalize last (msg.drop (full * 64)) rem (UInt64.ofNat msg.length * 8)
  some (Sha1.emit (Sha1.compressN h last blocks))

/-- **No store of `finalize` leaves the array**, whatever it held before. -/
theorem finalize_eq {last tail : List UInt8} {rem : Nat} (bits : UInt64) (hl : last.length = 128)
    (h : rem < 64) (ht : rem ≤ tail.length) :
    finalize last tail rem bits = some (Sha1.finalize tail rem bits) := by
  have hset : wsMemset last 0 0 128 = some (List.replicate 128 0) := by
    rw [← hl]
    exact wsMemset_eq 0
  have hlen : ((Libws.wsMemcpy (List.replicate 128 0) 0 tail rem).set rem 0x80).length = 128 := by
    rw [List.length_set, wsMemcpy_length, List.length_replicate]
  -- the length ends at the end of the first or of the second block
  have hend : (if rem ≥ 56 then 2 else 1) * 64 - 8 + 8 ≤ 128 := by
    split <;> decide
  rw [finalize, hset, Option.bind_eq_bind, Option.bind_some,
    wsMemcpy_eq (by rw [List.length_replicate]; omega) ht, Option.bind_some,
    writeIn_eq _ (by rw [wsMemcpy_length, List.length_replicate]; omega), Option.bind_some]
  dsimp only
  rw [forRangeM_writeIn _ (by rw [hlen]; exact hend)]
  rfl

theorem wsSha1_eq {last : List UInt8} (msg : List UInt8) (hl : last.length = 128) :
    wsSha1 last msg = some (Libws.wsSha1 msg) := by
  rw [wsSha1, finalize_eq _ hl (by omega) (by rw [List.length_drop])]
  rfl

end Libws.Checked

namespace Libws

/-- **`ws_sha1` is RFC 3174.**  The digest of a message below `2 ^ 61` bytes is the standard's, and
for a message of any length no store of `finalize` leaves its 128 bytes, whatever they held. -/
theorem sha1_is_rfc3174 (msg : List UInt8) :
    (msg.length < 2 ^ 61 → wsSha1 msg = Rfc3174.digest msg) ∧
    ∀ last : List UInt8, last.length = 128 → Checked.wsSha1 last msg = some (wsSha1 msg) :=
  ⟨wsSha1_eq, fun _ hl => Checked.wsSha1_eq msg hl⟩

/-- `"abc"`, a vector of `test/cases/sha1.c`, with `0xFF` in the array before. -/
theorem sha1_is_rfc3174_abc :
    Rfc3174.digest [0x61, 0x62, 0x63] = [0xA9, 0x99, 0x3E, 0x36, 0x47, 0x06, 0x81, 0x6A, 0xBA, 0x3E,
      0x25, 0x71, 0x78, 0x50, 0xC2, 0x6C, 0x9C, 0xD0, 0xD8, 0x9D] ∧
    Checked.wsSha1 (List.replicate 128 0xFF) [0x61, 0x62, 0x63]
      = some (Rfc3174.digest [0x61, 0x62, 0x63]) := by
  obtain ⟨hdigest, hstores⟩ := sha1_is_rfc3174 [0x61, 0x62, 0x63]
  rw [hstores _ List.length_replicate, ← hdigest (by decide)]
  exact ⟨by decide +kernel, rfl⟩

end Libws
