import Libws.Crypto.Base64Codec
import Libws.Crypto.Digest
import Libws.Framing.Checked
import Libws.Framing.Handshake

/-!
# Framing — the accept stays inside its arrays

`ws_handshake_accept` once more, with the SHA-1 and the base64 it calls, over the arrays it has on
the stack.  They hold anything when the call begins (`Scratch`).  A message or a block is read
through a reader, an array within the bounds of what has been stored in it.

* `Sha1.wsSha1_eq`: the digest stored is the one of the bytes the message has up to `len`.
* `wsHandshakeAccept_eq`: no check fails, and what the arrays held before does not count.
-/

namespace Libws.Checked
open Libws.Support

/-- What the arrays of the accept hold before the call. -/
structure Scratch where
  w : Vector UInt32 80
  last : Vector UInt8 128
  cat : Vector UInt8 100
  digest : Vector UInt8 20

/-- The reader behind a pointer into what a reader reads. -/
theorem Agrees.drop {rd : Nat → Option UInt8} {data : List UInt8} (h : Agrees rd data) (k : Nat) :
    Agrees (fun i => rd (k + i)) (data.drop k) := by
  intro i hi
  rw [List.length_drop] at hi
  change rd (k + i) = _
  rw [h (k + i) (by omega), List.getD_eq_getElem?_getD, List.getD_eq_getElem?_getD,
    List.getElem?_drop]

theorem agrees_readIn {buf : List UInt8} {n : Nat} (h : n ≤ buf.length) :
    Agrees (readIn buf 0 n) (buf.take n) := by
  intro i hi
  rw [List.length_take] at hi
  rw [readIn_eq 0 (Nat.zero_le i) (by omega) (by omega), List.getD_eq_getElem?_getD,
    List.getD_eq_getElem?_getD, List.getElem?_take_of_lt (by omega)]

theorem agrees_bytes (bytes : List UInt8) : Agrees (readIn bytes 0 bytes.length) bytes := by
  have h := agrees_readIn (Nat.le_refl bytes.length)
  rwa [List.take_length] at h

/-- A copy of `n` bytes reads no more of its source. -/
theorem wsMemcpy_take (dst : List UInt8) (off : Nat) (src : List UInt8) (n : Nat) :
    Libws.wsMemcpy dst off (src.take n) n = Libws.wsMemcpy dst off src n := by
  refine forRange_hom id (fun i l hi => ?_) _
  rw [List.getD_eq_getElem?_getD, List.getElem?_take_of_lt hi, ← List.getD_eq_getElem?_getD]
  rfl

namespace Sha1
open Libws.Sha1 (Regs Filled rotl32 roundF kK init)

/-! ### SHA-1 -/

/-- `expand(blk, w)`; a word is read once it has been stored. -/
def expand (rd : Nat → Option UInt8) (w : List UInt32) : Option (List UInt32) := do
  let w ← forRangeM 16 (fun i w => do
    writeIn w i (((← rd (i * 4)).toUInt32 <<< 24) ||| ((← rd (i * 4 + 1)).toUInt32 <<< 16) |||
      ((← rd (i * 4 + 2)).toUInt32 <<< 8) ||| (← rd (i * 4 + 3)).toUInt32)) w
  forRangeM 64 (fun j w => do
    let i := 16 + j
    writeIn w i (rotl32 ((← readIn w 0 i (i - 3)) ^^^ (← readIn w 0 i (i - 8)) ^^^
      (← readIn w 0 i (i - 14)) ^^^ (← readIn w 0 i (i - 16))) 1)) w

def round (w : List UInt32) (i : Nat) (s : Regs) : Option Regs := do
  let stage := i / 20
  let t := rotl32 s.a 5 + roundF stage s.b s.c s.d + s.e + (← readIn w 0 80 i) +
    (← readIn kK 0 4 stage)
  some ⟨t, s.a, rotl32 s.b 30, s.c, s.d⟩

def compress (w : List UInt32) (h : Regs) (rd : Nat → Option UInt8) : Option Regs := do
  let w ← expand rd w
  let s ← forRangeM 80 (round w) h
  some ⟨h.a + s.a, h.b + s.b, h.c + s.c, h.d + s.d, h.e + s.e⟩

def compressN (w : List UInt32) (h : Regs) (rd : Nat → Option UInt8) (n : Nat) : Option Regs :=
  forRangeM n (fun i h => compress w h fun j => rd (i * 64 + j)) h

/-- `emit(h, out)`. -/
def emit (h : Regs) (out : List UInt8) : Option (List UInt8) :=
  forRangeM 5 (fun i out => do
    let x ← readIn [h.a, h.b, h.c, h.d, h.e] 0 5 i
    let out ← writeIn out (i * 4) (x >>> 24).toUInt8
    let out ← writeIn out (i * 4 + 1) (x >>> 16).toUInt8
    let out ← writeIn out (i * 4 + 2) (x >>> 8).toUInt8
    writeIn out (i * 4 + 3) x.toUInt8) out

/-- `ws_sha1(msg, len, out)`; `w` and `last` are the arrays of the functions it calls. -/
def wsSha1 (w : List UInt32) (last msg : List UInt8) (len : Nat) (out : List UInt8) :
    Option (List UInt8) := do
  let full := len / 64
  let h ← compressN w init (readIn msg 0 len) full
  let rem := len - full * 64
  let (blocks, last) ← finalize last (msg.drop (full * 64)) rem (UInt64.ofNat len * 8)
  let h ← compressN w h (readIn last 0 128) blocks
  emit h out

section Passing

variable {rd : Nat → Option UInt8} {blk buf : List UInt8} {w : List UInt32}

/-- Two schedules that are filled are one. -/
theorem filled_unique {m : Nat → UInt32} {w w' : List UInt32} (h : Filled m 80 w)
    (h' : Filled m 80 w') : w = w' := by
  refine List.ext_getElem (h.1.trans h'.1.symm) fun t ht ht' => ?_
  have hlt : t < 80 := h.1 ▸ ht
  have heq := (h.2 t hlt).trans (h'.2 t hlt).symm
  rwa [List.getD_eq_getElem _ _ ht, List.getD_eq_getElem _ _ ht'] at heq

theorem expand_eq (h : Agrees rd blk) (hblk : 64 ≤ blk.length) (hw : w.length = 80) :
    expand rd w = some (Libws.Sha1.expand blk) := by
  have hread : ∀ k, k < 64 → rd k = some (blk.getD k 0) := fun k hk => h k (by omega)
  obtain ⟨w₁, hload, hw₁⟩ := forRangeM_inv (n := 16)
    (P := fun i w => Filled (Rfc3174.word (blk.take 64)) i w)
    (f := fun i w => do
      writeIn w i (((← rd (i * 4)).toUInt32 <<< 24) ||| ((← rd (i * 4 + 1)).toUInt32 <<< 16) |||
        ((← rd (i * 4 + 2)).toUInt32 <<< 8) ||| (← rd (i * 4 + 3)).toUInt32))
    (s := w) ⟨hw, fun t ht => absurd ht (Nat.not_lt_zero t)⟩ (by
      intro i w hi hfill
      rw [hread _ (by omega), hread _ (by omega), hread _ (by omega), hread _ (by omega)]
      have hcell : i < w.length := by rw [hfill.1]; omega
      refine ⟨_, writeIn_eq _ hcell, hfill.set (by omega) ?_⟩
      exact (Libws.Sha1.load_eq hblk hi).trans (Rfc3174.schedule_lt _ hi).symm)
  obtain ⟨w₂, hmix, hw₂⟩ := forRangeM_inv (n := 64)
    (P := fun j w => Filled (Rfc3174.word (blk.take 64)) (16 + j) w)
    (f := fun j w => do
      let i := 16 + j
      writeIn w i (rotl32 ((← readIn w 0 i (i - 3)) ^^^ (← readIn w 0 i (i - 8)) ^^^
        (← readIn w 0 i (i - 14)) ^^^ (← readIn w 0 i (i - 16))) 1))
    (s := w₁) hw₁ (by
      intro j w hj hfill
      have hlen := hfill.1
      have hword : ∀ k, 0 < k → k ≤ 16 → readIn w 0 (16 + j) (16 + j - k)
          = some (Rfc3174.schedule (Rfc3174.word (blk.take 64)) (16 + j - k)) := by
        intro k hpos hk
        rw [readIn_eq 0 (Nat.zero_le _) (by omega) (by omega), hfill.2 _ (by omega)]
      dsimp only
      rw [hword 3 (by decide) (by decide), hword 8 (by decide) (by decide),
        hword 14 (by decide) (by decide), hword 16 (by decide) (by decide)]
      refine ⟨_, writeIn_eq _ (by omega), hfill.set (by omega) ?_⟩
      rw [Libws.Sha1.rotl32_eq _ (by decide) (by decide), Nat.add_comm 16 j,
        Rfc3174.schedule_add]
      rfl)
  rw [expand, hload]
  refine hmix.trans (congrArg some ?_)
  exact filled_unique hw₂ (Libws.Sha1.expand_filled hblk)

theorem round_eq (hw : w.length = 80) {i : Nat} (hi : i < 80) (s : Regs) :
    round w i s = some (Libws.Sha1.round w i s) := by
  have hk : kK.length = 4 := rfl
  rw [round, readIn_eq 0 (Nat.zero_le i) hi (by omega),
    readIn_eq 0 (Nat.zero_le _) (by omega) (by omega)]
  rfl

theorem compress_eq (h : Agrees rd blk) (hblk : 64 ≤ blk.length) (hw : w.length = 80) (s : Regs) :
    compress w s rd = some (Libws.Sha1.compress s blk) := by
  have hfill := (Libws.Sha1.expand_filled hblk).1
  have hrounds : forRangeM 80 (round (Libws.Sha1.expand blk)) s
      = some (forRange 80 (Libws.Sha1.round (Libws.Sha1.expand blk)) s) :=
    forRangeM_eq (P := fun _ => True) trivial fun i t hi _ => ⟨round_eq hfill hi t, trivial⟩
  rw [compress, expand_eq h hblk hw, Option.bind_eq_bind, Option.bind_some, hrounds,
    Option.bind_eq_bind, Option.bind_some, Libws.Sha1.compress]

theorem compressN_eq (h : Agrees rd buf) {n : Nat} (hn : n * 64 ≤ buf.length) (hw : w.length = 80)
    (s : Regs) : compressN w s rd n = some (Libws.Sha1.compressN s buf n) := by
  refine forRangeM_eq (P := fun _ => True) trivial fun i t hi _ => ⟨?_, trivial⟩
  refine compress_eq (h.drop (i * 64)) ?_ hw t
  rw [List.length_drop]
  omega

/-- The words go out one behind the other. -/
theorem emit_eq (h : Regs) {out : List UInt8} (hout : out.length = 20) :
    emit h out = some (Libws.Sha1.emit h) := by
  have hwords : ∀ i, i < 5 → (Libws.Sha1.emit h).take (4 * (i + 1))
      = (Libws.Sha1.emit h).take (4 * i) ++
        Libws.Sha1.word ([h.a, h.b, h.c, h.d, h.e].getD i 0) := by
    intro i hi
    match i, hi with
    | 0, _ | 1, _ | 2, _ | 3, _ | 4, _ => rfl
  have hlen : (Libws.Sha1.emit h).length = 20 := rfl
  obtain ⟨out', hrun, r, hout', hr⟩ := forRangeM_inv (n := 5)
    (P := fun i out => ∃ r, out = (Libws.Sha1.emit h).take (4 * i) ++ r ∧ r.length = 20 - 4 * i)
    (f := fun i out => do
      let x ← readIn [h.a, h.b, h.c, h.d, h.e] 0 5 i
      let out ← writeIn out (i * 4) (x >>> 24).toUInt8
      let out ← writeIn out (i * 4 + 1) (x >>> 16).toUInt8
      let out ← writeIn out (i * 4 + 2) (x >>> 8).toUInt8
      writeIn out (i * 4 + 3) x.toUInt8)
    (s := out) ⟨out, rfl, hout⟩ (by
      rintro i out hi ⟨r, rfl, hr⟩
      have hread := readIn_eq (l := [h.a, h.b, h.c, h.d, h.e]) 0 (Nat.zero_le i) hi hi
      have hfront : i * 4 = ((Libws.Sha1.emit h).take (4 * i)).length := by
        rw [List.length_take, hlen]
        omega
      match r, (show 4 ≤ r.length by omega), hr with
      | r₀ :: r₁ :: r₂ :: r₃ :: r, _, hr =>
          refine ⟨_, ?_, r, rfl, ?_⟩
          · rw [hwords i hi, hread]
            generalize (Libws.Sha1.emit h).take (4 * i) = a at hfront
            generalize [h.a, h.b, h.c, h.d, h.e].getD i 0 = x
            rw [hfront]
            have hfirst : ∀ (l : List UInt8) v, 0 < l.length →
                writeIn (a ++ l) a.length v = some (a ++ l.set 0 v) :=
              fun l v hl => writeIn_append a (i := 0) v hl
            simp only [Option.bind_eq_bind, Option.bind_some]
            rw [hfirst _ _ (by simp), Option.bind_some, writeIn_append a _ (by simp),
              Option.bind_some, writeIn_append a _ (by simp), Option.bind_some,
              writeIn_append a _ (by simp)]
            simp [Libws.Sha1.word]
          · simp only [List.length_cons] at hr
            omega)
  obtain rfl : r = [] := List.eq_nil_of_length_eq_zero (by omega)
  rw [emit, hrun, hout', List.append_nil, List.take_of_length_le (by omega)]

/-- The tail is read up to `rem`. -/
theorem finalize_take (tail : List UInt8) (rem : Nat) (bits : UInt64) :
    Libws.Sha1.finalize (tail.take rem) rem bits = Libws.Sha1.finalize tail rem bits := by
  rw [Libws.Sha1.finalize, wsMemcpy_take]
  rfl

/-- The last buffer holds the blocks that are compressed. -/
theorem finalize_room (tail : List UInt8) (rem : Nat) (bits : UInt64) :
    (Libws.Sha1.finalize tail rem bits).1 * 64 ≤ 128 ∧
      (Libws.Sha1.finalize tail rem bits).2.length = 128 := by
  constructor
  · rw [Libws.Sha1.finalize]
    dsimp only
    split <;> decide
  · refine forRange_inv (P := fun _ (l : List UInt8) => l.length = 128) ?_ fun i l _ hl => ?_
    · rw [List.length_set, wsMemcpy_length, List.length_replicate]
    · rw [List.length_set, hl]

/-- **The checked digest.** -/
theorem wsSha1_eq {last msg out : List UInt8} {len : Nat} (hw : w.length = 80)
    (hlast : last.length = 128) (hlen : len ≤ msg.length) (hout : out.length = 20) :
    wsSha1 w last msg len out = some (Libws.wsSha1 (msg.take len)) := by
  have htake : (msg.take len).length = len := List.length_take_of_le hlen
  have hrem : len - len / 64 * 64 < 64 := by omega
  have htail : (msg.take len).drop (len / 64 * 64)
      = (msg.drop (len / 64 * 64)).take (len - len / 64 * 64) := List.drop_take ..
  have hfirst := compressN_eq (agrees_readIn hlen) (n := len / 64) (by omega) hw init
  have hfin := finalize_eq (UInt64.ofNat len * 8) hlast hrem
    (show _ ≤ (msg.drop (len / 64 * 64)).length by rw [List.length_drop]; omega)
  rw [Libws.wsSha1, htake, htail, finalize_take]
  rw [wsSha1, hfirst, Option.bind_eq_bind, Option.bind_some]
  dsimp only
  rw [hfin, Option.bind_eq_bind, Option.bind_some]
  -- the second round of blocks comes from the last buffer
  obtain ⟨hblocks, hbuf⟩ := finalize_room (msg.drop (len / 64 * 64)) (len - len / 64 * 64)
    (UInt64.ofNat len * 8)
  generalize Libws.Sha1.finalize (msg.drop (len / 64 * 64)) (len - len / 64 * 64)
    (UInt64.ofNat len * 8) = r at hblocks hbuf
  have hread := agrees_readIn (le_of_eq hbuf.symm)
  rw [List.take_of_length_le (le_of_eq hbuf)] at hread
  have hlastBlocks := compressN_eq hread (by omega) hw
    (Libws.Sha1.compressN init (msg.take len) (len / 64)) (n := r.1)
  rw [hlastBlocks, Option.bind_some, emit_eq _ hout]

end Passing

end Sha1

/-! ### The accept -/

/-- `ws_handshake_accept(key, key_len, out)`: the count, and `out` behind it. -/
def wsHandshakeAccept (st : Scratch) (key : List UInt8) (keyLen : Nat) (out : List UInt8) :
    Option (Except WsStatus (Nat × List UInt8)) := do
  if keyLen > wsKeyMax then some (.error .errTooSmall)
  else
    let cat ← wsMemcpy st.cat.toList 0 key keyLen
    let cat ← wsMemcpy cat keyLen kGuid 36
    let digest ← Sha1.wsSha1 st.w.toList st.last.toList cat (keyLen + 36) st.digest.toList
    some (.ok (← wsBase64 digest out))

/-- **The checked accept** of a key of at most `WS_KEY_MAX` bytes. -/
theorem wsHandshakeAccept_eq (st : Scratch) {key out : List UInt8} {keyLen : Nat}
    (hlen : keyLen ≤ key.length) (hmax : keyLen ≤ wsKeyMax) (hout : out.length = 28) :
    wsHandshakeAccept st key keyLen out
      = some (.ok (28, Libws.wsBase64 (Libws.wsSha1 (key.take keyLen ++ kGuid)))) := by
  have hguid : kGuid.length = 36 := by decide
  have hkey : (key.take keyLen).length = keyLen := List.length_take_of_le hlen
  have h64 : keyLen ≤ 64 := hmax
  -- the key and the GUID cover the front of `cat`
  obtain ⟨front, rest, hcat, hfront⟩ := exists_append_of_le
    (l := st.cat.toList) (n := keyLen) (by rw [Vector.length_toList]; omega)
  have hrest : rest.length = 100 - keyLen := by
    have := congrArg List.length hcat
    rw [Vector.length_toList, List.length_append, hfront] at this
    omega
  have hfirst : Libws.wsMemcpy st.cat.toList 0 key keyLen = key.take keyLen ++ rest := by
    have hcopy := wsMemcpy_append [] (front ++ rest) (key.take keyLen)
      (by rw [hkey, List.length_append]; omega)
    rw [List.nil_append, List.nil_append, List.length_nil, hkey, wsMemcpy_take,
      List.drop_left' hfront] at hcopy
    rw [hcat, hcopy]
  have hsecond : Libws.wsMemcpy (key.take keyLen ++ rest) keyLen kGuid 36
      = key.take keyLen ++ kGuid ++ rest.drop 36 := by
    have hcopy := wsMemcpy_append (key.take keyLen) rest kGuid (by rw [hguid]; omega)
    rwa [hkey, hguid] at hcopy
  have hmsg : (key.take keyLen ++ kGuid).length = keyLen + 36 := by
    rw [List.length_append, hkey, hguid]
  have hdigest : Sha1.wsSha1 st.w.toList st.last.toList
      (key.take keyLen ++ kGuid ++ rest.drop 36) (keyLen + 36) st.digest.toList
      = some (Libws.wsSha1 ((key.take keyLen ++ kGuid ++ rest.drop 36).take (keyLen + 36))) :=
    Sha1.wsSha1_eq Vector.length_toList Vector.length_toList
      (by rw [List.length_append, hmsg]; omega) Vector.length_toList
  rw [List.take_left' hmsg] at hdigest
  have h28 : (Libws.wsBase64 (Libws.wsSha1 (key.take keyLen ++ kGuid))).length = 28 := by
    rw [wsBase64_length, wsSha1_length]
  have hbase := wsBase64_eq (Libws.wsSha1 (key.take keyLen ++ kGuid))
    (show _ ≤ out.length by omega)
  rw [h28, List.drop_eq_nil_of_le (le_of_eq hout), List.append_nil] at hbase
  rw [wsHandshakeAccept, if_neg (by omega),
    wsMemcpy_eq (by rw [Vector.length_toList]; omega) hlen, Option.bind_eq_bind, Option.bind_some,
    hfirst, wsMemcpy_eq (by rw [List.length_append, hkey]; omega) (le_of_eq hguid.symm),
    Option.bind_some, hsecond, hdigest, Option.bind_some, hbase]
  rfl

end Libws.Checked
