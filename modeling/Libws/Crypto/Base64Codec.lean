import Libws.Util.Checked
import Libws.Crypto.Base64

/-!
# Crypto — `ws_base64` is the RFC 4648 encoding

`Rfc4648.decode` is a strict decoder, written from the standard and not from `base64.c`: characters
outside the alphabet, a missing or misplaced `=` and pad bits that are not zero are all refused.

* `decode_wsBase64`: it gives every input back from what `ws_base64` writes.
* `decode_some`: it accepts nothing else, so a text it accepts is the encoding of its meaning.
* `Checked.wsBase64_eq`: in its output array `ws_base64` stores the encoding, and nothing behind it.
-/

namespace Libws.Rfc4648
open Libws.Support

/-- The value of a character of the alphabet: `A`-`Z`, `a`-`z`, `0`-`9`, `+`, `/`. -/
def value (c : UInt8) : Option Nat :=
  if 0x41 ≤ c ∧ c ≤ 0x5A then some (c.toNat - 0x41)
  else if 0x61 ≤ c ∧ c ≤ 0x7A then some (c.toNat - 0x61 + 26)
  else if 0x30 ≤ c ∧ c ≤ 0x39 then some (c.toNat - 0x30 + 52)
  else if c = 0x2B then some 62
  else if c = 0x2F then some 63
  else none

/-- The number that characters spell, six bits each, the first the most significant. -/
def sextets : List UInt8 → Option Nat :=
  List.foldlM (fun v c => do some (v * 64 + (← value c))) 0

/-- The last group, `abc=` or `ab==`: two or four bits are left over, and must be zero. -/
def decodeLast (a b c : UInt8) : Option (List UInt8) := do
  if c = 0x3D then
    let v ← sextets [a, b]
    if v % 2 ^ 4 = 0 then some (beBytes 1 (v / 2 ^ 4)) else none
  else
    let v ← sextets [a, b, c]
    if v % 2 ^ 2 = 0 then some (beBytes 2 (v / 2 ^ 2)) else none

/-- The strict decoder: groups of four, with padding in the last group only. -/
def decode : List UInt8 → Option (List UInt8)
  | [] => some []
  | a :: b :: c :: d :: rest => do
    if rest = [] ∧ d = 0x3D then decodeLast a b c
    else
      let v ← sextets [a, b, c, d]
      some (beBytes 3 v ++ (← decode rest))
  | _ => none

end Libws.Rfc4648

namespace Libws
open Libws.Support
open Libws.Rfc4648 (value sextets decode)

/-! ### Characters and sextets -/

theorem value_kB64 : ∀ n < 64, value (kB64.getD n 0) = some n := by decide +kernel

theorem value_some {c : UInt8} {n : Nat} (h : value c = some n) : n < 64 ∧ kB64.getD n 0 = c :=
  forall_uint8 (P := fun c => ∀ n ∈ value c, n < 64 ∧ kB64.getD n 0 = c) (by decide +kernel) c n h

theorem kB64_ne_pad : ∀ n < 64, kB64.getD n 0 ≠ 0x3D := by decide +kernel

/-- One more character spells one more sextet. -/
theorem sextets_concat {cs : List UInt8} {c : UInt8} {v : Nat} :
    sextets (cs ++ [c]) = some v ↔ sextets cs = some (v / 64) ∧ c = kB64.getD (v % 64) 0 := by
  have hsplit : sextets (cs ++ [c])
      = (sextets cs).bind fun u => (value c).bind fun n => some (u * 64 + n) := by
    rw [sextets, List.foldlM_append]
    exact bind_congr fun u => bind_pure _
  rw [hsplit]
  constructor
  · intro h
    obtain ⟨u, hu, h⟩ := Option.bind_eq_some_iff.mp h
    obtain ⟨n, hn, h⟩ := Option.bind_eq_some_iff.mp h
    obtain ⟨hlt, hc⟩ := value_some hn
    have hv : u * 64 + n = v := Option.some.inj h
    rw [show v / 64 = u by omega, show v % 64 = n by omega]
    exact ⟨hu, hc.symm⟩
  · rintro ⟨hu, rfl⟩
    rw [hu, value_kB64 _ (Nat.mod_lt v (by decide)), Option.bind_some, Option.bind_some,
      Nat.div_add_mod']

/-- The characters that spell `v`, by their number: its sextets, and no more of them. -/
theorem sextets_two {a b : UInt8} {v : Nat} : sextets [a, b] = some v ↔
    (0 = v / 64 / 64 ∧ a = kB64.getD (v / 64 % 64) 0) ∧ b = kB64.getD (v % 64) 0 := by
  rw [show [a, b] = [] ++ [a] ++ [b] from rfl, sextets_concat, sextets_concat]
  exact and_congr_left fun _ => and_congr_left fun _ => Option.some_inj

theorem sextets_three {a b c : UInt8} {v : Nat} : sextets [a, b, c] = some v ↔
    ((0 = v / 64 / 64 / 64 ∧ a = kB64.getD (v / 64 / 64 % 64) 0) ∧
      b = kB64.getD (v / 64 % 64) 0) ∧ c = kB64.getD (v % 64) 0 := by
  rw [show [a, b, c] = [a, b] ++ [c] from rfl, sextets_concat, sextets_two]

theorem sextets_four {a b c d : UInt8} {v : Nat} : sextets [a, b, c, d] = some v ↔
    (((0 = v / 64 / 64 / 64 / 64 ∧ a = kB64.getD (v / 64 / 64 / 64 % 64) 0) ∧
      b = kB64.getD (v / 64 / 64 % 64) 0) ∧ c = kB64.getD (v / 64 % 64) 0) ∧
      d = kB64.getD (v % 64) 0 := by
  rw [show [a, b, c, d] = [a, b, c] ++ [d] from rfl, sextets_concat, sextets_three]

/-! ### The groups -/

/-- The four characters of a group are the sextets of its 24 bits. -/
theorem enc3_eq (b₀ b₁ b₂ : UInt8) : enc3 b₀ b₁ b₂ =
    [kB64.getD (beVal [b₀, b₁, b₂] / 64 / 64 / 64 % 64) 0,
     kB64.getD (beVal [b₀, b₁, b₂] / 64 / 64 % 64) 0, kB64.getD (beVal [b₀, b₁, b₂] / 64 % 64) 0,
     kB64.getD (beVal [b₀, b₁, b₂] % 64) 0] := by
  have hmask : ∀ x : UInt32, (x &&& 0x3F).toNat = x.toNat % 64 := by
    intro x
    rw [UInt32.toNat_and]
    exact Nat.and_two_pow_sub_one_eq_mod x.toNat 6
  simp only [enc3, hmask, UInt32.toNat_shiftRight, toNat_load3, Nat.shiftRight_eq_div_pow,
    Nat.div_div_eq_div_mul]
  rfl

theorem enc3_length (b₀ b₁ b₂ : UInt8) : (enc3 b₀ b₁ b₂).length = 4 := rfl

theorem wsBase64_one (b₀ : UInt8) : wsBase64 [b₀] =
    [kB64.getD (beVal [b₀, 0, 0] / 64 / 64 / 64 % 64) 0,
     kB64.getD (beVal [b₀, 0, 0] / 64 / 64 % 64) 0, 0x3D, 0x3D] := by
  show ((enc3 b₀ 0 0).set 3 0x3D).set 2 0x3D = _
  rw [enc3_eq]
  rfl

theorem wsBase64_two (b₀ b₁ : UInt8) : wsBase64 [b₀, b₁] =
    [kB64.getD (beVal [b₀, b₁, 0] / 64 / 64 / 64 % 64) 0,
     kB64.getD (beVal [b₀, b₁, 0] / 64 / 64 % 64) 0, kB64.getD (beVal [b₀, b₁, 0] / 64 % 64) 0,
     0x3D] := by
  show (enc3 b₀ b₁ 0).set 3 0x3D = _
  rw [enc3_eq]
  rfl

theorem group_lt (b₀ b₁ b₂ : UInt8) : beVal [b₀, b₁, b₂] < 2 ^ 24 :=
  calc beVal [b₀, b₁, b₂] < 256 ^ 3 := beVal_lt [b₀, b₁, b₂]
    _ = 2 ^ 24 := by decide

/-- A byte and two zero bytes: its eight bits and four zeros are the first two sextets. -/
theorem group_one (b₀ : UInt8) : beVal [b₀, 0, 0] / 64 / 64 = beVal [b₀] * 2 ^ 4 := by
  have h₀ : (0 : UInt8).toNat = 0 := rfl
  simp only [beVal, List.foldl, h₀]
  omega

/-- Two bytes and a zero byte: their sixteen bits and two zeros are the first three sextets. -/
theorem group_two (b₀ b₁ : UInt8) : beVal [b₀, b₁, 0] / 64 = beVal [b₀, b₁] * 2 ^ 2 := by
  have h₀ : (0 : UInt8).toNat = 0 := rfl
  simp only [beVal, List.foldl, h₀]
  omega

/-! ### The two round trips -/

/-- **What was encoded is given back.** -/
theorem decode_wsBase64 : ∀ inp : List UInt8, decode (wsBase64 inp) = some inp
  | b₀ :: b₁ :: b₂ :: rest => by
      have hlt := group_lt b₀ b₁ b₂
      have hpad := kB64_ne_pad (beVal [b₀, b₁, b₂] % 64) (Nat.mod_lt _ (by decide))
      rw [wsBase64, enc3_eq]
      simp only [List.cons_append, List.nil_append, decode]
      rw [if_neg (fun h => hpad h.2), sextets_four.mpr ⟨⟨⟨⟨by omega, rfl⟩, rfl⟩, rfl⟩, rfl⟩,
        decode_wsBase64 rest]
      exact congrArg (fun bs => some (bs ++ rest)) (beBytes_beVal [b₀, b₁, b₂])
  | [] => rfl
  | [b₀] => by
      have hlt := group_lt b₀ 0 0
      rw [wsBase64_one, decode, if_pos ⟨rfl, rfl⟩, Rfc4648.decodeLast, if_pos rfl,
        sextets_two.mpr ⟨⟨by omega, rfl⟩, rfl⟩, group_one, Option.bind_eq_bind, Option.bind_some,
        if_pos (Nat.mul_mod_left _ _), Nat.mul_div_cancel _ (by decide)]
      exact congrArg some (beBytes_beVal [b₀])
  | [b₀, b₁] => by
      have hlt := group_lt b₀ b₁ 0
      have hpad := kB64_ne_pad (beVal [b₀, b₁, 0] / 64 % 64) (Nat.mod_lt _ (by decide))
      rw [wsBase64_two, decode, if_pos ⟨rfl, rfl⟩, Rfc4648.decodeLast, if_neg hpad,
        sextets_three.mpr ⟨⟨⟨by omega, rfl⟩, rfl⟩, rfl⟩, group_two, Option.bind_eq_bind,
        Option.bind_some, if_pos (Nat.mul_mod_left _ _), Nat.mul_div_cancel _ (by decide)]
      exact congrArg some (beBytes_beVal [b₀, b₁])

/-- A full group is the encoding of its three bytes. -/
theorem wsBase64_of_four {a b c d : UInt8} {v : Nat} (h : sextets [a, b, c, d] = some v)
    (rest : List UInt8) : a :: b :: c :: d :: wsBase64 rest = wsBase64 (beBytes 3 v ++ rest) := by
  obtain ⟨⟨⟨⟨hlt, rfl⟩, rfl⟩, rfl⟩, rfl⟩ := sextets_four.mp h
  have hbytes : beBytes 3 v = [UInt8.ofNat (v / 256 / 256), UInt8.ofNat (v / 256), UInt8.ofNat v] :=
    rfl
  have hv : beVal (beBytes 3 v) = v := beVal_beBytes (by omega)
  rw [hbytes] at hv ⊢
  rw [List.cons_append, List.cons_append, List.cons_append, List.nil_append, wsBase64, enc3_eq, hv]
  rfl

/-- Two characters and zero pad bits are the encoding of one byte. -/
theorem wsBase64_of_two {a b : UInt8} {v : Nat} (h : sextets [a, b] = some v)
    (hz : v % 2 ^ 4 = 0) : [a, b, 0x3D, 0x3D] = wsBase64 (beBytes 1 (v / 2 ^ 4)) := by
  obtain ⟨⟨hlt, rfl⟩, rfl⟩ := sextets_two.mp h
  have hv : beVal [UInt8.ofNat (v / 2 ^ 4)] = v / 2 ^ 4 := beVal_beBytes (n := 1) (by omega)
  have hgroup : beVal [UInt8.ofNat (v / 2 ^ 4), 0, 0] / 64 / 64 = v := by
    rw [group_one, hv, Nat.div_mul_cancel (Nat.dvd_of_mod_eq_zero hz)]
  show _ = wsBase64 [UInt8.ofNat (v / 2 ^ 4)]
  rw [wsBase64_one, hgroup]

/-- Three characters and zero pad bits are the encoding of two bytes. -/
theorem wsBase64_of_three {a b c : UInt8} {v : Nat} (h : sextets [a, b, c] = some v)
    (hz : v % 2 ^ 2 = 0) : [a, b, c, 0x3D] = wsBase64 (beBytes 2 (v / 2 ^ 2)) := by
  obtain ⟨⟨⟨hlt, rfl⟩, rfl⟩, rfl⟩ := sextets_three.mp h
  have hv : beVal [UInt8.ofNat (v / 2 ^ 2 / 256), UInt8.ofNat (v / 2 ^ 2)] = v / 2 ^ 2 :=
    beVal_beBytes (n := 2) (by omega)
  have hgroup : beVal [UInt8.ofNat (v / 2 ^ 2 / 256), UInt8.ofNat (v / 2 ^ 2), 0] / 64 = v := by
    rw [group_two, hv, Nat.div_mul_cancel (Nat.dvd_of_mod_eq_zero hz)]
  show _ = wsBase64 [UInt8.ofNat (v / 2 ^ 2 / 256), UInt8.ofNat (v / 2 ^ 2)]
  rw [wsBase64_two, hgroup]

theorem decodeLast_some {a b c : UInt8} {inp : List UInt8}
    (h : Rfc4648.decodeLast a b c = some inp) : [a, b, c, 0x3D] = wsBase64 inp := by
  rw [Rfc4648.decodeLast] at h
  split at h
  · rename_i hc
    obtain ⟨v, hv, hbits⟩ := Option.bind_eq_some_iff.mp h
    obtain ⟨hz, hbytes⟩ := Option.ite_none_right_eq_some.mp hbits
    rw [hc, ← Option.some.inj hbytes]
    exact wsBase64_of_two hv hz
  · obtain ⟨v, hv, hbits⟩ := Option.bind_eq_some_iff.mp h
    obtain ⟨hz, hbytes⟩ := Option.ite_none_right_eq_some.mp hbits
    rw [← Option.some.inj hbytes]
    exact wsBase64_of_three hv hz

/-- **Nothing else is accepted.** -/
theorem decode_some : ∀ {text inp : List UInt8}, decode text = some inp → text = wsBase64 inp
  | [], inp, h => by
      obtain rfl := Option.some.inj h
      rfl
  | [_], _, h | [_, _], _, h | [_, _, _], _, h => by cases h
  | a :: b :: c :: d :: rest, inp, h => by
      rw [decode] at h
      split at h
      · rename_i hlast
        obtain ⟨rfl, rfl⟩ := hlast
        exact decodeLast_some h
      · obtain ⟨v, hv, h⟩ := Option.bind_eq_some_iff.mp h
        obtain ⟨bs, hbs, h⟩ := Option.bind_eq_some_iff.mp h
        obtain rfl := Option.some.inj h
        rw [decode_some hbs]
        exact wsBase64_of_four hv bs

end Libws

namespace Libws.Checked
open Libws.Support

/-! ### The output array

`base64.c` over its two arrays: a byte is loaded only from the input and stored only in `out`. -/

/-- `enc3(b + i, out + o)`. -/
def enc3 (b : List UInt8) (i : Nat) (out : List UInt8) (o : Nat) : Option (List UInt8) := do
  let c := Libws.enc3 (← readIn b 0 b.length i) (← readIn b 0 b.length (i + 1))
    (← readIn b 0 b.length (i + 2))
  let out ← writeIn out o (c.getD 0 0)
  let out ← writeIn out (o + 1) (c.getD 1 0)
  let out ← writeIn out (o + 2) (c.getD 2 0)
  writeIn out (o + 3) (c.getD 3 0)

/-- `enc_tail(in + i, rem, out + o)`, with the count it returns. -/
def encTail (inp : List UInt8) (i rem : Nat) (out : List UInt8) (o : Nat) :
    Option (Nat × List UInt8) := do
  let b ← wsMemcpy [0, 0, 0] 0 (inp.drop i) rem
  let out ← enc3 b 0 out o
  let out ← writeIn out (o + 3) 0x3D
  if rem = 1 then some (4, ← writeIn out (o + 2) 0x3D) else some (4, out)

/-- The loop over whole groups; `none` as well when `fuel` runs out. -/
def encGroups (inp : List UInt8) : Nat → Nat → Nat → List UInt8 →
    Option (Nat × Nat × List UInt8)
  | 0, _, _, _ => none
  | fuel + 1, i, o, out => do
    if i + 3 ≤ inp.length then encGroups inp fuel (i + 3) (o + 4) (← enc3 inp i out o)
    else some (i, o, out)

/-- What follows the loop. -/
def encEnd (inp : List UInt8) : Nat × Nat × List UInt8 → Option (Nat × List UInt8)
  | (i, o, out) => do
    let rem := inp.length - i
    if rem ≠ 0 then
      let (n, out) ← encTail inp i rem out o
      some (o + n, out)
    else some (o, out)

/-- `ws_base64(in, len, out)`: the count, and `out` behind it. -/
def wsBase64 (inp out : List UInt8) : Option (Nat × List UInt8) :=
  (encGroups inp (inp.length + 1) 0 0 out).bind (encEnd inp)

theorem enc3_eq {b : List UInt8} {i : Nat} (a : List UInt8) {r : List UInt8}
    (hb : i + 3 ≤ b.length) (hr : 4 ≤ r.length) :
    enc3 b i (a ++ r) a.length = some (a ++ (Libws.enc3 (b.getD i 0) (b.getD (i + 1) 0)
      (b.getD (i + 2) 0) ++ r.drop 4)) := by
  have hget : ∀ j, i ≤ j → j < i + 3 → readIn b 0 b.length j = some (b.getD j 0) :=
    fun j _ hj => readIn_eq 0 (Nat.zero_le j) (by omega) (by omega)
  have hfirst : ∀ v, writeIn (a ++ r) a.length v = some (a ++ r.set 0 v) :=
    fun v => writeIn_append a (i := 0) v (by omega)
  rw [enc3, hget i (by omega) (by omega), hget (i + 1) (by omega) (by omega),
    hget (i + 2) (by omega) (by omega)]
  simp only [Option.bind_eq_bind, Option.bind_some]
  rw [hfirst, Option.bind_some, writeIn_append a _ (by rw [List.length_set]; omega),
    Option.bind_some, writeIn_append a _ (by rw [List.length_set, List.length_set]; omega),
    Option.bind_some,
    writeIn_append a _ (by rw [List.length_set, List.length_set, List.length_set]; omega)]
  match r, hr with
  | _ :: _ :: _ :: _ :: r, _ => rfl

/-- The tail goes through the local `b[3]`, where the bytes behind it are zero. -/
theorem encTail_eq (front a : List UInt8) {rest r : List UInt8} (h₀ : rest ≠ [])
    (h : rest.length < 3) (hr : 4 ≤ r.length) :
    encTail (front ++ rest) front.length rest.length (a ++ r) a.length
      = some (4, a ++ (Libws.encTail rest ++ r.drop 4)) := by
  have hcopy : wsMemcpy [0, 0, 0] 0 rest rest.length
      = some (rest ++ [0, 0, 0].drop rest.length) := by
    rw [wsMemcpy_eq (by simp only [List.length_cons, List.length_nil]; omega) (Nat.le_refl _)]
    exact congrArg some (wsMemcpy_append [] [0, 0, 0] rest (Nat.le_of_lt h))
  rw [encTail, List.drop_left, hcopy, Option.bind_eq_bind, Option.bind_some]
  match rest, h₀, h with
  | [b₀], _, _ =>
      rw [enc3_eq a (Nat.le_refl 3) hr, Option.bind_some,
        writeIn_append_mid a _ _ (by rw [enc3_length]; decide), Option.bind_some,
        if_pos List.length_singleton,
        writeIn_append_mid a _ _ (by rw [List.length_set, enc3_length]; decide)]
      rfl
  | [b₀, b₁], _, _ =>
      rw [enc3_eq a (Nat.le_refl 3) hr, Option.bind_some,
        writeIn_append_mid a _ _ (by rw [enc3_length]; decide)]
      rfl

theorem encEnd_eq (front a : List UInt8) {rest r : List UInt8} (h : rest.length < 3)
    (hr : (Libws.wsBase64 rest).length ≤ r.length) :
    encEnd (front ++ rest) (front.length, a.length, a ++ r)
      = some (a.length + (Libws.wsBase64 rest).length,
          a ++ (Libws.wsBase64 rest ++ r.drop (Libws.wsBase64 rest).length)) := by
  have hrem : (front ++ rest).length - front.length = rest.length := by
    rw [List.length_append, Nat.add_sub_cancel_left]
  by_cases h₀ : rest = []
  · rw [encEnd, hrem, if_neg (not_not_intro (List.length_eq_zero_iff.mpr h₀)), h₀]
    rfl
  · have htail : Libws.wsBase64 rest = Libws.encTail rest := by
      match rest, h₀, h with
      | [b₀], _, _ => rfl
      | [b₀, b₁], _, _ => rfl
    rw [htail, encTail_length] at hr ⊢
    rw [encEnd, hrem, if_pos (mt List.length_eq_zero_iff.mp h₀), encTail_eq front a h₀ h hr]
    rfl

/-- **The loop and what follows it.**  Ahead are `rest` of the input and `r` of the array: the
encoding of the one covers the front of the other, and the count grows by its length. -/
theorem encGroups_eq {fuel : Nat} (front a : List UInt8) {rest r : List UInt8}
    (hfuel : rest.length < fuel) (hr : (Libws.wsBase64 rest).length ≤ r.length) :
    (encGroups (front ++ rest) fuel front.length a.length (a ++ r)).bind (encEnd (front ++ rest))
      = some (a.length + (Libws.wsBase64 rest).length,
          a ++ (Libws.wsBase64 rest ++ r.drop (Libws.wsBase64 rest).length)) := by
  induction fuel generalizing front a rest r with
  | zero => cases hfuel
  | succ fuel ih =>
      match rest, hfuel, hr with
      | b₀ :: b₁ :: b₂ :: rest, hfuel, hr =>
          have henc : Libws.wsBase64 (b₀ :: b₁ :: b₂ :: rest)
              = Libws.enc3 b₀ b₁ b₂ ++ Libws.wsBase64 rest := by rw [Libws.wsBase64]
          have hlen : (Libws.wsBase64 (b₀ :: b₁ :: b₂ :: rest)).length
              = 4 + (Libws.wsBase64 rest).length := by
            rw [henc, List.length_append, enc3_length]
          have hmore : front.length + 3 ≤ (front ++ b₀ :: b₁ :: b₂ :: rest).length := by
            simp only [List.length_append, List.length_cons]; omega
          -- the state after the turn, with the group moved behind both fronts
          have hnext := @ih (front ++ [b₀, b₁, b₂]) (a ++ Libws.enc3 b₀ b₁ b₂) rest (r.drop 4)
            (by simp only [List.length_cons] at hfuel; omega) (by rw [List.length_drop]; omega)
          rw [List.append_assoc front, List.append_assoc a, List.append_assoc a, List.length_append,
            List.length_append, enc3_length, List.drop_drop, Nat.add_assoc, ← hlen,
            ← List.append_assoc (Libws.enc3 b₀ b₁ b₂), ← henc] at hnext
          rw [encGroups, if_pos hmore, enc3_eq a hmore (by omega), ← hnext]
          simp
      | [], _, hr | [_], _, hr | [_, _], _, hr =>
          rw [encGroups, if_neg (by simp)]
          exact encEnd_eq front a (by simp) hr

theorem wsBase64_eq (inp : List UInt8) {out : List UInt8}
    (h : (Libws.wsBase64 inp).length ≤ out.length) :
    wsBase64 inp out = some ((Libws.wsBase64 inp).length,
      Libws.wsBase64 inp ++ out.drop (Libws.wsBase64 inp).length) := by
  have := encGroups_eq [] [] (Nat.lt_succ_self inp.length) h
  rwa [List.length_nil, Nat.zero_add] at this

end Libws.Checked

namespace Libws
open Libws.Support

/-- **`ws_base64` is RFC 4648.**  In an array with room for it, an input of `n` bytes covers exactly
the first `4⌈n/3⌉` bytes, which is the count returned; the strict decoder gives the input back from
them, and accepts no other text; so no two inputs have one encoding. -/
theorem base64_is_rfc4648 :
    (∀ inp out : List UInt8, 4 * ((inp.length + 2) / 3) ≤ out.length →
      Checked.wsBase64 inp out = some (4 * ((inp.length + 2) / 3),
        wsBase64 inp ++ out.drop (4 * ((inp.length + 2) / 3)))) ∧
    (∀ inp : List UInt8, (wsBase64 inp).length = 4 * ((inp.length + 2) / 3) ∧
      Rfc4648.decode (wsBase64 inp) = some inp) ∧
    (∀ text inp : List UInt8, Rfc4648.decode text = some inp → text = wsBase64 inp) ∧
    Function.Injective wsBase64 := by
  refine ⟨?_, fun inp => ⟨wsBase64_length inp, decode_wsBase64 inp⟩, fun _ _ => decode_some, ?_⟩
  · intro inp out h
    rw [← wsBase64_length] at h ⊢
    exact Checked.wsBase64_eq inp h
  · intro x y hxy
    exact Option.some.inj ((decode_wsBase64 x).symm.trans (hxy ▸ decode_wsBase64 y))

/-- `"ab"` into an array of six bytes, the last two of which stay; a text that differs from its
encoding in the pad bits is refused. -/
theorem base64_is_rfc4648_ab :
    Checked.wsBase64 [0x61, 0x62] [1, 2, 3, 4, 5, 6] = some (4, [0x59, 0x57, 0x49, 0x3D, 5, 6]) ∧
    Rfc4648.decode [0x59, 0x57, 0x49, 0x3D] = some [0x61, 0x62] ∧
    Rfc4648.decode [0x59, 0x57, 0x4A, 0x3D] ≠ some [0x61, 0x62] := by
  obtain ⟨hstores, hback, honly, -⟩ := base64_is_rfc4648
  refine ⟨hstores [0x61, 0x62] [1, 2, 3, 4, 5, 6] (by decide), (hback [0x61, 0x62]).2, ?_⟩
  intro h
  exact absurd (honly _ _ h) (by decide)

end Libws
