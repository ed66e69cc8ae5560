import Mathlib.Algebra.Group.Nat.Even
import Mathlib.Data.List.Induction

/-!
# Support — bytes and big-endian numerals

`forall_uint8` checks a property of bytes on the 256 values.  `beVal bs` is the number the bytes
`bs` spell, most significant first, and `beBytes n v` the `n`-byte numeral of `v`.  They are inverse
to each other on numbers below `256 ^ n`.  A word put together from shifted bytes is the numeral of
its bytes (`toNat_load3`, `toNat_load4`), and a shifted word cut down to a byte is one of its
bytes (`shiftRight_toUInt8`).
-/

namespace Libws.Support

/-- What holds of the 256 values holds of every byte. -/
theorem forall_uint8 {P : UInt8 → Prop} (h : ∀ n < 256, P (UInt8.ofNat n)) (b : UInt8) : P b := by
  have := h b.toNat b.toNat_lt
  rwa [UInt8.ofNat_toNat] at this

/-! ### Numerals -/

/-- The number `bs` spells, most significant byte first. -/
def beVal (bs : List UInt8) : Nat := bs.foldl (fun v b => v * 256 + b.toNat) 0

/-- The `n` low bytes of `v`, most significant first. -/
def beBytes : Nat → Nat → List UInt8
  | 0, _ => []
  | n + 1, v => beBytes n (v / 256) ++ [UInt8.ofNat v]

@[simp] theorem beVal_nil : beVal [] = 0 := rfl

theorem beVal_concat (bs : List UInt8) (b : UInt8) :
    beVal (bs ++ [b]) = beVal bs * 256 + b.toNat := by
  simp [beVal]

@[simp] theorem beBytes_length : ∀ n v : Nat, (beBytes n v).length = n
  | 0, _ => rfl
  | n + 1, v => by rw [beBytes, List.length_append, beBytes_length n]; rfl

theorem beVal_lt (bs : List UInt8) : beVal bs < 256 ^ bs.length := by
  induction bs using List.reverseRecOn with
  | nil => simp
  | append_singleton bs b ih =>
      have hb := b.toNat_lt
      rw [beVal_concat, List.length_append, List.length_singleton, Nat.pow_succ]
      omega

theorem beVal_beBytes : ∀ {n v : Nat}, v < 256 ^ n → beVal (beBytes n v) = v
  | 0, v, h => by simp at h; simp [beBytes, h]
  | n + 1, v, h => by
      rw [Nat.pow_succ] at h
      rw [beBytes, beVal_concat, beVal_beBytes (by omega), UInt8.toNat_ofNat']
      omega

theorem beBytes_beVal (bs : List UInt8) : beBytes bs.length (beVal bs) = bs := by
  induction bs using List.reverseRecOn with
  | nil => rfl
  | append_singleton bs b ih =>
      have hb := b.toNat_lt
      have hdiv : (beVal bs * 256 + b.toNat) / 256 = beVal bs := by omega
      have hlow : UInt8.ofNat (beVal bs * 256 + b.toNat) = b := by
        apply UInt8.toNat.inj
        rw [UInt8.toNat_ofNat']
        omega
      rw [beVal_concat, List.length_append, List.length_singleton, beBytes, hdiv, ih, hlow]

/-- The numeral as the loop `buf[n - 1 - i] = (uint8_t)(v >> 8 * i)` writes it. -/
theorem beBytes_eq_reverse : ∀ n v : Nat,
    ((List.range n).map fun i => UInt8.ofNat (v / 256 ^ i)).reverse = beBytes n v
  | 0, _ => rfl
  | n + 1, v => by
      rw [List.range_succ_eq_map, List.map_cons, List.reverse_cons, List.map_map, beBytes,
        ← beBytes_eq_reverse n (v / 256)]
      simp [Function.comp_def, Nat.pow_succ', Nat.div_div_eq_div_mul]

/-! ### Bytes of a machine word -/

theorem shiftRight_toUInt8 (v : UInt64) {i : Nat} (hi : i < 8) :
    (v >>> (8 * UInt64.ofNat i)).toUInt8 = UInt8.ofNat (v.toNat / 256 ^ i) := by
  have hs : (8 * UInt64.ofNat i).toNat % 64 = 8 * i := by
    rw [UInt64.toNat_mul, UInt64.toNat_ofNat']
    show 8 * (i % 2 ^ 64) % 2 ^ 64 % 64 = _
    omega
  apply UInt8.toNat.inj
  rw [UInt64.toNat_toUInt8, UInt64.toNat_shiftRight, hs, UInt8.toNat_ofNat',
    Nat.shiftRight_eq_div_pow, Nat.pow_mul]

/-- Two words whose bits do not meet add up. -/
theorem toNat_or_eq_add {x y : UInt32} (n : Nat) (hx : 2 ^ n ∣ x.toNat) (hy : y.toNat < 2 ^ n) :
    (x ||| y).toNat = x.toNat + y.toNat := by
  obtain ⟨q, hq⟩ := hx
  rw [UInt32.toNat_or, hq, Nat.two_pow_add_eq_or_of_lt hy]

theorem toNat_shiftLeft_byte (b : UInt8) {n : UInt32} (hn : n.toNat ≤ 24) :
    (b.toUInt32 <<< n).toNat = b.toNat * 2 ^ n.toNat := by
  have hpow : 2 ^ n.toNat ≤ 2 ^ 24 := Nat.pow_le_pow_right (by decide) hn
  have hlt : b.toNat * 2 ^ n.toNat < 2 ^ 32 :=
    calc b.toNat * 2 ^ n.toNat < 2 ^ 8 * 2 ^ 24 :=
          Nat.mul_lt_mul_of_lt_of_le b.toNat_lt hpow (by decide)
      _ = 2 ^ 32 := by decide
  rw [UInt32.toNat_shiftLeft, UInt8.toNat_toUInt32, Nat.mod_eq_of_lt (show n.toNat < 32 by omega),
    Nat.shiftLeft_eq, Nat.mod_eq_of_lt hlt]

/-- A big-endian load of three bytes. -/
theorem toNat_load3 (a b c : UInt8) :
    ((a.toUInt32 <<< 16) ||| (b.toUInt32 <<< 8) ||| c.toUInt32).toNat = beVal [a, b, c] := by
  have ha : (a.toUInt32 <<< 16).toNat = a.toNat * 2 ^ 16 := toNat_shiftLeft_byte a (by decide)
  have hb : (b.toUInt32 <<< 8).toNat = b.toNat * 2 ^ 8 := toNat_shiftLeft_byte b (by decide)
  have hc : c.toUInt32.toNat = c.toNat := UInt8.toNat_toUInt32 c
  have hb8 := b.toNat_lt
  have hc8 := c.toNat_lt
  have hab := toNat_or_eq_add (x := a.toUInt32 <<< 16) (y := b.toUInt32 <<< 8) 16 (by omega)
    (by omega)
  rw [toNat_or_eq_add 8 (by omega) (by omega), hab, ha, hb, hc]
  simp only [beVal, List.foldl]
  omega

/-- A big-endian load of four bytes. -/
theorem toNat_load4 (a b c d : UInt8) :
    ((a.toUInt32 <<< 24) ||| (b.toUInt32 <<< 16) ||| (c.toUInt32 <<< 8) ||| d.toUInt32).toNat
      = beVal [a, b, c, d] := by
  have ha : (a.toUInt32 <<< 24).toNat = a.toNat * 2 ^ 24 := toNat_shiftLeft_byte a (by decide)
  have hb : (b.toUInt32 <<< 16).toNat = b.toNat * 2 ^ 16 := toNat_shiftLeft_byte b (by decide)
  have hc : (c.toUInt32 <<< 8).toNat = c.toNat * 2 ^ 8 := toNat_shiftLeft_byte c (by decide)
  have hd : d.toUInt32.toNat = d.toNat := UInt8.toNat_toUInt32 d
  have hb8 := b.toNat_lt
  have hc8 := c.toNat_lt
  have hd8 := d.toNat_lt
  have hab := toNat_or_eq_add (x := a.toUInt32 <<< 24) (y := b.toUInt32 <<< 16) 24 (by omega)
    (by omega)
  have habc := toNat_or_eq_add (x := a.toUInt32 <<< 24 ||| b.toUInt32 <<< 16)
    (y := c.toUInt32 <<< 8) 16 (by omega) (by omega)
  rw [toNat_or_eq_add 8 (by omega) (by omega), habc, hab, ha, hb, hc, hd]
  simp only [beVal, List.foldl]
  omega

end Libws.Support
