import Mathlib.Algebra.Group.Nat.Even
import Mathlib.Data.List.Basic

/-!
# Support — decimal numerals in ASCII

`decimal n` is the numeral of `n` and `decValue` reads one back, digit by digit from the left.

* `decimal_lt`, `decimal_ge`: the numeral grows by its last digit.
* `decValue_decimal`, `decimal_inj`: reading undoes writing.
* `append_sep_inj`: a text is cut in one way at the first place of a separator.
-/

namespace Libws.Support

/-- An ASCII digit. -/
def IsDigit (b : UInt8) : Prop := 48 ≤ b.toNat ∧ b.toNat ≤ 57

instance : DecidablePred IsDigit := fun _ => inferInstanceAs (Decidable (_ ∧ _))

/-- The numeral of `n`, most significant digit first. -/
def decimal (n : Nat) : List UInt8 := (Nat.toDigits 10 n).map Char.toUInt8

/-- One more digit on the right. -/
def decStep (v : Nat) (b : UInt8) : Nat := v * 10 + (b.toNat - 48)

/-- The value of a numeral. -/
def decValue (s : List UInt8) : Nat := s.foldl decStep 0

theorem toNat_digitByte {d : Nat} (h : d < 10) : (UInt8.ofNat (48 + d)).toNat = 48 + d := by
  rw [UInt8.toNat_ofNat_of_lt' (by change 48 + d < 256; omega)]

theorem isDigit_digitByte {d : Nat} (h : d < 10) : IsDigit (UInt8.ofNat (48 + d)) := by
  rw [IsDigit, toNat_digitByte h]
  omega

theorem toUInt8_digitChar : ∀ d < 10, d.digitChar.toUInt8 = UInt8.ofNat (48 + d) := by
  decide

theorem decimal_lt {n : Nat} (h : n < 10) : decimal n = [UInt8.ofNat (48 + n)] := by
  rw [decimal, Nat.toDigits_of_lt_base h, List.map_singleton, toUInt8_digitChar n h]

theorem decimal_ge {n : Nat} (h : 10 ≤ n) :
    decimal n = decimal (n / 10) ++ [UInt8.ofNat (48 + n % 10)] := by
  rw [decimal, Nat.toDigits_of_base_le (by decide) h, List.map_append, List.map_singleton,
    toUInt8_digitChar _ (Nat.mod_lt n (by decide))]
  rfl

theorem decimal_length_le {n k : Nat} (hk : 0 < k) (h : n < 10 ^ k) : (decimal n).length ≤ k := by
  rw [decimal, List.length_map]
  exact (Nat.length_toDigits_le_iff (by decide) hk).mpr h

theorem decimal_ne_nil (n : Nat) : decimal n ≠ [] := by
  rw [decimal, Ne, List.map_eq_nil_iff]
  exact Nat.toDigits_ne_nil

/-- What a numeral consists of, and what it is worth. -/
theorem decimal_spec (n : Nat) : (∀ b ∈ decimal n, IsDigit b) ∧ decValue (decimal n) = n := by
  induction n using Nat.strongRecOn with
  | ind n ih =>
      rcases Nat.lt_or_ge n 10 with hlt | hge
      · rw [decimal_lt hlt]
        refine ⟨fun b hb => ?_, ?_⟩
        · rw [List.mem_singleton.mp hb]
          exact isDigit_digitByte hlt
        · simp only [decValue, List.foldl_cons, List.foldl_nil, decStep, toNat_digitByte hlt]
          omega
      · obtain ⟨hdigits, hvalue⟩ := ih (n / 10) (by omega)
        have hmod : n % 10 < 10 := Nat.mod_lt n (by decide)
        rw [decimal_ge hge]
        refine ⟨fun b hb => ?_, ?_⟩
        · rcases List.mem_append.mp hb with hb | hb
          · exact hdigits b hb
          · rw [List.mem_singleton.mp hb]
            exact isDigit_digitByte hmod
        · rw [decValue] at hvalue
          rw [decValue, List.foldl_append, hvalue]
          simp only [List.foldl_cons, List.foldl_nil, decStep, toNat_digitByte hmod]
          omega

theorem decimal_isDigit {n : Nat} {b : UInt8} (h : b ∈ decimal n) : IsDigit b :=
  (decimal_spec n).1 b h

theorem decValue_decimal (n : Nat) : decValue (decimal n) = n := (decimal_spec n).2

theorem decimal_inj {m n : Nat} (h : decimal m = decimal n) : m = n := by
  rw [← decValue_decimal m, h, decValue_decimal]

/-! ### Separators -/

variable {α : Type*}

/-- The first place of a separator. -/
theorem append_sep_inj {sep : α} {a a' b b' : List α} (ha : sep ∉ a) (ha' : sep ∉ a')
    (h : a ++ sep :: b = a' ++ sep :: b') : a = a' ∧ b = b' := by
  induction a generalizing a' with
  | nil =>
      cases a' with
      | nil => exact ⟨rfl, (List.cons.inj h).2⟩
      | cons x a' =>
          obtain ⟨rfl, -⟩ := List.cons.inj h
          exact absurd (List.mem_cons_self ..) ha'
  | cons x a ih =>
      cases a' with
      | nil =>
          obtain ⟨rfl, -⟩ := List.cons.inj h
          exact absurd (List.mem_cons_self ..) ha
      | cons y a' =>
          obtain ⟨rfl, ht⟩ := List.cons.inj h
          obtain ⟨rfl, hb⟩ := ih (mt (List.mem_cons_of_mem _) ha) (mt (List.mem_cons_of_mem _) ha') ht
          exact ⟨rfl, hb⟩

end Libws.Support
