import Mathlib.Data.List.GetD
import Libws.Support.Bytes
import Libws.Framing.Utf8

/-!
# Framing — the validator accepts exactly UTF-8

`IsUtf8 bs` says that `bs` is the encoding of a list of characters; a `Char` is a Unicode scalar
value, so surrogates and numbers above `0x10FFFF` are out.  `Seq s` is the syntax of one encoded
character: a lead byte and its continuation bytes, the first of them in a narrower range after
`0xE0`, `0xED`, `0xF0` and `0xF4`.

* `Seq.encodes`, `seq_encode`: a `Seq` is the encoding of a character, and conversely.
* `decodeStep_iff`: `decode_step` accepts exactly a `Seq` at its index, and steps past it.
* `wsUtf8Valid_iff`: so `ws_utf8_valid` accepts exactly UTF-8.
-/

namespace Libws
open Libws.Support

/-- The UTF-8 encoding of a list of Unicode scalar values. -/
def IsUtf8 (bs : List UInt8) : Prop := ∃ cs : List Char, bs = cs.flatMap String.utf8EncodeChar

/-! ### One character -/

/-- A continuation byte. -/
def IsTail (b : UInt8) : Prop := 0x80 ≤ b.toNat ∧ b.toNat ≤ 0xBF

/-- The range of the first continuation byte after the lead `b0`. -/
def IsFirst (b0 b : UInt8) : Prop := (firstLo b0).toNat ≤ b.toNat ∧ b.toNat ≤ (firstHi b0).toNat

/-- One encoded character. -/
inductive Seq : List UInt8 → Prop where
  | one {b0 : UInt8} : b0.toNat ≤ 0x7F → Seq [b0]
  | two {b0 b1 : UInt8} : 0xC2 ≤ b0.toNat → b0.toNat ≤ 0xDF → IsFirst b0 b1 → Seq [b0, b1]
  | three {b0 b1 b2 : UInt8} : 0xE0 ≤ b0.toNat → b0.toNat ≤ 0xEF → IsFirst b0 b1 → IsTail b2 →
      Seq [b0, b1, b2]
  | four {b0 b1 b2 b3 : UInt8} : 0xF0 ≤ b0.toNat → b0.toNat ≤ 0xF4 → IsFirst b0 b1 → IsTail b2 →
      IsTail b3 → Seq [b0, b1, b2, b3]

/-- `IsFirst` as a condition on numbers. -/
theorem isFirst_iff (b0 b : UInt8) :
    IsFirst b0 b ↔ 0x80 ≤ b.toNat ∧ b.toNat ≤ 0xBF ∧ (b0.toNat = 0xE0 → 0xA0 ≤ b.toNat) ∧
      (b0.toNat = 0xF0 → 0x90 ≤ b.toNat) ∧ (b0.toNat = 0xED → b.toNat ≤ 0x9F) ∧
      (b0.toNat = 0xF4 → b.toNat ≤ 0x8F) := by
  have e : ∀ v : UInt8, b0 = v ↔ b0.toNat = v.toNat := fun v => UInt8.toNat_inj.symm
  have hlo : (firstLo b0).toNat
      = if b0.toNat = 0xE0 then 0xA0 else if b0.toNat = 0xF0 then 0x90 else 0x80 := by
    simp only [firstLo, e]
    show (if b0.toNat = 0xE0 then (0xA0 : UInt8) else if b0.toNat = 0xF0 then 0x90 else 0x80).toNat
      = _
    split
    · rfl
    · split <;> rfl
  have hhi : (firstHi b0).toNat
      = if b0.toNat = 0xED then 0x9F else if b0.toNat = 0xF4 then 0x8F else 0xBF := by
    simp only [firstHi, e]
    show (if b0.toNat = 0xED then (0x9F : UInt8) else if b0.toNat = 0xF4 then 0x8F else 0xBF).toNat
      = _
    split
    · rfl
    · split <;> rfl
  rw [IsFirst, hlo, hhi]
  split
  · split
    · omega
    · split <;> omega
  · split
    · split
      · omega
      · split <;> omega
    · split
      · omega
      · split <;> omega

/-- A scalar value is a character. -/
theorem exists_char {v : Nat} (h : v < 0xD800 ∨ 0xDFFF < v ∧ v < 0x110000) :
    ∃ c : Char, c.val.toNat = v := by
  have hv : (UInt32.ofNat v).toNat = v := UInt32.toNat_ofNat_of_lt' (by
    show v < 2 ^ 32; omega)
  exact ⟨⟨UInt32.ofNat v, by rw [UInt32.isValidChar, hv]; exact h⟩, hv⟩

theorem ofNat_eq {n : Nat} {b : UInt8} (h : n = b.toNat) : UInt8.ofNat n = b := by
  rw [h, UInt8.ofNat_toNat]

/-- **A well-formed sequence encodes a character.** -/
theorem Seq.encodes {s : List UInt8} (h : Seq s) : ∃ c : Char, String.utf8EncodeChar c = s := by
  cases h with
  | @one b0 h0 =>
      obtain ⟨c, hc⟩ := exists_char (v := b0.toNat) (by omega)
      refine ⟨c, ?_⟩
      simp only [String.utf8EncodeChar, hc, if_pos h0, UInt8.ofNat_toNat]
  | @two b0 b1 h0 h0' h1 =>
      rw [isFirst_iff] at h1
      obtain ⟨c, hc⟩ := exists_char (v := (b0.toNat - 0xC0) * 64 + (b1.toNat - 0x80)) (by omega)
      refine ⟨c, ?_⟩
      simp only [String.utf8EncodeChar, hc]
      rw [if_neg (by omega), if_pos (by omega), ofNat_eq (b := b0) (by omega),
        ofNat_eq (b := b1) (by omega)]
  | @three b0 b1 b2 h0 h0' h1 h2 =>
      rw [isFirst_iff] at h1
      rw [IsTail] at h2
      obtain ⟨c, hc⟩ := exists_char
        (v := (b0.toNat - 0xE0) * 4096 + (b1.toNat - 0x80) * 64 + (b2.toNat - 0x80)) (by omega)
      refine ⟨c, ?_⟩
      simp only [String.utf8EncodeChar, hc]
      rw [if_neg (by omega), if_neg (by omega), if_pos (by omega), ofNat_eq (b := b0) (by omega),
        ofNat_eq (b := b1) (by omega), ofNat_eq (b := b2) (by omega)]
  | @four b0 b1 b2 b3 h0 h0' h1 h2 h3 =>
      rw [isFirst_iff] at h1
      rw [IsTail] at h2 h3
      obtain ⟨c, hc⟩ := exists_char (v := (b0.toNat - 0xF0) * 262144 + (b1.toNat - 0x80) * 4096
        + (b2.toNat - 0x80) * 64 + (b3.toNat - 0x80)) (by omega)
      refine ⟨c, ?_⟩
      simp only [String.utf8EncodeChar, hc]
      rw [if_neg (by omega), if_neg (by omega), if_neg (by omega), ofNat_eq (b := b0) (by omega),
        ofNat_eq (b := b1) (by omega), ofNat_eq (b := b2) (by omega),
        ofNat_eq (b := b3) (by omega)]

/-- **The encoding of a character is a well-formed sequence.** -/
theorem seq_encode (c : Char) : Seq (String.utf8EncodeChar c) := by
  have hv : c.val.toNat < 0xD800 ∨ 0xDFFF < c.val.toNat ∧ c.val.toNat < 0x110000 := c.valid
  generalize hx : c.val.toNat = v at hv
  have t8 : ∀ n, (UInt8.ofNat n).toNat = n % 256 := fun n => UInt8.toNat_ofNat'
  simp only [String.utf8EncodeChar, hx]
  split
  · exact .one (by rw [t8]; omega)
  · split
    · refine .two ?_ ?_ ((isFirst_iff _ _).mpr ?_) <;> simp only [t8] <;> omega
    · split
      · refine .three ?_ ?_ ((isFirst_iff _ _).mpr ?_) ?_ <;> simp only [IsTail, t8] <;> omega
      · refine .four ?_ ?_ ((isFirst_iff _ _).mpr ?_) ?_ ?_ <;> simp only [IsTail, t8] <;> omega

theorem Seq.ne_nil {s : List UInt8} (h : Seq s) : s ≠ [] := by cases h <;> simp

/-! ### One step of the decoder -/

/-- The entry for the lead byte `n`, by its range. -/
def contCount (n : Nat) : UInt8 :=
  if n < 0x80 then 0 else if n < 0xC2 then 255 else if n < 0xE0 then 1 else if n < 0xF0 then 2
  else if n < 0xF5 then 3 else 255

theorem kContCount_getD {n : Nat} (h : n < 256) : kContCount.getD n 255 = contCount n := by
  have htable : kContCount = (List.range 256).map contCount := by decide +kernel
  rw [htable, List.getD_eq_getElem?_getD, List.getElem?_map, List.getElem?_range h]
  rfl

/-- The table, by lead byte. -/
theorem kContCount_cases (b : UInt8) :
    b.toNat ≤ 0x7F ∧ (kContCount.getD b.toNat 255).toNat = 0 ∨
    0xC2 ≤ b.toNat ∧ b.toNat ≤ 0xDF ∧ (kContCount.getD b.toNat 255).toNat = 1 ∨
    0xE0 ≤ b.toNat ∧ b.toNat ≤ 0xEF ∧ (kContCount.getD b.toNat 255).toNat = 2 ∨
    0xF0 ≤ b.toNat ∧ b.toNat ≤ 0xF4 ∧ (kContCount.getD b.toNat 255).toNat = 3 ∨
    (0x7F < b.toNat ∧ b.toNat < 0xC2 ∨ 0xF4 < b.toNat) ∧
      (kContCount.getD b.toNat 255).toNat = 255 := by
  rw [kContCount_getD b.toNat_lt, contCount]
  split_ifs
  · exact .inl ⟨by omega, rfl⟩
  · exact .inr (.inr (.inr (.inr ⟨.inl ⟨by omega, by omega⟩, rfl⟩)))
  · exact .inr (.inl ⟨by omega, by omega, rfl⟩)
  · exact .inr (.inr (.inl ⟨by omega, by omega, rfl⟩))
  · exact .inr (.inr (.inr (.inl ⟨by omega, by omega, rfl⟩)))
  · exact .inr (.inr (.inr (.inr ⟨.inr (by omega), rfl⟩)))

theorem inRange8_iff (b lo hi : UInt8) :
    inRange8 b lo hi = true ↔ lo.toNat ≤ b.toNat ∧ b.toNat ≤ hi.toNat := by
  simp [inRange8, UInt8.le_iff_toNat_le]

theorem contsOk_iff (data : List UInt8) (p n : Nat) :
    contsOk data p n = true ↔ ∀ k < n, IsTail (data.getD (p + k) 0) := by
  simp only [contsOk, List.all_eq_true, List.mem_range, inRange8_iff]
  rfl

theorem seqFits_iff (i len cont : Nat) :
    seqFits i len cont = true ↔ cont ≠ 255 ∧ i + 1 + cont ≤ len := by
  rw [seqFits]
  split <;> simp_all

theorem tailGuardOk_iff (data : List UInt8) (i cont : Nat) :
    tailGuardOk data i cont = true ↔ (cont ≠ 0 →
      IsFirst (data.getD i 0) (data.getD (i + 1) 0) ∧
        ∀ k < cont - 1, IsTail (data.getD (i + 2 + k) 0)) := by
  have hf : inRange8 (data.getD (i + 1) 0) (firstLo (data.getD i 0)) (firstHi (data.getD i 0))
      = true ↔ IsFirst (data.getD i 0) (data.getD (i + 1) 0) := inRange8_iff _ _ _
  rw [← hf, ← contsOk_iff, tailGuardOk, tailOk]
  generalize inRange8 _ _ _ = first
  by_cases h0 : cont = 0
  · simp [h0]
  · cases first <;> simp [h0]

/-- What `decode_step` tests. -/
theorem decodeStep_eq_some {data : List UInt8} {i i' cont : Nat}
    (hcont : (kContCount.getD (data.getD i 0).toNat 255).toNat = cont) :
    decodeStep data i = some i' ↔ (cont ≠ 255 ∧ i + 1 + cont ≤ data.length) ∧
      (cont ≠ 0 → IsFirst (data.getD i 0) (data.getD (i + 1) 0) ∧
        ∀ k < cont - 1, IsTail (data.getD (i + 2 + k) 0)) ∧ i + (1 + cont) = i' := by
  simp only [decodeStep, hcont]
  rw [← seqFits_iff, ← tailGuardOk_iff]
  cases seqFits i data.length cont <;> cases tailGuardOk data i cont <;> simp

/-- The table entry of the lead byte says which bytes follow it in a sequence. -/
theorem seq_cons_iff {b0 : UInt8} {s : List UInt8} {cont : Nat}
    (hcont : (kContCount.getD b0.toNat 255).toNat = cont) :
    Seq (b0 :: s) ↔ cont ≠ 255 ∧ s.length = cont ∧
      (cont ≠ 0 → IsFirst b0 (s.getD 0 0) ∧ ∀ k < cont - 1, IsTail (s.getD (k + 1) 0)) := by
  have hcase := kContCount_cases b0
  rw [hcont] at hcase
  constructor
  · intro h
    cases h with
    | one h0 =>
        obtain rfl : cont = 0 := by omega
        exact ⟨by decide, rfl, fun h => absurd rfl h⟩
    | two h0 h0' h1 =>
        obtain rfl : cont = 1 := by omega
        exact ⟨by decide, rfl, fun _ => ⟨h1, fun k hk => absurd hk (by omega)⟩⟩
    | three h0 h0' h1 h2 =>
        obtain rfl : cont = 2 := by omega
        refine ⟨by decide, rfl, fun _ => ⟨h1, fun k hk => ?_⟩⟩
        obtain rfl : k = 0 := by omega
        exact h2
    | four h0 h0' h1 h2 h3 =>
        obtain rfl : cont = 3 := by omega
        refine ⟨by decide, rfl, fun _ => ⟨h1, fun k hk => ?_⟩⟩
        obtain rfl | rfl : k = 0 ∨ k = 1 := by omega
        · exact h2
        · exact h3
  · rintro ⟨hne, hlen, ht⟩
    rcases hcase with ⟨hb, rfl⟩ | ⟨hb, hb', rfl⟩ | ⟨hb, hb', rfl⟩ | ⟨hb, hb', rfl⟩ | ⟨hb, rfl⟩
    · match s, hlen with
      | [], _ => exact .one hb
    · match s, hlen with
      | [b1], _ => exact .two hb hb' (ht (by decide)).1
    · match s, hlen with
      | [b1, b2], _ =>
          have ⟨h1, htail⟩ := ht (by decide)
          exact .three hb hb' h1 (htail 0 (by decide))
    · match s, hlen with
      | [b1, b2, b3], _ =>
          have ⟨h1, htail⟩ := ht (by decide)
          exact .four hb hb' h1 (htail 0 (by decide)) (htail 1 (by decide))
    · exact absurd rfl hne

/-- **`decode_step` accepts exactly an encoded character at its index**, and steps past it. -/
theorem decodeStep_iff {data : List UInt8} {i i' : Nat} (hi : i < data.length) :
    decodeStep data i = some i' ↔
      ∃ s t, data.drop i = s ++ t ∧ Seq s ∧ i + s.length = i' := by
  obtain ⟨b0, r, hdrop⟩ : ∃ b0 r, data.drop i = b0 :: r := ⟨_, _, List.drop_eq_getElem_cons hi⟩
  have hlen : data.length = i + 1 + r.length := by
    have := congrArg List.length hdrop
    simp only [List.length_drop, List.length_cons] at this
    omega
  have g : ∀ k, data.getD (i + k) 0 = (b0 :: r).getD k 0 := by
    intro k
    rw [← hdrop, List.getD_eq_getElem?_getD, List.getD_eq_getElem?_getD, List.getElem?_drop]
  have g1 : ∀ k, data.getD (i + 1 + k) 0 = r.getD k 0 := fun k => by
    rw [Nat.add_assoc, Nat.add_comm 1 k, g]; rfl
  have g2 : ∀ k, data.getD (i + 2 + k) 0 = r.getD (k + 1) 0 := fun k => by
    rw [show i + 2 + k = i + 1 + (k + 1) by omega, g1]
  have g0 : data.getD i 0 = b0 := g 0
  obtain ⟨cont, hcont⟩ : ∃ cont, (kContCount.getD b0.toNat 255).toNat = cont := ⟨_, rfl⟩
  have hc : (kContCount.getD (data.getD i 0).toNat 255).toNat = cont := by rw [g0]; exact hcont
  rw [decodeStep_eq_some hc, g0, hdrop]
  have h1 : data.getD (i + 1) 0 = r.getD 0 0 := g1 0
  simp only [h1, g2]
  constructor
  · rintro ⟨⟨hne, hfit⟩, ht, rfl⟩
    obtain ⟨s, t, rfl, hs⟩ := exists_append_of_le (l := r) (n := cont) (by omega)
    refine ⟨b0 :: s, t, rfl, (seq_cons_iff hcont).mpr ⟨hne, hs, fun h0 => ?_⟩, ?_⟩
    · obtain ⟨hf, htail⟩ := ht h0
      rw [List.getD_append _ _ _ _ (by omega)] at hf
      refine ⟨hf, fun k hk => ?_⟩
      have := htail k hk
      rwa [List.getD_append _ _ _ _ (by omega)] at this
    · rw [List.length_cons, hs]; omega
  · rintro ⟨s, t, heq, hs, rfl⟩
    match s, hs.ne_nil with
    | b :: s, _ =>
        obtain ⟨rfl, hr⟩ := List.cons.inj heq
        replace hr : r = s ++ t := hr
        subst hr
        obtain ⟨hne, hlen', ht⟩ := (seq_cons_iff hcont).mp hs
        rw [List.length_append] at hlen
        refine ⟨⟨hne, by omega⟩, fun h0 => ?_, by rw [List.length_cons]; omega⟩
        obtain ⟨hf, htail⟩ := ht h0
        rw [List.getD_append _ _ _ _ (by omega)]
        refine ⟨hf, fun k hk => ?_⟩
        rw [List.getD_append _ _ _ _ (by omega)]
        exact htail k hk

/-! ### The whole text -/

theorem isUtf8_nil : IsUtf8 [] := ⟨[], rfl⟩

/-- A non-empty text is UTF-8 exactly when a sequence stands at its head and the rest is. -/
theorem isUtf8_iff {bs : List UInt8} (h : bs ≠ []) :
    IsUtf8 bs ↔ ∃ s t, bs = s ++ t ∧ Seq s ∧ IsUtf8 t := by
  constructor
  · rintro ⟨cs, rfl⟩
    cases cs with
    | nil => exact absurd rfl h
    | cons c cs => exact ⟨_, _, List.flatMap_cons, seq_encode c, cs, rfl⟩
  · rintro ⟨s, t, rfl, hs, cs, rfl⟩
    obtain ⟨c, rfl⟩ := hs.encodes
    exact ⟨c :: cs, List.flatMap_cons.symm⟩

/-- Two sequences at the head of one text are the same. -/
theorem Seq.unique {s s' t t' : List UInt8} (hs : Seq s) (hs' : Seq s') (h : s ++ t = s' ++ t') :
    s = s' := by
  match s, s', hs.ne_nil, hs'.ne_nil with
  | b :: s, b' :: s', _, _ =>
      obtain ⟨rfl, htail⟩ := List.cons.inj h
      have h1 : s.length = _ := ((seq_cons_iff rfl).mp hs).2.1
      have h2 : s'.length = _ := ((seq_cons_iff rfl).mp hs').2.1
      obtain ⟨rfl, -⟩ := List.append_inj (show s ++ t = s' ++ t' from htail) (h1.trans h2.symm)
      rfl

/-- The scan from `i` accepts exactly when the rest of the text is UTF-8. -/
theorem utf8Scan_iff {data : List UInt8} {fuel i : Nat} (h : data.length ≤ i + fuel) :
    utf8Scan data fuel i = true ↔ IsUtf8 (data.drop i) := by
  induction fuel generalizing i with
  | zero =>
      rw [utf8Scan, List.drop_eq_nil_of_le (by omega)]
      simp [show ¬ i < data.length by omega, isUtf8_nil]
  | succ fuel ih =>
      rw [utf8Scan]
      by_cases hi : i < data.length
      · have hne : data.drop i ≠ [] := by simp [hi]
        rw [if_pos hi, isUtf8_iff hne]
        cases hd : decodeStep data i with
        | none =>
            simp only [Bool.false_eq_true, false_iff]
            rintro ⟨s, t, heq, hs, -⟩
            have := (decodeStep_iff hi).mpr ⟨s, t, heq, hs, rfl⟩
            rw [hd] at this
            cases this
        | some i' =>
            obtain ⟨s, t, heq, hs, rfl⟩ := (decodeStep_iff hi).mp hd
            have hpos : 0 < s.length := List.length_pos_of_ne_nil hs.ne_nil
            have hrest : data.drop (i + s.length) = t := by
              rw [← List.drop_drop, heq, List.drop_left]
            simp only
            rw [ih (by omega), hrest, heq]
            constructor
            · intro ht
              exact ⟨s, t, rfl, hs, ht⟩
            · rintro ⟨s', t', heq', hs', ht'⟩
              obtain rfl := hs.unique hs' heq'
              rwa [List.append_cancel_left heq']
      · rw [if_neg hi, List.drop_eq_nil_of_le (by omega)]
        simp [isUtf8_nil]

/-- **`ws_utf8_valid` accepts exactly UTF-8.** -/
theorem wsUtf8Valid_iff (data : List UInt8) : wsUtf8Valid data = true ↔ IsUtf8 data := by
  rw [wsUtf8Valid, utf8Scan_iff (by omega), List.drop_zero]

end Libws
