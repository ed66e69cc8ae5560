import Libws.Framing.HeaderCodec
import Libws.Framing.Utf8Valid

/-!
# Framing — the repository's own model of the primitives

`proofs/WsProto` models the byte-level primitives in Lean, and tests on fixed vectors tie it to the
C code.  Here its definitions stand under their names, and they are compared with the code for
every input.

* `utf8DecodeStep_iff`: the model's decoder reads exactly one encoded character, with its value.
  The repository proves the range of the value; this is the rest of what the decoder is for.
* `utf8_model`: **`decode_step` and `ws_utf8_valid` are the model's decoder and validator.**
* `wire_model`: so are masking, building and decoding a length form, the opcode classes, the bound
  on control payloads and the close codes.
-/

namespace Libws.WsProto
open Libws.Support

/-! ### The model -/

/-- `maskBytes`. -/
def maskBytes (key : Fin 4 → UInt8) (p : List UInt8) : List UInt8 :=
  p.mapIdx fun i b => b ^^^ key (Fin.ofNat 4 i % 4)

/-- `LenForm`: the three length forms on the wire. -/
inductive LenForm where
  | tiny (n : UInt8)
  | short (n : UInt16)
  | long (n : UInt64)
  deriving DecidableEq, Repr

def encodeLen (n : Nat) : LenForm :=
  if n < 126 then .tiny (UInt8.ofNat n)
  else if n ≤ 0xFFFF then .short (UInt16.ofNat n)
  else .long (UInt64.ofNat n)

def decodeLen : LenForm → Nat
  | .tiny n => n.toNat
  | .short n => n.toNat
  | .long n => n.toNat

/-- `OpClass`. -/
inductive OpClass where
  | data
  | control
  | reserved
  deriving DecidableEq, Repr

def classifyOpcode (op : Fin 16) : OpClass :=
  match (op : Nat) with
  | 0x0 | 0x1 | 0x2 => .data
  | 0x8 | 0x9 | 0xA => .control
  | _ => .reserved

def controlPayloadOk (cls : OpClass) (len : Nat) : Bool :=
  match cls with
  | .control => len ≤ 125
  | _ => true

def closeCodeSendable (c : Nat) : Bool :=
  (decide (1000 ≤ c ∧ c ≤ 1011) && c ≠ 1004 && c ≠ 1005 && c ≠ 1006) ||
    decide (3000 ≤ c ∧ c ≤ 4999)

def isCont (b : UInt8) : Bool := 0x80 ≤ b && b ≤ 0xBF

def contBits (b : UInt8) : Nat := b.toNat % 0x40

/-- The guard on the first continuation byte of a three-byte form. -/
def guard3 (b0 b1 : UInt8) : Bool :=
  if b0 = 0xE0 then 0xA0 ≤ b1 && b1 ≤ 0xBF
  else if b0 = 0xED then 0x80 ≤ b1 && b1 ≤ 0x9F
  else isCont b1

/-- The guard on the first continuation byte of a four-byte form. -/
def guard4 (b0 b1 : UInt8) : Bool :=
  if b0 = 0xF0 then 0x90 ≤ b1 && b1 ≤ 0xBF
  else if b0 = 0xF4 then 0x80 ≤ b1 && b1 ≤ 0x8F
  else isCont b1

def utf8DecodeStep : List UInt8 → Option (Nat × List UInt8)
  | [] => none
  | b0 :: rest =>
    if b0 ≤ 0x7F then some (b0.toNat, rest)
    else if 0xC2 ≤ b0 && b0 ≤ 0xDF then
      match rest with
      | b1 :: rest1 =>
        if isCont b1 then some ((b0.toNat % 0x20) * 0x40 + contBits b1, rest1) else none
      | [] => none
    else if 0xE0 ≤ b0 && b0 ≤ 0xEF then
      match rest with
      | b1 :: b2 :: rest2 =>
        if guard3 b0 b1 && isCont b2 then
          some ((b0.toNat % 0x10) * 0x1000 + contBits b1 * 0x40 + contBits b2, rest2)
        else none
      | _ => none
    else if 0xF0 ≤ b0 && b0 ≤ 0xF4 then
      match rest with
      | b1 :: b2 :: b3 :: rest3 =>
        if guard4 b0 b1 && isCont b2 && isCont b3 then
          some ((b0.toNat % 0x08) * 0x40000 + contBits b1 * 0x1000 + contBits b2 * 0x40
            + contBits b3, rest3)
        else none
      | _ => none
    else none

def utf8Valid (bytes : List UInt8) : Bool :=
  match bytes with
  | [] => true
  | b :: bs =>
    match utf8DecodeStep (b :: bs) with
    | none => false
    | some (_, rest) =>
      if h : rest.length < (b :: bs).length then utf8Valid rest else false
termination_by bytes.length
decreasing_by exact h

/-! ### One character -/

/-- The value a well-formed sequence stands for. -/
def point : List UInt8 → Nat
  | [b0] => b0.toNat
  | [b0, b1] => (b0.toNat % 0x20) * 0x40 + contBits b1
  | [b0, b1, b2] => (b0.toNat % 0x10) * 0x1000 + contBits b1 * 0x40 + contBits b2
  | [b0, b1, b2, b3] =>
    (b0.toNat % 0x08) * 0x40000 + contBits b1 * 0x1000 + contBits b2 * 0x40 + contBits b3
  | _ => 0

theorem isCont_iff (b : UInt8) : isCont b = true ↔ IsTail b := by
  simp [isCont, IsTail, UInt8.le_iff_toNat_le]

theorem point_encode (c : Char) : point (String.utf8EncodeChar c) = c.val.toNat := by
  have hv : c.val.toNat < 0xD800 ∨ 0xDFFF < c.val.toNat ∧ c.val.toNat < 0x110000 := c.valid
  generalize hx : c.val.toNat = v at hv
  have t8 : ∀ n, (UInt8.ofNat n).toNat = n % 256 := fun n => UInt8.toNat_ofNat'
  simp only [String.utf8EncodeChar, hx]
  split
  · simp only [point, t8]; omega
  · split
    · simp only [point, contBits, t8]; omega
    · split
      · simp only [point, contBits, t8]; omega
      · simp only [point, contBits, t8]; omega

/-- The guard of a three-byte form is the range of `first_lo` and `first_hi`. -/
theorem guard3_iff {b0 : UInt8} (hhi : b0.toNat ≤ 0xEF) (b1 : UInt8) :
    guard3 b0 b1 = true ↔ IsFirst b0 b1 := by
  have h0 : b0 ≠ 0xF0 := fun h => by rw [h] at hhi; exact absurd hhi (by decide)
  have h4 : b0 ≠ 0xF4 := fun h => by rw [h] at hhi; exact absurd hhi (by decide)
  rw [guard3, IsFirst, firstLo, firstHi, if_neg h0, if_neg h4]
  by_cases he : b0 = 0xE0
  · subst he
    simp [UInt8.le_iff_toNat_le]
  · by_cases hd : b0 = 0xED
    · subst hd
      simp [UInt8.le_iff_toNat_le]
    · rw [if_neg he, if_neg hd, if_neg he, if_neg hd, isCont_iff]
      rfl

/-- The guard of a four-byte form is the range of `first_lo` and `first_hi`. -/
theorem guard4_iff {b0 : UInt8} (hlo : 0xF0 ≤ b0.toNat) (b1 : UInt8) :
    guard4 b0 b1 = true ↔ IsFirst b0 b1 := by
  have he : b0 ≠ 0xE0 := fun h => by rw [h] at hlo; exact absurd hlo (by decide)
  have hd : b0 ≠ 0xED := fun h => by rw [h] at hlo; exact absurd hlo (by decide)
  rw [guard4, IsFirst, firstLo, firstHi, if_neg he, if_neg hd]
  by_cases h0 : b0 = 0xF0
  · subst h0
    simp [UInt8.le_iff_toNat_le]
  · by_cases h4 : b0 = 0xF4
    · subst h4
      simp [UInt8.le_iff_toNat_le]
    · rw [if_neg h0, if_neg h4, if_neg h0, if_neg h4, isCont_iff]
      rfl

/-- A two-byte form has no narrower range. -/
theorem isFirst_two {b0 : UInt8} (hhi : b0.toNat ≤ 0xDF) (b1 : UInt8) :
    IsFirst b0 b1 ↔ IsTail b1 := by
  rw [isFirst_iff, IsTail]
  omega

/-- A test of the model on a lead byte, as a range. -/
theorem lead_iff (b lo hi : UInt8) :
    (decide (lo ≤ b) && decide (b ≤ hi)) = true ↔ lo.toNat ≤ b.toNat ∧ b.toNat ≤ hi.toNat := by
  simp [UInt8.le_iff_toNat_le]

/-- What the model's decoder accepts. -/
theorem seq_of_utf8DecodeStep {bytes : List UInt8} {cp : Nat} {rest : List UInt8}
    (h : utf8DecodeStep bytes = some (cp, rest)) : ∃ s, bytes = s ++ rest ∧ Seq s ∧ point s = cp := by
  match bytes with
  | [] => cases h
  | b0 :: r =>
    rw [utf8DecodeStep.eq_def] at h
    simp only at h
    split at h
    · rename_i h0
      obtain ⟨rfl, rfl⟩ := Prod.mk.inj (Option.some.inj h)
      exact ⟨[b0], rfl, .one (UInt8.le_iff_toNat_le.mp h0), rfl⟩
    · split at h
      · rename_i h2
        obtain ⟨hlo, hhi⟩ := (lead_iff b0 0xC2 0xDF).mp h2
        match r with
        | [] => cases h
        | b1 :: r1 =>
          simp only at h
          split at h
          · rename_i h1
            obtain ⟨rfl, rfl⟩ := Prod.mk.inj (Option.some.inj h)
            exact ⟨[b0, b1], rfl,
              .two hlo hhi ((isFirst_two hhi b1).mpr ((isCont_iff b1).mp h1)), rfl⟩
          · cases h
      · split at h
        · rename_i h3
          obtain ⟨hlo, hhi⟩ := (lead_iff b0 0xE0 0xEF).mp h3
          match r with
          | [] | [_] => cases h
          | b1 :: b2 :: r2 =>
            simp only at h
            split at h
            · rename_i hg
              rw [Bool.and_eq_true, guard3_iff hhi, isCont_iff] at hg
              obtain ⟨rfl, rfl⟩ := Prod.mk.inj (Option.some.inj h)
              exact ⟨[b0, b1, b2], rfl, .three hlo hhi hg.1 hg.2, rfl⟩
            · cases h
        · split at h
          · rename_i h4
            obtain ⟨hlo, hhi⟩ := (lead_iff b0 0xF0 0xF4).mp h4
            match r with
            | [] | [_] | [_, _] => cases h
            | b1 :: b2 :: b3 :: r3 =>
              simp only at h
              split at h
              · rename_i hg
                rw [Bool.and_eq_true, Bool.and_eq_true, guard4_iff hlo, isCont_iff, isCont_iff] at hg
                obtain ⟨rfl, rfl⟩ := Prod.mk.inj (Option.some.inj h)
                exact ⟨[b0, b1, b2, b3], rfl, .four hlo hhi hg.1.1 hg.1.2 hg.2, rfl⟩
              · cases h
          · cases h

/-- What it reads off a well-formed sequence. -/
theorem utf8DecodeStep_of_seq {s : List UInt8} (hs : Seq s) (rest : List UInt8) :
    utf8DecodeStep (s ++ rest) = some (point s, rest) := by
  have hle : ∀ {b : UInt8}, 0x7F < b.toNat → ¬ b ≤ 0x7F := fun h hb =>
    absurd (UInt8.le_iff_toNat_le.mp hb) (Nat.not_le.mpr h)
  cases hs with
  | @one b0 h0 =>
      rw [List.singleton_append, utf8DecodeStep.eq_def]
      exact if_pos (UInt8.le_iff_toNat_le.mpr h0)
  | @two b0 b1 hlo hhi h1 =>
      have hf := (isCont_iff b1).mpr ((isFirst_two hhi b1).mp h1)
      simp only [List.cons_append, List.nil_append, utf8DecodeStep]
      rw [if_neg (hle (by omega)), if_pos ((lead_iff b0 0xC2 0xDF).mpr ⟨hlo, hhi⟩),
        if_pos hf]
      rfl
  | @three b0 b1 b2 hlo hhi h1 h2 =>
      have hno : ¬ (decide (0xC2 ≤ b0) && decide (b0 ≤ 0xDF)) = true := fun h =>
        absurd ((lead_iff b0 0xC2 0xDF).mp h).2 (show ¬ b0.toNat ≤ 0xDF by omega)
      have hg : (guard3 b0 b1 && isCont b2) = true := by
        rw [Bool.and_eq_true, guard3_iff hhi, isCont_iff]
        exact ⟨h1, h2⟩
      simp only [List.cons_append, List.nil_append, utf8DecodeStep]
      rw [if_neg (hle (by omega)), if_neg hno,
        if_pos ((lead_iff b0 0xE0 0xEF).mpr ⟨hlo, hhi⟩), if_pos hg]
      rfl
  | @four b0 b1 b2 b3 hlo hhi h1 h2 h3 =>
      have hno : ¬ (decide (0xC2 ≤ b0) && decide (b0 ≤ 0xDF)) = true := fun h =>
        absurd ((lead_iff b0 0xC2 0xDF).mp h).2 (show ¬ b0.toNat ≤ 0xDF by omega)
      have hno' : ¬ (decide (0xE0 ≤ b0) && decide (b0 ≤ 0xEF)) = true := fun h =>
        absurd ((lead_iff b0 0xE0 0xEF).mp h).2 (show ¬ b0.toNat ≤ 0xEF by omega)
      have hg : (guard4 b0 b1 && isCont b2 && isCont b3) = true := by
        rw [Bool.and_eq_true, Bool.and_eq_true, guard4_iff hlo, isCont_iff, isCont_iff]
        exact ⟨⟨h1, h2⟩, h3⟩
      simp only [List.cons_append, List.nil_append, utf8DecodeStep]
      rw [if_neg (hle (by omega)), if_neg hno, if_neg hno',
        if_pos ((lead_iff b0 0xF0 0xF4).mpr ⟨hlo, hhi⟩), if_pos hg]
      rfl

/-- **The model's decoder reads exactly one encoded character**, and its value. -/
theorem utf8DecodeStep_iff (bytes : List UInt8) (cp : Nat) (rest : List UInt8) :
    utf8DecodeStep bytes = some (cp, rest) ↔
      ∃ c : Char, c.val.toNat = cp ∧ bytes = String.utf8EncodeChar c ++ rest := by
  constructor
  · intro h
    obtain ⟨s, rfl, hs, rfl⟩ := seq_of_utf8DecodeStep h
    obtain ⟨c, rfl⟩ := hs.encodes
    exact ⟨c, (point_encode c).symm, rfl⟩
  · rintro ⟨c, rfl, rfl⟩
    rw [utf8DecodeStep_of_seq (seq_encode c), point_encode]

/-! ### Whole texts -/

/-- **The model's validator accepts exactly UTF-8.** -/
theorem utf8Valid_iff (bytes : List UInt8) : utf8Valid bytes = true ↔ IsUtf8 bytes := by
  induction hn : bytes.length using Nat.strong_induction_on generalizing bytes with
  | _ n ih =>
    match bytes with
    | [] => simp [utf8Valid, isUtf8_nil]
    | b :: bs =>
      rw [utf8Valid, isUtf8_iff (by simp)]
      cases hstep : utf8DecodeStep (b :: bs) with
      | none =>
          refine ⟨fun h => by simp at h, ?_⟩
          rintro ⟨s, t, hbs, hs, -⟩
          rw [hbs, utf8DecodeStep_of_seq hs] at hstep
          cases hstep
      | some r =>
          obtain ⟨cp, rest⟩ := r
          obtain ⟨s, hbs, hs, -⟩ := seq_of_utf8DecodeStep hstep
          have hlt : rest.length < (b :: bs).length := by
            rw [hbs, List.length_append]
            have := List.length_pos_of_ne_nil hs.ne_nil
            omega
          simp only [dif_pos hlt]
          rw [ih rest.length (hn ▸ hlt) rest rfl]
          constructor
          · exact fun h => ⟨s, rest, hbs, hs, h⟩
          · rintro ⟨s', t', hbs', hs', ht'⟩
            rw [hbs] at hbs'
            have heq := hs.unique hs' hbs'
            subst heq
            rwa [List.append_cancel_left hbs']

/-- **`decode_step` and `ws_utf8_valid` are the model's decoder and validator**, at every index of
every text, and the decoder reads off exactly the character encoded there. -/
theorem utf8_model (data : List UInt8) :
    (∀ i < data.length, decodeStep data i
      = (utf8DecodeStep (data.drop i)).map fun r => data.length - r.2.length) ∧
    (∀ i cp rest, utf8DecodeStep (data.drop i) = some (cp, rest) ↔
      ∃ c : Char, c.val.toNat = cp ∧ data.drop i = String.utf8EncodeChar c ++ rest) ∧
    wsUtf8Valid data = utf8Valid data := by
  refine ⟨fun i hi => ?_, fun i cp rest => utf8DecodeStep_iff _ cp rest, ?_⟩
  · cases hstep : utf8DecodeStep (data.drop i) with
    | none =>
        cases hd : decodeStep data i with
        | none => rfl
        | some i' =>
            obtain ⟨s, t, hdrop, hs, -⟩ := (decodeStep_iff hi).mp hd
            rw [hdrop, utf8DecodeStep_of_seq hs] at hstep
            cases hstep
    | some r =>
        obtain ⟨cp, rest⟩ := r
        obtain ⟨s, hdrop, hs, -⟩ := seq_of_utf8DecodeStep hstep
        rw [Option.map_some, decodeStep_iff hi]
        refine ⟨s, rest, hdrop, hs, ?_⟩
        have hl := congrArg List.length hdrop
        rw [List.length_drop, List.length_append] at hl
        simp only
        omega
  · rw [Bool.eq_iff_iff, wsUtf8Valid_iff, utf8Valid_iff]

/-! ### The other primitives -/

theorem maskBytes_eq (key : MaskKey) (p : List UInt8) :
    maskBytes (fun i => key[i]) p = masked key p := by
  refine List.mapIdx_eq_mapIdx_iff.mpr fun i hi => ?_
  simp [maskByte, Fin.ofNat]

/-- A length form on the wire: the 7-bit field under the mask flag, and the extended length. -/
def LenForm.wire (flag : Bool) : LenForm → List UInt8
  | .tiny n => [setHighBit n flag]
  | .short n => setHighBit 126 flag :: beBytes 2 n.toNat
  | .long n => setHighBit 127 flag :: beBytes 8 n.toNat

/-- A short form has a length in its field and not one of the two marks. -/
def LenForm.InField : LenForm → Prop
  | .tiny n => n.toNat < 126
  | _ => True

/-- The class of the model. -/
def OpClass.of : WsOpclass → OpClass
  | .data => .data
  | .control => .control
  | .reserved => .reserved

/-- `ws_build_header` writes the model's length form. -/
theorem headerBytes_lenForm (h : WsFrameHeader) :
    headerBytes h
      = buildByte0 h :: ((encodeLen h.payloadLen.toNat).wire h.masked ++ keyBytes h) := by
  obtain ⟨h₂, h₄, h₁₀⟩ := lenField_toNat h.payloadLen
  rw [headerBytes, buildByte1, encodeLen]
  rcases hdrLen_cases h.payloadLen with ⟨e, hlt⟩ | ⟨e, hge, hle⟩ | ⟨e, hbig⟩
  · have hfield : lenField h.payloadLen (hdrLen h.payloadLen) = UInt8.ofNat h.payloadLen.toNat :=
      UInt8.toNat.inj (by rw [h₂ e, UInt8.toNat_ofNat_of_lt' (by show _ < 2 ^ 8; omega)])
    rw [if_pos hlt, hfield, e]
    rfl
  · rw [if_neg (by omega), if_pos hle, h₄ e, e, LenForm.wire,
      UInt16.toNat_ofNat_of_lt' (by show _ < 2 ^ 16; omega)]
    rfl
  · rw [if_neg (by omega), if_neg (by omega), h₁₀ e, e, LenForm.wire,
      UInt64.toNat_ofNat_of_lt' h.payloadLen.toNat_lt]
    rfl

theorem extBytes_field : ∀ n : UInt8, n.toNat < 126 → extBytes n = 0 := by
  intro n hn
  rw [extBytes, if_neg, if_neg]
  · rintro rfl; exact absurd hn (by decide)
  · rintro rfl; exact absurd hn (by decide)

/-- `decode_len` by its parts. -/
theorem decodeLen_cons {b0 b1 : UInt8} {t : List UInt8} {ext : Nat} {v : UInt64}
    (hext : extBytes (b1 &&& 0x7F) = ext) (hroom : ext ≤ t.length)
    (hraw : rawLen (b0 :: b1 :: t) ext = v) : Libws.decodeLen (b0 :: b1 :: t)
      = if lenOk ext v then .ok (v, 2 + ext) else .error .errProtocol := by
  have hlen : ¬ (b0 :: b1 :: t).length < 2 + ext := by
    simp only [List.length_cons]
    omega
  simp only [Libws.decodeLen, List.getD_cons_succ, List.getD_cons_zero, hext, if_neg hlen, hraw]
  cases lenOk ext v <;> rfl

/-- The number read from an extended length. -/
theorem rawLen_wire (b0 b1 : UInt8) (t : List UInt8) {ext n : Nat} (h0 : ext ≠ 0) (h8 : ext ≤ 8)
    (hn : n < 256 ^ ext) : rawLen (b0 :: b1 :: (beBytes ext n ++ t)) ext = UInt64.ofNat n := by
  have h64 : n < 2 ^ 64 := lt_of_lt_of_le hn (by
    calc (256 : Nat) ^ ext ≤ 256 ^ 8 := Nat.pow_le_pow_right (by decide) h8
      _ = 2 ^ 64 := by decide)
  apply UInt64.toNat.inj
  rw [rawLen, if_neg h0, UInt64.toNat_ofNat_of_lt' h64]
  simp only [List.drop_succ_cons, List.drop_zero]
  rw [readBe_toNat _ h8 (by simp), List.take_append_of_le_length (by simp),
    List.take_of_length_le (by simp), beVal_beBytes hn]

/-- The extended forms the model chooses itself. -/
theorem minimal_iff (m : UInt16) (n : UInt64) :
    (LenForm.short m = encodeLen m.toNat ↔ 126 ≤ m.toNat) ∧
      (LenForm.long n = encodeLen n.toNat ↔ 0xFFFF < n.toNat) := by
  have hm := m.toNat_lt
  constructor
  · rw [encodeLen]
    split
    · simp only [reduceCtorEq, false_iff]; omega
    · rw [if_pos (by omega), UInt16.ofNat_toNat]
      simp only [true_iff]; omega
  · rw [encodeLen]
    split
    · simp only [reduceCtorEq, false_iff]; omega
    · split
      · simp only [reduceCtorEq, false_iff]; omega
      · rw [UInt64.ofNat_toNat]
        simp only [true_iff]; omega

/-- **`decode_len` accepts exactly the model's minimal forms**, and reads the model's length. -/
theorem decodeLen_wire (b0 : UInt8) (flag : Bool) {f : LenForm} (hf : f.InField) (t : List UInt8) :
    Libws.decodeLen (b0 :: (f.wire flag ++ t))
      = if f = encodeLen (decodeLen f) ∧ decodeLen f < 2 ^ 63 then
          .ok (UInt64.ofNat (decodeLen f), 1 + (f.wire flag).length)
        else .error .errProtocol := by
  cases f with
  | tiny n =>
      have hn : n.toNat < 126 := hf
      have hlow : setHighBit n flag &&& 0x7F = n :=
        setHighBit_low7 n flag (UInt8.lt_iff_toNat_lt.mpr (show n.toNat < 128 by omega))
      have hraw : rawLen (b0 :: setHighBit n flag :: t) 0 = UInt64.ofNat n.toNat := by
        rw [rawLen, if_pos rfl]
        simp only [List.getD_cons_succ, List.getD_cons_zero, hlow]
        exact UInt64.toNat.inj (by simp)
      have hmin : LenForm.tiny n = encodeLen n.toNat ∧ n.toNat < 2 ^ 63 := by
        rw [encodeLen, if_pos hn, UInt8.ofNat_toNat]
        exact ⟨rfl, by omega⟩
      rw [decodeLen, if_pos hmin]
      exact decodeLen_cons (by rw [hlow, extBytes_field n hn]) (Nat.zero_le _) hraw
  | short n =>
      have hn := n.toNat_lt
      have hext : extBytes (setHighBit 126 flag &&& 0x7F) = 2 := by
        rw [setHighBit_low7 _ _ (by decide)]; rfl
      have hok : lenOk 2 (UInt64.ofNat n.toNat) = true ↔
          LenForm.short n = encodeLen n.toNat ∧ n.toNat < 2 ^ 63 := by
        have hv : (UInt64.ofNat n.toNat).toNat = n.toNat :=
          UInt64.toNat_ofNat_of_lt' (by show n.toNat < 2 ^ 64; omega)
        rw [(minimal_iff n 0).1, lenOk, if_neg (by decide), if_pos rfl, decide_eq_true_iff, ge_iff_le,
          UInt64.le_iff_toNat_le, hv]
        show 126 ≤ n.toNat ↔ _
        omega
      rw [decodeLen, LenForm.wire, List.cons_append,
        decodeLen_cons hext (by simp) (rawLen_wire b0 _ t (by decide) (by decide) hn)]
      simp only [hok, List.length_cons, beBytes_length]
  | long n =>
      have hn := n.toNat_lt
      have hext : extBytes (setHighBit 127 flag &&& 0x7F) = 8 := by
        rw [setHighBit_low7 _ _ (by decide)]; rfl
      have hok : lenOk 8 (UInt64.ofNat n.toNat) = true ↔
          LenForm.long n = encodeLen n.toNat ∧ n.toNat < 2 ^ 63 := by
        rw [(minimal_iff 0 n).2, lenOk, if_neg (by decide), if_neg (by decide), len64Ok_iff,
          UInt64.ofNat_toNat]
        exact and_comm
      rw [decodeLen, LenForm.wire, List.cons_append,
        decodeLen_cons hext (by simp) (rawLen_wire b0 _ t (by decide) (by decide) hn)]
      simp only [hok, List.length_cons, beBytes_length]

/-- `decode_len` waits for the extended length. -/
theorem decodeLen_needMore {b0 b1 : UInt8} {t : List UInt8} {k : Nat}
    (hk : extBytes (b1 &&& 0x7F) = k) (hlt : t.length < k) :
    Libws.decodeLen (b0 :: b1 :: t) = .error .errNeedMore := by
  have hlen : (b0 :: b1 :: t).length < 2 + k := by
    simp only [List.length_cons]
    omega
  simp only [Libws.decodeLen, List.getD_cons_succ, List.getD_cons_zero, hk, if_pos hlen]

/-- **A length form that is cut short is waited for.** -/
theorem decodeLen_part (b0 : UInt8) (flag : Bool) {f : LenForm} {p : List UInt8}
    (hp : p <+: f.wire flag) (hne : p ≠ []) (hlt : p.length < (f.wire flag).length) :
    Libws.decodeLen (b0 :: p) = .error .errNeedMore := by
  obtain ⟨b1, t, rfl⟩ := List.exists_cons_of_ne_nil hne
  cases f with
  | tiny n =>
      simp only [LenForm.wire, List.length_cons, List.length_nil] at hlt
      omega
  | short n =>
      obtain ⟨rfl, -⟩ := List.cons_prefix_cons.mp hp
      refine decodeLen_needMore (k := 2) (by rw [setHighBit_low7 _ _ (by decide)]; rfl) ?_
      simp only [LenForm.wire, List.length_cons, beBytes_length] at hlt
      omega
  | long n =>
      obtain ⟨rfl, -⟩ := List.cons_prefix_cons.mp hp
      refine decodeLen_needMore (k := 8) (by rw [setHighBit_low7 _ _ (by decide)]; rfl) ?_
      simp only [LenForm.wire, List.length_cons, beBytes_length] at hlt
      omega

/-- Bytes behind a mark are the beginning of an extended length, or have one at their beginning. -/
theorem exists_extended {flag : Bool} {b1 : UInt8} {k : Nat}
    (h : ∀ x : List UInt8, x.length = k → ∃ f : LenForm, f.InField ∧ f.wire flag = b1 :: x)
    (t : List UInt8) : ∃ f : LenForm, f.InField ∧
      (f.wire flag <+: b1 :: t ∨ b1 :: t <+: f.wire flag) := by
  rcases Nat.le_total k t.length with hle | hge
  · obtain ⟨f, hf, hwire⟩ := h (t.take k) (List.length_take_of_le hle)
    refine ⟨f, hf, .inl ?_⟩
    rw [hwire, List.cons_prefix_cons]
    exact ⟨rfl, List.take_prefix ..⟩
  · -- any bytes that complete the length will do
    obtain ⟨f, hf, hwire⟩ := h (t ++ List.replicate (k - t.length) 0) (by simp; omega)
    refine ⟨f, hf, .inr ?_⟩
    rw [hwire, List.cons_prefix_cons]
    exact ⟨rfl, List.prefix_append ..⟩

/-- **Every buffer behind its first byte** starts with a length form, or is the beginning of one. -/
theorem exists_lenForm {bs : List UInt8} (hne : bs ≠ []) : ∃ (flag : Bool) (f : LenForm),
    f.InField ∧ (f.wire flag <+: bs ∨ bs <+: f.wire flag) := by
  obtain ⟨b1, t, rfl⟩ := List.exists_cons_of_ne_nil hne
  have hsplit := byte1_split b1
  have hlow : (b1 &&& 0x7F).toNat < 128 := UInt8.lt_iff_toNat_lt.mp (low7_lt b1)
  generalize b1 &&& 0x7F = low at hsplit hlow
  generalize decide (b1 &&& 0x80 ≠ 0) = flag at hsplit
  refine ⟨flag, ?_⟩
  -- the seven low bits are one of the two marks, or the length itself
  by_cases h126 : low = 126
  · refine exists_extended (k := 2) (fun x hx => ⟨.short (UInt16.ofNat (beVal x)), trivial, ?_⟩) t
    have hlt := beVal_lt x
    rw [hx] at hlt
    rw [LenForm.wire, UInt16.toNat_ofNat_of_lt' hlt, ← hx, beBytes_beVal, ← h126, hsplit]
  · by_cases h127 : low = 127
    · refine exists_extended (k := 8) (fun x hx => ⟨.long (UInt64.ofNat (beVal x)), trivial, ?_⟩) t
      have hlt := beVal_lt x
      rw [hx] at hlt
      rw [LenForm.wire, UInt64.toNat_ofNat_of_lt' hlt, ← hx, beBytes_beVal, ← h127, hsplit]
    · have hne' : low.toNat ≠ 126 ∧ low.toNat ≠ 127 :=
        ⟨fun h => h126 (UInt8.toNat.inj h), fun h => h127 (UInt8.toNat.inj h)⟩
      refine ⟨.tiny low, show low.toNat < 126 by omega, .inl ?_⟩
      rw [LenForm.wire, hsplit, List.cons_prefix_cons]
      exact ⟨rfl, List.nil_prefix⟩

theorem classifyOpcode_eq : ∀ op : UInt8,
    OpClass.of (wsClassifyOpcode op) = classifyOpcode (Fin.ofNat 16 op.toNat) :=
  forall_uint8 (P := fun op => OpClass.of (wsClassifyOpcode op)
    = classifyOpcode (Fin.ofNat 16 op.toNat)) (by decide +kernel)

theorem controlTooBig_eq (op : UInt8) (plen : UInt64) : controlTooBig op plen
    = !controlPayloadOk (classifyOpcode (Fin.ofNat 16 op.toNat)) plen.toNat := by
  have hgt : plen > 125 ↔ 125 < plen.toNat := UInt64.lt_iff_toNat_lt
  rw [← classifyOpcode_eq, controlTooBig]
  simp only [hgt]
  cases wsClassifyOpcode op with
  | data | reserved => simp [OpClass.of, controlPayloadOk]
  | control =>
      rw [Bool.eq_iff_iff]
      simp [OpClass.of, controlPayloadOk]

theorem closeCodeSendable_eq (code : UInt16) :
    wsCloseCodeSendable code = closeCodeSendable code.toNat := by
  have e : ∀ v : UInt16, code = v ↔ code.toNat = v.toNat := fun v => UInt16.toNat_inj.symm
  have hlo : inRange16 code 1000 1011 = decide (1000 ≤ code.toNat ∧ code.toNat ≤ 1011) := by
    simp [inRange16, UInt16.le_iff_toNat_le]
  have hhi : inRange16 code 3000 4999 = decide (3000 ≤ code.toNat ∧ code.toNat ≤ 4999) := by
    simp [inRange16, UInt16.le_iff_toNat_le]
  have hres : closeReserved code
      = decide (code.toNat = 1004 ∨ code.toNat = 1005 ∨ code.toNat = 1006) := by
    simp [closeReserved, e]
  rw [wsCloseCodeSendable, closeProtocolOk, hlo, hhi, hres, closeCodeSendable]
  cases decide (1000 ≤ code.toNat ∧ code.toNat ≤ 1011) <;> simp [Bool.and_assoc]

/-- The header with the model's length form. -/
def headerWire (h : WsFrameHeader) : List UInt8 :=
  buildByte0 h :: ((encodeLen h.payloadLen.toNat).wire h.masked ++ keyBytes h)

/-- **The primitives are the model's.**  For every input, `ws_mask` masks as `maskBytes`;
`ws_build_header` writes the length form of `encodeLen` when the header fits, and nothing when it
does not; a buffer starts with a length form or is the beginning of one, and `decode_len` waits for
the rest of a form that is cut short, accepts a whole one exactly when it is the minimal form of a
length below `2 ^ 63`, and reads the length of `decodeLen`; and the classes of opcodes, the bound on
a control payload and the close codes an endpoint may send are the model's. -/
theorem wire_model :
    (∀ (a p r : List UInt8) (key : MaskKey), wsMask (a ++ p ++ r) a.length p.length key
      = a ++ maskBytes (fun i => key[i]) p ++ r) ∧
    (∀ h buf, wsBuildHeader h buf = if buf.length < (headerWire h).length then .error .errTooSmall
      else .ok ((headerWire h).length, headerWire h ++ buf.drop (headerWire h).length)) ∧
    (∀ bs : List UInt8, bs ≠ [] → ∃ (flag : Bool) (f : LenForm),
      f.InField ∧ (f.wire flag <+: bs ∨ bs <+: f.wire flag)) ∧
    (∀ b0 flag (f : LenForm) p, p <+: f.wire flag → p ≠ [] → p.length < (f.wire flag).length →
      Libws.decodeLen (b0 :: p) = .error .errNeedMore) ∧
    (∀ b0 flag (f : LenForm) t, f.InField → Libws.decodeLen (b0 :: (f.wire flag ++ t))
      = if f = encodeLen (decodeLen f) ∧ decodeLen f < 2 ^ 63 then
          .ok (UInt64.ofNat (decodeLen f), 1 + (f.wire flag).length)
        else .error .errProtocol) ∧
    (∀ op plen, OpClass.of (wsClassifyOpcode op) = classifyOpcode (Fin.ofNat 16 op.toNat) ∧
      controlTooBig op plen
        = !controlPayloadOk (classifyOpcode (Fin.ofNat 16 op.toNat)) plen.toNat) ∧
    ∀ code : UInt16, wsCloseCodeSendable code = closeCodeSendable code.toNat := by
  refine ⟨fun a p r key => ?_, fun h buf => ?_, fun bs hne => exists_lenForm hne,
    fun b0 flag f p hp hne hlt => decodeLen_part b0 flag hp hne hlt,
    fun b0 flag f t hf => decodeLen_wire b0 flag hf t,
    fun op plen => ⟨classifyOpcode_eq op, controlTooBig_eq op plen⟩, closeCodeSendable_eq⟩
  · rw [wsMask_append, maskBytes_eq]
  · rw [headerWire, ← headerBytes_lenForm]
    split
    · rename_i hlt
      exact wsBuildHeader_small h buf hlt
    · rename_i hge
      exact wsBuildHeader_eq h buf (Nat.le_of_not_lt hge)

end Libws.WsProto
