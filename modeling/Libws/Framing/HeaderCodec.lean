import Mathlib.Data.UInt
import Libws.Support.Bytes
import Libws.Framing.Frame

/-!
# Framing — the header codec

`headerBytes h` is the header of `h` as a list.  `ws_build_header` writes exactly these bytes
(`wsBuildHeader_eq`); `ws_parse_header` reads them back, whatever follows
(`parse_headerBytes`), and accepts nothing else (`parse_ok_inv`).  So the two functions are
inverse to each other on well-formed headers.
-/

namespace Libws
open Libws.Support

/-! ### Bits of a byte -/

theorem byte0_split (b : UInt8) (h : (b >>> 4) &&& 0x07 = 0) :
    setHighBit (b &&& 0x0F &&& 0x0F) (decide (b &&& 0x80 ≠ 0)) = b :=
  forall_uint8 (P := fun b => (b >>> 4) &&& 0x07 = 0 →
    setHighBit (b &&& 0x0F &&& 0x0F) (decide (b &&& 0x80 ≠ 0)) = b) (by decide +kernel) b h

theorem byte1_split (b : UInt8) : setHighBit (b &&& 0x7F) (decide (b &&& 0x80 ≠ 0)) = b :=
  forall_uint8 (P := fun b => setHighBit (b &&& 0x7F) (decide (b &&& 0x80 ≠ 0)) = b)
    (by decide +kernel) b

theorem low7_lt (b : UInt8) : b &&& 0x7F < 128 :=
  forall_uint8 (P := fun b => b &&& 0x7F < 128) (by decide +kernel) b

theorem low4_lt (b : UInt8) : b &&& 0x0F < 16 :=
  forall_uint8 (P := fun b => b &&& 0x0F < 16) (by decide +kernel) b

theorem setHighBit_low7 (x : UInt8) (f : Bool) (h : x < 128) : setHighBit x f &&& 0x7F = x :=
  forall_uint8 (P := fun x => ∀ f, x < 128 → setHighBit x f &&& 0x7F = x)
    (by decide +kernel) x f h

theorem setHighBit_high (x : UInt8) (f : Bool) (h : x < 128) :
    decide (setHighBit x f &&& 0x80 ≠ 0) = f :=
  forall_uint8 (P := fun x => ∀ f, x < 128 → decide (setHighBit x f &&& 0x80 ≠ 0) = f)
    (by decide +kernel) x f h

theorem setHighBit_opcode (op : UInt8) (f : Bool) (h : op < 16) :
    setHighBit (op &&& 0x0F) f &&& 0x0F = op ∧
    decide (setHighBit (op &&& 0x0F) f &&& 0x80 ≠ 0) = f ∧
    (setHighBit (op &&& 0x0F) f >>> 4) &&& 0x07 = 0 :=
  forall_uint8 (P := fun op => ∀ f, op < 16 → setHighBit (op &&& 0x0F) f &&& 0x0F = op ∧
    decide (setHighBit (op &&& 0x0F) f &&& 0x80 ≠ 0) = f ∧
    (setHighBit (op &&& 0x0F) f >>> 4) &&& 0x07 = 0) (by decide +kernel) op f h

/-! ### The length loops -/

theorem shift_or_toNat (v : UInt64) (b : UInt8) (h : v.toNat < 2 ^ 56) :
    ((v <<< 8) ||| b.toUInt64).toNat = v.toNat * 256 + b.toNat := by
  have hb := b.toNat_lt
  have hs : (v <<< 8).toNat = 2 ^ 8 * v.toNat := by
    rw [UInt64.toNat_shiftLeft, Nat.shiftLeft_eq]
    show v.toNat * 2 ^ 8 % 2 ^ 64 = _
    omega
  rw [UInt64.toNat_or, hs, UInt8.toNat_toUInt64, ← Nat.two_pow_add_eq_or_of_lt hb]
  omega

/-- `read_be` reads a numeral of at most eight bytes. -/
theorem readBe_toNat (buf : List UInt8) {n : Nat} (hn : n ≤ 8) (hl : n ≤ buf.length) :
    (readBe buf n).toNat = beVal (buf.take n) := by
  have key : n ≤ n → (readBe buf n).toNat = beVal (buf.take n) := by
    refine forRange_inv (P := fun k (v : UInt64) => k ≤ n → v.toNat = beVal (buf.take k))
      (fun _ => rfl) ?_
    intro i v hi ih _
    have hv := ih hi.le
    have hlt : beVal (buf.take i) < 256 ^ i := by
      have := beVal_lt (buf.take i)
      rwa [List.length_take, Nat.min_eq_left (by omega)] at this
    have h56 : (256 : Nat) ^ i ≤ 2 ^ 56 := by
      calc (256 : Nat) ^ i ≤ 256 ^ 7 := Nat.pow_le_pow_right (by decide) (by omega)
        _ = 2 ^ 56 := by decide
    rw [shift_or_toNat _ _ (by omega), hv, List.take_add_one,
      List.getElem?_eq_getElem (by omega), Option.toList_some, beVal_concat]
    simp [List.getElem?_eq_getElem (show i < buf.length by omega)]
  exact key le_rfl

/-- `write_be` writes the numeral. -/
theorem writeBe_append (a e r : List UInt8) (v : UInt64) (h : e.length ≤ 8) :
    writeBe (a ++ e ++ r) a.length v e.length = a ++ beBytes e.length v.toNat ++ r := by
  have hv : (List.range e.length).map (fun i => (v >>> (8 * UInt64.ofNat i)).toUInt8)
      = (List.range e.length).map fun i => UInt8.ofNat (v.toNat / 256 ^ i) :=
    List.map_congr_left fun i hi =>
      shiftRight_toUInt8 v (lt_of_lt_of_le (List.mem_range.mp hi) h)
  rw [writeBe, forRange_set_rev _ _ _ _ (by simp), hv, beBytes_eq_reverse]
  exact splice_append_mid a e r (beBytes_length _ _)

/-! ### The header as a list -/

/-- The mask flag and the 7-bit length field. -/
def buildByte1 (h : WsFrameHeader) : UInt8 :=
  setHighBit (lenField h.payloadLen (hdrLen h.payloadLen)) h.masked

/-- The mask key, when there is one. -/
def keyBytes (h : WsFrameHeader) : List UInt8 := if h.masked then h.maskKey.toList else []

/-- The header of `h`: two bytes, the extended length, the mask key. -/
def headerBytes (h : WsFrameHeader) : List UInt8 :=
  [buildByte0 h, buildByte1 h] ++ beBytes (hdrLen h.payloadLen - 2) h.payloadLen.toNat
    ++ keyBytes h

theorem hdrLen_cases (plen : UInt64) :
    hdrLen plen = 2 ∧ plen.toNat < 126 ∨
    hdrLen plen = 4 ∧ 126 ≤ plen.toNat ∧ plen.toNat ≤ 0xFFFF ∨
    hdrLen plen = 10 ∧ 0xFFFF < plen.toNat := by
  simp only [hdrLen, UInt64.lt_iff_toNat_lt, UInt64.le_iff_toNat_le]
  show (if plen.toNat < 126 then 2 else if plen.toNat ≤ 0xFFFF then 4 else 10) = 2 ∧ _ ∨
    (if plen.toNat < 126 then 2 else if plen.toNat ≤ 0xFFFF then 4 else 10) = 4 ∧ _ ∨
    (if plen.toNat < 126 then 2 else if plen.toNat ≤ 0xFFFF then 4 else 10) = 10 ∧ _
  split
  · exact .inl ⟨rfl, ‹_›⟩
  · split
    · exact .inr (.inl ⟨rfl, by omega, ‹_›⟩)
    · exact .inr (.inr ⟨rfl, by omega⟩)

theorem keyBytes_length (h : WsFrameHeader) :
    hdrLen h.payloadLen + (keyBytes h).length = totalLen (hdrLen h.payloadLen) h.masked := by
  rw [keyBytes, totalLen]
  split <;> simp

theorem headerBytes_length (h : WsFrameHeader) :
    (headerBytes h).length = totalLen (hdrLen h.payloadLen) h.masked := by
  have h2 : 2 ≤ hdrLen h.payloadLen := by
    rcases hdrLen_cases h.payloadLen with ⟨e, -⟩ | ⟨e, -⟩ | ⟨e, -⟩ <;> omega
  rw [← keyBytes_length]
  simp only [headerBytes, List.length_append, List.length_cons, List.length_nil, beBytes_length]
  omega

theorem headerBytes_length_ge (h : WsFrameHeader) : 2 ≤ (headerBytes h).length := by
  simp [headerBytes]

theorem headerBytes_length_le (h : WsFrameHeader) : (headerBytes h).length ≤ 14 := by
  rw [headerBytes_length, totalLen]
  rcases hdrLen_cases h.payloadLen with ⟨e, -⟩ | ⟨e, -⟩ | ⟨e, -⟩ <;> split <;> omega

theorem hdrLen_bounds (plen : UInt64) : 2 ≤ hdrLen plen ∧ hdrLen plen ≤ 10 := by
  rcases hdrLen_cases plen with ⟨e, -⟩ | ⟨e, -⟩ | ⟨e, -⟩ <;> omega

/-- `build_len`, over a buffer cut at the end of the length field. -/
theorem buildLen_append (h : WsFrameHeader) (x y : UInt8) (e r : List UInt8)
    (he : e.length = hdrLen h.payloadLen - 2) :
    buildLen h ([x, y] ++ e ++ r) (hdrLen h.payloadLen)
      = [x, buildByte1 h] ++ beBytes (hdrLen h.payloadLen - 2) h.payloadLen.toNat ++ r := by
  have hb := hdrLen_bounds h.payloadLen
  have hw := writeBe_append [x, buildByte1 h] e r h.payloadLen (by omega)
  rw [he] at hw
  rw [buildLen]
  split
  · simpa [buildByte1] using hw
  · have h0 : hdrLen h.payloadLen - 2 = 0 := by omega
    rw [h0] at he ⊢
    simp [List.eq_nil_of_length_eq_zero he, buildByte1, beBytes]

/-- `build_mask`, over a buffer cut at both ends of the mask key. -/
theorem buildMask_append (h : WsFrameHeader) (a k r : List UInt8)
    (hk : k.length = (keyBytes h).length) :
    buildMask h (a ++ k ++ r) a.length = a ++ keyBytes h ++ r := by
  rw [buildMask]
  rw [keyBytes] at hk ⊢
  split
  · rename_i hm
    rw [if_pos hm] at hk
    have hc := wsMemcpy_append a (k ++ r) h.maskKey.toList (by simp [hk])
    rw [← hk, List.drop_left, hk] at hc
    simpa using hc
  · rename_i hm
    rw [if_neg hm] at hk
    simp [List.eq_nil_of_length_eq_zero hk]

/-- **`ws_build_header` writes `headerBytes`**, and leaves the rest of the buffer alone. -/
theorem wsBuildHeader_eq (h : WsFrameHeader) (buf : List UInt8)
    (hcap : (headerBytes h).length ≤ buf.length) :
    wsBuildHeader h buf =
      .ok ((headerBytes h).length, headerBytes h ++ buf.drop (headerBytes h).length) := by
  have hlen := headerBytes_length h
  have hkey := keyBytes_length h
  have hb := hdrLen_bounds h.payloadLen
  -- the fields of the header, as they stand in the caller's buffer
  obtain ⟨xy, t, rfl, hxy⟩ := exists_append_of_le (l := buf) (n := 2) (by omega)
  obtain ⟨x, y, rfl⟩ := List.length_eq_two.mp hxy
  simp only [List.length_append, List.length_cons, List.length_nil] at hcap
  obtain ⟨e, t, rfl, he⟩ := exists_append_of_le (l := t) (n := hdrLen h.payloadLen - 2) (by omega)
  simp only [List.length_append] at hcap
  obtain ⟨k, r, rfl, hk⟩ := exists_append_of_le (l := t) (n := (keyBytes h).length) (by omega)
  have hb1 : buildLen h (([x, y] ++ (e ++ (k ++ r))).set 0 (buildByte0 h)) (hdrLen h.payloadLen)
      = [buildByte0 h, buildByte1 h] ++ beBytes (hdrLen h.payloadLen - 2) h.payloadLen.toNat
        ++ k ++ r := by
    have := buildLen_append h (buildByte0 h) y e (k ++ r) he
    simpa using this
  have hb2 : buildMask h ([buildByte0 h, buildByte1 h]
      ++ beBytes (hdrLen h.payloadLen - 2) h.payloadLen.toNat ++ k ++ r) (hdrLen h.payloadLen)
      = headerBytes h ++ r := by
    have := buildMask_append h ([buildByte0 h, buildByte1 h]
      ++ beBytes (hdrLen h.payloadLen - 2) h.payloadLen.toNat) k r hk
    rw [List.length_append, beBytes_length, List.length_cons, List.length_singleton,
      show 1 + 1 + (hdrLen h.payloadLen - 2) = hdrLen h.payloadLen by omega] at this
    exact this
  have hnot : ¬ ([x, y] ++ (e ++ (k ++ r))).length < totalLen (hdrLen h.payloadLen) h.masked := by
    simp only [List.length_append, List.length_cons, List.length_nil]; omega
  have hdrop : ([x, y] ++ (e ++ (k ++ r))).drop (headerBytes h).length = r := by
    have hn : (headerBytes h).length = ([x, y] ++ e ++ k).length := by
      simp only [List.length_append, List.length_cons, List.length_nil]; omega
    rw [hn, show [x, y] ++ (e ++ (k ++ r)) = [x, y] ++ e ++ k ++ r by simp, List.drop_left]
  rw [wsBuildHeader, hdrop, hlen]
  simp only [if_neg hnot, hb1, hb2]

theorem wsBuildHeader_small (h : WsFrameHeader) (buf : List UInt8)
    (hcap : buf.length < (headerBytes h).length) : wsBuildHeader h buf = .error .errTooSmall := by
  rw [headerBytes_length] at hcap
  simp [wsBuildHeader, hcap]

/-! ### Parsing what was built -/

/-- A header of RFC 6455 §5.2 and §5.5 without extensions. -/
structure WsFrameHeader.WellFormed (h : WsFrameHeader) : Prop where
  rsv : h.rsv = 0
  opcode : h.opcode < 16
  len : h.payloadLen.toNat < 2 ^ 63
  control : wsClassifyOpcode h.opcode = .control → h.fin = true ∧ h.payloadLen.toNat ≤ 125

theorem headerWellFormed_iff (h : WsFrameHeader) :
    headerWellFormed h = true ↔ h.rsv = 0 ∧
      (wsClassifyOpcode h.opcode = .control → h.fin = true ∧ h.payloadLen.toNat ≤ 125) := by
  have h125 : h.payloadLen > 125 ↔ 125 < h.payloadLen.toNat := UInt64.lt_iff_toNat_lt
  simp only [headerWellFormed, controlTooBig, controlFragmented, h125]
  by_cases hr : h.rsv = 0 <;> by_cases hc : wsClassifyOpcode h.opcode = .control <;>
    cases hf : h.fin <;> simp [hr, hc]

theorem lenField_toNat (plen : UInt64) :
    (hdrLen plen = 2 → (lenField plen (hdrLen plen)).toNat = plen.toNat) ∧
    (hdrLen plen = 4 → lenField plen (hdrLen plen) = 126) ∧
    (hdrLen plen = 10 → lenField plen (hdrLen plen) = 127) := by
  refine ⟨fun e => ?_, fun e => by simp [lenField, e], fun e => by simp [lenField, e]⟩
  rcases hdrLen_cases plen with ⟨_, h⟩ | ⟨e', -⟩ | ⟨e', -⟩
  · rw [lenField, if_pos e, UInt64.toNat_toUInt8]; omega
  · omega
  · omega

theorem lenField_lt (plen : UInt64) : lenField plen (hdrLen plen) < 128 := by
  obtain ⟨h₂, h₄, h₁₀⟩ := lenField_toNat plen
  rcases hdrLen_cases plen with ⟨e, h⟩ | ⟨e, -⟩ | ⟨e, -⟩
  · rw [UInt8.lt_iff_toNat_lt, h₂ e]; show plen.toNat < 128; omega
  · rw [h₄ e]; decide
  · rw [h₁₀ e]; decide

theorem extBytes_lenField (plen : UInt64) :
    extBytes (lenField plen (hdrLen plen)) = hdrLen plen - 2 := by
  obtain ⟨h₂, h₄, h₁₀⟩ := lenField_toNat plen
  rcases hdrLen_cases plen with ⟨e, h⟩ | ⟨e, -⟩ | ⟨e, -⟩
  · have ne : ∀ v : UInt8, 126 ≤ v.toNat → lenField plen (hdrLen plen) ≠ v := by
      intro v hv he
      have := h₂ e
      rw [he] at this
      omega
    rw [extBytes, if_neg (ne 126 (by decide)), if_neg (ne 127 (by decide)), e]
  · rw [h₄ e, e]; rfl
  · rw [h₁₀ e, e]; rfl

theorem len64Ok_iff (v : UInt64) :
    len64Ok v = true ↔ v.toNat < 2 ^ 63 ∧ 0xFFFF < v.toNat := by
  have hlt := v.toNat_lt
  have hs : v >>> 63 = 0 ↔ v.toNat < 2 ^ 63 := by
    rw [← UInt64.toNat_inj, UInt64.toNat_shiftRight]
    show v.toNat >>> 63 = 0 ↔ _
    rw [Nat.shiftRight_eq_div_pow]; omega
  have hg : v > 0xFFFF ↔ 0xFFFF < v.toNat := UInt64.lt_iff_toNat_lt
  rw [len64Ok]
  split
  · rename_i hne
    have := mt hs.mpr hne
    simp only [Bool.false_eq_true, false_iff]; omega
  · rename_i he
    have := hs.mp (not_not.mp he)
    simp only [decide_eq_true_eq, hg]; omega

theorem lenOk_hdrLen {plen : UInt64} (h : plen.toNat < 2 ^ 63) :
    lenOk (hdrLen plen - 2) plen = true := by
  rcases hdrLen_cases plen with ⟨e, -⟩ | ⟨e, h126, -⟩ | ⟨e, hbig⟩
  · simp [lenOk, e]
  · have hge : plen ≥ 126 := UInt64.le_iff_toNat_le.mpr h126
    simp [lenOk, e, hge]
  · simp [lenOk, e, (len64Ok_iff plen).mpr ⟨h, hbig⟩]

/-- The length field of a built header decodes to the length. -/
theorem decodeLen_headerBytes {h : WsFrameHeader} (hl : h.payloadLen.toNat < 2 ^ 63)
    (s : List UInt8) :
    decodeLen (headerBytes h ++ s) = .ok (h.payloadLen, hdrLen h.payloadLen) := by
  have hb := hdrLen_bounds h.payloadLen
  have hb1 : (headerBytes h ++ s).getD 1 0 = buildByte1 h := by simp [headerBytes]
  have hlow : buildByte1 h &&& 0x7F = lenField h.payloadLen (hdrLen h.payloadLen) :=
    setHighBit_low7 _ _ (lenField_lt _)
  have hlen : ¬ (headerBytes h ++ s).length < 2 + (hdrLen h.payloadLen - 2) := by
    have := keyBytes_length h
    rw [List.length_append, headerBytes_length]; omega
  have hdrop : (headerBytes h ++ s).drop 2
      = beBytes (hdrLen h.payloadLen - 2) h.payloadLen.toNat ++ (keyBytes h ++ s) := by
    simp [headerBytes]
  have hraw : rawLen (headerBytes h ++ s) (hdrLen h.payloadLen - 2) = h.payloadLen := by
    apply UInt64.toNat.inj
    rw [rawLen]
    split
    · rw [hb1, hlow, UInt8.toNat_toUInt64, (lenField_toNat _).1 (by omega)]
    · have hpow : h.payloadLen.toNat < 256 ^ (hdrLen h.payloadLen - 2) := by
        rcases hdrLen_cases h.payloadLen with ⟨e, -⟩ | ⟨e, -, h'⟩ | ⟨e, -⟩
        · omega
        · rw [e]; exact lt_of_le_of_lt h' (by decide)
        · rw [e]; exact lt_of_lt_of_le hl (by decide)
      rw [hdrop, readBe_toNat _ (by omega) (by simp),
        List.take_append_of_le_length (by simp), List.take_of_length_le (by simp),
        beVal_beBytes hpow]
  rw [decodeLen, hb1, hlow, extBytes_lenField]
  simp only [if_neg hlen, hraw, lenOk_hdrLen hl]
  simp [show 2 + (hdrLen h.payloadLen - 2) = hdrLen h.payloadLen by omega]

theorem keyAt_append (a r : List UInt8) (key : MaskKey) :
    keyAt (a ++ (key.toList ++ r)) a.length = key := by
  apply Vector.ext
  intro i hi
  have hget : (a ++ (key.toList ++ r))[a.length + i]? = some key[i] := by
    rw [List.getElem?_append_right (by omega), Nat.add_sub_cancel_left,
      List.getElem?_append_left (by simpa using hi)]
    simp
  simp [keyAt, hget]

/-- The header `ws_parse_header` leaves in `out` for `h`: an unmasked one keeps `out`'s key. -/
def WsFrameHeader.into (h out : WsFrameHeader) : WsFrameHeader :=
  if h.masked then h else { h with maskKey := out.maskKey }

/-- **A built header parses to itself**, whatever follows it. -/
theorem parse_headerBytes {h : WsFrameHeader} (hw : h.WellFormed) (out : WsFrameHeader)
    (s : List UInt8) :
    wsParseHeader (headerBytes h ++ s) out = .ok ((headerBytes h).length, h.into out) := by
  have hb := hdrLen_bounds h.payloadLen
  have hlen := headerBytes_length h
  have h2 : ¬ (headerBytes h ++ s).length < 2 := by
    have := headerBytes_length_ge h
    rw [List.length_append]; omega
  have hb0 : (headerBytes h ++ s).getD 0 0 = buildByte0 h := by simp [headerBytes]
  have hb1 : (headerBytes h ++ s).getD 1 0 = buildByte1 h := by simp [headerBytes]
  obtain ⟨hop, hfin, hrsv⟩ := setHighBit_opcode h.opcode h.fin hw.opcode
  have hfill : fillFields (headerBytes h ++ s) h.payloadLen out
      = { h with maskKey := out.maskKey } := by
    rw [fillFields, hb0, hb1]
    rw [buildByte0, buildByte1, hop, hfin, hrsv, hw.rsv, setHighBit_high _ _ (lenField_lt _)]
  have hwf : headerWellFormed { h with maskKey := out.maskKey } = true :=
    (headerWellFormed_iff _).mpr ⟨hw.rsv, hw.control⟩
  rw [wsParseHeader, if_neg h2, decodeLen_headerBytes hw.len]
  simp only [hfill, finishParse, hwf, parseMask]
  by_cases hm : h.masked = true
  · -- the key is the last field of the header
    have hkey : keyAt (headerBytes h ++ s) (hdrLen h.payloadLen) = h.maskKey := by
      have := keyAt_append ([buildByte0 h, buildByte1 h]
        ++ beBytes (hdrLen h.payloadLen - 2) h.payloadLen.toNat) s h.maskKey
      rw [List.length_append, beBytes_length, List.length_cons, List.length_singleton,
        show 1 + 1 + (hdrLen h.payloadLen - 2) = hdrLen h.payloadLen by omega] at this
      simpa [headerBytes, keyBytes, hm] using this
    have hroom : ¬ (headerBytes h ++ s).length < hdrLen h.payloadLen + 4 := by
      rw [List.length_append, hlen, totalLen, if_pos hm]; omega
    rw [if_neg (by decide), if_neg (by simp [hm]), if_neg hroom, hkey, hlen, totalLen, if_pos hm,
      WsFrameHeader.into, if_pos hm]
  · simp [WsFrameHeader.into, hm, hlen, totalLen]

/-! ### Parsing accepts nothing else -/

/-- An extended length field is the numeral of the value read from it. -/
theorem rawLen_ext {b0 b1 : UInt8} {t : List UInt8} {ext : Nat} {plen : UInt64} (h8 : ext ≤ 8)
    (hl : ext ≤ t.length) (h0 : ext ≠ 0) (hr : rawLen (b0 :: b1 :: t) ext = plen) :
    plen.toNat < 256 ^ ext ∧ beBytes ext plen.toNat = t.take ext := by
  rw [rawLen, if_neg h0] at hr
  have hv := readBe_toNat t h8 hl
  rw [show readBe t ext = plen from hr] at hv
  have hlen : (t.take ext).length = ext := List.length_take_of_le hl
  constructor
  · rw [hv]
    simpa [hlen] using beVal_lt (t.take ext)
  · have := beBytes_beVal (t.take ext)
    rwa [hlen, ← hv] at this

/-- An extended form that `len_ok` accepts is the one `hdr_len` chooses. -/
theorem hdrLen_of_lenOk {ext : Nat} {plen : UInt64} (hext : ext = 2 ∨ ext = 8)
    (hlt : plen.toNat < 256 ^ ext) (hok : lenOk ext plen = true) :
    hdrLen plen = 2 + ext ∧ plen.toNat < 2 ^ 63 := by
  have hcase := hdrLen_cases plen
  rcases hext with rfl | rfl
  · have hge : 126 ≤ plen.toNat := by simpa [lenOk, UInt64.le_iff_toNat_le] using hok
    omega
  · obtain ⟨h63, hbig⟩ := (len64Ok_iff plen).mp (by simpa [lenOk] using hok)
    omega

/-- An accepted length field is the minimal one of its value, below `2 ^ 63`. -/
theorem decodeLen_ok_inv {b0 b1 : UInt8} {t : List UInt8} {plen : UInt64} {hdr : Nat}
    (hd : decodeLen (b0 :: b1 :: t) = .ok (plen, hdr)) :
    hdrLen plen = hdr ∧ plen.toNat < 2 ^ 63 ∧ lenField plen hdr = b1 &&& 0x7F ∧
      ∃ s, t = beBytes (hdr - 2) plen.toNat ++ s := by
  simp only [decodeLen, List.getD_cons_succ, List.getD_cons_zero, List.length_cons] at hd
  have hlow : (b1 &&& 0x7F).toNat < 128 := UInt8.lt_iff_toNat_lt.mp (low7_lt b1)
  split at hd
  · cases hd
  · rename_i hroom
    split at hd
    · cases hd
    · rename_i hok
      simp only [Except.ok.injEq, Prod.mk.injEq] at hd
      obtain ⟨hp, rfl⟩ := hd
      simp only [Bool.not_eq_true', Bool.not_eq_false] at hok
      have hcase := hdrLen_cases plen
      -- the 16-bit form, the 64-bit form and the 7-bit form
      by_cases h126 : b1 &&& 0x7F = 126
      · have hx : extBytes (b1 &&& 0x7F) = 2 := by rw [h126]; rfl
        rw [hx] at hp hroom hok ⊢
        rw [hp] at hok
        obtain ⟨hlt, hb⟩ := rawLen_ext (by decide) (by omega) (by decide) hp
        obtain ⟨h4, h63⟩ := hdrLen_of_lenOk (.inl rfl) hlt hok
        refine ⟨h4, h63, ?_, t.drop 2, ?_⟩
        · rw [h126, ← h4]; exact (lenField_toNat plen).2.1 h4
        · rw [show 2 + 2 - 2 = 2 from rfl, hb, List.take_append_drop]
      · by_cases h127 : b1 &&& 0x7F = 127
        · have hx : extBytes (b1 &&& 0x7F) = 8 := by rw [h127]; rfl
          rw [hx] at hp hroom hok ⊢
          rw [hp] at hok
          obtain ⟨hlt, hb⟩ := rawLen_ext (by decide) (by omega) (by decide) hp
          obtain ⟨h10, h63⟩ := hdrLen_of_lenOk (.inr rfl) hlt hok
          refine ⟨h10, h63, ?_, t.drop 8, ?_⟩
          · rw [h127, ← h10]; exact (lenField_toNat plen).2.2 h10
          · rw [show 2 + 8 - 2 = 8 from rfl, hb, List.take_append_drop]
        · have hx : extBytes (b1 &&& 0x7F) = 0 := by simp [extBytes, h126, h127]
          rw [hx] at hp ⊢
          have hv : plen.toNat = (b1 &&& 0x7F).toNat := by
            rw [← hp, rawLen, if_pos rfl]; rfl
          have n126 : (b1 &&& 0x7F).toNat ≠ 126 := fun e => h126 (UInt8.toNat.inj e)
          have n127 : (b1 &&& 0x7F).toNat ≠ 127 := fun e => h127 (UInt8.toNat.inj e)
          have h2 : hdrLen plen = 2 := by omega
          refine ⟨h2, by omega, ?_, t, rfl⟩
          apply UInt8.toNat.inj
          rw [show 2 + 0 = hdrLen plen by omega, (lenField_toNat plen).1 h2, hv]

theorem keyAt_toList (a r : List UInt8) (h : 4 ≤ r.length) :
    (keyAt (a ++ r) a.length).toList = r.take 4 := by
  apply List.ext_getElem
  · simp [h]
  · intro i h₁ h₂
    have hi : i < 4 := by simpa using h₁
    have hget : (a ++ r)[a.length + i]? = some r[i] := by
      rw [List.getElem?_append_right (by omega), Nat.add_sub_cancel_left,
        List.getElem?_eq_getElem (by omega)]
    simp [keyAt, hget]

/-- What an accepting run of `ws_parse_header` went through. -/
theorem parse_ok_cases {bs : List UInt8} {out h : WsFrameHeader} {n : Nat}
    (hp : wsParseHeader bs out = .ok (n, h)) :
    ∃ b0 b1 t plen hdr, bs = b0 :: b1 :: t ∧ decodeLen bs = .ok (plen, hdr) ∧
      headerWellFormed (fillFields bs plen out) = true ∧
      (h = fillFields bs plen out ∧ h.masked = false ∧ n = hdr ∨
        h = { fillFields bs plen out with maskKey := keyAt bs hdr } ∧ h.masked = true ∧
          n = hdr + 4 ∧ hdr + 4 ≤ bs.length) := by
  rw [wsParseHeader] at hp
  split at hp
  · cases hp
  · rename_i h2
    obtain ⟨b0, b1, t, rfl⟩ : ∃ b0 b1 t, bs = b0 :: b1 :: t := by
      match bs, h2 with
      | [], h2 => simp at h2
      | [_], h2 => simp at h2
      | b0 :: b1 :: t, _ => exact ⟨b0, b1, t, rfl⟩
    split at hp
    · cases hp
    · rename_i plen hdr hd
      rw [finishParse] at hp
      split at hp
      · cases hp
      · rename_i hwf
        refine ⟨b0, b1, t, plen, hdr, rfl, hd, by simpa using hwf, ?_⟩
        rw [parseMask] at hp
        split at hp
        · rename_i hm
          cases hp
          exact .inl ⟨rfl, by simpa using hm, rfl⟩
        · rename_i hm
          split at hp
          · cases hp
          · rename_i hroom
            cases hp
            exact .inr ⟨rfl, by simpa using hm, rfl, Nat.le_of_not_lt hroom⟩

/-- The bytes of a header whose fields come from `b0` and `b1`. -/
theorem headerBytes_fill (b0 b1 : UInt8) {h : WsFrameHeader}
    (hop : h.opcode = b0 &&& 0x0F) (hfin : h.fin = decide (b0 &&& 0x80 ≠ 0))
    (hmask : h.masked = decide (b1 &&& 0x80 ≠ 0)) (hrsv : (b0 >>> 4) &&& 0x07 = 0)
    (hfield : lenField h.payloadLen (hdrLen h.payloadLen) = b1 &&& 0x7F) :
    headerBytes h = [b0, b1] ++ beBytes (hdrLen h.payloadLen - 2) h.payloadLen.toNat
      ++ keyBytes h := by
  have h0 : buildByte0 h = b0 := by rw [buildByte0, hop, hfin, byte0_split b0 hrsv]
  have h1 : buildByte1 h = b1 := by rw [buildByte1, hfield, hmask, byte1_split]
  rw [headerBytes, h0, h1]

/-- **Only built headers parse**: an accepted header is well formed, and the bytes it was read
from start with its `headerBytes`. -/
theorem parse_ok_inv {bs : List UInt8} {out h : WsFrameHeader} {n : Nat}
    (hp : wsParseHeader bs out = .ok (n, h)) :
    h.WellFormed ∧ h.into out = h ∧ n = (headerBytes h).length ∧
      ∃ s, bs = headerBytes h ++ s := by
  obtain ⟨b0, b1, t, plen, hdr, rfl, hd, hwf, hh⟩ := parse_ok_cases hp
  obtain ⟨rfl, h63, hfield, s, hs⟩ := decodeLen_ok_inv hd
  obtain ⟨hrsv, hctl⟩ := (headerWellFormed_iff _).mp hwf
  have hb := hdrLen_bounds plen
  have hbs : b0 :: b1 :: t = [b0, b1] ++ beBytes (hdrLen plen - 2) plen.toNat ++ s := by
    rw [hs]; rfl
  have hlen : ([b0, b1] ++ beBytes (hdrLen plen - 2) plen.toNat).length = hdrLen plen := by
    simp only [List.length_append, List.length_cons, List.length_nil, beBytes_length]; omega
  have hbytes : headerBytes h
      = [b0, b1] ++ beBytes (hdrLen plen - 2) plen.toNat ++ keyBytes h := by
    rcases hh with ⟨rfl, -⟩ | ⟨rfl, -⟩ <;>
      exact headerBytes_fill b0 b1 rfl rfl rfl hrsv hfield
  have hh' : h.WellFormed := by
    rcases hh with ⟨rfl, -⟩ | ⟨rfl, -⟩ <;> exact ⟨hrsv, low4_lt _, h63, hctl⟩
  refine ⟨hh', ?_⟩
  rcases hh with ⟨he, hm, rfl⟩ | ⟨he, hm, rfl, hroom⟩
  · have hk : keyBytes h = [] := by simp [keyBytes, hm]
    rw [hk, List.append_nil] at hbytes
    refine ⟨?_, by rw [hbytes, hlen], s, by rw [hbytes, hbs]⟩
    rw [WsFrameHeader.into, if_neg (by simp [hm]), he]
    rfl
  · have h4 : 4 ≤ s.length := by rw [hbs, List.length_append, hlen] at hroom; omega
    have hk : keyBytes h = s.take 4 := by
      have := keyAt_toList ([b0, b1] ++ beBytes (hdrLen plen - 2) plen.toNat) s h4
      rw [← hbs, hlen] at this
      rw [keyBytes, if_pos hm, he, ← this]
    rw [hk] at hbytes
    refine ⟨by rw [WsFrameHeader.into, if_pos hm], ?_, s.drop 4, ?_⟩
    · rw [hbytes, List.length_append, hlen, List.length_take_of_le h4]
    · rw [hbytes, hbs]; simp only [List.append_assoc, List.take_append_drop]

theorem parse_len_ge {bs : List UInt8} {out h : WsFrameHeader} {n : Nat}
    (hp : wsParseHeader bs out = .ok (n, h)) : 2 ≤ n ∧ n ≤ bs.length := by
  obtain ⟨-, -, rfl, s, rfl⟩ := parse_ok_inv hp
  exact ⟨headerBytes_length_ge h, by simp⟩

/-! ### The two functions are inverse -/

/-- Equal headers, up to the key of an unmasked one. -/
def WsFrameHeader.Agrees (h h' : WsFrameHeader) : Prop :=
  h'.opcode = h.opcode ∧ h'.payloadLen = h.payloadLen ∧ h'.fin = h.fin ∧ h'.masked = h.masked ∧
    h'.rsv = h.rsv ∧ (h.masked = true → h'.maskKey = h.maskKey)

theorem WsFrameHeader.agrees_into (h out : WsFrameHeader) : h.Agrees (h.into out) := by
  rw [Agrees, into]
  split
  · simp
  · rename_i hm; simp [hm]

/-- **The header codec is a bijection.**  What `ws_build_header` writes for a well-formed header
parses back to it, whatever follows; and a header `ws_parse_header` accepts is well formed and
builds to exactly the bytes it was read from. -/
theorem header_codec :
    (∀ (h : WsFrameHeader) (buf : List UInt8), h.WellFormed →
      totalLen (hdrLen h.payloadLen) h.masked ≤ buf.length →
      ∃ n buf', wsBuildHeader h buf = .ok (n, buf') ∧ buf'.drop n = buf.drop n ∧
        ∀ s out, ∃ h', wsParseHeader (buf'.take n ++ s) out = .ok (n, h') ∧ h.Agrees h') ∧
    (∀ (bs : List UInt8) (out h : WsFrameHeader) (n : Nat),
      wsParseHeader bs out = .ok (n, h) →
      0 < n ∧ n ≤ bs.length ∧ h.WellFormed ∧
        ∀ buf : List UInt8, n ≤ buf.length →
          wsBuildHeader h buf = .ok (n, bs.take n ++ buf.drop n)) := by
  constructor
  · intro h buf hw hcap
    rw [← headerBytes_length] at hcap
    refine ⟨_, _, wsBuildHeader_eq h buf hcap, List.drop_left, fun s out => ?_⟩
    rw [List.take_left]
    exact ⟨_, parse_headerBytes hw out s, h.agrees_into out⟩
  · intro bs out h n hp
    obtain ⟨h2, hle⟩ := parse_len_ge hp
    obtain ⟨hw, -, rfl, s, rfl⟩ := parse_ok_inv hp
    refine ⟨by omega, hle, hw, fun buf hcap => ?_⟩
    rw [wsBuildHeader_eq h buf hcap, List.take_left]

/-- A masked TEXT header for 200 bytes of payload. -/
def textHeader200 : WsFrameHeader := ⟨.text, 200, #v[0xDE, 0xAD, 0xBE, 0xEF], true, true, 0⟩

/-- Its eight bytes, built and parsed back in front of two payload bytes. -/
theorem header_codec_text200 :
    (∃ n buf', wsBuildHeader textHeader200 (List.replicate 8 0) = .ok (n, buf') ∧
      ∃ h', wsParseHeader (buf'.take n ++ [1, 2]) .zero = .ok (n, h') ∧
        textHeader200.Agrees h') ∧
    wsBuildHeader textHeader200 (List.replicate 9 7)
      = .ok (8, [0x81, 0xFE, 0x00, 0xC8, 0xDE, 0xAD, 0xBE, 0xEF, 7]) := by
  have hw : textHeader200.WellFormed := ⟨rfl, by decide, by decide, by decide⟩
  obtain ⟨n, buf', hb, -, hp⟩ := header_codec.1 textHeader200 (List.replicate 8 0) hw (by decide)
  have hparse : wsParseHeader [0x81, 0xFE, 0x00, 0xC8, 0xDE, 0xAD, 0xBE, 0xEF] .zero
      = .ok (8, textHeader200) := by decide +kernel
  obtain ⟨-, -, -, hbuild⟩ := header_codec.2 _ _ _ _ hparse
  exact ⟨⟨n, buf', hb, hp [1, 2] .zero⟩, hbuild (List.replicate 9 7) (by decide)⟩

end Libws
