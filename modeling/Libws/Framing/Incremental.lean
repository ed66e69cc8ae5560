import Libws.Framing.HeaderCodec

/-!
# Framing — reading a header as it arrives

`ws_parse_header` is called again on a longer buffer until it decides.  It looks at the second
byte, then behind the extended length, then behind the key, and answers `WS_ERR_NEED_MORE` at
the first of the three that is not there.

* `parse_append_ok`, `parse_append_protocol`: a verdict once given stands when more bytes follow.
* `parse_needMore_lt`: only a buffer of fewer than 14 bytes is undecided.
* `header_incremental`: the answers on all prefixes of a stream.
-/

namespace Libws
open Libws.Support

/-! ### A verdict stands -/

/-- An accepted header is accepted again when more bytes follow. -/
theorem parse_append_ok {bs : List UInt8} {out h : WsFrameHeader} {n : Nat}
    (hp : wsParseHeader bs out = .ok (n, h)) (s : List UInt8) :
    wsParseHeader (bs ++ s) out = .ok (n, h) := by
  obtain ⟨hw, hi, rfl, t, rfl⟩ := parse_ok_inv hp
  rw [List.append_assoc, parse_headerBytes hw, hi]

theorem readBe_append (bs s : List UInt8) {n : Nat} (hn : n ≤ 8) (hl : n ≤ bs.length) :
    readBe (bs ++ s) n = readBe bs n := by
  apply UInt64.toNat.inj
  rw [readBe_toNat _ hn (by rw [List.length_append]; omega), readBe_toNat _ hn hl,
    List.take_append_of_le_length hl]

theorem extBytes_le (l7 : UInt8) : extBytes l7 ≤ 8 := by
  rw [extBytes]
  split
  · decide
  · split <;> decide

/-- A length field that is all there decodes the same when more bytes follow. -/
theorem decodeLen_append {bs : List UInt8} (h2 : 2 ≤ bs.length)
    (hd : decodeLen bs ≠ .error .errNeedMore) (s : List UInt8) :
    decodeLen (bs ++ s) = decodeLen bs := by
  have hb1 : (bs ++ s).getD 1 0 = bs.getD 1 0 := by
    simp [List.getElem?_append_left (show 1 < bs.length by omega)]
  unfold decodeLen at hd ⊢
  rw [hb1]
  by_cases hroom : bs.length < 2 + extBytes (bs.getD 1 0 &&& 0x7F)
  · simp only [if_pos hroom] at hd
    exact absurd rfl hd
  · have hroom' : ¬ (bs ++ s).length < 2 + extBytes (bs.getD 1 0 &&& 0x7F) := by
      rw [List.length_append]; omega
    have hraw : rawLen (bs ++ s) (extBytes (bs.getD 1 0 &&& 0x7F))
        = rawLen bs (extBytes (bs.getD 1 0 &&& 0x7F)) := by
      unfold rawLen
      split
      · rw [hb1]
      · rw [List.drop_append_of_le_length h2]
        exact readBe_append _ _ (extBytes_le _) (by rw [List.length_drop]; omega)
    simp only [if_neg hroom, if_neg hroom', hraw]

/-- A header refused as a protocol error is refused again when more bytes follow. -/
theorem parse_append_protocol {bs : List UInt8} {out : WsFrameHeader}
    (hp : wsParseHeader bs out = .error .errProtocol) (s : List UInt8) :
    wsParseHeader (bs ++ s) out = .error .errProtocol := by
  rw [wsParseHeader] at hp ⊢
  by_cases h2 : bs.length < 2
  · rw [if_pos h2] at hp; cases hp
  · have h2' : ¬ (bs ++ s).length < 2 := by rw [List.length_append]; omega
    have hfill : ∀ plen, fillFields (bs ++ s) plen out = fillFields bs plen out := fun plen => by
      simp [fillFields, List.getElem?_append_left (show 0 < bs.length by omega),
        List.getElem?_append_left (show 1 < bs.length by omega)]
    rw [if_neg h2] at hp
    rw [if_neg h2']
    cases hd : decodeLen bs with
    | error rc =>
        rw [hd] at hp
        cases hp
        rw [decodeLen_append (by omega) (by rw [hd]; simp), hd]
    | ok r =>
        obtain ⟨plen, hdr⟩ := r
        rw [hd] at hp
        rw [decodeLen_append (by omega) (by rw [hd]; simp), hd]
        simp only [finishParse, hfill] at hp ⊢
        split at hp
        · rename_i hwf; rw [if_pos hwf]
        · -- a missing key is not a protocol error
          rw [parseMask] at hp
          split at hp
          · cases hp
          · split at hp <;> cases hp

/-! ### Waiting -/

theorem decodeLen_hdr_le {bs : List UInt8} {plen : UInt64} {hdr : Nat}
    (hd : decodeLen bs = .ok (plen, hdr)) : hdr ≤ 10 := by
  simp only [decodeLen] at hd
  have hext := extBytes_le (bs.getD 1 0 &&& 0x7F)
  split at hd
  · cases hd
  · split at hd
    · cases hd
    · cases hd
      omega

/-- The two answers that are not a header; an undecided buffer is shorter than the longest
header. -/
theorem parse_error_inv {bs : List UInt8} {out : WsFrameHeader} {rc : WsStatus}
    (hp : wsParseHeader bs out = .error rc) :
    rc = .errNeedMore ∧ bs.length < 14 ∨ rc = .errProtocol := by
  rw [wsParseHeader] at hp
  split at hp
  · cases hp
    exact .inl ⟨rfl, by omega⟩
  · split at hp
    · rename_i hd
      cases hp
      simp only [decodeLen] at hd
      have hext := extBytes_le (bs.getD 1 0 &&& 0x7F)
      split at hd
      · -- the extended length is not there
        cases hd
        exact .inl ⟨rfl, by omega⟩
      · split at hd
        · cases hd
          exact .inr rfl
        · cases hd
    · rename_i hd
      have hhdr := decodeLen_hdr_le hd
      rw [finishParse] at hp
      split at hp
      · cases hp
        exact .inr rfl
      · rw [parseMask] at hp
        split at hp
        · cases hp
        · split at hp
          · -- the key is not there
            cases hp
            exact .inl ⟨rfl, by omega⟩
          · cases hp

theorem parse_error_cases {bs : List UInt8} {out : WsFrameHeader} {rc : WsStatus}
    (hp : wsParseHeader bs out = .error rc) : rc = .errNeedMore ∨ rc = .errProtocol :=
  (parse_error_inv hp).imp_left And.left

theorem parse_needMore_lt {bs : List UInt8} {out : WsFrameHeader}
    (hp : wsParseHeader bs out = .error .errNeedMore) : bs.length < 14 := by
  rcases parse_error_inv hp with ⟨-, hlt⟩ | h
  · exact hlt
  · cases h

/-- The bytes of a header that is accepted decide alone. -/
theorem parse_of_append {bs s : List UInt8} {out h : WsFrameHeader} {n : Nat}
    (hp : wsParseHeader (bs ++ s) out = .ok (n, h)) (hn : n ≤ bs.length) :
    wsParseHeader bs out = .ok (n, h) := by
  obtain ⟨hw, hi, rfl, t, heq⟩ := parse_ok_inv hp
  obtain ⟨t', rfl⟩ : headerBytes h <+: bs :=
    List.prefix_of_prefix_length_le (heq ▸ List.prefix_append _ t) (List.prefix_append bs s) hn
  rw [parse_headerBytes hw, hi]

/-- **Headers are parsed incrementally.**  A header or a protocol error is reported again on every
extension; a header of `n` bytes is in the buffer, and on every prefix shorter than `n` more bytes
are asked for; and a buffer on which more bytes are asked for is shorter than 14 bytes and decided
by every extension to 14 or more, with a header that reaches beyond it or with a protocol error. -/
theorem header_incremental (out : WsFrameHeader) (p : List UInt8) :
    (∀ s n h, wsParseHeader p out = .ok (n, h) → wsParseHeader (p ++ s) out = .ok (n, h)) ∧
    (∀ s, wsParseHeader p out = .error .errProtocol →
      wsParseHeader (p ++ s) out = .error .errProtocol) ∧
    (∀ n h, wsParseHeader p out = .ok (n, h) → 0 < n ∧ n ≤ p.length ∧
      ∀ q, q <+: p → q.length < n → wsParseHeader q out = .error .errNeedMore) ∧
    (wsParseHeader p out = .error .errNeedMore → p.length < 14 ∧
      ∀ s, 14 ≤ (p ++ s).length →
        wsParseHeader (p ++ s) out = .error .errProtocol ∨
        ∃ n h, wsParseHeader (p ++ s) out = .ok (n, h) ∧ p.length < n) ∧
    (∀ rc, wsParseHeader p out = .error rc → rc = .errNeedMore ∨ rc = .errProtocol) := by
  refine ⟨fun s n h hp => parse_append_ok hp s, fun s hp => parse_append_protocol hp s, ?_, ?_,
    fun rc hp => parse_error_cases hp⟩
  · intro n h hp
    obtain ⟨h2, hle⟩ := parse_len_ge hp
    refine ⟨by omega, hle, ?_⟩
    rintro q ⟨s, rfl⟩ hq
    cases hqp : wsParseHeader q out with
    | ok r =>
        obtain ⟨m, h'⟩ := r
        have hm := parse_len_ge hqp
        rw [parse_append_ok hqp s] at hp
        cases hp
        omega
    | error rc =>
        rcases parse_error_cases hqp with rfl | rfl
        · rfl
        · rw [parse_append_protocol hqp s] at hp
          cases hp
  · intro hp
    refine ⟨parse_needMore_lt hp, fun s hs => ?_⟩
    cases hsp : wsParseHeader (p ++ s) out with
    | error rc =>
        rcases parse_error_cases hsp with rfl | rfl
        · have := parse_needMore_lt hsp
          omega
        · exact .inl rfl
    | ok r =>
        obtain ⟨n, h⟩ := r
        refine .inr ⟨n, h, rfl, ?_⟩
        by_contra hle
        rw [parse_of_append hsp (Nat.le_of_not_lt hle)] at hp
        cases hp

/-- A masked header, and the same header with one byte of the key missing. -/
theorem header_incremental_masked :
    (∃ h, wsParseHeader [0x81, 0x82, 1, 2, 3, 4, 0x49, 0x6B] .zero = .ok (6, h)) ∧
      wsParseHeader [0x81, 0x82, 1, 2, 3] .zero = .error .errNeedMore := by
  have hp : ∃ h, wsParseHeader [0x81, 0x82, 1, 2, 3, 4] .zero = .ok (6, h) := ⟨_, rfl⟩
  obtain ⟨h, hp⟩ := hp
  obtain ⟨happend, -, hshort, -⟩ := header_incremental .zero [0x81, 0x82, 1, 2, 3, 4]
  exact ⟨⟨h, happend [0x49, 0x6B] 6 h hp⟩,
    (hshort 6 h hp).2.2 [0x81, 0x82, 1, 2, 3] ⟨[4], rfl⟩ (by decide)⟩

end Libws
