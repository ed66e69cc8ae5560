import Libws.Session.Inbound

/-!
# Session — the width of `size_t`

The parser yields a length of 63 bits and the driver narrows it to `size_t` wherever it uses it.
On a target with a narrow `size_t` a frame is then as long as its length modulo `2 ^ w` says.

* `dispatch_takes`: what a poll consumes, for every width.
* `framing_width_iff`: a frame is taken by its size exactly when the size is a `size_t`, or when
  the frame is not taken for complete.
-/

namespace Libws
open Libws.Support

/-! ### Arithmetic -/

section Sizes

variable {w a b n : Nat}

theorem szAdd_eq (ha : a < 2 ^ w) (hb : b < 2 ^ w) :
    szAdd w a b = if a + b < 2 ^ w then a + b else a + b - 2 ^ w := by
  rw [szAdd]
  split
  · exact Nat.mod_eq_of_lt ‹_›
  · rw [Nat.mod_eq_sub_mod (by omega), Nat.mod_eq_of_lt (by omega)]

theorem szSub_eq (ha : a < 2 ^ w) (hb : b < 2 ^ w) :
    szSub w a b = if b ≤ a then a - b else a + 2 ^ w - b := by
  split
  · exact szSub_of_le ‹_› ha
  · exact Nat.mod_eq_of_lt (by omega)

/-- Taking off two sizes, one after the other or added up. -/
theorem szSub_szSub (ha : a < 2 ^ w) (hb : b < 2 ^ w) (hn : n < 2 ^ w) :
    szSub w (szSub w a b) n = szSub w a (szAdd w b n) := by
  have hsub : szSub w a b < 2 ^ w := Nat.mod_lt _ (Nat.two_pow_pos w)
  have hadd : szAdd w b n < 2 ^ w := Nat.mod_lt _ (Nat.two_pow_pos w)
  rw [szSub_eq hsub hn, szSub_eq ha hadd, szSub_eq ha hb, szAdd_eq hb hn]
  split_ifs <;> omega

end Sizes

/-! ### What a poll consumes -/

/-- A frame is refused before anything of it is consumed, or its bytes are taken off the raw
region. -/
def Takes (w : Nat) (c : WsConn) (h : WsFrameHeader) (hdr : Nat) (p : Poll) : Prop :=
  p.ret = .error ∧ p.conn.rxLen = c.rxLen ∨
    p.conn.rxLen = szSub w c.rxLen (szAdd w hdr (sizeT w h.payloadLen.toNat))

section Consumption

variable {w : Nat} {c : WsConn} {h : WsFrameHeader} {hdr : Nat} {ev : WsEvent}

theorem finishMessage_rxLen (c : WsConn) (ev : WsEvent) :
    (finishMessage c ev).conn.rxLen = c.rxLen := by
  have hfinish : (wsLcFinishFrag c).2.rxLen = c.rxLen := by
    rw [wsLcFinishFrag]
    split
    · rfl
    · split <;> rfl
  rw [finishMessage]
  split
  · rfl
  · exact hfinish

theorem beginData_rxLen (c : WsConn) (h : WsFrameHeader) (isCont : Bool) :
    (beginData c h isCont).1.rxLen = c.rxLen := by
  cases isCont with
  | true => rfl
  | false =>
      show (wsLcStartFrag c _).2.rxLen = c.rxLen
      rw [wsLcStartFrag]
      split
      · rfl
      · split <;> rfl

theorem onData_takes (hrx : c.rxLen < 2 ^ w) (hhdr : hdr < 2 ^ w) :
    Takes w c h hdr (onData w c h hdr ev) := by
  cases hill : dataIllegal w c h (decide (h.opcode = .cont)) with
  | true =>
      rw [onData_illegal hill]
      exact .inl ⟨rfl, rfl⟩
  | false =>
      obtain ⟨d, rcs, hbegin⟩ : ∃ d rcs, beginData c h (decide (h.opcode = .cont)) = (d, rcs) :=
        ⟨_, _, rfl⟩
      have hd : d.rxLen = c.rxLen := by
        have hsame := beginData_rxLen c h (decide (h.opcode = .cont))
        rwa [hbegin] at hsame
      have hlen : sizeT w h.payloadLen.toNat < 2 ^ w := Nat.mod_lt _ (Nat.two_pow_pos w)
      have hacc : (accumulate w d h hdr).rxLen
          = szSub w c.rxLen (szAdd w hdr (sizeT w h.payloadLen.toNat)) := by
        rw [← szSub_szSub hrx hhdr hlen, ← hd]
        rfl
      rw [onData_legal hill hbegin rfl]
      right
      rw [← hacc]
      cases h.fin with
      | false => rfl
      | true => exact finishMessage_rxLen _ _

theorem onClose_takes : Takes w c h hdr (onClose w c h hdr ev) := by
  rw [onClose]
  split
  · exact .inl ⟨rfl, rfl⟩
  · have hrecv : ∀ d : WsConn, (wsLcRecvClose d).2.rxLen = d.rxLen := by
      intro d
      rw [wsLcRecvClose]
      split <;> rfl
    right
    simp only [emit, rawConsume, hrecv]
    split <;> rfl

theorem onControl_takes : Takes w c h hdr (onControl w c h hdr ev) := by
  rw [onControl]
  split
  · exact onClose_takes
  · exact .inr rfl

/-- **What a poll consumes** of the raw region for a frame. -/
theorem dispatch_takes (hrx : c.rxLen < 2 ^ w) (hhdr : hdr < 2 ^ w) :
    Takes w c h hdr (dispatch w c h hdr ev) := by
  rcases dispatch_cases w c h hdr ev with hfail | ⟨-, b, -, hroute⟩
  · rw [hfail]
    exact .inl ⟨rfl, rfl⟩
  · rw [hroute, route]
    split
    · exact onControl_takes
    · exact onData_takes hrx hhdr
    · exact .inl ⟨rfl, rfl⟩

end Consumption

/-! ### Frames -/

section Frames

variable {w : Nat} {c : WsConn} {hn : Nat} {h : WsFrameHeader}

/-- `frame_ready` on an accepted header compares the size modulo `2 ^ w`. -/
theorem frameReady_parsed (hp : wsParseHeader (rawBytes c) .zero = .ok (hn, h)) :
    frameReady w c = if (hn + h.payloadLen.toNat) % 2 ^ w ≤ c.rxLen then
      some (h, hn, szAdd w hn (sizeT w h.payloadLen.toNat)) else .none := by
  have hpos := (parse_len_ge hp).1
  have hsum : szAdd w hn (sizeT w h.payloadLen.toNat) = (hn + h.payloadLen.toNat) % 2 ^ w := by
    rw [szAdd, sizeT, Nat.add_mod_mod]
  rw [frameReady, hp]
  simp only
  rw [if_neg (by omega), hsum]

theorem hdr_lt (hw : 4 ≤ w) (hp : wsParseHeader (rawBytes c) .zero = .ok (hn, h)) :
    hn < 2 ^ w := by
  obtain ⟨-, -, rfl, -⟩ := parse_ok_inv hp
  have hle := headerBytes_length_le h
  have hpow : 2 ^ 4 ≤ 2 ^ w := Nat.pow_le_pow_right (by decide) hw
  omega

/-- A poll on an accepted header does nothing, or takes the frame by its size modulo `2 ^ w`. -/
theorem poll_takes (hw : 4 ≤ w) (hrx : c.rxLen < 2 ^ w) (hf : c.failed = false)
    (hp : wsParseHeader (rawBytes c) .zero = .ok (hn, h)) :
    if (hn + h.payloadLen.toNat) % 2 ^ w ≤ c.rxLen then Takes w c h hn (wsConnPoll w c)
    else (wsConnPoll w c).conn = c := by
  by_cases hle : (hn + h.payloadLen.toNat) % 2 ^ w ≤ c.rxLen
  · rw [if_pos hle, wsConnPoll, hf, frameReady_parsed hp, if_pos hle]
    exact dispatch_takes hrx (hdr_lt hw hp)
  · rw [if_neg hle, wsConnPoll, hf, frameReady_parsed hp, if_neg hle]
    rfl

/-- `rx_len` is a `size_t`. -/
theorem exec_rxLen_lt (hw : 4 ≤ w) (call : Call) (hrx : c.rxLen < 2 ^ w) :
    (exec w c call).rxLen < 2 ^ w := by
  by_cases hcall : call = .poll
  · subst hcall
    cases hf : c.failed with
    | true =>
        rw [exec, poll_failed hf]
        exact hrx
    | false =>
        cases hp : wsParseHeader (rawBytes c) .zero with
        | error rc =>
            rw [exec, wsConnPoll, if_neg (by simp [hf]), frameReady, hp]
            exact hrx
        | ok r =>
            have htakes := poll_takes hw hrx hf hp
            rw [exec]
            split at htakes
            · rcases htakes with ⟨-, hsame⟩ | hsub
              · rw [hsame]
                exact hrx
              · rw [hsub]
                exact Nat.mod_lt _ (Nat.two_pow_pos w)
            · rw [htakes]
              exact hrx
  · have hq := exec_quiet w c call hcall
    generalize exec w c call = d at hq
    cases hq with
    | same | handshake | sendClose => exact hrx
    | recv => exact Nat.mod_lt _ (Nat.two_pow_pos w)

end Frames

/-- The frame at the head of the raw region, of `size` bytes, is not taken for complete before
they are all there, and a poll that takes it consumes as many; a frame that is refused stays. -/
def Framed (w : Nat) (c : WsConn) (size : Nat) : Prop :=
  (frameReady w c).isSome → size ≤ c.rxLen ∧
    ((wsConnPoll w c).ret = .error ∧ (wsConnPoll w c).conn.rxLen = c.rxLen ∨
      (wsConnPoll w c).conn.rxLen + size = c.rxLen)

/-- A frame whose size is a `size_t` is taken by its size. -/
theorem framed_of_lt {w : Nat} {c : WsConn} {hn : Nat} {h : WsFrameHeader} (hw : 4 ≤ w)
    (hrx : c.rxLen < 2 ^ w) (hp : wsParseHeader (rawBytes c) .zero = .ok (hn, h))
    (hlt : hn + h.payloadLen.toNat < 2 ^ w) : Framed w c (hn + h.payloadLen.toNat) := by
  intro hsome
  have hmod : (hn + h.payloadLen.toNat) % 2 ^ w = hn + h.payloadLen.toNat := Nat.mod_eq_of_lt hlt
  have hge : hn + h.payloadLen.toNat ≤ c.rxLen := by
    by_contra hno
    rw [frameReady_parsed hp, hmod, if_neg hno] at hsome
    cases hsome
  refine ⟨hge, ?_⟩
  cases hf : c.failed with
  | true =>
      rw [poll_failed hf]
      exact .inl ⟨rfl, rfl⟩
  | false =>
      have htakes := poll_takes hw hrx hf hp
      rw [hmod, if_pos hge, Takes, sizeT, szAdd, Nat.add_mod_mod, hmod, szSub_of_le hge hrx]
        at htakes
      rcases htakes with hrefused | htaken
      · exact .inl hrefused
      · exact .inr (by omega)

/-- **Framing depends on the width of `size_t`.**  In every run, a frame with an accepted header is
taken by its size exactly when the size is a `size_t`, or when fewer bytes are there than the size
modulo `2 ^ w`; with 64 bits it always is. -/
theorem framing_width_iff (w : Nat) (hw : 4 ≤ w) (role : WsRole) (buf : MsgBuf w)
    (calls : List Call) (hn : Nat) (h : WsFrameHeader) :
    let c := run (exec w) (wsConnInit role buf.bytes) calls
    let size := hn + h.payloadLen.toNat
    wsParseHeader (rawBytes c) .zero = .ok (hn, h) →
    (Framed w c size ↔ size < 2 ^ w ∨ c.rxLen < size % 2 ^ w) ∧
      (64 ≤ w → Framed w c size) := by
  intro c size hp
  have hrx : c.rxLen < 2 ^ w :=
    run_inv_all (P := fun c : WsConn => c.rxLen < 2 ^ w) (fun _ call => exec_rxLen_lt hw call)
      calls (Nat.two_pow_pos w)
  have hready := frameReady_parsed (w := w) hp
  constructor
  · constructor
    · intro hframed
      rcases Nat.lt_or_ge c.rxLen (size % 2 ^ w) with hlt | hge
      · exact .inr hlt
      · rw [Framed, hready, if_pos hge] at hframed
        have hle := (hframed rfl).1
        exact .inl (by omega)
    · rintro (hlt | hshort)
      · exact framed_of_lt hw hrx hp hlt
      · intro hsome
        rw [hready, if_neg (Nat.not_le.mpr hshort)] at hsome
        cases hsome
  · intro h64
    refine framed_of_lt hw hrx hp ?_
    obtain ⟨hwf, -, hlen, -⟩ := parse_ok_inv hp
    have h63 := hwf.len
    have hle := headerBytes_length_le h
    have hpow : 2 ^ 64 ≤ 2 ^ w := Nat.pow_le_pow_right (by decide) h64
    omega

/-- With 32 bits, a frame that announces `2 ^ 32 + 2` bytes is delivered when two are there. -/
theorem long_frame_narrowed :
    let c := run (exec 32) (wsConnInit .client (List.replicate 16 0))
      [.open, .recv [0x82, 0x7F, 0, 0, 0, 1, 0, 0, 0, 2, 0x48, 0x69]]
    c.rxLen = 12 ∧
      (∃ h, wsParseHeader (rawBytes c) .zero = .ok (10, h) ∧ h.payloadLen = 4294967298) ∧
      (frameReady 32 c).isSome ∧ (wsConnPoll 32 c).ret = .message ∧
      (wsConnPoll 32 c).conn.rxLen = 0 := by
  refine ⟨by decide +kernel, ⟨⟨.bin, 4294967298, Vector.replicate 4 0, true, false, 0⟩, ?_⟩, ?_⟩
  · decide +kernel
  · decide +kernel

theorem framing_width_iff_text :
    let c := run (exec 32) (wsConnInit .client (List.replicate 16 0))
      [.open, .recv [0x81, 0x02, 0x48, 0x69]]
    Framed 32 c 4 ∧ (wsConnPoll 32 c).ret = .message := by
  intro c
  have hp : wsParseHeader (rawBytes c) .zero
      = .ok (2, ⟨.text, 2, Vector.replicate 4 0, true, false, 0⟩) := by decide +kernel
  have hiff := (framing_width_iff 32 (by decide) .client ⟨List.replicate 16 0, by decide⟩
    [.open, .recv [0x81, 0x02, 0x48, 0x69]] 2 _ hp).1
  exact ⟨hiff.mpr (.inl (by decide)), by decide +kernel⟩

end Libws
