import Libws.Framing.Wire
import Libws.Session.Stream

/-!
# Session — what the buffer holds

`View c msg rx`: the buffer of `c` holds the message `msg`, the unparsed bytes `rx` behind it, and
anything after them.  Each operation of the driver on the buffer is stated here on views, for a
buffer whose size is a `size_t`; the rest of the development does not look at offsets.
-/

namespace Libws
open Libws.Support

/-- The message a connection has in flight. -/
def WsConn.msg (c : WsConn) : List UInt8 := c.msgBuf.take c.msgLen

/-- The buffer of `c` holds `msg` and then `rx`. -/
structure View (c : WsConn) (msg rx : List UInt8) : Prop where
  buf : ∃ slack, c.msgBuf = msg ++ rx ++ slack
  msgLen : c.msgLen = msg.length
  rxLen : c.rxLen = rx.length

namespace View

variable {c : WsConn} {msg rx : List UInt8} {w : Nat}

/-- Counters inside the buffer give a view. -/
theorem ofFits (h : c.msgLen + c.rxLen ≤ c.msgCap) :
    View c c.msg (rawBytes c) := by
  rw [WsConn.msgCap] at h
  obtain ⟨a, b, hab, ha⟩ := exists_append_of_le (l := c.msgBuf) (n := c.msgLen) (by omega)
  rw [hab, List.length_append] at h
  obtain ⟨b, s, rfl, hb⟩ := exists_append_of_le (l := b) (n := c.rxLen) (by omega)
  have hraw : rawBytes c = b := by
    rw [rawBytes, raw, hab, ← List.append_assoc, ← ha, ← hb, slice_append_mid]
  have hmsg : c.msg = a := by rw [WsConn.msg, hab, ← ha, List.take_left]
  rw [hraw, hmsg]
  exact ⟨⟨s, by rw [hab, List.append_assoc]⟩, ha.symm, hb.symm⟩

theorem fits (hv : View c msg rx) : c.msgLen + c.rxLen ≤ c.msgCap := by
  obtain ⟨slack, hbuf⟩ := hv.buf
  rw [WsConn.msgCap, hbuf, hv.msgLen, hv.rxLen]
  simp only [List.length_append]
  omega

/-- The sizes of what the buffer holds. -/
theorem le_cap (hv : View c msg rx) : msg.length + rx.length ≤ c.msgBuf.length := by
  have := hv.fits
  rwa [hv.msgLen, hv.rxLen] at this

theorem rawBytes_eq (hv : View c msg rx) : rawBytes c = rx := by
  obtain ⟨slack, hbuf⟩ := hv.buf
  rw [rawBytes, raw, hbuf, hv.msgLen, hv.rxLen, slice_append_mid]

theorem message_eq (hv : View c msg rx) : slice c.msgBuf 0 c.msgLen = msg := by
  obtain ⟨slack, hbuf⟩ := hv.buf
  rw [hbuf, hv.msgLen]
  simp [slice]

theorem msg_eq (hv : View c msg rx) : c.msg = msg := by
  obtain ⟨slack, hbuf⟩ := hv.buf
  rw [WsConn.msg, hbuf, hv.msgLen, List.append_assoc, List.take_left]

/-! ### Receiving -/

/-- `ws_conn_recv` appends a chunk that fits. -/
theorem recv (hv : View c msg rx) (hcap : c.msgBuf.length < 2 ^ w) {bs : List UInt8}
    (hfit : msg.length + rx.length + bs.length ≤ c.msgBuf.length) :
    ∃ b, b.length = c.msgBuf.length ∧
      wsConnRecv w c bs
        = (toInt bs.length, { c with msgBuf := b, rxLen := (rx ++ bs).length }) ∧
      View { c with msgBuf := b, rxLen := (rx ++ bs).length } msg (rx ++ bs) := by
  obtain ⟨slack, hbuf⟩ := hv.buf
  have hslack : bs.length ≤ slack.length := by
    rw [hbuf] at hfit; simp only [List.length_append] at hfit; omega
  have hcopy : wsMemcpy c.msgBuf (c.msgLen + c.rxLen) bs bs.length
      = msg ++ rx ++ bs ++ slack.drop bs.length := by
    rw [hv.msgLen, hv.rxLen, ← List.length_append, hbuf, wsMemcpy_append _ _ _ hslack]
  refine ⟨msg ++ rx ++ bs ++ slack.drop bs.length, ?_, ?_, ?_⟩
  · rw [hbuf]; simp only [List.length_append, List.length_drop]; omega
  · have h1 : szAdd w c.msgLen c.rxLen = msg.length + rx.length := by
      rw [hv.msgLen, hv.rxLen, szAdd_of_lt (by omega)]
    have h2 : szAdd w (msg.length + rx.length) bs.length
        = msg.length + rx.length + bs.length := szAdd_of_lt (by omega)
    have h3 : szAdd w c.rxLen bs.length = (rx ++ bs).length := by
      rw [hv.rxLen, szAdd_of_lt (by omega), List.length_append]
    rw [wsConnRecv, h1, h2, WsConn.msgCap, if_neg (by omega), hcopy, h3]
  · exact ⟨⟨slack.drop bs.length, by simp only [List.append_assoc]⟩, hv.msgLen, rfl⟩

/-! ### One frame -/

variable {f : Frame} {t : List UInt8}

/-- A complete frame is ready. -/
theorem frameReady_wire (hv : View c msg (f.wire ++ t)) (hcap : c.msgBuf.length < 2 ^ w) :
    frameReady w c = some (f.h, f.hdr.length, f.hdr.length + f.h.payloadLen.toNat) := by
  have hle := hv.le_cap
  have hrx := hv.rxLen
  have h2 := f.hdr_length
  rw [List.length_append, f.wire_length] at hle hrx
  rw [frameReady, hv.rawBytes_eq, f.parse_wire t]
  simp only
  rw [if_neg (by omega), sizeT_of_lt (by omega), szAdd_of_lt (by omega), if_pos (by omega)]

/-- With a 64-bit `size_t` nothing else is. -/
theorem frameReady_none (hv : View c msg rx) (h : ¬ HoldsFrame rx) : frameReady 64 c = .none := by
  rw [frameReady, hv.rawBytes_eq]
  split
  · rfl
  · rename_i hn hd hp
    obtain ⟨hw, -, hlen, -⟩ := parse_ok_inv hp
    have hle := headerBytes_length_le hd
    have h63 := hw.len
    split
    · rfl
    · rw [sizeT_of_lt (by omega), szAdd_of_lt (by omega)]
      refine if_neg fun hge => h ⟨hn, hd, hp, ?_⟩
      rw [hv.rxLen] at hge
      exact hge

/-- `unmask_payload` unmasks the body in place. -/
theorem unmask (hv : View c msg (f.wire ++ t)) (hcap : c.msgBuf.length < 2 ^ w) :
    ∃ b, b.length = c.msgBuf.length ∧
      unmaskPayload w c f.h f.hdr.length = { c with msgBuf := b } ∧
      View { c with msgBuf := b } msg (f.hdr ++ f.payload ++ t) := by
  obtain ⟨slack, hbuf⟩ := hv.buf
  have hle := hv.le_cap
  have hrx := hv.rxLen
  rw [List.length_append, f.wire_length] at hle hrx
  have hlen : c.rxLen = (f.hdr ++ f.payload ++ t).length := by
    rw [hrx]; simp only [List.length_append, f.payload_length]
  rw [unmaskPayload]
  split
  · rename_i hm
    have hp : masked f.h.maskKey f.body = f.payload := by rw [Frame.payload, if_pos hm]
    have hmask : wsMask c.msgBuf (raw c + f.hdr.length) (sizeT w f.h.payloadLen.toNat) f.h.maskKey
        = msg ++ (f.hdr ++ f.payload ++ t) ++ slack := by
      have := wsMask_append (msg ++ f.hdr) f.body (t ++ slack) f.h.maskKey
      rw [hp, f.body_len, List.length_append] at this
      rw [raw, hv.msgLen, sizeT_of_lt (by omega), hbuf, Frame.wire]
      simpa only [List.append_assoc] using this
    refine ⟨_, ?_, by rw [hmask], ⟨slack, rfl⟩, hv.msgLen, hlen⟩
    rw [hbuf]; simp only [List.length_append, f.payload_length, f.wire_length]
  · rename_i hm
    have hp : f.payload = f.body := by rw [Frame.payload, if_neg hm]
    refine ⟨c.msgBuf, rfl, rfl, ⟨slack, ?_⟩, hv.msgLen, hlen⟩
    rw [hbuf, hp, Frame.wire]

variable {a b : List UInt8} {h : WsFrameHeader}

/-- `accumulate` moves a payload `b` from behind the header `a` to the end of the message, and
the bytes behind it with it. -/
theorem accumulate (hv : View c msg (a ++ b ++ t)) (hcap : c.msgBuf.length < 2 ^ w)
    (hb : h.payloadLen.toNat = b.length) :
    ∃ buf, buf.length = c.msgBuf.length ∧
      Libws.accumulate w c h a.length
        = { c with msgBuf := buf, msgLen := (msg ++ b).length, rxLen := t.length } ∧
      ∃ slack, buf = msg ++ b ++ t ++ slack := by
  obtain ⟨slack, hbuf⟩ := hv.buf
  have hle := hv.le_cap
  have hrx := hv.rxLen
  simp only [List.length_append] at hle hrx
  -- first copy: the payload over the header
  have h1 : fwdCopy c.msgBuf msg.length (msg.length + a.length) b.length
      = msg ++ b ++ (a ++ b ++ t ++ slack).drop b.length := by
    have := fwdCopy_append msg a b (t ++ slack)
    rw [hbuf]
    simpa only [List.append_assoc] using this
  -- what stands between the moved payload and the bytes behind it
  obtain ⟨g, hg, hdrop⟩ : ∃ g : List UInt8, g.length = a.length ∧
      (a ++ b ++ t ++ slack).drop b.length = g ++ t ++ slack := by
    refine ⟨(a ++ b).drop b.length, by simp, ?_⟩
    rw [List.append_assoc (a ++ b), List.drop_append_of_le_length (by simp), List.append_assoc]
  -- second copy: those bytes down by the header's length
  have h2 : fwdCopy (msg ++ b ++ (g ++ t ++ slack)) (msg.length + b.length)
      (msg.length + a.length + b.length) t.length
      = msg ++ b ++ t ++ (g ++ t ++ slack).drop t.length := by
    have := fwdCopy_append (msg ++ b) g t slack
    rw [List.length_append, hg] at this
    rw [show msg.length + a.length + b.length = msg.length + b.length + a.length by omega]
    simpa only [List.append_assoc] using this
  have hp : sizeT w h.payloadLen.toNat = b.length := by rw [hb, sizeT_of_lt (by omega)]
  have hrest : szSub w (szSub w c.rxLen a.length) b.length = t.length := by
    rw [szSub_of_le (a := c.rxLen) (by omega) (by omega), szSub_of_le (by omega) (by omega)]
    omega
  have hmsg : szAdd w c.msgLen b.length = (msg ++ b).length := by
    rw [hv.msgLen, szAdd_of_lt (by omega), List.length_append]
  refine ⟨msg ++ b ++ t ++ (g ++ t ++ slack).drop t.length, ?_, ?_, _, rfl⟩
  · rw [hbuf]; simp only [List.length_append, List.length_drop]; omega
  · simp only [Libws.accumulate, raw, hp, hrest, hmsg]
    rw [hv.msgLen, h1, hdrop, h2]

/-- `raw_consume` drops the front `a` of the unparsed bytes and slides the rest down.  What stood
there stays where nothing slides over it. -/
theorem rawConsume {slack : List UInt8} (hbuf : c.msgBuf = msg ++ (a ++ t) ++ slack)
    (hmsg : c.msgLen = msg.length) (hrx : c.rxLen = (a ++ t).length)
    (hcap : c.msgBuf.length < 2 ^ w) :
    Libws.rawConsume w c a.length = { c with
      msgBuf := msg ++ t ++ (a ++ t ++ slack).drop t.length, rxLen := t.length } := by
  have hle : msg.length + (a.length + t.length) + slack.length < 2 ^ w := by
    rw [hbuf] at hcap; simpa only [List.length_append] using hcap
  have hn : szSub w c.rxLen a.length = t.length := by
    rw [hrx, List.length_append, szSub_of_le (by omega) (by omega)]
    omega
  have h1 := fwdCopy_append msg a t slack
  simp only [Libws.rawConsume, raw, hn]
  rw [hmsg, hbuf, ← List.append_assoc, h1]

end View

end Libws
