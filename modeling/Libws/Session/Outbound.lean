import Libws.Session.Sending
import Libws.Session.Inbound

/-!
# Session — what the senders put on the wire

`ws_send_message`, `ws_send_pong` and `ws_send_close`, for every connection, payload and buffer.

* `send_exact`: when a send succeeds, what it returns, and what it leaves in the buffer and the
  connection.
* `send_parses_iff`: when `ws_parse_header` accepts what was sent.  The senders take any opcode
  with any length, the parser does not.
* `close_arrives_iff`: when the code of a close reaches the peer.  `ws_send_close` sends any code,
  and the peer refuses those that are not sendable.
-/

namespace Libws
open Libws.Support

/-! ### Sizes -/

/-- The size of an outbound header: 2, 4 or 10 bytes by the length form, and the mask key of a
client. -/
def headerSize (role : WsRole) (len : Nat) : Nat :=
  (if len < 126 then 2 else if len < 65536 then 4 else 10) + if role = .client then 4 else 0

section Sizes

variable (c : WsConn) (key : MaskKey) (op : WsOpcode) {len : Nat}

theorem sendHeader_len (h : len < 2 ^ 64) : (sendHeader c key op len).payloadLen.toNat = len := by
  rw [(sendHeader_fields c key op len).2.2.1, UInt64.toNat_ofNat_of_lt' h]

theorem sendHeader_size (h : len < 2 ^ 64) :
    (headerBytes (sendHeader c key op len)).length = headerSize c.role len := by
  obtain ⟨-, -, -, -, hmask, -⟩ := sendHeader_fields c key op len
  have hlen := sendHeader_len c key op h
  have hform : hdrLen (sendHeader c key op len).payloadLen
      = if len < 126 then 2 else if len < 65536 then 4 else 10 := by
    rcases hdrLen_cases (sendHeader c key op len).payloadLen with ⟨e, hl⟩ | ⟨e, hl⟩ | ⟨e, hl⟩
    · rw [e, if_pos (by omega)]
    · rw [e, if_neg (by omega), if_pos (by omega)]
    · rw [e, if_neg (by omega), if_neg (by omega)]
  rw [headerBytes_length, hform, totalLen, headerSize]
  by_cases hr : c.role = .client
  · rw [if_pos (hmask.mpr hr), if_pos hr]
  · rw [if_neg (mt hmask.mp hr), if_neg hr, Nat.add_zero]

/-- A payload on the wire: a client XORs it with the key, a server sends it as it is. -/
theorem wireBody_sendHeader (n : Nat) (bs : List UInt8) : wireBody (sendHeader c key op n) bs
      = if c.role = .client then masked key bs else bs := by
  rw [wireBody, sendHeader, outHeader]
  by_cases hr : c.role = .client
  · rw [if_pos hr, if_pos hr]
    rfl
  · rw [if_neg hr, if_neg hr]
    rfl

end Sizes

/-! ### Exactness -/

/-- What a successful send leaves in the caller's buffer: the header `ws_build_header` makes for
the final frame, the payload behind it, XORed with the cycled key by a client, and behind that
what was there before. -/
structure Laid (c : WsConn) (key : MaskKey) (op : WsOpcode) (payload out : List UInt8)
    (b : Built) : Prop where
  header : ∃ buf, wsBuildHeader (sendHeader c key op payload.length) out
      = .ok (headerSize c.role payload.length, buf) ∧
    b.out.take (headerSize c.role payload.length)
      = buf.take (headerSize c.role payload.length)
  body : (if c.role = .client then
      masked key (slice b.out (headerSize c.role payload.length) payload.length)
    else slice b.out (headerSize c.role payload.length) payload.length) = payload
  rest : b.out.drop b.n = out.drop b.n

section Building

variable {out : List UInt8}

/-- `build_frame`, by the room there is. -/
theorem buildFrame_exact (c : WsConn) (key : MaskKey) (op : WsOpcode) {payload : List UInt8}
    (hlen : payload.length < 2 ^ 64) (hout : out.length < 2 ^ 64) :
    let n := headerSize c.role payload.length + payload.length
    (buildFrame 64 c key op payload out).n = (if n ≤ out.length then n else 0) ∧
      (n ≤ out.length → Laid c key op payload out (buildFrame 64 c key op payload out)) := by
  intro n
  have hsize := sendHeader_size c key op hlen
  have hwire := wireBody_sendHeader c key op payload.length
  have hbuild := wsBuildHeader_eq (sendHeader c key op payload.length) out
  have hinv := wireBody_wireBody (sendHeader c key op payload.length) payload
  have hbody := wireBody_length (sendHeader c key op payload.length) payload
  rcases buildFrame_cases c key op hout with ⟨hlt, hzero⟩ | ⟨hle, heq⟩
  · rw [hsize] at hlt
    exact ⟨by rw [hzero, if_neg (Nat.not_le.mpr hlt)], fun h => absurd h (Nat.not_le.mpr hlt)⟩
  · rw [hsize] at hle hbuild
    simp only [hsize] at heq
    rw [heq, if_pos hle]
    refine ⟨rfl, fun _ => ⟨⟨_, hbuild (by omega), ?_⟩, ?_, ?_⟩⟩
    · simp only [← hsize, List.append_assoc, List.take_left]
    · have hmid := slice_append_mid (headerBytes (sendHeader c key op payload.length))
        (wireBody (sendHeader c key op payload.length) payload) (out.drop n)
      rw [hbody, hsize] at hmid
      rw [← hwire]
      exact (congrArg _ hmid).trans hinv
    · show (headerBytes (sendHeader c key op payload.length)
        ++ wireBody (sendHeader c key op payload.length) payload ++ out.drop n).drop n = out.drop n
      exact List.drop_left' (by rw [List.length_append, hbody, hsize])

/-- A send that builds its frame under a guard `go`, and reports `0` otherwise. -/
theorem guarded_exact (c : WsConn) (key : MaskKey) (op : WsOpcode) (payload : List UInt8)
    {go : Prop} [Decidable go] {b : Built} (hlen : payload.length < 2 ^ 64)
    (hout : out.length < 2 ^ 64)
    (hgo : go → b = buildFrame 64 c key op payload out) (hno : ¬ go → b.n = 0) :
    let n := headerSize c.role payload.length + payload.length
    (b.n = if go ∧ n ≤ out.length then n else 0) ∧
      (0 < b.n → Laid c key op payload out b) := by
  intro n
  obtain ⟨hn, hwrites⟩ := buildFrame_exact c key op hlen hout
  by_cases hg : go
  · rw [hgo hg]
    by_cases hfit : n ≤ out.length
    · exact ⟨by rw [hn, if_pos hfit, if_pos ⟨hg, hfit⟩], fun _ => hwrites hfit⟩
    · rw [if_neg hfit] at hn
      exact ⟨by rw [hn, if_neg fun h => hfit h.2], fun hpos => absurd hn hpos.ne'⟩
  · exact ⟨by rw [hno hg, if_neg fun h => hg h.1], fun hpos => absurd (hno hg) hpos.ne'⟩

theorem wsSendPong_active {w : Nat} {c : WsConn} (h : wsLcActive c = true) (key : MaskKey)
    (payload out : List UInt8) :
    wsSendPong w c key payload out = buildFrame w c key .pong payload out := by
  rw [wsSendPong, h]
  rfl

/-- The body of a close. -/
def closeBytes (code : UInt16) : List UInt8 := [(code >>> 8).toUInt8, code.toUInt8]

theorem wsSendClose_open {w : Nat} {c : WsConn} (h : c.state = .open) (key : MaskKey)
    (code : UInt16) (out : List UInt8) :
    (wsSendClose w c key code out).1 = buildFrame w c key .close (closeBytes code) out := by
  rw [wsSendClose, if_neg (not_not.mpr h)]
  simp only
  split <;> rfl

end Building

/-- **The senders are exact.**  A message or a pong is sent exactly when the connection is in
`OPEN` or `CLOSING` and the frame fits the buffer, a close exactly when it is in `OPEN` and the
frame fits; the size of the frame is returned, or `0`.  A frame that is sent is `Laid` in the
buffer, and the rest of the buffer stays.  `ws_send_close` moves the connection to `CLOSING` when
it sends, and no send changes it otherwise. -/
theorem send_exact (c : WsConn) (key : MaskKey) (op : WsOpcode) (code : UInt16)
    (payload out : List UInt8) (hlen : payload.length < 2 ^ 63) (hout : out.length < 2 ^ 64) :
    let n := headerSize c.role payload.length + payload.length
    let m := headerSize c.role 2 + 2
    let message := wsSendMessage 64 c key op payload out
    let pong := wsSendPong 64 c key payload out
    let close := wsSendClose 64 c key code out
    (message.n = if (c.state = .open ∨ c.state = .closing) ∧ n ≤ out.length then n else 0) ∧
    (pong.n = if (c.state = .open ∨ c.state = .closing) ∧ n ≤ out.length then n else 0) ∧
    (close.1.n = if c.state = .open ∧ m ≤ out.length then m else 0) ∧
    (0 < message.n → Laid c key op payload out message) ∧
    (0 < pong.n → Laid c key .pong payload out pong) ∧
    (0 < close.1.n → Laid c key .close (closeBytes code) out close.1) ∧
    exec 64 c (.sendMessage key op payload out) = c ∧
    exec 64 c (.sendPong key payload out) = c ∧
    (0 < close.1.n → c.state = .open ∧
      close.2.1 = { c with sentClose := true, state := .closing }) ∧
    (close.1.n = 0 → close.2.1 = c) := by
  intro n m message pong close
  have hlen' : payload.length < 2 ^ 64 := by omega
  have hactive : wsLcActive c = true ↔ c.state = .open ∨ c.state = .closing := by simp [wsLcActive]
  have hidle : ¬ (c.state = .open ∨ c.state = .closing) → wsLcActive c = false := by
    intro h
    simpa [wsLcActive] using h
  obtain ⟨hmessage, hmessage'⟩ := guarded_exact c key op payload hlen' hout
    (fun h => wsSendMessage_active (hactive.mpr h) key op payload out)
    (fun h => by rw [wsSendMessage_inactive (hidle h)])
  obtain ⟨hpong, hpong'⟩ := guarded_exact c key .pong payload hlen' hout
    (fun h => wsSendPong_active (hactive.mpr h) key payload out)
    (fun h => by rw [wsSendPong_inactive (hidle h)])
  obtain ⟨hclose, hclose'⟩ := guarded_exact c key .close (closeBytes code)
    (by decide : 2 < 2 ^ 64) hout (fun h => wsSendClose_open h key code out)
    (fun h => by rw [wsSendClose_not_open h])
  refine ⟨hmessage, hpong, hclose, hmessage', hpong', hclose', rfl, rfl, ?_, ?_⟩
  · intro hpos
    rcases wsSendClose_cases 64 c key code out with ⟨hzero, -⟩ | ⟨-, hopen, hconn⟩
    · exact absurd hzero hpos.ne'
    · exact ⟨hopen, hconn⟩
  · intro hzero
    rcases wsSendClose_cases 64 c key code out with ⟨-, hconn⟩ | ⟨hpos, -⟩
    · exact hconn
    · exact absurd hzero hpos.ne'

/-- A client sends two bytes of text into a buffer of nine. -/
theorem send_exact_client :
    let c := run (exec 64) (wsConnInit .client (zeroBuf 16 (by decide)).bytes) [.open]
    let b := wsSendMessage 64 c #v[1, 2, 3, 4] .text [0x48, 0x69] (List.replicate 9 7)
    b.n = 8 ∧ Laid c #v[1, 2, 3, 4] .text [0x48, 0x69] (List.replicate 9 7) b ∧
      b.out = [0x81, 0x82, 1, 2, 3, 4, 0x49, 0x6B, 7] := by
  intro c b
  obtain ⟨hn, -, -, hwrites, -⟩ := send_exact c #v[1, 2, 3, 4] .text 1000 [0x48, 0x69]
    (List.replicate 9 7) (by decide) (by decide)
  have hsize : b.n = 8 := hn.trans (by decide +kernel)
  exact ⟨hsize, hwrites (by rw [hsize]; decide), by decide +kernel⟩

/-! ### What the parser accepts of it -/

/-- `ws_parse_header` accepts what a builder has written, and finds a frame of that size. -/
def Built.Parses (b : Built) : Prop :=
  ∃ hn h, wsParseHeader (b.out.take b.n) .zero = .ok (hn, h) ∧ 0 < hn ∧
    hn + h.payloadLen.toNat = b.n

section Parsing

variable {h g : WsFrameHeader} {s t : List UInt8}

/-- The second byte of a header decides its size. -/
theorem headerBytes_length_of_byte1 (heq : buildByte1 h = buildByte1 g) :
    (headerBytes h).length = (headerBytes g).length := by
  have hh := lenField_lt h.payloadLen
  have hg := lenField_lt g.payloadLen
  have hfield : lenField h.payloadLen (hdrLen h.payloadLen)
      = lenField g.payloadLen (hdrLen g.payloadLen) :=
    calc _ = buildByte1 h &&& 0x7F := (setHighBit_low7 _ _ hh).symm
      _ = buildByte1 g &&& 0x7F := by rw [heq]
      _ = _ := setHighBit_low7 _ _ hg
  have hmask : h.masked = g.masked :=
    calc h.masked = decide (buildByte1 h &&& 0x80 ≠ 0) := (setHighBit_high _ _ hh).symm
      _ = decide (buildByte1 g &&& 0x80 ≠ 0) := by rw [heq]
      _ = g.masked := setHighBit_high _ _ hg
  have hext := congrArg extBytes hfield
  rw [extBytes_lenField, extBytes_lenField] at hext
  have hb := hdrLen_bounds h.payloadLen
  have hb' := hdrLen_bounds g.payloadLen
  rw [headerBytes_length, headerBytes_length, hmask,
    show hdrLen h.payloadLen = hdrLen g.payloadLen by omega]

theorem low4_low4 (b : UInt8) (f : Bool) : setHighBit (b &&& 0x0F) f &&& 0x0F = b &&& 0x0F :=
  forall_uint8 (P := fun b => ∀ f, setHighBit (b &&& 0x0F) f &&& 0x0F = b &&& 0x0F)
    (by decide +kernel) b f

/-- A header that stands where one was built has its opcode and its size. -/
theorem headerBytes_inj (heq : headerBytes h ++ s = headerBytes g ++ t) :
    h.opcode &&& 0x0F = g.opcode &&& 0x0F ∧ (headerBytes h).length = (headerBytes g).length := by
  simp only [headerBytes, List.cons_append, List.cons.injEq] at heq
  refine ⟨?_, headerBytes_length_of_byte1 heq.2.1⟩
  have hop := congrArg (· &&& 0x0F) heq.1
  simpa only [buildByte0, low4_low4] using hop

theorem classify_low4 (op : WsOpcode) : wsClassifyOpcode (op &&& 0x0F) = wsClassifyOpcode op :=
  forall_uint8 (P := fun op => wsClassifyOpcode (op &&& 0x0F) = wsClassifyOpcode op)
    (by decide +kernel) op

/-- Only the low nibble of the opcode is built. -/
theorem headerBytes_low4 (h : WsFrameHeader) :
    headerBytes { h with opcode := h.opcode &&& 0x0F } = headerBytes h := by
  have hlow : h.opcode &&& 0x0F &&& 0x0F = h.opcode &&& 0x0F := low4_low4 h.opcode false
  simp only [headerBytes, buildByte0, hlow]
  rfl

/-- A header may be sent and received: it announces less than `2 ^ 63` bytes, and at most 125 in a
control frame. -/
def Legal (op : WsOpcode) (len : Nat) : Prop :=
  len < 2 ^ 63 ∧ (wsClassifyOpcode op = .control → len ≤ 125)

/-- What `build_frame` reports to have written: the header and the payload on the wire. -/
theorem buildFrame_bytes (c : WsConn) (key : MaskKey) (op : WsOpcode) {payload out : List UInt8}
    (hlen : payload.length < 2 ^ 64) (hout : out.length < 2 ^ 64)
    (hfit : headerSize c.role payload.length + payload.length ≤ out.length) :
    let h := sendHeader c key op payload.length
    let b := buildFrame 64 c key op payload out
    b.n = (headerBytes h).length + payload.length ∧
      b.out.take b.n = headerBytes h ++ wireBody h payload := by
  intro h b
  rcases buildFrame_cases c key op hout with ⟨hlt, -⟩ | ⟨-, heq⟩
  · rw [sendHeader_size c key op hlen] at hlt
    omega
  · rw [show b = _ from heq]
    refine ⟨rfl, List.take_left' ?_⟩
    rw [List.length_append, wireBody_length]

/-- What `build_frame` writes parses exactly when its header is legal. -/
theorem buildFrame_parses_iff (c : WsConn) (key : MaskKey) (op : WsOpcode)
    {payload out : List UInt8} (hlen : payload.length < 2 ^ 64) (hout : out.length < 2 ^ 64)
    (hfit : headerSize c.role payload.length + payload.length ≤ out.length) :
    (buildFrame 64 c key op payload out).Parses ↔ Legal op payload.length := by
  have hplen := sendHeader_len c key op hlen
  obtain ⟨hop, hfin, -, hrsv, -, -⟩ := sendHeader_fields c key op payload.length
  obtain ⟨hn, htake⟩ := buildFrame_bytes c key op hlen hout hfit
  rw [Built.Parses, htake, hn]
  generalize sendHeader c key op payload.length = h at *
  constructor
  · rintro ⟨n, g, hp, -, hsum⟩
    obtain ⟨hw, -, rfl, t, hbytes⟩ := parse_ok_inv hp
    obtain ⟨hnib, hsame⟩ := headerBytes_inj hbytes
    have hg : g.payloadLen.toNat = payload.length := by omega
    refine ⟨hg ▸ hw.len, fun hctl => hg ▸ (hw.control ?_).2⟩
    rw [← classify_low4, ← hnib, hop, classify_low4]
    exact hctl
  · rintro ⟨h63, hctl⟩
    have hw : ({ h with opcode := h.opcode &&& 0x0F } : WsFrameHeader).WellFormed := by
      refine ⟨hrsv, low4_lt _, by rw [hplen]; exact h63, fun hc => ⟨hfin, ?_⟩⟩
      rw [hplen]
      exact hctl (by rw [← hop, ← classify_low4]; exact hc)
    have hp := parse_headerBytes hw .zero (wireBody h payload)
    rw [headerBytes_low4] at hp
    refine ⟨_, _, hp, by have := headerBytes_length_ge h; omega, ?_⟩
    rw [WsFrameHeader.into]
    split
    · rw [hplen]
    · rw [hplen]

/-- A guarded send parses exactly when its header is legal or nothing is sent. -/
theorem guarded_parses_iff (c : WsConn) (key : MaskKey) (op : WsOpcode) {payload out : List UInt8}
    {go : Prop} {b : Built} (hlen : payload.length < 2 ^ 64) (hout : out.length < 2 ^ 64)
    (hgo : go → b = buildFrame 64 c key op payload out) (hno : ¬ go → b.n = 0) :
    (0 < b.n → b.Parses) ↔
      (go ∧ headerSize c.role payload.length + payload.length ≤ out.length →
        Legal op payload.length) := by
  by_cases hg : go
  · obtain ⟨hn, -⟩ := buildFrame_exact c key op hlen hout
    rw [hgo hg, hn]
    by_cases hfit : headerSize c.role payload.length + payload.length ≤ out.length
    · have hpos : 0 < headerSize c.role payload.length + payload.length := by
        rw [headerSize]
        split <;> omega
      rw [if_pos hfit, buildFrame_parses_iff c key op hlen hout hfit]
      exact ⟨fun h _ => h hpos, fun h _ => h ⟨hg, hfit⟩⟩
    · rw [if_neg hfit]
      exact ⟨fun _ h => absurd h.2 hfit, fun _ h => absurd h (Nat.lt_irrefl 0)⟩
  · exact ⟨fun _ h => absurd h.1 hg, fun _ h => absurd (hno hg) h.ne'⟩

theorem legal_pong (len : Nat) : Legal .pong len ↔ len ≤ 125 := by
  constructor
  · intro h
    exact h.2 rfl
  · intro h
    exact ⟨by omega, fun _ => h⟩

end Parsing

/-- **The parser accepts what was sent** exactly when nothing was sent or the payload is legal for
the opcode: a control frame of more than 125 bytes is sent like any other and is refused. -/
theorem send_parses_iff (c : WsConn) (key : MaskKey) (op : WsOpcode) (payload out : List UInt8)
    (hlen : payload.length < 2 ^ 64) (hout : out.length < 2 ^ 64) :
    let message := wsSendMessage 64 c key op payload out
    let pong := wsSendPong 64 c key payload out
    let sends := wsLcActive c = true ∧
      headerSize c.role payload.length + payload.length ≤ out.length
    ((0 < message.n → message.Parses) ↔ (sends → payload.length < 2 ^ 63 ∧
      (wsClassifyOpcode op = .control → payload.length ≤ 125))) ∧
    ((0 < pong.n → pong.Parses) ↔ (sends → payload.length ≤ 125)) := by
  intro message pong sends
  constructor
  · exact guarded_parses_iff c key op hlen hout
      (fun h => wsSendMessage_active h key op payload out)
      (fun h => congrArg Built.n
        (wsSendMessage_inactive (Bool.not_eq_true _ ▸ h) key op payload out))
  · rw [← legal_pong]
    exact guarded_parses_iff c key .pong hlen hout
      (fun h => wsSendPong_active h key payload out)
      (fun h => congrArg Built.n (wsSendPong_inactive (Bool.not_eq_true _ ▸ h) key payload out))

/-- A pong of 126 bytes is sent, and the parser refuses it. -/
theorem long_pong_refused :
    let c := run (exec 64) (wsConnInit .server (zeroBuf 16 (by decide)).bytes) [.open]
    let b := wsSendPong 64 c (Vector.replicate 4 0) (List.replicate 126 0) (List.replicate 130 0)
    b.n = 130 ∧ wsParseHeader (b.out.take b.n) .zero = .error .errProtocol := by
  decide +kernel

theorem send_parses_iff_ping :
    let c := run (exec 64) (wsConnInit .client (zeroBuf 16 (by decide)).bytes) [.open]
    let b := wsSendMessage 64 c #v[1, 2, 3, 4] .ping (List.replicate 125 7) (List.replicate 131 0)
    b.n = 131 ∧ b.Parses := by
  intro c b
  have hn : b.n = 131 := by decide +kernel
  have hiff := (send_parses_iff c #v[1, 2, 3, 4] .ping (List.replicate 125 7)
    (List.replicate 131 0) (by simp) (by simp)).1
  exact ⟨hn, hiff.mpr (fun _ => by simp) (by rw [hn]; decide)⟩

/-! ### The code of a close -/

/-- The bytes of a close carry `code` to any endpoint of this role that is in `OPEN` or `CLOSING`
with nothing in its raw region, in whatever run and with or without a message in flight. -/
def CloseArrives (role : WsRole) (code : UInt16) (frame : List UInt8) : Prop :=
  ∀ (buf : MsgBuf 64) (calls : List Call),
    let d := run (exec 64) (wsConnInit role buf.bytes) calls
    let p := wsConnPoll 64 (exec 64 d (.recv frame))
    wsLcActive d = true → d.failed = false → d.rxLen = 0 → NoWrap 64 d (.recv frame) →
    (wsConnRecv 64 d frame).1 = frame.length →
    p.ret = .close ∧ p.ev.closeCode = code ∧ p.conn.state = .closed ∧ p.conn.frag = .none ∧
      p.conn.msgLen = 0

section Arriving

variable {role : WsRole} {buf : MsgBuf 64} {calls : List Call} {d : WsConn} {f : Frame}

/-- A frame received into an empty raw region is the raw region. -/
theorem recv_frame (hd : run (exec 64) (wsConnInit role buf.bytes) calls = d)
    (hrx : d.rxLen = 0) (hwrap : NoWrap 64 d (.recv f.wire))
    (hret : (wsConnRecv 64 d f.wire).1 = f.wire.length) :
    ∃ b, exec 64 d (.recv f.wire) = { d with msgBuf := b, rxLen := f.wire.length } ∧
      rawBytes (exec 64 d (.recv f.wire)) = f.wire := by
  subst hd
  have hcap := (run_msgCap 64 (wsConnInit role buf.bytes) calls).trans_lt buf.cap_lt
  have hmsg := run_msgLen_le 64 role buf.bytes calls
  generalize run (exec 64) (wsConnInit role buf.bytes) calls = d at *
  have hv : View d d.msg [] := View.ofRaw hmsg hrx (by simp [rawBytes, slice, hrx])
  have hfit : d.msgLen + d.rxLen + f.wire.length ≤ d.msgCap := by
    by_contra hlt
    have hmod : (d.msgLen + d.rxLen + f.wire.length) % 2 ^ 64
        = d.msgLen + d.rxLen + f.wire.length := Nat.mod_eq_of_lt hwrap
    rw [wsConnRecv_rejects (by rw [hmod]; omega)] at hret
    exact absurd hret (by simp only [WsStatus.code]; omega)
  rw [hv.msgLen, hv.rxLen] at hfit
  obtain ⟨b, -, heq, hv'⟩ := hv.recv hcap hfit
  refine ⟨b, by rw [exec, heq]; rfl, ?_⟩
  rw [exec, heq]
  exact hv'.rawBytes_eq

/-- The body of a close, read by the receiver. -/
theorem closeBody_closeBytes (code : UInt16) :
    closeBody (closeBytes code) = if Sendable code.toNat then some code else none := by
  have hlt := code.toNat_lt
  have hval : (code >>> 8).toUInt8.toNat * 256 + code.toUInt8.toNat = code.toNat := by
    have hhi : (code >>> 8).toUInt8.toNat = code.toNat / 256 := by
      rw [UInt16.toNat_toUInt8, UInt16.toNat_shiftRight]
      show code.toNat >>> 8 % 2 ^ 8 = code.toNat / 256
      rw [Nat.shiftRight_eq_div_pow]
      omega
    rw [hhi, UInt16.toNat_toUInt8]
    omega
  rw [closeBytes, closeBody, hval, UInt16.ofNat_toNat]
  have hnil : IsUtf8 [] := (wsUtf8Valid_iff []).mp rfl
  simp [hnil]

/-- A close that is received into an empty raw region, with the mask bit its receiver asks for. -/
theorem close_outcome {code : UInt16} (hd : run (exec 64) (wsConnInit role buf.bytes) calls = d)
    (hact : wsLcActive d = true) (hf : d.failed = false) (hrx : d.rxLen = 0)
    (hwrap : NoWrap 64 d (.recv f.wire)) (hret : (wsConnRecv 64 d f.wire).1 = f.wire.length)
    (hop : f.h.opcode = .close) (hmask : role = .server → f.h.masked = true)
    (hbody : f.payload = closeBytes code) :
    let c := exec 64 d (.recv f.wire)
    Outcome c c.msg f [] (if Sendable code.toNat then .close code else .refuse)
      (wsConnPoll 64 c) := by
  intro c
  obtain ⟨b, heq, hraw⟩ := recv_frame hd hrx hwrap hret
  have hc : run (exec 64) (wsConnInit role buf.bytes) (calls ++ [.recv f.wire]) = c := by
    rw [run_append, hd]
    rfl
  have hadm : (c.receiver c.msg).Admits role f := by
    refine ⟨?_, ?_, hmask⟩
    · show c.failed = false
      rw [show c = _ from heq]
      exact hf
    · rw [← wsLcActive_iff, show c = _ from heq]
      exact hact
  have hkind : f.kind = .close := by rw [Frame.kind, hop]; rfl
  have ho := run_outcome (t := []) hc hadm.1
    (by rw [List.append_nil, show c = _ from heq]) (by rw [List.append_nil]; exact hraw)
  rw [Receiver.verdict_of_admits hadm] at ho
  simp only [hkind, hbody, closeBody_closeBytes] at ho
  by_cases hs : Sendable code.toNat
  · simpa only [if_pos hs] using ho
  · simpa only [if_neg hs] using ho

/-- A close with the right mask bit arrives exactly when its code is sendable. -/
theorem closeArrives_iff {code : UInt16} (hsize : f.wire.length ≤ 16)
    (hop : f.h.opcode = .close) (hmask : role = .server → f.h.masked = true)
    (hbody : f.payload = closeBytes code) :
    CloseArrives role code f.wire ↔ wsCloseCodeSendable code = true := by
  rw [wsCloseCodeSendable_iff]
  constructor
  · intro h
    by_contra hs
    -- a new connection takes the frame and refuses it
    obtain ⟨d, hd⟩ : ∃ d,
        run (exec 64) (wsConnInit role (zeroBuf 16 (by decide)).bytes) [.open] = d := ⟨_, rfl⟩
    obtain ⟨hact, hf, hmsg, hrx, hcap⟩ : wsLcActive d = true ∧ d.failed = false ∧
        d.msgLen = 0 ∧ d.rxLen = 0 ∧ d.msgCap = 16 := by
      rw [← hd]
      exact ⟨rfl, rfl, rfl, rfl, rfl⟩
    have hfit : d.msgLen + d.rxLen + f.wire.length ≤ d.msgCap := by omega
    have hret : (wsConnRecv 64 d f.wire).1 = f.wire.length := by
      have hint := (toInt_eq_iff f.wire.length).mpr (by omega)
      rw [wsConnRecv_fits (by omega) hfit, hint]
    have hwrap : NoWrap 64 d (.recv f.wire) := by
      show d.msgLen + d.rxLen + f.wire.length < 2 ^ 64
      omega
    subst hd
    have hclose := (h (zeroBuf 16 (by decide)) [.open] hact hf hrx hwrap hret).1
    have ho := close_outcome rfl hact hf hrx hwrap hret hop hmask hbody
    rw [if_neg hs] at ho
    rw [ho.of_refuse.1] at hclose
    cases hclose
  · intro hs buf calls d p hact hf hrx hwrap hret
    have ho := close_outcome rfl hact hf hrx hwrap hret hop hmask hbody
    rw [if_pos hs] at ho
    change Outcome _ _ f [] (.close code) p at ho
    generalize p = q at ho
    cases ho with
    | close => exact ⟨rfl, rfl, rfl, rfl, rfl⟩

/-- What `ws_send_close` sends is a close, with the mask bit its receiver asks for. -/
theorem wsSendClose_frame {c : WsConn} {key : MaskKey} {code : UInt16} {out : List UInt8}
    (hout : out.length < 2 ^ 64) (hopen : c.state = .open)
    (hpos : 0 < (wsSendClose 64 c key code out).1.n) :
    ∃ f : Frame, (wsSendClose 64 c key code out).1.out.take (wsSendClose 64 c key code out).1.n
        = f.wire ∧ f.wire.length ≤ 16 ∧ f.h.opcode = .close ∧
      (c.role.opposite = .server → f.h.masked = true) ∧ f.payload = closeBytes code := by
  rw [wsSendClose_open hopen] at hpos ⊢
  have hlen : (closeBytes code).length = 2 := rfl
  obtain ⟨hop, hfin, hplen, hrsv, hmask, -⟩ := sendHeader_fields c key .close 2
  have hw : (sendHeader c key .close (closeBytes code).length).WellFormed := by
    rw [hlen]
    exact ⟨hrsv, by rw [hop]; decide, by rw [hplen]; decide, fun _ => ⟨hfin, by rw [hplen]; decide⟩⟩
  obtain ⟨f, hwire, hh, hbody⟩ := buildFrame_wire hw (hlen.trans_lt (by decide)) hout hpos
  rw [hlen] at hh
  refine ⟨f, hwire, ?_, by rw [hh, hop], fun hother => ?_, hbody⟩
  · rw [f.wire_length, hh, hplen]
    have := f.hdr_length
    show f.hdr.length + 2 ≤ 16
    omega
  · rw [hh, hmask]
    cases hr : c.role with
    | server => rw [hr] at hother; cases hother
    | client => rfl

end Arriving

/-- **The code of a close reaches the peer** exactly when it is sendable: `ws_send_close` sends
any code, and the peer fails the connection on the others. -/
theorem close_arrives_iff (c : WsConn) (key : MaskKey) (code : UInt16) (out : List UInt8)
    (hout : out.length < 2 ^ 64) (hopen : c.state = .open) :
    let b := (wsSendClose 64 c key code out).1
    (0 < b.n → CloseArrives c.role.opposite code (b.out.take b.n)) ↔
      (headerSize c.role 2 + 2 ≤ out.length → wsCloseCodeSendable code = true) := by
  intro b
  have hlen : (closeBytes code).length = 2 := rfl
  obtain ⟨hn, -⟩ := buildFrame_exact c key .close (hlen.trans_lt (by decide)) hout
  rw [← wsSendClose_open hopen, hlen] at hn
  change b.n = _ at hn
  by_cases hfit : headerSize c.role 2 + 2 ≤ out.length
  · have hpos : 0 < b.n := by
      rw [hn, if_pos hfit]
      omega
    obtain ⟨f, hwire, hsize, hop, hmask, hbody⟩ := wsSendClose_frame hout hopen hpos
    rw [hwire, closeArrives_iff hsize hop hmask hbody]
    exact ⟨fun h _ => h hpos, fun h _ => h hfit⟩
  · rw [if_neg hfit] at hn
    exact ⟨fun _ h => absurd h hfit, fun _ h => absurd hn h.ne'⟩

/-- A server sends the reserved code 1005, and the client that receives it fails. -/
theorem close_code_refused :
    let c := run (exec 64) (wsConnInit .server (zeroBuf 16 (by decide)).bytes) [.open]
    let b := (wsSendClose 64 c (Vector.replicate 4 0) 1005 (List.replicate 4 0)).1
    let d := run (exec 64) (wsConnInit .client (zeroBuf 16 (by decide)).bytes) [.open]
    b.n = 4 ∧ wsLcActive d = true ∧ d.failed = false ∧ d.rxLen = 0 ∧
      (wsConnRecv 64 d (b.out.take b.n)).1 = 4 ∧
      (wsConnPoll 64 (exec 64 d (.recv (b.out.take b.n)))).ret = .error := by
  decide +kernel

theorem close_arrives_iff_normal :
    let c := run (exec 64) (wsConnInit .client (zeroBuf 16 (by decide)).bytes) [.open]
    let b := (wsSendClose 64 c #v[5, 6, 7, 8] 1000 (List.replicate 8 0)).1
    0 < b.n ∧ CloseArrives .server 1000 (b.out.take b.n) := by
  intro c b
  have hpos : 0 < b.n := by decide +kernel
  have hiff := close_arrives_iff c #v[5, 6, 7, 8] 1000 (List.replicate 8 0) (by decide) rfl
  exact ⟨hpos, hiff.mpr (fun _ => by decide) hpos⟩

end Libws
