import Libws.Util.Checked
import Libws.Session.Checked
import Libws.Session.Sending

/-!
# Session — receiving and sending stay inside their arrays

`ws_conn_recv`, `ws_build_header`, `build_frame` and the `ws_send_*` functions once more, with every
store, load and size checked.  What is received is read through a reader; a frame is stored in the
`cap` bytes of `out`, whatever they hold.

* `wsConnRecv_eq`, `buildFrame_eq`: no check fails.
* `buildFrame_sent`: the bytes of the frame do not depend on what `out` held.
-/

namespace Libws.Checked
open Libws.Support

/-! ### Receiving -/

/-- The bytes from a pointer on. -/
def loads (rd : Nat → Option UInt8) (len : Nat) : Option (List UInt8) := (List.range len).mapM rd

/-- `ws_memcpy(dst + off, src, n)`, where `src` is read through `rd`. -/
def copyFrom (dst : List UInt8) (off : Nat) (rd : Nat → Option UInt8) (n : Nat) :
    Option (List UInt8) :=
  forRangeM n (fun i d => do writeIn d (off + i) (← rd i)) dst

def wsConnRecv (w : Nat) (c : WsConn) (rd : Nat → Option UInt8) (len : Nat) :
    Option (Int × WsConn) := do
  if (← checkedAdd w (← checkedAdd w c.msgLen c.rxLen) len) > c.msgCap then
    some (WsStatus.errTooSmall.code, c)
  else
    let buf ← copyFrom c.msgBuf (c.msgLen + c.rxLen) rd len
    some (toInt len, { c with msgBuf := buf, rxLen := ← checkedAdd w c.rxLen len })

section Receiving

variable {rd : Nat → Option UInt8} {bytes : List UInt8}

theorem mapM_eq_some {l : List Nat} {f : Nat → UInt8} (h : ∀ i ∈ l, rd i = some (f i)) :
    l.mapM rd = some (l.map f) := by
  induction l with
  | nil => rfl
  | cons i l ih =>
      rw [List.mapM_cons, h i (List.mem_cons_self ..),
        ih fun j hj => h j (List.mem_cons_of_mem _ hj)]
      rfl

theorem loads_eq (h : Agrees rd bytes) : loads rd bytes.length = some bytes := by
  rw [loads, mapM_eq_some fun i hi => h i (List.mem_range.mp hi), map_getD_range]

theorem copyFrom_eq (h : Agrees rd bytes) {dst : List UInt8} {off : Nat}
    (hd : off + bytes.length ≤ dst.length) :
    copyFrom dst off rd bytes.length = some (Libws.wsMemcpy dst off bytes bytes.length) := by
  refine forRangeM_eq (P := fun t => t.length = dst.length) rfl fun i t hi ht => ⟨?_, ?_⟩
  · rw [h i hi]
    exact writeIn_eq _ (by omega)
  · rw [List.length_set, ht]

theorem copyFrom_splice (h : Agrees rd bytes) {dst : List UInt8} {off : Nat}
    (hd : off + bytes.length ≤ dst.length) :
    copyFrom dst off rd bytes.length = some (splice dst off bytes) := by
  rw [copyFrom_eq h hd, Libws.wsMemcpy, forRange_set _ _ _ _ hd, map_getD_range]

theorem splice_length {dst : List UInt8} {off : Nat} (hd : off + bytes.length ≤ dst.length) :
    (splice dst off bytes).length = dst.length := by
  simp only [splice, List.length_append, List.length_take, List.length_drop]
  omega

/-- **The checked `ws_conn_recv`**, of bytes whose count does not wrap. -/
theorem wsConnRecv_eq (h : Agrees rd bytes) {c : WsConn}
    (hwrap : c.msgLen + c.rxLen + bytes.length < 2 ^ 64) :
    wsConnRecv 64 c rd bytes.length = some (Libws.wsConnRecv 64 c bytes) := by
  have hsum : szAdd 64 c.msgLen c.rxLen = c.msgLen + c.rxLen := szAdd_of_lt (by omega)
  rw [wsConnRecv, checkedAdd_eq (show c.msgLen + c.rxLen < 2 ^ 64 by omega)]
  simp only [Option.bind_eq_bind, Option.bind_some]
  rw [checkedAdd_eq hwrap, Libws.wsConnRecv, hsum, szAdd_of_lt hwrap, Option.bind_some]
  split
  · rfl
  · rename_i hle
    rw [copyFrom_eq h (by rw [WsConn.msgCap] at hle; omega), Option.bind_some,
      checkedAdd_eq (by omega), szAdd_of_lt (by omega)]
    rfl

end Receiving

/-! ### The header -/

/-- `write_be(buf + off, v, n)`. -/
def writeBe (buf : List UInt8) (off : Nat) (v : UInt64) (n : Nat) : Option (List UInt8) :=
  forRangeM n (fun i b => writeIn b (off + (n - 1 - i)) (v >>> (8 * UInt64.ofNat i)).toUInt8) buf

def buildLen (h : WsFrameHeader) (buf : List UInt8) (hdr : Nat) : Option (List UInt8) := do
  let buf ← writeIn buf 1 (setHighBit (lenField h.payloadLen hdr) h.masked)
  if hdr > 2 then writeBe buf 2 h.payloadLen (hdr - 2) else some buf

def buildMask (h : WsFrameHeader) (buf : List UInt8) (hdr : Nat) : Option (List UInt8) :=
  if h.masked then wsMemcpy buf hdr h.maskKey.toList 4 else some buf

def wsBuildHeader (h : WsFrameHeader) (buf : List UInt8) :
    Option (Except WsStatus (Nat × List UInt8)) := do
  let hdr := hdrLen h.payloadLen
  let need := totalLen hdr h.masked
  if buf.length < need then some (.error .errTooSmall)
  else
    let buf ← writeIn buf 0 (buildByte0 h)
    let buf ← buildLen h buf hdr
    some (.ok (need, ← buildMask h buf hdr))

section Header

variable {h : WsFrameHeader} {buf : List UInt8} {hdr : Nat}

theorem writeBe_eq {off n : Nat} (v : UInt64) (hb : off + n ≤ buf.length) :
    writeBe buf off v n = some (Libws.writeBe buf off v n) := by
  refine forRangeM_eq (P := fun t => t.length = buf.length) rfl fun i t hi ht => ⟨?_, ?_⟩
  · exact writeIn_eq _ (by omega)
  · rw [List.length_set, ht]

theorem writeBe_length (off n : Nat) (v : UInt64) :
    (Libws.writeBe buf off v n).length = buf.length :=
  forRange_inv (P := fun _ (b : List UInt8) => b.length = buf.length) rfl
    fun _ _ _ hb => by rw [List.length_set, hb]

theorem buildLen_eq (h2 : 2 ≤ hdr) (hb : hdr ≤ buf.length) :
    buildLen h buf hdr = some (Libws.buildLen h buf hdr) := by
  rw [buildLen, writeIn_eq _ (show 1 < buf.length by omega), Libws.buildLen, Option.bind_eq_bind,
    Option.bind_some]
  split
  · exact writeBe_eq _ (by rw [List.length_set]; omega)
  · rfl

theorem buildLen_length : (Libws.buildLen h buf hdr).length = buf.length := by
  rw [Libws.buildLen]
  split
  · rw [writeBe_length, List.length_set]
  · rw [List.length_set]

theorem buildMask_eq (hb : totalLen hdr h.masked ≤ buf.length) :
    buildMask h buf hdr = some (Libws.buildMask h buf hdr) := by
  rw [buildMask, Libws.buildMask]
  split
  · rename_i hm
    rw [totalLen, if_pos hm] at hb
    exact wsMemcpy_eq hb (le_of_eq (Vector.length_toList).symm)
  · rfl

/-- **The checked `ws_build_header`.** -/
theorem wsBuildHeader_eq (h : WsFrameHeader) (buf : List UInt8) :
    wsBuildHeader h buf = some (Libws.wsBuildHeader h buf) := by
  have hbounds := hdrLen_bounds h.payloadLen
  have htotal : hdrLen h.payloadLen ≤ totalLen (hdrLen h.payloadLen) h.masked := by
    rw [totalLen]
    split <;> omega
  rw [wsBuildHeader, Libws.wsBuildHeader]
  split
  · rfl
  · rename_i hroom
    have hset : (buf.set 0 (buildByte0 h)).length = buf.length := List.length_set
    rw [writeIn_eq _ (show 0 < buf.length by omega), Option.bind_eq_bind, Option.bind_some,
      buildLen_eq (by omega) (by omega), Option.bind_some,
      buildMask_eq (by rw [buildLen_length]; omega)]
    rfl

end Header

/-! ### The frame -/

def buildFrame (w : Nat) (c : WsConn) (key : MaskKey) (op : WsOpcode)
    (payload out : List UInt8) : Option Built := do
  let h := outHeader c key { WsFrameHeader.zero with
    opcode := op, payloadLen := UInt64.ofNat payload.length, fin := true, masked := false }
  match ← wsBuildHeader h out with
  | .error _ => some ⟨0, out⟩
  | .ok (hn, buf) =>
    if !decide ((← checkedSub out.length hn) ≥ payload.length) then some ⟨0, buf⟩
    else
      let buf ← wsMemcpy buf hn payload payload.length
      let buf ← if h.masked then
          wsMask hn (hn + payload.length) buf hn payload.length h.maskKey
        else some buf
      some ⟨← checkedAdd w hn payload.length, buf⟩

def wsSendMessage (w : Nat) (c : WsConn) (key : MaskKey) (op : WsOpcode)
    (payload out : List UInt8) : Option Built :=
  if !wsLcActive c then some ⟨0, out⟩ else buildFrame w c key op payload out

def wsSendPong (w : Nat) (c : WsConn) (key : MaskKey) (payload out : List UInt8) :
    Option Built :=
  if !wsLcActive c then some ⟨0, out⟩ else buildFrame w c key .pong payload out

def wsSendClose (w : Nat) (c : WsConn) (key : MaskKey) (code : UInt16) (out : List UInt8) :
    Option (Built × WsConn × List WsStatus) := do
  if c.state ≠ .open then some (⟨0, out⟩, c, [])
  else
    let body := [(code >>> 8).toUInt8, code.toUInt8]
    let b ← buildFrame w c key .close body out
    if b.n > 0 then
      let (rc, c) := wsLcSendClose c
      some (b, c, [rc])
    else some (b, c, [])

section Frames

variable {c : WsConn} {key : MaskKey} {op : WsOpcode} {payload out : List UInt8}

/-- What `ws_build_header` leaves has the size of the array, and the header fits. -/
theorem buildHeader_ok {h : WsFrameHeader} {hn : Nat} {buf : List UInt8}
    (hb : Libws.wsBuildHeader h out = .ok (hn, buf)) : hn ≤ out.length ∧
      buf.length = out.length := by
  rw [Libws.wsBuildHeader] at hb
  split at hb
  · cases hb
  · rename_i hroom
    cases hb
    refine ⟨by omega, ?_⟩
    rw [Libws.buildMask]
    split
    · rw [wsMemcpy_length, buildLen_length, List.length_set]
    · rw [buildLen_length, List.length_set]

/-- **The checked `build_frame`.** -/
theorem buildFrame_eq (hout : out.length < 2 ^ 64) :
    buildFrame 64 c key op payload out = some (Libws.buildFrame 64 c key op payload out) := by
  rw [buildFrame, Libws.buildFrame]
  dsimp only
  rw [wsBuildHeader_eq, Option.bind_eq_bind, Option.bind_some]
  cases hb : Libws.wsBuildHeader (outHeader c key { WsFrameHeader.zero with
    opcode := op, payloadLen := UInt64.ofNat payload.length, fin := true,
    masked := false }) out with
  | error rc => rfl
  | ok r =>
      obtain ⟨hn, buf⟩ := r
      obtain ⟨hle, hbuf⟩ := buildHeader_ok hb
      dsimp only
      rw [checkedSub_eq hle, Option.bind_eq_bind, Option.bind_some, frameFits,
        szSub_of_le hle hout]
      split
      · rfl
      · rename_i hfit
        have hfit : payload.length ≤ out.length - hn := by simpa using hfit
        rw [wsMemcpy_eq (by omega) (Nat.le_refl _), Option.bind_eq_bind, Option.bind_some,
          checkedAdd_eq (by omega),
          szAdd_of_lt (by omega)]
        split
        · rw [wsMask_eq _ (Nat.le_refl _) (Nat.le_refl _) (by rw [wsMemcpy_length]; omega)]
          rfl
        · rfl

theorem wsSendMessage_eq (hout : out.length < 2 ^ 64) :
    wsSendMessage 64 c key op payload out
      = some (Libws.wsSendMessage 64 c key op payload out) := by
  rw [wsSendMessage, Libws.wsSendMessage, buildFrame_eq hout]
  exact (apply_ite some _ _ _).symm

theorem wsSendPong_eq (hout : out.length < 2 ^ 64) :
    wsSendPong 64 c key payload out = some (Libws.wsSendPong 64 c key payload out) := by
  rw [wsSendPong, Libws.wsSendPong, buildFrame_eq hout]
  exact (apply_ite some _ _ _).symm

theorem wsSendClose_eq {code : UInt16} (hout : out.length < 2 ^ 64) :
    wsSendClose 64 c key code out = some (Libws.wsSendClose 64 c key code out) := by
  rw [wsSendClose, Libws.wsSendClose]
  dsimp only
  rw [buildFrame_eq hout, Option.bind_eq_bind, Option.bind_some]
  split
  · rfl
  · exact (apply_ite some _ _ _).symm

/-! ### What is sent -/

/-- The bytes a `ws_send_*` function reports to have written. -/
def sent (b : Built) : Nat × List UInt8 := (b.n, b.out.take b.n)

/-- **What the array held does not count.** -/
theorem buildFrame_sent {out' : List UInt8} (hlen : out.length = out'.length)
    (hout : out.length < 2 ^ 64) : sent (Libws.buildFrame 64 c key op payload out)
      = sent (Libws.buildFrame 64 c key op payload out') := by
  rcases @buildFrame_cases c key op payload out hout with ⟨hlt, hzero⟩ | ⟨hle, heq⟩ <;>
    rcases @buildFrame_cases c key op payload out' (hlen ▸ hout) with
      ⟨hlt', hzero'⟩ | ⟨hle', heq'⟩
  · rw [sent, sent, hzero, hzero', List.take_zero, List.take_zero]
  · omega
  · omega
  · rw [sent, sent, heq, heq']
    dsimp only
    rw [List.take_left' (by rw [List.length_append, wireBody_length]),
      List.take_left' (by rw [List.length_append, wireBody_length])]

/-- The bytes reported lie in the array. -/
theorem buildFrame_n_le (hout : out.length < 2 ^ 64) :
    (Libws.buildFrame 64 c key op payload out).n
      ≤ (Libws.buildFrame 64 c key op payload out).out.length := by
  rcases @buildFrame_cases c key op payload out hout with ⟨-, hzero⟩ | ⟨hle, heq⟩
  · omega
  · rw [heq]
    simp only [List.length_append, wireBody_length]
    omega

theorem wsSendMessage_sent {out' : List UInt8} (hlen : out.length = out'.length)
    (hout : out.length < 2 ^ 64) :
    let b := Libws.wsSendMessage 64 c key op payload out
    sent b = sent (Libws.wsSendMessage 64 c key op payload out') ∧ b.n ≤ b.out.length := by
  rw [Libws.wsSendMessage, Libws.wsSendMessage]
  split
  · exact ⟨rfl, Nat.zero_le _⟩
  · exact ⟨buildFrame_sent hlen hout, buildFrame_n_le hout⟩

theorem wsSendPong_sent {out' : List UInt8} (hlen : out.length = out'.length)
    (hout : out.length < 2 ^ 64) :
    let b := Libws.wsSendPong 64 c key payload out
    sent b = sent (Libws.wsSendPong 64 c key payload out') ∧ b.n ≤ b.out.length := by
  rw [Libws.wsSendPong, Libws.wsSendPong]
  split
  · exact ⟨rfl, Nat.zero_le _⟩
  · exact ⟨buildFrame_sent hlen hout, buildFrame_n_le hout⟩

theorem wsSendClose_sent {code : UInt16} {out' : List UInt8} (hlen : out.length = out'.length)
    (hout : out.length < 2 ^ 64) :
    let r := Libws.wsSendClose 64 c key code out
    let r' := Libws.wsSendClose 64 c key code out'
    sent r.1 = sent r'.1 ∧ r.1.n ≤ r.1.out.length ∧ r.2.1 = r'.2.1 := by
  have hsent :=
    @buildFrame_sent c key .close [(code >>> 8).toUInt8, code.toUInt8] out out' hlen hout
  have hle := @buildFrame_n_le c key .close [(code >>> 8).toUInt8, code.toUInt8] out hout
  rw [Libws.wsSendClose, Libws.wsSendClose]
  dsimp only
  generalize Libws.buildFrame 64 c key .close [(code >>> 8).toUInt8, code.toUInt8] out = b
    at hsent hle ⊢
  generalize Libws.buildFrame 64 c key .close [(code >>> 8).toUInt8, code.toUInt8] out' = b'
    at hsent ⊢
  have hn : b.n = b'.n := congrArg Prod.fst hsent
  rw [hn]
  split
  · exact ⟨rfl, Nat.zero_le _, rfl⟩
  · split
    · exact ⟨hsent, hle, rfl⟩
    · exact ⟨hsent, hle, rfl⟩

end Frames

end Libws.Checked
