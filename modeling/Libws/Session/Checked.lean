import Libws.Framing.Checked
import Libws.Session.Calls

/-!
# Session — polling stays inside the buffer

`ws_conn_poll` once more, with every access and every size checked.  A read of raw bytes must lie
in `[msg_len, msg_len + rx_len)` and a read of the assembled message in `[0, msg_len)`, with the
counters as they stand at the read; a write must lie in the buffer; and a sum or a difference of
sizes must not wrap.  The first check that fails stops the poll with `none`.

* `Whole`: what is known when a frame is complete, and what all checks behind it follow from.
* `poll_in_bounds`: on every reachable connection the checked poll gives the result of the poll.
-/

namespace Libws.Checked
open Libws.Support

/-! ### Memory -/

/-- A byte of the raw region. -/
def readRaw (c : WsConn) (i : Nat) : Option UInt8 :=
  readIn c.msgBuf c.msgLen (c.msgLen + c.rxLen) i

/-- A byte of the assembled message. -/
def readMsg (c : WsConn) (i : Nat) : Option UInt8 := readIn c.msgBuf 0 c.msgLen i

/-- `fwd_copy`, with reads in `[lo, hi)`. -/
def fwdCopy (lo hi : Nat) (buf : List UInt8) (dst src n : Nat) : Option (List UInt8) :=
  forRangeM n (fun i b => do writeIn b (dst + i) (← readIn b lo hi (src + i))) buf

/-- `ws_mask`, with reads in `[lo, hi)`. -/
def wsMask (lo hi : Nat) (buf : List UInt8) (off len : Nat) (key : MaskKey) :
    Option (List UInt8) :=
  forRangeM len (fun i b => do
    writeIn b (off + i) (maskByte key i (← readIn b lo hi (off + i)))) buf

theorem fwdCopy_eq {lo hi dst src n : Nat} {buf : List UInt8} (hlo : lo ≤ src)
    (hhi : src + n ≤ hi) (hbuf : hi ≤ buf.length) (hdst : dst + n ≤ buf.length) :
    fwdCopy lo hi buf dst src n = some (Libws.fwdCopy buf dst src n) := by
  refine forRangeM_eq (P := fun b => b.length = buf.length) rfl fun i b hi' hb => ⟨?_, ?_⟩
  · rw [readIn_eq 0 (by omega) (by omega) (by omega)]
    exact writeIn_eq _ (by omega)
  · rw [List.length_set, hb]

theorem wsMask_eq {lo hi off len : Nat} {buf : List UInt8} (key : MaskKey) (hlo : lo ≤ off)
    (hhi : off + len ≤ hi) (hbuf : hi ≤ buf.length) :
    wsMask lo hi buf off len key = some (Libws.wsMask buf off len key) := by
  refine forRangeM_eq (P := fun b => b.length = buf.length) rfl fun i b hi' hb => ⟨?_, ?_⟩
  · rw [readIn_eq 0 (by omega) (by omega) (by omega)]
    exact writeIn_eq _ (by omega)
  · rw [List.length_set, hb]

/-- A window of the buffer is read as the slice it is. -/
theorem agrees_slice {buf : List UInt8} {lo hi base n : Nat} (hlo : lo ≤ base)
    (hhi : base + n ≤ hi) (hbuf : hi ≤ buf.length) :
    Agrees (fun i => readIn buf lo hi (base + i)) (slice buf base n) := by
  intro i hi'
  rw [slice_length (by omega)] at hi'
  change readIn buf lo hi (base + i) = _
  rw [readIn_eq 0 (by omega) (by omega) (by omega), List.getD_eq_getElem?_getD,
    List.getD_eq_getElem?_getD, slice, List.getElem?_take_of_lt hi', List.getElem?_drop]

/-! ### The raw region -/

def rawConsume (c : WsConn) (take : Nat) : Option WsConn := do
  let n ← checkedSub c.rxLen take
  let buf ← fwdCopy c.msgLen (c.msgLen + c.rxLen) c.msgBuf (raw c) (raw c + take) n
  some { c with msgBuf := buf, rxLen := n }

def frameReady (w : Nat) (c : WsConn) : Option (Option (WsFrameHeader × Nat × Nat)) := do
  match ← wsParseHeader (fun i => readRaw c (raw c + i)) c.rxLen .zero with
  | .error _ => some none
  | .ok (hn, h) =>
    if hn = 0 then some none
    else
      let total ← checkedAdd w hn (sizeT w h.payloadLen.toNat)
      if c.rxLen ≥ total then some (some (h, hn, total)) else some none

def unmaskPayload (w : Nat) (c : WsConn) (h : WsFrameHeader) (hdr : Nat) : Option WsConn := do
  if h.masked then
    let plen := sizeT w h.payloadLen.toNat
    let buf ← wsMask c.msgLen (c.msgLen + c.rxLen) c.msgBuf (raw c + hdr) plen h.maskKey
    some { c with msgBuf := buf }
  else some c

/-! ### Data frames -/

def accumulate (w : Nat) (c : WsConn) (h : WsFrameHeader) (hdr : Nat) : Option WsConn := do
  let plen := sizeT w h.payloadLen.toNat
  let hi := c.msgLen + c.rxLen
  let buf ← fwdCopy c.msgLen hi c.msgBuf (raw c) (raw c + hdr) plen
  let rest ← checkedSub (← checkedSub c.rxLen hdr) plen
  let buf ← fwdCopy c.msgLen hi buf (raw c + plen) (raw c + hdr + plen) rest
  some { c with msgBuf := buf, msgLen := ← checkedAdd w c.msgLen plen, rxLen := rest }

def messageUtf8Ok (c : WsConn) : Option Bool :=
  if c.frag ≠ .text then some true else wsUtf8Valid (readMsg c) c.msgLen

def finishMessage (c : WsConn) (ev : WsEvent) : Option Poll := do
  if !(← messageUtf8Ok c) then some (fail c ev)
  else
    let ev := { ev with
      op := if c.frag = .bin then .bin else .text, data := some 0, len := c.msgLen }
    let (rc, c) := wsLcFinishFrag c
    some { emit { c with msgLen := 0 } ev .message with rcs := [rc] }

def dataIllegal (w : Nat) (c : WsConn) (h : WsFrameHeader) (isCont : Bool) : Option Bool := do
  if isStrayCont c isCont then some true
  else if isInterleave c isCont then some true
  else some (decide ((← checkedAdd w c.msgLen (sizeT w h.payloadLen.toNat)) > c.msgCap))

/-- The end of `on_data`. -/
def closeData (c : WsConn) (h : WsFrameHeader) (ev : WsEvent) : Option Poll :=
  if !h.fin then some (emit c ev .none) else finishMessage c ev

def onData (w : Nat) (c : WsConn) (h : WsFrameHeader) (hdr : Nat) (ev : WsEvent) :
    Option Poll := do
  let isCont := decide (h.opcode = .cont)
  if ← dataIllegal w c h isCont then some (fail c ev)
  else
    let (c, rcs) := beginData c h isCont
    let c ← accumulate w c h hdr
    let p ← closeData c h ev
    some { p with rcs := rcs ++ p.rcs }

/-! ### Control frames -/

def closeCodeAt (c : WsConn) (hdr : Nat) : Option UInt16 := do
  some (((← readRaw c (raw c + hdr)).toUInt16 <<< 8) |||
    (← readRaw c (raw c + (hdr + 1))).toUInt16)

def closeCodeReasonOk (c : WsConn) (hdr plen : Nat) : Option Bool := do
  if !wsCloseCodeSendable (← closeCodeAt c hdr) then some false
  else wsUtf8Valid (fun i => readRaw c (raw c + hdr + 2 + i)) (← checkedSub plen 2)

def closeBodyOk (w : Nat) (c : WsConn) (h : WsFrameHeader) (hdr : Nat) : Option Bool :=
  let plen := sizeT w h.payloadLen.toNat
  if plen = 0 then some true
  else if plen = 1 then some false
  else closeCodeReasonOk c hdr plen

/-- The part of `on_close` that captures the code of the peer. -/
def captureCode (c : WsConn) (hdr plen : Nat) : Option WsConn := do
  if plen ≥ 2 then some { c with closeCode := ← closeCodeAt c hdr } else some c

def onClose (w : Nat) (c : WsConn) (h : WsFrameHeader) (hdr : Nat) (ev : WsEvent) :
    Option Poll := do
  if !(← closeBodyOk w c h hdr) then some (fail c ev)
  else
    let plen := sizeT w h.payloadLen.toNat
    let c ← captureCode c hdr plen
    let ev := { ev with closeCode := c.closeCode }
    let (rc, c) := wsLcRecvClose c
    let c ← rawConsume c (← checkedAdd w hdr plen)
    some { emit c ev .close with rcs := [rc] }

def onControl (w : Nat) (c : WsConn) (h : WsFrameHeader) (hdr : Nat) (ev : WsEvent) :
    Option Poll := do
  if h.opcode = .close then onClose w c h hdr ev
  else
    let plen := sizeT w h.payloadLen.toNat
    let ev := { ev with data := some (raw c + hdr), len := plen }
    let t := if h.opcode = .ping then .ping else .pong
    some (emit (← rawConsume c (← checkedAdd w hdr plen)) ev t)

/-! ### Polling -/

def route (w : Nat) (c : WsConn) (h : WsFrameHeader) (hdr : Nat) (ev : WsEvent) : Option Poll :=
  match wsClassifyOpcode h.opcode with
  | .control => onControl w c h hdr ev
  | .data => onData w c h hdr ev
  | .reserved => some (fail c ev)

def dispatch (w : Nat) (c : WsConn) (h : WsFrameHeader) (hdr : Nat) (ev : WsEvent) :
    Option Poll := do
  match admitFrame c h ev with
  | some out => some out
  | none => route w (← unmaskPayload w c h hdr) h hdr ev

def wsConnPoll (w : Nat) (c : WsConn) : Option Poll := do
  let ev := clearEvent
  if c.failed then some (emit c ev .error)
  else match ← frameReady w c with
    | none => some ⟨.none, c, ev, []⟩
    | some (h, hdr, _) => dispatch w c h hdr ev

/-! ### Every check passes -/

/-- The counters stay inside the buffer. -/
structure Fits (c : WsConn) : Prop where
  cap_lt : c.msgBuf.length < 2 ^ 64
  fits : c.msgLen + c.rxLen ≤ c.msgBuf.length

/-- A whole frame with a header of `hdr` bytes is buffered. -/
structure Whole (c : WsConn) (h : WsFrameHeader) (hdr : Nat) : Prop extends Fits c where
  whole : hdr + h.payloadLen.toNat ≤ c.rxLen

section Passing

variable {c : WsConn} {h : WsFrameHeader} {hdr : Nat} {ev : WsEvent}

theorem plen_eq (h : WsFrameHeader) : sizeT 64 h.payloadLen.toNat = h.payloadLen.toNat :=
  sizeT_of_lt h.payloadLen.toNat_lt

theorem rawConsume_eq (hf : Fits c) {take : Nat} (ht : take ≤ c.rxLen) :
    rawConsume c take = some (Libws.rawConsume 64 c take) := by
  have hcap := hf.cap_lt
  have hfits := hf.fits
  rw [rawConsume, Libws.rawConsume, checkedSub_eq ht, szSub_of_le ht (by omega)]
  change (fwdCopy c.msgLen (c.msgLen + c.rxLen) c.msgBuf (raw c) (raw c + take) (c.rxLen - take)
    >>= _) = _
  rw [fwdCopy_eq (by rw [raw]; omega) (by rw [raw]; omega) hfits (by rw [raw]; omega)]
  rfl

theorem frameReady_eq (hf : Fits c) : frameReady 64 c = some (Libws.frameReady 64 c) := by
  have hcap := hf.cap_lt
  have hfits := hf.fits
  have hlen : (rawBytes c).length = c.rxLen := slice_length hfits
  have hagree : Agrees (fun i => readRaw c (raw c + i)) (rawBytes c) :=
    agrees_slice (Nat.le_refl _) (Nat.le_refl _) hfits
  have hparse := wsParseHeader_eq hagree .zero
  rw [hlen] at hparse
  rw [frameReady, Libws.frameReady, hparse]
  cases hp : Libws.wsParseHeader (rawBytes c) .zero with
  | error rc => rfl
  | ok r =>
      obtain ⟨hn, h⟩ := r
      obtain ⟨hw, -, hnlen, -⟩ := parse_ok_inv hp
      have hle := headerBytes_length_le h
      have hplen := hw.len
      change (if hn = 0 then some none else _) = some (if hn = 0 then none else _)
      split
      · rfl
      · have hsum : hn + sizeT 64 h.payloadLen.toNat < 2 ^ 64 := by rw [plen_eq]; omega
        rw [checkedAdd_eq hsum, szAdd_of_lt hsum]
        exact (apply_ite some _ _ _).symm

/-- The frame that is ready is whole. -/
theorem whole_of_ready (hf : Fits c) {total : Nat}
    (hr : Libws.frameReady 64 c = some (h, hdr, total)) : Whole c h hdr := by
  refine ⟨hf, ?_⟩
  rw [Libws.frameReady] at hr
  cases hp : Libws.wsParseHeader (rawBytes c) .zero with
  | error rc => rw [hp] at hr; cases hr
  | ok r =>
      obtain ⟨hn, h'⟩ := r
      obtain ⟨hw, -, hnlen, -⟩ := parse_ok_inv hp
      have hle := headerBytes_length_le h'
      have hplen := hw.len
      rw [hp] at hr
      dsimp only at hr
      rw [szAdd_of_lt (by rw [plen_eq]; omega), plen_eq] at hr
      split at hr
      · cases hr
      · split at hr
        · cases hr
          assumption
        · cases hr

theorem unmaskPayload_eq (hw : Whole c h hdr) :
    unmaskPayload 64 c h hdr = some (Libws.unmaskPayload 64 c h hdr) := by
  have hfits := hw.fits
  have hwhole := hw.whole
  rw [unmaskPayload, Libws.unmaskPayload]
  split
  · rw [plen_eq]
    dsimp only
    rw [wsMask_eq _ (by rw [raw]; omega) (by rw [raw]; omega) hfits]
    rfl
  · rfl

theorem accumulate_eq (hw : Whole c h hdr) :
    accumulate 64 c h hdr = some (Libws.accumulate 64 c h hdr) := by
  have hcap := hw.cap_lt
  have hfits := hw.fits
  have hwhole := hw.whole
  rw [accumulate, Libws.accumulate, plen_eq]
  rw [fwdCopy_eq (by rw [raw]; omega) (by rw [raw]; omega) hfits (by rw [raw]; omega),
    checkedSub_eq (by omega), szSub_of_le (show hdr ≤ c.rxLen by omega) (by omega),
    szSub_of_le (show h.payloadLen.toNat ≤ c.rxLen - hdr by omega) (by omega)]
  simp only [Option.bind_eq_bind, Option.bind_some]
  rw [checkedSub_eq (by omega)]
  simp only [Option.bind_some]
  rw [fwdCopy_eq (by rw [raw]; omega) (by rw [raw]; omega) (by rw [fwdCopy_length]; exact hfits)
    (by rw [raw, fwdCopy_length]; omega), checkedAdd_eq (by omega), szAdd_of_lt (by omega)]
  rfl

theorem messageUtf8Ok_eq (hle : c.msgLen ≤ c.msgBuf.length) :
    messageUtf8Ok c = some (Libws.messageUtf8Ok c) := by
  rw [messageUtf8Ok, Libws.messageUtf8Ok]
  split
  · rfl
  · have hlen : (slice c.msgBuf 0 c.msgLen).length = c.msgLen := slice_length (by omega)
    have hagree : Agrees (readMsg c) (slice c.msgBuf 0 c.msgLen) := by
      intro i hi
      rw [hlen] at hi
      rw [readMsg, readIn_eq 0 (Nat.zero_le i) hi (by omega), List.getD_eq_getElem?_getD,
        List.getD_eq_getElem?_getD, slice, List.drop_zero, List.getElem?_take_of_lt hi]
    have := wsUtf8Valid_eq hagree
    rwa [hlen] at this

theorem finishMessage_eq (hle : c.msgLen ≤ c.msgBuf.length) :
    finishMessage c ev = some (Libws.finishMessage c ev) := by
  rw [finishMessage, messageUtf8Ok_eq hle, Libws.finishMessage]
  exact (apply_ite some _ _ _).symm

theorem dataIllegal_eq (hw : Whole c h hdr) (isCont : Bool) :
    dataIllegal 64 c h isCont = some (Libws.dataIllegal 64 c h isCont) := by
  have hcap := hw.cap_lt
  have hfits := hw.fits
  have hwhole := hw.whole
  have hsum : c.msgLen + sizeT 64 h.payloadLen.toNat < 2 ^ 64 := by rw [plen_eq]; omega
  rw [dataIllegal, Libws.dataIllegal]
  split
  · rfl
  · split
    · rfl
    · rw [checkedAdd_eq hsum, szAdd_of_lt hsum]
      rfl

/-- `begin_data` changes `frag` at most. -/
theorem beginData_eq (c : WsConn) (h : WsFrameHeader) (isCont : Bool) :
    ∃ frag, (beginData c h isCont).1 = { c with frag := frag } := by
  rw [beginData]
  split
  · exact ⟨c.frag, rfl⟩
  · dsimp only
    rw [wsLcStartFrag]
    split
    · exact ⟨c.frag, rfl⟩
    · split
      · exact ⟨c.frag, rfl⟩
      · exact ⟨_, rfl⟩

theorem onData_eq (hw : Whole c h hdr) :
    onData 64 c h hdr ev = some (Libws.onData 64 c h hdr ev) := by
  rw [onData, dataIllegal_eq hw, Libws.onData]
  obtain ⟨frag, hbegin⟩ := beginData_eq c h (decide (h.opcode = .cont))
  have hw' : Whole (beginData c h (decide (h.opcode = .cont))).1 h hdr := by
    rw [hbegin]
    exact ⟨⟨hw.cap_lt, hw.fits⟩, hw.whole⟩
  generalize beginData c h (decide (h.opcode = .cont)) = b at hw'
  have hle : (Libws.accumulate 64 b.1 h hdr).msgLen
      ≤ (Libws.accumulate 64 b.1 h hdr).msgBuf.length := by
    have hcap := hw'.cap_lt
    have hfits := hw'.fits
    have hwhole := hw'.whole
    simp only [Libws.accumulate, plen_eq, fwdCopy_length]
    rw [szAdd_of_lt (by omega)]
    omega
  change (if Libws.dataIllegal 64 c h _ = true then _ else accumulate 64 b.1 h hdr >>= _)
    = some (if _ then _ else _)
  rw [accumulate_eq hw']
  split
  · rfl
  · change (closeData (Libws.accumulate 64 b.1 h hdr) h ev >>= _) = _
    rw [closeData, finishMessage_eq hle]
    split
    · rfl
    · rfl

theorem closeCodeAt_eq (hfits : c.msgLen + c.rxLen ≤ c.msgBuf.length)
    (hle : hdr + 2 ≤ c.rxLen) : closeCodeAt c hdr = some (Libws.closeCodeAt c hdr) := by
  rw [closeCodeAt, Libws.closeCodeAt, readRaw, readRaw,
    readIn_eq 0 (by rw [raw]; omega) (by rw [raw]; omega) (by rw [raw]; omega),
    readIn_eq 0 (by rw [raw]; omega) (by rw [raw]; omega) (by rw [raw]; omega)]
  rfl

theorem closeCodeReasonOk_eq (hfits : c.msgLen + c.rxLen ≤ c.msgBuf.length) {plen : Nat}
    (hplen : 2 ≤ plen) (hle : hdr + plen ≤ c.rxLen) :
    closeCodeReasonOk c hdr plen = some (Libws.closeCodeReasonOk c hdr plen) := by
  have hagree : Agrees (fun i => readRaw c (raw c + hdr + 2 + i))
      (slice c.msgBuf (raw c + hdr + 2) (plen - 2)) :=
    agrees_slice (by rw [raw]; omega) (by rw [raw]; omega) hfits
  have hvalid := wsUtf8Valid_eq hagree
  rw [slice_length (by rw [raw]; omega)] at hvalid
  rw [closeCodeReasonOk, closeCodeAt_eq hfits (by omega), Libws.closeCodeReasonOk,
    checkedSub_eq hplen]
  change (if _ then _ else wsUtf8Valid _ (plen - 2)) = _
  rw [hvalid]
  exact (apply_ite some _ _ _).symm

theorem closeBodyOk_eq (hw : Whole c h hdr) :
    closeBodyOk 64 c h hdr = some (Libws.closeBodyOk 64 c h hdr) := by
  have hwhole := hw.whole
  rw [closeBodyOk, Libws.closeBodyOk, plen_eq]
  split
  · rfl
  · split
    · rfl
    · exact closeCodeReasonOk_eq hw.fits (by omega) hwhole

/-- `ws_lc_recv_close` clears the message at most. -/
theorem fits_recvClose (hf : Fits c) :
    Fits (wsLcRecvClose c).2 ∧ (wsLcRecvClose c).2.rxLen = c.rxLen := by
  rw [wsLcRecvClose]
  split
  · exact ⟨hf, rfl⟩
  · have hfits := hf.fits
    exact ⟨⟨hf.cap_lt, by dsimp only; omega⟩, rfl⟩

/-- The connection with the code of the peer, when there is one. -/
theorem captureCode_eq (hw : Whole c h hdr) :
    let d := if h.payloadLen.toNat ≥ 2 then { c with closeCode := Libws.closeCodeAt c hdr } else c
    captureCode c hdr h.payloadLen.toNat = some d ∧ Fits d ∧ d.rxLen = c.rxLen := by
  have hwhole := hw.whole
  rw [captureCode]
  dsimp only
  split
  · rw [closeCodeAt_eq hw.fits (by omega)]
    exact ⟨rfl, ⟨hw.cap_lt, hw.fits⟩, rfl⟩
  · exact ⟨rfl, hw.toFits, rfl⟩

theorem onClose_eq (hw : Whole c h hdr) :
    onClose 64 c h hdr ev = some (Libws.onClose 64 c h hdr ev) := by
  have hcap := hw.cap_lt
  have hfits := hw.fits
  have hwhole := hw.whole
  have hsum : hdr + h.payloadLen.toNat < 2 ^ 64 := by omega
  rw [onClose, closeBodyOk_eq hw, Libws.onClose, plen_eq]
  change (if _ then _ else _) = some (if _ then _ else _)
  split
  · rfl
  · dsimp only
    rw [checkedAdd_eq hsum, szAdd_of_lt hsum]
    obtain ⟨hcode, hfit, hrx⟩ := captureCode_eq hw
    rw [hcode]
    generalize (if h.payloadLen.toNat ≥ 2 then { c with closeCode := Libws.closeCodeAt c hdr }
      else c) = d at hfit hrx
    obtain ⟨hfit', hrx'⟩ := fits_recvClose hfit
    change (rawConsume (wsLcRecvClose d).2 (hdr + h.payloadLen.toNat) >>= _) = _
    rw [rawConsume_eq hfit' (by rw [hrx', hrx]; exact hwhole)]
    rfl

theorem onControl_eq (hw : Whole c h hdr) :
    onControl 64 c h hdr ev = some (Libws.onControl 64 c h hdr ev) := by
  have hcap := hw.cap_lt
  have hfits := hw.fits
  have hwhole := hw.whole
  have hsum : hdr + h.payloadLen.toNat < 2 ^ 64 := by omega
  rw [onControl, Libws.onControl]
  split
  · exact onClose_eq hw
  · rw [plen_eq]
    dsimp only
    rw [checkedAdd_eq hsum, szAdd_of_lt hsum]
    change (rawConsume c (hdr + h.payloadLen.toNat) >>= _) = _
    rw [rawConsume_eq hw.toFits hwhole]
    rfl

theorem route_eq (hw : Whole c h hdr) :
    route 64 c h hdr ev = some (Libws.route 64 c h hdr ev) := by
  rw [route, Libws.route]
  cases wsClassifyOpcode h.opcode with
  | control => exact onControl_eq hw
  | data => exact onData_eq hw
  | reserved => rfl

theorem dispatch_eq (hw : Whole c h hdr) :
    dispatch 64 c h hdr ev = some (Libws.dispatch 64 c h hdr ev) := by
  rw [dispatch, Libws.dispatch, unmaskPayload_eq hw]
  cases admitFrame c h ev with
  | some out => rfl
  | none =>
      obtain ⟨b, hb, hlen⟩ := Libws.unmaskPayload_eq 64 c h hdr
      refine route_eq ?_
      rw [hb]
      exact ⟨⟨hlen.trans_lt hw.cap_lt, hw.fits.trans_eq hlen.symm⟩, hw.whole⟩

/-- **The checked poll.** -/
theorem wsConnPoll_eq (hf : Fits c) : wsConnPoll 64 c = some (Libws.wsConnPoll 64 c) := by
  rw [wsConnPoll, Libws.wsConnPoll, frameReady_eq hf]
  change (if _ then _ else _) = some (if _ then _ else _)
  split
  · rfl
  · cases hr : Libws.frameReady 64 c with
    | none => rfl
    | some r => exact dispatch_eq (whole_of_ready hf hr)

end Passing

end Libws.Checked

namespace Libws
open Libws.Support

/-- **Polling stays inside the buffer.**  On every connection a run reaches, no check of the poll
fails: each byte it reads or writes lies in the buffer, reads of raw bytes in the raw region and
reads of the message in the message, and no size wraps.  And a frame that is ready is never too
big for the buffer together with the message so far. -/
theorem poll_in_bounds (role : WsRole) (buf : MsgBuf 64) (calls : List Call)
    (hg : Guarded (exec 64) (NoWrap 64) (wsConnInit role buf.bytes) calls) :
    let c := run (exec 64) (wsConnInit role buf.bytes) calls
    Checked.wsConnPoll 64 c = some (wsConnPoll 64 c) ∧
      ∀ h hdr total, frameReady 64 c = some (h, hdr, total) →
        ¬ szAdd 64 c.msgLen (sizeT 64 h.payloadLen.toNat) > c.msgCap := by
  intro c
  have hs := sound_run hg
  have hf : Checked.Fits c := ⟨hs.cap_lt, hs.fits⟩
  refine ⟨Checked.wsConnPoll_eq hf, fun h hdr total hr => ?_⟩
  have hw := Checked.whole_of_ready hf hr
  have hcap := hf.cap_lt
  have hfits := hf.fits
  have hwhole := hw.whole
  rw [Checked.plen_eq, szAdd_of_lt (by omega), WsConn.msgCap]
  omega

/-- A masked text message. -/
theorem poll_in_bounds_text :
    let calls : List Call := [.open, .recv [0x81, 0x82, 1, 2, 3, 4, 0x49, 0x6B]]
    let c := run (exec 64) (wsConnInit .server (zeroBuf 8 (by decide)).bytes) calls
    (wsConnPoll 64 c).ret = .message ∧ Checked.wsConnPoll 64 c = some (wsConnPoll 64 c) := by
  intro calls c
  have hg : Guarded (exec 64) (NoWrap 64) (wsConnInit .server (zeroBuf 8 (by decide)).bytes)
    calls := by decide +kernel
  exact ⟨by decide +kernel, (poll_in_bounds .server (zeroBuf 8 (by decide)) calls hg).1⟩

end Libws
