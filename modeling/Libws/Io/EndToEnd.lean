import Libws.Io.Echo
import Libws.Session.Delivery
import Libws.Session.Items

/-!
# Io — from a client's frames to the handler and back

A client's frames reach the server in chunks, cut anywhere, with no two frames in one chunk.  Then
the dialogue of the chunks is the reference receiver at work on the frames.

* `dialogue_cuts`: chunk by chunk, from `Holding`.
* `served_frames`: **in every run, with any handler**, the events of such a client are those of the
  receiver, up to the first close or error.
* `echo_round_trip`: what a client endpoint sends to the echo server comes back.
-/

namespace Libws
open Libws.Support Prog

/-! ### The receiver's events -/

namespace Receiver

/-- The events a receiver reports, up to the first close or error. -/
def hears (role : WsRole) : Receiver → List Frame → List Event
  | _, [] => []
  | r, f :: fs =>
    let e := (r.step role f).1
    if e.type = .none then hears role (r.step role f).2 fs
    else if isTerminal e.type then [e] else e :: hears role (r.step role f).2 fs

/-- Each frame fits a buffer of `cap` bytes, beside the message that is in flight when it comes. -/
def Fits (role : WsRole) (cap : Nat) : Receiver → List Frame → Prop
  | _, [] => True
  | r, f :: fs => r.msg.length + f.wire.length ≤ cap ∧ Fits role cap (r.step role f).2 fs

instance Fits.decidable (role : WsRole) (cap : Nat) :
    ∀ (r : Receiver) (fs : List Frame), Decidable (r.Fits role cap fs)
  | _, [] => .isTrue trivial
  | r, f :: fs =>
    have := Fits.decidable role cap (r.step role f).2 fs
    inferInstanceAs (Decidable (_ ∧ _))

/-- Chunks of part of a frame that fits, or none. -/
def Partly (cap : Nat) (r : Receiver) (pieces : List (List UInt8)) : Prop :=
  pieces = [] ∨ ∃ (f : Frame) (rest : List UInt8), rest ≠ [] ∧ pieces.flatten ++ rest = f.wire ∧
    r.msg.length + f.wire.length ≤ cap

/-- Only an error is a failure. -/
theorem step_failed {role : WsRole} {r : Receiver} {f : Frame}
    (h : isTerminal (r.step role f).1.type = false) : (r.step role f).2.failed = r.failed := by
  rw [step] at h ⊢
  cases hv : r.verdict role f with
  | refuse => rw [hv] at h; cases h
  | ping | pong | close | extend | deliver => rfl

end Receiver

/-- The chunks of a frame. -/
def Cut.chunks (cut : Cut) : List (List UInt8) := cut.pieces ++ [cut.last]

/-! ### The dialogue of frames -/

section Frames

variable {role : WsRole} {d : Dialogue} {r : Receiver} {rx : List UInt8} {cap : Nat}

/-- The sizes of what a connection holds. -/
theorem Holding.sizes {c : WsConn} (h : Holding role c r rx) (hf : r.failed = false) :
    c.msgLen = r.msg.length ∧ c.rxLen = rx.length := by
  have hfit := h.sound.fits
  rw [WsConn.msgCap] at hfit
  constructor
  · rw [← h.receiver]
    simp only [WsConn.receiver, WsConn.msg, List.length_take]
    omega
  · rw [← h.raw (h.failed_eq.symm.trans hf), rawBytes, Libws.raw, slice, List.length_take,
      List.length_drop]
    omega

/-- A dialogue in the middle of a frame. -/
structure Midway (role : WsRole) (cap : Nat) (d : Dialogue) (r : Receiver) (rx : List UInt8) :
    Prop where
  holding : Holding role d.conn r rx
  failed : r.failed = false
  isOver : d.isOver = false
  cap : d.conn.msgBuf.length = cap

/-- A chunk that fits is taken. -/
theorem Midway.recv (h : Midway role cap d r rx) {bytes : List UInt8}
    (hfit : r.msg.length + (rx ++ bytes).length ≤ cap) (hlen : bytes.length < 2147483648) :
    d.give bytes = Dialogue.drain ((wsConnRecv 64 d.conn bytes).2.rxLen + 1)
        ⟨d.talk ++ [.chunk bytes], false, (wsConnRecv 64 d.conn bytes).2⟩ ∧
      Midway role cap ⟨d.talk ++ [.chunk bytes], false, (wsConnRecv 64 d.conn bytes).2⟩ r
        (rx ++ bytes) := by
  obtain ⟨hmsg, hrx⟩ := h.holding.sizes h.failed
  have hacc : Accepts d.conn (.recv bytes) := by
    rw [List.length_append] at hfit
    show d.conn.msgLen + d.conn.rxLen + bytes.length ≤ d.conn.msgBuf.length
    rw [hmsg, hrx, h.cap]
    omega
  have hrc : (wsConnRecv 64 d.conn bytes).1 = bytes.length := by
    have hcap : d.conn.msgCap < 2 ^ 64 := h.holding.sound.cap_lt
    rw [wsConnRecv_fits hcap hacc]
    dsimp only
    rw [toInt_eq_iff]
    exact hlen
  constructor
  · rw [Dialogue.give, if_neg (by simp [h.isOver])]
    dsimp only
    rw [hrc, if_neg (by omega)]
  · exact ⟨h.holding.recv hacc, h.failed, rfl,
      (exec_msgCap 64 d.conn (.recv bytes)).trans h.cap⟩

/-- Before a frame is complete nothing is reported. -/
theorem Midway.wait (h : Midway role cap d r rx) (hno : ¬ HoldsFrame rx) (fuel : Nat) :
    d.drain (fuel + 1) = d := by
  obtain ⟨hev, hconn⟩ := h.holding.wait hno
  rw [h.failed] at hev
  have hret : (wsConnPoll 64 d.conn).ret = .none := congrArg Event.type hev
  rw [Dialogue.drain, if_pos hret, hconn]

/-- **A complete frame** is reported as the receiver does. -/
theorem Midway.finish {f : Frame} (h : Midway role cap d r f.wire) :
    let e := (r.step role f).1
    let d' := d.drain (d.conn.rxLen + 1)
    heard d'.talk = heard d.talk ++ (if e.type = .none then [] else [e]) ∧
      (if isTerminal e.type then d'.isOver = true else Midway role cap d' (r.step role f).2 []) := by
  intro e d'
  obtain ⟨hev, htype, hnext⟩ := h.holding.finish
  obtain ⟨hrole, hcap⟩ := poll_keeps 64 d.conn
  have hret : (wsConnPoll 64 d.conn).ret = e.type := congrArg Event.type hev
  have hcap' := hcap.trans h.cap
  obtain ⟨fuel, hfuel⟩ : ∃ fuel, d.conn.rxLen = fuel + 1 := by
    have hlen := (h.holding.sizes h.failed).2
    have hpos := List.length_pos_of_ne_nil f.wire_ne_nil
    exact ⟨d.conn.rxLen - 1, by omega⟩
  have hd' : d' = if e.type = .none then { d with conn := (wsConnPoll 64 d.conn).conn }
      else if isTerminal e.type then ⟨d.talk ++ [.event e], true, (wsConnPoll 64 d.conn).conn⟩
      else Dialogue.drain (fuel + 1)
        ⟨d.talk ++ [.event e], d.isOver, (wsConnPoll 64 d.conn).conn⟩ := by
    show d.drain (d.conn.rxLen + 1) = _
    rw [hfuel, Dialogue.drain, htype, hret, hev]
  rw [hd']
  by_cases hnone : e.type = .none
  · have hterm : isTerminal e.type = false := by rw [hnone]; rfl
    rw [if_pos hnone, if_pos hnone, hterm, List.append_nil]
    exact ⟨rfl, hnext, (Receiver.step_failed hterm).trans h.failed, h.isOver, hcap'⟩
  · rw [if_neg hnone, if_neg hnone]
    cases hterm : isTerminal e.type with
    | true => exact ⟨heard_append .., rfl⟩
    | false =>
        have hmid : Midway role cap ⟨d.talk ++ [.event e], d.isOver, (wsConnPoll 64 d.conn).conn⟩
            (r.step role f).2 [] :=
          ⟨hnext, (Receiver.step_failed hterm).trans h.failed, h.isOver, hcap'⟩
        rw [if_neg Bool.false_ne_true, if_neg Bool.false_ne_true,
          hmid.wait not_holdsFrame_nil fuel]
        exact ⟨heard_append .., hmid⟩

/-- The chunks of a frame before its last one. -/
theorem Midway.pieces {f : Frame} {rest : List UInt8} {ps : List (List UInt8)}
    (h : Midway role cap d r rx) (hrest : rest ≠ []) (hw : rx ++ ps.flatten ++ rest = f.wire)
    (hfit : r.msg.length + f.wire.length ≤ cap) (hlen : ∀ p ∈ ps, p.length < 2147483648) :
    heard (run Dialogue.give d ps).talk = heard d.talk ∧
      Midway role cap (run Dialogue.give d ps) r (rx ++ ps.flatten) := by
  induction ps generalizing d rx with
  | nil => exact ⟨rfl, by simpa using h⟩
  | cons p ps ih =>
      have hlen' : r.msg.length + (rx ++ p).length ≤ cap := by
        have := congrArg List.length hw
        simp only [List.flatten_cons, List.length_append] at this ⊢
        omega
      obtain ⟨hgive, hmid⟩ := h.recv hlen' (hlen p (List.mem_cons_self ..))
      have hno : ¬ HoldsFrame (rx ++ p) := by
        refine f.not_holdsFrame_prefix (b := ps.flatten ++ rest) ?_ (by simp [hrest])
        simpa using hw
      rw [hmid.wait hno] at hgive
      rw [run_cons, hgive]
      obtain ⟨hheard, hend⟩ := ih hmid (by simpa using hw) fun q hq => hlen q (List.mem_cons_of_mem _ hq)
      refine ⟨hheard.trans ?_, by simpa using hend⟩
      rw [heard_append]
      exact List.append_nil _

/-- **One frame**, in chunks of its own. -/
theorem Midway.cut {cut : Cut} (h : Midway role cap d r [])
    (hfit : r.msg.length + cut.frame.wire.length ≤ cap)
    (hlen : ∀ p ∈ cut.chunks, p.length < 2147483648) :
    let e := (r.step role cut.frame).1
    let d' := run Dialogue.give d cut.chunks
    heard d'.talk = heard d.talk ++ (if e.type = .none then [] else [e]) ∧
      (if isTerminal e.type then d'.isOver = true
        else Midway role cap d' (r.step role cut.frame).2 []) := by
  intro e d'
  obtain ⟨hheard, hmid⟩ := h.pieces cut.last_ne (f := cut.frame) (by simpa using cut.joined) hfit
    fun p hp => hlen p (List.mem_append_left _ hp)
  have hfit' : r.msg.length + ([] ++ cut.pieces.flatten ++ cut.last).length ≤ cap := by
    rw [List.nil_append, cut.joined]
    exact hfit
  obtain ⟨hgive, hlast⟩ := hmid.recv hfit' (hlen _ (List.mem_append_right _ (List.mem_cons_self ..)))
  rw [List.nil_append, cut.joined] at hlast
  have hd' : d' = (run Dialogue.give d cut.pieces).give cut.last := run_append ..
  obtain ⟨hsaid, hend⟩ := hlast.finish
  rw [hd', hgive]
  refine ⟨hsaid.trans ?_, hend⟩
  rw [heard_append, hheard]
  exact congrArg (· ++ _) (List.append_nil _)

/-- A dialogue that is over says no more. -/
theorem run_give_over (ho : d.isOver = true) (cs : List (List UInt8)) :
    run Dialogue.give d cs = d := by
  induction cs with
  | nil => rfl
  | cons c cs ih => rw [run_cons, Dialogue.give, if_pos ho, ih]

/-- **The dialogue of frames** is the receiver's, whatever part of the next frame has come. -/
theorem dialogue_cuts {cuts : List Cut} {pieces : List (List UInt8)} (h : Midway role cap d r [])
    (hfit : r.Fits role cap (cuts.map Cut.frame))
    (hpart : (r.after role (cuts.map Cut.frame)).Partly cap pieces)
    (hlen : ∀ p ∈ cuts.flatMap Cut.chunks ++ pieces, p.length < 2147483648) :
    heard (run Dialogue.give d (cuts.flatMap Cut.chunks ++ pieces)).talk
      = heard d.talk ++ r.hears role (cuts.map Cut.frame) := by
  induction cuts generalizing d r with
  | nil =>
      rw [List.map_nil, Receiver.hears, List.append_nil]
      rcases hpart with rfl | ⟨f, rest, hrest, hpart, hfit⟩
      · rfl
      · exact (h.pieces hrest (by simpa using hpart) hfit (by simpa using hlen)).1
  | cons cut cuts ih =>
      obtain ⟨hheard, hend⟩ := h.cut hfit.1 fun p hp => hlen p (by simp [hp])
      rw [List.flatMap_cons, List.append_assoc, run_append, List.map_cons, Receiver.hears]
      cases hterm : isTerminal (r.step role cut.frame).1.type with
      | true =>
          rw [hterm] at hend
          have hne : (r.step role cut.frame).1.type ≠ .none := by
            intro hnone
            rw [hnone] at hterm
            cases hterm
          rw [run_give_over hend, hheard, if_neg hne, if_neg hne]
          rfl
      | false =>
          rw [hterm] at hend
          have := ih hend hfit.2 hpart fun p hp => hlen p (by
            rw [List.flatMap_cons, List.append_assoc]
            exact List.mem_append_right _ hp)
          rw [this, hheard]
          by_cases hnone : (r.step role cut.frame).1.type = .none
          · rw [if_pos hnone, if_pos hnone, List.append_nil]
          · rw [if_neg hnone, if_neg hnone, List.append_assoc]
            rfl

theorem midway_start {maxMessage : Nat} (hmax : maxMessage < 2 ^ 64) (role : WsRole) :
    Midway role maxMessage (.start role maxMessage) .idle [] where
  holding := Holding.start role ⟨List.replicate maxMessage 0, by simpa using hmax⟩ true
  failed := rfl
  isOver := rfl
  cap := List.length_replicate

end Frames

/-! ### The chunks of a life -/

section Chunks

variable {σ : Type} {sv : Server σ} {i : Fin sv.maxConns} {io io' : WsIo sv.maxConns σ}
  {h t : Trace sv.maxConns}

/-- A chunk is what one read gave, or the rest of the buffer of the request. -/
theorem Serve.chunk_le {T : Fin sv.maxConns → Prop} (hs : Serve sv T i io t io') (hi : Inv io h) :
    ∀ c ∈ chunks (talk (deeds t)), c.length ≤ chunkCap := by
  have hnone : ∀ {m : List Deed}, talk m = [] → ∀ c ∈ chunks (talk m), c.length ≤ chunkCap := by
    intro m hm c hc
    rw [hm] at hc
    cases hc
  cases hs with
  | app | sendClose | poll | eof | close | wait => exact hnone rfl
  | frame _ _ _ hw => exact hnone (talk_writes hw.mem)
  | event => simp [talk, chunks]
  | @pump r =>
      intro c hc
      obtain rfl := List.mem_singleton.mp hc
      exact r.property
  | @upgrade r pos accept rest u hu ho _ _ _ hans hrest =>
      have hbuf := (((hi.stage i).shaking hu ho).gather r.property).1
      have hrest_le : rest.length ≤ chunkCap := by
        rw [hrest, slice, List.length_take, List.length_drop, hbuf]
        simp only [hsCap, chunkCap]
        omega
      have htalk : talk (deeds (⟨.client i (io.conns i).fd
          (.read (hsCap - (io.conns i).hslen)), r⟩ :: u ++ recvd i (io.conns i).fd rest))
          = talk (deeds (recvd i (io.conns i).fd rest)) := by
        rw [deeds_append, deeds_client, talk_append]
        change talk (deeds u) ++ _ = _
        rw [talk_writes hans.mem, List.nil_append]
      rw [htalk, recvd]
      split
      · exact hnone rfl
      · intro c hc
        obtain rfl := List.mem_singleton.mp hc
        exact hrest_le
  | @quit r u s _ _ hrej =>
      have htalk : talk (deeds u) = [] := by
        cases hrej with
        | ended | large | keyless => rfl
        | unwritten hans => exact talk_writes hans.mem
      refine hnone ?_
      rw [deeds_append, deeds_client, talk_append]
      change talk (deeds u) ++ _ = _
      rw [htalk]
      rfl

theorem chunk_le_run {app : σ} {fds : List Nat}
    (hr : Runs (runLoop sv (wsServe sv app) fds) t io) (i : Fin sv.maxConns) :
    ∀ c ∈ chunks (talk (life i t)), c.length ≤ chunkCap := by
  refine (runLoop_inv (P := fun io h => Inv io h ∧
    ∀ i, ∀ c ∈ chunks (talk (life i h)), c.length ≤ chunkCap) ?_ ⟨?_, fun i c hc => ?_⟩ hr).2 i
  · rintro io h t io' ⟨hi, hle⟩ hs
    refine ⟨hs.inv hi, fun i => ?_⟩
    cases hs with
    | accept ha =>
        cases ha with
        | failed | refuse =>
            rw [life, run_append]
            exact hle i
        | seat =>
            rw [life_seat]
            split
            · intro c hc
              cases hc
            · exact hle i
    | serve k hs =>
        obtain ⟨j, -, honly, -⟩ := hs.local
        by_cases hij : i = j
        · subst hij
          rw [life_same honly, talk_append, chunks_append]
          intro c hc
          exact (List.mem_append.mp hc).elim (hle i c) (hs.chunk_le hi c)
        · rw [life_other honly hij]
          exact hle i
  · exact inv_run (show Runs (runLoop sv (wsServe sv app) []) [] _ from ⟨rfl, rfl⟩)
  · cases hc

end Chunks

/-! ### Runs -/

/-- **The handler is told what the receiver reports.**  In every run, with any handler, for every
client: if the chunks its connection was given are frames, each in chunks of its own, and part of
one more, and each of them fits the buffer beside the message in flight, then the events reported
for the client are those of the reference receiver on the frames, up to the first close or
error. -/
theorem served_frames {σ : Type} (sv : Server σ) (app : σ) (fds : List Nat)
    (t : Trace sv.maxConns) (io : WsIo sv.maxConns σ)
    (hr : Runs (runLoop sv (wsServe sv app) fds) t io) (i : Fin sv.maxConns) (cuts : List Cut)
    (pieces : List (List UInt8))
    (hchunks : chunks (talk (life i t)) = cuts.flatMap Cut.chunks ++ pieces)
    (hfit : Receiver.idle.Fits sv.role sv.maxMessage (cuts.map Cut.frame))
    (hpart : (Receiver.idle.after sv.role (cuts.map Cut.frame)).Partly sv.maxMessage pieces) :
    heard (talk (life i t)) = Receiver.idle.hears sv.role (cuts.map Cut.frame) := by
  have hmax : sv.maxMessage < 2 ^ 64 := by
    have := sv.maxMessage_lt
    omega
  have hlen : ∀ p ∈ cuts.flatMap Cut.chunks ++ pieces, p.length < 2147483648 := by
    intro p hp
    rw [← hchunks] at hp
    exact Nat.lt_of_le_of_lt (chunk_le_run hr i p hp) (by decide)
  have := dialogue_cuts (midway_start hmax sv.role) hfit hpart hlen
  rw [(conversing_run hr i).talk, told, hchunks, dialogue, this]
  rfl

/-- The frames of a client that sends a text in two fragments, with a ping between them. -/
def textCuts : List Cut := [textCut, pingCut, contCut]

/-- It sends them, and the first two bytes of another ping. -/
def textRun : Trace (echoServer 1).maxConns × WsIo (echoServer 1).maxConns Unit :=
  play (environment [5] (upgradeRequest :: textCuts.flatMap Cut.chunks ++ [pingA.wire.take 2])) []
    (runLoop (echoServer 1) (wsServe (echoServer 1) ()) (3 :: .replicate 9 5))

theorem served_frames_fragmented :
    heard (talk (life echoSlot textRun.1)) = [.ping [0x61], .message .text [0x61, 0x62]] := by
  have hchunks : chunks (talk (life echoSlot textRun.1))
      = textCuts.flatMap Cut.chunks ++ [pingA.wire.take 2] := by decide +kernel
  have hpart : (Receiver.idle.after .server (textCuts.map Cut.frame)).Partly 64
      [pingA.wire.take 2] :=
    .inr ⟨pingA, pingA.wire.drop 2, by decide +kernel, by decide +kernel, by decide +kernel⟩
  rw [served_frames (echoServer 1) () (3 :: .replicate 9 5) textRun.1 textRun.2 (runs_play _ _ _)
    echoSlot textCuts [pingA.wire.take 2] hchunks (by decide +kernel) hpart]
  decide +kernel

/-! ### There and back -/

namespace Item

/-- What the echo server sends for an item. -/
def echo : Item → List Item
  | .message op payload => if op = .ping then [.pong payload] else [.message op payload]
  | .pong _ | .close _ => []

variable {i : Item}

/-- An item that closes nothing is reported, and the connection stays open. -/
theorem goes_on (h : ∀ code, i ≠ .close code) : i.phase .open = .open ∧ i.event.type ≠ .none ∧
    isTerminal i.event.type = false := by
  cases i with
  | close code => exact absurd rfl (h code)
  | pong => exact ⟨rfl, by simp [Item.event, Event.pong], rfl⟩
  | message op payload =>
      refine ⟨rfl, ?_⟩
      rw [Item.event]
      split <;> simp [Event.ping, Event.message, isTerminal]

/-- The echo is as valid as the item, and no longer. -/
theorem echo_valid {j : Item} (hv : i.Valid) (hj : j ∈ i.echo) :
    j.Valid ∧ (∀ code, j ≠ .close code) ∧ j.body.length = i.body.length := by
  cases i with
  | pong | close => cases hj
  | message op payload =>
      rw [echo] at hj
      split at hj
      · next hop =>
          obtain rfl := List.mem_singleton.mp hj
          rcases hv.2 with ⟨h, -⟩ | h | ⟨-, hle⟩
          · rw [hop] at h; cases h
          · rw [hop] at h; cases h
          · exact ⟨hle, fun code => by simp, rfl⟩
      · obtain rfl := List.mem_singleton.mp hj
        exact ⟨hv, fun code => by simp, rfl⟩

/-- The frames of the handler are those of the echo. -/
theorem echoFrame_event (i : Item) :
    echoFrame i.event = i.echo.map fun j => plainFrame j.op j.body := by
  cases i with
  | pong | close => rfl
  | message op payload =>
      rw [event, echo]
      split <;> rfl

end Item

theorem Carries.step_idle {role : WsRole} {f : Frame} {i : Item} (h : Carries role f i)
    (hclose : ∀ code, i ≠ .close code) : Receiver.idle.step role f = (i.event, .idle) := by
  have := h .open (.inl rfl)
  rwa [(Item.goes_on hclose).1] at this

/-- Frames that carry items are heard as the items. -/
theorem hears_items {role : WsRole} {fs : List Frame} {is : List Item}
    (h : List.Forall₂ (fun f i => Carries role f i ∧ ∀ code, i ≠ .close code) fs is) :
    Receiver.idle.hears role fs = is.map Item.event := by
  induction h with
  | nil => rfl
  | @cons f i fs is hfi _ ih =>
      obtain ⟨-, hnone, hterm⟩ := Item.goes_on hfi.2
      rw [Receiver.hears, hfi.1.step_idle hfi.2]
      dsimp only
      rw [if_neg hnone, hterm, if_neg Bool.false_ne_true, ih]
      rfl

/-- A server's frame carries its item to a client. -/
theorem exists_plainFrame {i : Item} {maxMessage : Nat} (hv : i.Valid)
    (hlen : i.body.length ≤ maxMessage) (hmax : maxMessage + chunkCap < 2 ^ 64) :
    ∃ f : Frame, f.wire = plainFrame i.op i.body ∧ Carries .client f i := by
  have ho : (wsConnOpen (wsConnInit .server [])).state = .open := rfl
  have hout : (List.replicate (maxMessage + 16) (0 : UInt8)).length < 2 ^ 64 := by
    rw [List.length_replicate]
    simp only [chunkCap] at hmax
    omega
  have hbuilt := send_built ho (.replicate 4 0) (List.replicate (maxMessage + 16) 0) i
  obtain ⟨hn, hbytes⟩ := buildFrame_plain (c := wsConnOpen (wsConnInit .server [])) rfl hlen hmax
  rw [← hbuilt] at hn hbytes
  obtain ⟨f, hwire, hcarries⟩ := send_carries ho hv hout hn
  exact ⟨f, hwire.symm.trans hbytes, hcarries⟩

/-- An item an open client has encoded, and the chunks its bytes arrive in. -/
structure Parcel where
  conn : WsConn
  key : MaskKey
  out : List UInt8
  item : Item
  pieces : List (List UInt8)
  last : List UInt8
  role_eq : conn.role = .client
  is_open : conn.state = .open
  valid : item.Valid
  not_close : ∀ code, item ≠ .close code
  out_lt : out.length < 2 ^ 64
  sent : 0 < (send conn key out item).1.n
  joined : pieces.flatten ++ last = (send conn key out item).1.bytes
  last_ne : last ≠ []

namespace Parcel

def bytes (p : Parcel) : List UInt8 := (send p.conn p.key p.out p.item).1.bytes

def chunks (p : Parcel) : List (List UInt8) := p.pieces ++ [p.last]

/-- It is a frame that carries the item to a server. -/
theorem exists_cut (p : Parcel) : ∃ cut : Cut, cut.chunks = p.chunks ∧
    cut.frame.wire = p.bytes ∧ Carries .server cut.frame p.item := by
  obtain ⟨f, hwire, hcarries⟩ := send_carries p.is_open p.valid p.out_lt p.sent
  rw [p.role_eq] at hcarries
  exact ⟨⟨f, p.pieces, p.last, p.joined.trans hwire, p.last_ne⟩, rfl, hwire.symm, hcarries⟩

theorem body_le (p : Parcel) : p.item.body.length ≤ p.bytes.length := by
  have hsent := p.sent
  rw [send_built p.is_open] at hsent
  rw [bytes, send_built p.is_open, Built.bytes]
  rcases buildFrame_cases p.conn p.key p.item.op p.out_lt with ⟨-, hzero⟩ | ⟨-, heq⟩
  · exact absurd hzero hsent.ne'
  · rw [heq]
    simp only [List.length_take, List.length_append, wireBody_length]
    omega

/-- The frames of the parcels, each of which fits. -/
theorem exists_cuts {ps : List Parcel} {cap : Nat} (hfit : ∀ p ∈ ps, p.bytes.length ≤ cap) :
    ∃ cuts : List Cut, cuts.flatMap Cut.chunks = ps.flatMap Parcel.chunks ∧
      Receiver.idle.Fits .server cap (cuts.map Cut.frame) ∧
      List.Forall₂ (fun f i => Carries .server f i ∧ ∀ code, i ≠ .close code)
        (cuts.map Cut.frame) (ps.map Parcel.item) := by
  induction ps with
  | nil => exact ⟨[], rfl, trivial, .nil⟩
  | cons p ps ih =>
      obtain ⟨cuts, hchunks, hfits, hall⟩ := ih fun q hq => hfit q (List.mem_cons_of_mem _ hq)
      obtain ⟨cut, hcut, hwire, hcarries⟩ := p.exists_cut
      refine ⟨cut :: cuts, ?_, ⟨?_, ?_⟩, .cons ⟨hcarries, p.not_close⟩ hall⟩
      · rw [List.flatMap_cons, List.flatMap_cons, hcut, hchunks]
      · rw [hwire]
        simpa [Receiver.idle] using hfit p (List.mem_cons_self ..)
      · rw [hcarries.step_idle p.not_close]
        exact hfits

end Parcel

/-- The frames of items, as a server sends them. -/
theorem exists_back {is : List Item} {maxMessage : Nat} (hmax : maxMessage + chunkCap < 2 ^ 64)
    (h : ∀ i ∈ is, i.Valid ∧ (∀ code, i ≠ .close code) ∧ i.body.length ≤ maxMessage) :
    ∃ back : List Frame, back.map Frame.wire = (is.map fun i => plainFrame i.op i.body) ∧
      List.Forall₂ (fun f i => Carries .client f i ∧ ∀ code, i ≠ .close code) back is := by
  induction is with
  | nil => exact ⟨[], rfl, .nil⟩
  | cons i is ih =>
      obtain ⟨back, hwires, hall⟩ := ih fun j hj => h j (List.mem_cons_of_mem _ hj)
      obtain ⟨hv, hclose, hlen⟩ := h i (List.mem_cons_self ..)
      obtain ⟨f, hwire, hcarries⟩ := exists_plainFrame hv hlen hmax
      exact ⟨f :: back, by rw [List.map_cons, List.map_cons, hwire, hwires],
        .cons ⟨hcarries, hclose⟩ hall⟩

/-- **There and back.**  A client endpoint sends messages, pings and pongs to the echo server, each
in chunks of its own.  In every run they are reported to the handler in order, and the client is
sent frames that its own receiver reads as the same messages, with a pong for each ping and nothing
for a pong; as long as the write of no frame fails, these frames are all that it is written after
the response. -/
theorem echo_round_trip (key : MaskKey) (maxConns maxMessage listenFd : Nat)
    (hmax : maxMessage + chunkCap < 2 ^ 64) (fds : List Nat) (t : Trace maxConns)
    (io : WsIo maxConns Unit)
    (hr : Runs (runLoop (echoServe key maxConns maxMessage listenFd hmax)
      (wsServe (echoServe key maxConns maxMessage listenFd hmax) ()) fds) t io)
    (i : Fin maxConns) (parcels : List Parcel)
    (hchunks : chunks (talk (life i t)) = parcels.flatMap Parcel.chunks)
    (hfit : ∀ p ∈ parcels, p.bytes.length ≤ maxMessage) :
    let l := life i t
    heard (talk l) = (parcels.map fun p => p.item.event) ∧
      ∃ back : List Frame, framesOf l = back.map Frame.wire ∧
        Receiver.idle.hears .client back
          = (parcels.flatMap fun p => p.item.echo).map Item.event ∧
        ((∀ a ∈ sends l, a.failed = false) →
          written l = answered l ++ back.flatMap Frame.wire) := by
  intro l
  have he : IsEcho key (echoServe key maxConns maxMessage listenFd hmax) := ⟨rfl, fun _ _ _ => rfl⟩
  have hech : Echoed l := echoed_run he hr i
  obtain ⟨cuts, hcuts, hfits, hall⟩ := Parcel.exists_cuts hfit
  have hlen : ∀ p ∈ cuts.flatMap Cut.chunks ++ [], p.length < 2147483648 := by
    intro p hp
    rw [List.append_nil, hcuts, ← hchunks] at hp
    exact Nat.lt_of_le_of_lt (chunk_le_run hr i p hp) (by decide)
  have hheard : heard (talk l) = parcels.map fun p => p.item.event := by
    have := dialogue_cuts (midway_start (by omega) .server) hfits (.inl rfl) hlen
    rw [List.append_nil, hcuts, hears_items hall, List.map_map] at this
    have htalk : talk l = (dialogue .server maxMessage (parcels.flatMap Parcel.chunks)).talk := by
      rw [← hchunks]
      exact (conversing_run hr i).talk
    rw [htalk]
    exact this
  have hechoes : ∀ j ∈ parcels.flatMap fun p => p.item.echo,
      j.Valid ∧ (∀ code, j ≠ .close code) ∧ j.body.length ≤ maxMessage := by
    intro j hj
    obtain ⟨p, hp, hj⟩ := List.mem_flatMap.mp hj
    obtain ⟨hv, hclose, hlen⟩ := Item.echo_valid p.valid hj
    exact ⟨hv, hclose, hlen.le.trans (p.body_le.trans (hfit p hp))⟩
  obtain ⟨back, hwires, hback⟩ := exists_back hmax hechoes
  have hframes : framesOf l = back.map Frame.wire := by
    rw [hech.frames, hheard, hwires, List.flatMap_map, List.map_flatMap]
    exact List.flatMap_congr fun p _ => Item.echoFrame_event p.item
  refine ⟨hheard, back, hframes, hears_items hback, fun hok => ?_⟩
  rw [List.flatMap_def, ← hframes]
  exact ((outward_run hr).now i).stream.written_frames hech.settled hok

/-- A client's ping with the payload `a`, in two chunks. -/
def pingParcel : Parcel where
  conn := wsConnOpen (wsConnInit .client [0])
  key := .replicate 4 1
  out := List.replicate 32 0
  item := .message .ping [0x61]
  pieces := [[0x89, 0x81, 1]]
  last := [1, 1, 1, 0x60]
  role_eq := rfl
  is_open := rfl
  valid := by decide
  not_close := by simp
  out_lt := by decide
  sent := by decide
  joined := by decide +kernel
  last_ne := by simp

/-- A client's text `hi`, cut inside its header and inside its payload. -/
def textParcel : Parcel where
  conn := wsConnOpen (wsConnInit .client [0])
  key := .replicate 4 1
  out := List.replicate 32 0
  item := .message .text [0x68, 0x69]
  pieces := [[0x81, 0x82, 1], [1, 1, 1, 0x69]]
  last := [0x68]
  role_eq := rfl
  is_open := rfl
  valid := by decide +kernel
  not_close := by simp
  out_lt := by decide
  sent := by decide
  joined := by decide +kernel
  last_ne := by simp

/-- The run of the echo server in which the text comes, and then the ping. -/
def parcelRun : Trace 1 × WsIo 1 Unit :=
  let sv := echoServe (.replicate 4 0) 1 64 3 sixtyFour_fits
  play (environment [5] (upgradeRequest :: [textParcel, pingParcel].flatMap Parcel.chunks)) []
    (runLoop sv (wsServe sv ()) [3, 5, 5, 5, 5, 5, 5])

theorem echo_round_trip_parcels :
    let l := life 0 parcelRun.1
    ∃ back : List Frame, framesOf l = back.map Frame.wire ∧
      Receiver.idle.hears .client back = [.message .text [0x68, 0x69], .pong [0x61]] ∧
      written l = answered l ++ back.flatMap Frame.wire := by
  intro l
  obtain ⟨-, back, hframes, hhears, hwritten⟩ := echo_round_trip (.replicate 4 0) 1 64 3
    sixtyFour_fits [3, 5, 5, 5, 5, 5, 5] parcelRun.1 parcelRun.2 (runs_play _ _ _) 0
    [textParcel, pingParcel] (by decide +kernel) (by decide +kernel)
  exact ⟨back, hframes, hhears, hwritten (by decide +kernel)⟩

end Libws
