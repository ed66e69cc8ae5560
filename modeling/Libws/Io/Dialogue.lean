import Libws.Io.Services

/-!
# Io — the dialogue with a client

What the handler is told of a client is decided by the chunks its connection is given and by
nothing else.  `dialogue` is the driver's loop on its own: hand over a chunk, poll until nothing is
reported, stop at a close, an error or a chunk that does not fit.  It sends nothing; on the server
the handler sends on any connection at any event, and the writes go as they go.

* `SentOn.poll`: what was sent on a connection makes no difference to what it reports.
* `Says`: what a part of the loop says for one slot, and that it says nothing for the others.
* `Unended.service`: a client whose read gave nothing is not served any longer.
* `client_dialogue`: in every run the chunks and events of a client are the dialogue of its chunks,
  and once upgraded it is dropped exactly when the dialogue is over or a read gave nothing.
-/

namespace Libws
open Libws.Support Prog

/-! ### Sending and polling -/

/-- Two polls that report the same, on connections that differ in what was sent on them. -/
structure SamePoll (p q : Poll) : Prop where
  ret : q.ret = p.ret
  ev : q.ev = p.ev
  sent : SentOn p.conn q.conn

section Sending

variable {w : Nat} {c d : WsConn} {h : WsFrameHeader} {hdr : Nat} {ev : WsEvent}

namespace SentOn

/-- A function that changes neither the state nor `sent_close`, and reads neither. -/
theorem map {f : WsConn → WsConn} (hf : ∀ c, c.state = .open → (f c).state = .open ∧
      f { c with sentClose := true, state := .closing }
        = { f c with sentClose := true, state := .closing })
    (hs : SentOn c d) : SentOn (f c) (f d) := by
  cases hs with
  | same => exact .same
  | close ho =>
      obtain ⟨hopen, heq⟩ := hf c ho
      rw [heq]
      exact .close hopen

theorem msgBuf (hs : SentOn c d) : d.msgBuf = c.msgBuf := by
  cases hs <;> rfl

theorem role (hs : SentOn c d) : d.role = c.role := by
  cases hs <;> rfl

theorem active (hs : SentOn c d) : wsLcActive d = wsLcActive c := by
  cases hs with
  | same => rfl
  | close ho => simp [wsLcActive, ho]

theorem fail (hs : SentOn c d) (ev : WsEvent) :
    SamePoll (Libws.fail c ev) (Libws.fail d ev) :=
  ⟨rfl, rfl, hs.map (f := fun c => (Libws.fail c ev).conn) fun _ ho => ⟨ho, rfl⟩⟩

theorem unmaskPayload (hs : SentOn c d) (w : Nat) (h : WsFrameHeader) (hdr : Nat) :
    SentOn (Libws.unmaskPayload w c h hdr) (Libws.unmaskPayload w d h hdr) := by
  refine hs.map (f := fun c => Libws.unmaskPayload w c h hdr) fun c ho => ?_
  simp only [Libws.unmaskPayload]
  split
  · exact ⟨ho, rfl⟩
  · exact ⟨ho, rfl⟩

theorem accumulate (hs : SentOn c d) (w : Nat) (h : WsFrameHeader) (hdr : Nat) :
    SentOn (Libws.accumulate w c h hdr) (Libws.accumulate w d h hdr) :=
  hs.map (f := fun c => Libws.accumulate w c h hdr) fun _ ho => ⟨ho, rfl⟩

theorem rawConsume (hs : SentOn c d) (n : Nat) :
    SentOn (Libws.rawConsume w c n) (Libws.rawConsume w d n) :=
  hs.map (f := fun c => Libws.rawConsume w c n) fun _ ho => ⟨ho, rfl⟩

theorem beginData (hs : SentOn c d) (h : WsFrameHeader) (isCont : Bool) :
    SentOn (Libws.beginData c h isCont).1 (Libws.beginData d h isCont).1 := by
  refine hs.map (f := fun c => (Libws.beginData c h isCont).1) fun c ho => ?_
  cases isCont with
  | true => exact ⟨ho, rfl⟩
  | false =>
      cases hf : c.frag <;> simp [Libws.beginData, wsLcStartFrag, wsLcActive, ho, hf]

theorem finishMessage (hs : SentOn c d) (ev : WsEvent) :
    SamePoll (Libws.finishMessage c ev) (Libws.finishMessage d ev) := by
  have hok : messageUtf8Ok d = messageUtf8Ok c := by cases hs <;> rfl
  have hfin : SentOn (wsLcFinishFrag c).2 (wsLcFinishFrag d).2 := by
    refine hs.map (f := fun c => (wsLcFinishFrag c).2) fun c ho => ?_
    cases hf : c.frag <;> simp [wsLcFinishFrag, wsLcActive, ho, hf]
  rw [Libws.finishMessage, Libws.finishMessage, hok]
  cases messageUtf8Ok c with
  | false => exact hs.fail ev
  | true =>
      refine ⟨rfl, by cases hs <;> rfl, ?_⟩
      exact hfin.map (f := fun c => { c with msgLen := 0 }) fun _ ho => ⟨ho, rfl⟩

theorem onData (hs : SentOn c d) :
    SamePoll (Libws.onData w c h hdr ev) (Libws.onData w d h hdr ev) := by
  have hill : dataIllegal w d h (decide (h.opcode = .cont))
      = dataIllegal w c h (decide (h.opcode = .cont)) := by
    cases hs with
    | same => rfl
    | close => rfl
  rw [Libws.onData, Libws.onData, hill]
  cases dataIllegal w c h (decide (h.opcode = .cont)) with
  | true => exact hs.fail ev
  | false =>
      have hacc := (hs.beginData h (decide (h.opcode = .cont))).accumulate w h hdr
      cases h.fin with
      | false => exact ⟨rfl, rfl, hacc⟩
      | true =>
          have := hacc.finishMessage ev
          exact ⟨this.ret, this.ev, this.sent⟩

theorem recv (hs : SentOn c d) (bytes : List UInt8) :
    (wsConnRecv w d bytes).1 = (wsConnRecv w c bytes).1 ∧
      SentOn (wsConnRecv w c bytes).2 (wsConnRecv w d bytes).2 := by
  have hsize : szAdd w (szAdd w d.msgLen d.rxLen) bytes.length > d.msgCap ↔
      szAdd w (szAdd w c.msgLen c.rxLen) bytes.length > c.msgCap := by cases hs <;> rfl
  by_cases hroom : szAdd w (szAdd w c.msgLen c.rxLen) bytes.length > c.msgCap
  · rw [wsConnRecv, wsConnRecv, if_pos hroom, if_pos (hsize.mpr hroom)]
    exact ⟨rfl, hs⟩
  · rw [wsConnRecv, wsConnRecv, if_neg hroom, if_neg (mt hsize.mp hroom)]
    refine ⟨rfl, hs.map (f := fun c => { c with
      msgBuf := wsMemcpy c.msgBuf (c.msgLen + c.rxLen) bytes bytes.length
      rxLen := szAdd w c.rxLen bytes.length }) fun _ ho => ⟨ho, rfl⟩⟩

/-- A close ends both connections, in the same state. -/
theorem onClose (hs : SentOn c d) :
    SamePoll (Libws.onClose w c h hdr ev) (Libws.onClose w d h hdr ev) := by
  cases hs with
  | same => exact ⟨rfl, rfl, .same⟩
  | close ho =>
      have hok : closeBodyOk w { c with sentClose := true, state := .closing } h hdr
          = closeBodyOk w c h hdr := rfl
      rw [Libws.onClose, Libws.onClose, hok]
      cases closeBodyOk w c h hdr with
      | false => exact (SentOn.close ho).fail ev
      | true =>
          by_cases hcode : 2 ≤ sizeT w h.payloadLen.toNat
          · simp only [ge_iff_le, hcode, if_true, wsLcRecvClose, wsLcActive, ho]
            exact ⟨rfl, rfl, .same⟩
          · simp only [ge_iff_le, hcode, if_false, wsLcRecvClose, wsLcActive, ho]
            exact ⟨rfl, rfl, .same⟩

theorem onControl (hs : SentOn c d) :
    SamePoll (Libws.onControl w c h hdr ev) (Libws.onControl w d h hdr ev) := by
  rw [Libws.onControl, Libws.onControl]
  split
  · exact hs.onClose
  · exact ⟨rfl, by cases hs <;> rfl, hs.rawConsume _⟩

/-- **Whether a close has been sent makes no difference to a poll.** -/
theorem poll (hs : SentOn c d) : SamePoll (wsConnPoll w c) (wsConnPoll w d) := by
  have hfailed : d.failed = c.failed := by cases hs <;> rfl
  have hready : frameReady w d = frameReady w c := by cases hs <;> rfl
  have hmask : ∀ h, maskOk d h = maskOk c h := by cases hs <;> exact fun _ => rfl
  rw [wsConnPoll, wsConnPoll, hfailed, hready]
  cases c.failed with
  | true => exact ⟨rfl, rfl, hs⟩
  | false =>
      cases frameReady w c with
      | none => exact ⟨rfl, rfl, hs⟩
      | some r =>
          obtain ⟨h, hdr, total⟩ := r
          simp only [dispatch, admitFrame, hs.active, hmask]
          cases hact : wsLcActive c with
          | false => exact hs.fail _
          | true =>
              cases maskOk c h with
              | false => exact hs.fail _
              | true =>
                  have hun := hs.unmaskPayload w h hdr
                  simp only [Bool.not_true, Bool.false_eq_true, if_false, route]
                  cases wsClassifyOpcode h.opcode with
                  | control => exact hun.onControl
                  | data => exact hun.onData
                  | reserved => exact hun.fail _

end SentOn
end Sending

/-! ### The dialogue -/

/-- What is said about a client: its connection is given bytes, and the handler an event. -/
inductive Talk where
  | chunk (bytes : List UInt8)
  | event (ev : Event)
  deriving DecidableEq, Repr

/-- What is said in a client's life. -/
def talk (l : List Deed) : List Talk :=
  l.filterMap fun
    | ⟨_, .recv bytes, _⟩ => some (.chunk bytes)
    | ⟨_, .event ev, _⟩ => some (.event ev)
    | _ => none

/-- The chunks among what is said. -/
def chunks (ts : List Talk) : List (List UInt8) :=
  ts.filterMap fun
    | .chunk bytes => some bytes
    | .event _ => none

/-- A dialogue so far: what was said, whether it is over, and the connection. -/
structure Dialogue where
  talk : List Talk
  isOver : Bool
  conn : WsConn

namespace Dialogue

/-- Poll until nothing is reported; a close or an error ends the dialogue. -/
def drain : Nat → Dialogue → Dialogue
  | 0, d => d
  | fuel + 1, d =>
    let p := wsConnPoll 64 d.conn
    if p.ret = .none then { d with conn := p.conn }
    else
      let said := d.talk ++ [.event p.event]
      if isTerminal p.ev.type then ⟨said, true, p.conn⟩ else drain fuel ⟨said, d.isOver, p.conn⟩

/-- Hand over a chunk, unless the dialogue is over. -/
def give (d : Dialogue) (bytes : List UInt8) : Dialogue :=
  if d.isOver then d
  else
    let r := wsConnRecv 64 d.conn bytes
    let said := d.talk ++ [.chunk bytes]
    if r.1 < 0 then ⟨said, true, r.2⟩ else drain (r.2.rxLen + 1) ⟨said, false, r.2⟩

def start (role : WsRole) (maxMessage : Nat) : Dialogue :=
  ⟨[], false, wsConnOpen (wsConnInit role (List.replicate maxMessage 0))⟩

end Dialogue

/-- The dialogue of these chunks, on an open connection with a buffer of `maxMessage` bytes. -/
def dialogue (role : WsRole) (maxMessage : Nat) (cs : List (List UInt8)) : Dialogue :=
  run Dialogue.give (.start role maxMessage) cs

/-- A close or an error is reported. -/
def Talk.terminal : Talk → Bool
  | .chunk _ => false
  | .event ev => isTerminal ev.type

namespace Dialogue

variable {d : Dialogue}

/-- Polls add events. -/
theorem drain_talk (fuel : Nat) (d : Dialogue) :
    ∃ evs : List Event, (d.drain fuel).talk = d.talk ++ evs.map .event := by
  induction fuel generalizing d with
  | zero => exact ⟨[], (List.append_nil _).symm⟩
  | succ fuel ih =>
      rw [drain]
      split
      · exact ⟨[], (List.append_nil _).symm⟩
      · dsimp only
        split
        · exact ⟨[_], rfl⟩
        · obtain ⟨evs, hevs⟩ := ih ⟨d.talk ++ [.event (wsConnPoll 64 d.conn).event], d.isOver,
            (wsConnPoll 64 d.conn).conn⟩
          exact ⟨_ :: evs, by rw [hevs, List.append_assoc]; rfl⟩

/-- A chunk adds itself and events. -/
theorem give_talk (ho : d.isOver = false) (bytes : List UInt8) :
    ∃ evs : List Event, (d.give bytes).talk = d.talk ++ .chunk bytes :: evs.map .event := by
  rw [give, if_neg (by simp [ho])]
  dsimp only
  split
  · exact ⟨[], rfl⟩
  · obtain ⟨evs, hevs⟩ := drain_talk ((wsConnRecv 64 d.conn bytes).2.rxLen + 1)
      ⟨d.talk ++ [.chunk bytes], false, (wsConnRecv 64 d.conn bytes).2⟩
    exact ⟨evs, by rw [hevs, List.append_assoc]; rfl⟩

/-- Only the last thing said can be terminal, and then the dialogue is over. -/
structure Ended (d : Dialogue) : Prop where
  last : ∀ x ∈ d.talk.dropLast, x.terminal = false
  isOver : d.isOver = false → ∀ x ∈ d.talk, x.terminal = false

theorem ended_concat {ts : List Talk} {x : Talk} {isOver : Bool} {c : WsConn}
    (hts : ∀ y ∈ ts, y.terminal = false) (hx : isOver = false → x.terminal = false) :
    Ended ⟨ts ++ [x], isOver, c⟩ := by
  refine ⟨?_, fun ho y hy => ?_⟩
  · rw [List.dropLast_concat]
    exact hts
  · rcases List.mem_append.mp hy with hy | hy
    · exact hts y hy
    · obtain rfl := List.mem_singleton.mp hy
      exact hx ho

theorem Ended.drain (fuel : Nat) (h : Ended d) (ho : d.isOver = false) : Ended (d.drain fuel) := by
  induction fuel generalizing d with
  | zero => exact h
  | succ fuel ih =>
      have hterm : ∀ p : Poll, p.ev.type = p.ret →
          (Talk.event p.event).terminal = isTerminal p.ev.type := fun p hp => by rw [hp]; rfl
      rw [Dialogue.drain]
      split
      · exact ⟨h.last, h.isOver⟩
      · dsimp only
        split
        · exact ended_concat (h.isOver ho) fun hno => by cases hno
        · rename_i hgo
          refine ih (ended_concat (h.isOver ho) fun _ => ?_) ho
          rw [hterm _ (poll_type 64 d.conn)]
          simpa using hgo

theorem Ended.give (h : Ended d) (bytes : List UInt8) : Ended (d.give bytes) := by
  rw [Dialogue.give]
  split
  · exact h
  · rename_i ho
    have ho : d.isOver = false := by simpa using ho
    have hchunk : ∀ isOver c, Ended ⟨d.talk ++ [.chunk bytes], isOver, c⟩ := fun isOver c =>
      ended_concat (h.isOver ho) fun _ => rfl
    dsimp only
    split
    · exact hchunk _ _
    · exact (hchunk _ _).drain _ rfl

end Dialogue

theorem dialogue_ended (role : WsRole) (maxMessage : Nat) (cs : List (List UInt8)) :
    (dialogue role maxMessage cs).Ended :=
  run_inv_all (P := Dialogue.Ended) (fun _ bytes h => h.give bytes) cs
    ⟨fun _ hx => (by cases hx), fun _ _ hx => by cases hx⟩

/-! ### What is said -/

section Saying

variable {n : Nat} {i : Fin n} {t u : Trace n}

/-- An entry that says nothing and gives no slot away. -/
def Mute : Entry (Req.Answer (n := n)) → Prop
  | ⟨.seat _ _, _⟩ | ⟨.client _ _ (.recv _), _⟩ | ⟨.client _ _ (.event _), _⟩ => False
  | _ => True

theorem life_snoc (i : Fin n) (h : Trace n) (e : Entry (Req.Answer (n := n))) :
    life i (h ++ [e]) = lifeStep i (life i h) e := by
  rw [life, run_append]
  rfl

theorem talk_append (l m : List Deed) : talk (l ++ m) = talk l ++ talk m :=
  List.filterMap_append ..

theorem chunks_append (ts us : List Talk) : chunks (ts ++ us) = chunks ts ++ chunks us :=
  List.filterMap_append ..

theorem chunks_events (evs : List Event) : chunks (evs.map .event) = [] := by
  induction evs with
  | nil => rfl
  | cons ev evs ih => exact ih

/-- A deed of a client adds what it says. -/
theorem talk_lifeStep (i j : Fin n) (fd : Nat) (a : Act) (r : a.Answer) (l : List Deed) :
    talk (lifeStep i l ⟨.client j fd a, r⟩) = talk l ++ if j = i then talk [⟨fd, a, r⟩] else [] := by
  rw [lifeStep]
  split
  · exact talk_append ..
  · exact (List.append_nil _).symm

theorem Mute.talk {e : Entry (Req.Answer (n := n))} (he : Mute e) (i : Fin n) (l : List Deed) :
    talk (lifeStep i l e) = talk l := by
  match e with
  | ⟨.accept, _⟩ | ⟨.refuse _, _⟩ => rfl
  | ⟨.seat _ _, _⟩ | ⟨.client _ _ (.recv _), _⟩ | ⟨.client _ _ (.event _), _⟩ => exact he.elim
  | ⟨.client j fd (.read room), r⟩ | ⟨.client j fd (.write src bytes), r⟩
  | ⟨.client j fd .close, r⟩ =>
      rw [talk_lifeStep]
      split
      · exact List.append_nil _
      · exact List.append_nil _

theorem talk_mute (ht : ∀ e ∈ t, Mute e) (i : Fin n) (h : Trace n) :
    talk (life i (h ++ t)) = talk (life i h) := by
  induction t generalizing h with
  | nil => rw [List.append_nil]
  | cons e t ih =>
      rw [List.append_cons, ih fun e he => ht e (List.mem_cons_of_mem _ he), life_snoc]
      exact (ht e (List.mem_cons_self ..)).talk i _

/-- A life only grows until the slot is given away. -/
theorem life_mute (ht : ∀ e ∈ t, Mute e) (i : Fin n) (h : Trace n) :
    life i h <+: life i (h ++ t) := by
  induction t generalizing h with
  | nil => rw [List.append_nil]
  | cons e t ih =>
      have hone : life i h <+: life i (h ++ [e]) := by
        rw [life_snoc]
        match e with
        | ⟨.accept, _⟩ | ⟨.refuse _, _⟩ => exact List.prefix_refl _
        | ⟨.seat _ _, _⟩ => exact (ht _ (List.mem_cons_self ..)).elim
        | ⟨.client j fd a, r⟩ =>
            rw [lifeStep]
            split
            · exact List.prefix_append ..
            · exact List.prefix_refl _
      rw [List.append_cons]
      exact hone.trans (ih (fun e he => ht e (List.mem_cons_of_mem _ he)) _)

theorem IsWrite.mute {e : Entry (Req.Answer (n := n))} (h : IsWrite e) : Mute e := by
  match e, h with
  | ⟨.client _ _ (.write _ _), _⟩, _ => trivial

theorem Answers.isWrite {fd : Nat} {accept : List UInt8} {rc : Int}
    (h : Answers i fd accept t rc) : ∀ e ∈ t, IsWrite e := by
  intro e he
  cases h with
  | pre h₁ => exact h₁.isWrite e he
  | accept h₁ h₂ => exact (List.mem_append.mp he).elim (h₁.isWrite e) (h₂.isWrite e)
  | blank h₁ h₂ h₃ =>
      rcases List.mem_append.mp he with he | he
      · exact (List.mem_append.mp he).elim (h₁.isWrite e) (h₂.isWrite e)
      · exact h₃.isWrite e he

theorem Rejected.mute {s : WsSlot} {r : List UInt8} (h : Rejected i s r t) :
    ∀ e ∈ t, Mute e := by
  cases h with
  | ended | large | keyless => simp
  | unwritten hans => exact fun e he => (hans.isWrite e he).mute

end Saying

/-! ### What the loop says -/

section Loop

variable {σ : Type} {sv : Server σ} {i : Fin sv.maxConns} {io io₁ io₂ : WsIo sv.maxConns σ}
  {t u : Trace sv.maxConns} {ts us : List Talk}

/-- `ts` is said about the client of slot `i`, and nothing about the others, on which there may be
sends. -/
structure Says (i : Fin sv.maxConns) (io : WsIo sv.maxConns σ) (t : Trace sv.maxConns)
    (io' : WsIo sv.maxConns σ) (ts : List Talk) : Prop where
  said : ∀ h, talk (life i (h ++ t)) = talk (life i h) ++ ts
  silent : ∀ j, j ≠ i → ∀ h, talk (life j (h ++ t)) = talk (life j h)
  grows : ∀ j h, life j h <+: life j (h ++ t)
  recon : Recon io io'
  sent : ∀ j, j ≠ i → SentOn (io.conns j).conn (io'.conns j).conn

theorem Says.refl (io : WsIo sv.maxConns σ) : Says i io [] io [] :=
  ⟨fun h => by rw [List.append_nil, List.append_nil], fun _ _ h => by rw [List.append_nil],
    fun _ h => by rw [List.append_nil], .refl io, fun _ _ => .same⟩

theorem Says.trans (h : Says i io t io₁ ts) (h' : Says i io₁ u io₂ us) :
    Says i io (t ++ u) io₂ (ts ++ us) := by
  refine ⟨fun g => ?_, fun j hj g => ?_, fun j g => ?_, h.recon.trans h'.recon,
    fun j hj => (h.sent j hj).trans (h'.sent j hj)⟩
  · rw [← List.append_assoc, h'.said, h.said, List.append_assoc]
  · rw [← List.append_assoc, h'.silent j hj, h.silent j hj]
  · rw [← List.append_assoc]
    exact (h.grows j g).trans (h'.grows j _)

/-- The connection of slot `i` changes, and nothing is said. -/
theorem Says.setConn (io : WsIo sv.maxConns σ) (i : Fin sv.maxConns) (c : WsConn) :
    Says i io [] (io.setConn i c) [] :=
  ⟨fun h => by rw [List.append_nil, List.append_nil], fun _ _ h => by rw [List.append_nil],
    fun _ h => by rw [List.append_nil], .setConn io i c,
    fun j hj => by rw [WsIo.setConn, io.set_other _ hj]; exact .same⟩

/-- One deed for the client of slot `i`. -/
theorem Says.deed (io : WsIo sv.maxConns σ) (i : Fin sv.maxConns) (fd : Nat) (a : Act)
    (r : a.Answer) : Says i io [⟨.client i fd a, r⟩] io (talk [⟨fd, a, r⟩]) := by
  refine ⟨fun h => ?_, fun j hj h => ?_, fun j h => ?_, .refl io, fun _ _ => .same⟩
  · rw [life_snoc, talk_lifeStep, if_pos rfl]
  · rw [life_snoc, talk_lifeStep, if_neg (Ne.symm hj), List.append_nil]
  · rw [life_snoc, lifeStep]
    split
    · exact List.prefix_append ..
    · exact List.prefix_refl _

/-- **The handler is told of an event**, and sends as it likes. -/
theorem onEvent_says {ev : Event} {io' : WsIo sv.maxConns σ}
    (h : Runs (onEvent sv io i ev) t io') :
    Says i io t io' [.event ev] ∧ SentOn (io.conns i).conn (io'.conns i).conn := by
  have hsent := fun j => onEvent_sent h j
  obtain ⟨_, t₁, t₂, rfl, h₁, hk⟩ := runs_bind.mp h
  obtain rfl := runs_request.mp h₁
  have hsilent : ∀ e ∈ t₂, Mute e := fun e he => (reply_writes hk e he).mute
  have hmute := talk_mute hsilent
  have hreply : Says i io t₂ io' [] :=
    ⟨fun h => by rw [hmute, List.append_nil], fun j _ h => hmute j h, life_mute hsilent,
      (reply_trail (i := i) (Reply.within_all _) hk).2, fun j _ => hsent j⟩
  exact ⟨(Says.deed io i _ (.event ev) ()).trans hreply, hsent i⟩

/-- **`drain_events`** reports what the dialogue does, and ends when it ends. -/
theorem drainLoop_says {fuel : Nat} {d : Dialogue} {r : Bool × WsIo sv.maxConns σ}
    (hd : SentOn d.conn (io.conns i).conn) (ho : d.isOver = false)
    (h : Runs (drainLoop sv i fuel io) t r) :
    (∃ ts, (d.drain fuel).talk = d.talk ++ ts ∧ Says i io t r.2 ts) ∧
      r.1 = (d.drain fuel).isOver ∧ SentOn (d.drain fuel).conn (r.2.conns i).conn := by
  induction fuel generalizing io t d with
  | zero =>
      obtain ⟨rfl, rfl⟩ := runs_pure.mp h
      exact ⟨⟨[], (List.append_nil _).symm, .refl io⟩, ho.symm, hd⟩
  | succ fuel ih =>
      have hp := hd.poll (w := 64)
      have hevent : (wsConnPoll 64 (io.conns i).conn).event = (wsConnPoll 64 d.conn).event := by
        rw [Poll.event, Poll.event, hp.ret, hp.ev, Poll.data, Poll.data, hp.ev, hp.sent.msgBuf]
      have hset := Says.setConn io i (wsConnPoll 64 (io.conns i).conn).conn
      rw [drainLoop] at h
      rw [Dialogue.drain, ← hp.ret, ← hp.ev, ← hevent]
      split at h
      · rename_i hret
        obtain ⟨rfl, rfl⟩ := runs_pure.mp h
        rw [if_pos hret]
        exact ⟨⟨[], (List.append_nil _).symm, hset⟩, ho.symm, by
          rw [WsIo.setConn_same]; exact hp.sent⟩
      · rename_i hret
        rw [if_neg hret]
        obtain ⟨io', t₁, t₂, rfl, h₁, hk⟩ := runs_bind.mp h
        obtain ⟨hsaid, hsent⟩ := onEvent_says h₁
        rw [WsIo.setConn_same] at hsent
        have hsofar := hset.trans hsaid
        have hconn := hp.sent.trans hsent
        dsimp only at hk ⊢
        split at hk
        · rename_i hterm
          obtain ⟨rfl, rfl⟩ := runs_pure.mp hk
          rw [if_pos hterm, List.append_nil]
          exact ⟨⟨_, rfl, hsofar⟩, rfl, hconn⟩
        · rename_i hterm
          rw [if_neg hterm]
          obtain ⟨⟨ts, htalk, hts⟩, hover, hend⟩ :=
            ih (d := ⟨_, d.isOver, (wsConnPoll 64 d.conn).conn⟩) hconn ho hk
          refine ⟨⟨_, ?_, hsofar.trans hts⟩, hover, hend⟩
          rw [htalk, List.append_assoc]
          rfl

/-- **`feed`** with a chunk goes on with the dialogue. -/
theorem feed_says {bytes : List UInt8} {d : Dialogue} {r : Bool × WsIo sv.maxConns σ}
    (hne : bytes ≠ []) (hd : SentOn d.conn (io.conns i).conn) (ho : d.isOver = false)
    (h : Runs (feed sv io i bytes) t r) :
    (∃ ts, (d.give bytes).talk = d.talk ++ ts ∧ Says i io t r.2 ts) ∧
      r.1 = (d.give bytes).isOver ∧ SentOn (d.give bytes).conn (r.2.conns i).conn := by
  obtain ⟨hrc, hsent⟩ := hd.recv (w := 64) bytes
  rw [feed, if_pos (List.length_pos_iff.mpr hne)] at h
  obtain ⟨_, t₁, t₂, rfl, h₁, hk⟩ := runs_bind.mp h
  obtain rfl := runs_request.mp h₁
  have hsaid := (Says.deed io i (io.conns i).fd (.recv bytes) ()).trans
    (Says.setConn io i (wsConnRecv 64 (io.conns i).conn bytes).2)
  rw [List.append_nil, List.append_nil] at hsaid
  rw [Dialogue.give, if_neg (by simp [ho])]
  dsimp only at hk ⊢
  rw [hrc] at hk
  split at hk
  · rename_i hneg
    obtain ⟨rfl, rfl⟩ := runs_pure.mp hk
    rw [if_pos hneg, List.append_nil]
    exact ⟨⟨_, rfl, hsaid⟩, rfl, by rw [WsIo.setConn_same]; exact hsent⟩
  · rename_i hpos
    rw [if_neg hpos]
    rw [drainEvents, WsIo.setConn_same, hsent.rxLen] at hk
    obtain ⟨⟨ts, htalk, hts⟩, hover, hend⟩ :=
      drainLoop_says (d := ⟨d.talk ++ [.chunk bytes], false, (wsConnRecv 64 d.conn bytes).2⟩)
        (by rw [WsIo.setConn_same]; exact hsent) rfl hk
    refine ⟨⟨_, ?_, hsaid.trans hts⟩, hover, hend⟩
    rw [htalk, List.append_assoc]
    rfl

/-- A connection that has just been opened has nothing to report. -/
theorem feed_nil {r : Bool × WsIo sv.maxConns σ} {maxMessage : Nat}
    (hc : (io.conns i).conn = (Dialogue.start sv.role maxMessage).conn)
    (h : Runs (feed sv io i []) t r) : t = [] ∧ r = (false, io) := by
  have hpoll : wsConnPoll 64 (io.conns i).conn = ⟨.none, (io.conns i).conn, clearEvent, []⟩ := by
    rw [hc]
    simp [wsConnPoll, Dialogue.start, wsConnOpen, wsLcHandshake, wsConnInit, frameReady, rawBytes,
      slice, wsParseHeader]
  rw [feed, if_neg (by decide), drainEvents, drainLoop, hpoll, WsIo.setConn_self] at h
  exact runs_pure.mp h

end Loop

/-! ### The close is the last deed -/

/-- A client that is served has not been closed; one that is no longer served was closed last, and
once. -/
structure ClosedLast (s : WsSlot) (l : List Deed) : Prop where
  served : s.used = true → ∀ d ∈ l, d.act ≠ .close
  left : s.used = false → l = [] ∨ ∃ l' d, l = l' ++ [d] ∧ d.act = .close ∧
    ∀ d ∈ l', d.act ≠ .close

section Closing

variable {σ : Type} {sv : Server σ} {i : Fin sv.maxConns} {io io' : WsIo sv.maxConns σ}
  {h t : Trace sv.maxConns}

/-- What a step does for slot `k`: deeds for a client that is served, with the close as the last if
it is not served after. -/
def Leaves (k : Fin sv.maxConns) (io : WsIo sv.maxConns σ) (t : Trace sv.maxConns)
    (io' : WsIo sv.maxConns σ) : Prop :=
  (io'.conns k).used = (io.conns k).used ∧ (t = [] ∨ (io.conns k).used = true) ∧
      (∀ d ∈ deeds t, d.act ≠ .close) ∨
  (io.conns k).used = true ∧ (io'.conns k).used = false ∧
    ∃ u, deeds t = u ++ [⟨(io.conns k).fd, .close, ()⟩] ∧ ∀ d ∈ u, d.act ≠ .close

theorem writes_unclosed {fd : Nat} {src : Source} {l : List Deed}
    (h : ∀ d ∈ l, ∃ bytes w, d = ⟨fd, .write src bytes, w⟩) : ∀ d ∈ l, d.act ≠ .close := by
  intro d hd
  obtain ⟨bytes, w, rfl⟩ := h d hd
  simp

theorem Serve.leaves {T : Fin sv.maxConns → Prop} (hs : Serve sv T i io t io') :
    ∃ k, Only k (io.conns k).fd t ∧ (∀ j, j ≠ k → io'.conns j = io.conns j) ∧
      Leaves k io t io' := by
  cases hs with
  | app => exact ⟨i, .nil, fun _ _ => rfl, .inl ⟨rfl, .inl rfl, by simp⟩⟩
  | @sendClose k =>
      exact ⟨k, .nil, fun j hj => io.set_other _ hj,
        .inl ⟨by rw [WsIo.setConn_same], .inl rfl, by simp⟩⟩
  | @frame k _ _ _ _ hu _ hw =>
      exact ⟨k, hw.only, fun _ _ => rfl, .inl ⟨rfl, .inr hu, writes_unclosed hw.mem⟩⟩
  | poll hu =>
      exact ⟨i, .nil, fun j hj => io.set_other _ hj,
        .inl ⟨by rw [WsIo.setConn_same], .inl rfl, by simp⟩⟩
  | event hu => exact ⟨i, .cons _ .nil, fun _ _ => rfl, .inl ⟨rfl, .inr hu, by simp⟩⟩
  | eof hu => exact ⟨i, .cons _ .nil, fun _ _ => rfl, .inl ⟨rfl, .inr hu, by simp⟩⟩
  | pump hu =>
      exact ⟨i, .cons _ (.cons _ .nil), fun j hj => io.set_other _ hj,
        .inl ⟨by rw [WsIo.setConn_same], .inr hu, by simp⟩⟩
  | close hu =>
      exact ⟨i, .cons _ .nil, fun j hj => io.set_other _ hj,
        .inr ⟨hu, by rw [WsIo.set_same], [], by simp, by simp⟩⟩
  | wait hu =>
      exact ⟨i, .cons _ .nil, fun j hj => io.set_other _ hj,
        .inl ⟨by rw [WsIo.set_same]; rfl, .inr hu, by simp⟩⟩
  | @upgrade r pos accept rest u hu ho hne hpos hkey hans =>
      refine ⟨i, (Only.cons _ hans.only).append (recvd_only _ _ _), fun j hj => io.set_other _ hj,
        .inl ⟨by rw [WsIo.set_same]; rfl, .inr hu, ?_⟩⟩
      have hrecvd : ∀ d ∈ deeds (recvd i (io.conns i).fd rest), d.act ≠ .close := by
        rw [recvd]
        split <;> simp
      have hwrites := writes_unclosed hans.mem
      simp only [List.cons_append, deeds_client, deeds_append, List.mem_cons, List.mem_append]
      rintro d (rfl | hd | hd)
      · simp
      · exact hwrites d hd
      · exact hrecvd d hd
  | @quit r u s hu _ hrej hsu =>
      have hwrites : ∀ d ∈ deeds u, d.act ≠ .close := by
        cases hrej with
        | ended | large | keyless => simp
        | unwritten hans => exact writes_unclosed hans.mem
      have hsilent := hrej.silent.only
      refine ⟨i, (Only.cons _ hsilent).append (.cons _ .nil), fun j hj => io.set_other _ hj,
        .inr ⟨hu, by rw [WsIo.set_same]; exact hsu, ⟨(io.conns i).fd, .read _, r⟩ :: deeds u,
          by simp only [List.cons_append, deeds_client, deeds_append, deeds_nil], ?_⟩⟩
      rintro d (_ | ⟨_, hd⟩)
      · simp
      · exact hwrites d hd

theorem ClosedLast.step (hall : ∀ i, ClosedLast (io.conns i) (life i h))
    (hs : Step sv (fun _ _ => True) io t io') : ∀ i, ClosedLast (io'.conns i) (life i (h ++ t)) := by
  intro i
  cases hs with
  | accept ha =>
      cases ha with
      | failed | refuse =>
          rw [life, run_append]
          exact hall i
      | @seat j fd =>
          rw [life_seat]
          by_cases hij : j = i
          · subst hij
            rw [if_pos rfl, WsIo.set_same]
            exact ⟨fun _ d hd => (by cases hd), fun hno => by cases hno⟩
          · rw [if_neg hij, io.set_other _ (Ne.symm hij)]
            exact hall i
  | serve j hs =>
      obtain ⟨k, honly, hother, hleaves⟩ := hs.leaves
      by_cases hik : i = k
      · subst hik
        rw [life_same honly]
        obtain ⟨hserved, hleft⟩ := hall i
        rcases hleaves with ⟨hused, hnil, hno⟩ | ⟨hu, hu', u, hdeeds, hno⟩
        · refine ⟨fun hu d hd => ?_, fun hu => ?_⟩
          · rcases List.mem_append.mp hd with hd | hd
            · exact hserved (hused.symm.trans hu) d hd
            · exact hno d hd
          · rcases hnil with rfl | hyes
            · rw [deeds_nil, List.append_nil]
              exact hleft (hused.symm.trans hu)
            · rw [hused, hyes] at hu
              cases hu
        · refine ⟨fun hyes => ?_, fun _ => .inr ⟨life i h ++ u, ⟨(io.conns i).fd, .close, ()⟩, ?_⟩⟩
          · rw [hu'] at hyes
            cases hyes
          · refine ⟨by rw [hdeeds, List.append_assoc], rfl, fun d hd => ?_⟩
            exact (List.mem_append.mp hd).elim (hserved hu d) (hno d)
      · rw [life_other honly hik, hother i hik]
        exact hall i

theorem closedLast_run {app : σ} {fds : List Nat}
    (hr : Runs (runLoop sv (wsServe sv app) fds) t io) (i : Fin sv.maxConns) :
    ClosedLast (io.conns i) (life i t) :=
  runLoop_inv (P := fun io h => ∀ i, ClosedLast (io.conns i) (life i h))
    (fun _ _ _ _ hall hs => ClosedLast.step hall hs)
    (fun _ => ⟨fun hno => (by cases hno), fun _ => .inl rfl⟩) hr i

end Closing

/-! ### A read that gives nothing -/

/-- A read that gives nothing. -/
def Deed.Ends : Deed → Prop
  | ⟨_, .read _, r⟩ => r.val = []
  | _ => False

instance : DecidablePred Deed.Ends
  | ⟨_, .read _, r⟩ => inferInstanceAs (Decidable (r.val = []))
  | ⟨_, .write .., _⟩ | ⟨_, .recv _, _⟩ | ⟨_, .event _, _⟩ | ⟨_, .close, _⟩ => .isFalse id

/-- The reads of a client that is served have given something. -/
def Unended (s : WsSlot) (l : List Deed) : Prop := s.used = true → ∀ d ∈ l, ¬ d.Ends

/-- An entry that is no read that gives nothing, and gives no slot away. -/
def Goes {n : Nat} : Entry (Req.Answer (n := n)) → Prop
  | ⟨.seat _ _, _⟩ => False
  | ⟨.client _ _ (.read _), r⟩ => r.val ≠ []
  | _ => True

theorem IsWrite.goes {n : Nat} {e : Entry (Req.Answer (n := n))} (h : IsWrite e) : Goes e := by
  match e, h with
  | ⟨.client _ _ (.write _ _), _⟩, _ => trivial

/-- A life in which every read gave something goes on as one. -/
theorem life_goes {n : Nat} {i : Fin n} {t : Trace n} (ht : ∀ e ∈ t, Goes e) {h : Trace n}
    (hl : ∀ d ∈ life i h, ¬ d.Ends) : ∀ d ∈ life i (h ++ t), ¬ d.Ends := by
  induction t generalizing h with
  | nil => rwa [List.append_nil]
  | cons e t ih =>
      rw [List.append_cons]
      refine ih (fun e he => ht e (List.mem_cons_of_mem _ he)) ?_
      have he := ht e (List.mem_cons_self ..)
      rw [life_snoc]
      match e, he with
      | ⟨.accept, _⟩, _ | ⟨.refuse _, _⟩, _ => exact hl
      | ⟨.client j fd a, r⟩, he =>
          rw [lifeStep]
          split
          · intro d hd
            rcases List.mem_append.mp hd with hd | hd
            · exact hl d hd
            · obtain rfl := List.mem_singleton.mp hd
              cases a with
              | read room => exact he
              | write | recv | event | close => exact id
          · exact hl

section Ending

variable {σ : Type} {sv : Server σ} {i : Fin sv.maxConns} {io io' : WsIo sv.maxConns σ}
  {g t u v : Trace sv.maxConns}

/-- Draining reads nothing. -/
theorem drainLoop_goes {fuel : Nat} {r : Bool × WsIo sv.maxConns σ}
    (h : Runs (drainLoop sv i fuel io) t r) : ∀ e ∈ t, Goes e := by
  induction fuel generalizing io t with
  | zero =>
      obtain ⟨rfl, -⟩ := runs_pure.mp h
      simp
  | succ fuel ih =>
      rw [drainLoop] at h
      split at h
      · obtain ⟨rfl, -⟩ := runs_pure.mp h
        simp
      · obtain ⟨io₁, t₁, t₂, rfl, h₁, hk⟩ := runs_bind.mp h
        obtain ⟨_, u₁, u₂, rfl, hev, hreply⟩ := runs_bind.mp h₁
        obtain rfl := runs_request.mp hev
        have hrest : ∀ e ∈ t₂, Goes e := by
          split at hk
          · obtain ⟨rfl, -⟩ := runs_pure.mp hk
            simp
          · exact ih hk
        simp only [List.mem_append, List.mem_singleton]
        rintro e ((rfl | he) | he)
        · trivial
        · exact (reply_writes hreply e he).goes
        · exact hrest e he

theorem feed_goes {bytes : List UInt8} {r : Bool × WsIo sv.maxConns σ}
    (h : Runs (feed sv io i bytes) t r) : ∀ e ∈ t, Goes e := by
  rw [feed] at h
  split at h
  · obtain ⟨_, t₁, t₂, rfl, h₁, hk⟩ := runs_bind.mp h
    obtain rfl := runs_request.mp h₁
    have hrest : ∀ e ∈ t₂, Goes e := by
      dsimp only at hk
      split at hk
      · obtain ⟨rfl, -⟩ := runs_pure.mp hk
        simp
      · exact drainLoop_goes hk
    rintro e (_ | ⟨_, he⟩)
    · trivial
    · exact hrest e he
  · exact drainLoop_goes h

theorem feed_recon {bytes : List UInt8} {r : Bool × WsIo sv.maxConns σ}
    (hu : (io.conns i).used = true) (ho : (io.conns i).isOpen = true)
    (h : Runs (feed sv io i bytes) t r) : Recon io r.2 := by
  obtain ⟨t', -, -, hrecon⟩ :=
    feed_trail (T := fun _ => True) (fun _ _ => Reply.within_all _) hu ho h
  split at hrecon
  · exact hrecon
  · exact (Recon.setConn io i _).trans hrecon

theorem leave_cases {p : Bool × WsIo sv.maxConns σ} (h : Runs (leave i p) v io') :
    p.1 = true ∧ v = [⟨.client i (p.2.conns i).fd .close, ()⟩] ∧
        io' = p.2.set i { p.2.conns i with used := false } ∨
      p.1 = false ∧ v = [] ∧ io' = p.2 := by
  obtain ⟨b, io₁⟩ := p
  cases b with
  | true =>
      obtain ⟨rfl, rfl⟩ := slotClose_runs h
      exact .inl ⟨rfl, rfl, rfl⟩
  | false => exact .inr ⟨rfl, runs_pure.mp h⟩

/-- Leaving reads nothing, and a slot that is in use after it was so before. -/
theorem leave_goes {p : Bool × WsIo sv.maxConns σ} (h : Runs (leave i p) v io') :
    (∀ e ∈ v, Goes e) ∧ ∀ j, (io'.conns j).used = true → (p.2.conns j).used = true := by
  rcases leave_cases h with ⟨-, rfl, rfl⟩ | ⟨-, rfl, rfl⟩
  · refine ⟨by simp [Goes], fun j hu => ?_⟩
    by_cases hj : j = i
    · subst hj
      rw [WsIo.set_same] at hu
      cases hu
    · rwa [p.2.set_other _ hj] at hu
  · exact ⟨by simp, fun _ hu => hu⟩

/-- **One service** of a client leaves no client in use whose read gave nothing. -/
theorem Unended.service (hall : ∀ j, Unended (io.conns j) (life j g))
    (hu : (io.conns i).used = true) (hs : Service sv i io u io') :
    ∀ j, Unended (io'.conns j) (life j (g ++ u)) := by
  -- either every read gave something and no slot is taken into use, or the slot is closed
  have going : ∀ {t : Trace sv.maxConns} {io' : WsIo sv.maxConns σ}, (∀ e ∈ t, Goes e) →
      (∀ j, (io'.conns j).used = true → (io.conns j).used = true) →
      ∀ j, Unended (io'.conns j) (life j (g ++ t)) :=
    fun ht hused j hyes => life_goes ht (hall j (hused j hyes))
  have closing : ∀ {t : Trace sv.maxConns} {s : WsSlot}, Only i (io.conns i).fd t →
      s.used = false → ∀ j, Unended ((io.set i s).conns j) (life j (g ++ t)) := by
    intro t s honly hno j
    by_cases hj : j = i
    · subst hj
      rw [WsIo.set_same]
      exact fun hyes => absurd (hno.symm.trans hyes) (by decide)
    · rw [life_other honly hj, io.set_other _ hj]
      exact hall j
  have hset : ∀ {s : WsSlot} j, ((io.set i s).conns j).used = true → (io.conns j).used = true := by
    intro s j hyes
    by_cases hj : j = i
    · rwa [hj]
    · rwa [io.set_other _ hj] at hyes
  cases hs with
  | wait _ hne => exact going (by simpa [Goes] using hne) fun j => hset j
  | reject _ hrej hno => exact closing ((Only.cons _ hrej.silent.only).append (.cons _ .nil)) hno
  | @upgrade r accept rest t u v p _ ho hne hans _ hf hv =>
      obtain ⟨hleave, hused⟩ := leave_goes hv
      have hfeed := feed_goes hf
      have hrecon := feed_recon (by rw [WsIo.set_same]; exact hu) (by rw [WsIo.set_same]; rfl) hf
      refine going (fun e he => ?_) fun j hyes => ?_
      · simp only [List.cons_append, List.mem_cons, List.mem_append] at he
        rcases he with rfl | (he | he) | he
        · exact hne
        · exact (hans.isWrite e he).goes
        · exact hfeed e he
        · exact hleave e he
      · have hyes := hused j hyes
        rw [hrecon.used j] at hyes
        exact hset j hyes
  | eof => exact closing (.cons _ (.cons _ .nil)) rfl
  | @pump r u v p _ ho hne hf hv =>
      obtain ⟨hleave, hused⟩ := leave_goes hv
      have hfeed := feed_goes hf
      refine going (fun e he => ?_) fun j hyes => ?_
      · simp only [List.cons_append, List.mem_cons, List.mem_append] at he
        rcases he with rfl | he | he
        · exact hne
        · exact hfeed e he
        · exact hleave e he
      · rw [← (feed_recon hu ho hf).used j]
        exact hused j hyes

theorem unended_run {app : σ} {fds : List Nat} (hr : Runs (runLoop sv (wsServe sv app) fds) t io)
    (i : Fin sv.maxConns) : Unended (io.conns i) (life i t) := by
  refine runLoop_services (P := fun io h => ∀ i, Unended (io.conns i) (life i h))
    (fun _ _ _ _ _ _ hall hu hs => .service hall hu hs) ?_ (fun _ hno => by cases hno) hr i
  intro io h t io' hall ha j
  cases ha with
  | failed | refuse =>
      rw [life, run_append]
      exact hall j
  | @seat k fd =>
      rw [life_seat]
      by_cases hkj : k = j
      · rw [if_pos hkj]
        exact fun _ _ hd => by cases hd
      · rw [if_neg hkj, io.set_other _ (Ne.symm hkj)]
        exact hall j

end Ending

/-! ### A client at every turn of the loop -/

section Turns

variable {σ : Type} (sv : Server σ)

/-- The dialogue of the chunks of a life. -/
def told (l : List Deed) : Dialogue := dialogue sv.role sv.maxMessage (chunks (talk l))

/-- What is known of a client whenever the loop waits. -/
structure Conversing (s : WsSlot) (l : List Deed) : Prop where
  talk : talk l = (told sv l).talk
  shaking : s.used = true → s.isOpen = false →
    Libws.talk l = [] ∧ s.msgBuf = List.replicate sv.maxMessage 0
  live : s.used = true → s.isOpen = true →
    (told sv l).isOver = false ∧ SentOn (told sv l).conn s.conn
  dropped : s.used = false → s.isOpen = true → (told sv l).isOver = true ∨ ∃ d ∈ l, d.Ends

variable {sv} {s s' : WsSlot} {l l' : List Deed}

/-- Nothing is said, and the client is only sent to. -/
theorem Conversing.kept (h : Conversing sv s l) (htalk : Libws.talk l' = Libws.talk l)
    (hgrows : l <+: l') {c : WsConn} (hs : s' = { s with conn := c }) (hc : SentOn s.conn c) :
    Conversing sv s' l' := by
  have htold : told sv l' = told sv l := by rw [told, htalk]; rfl
  subst hs
  refine ⟨?_, fun hu ho => ?_, fun hu ho => ?_, fun hu ho => ?_⟩
  · rw [htold, htalk]
    exact h.talk
  · rw [htalk]
    exact h.shaking hu ho
  · rw [htold]
    exact ⟨(h.live hu ho).1, (h.live hu ho).2.trans hc⟩
  · rw [htold]
    exact (h.dropped hu ho).imp_right fun ⟨d, hd, hends⟩ => ⟨d, hgrows.subset hd, hends⟩

/-- Nothing has been said before the upgrade. -/
theorem Conversing.silent (htalk : Libws.talk l = []) (ho : s.isOpen = false)
    (hbuf : s.used = true → s.msgBuf = List.replicate sv.maxMessage 0) : Conversing sv s l := by
  refine ⟨?_, fun hu _ => ⟨htalk, hbuf hu⟩, fun _ hyes => ?_, fun _ hyes => ?_⟩
  · rw [told, htalk]
    rfl
  · rw [ho] at hyes
    cases hyes
  · rw [ho] at hyes
    cases hyes

/-- A client that is served is not at the end of its dialogue. -/
theorem Conversing.over (h : Conversing sv s l) (hover : (told sv l).isOver = true) :
    s.used = false := by
  cases hu : s.used with
  | false => rfl
  | true =>
      cases ho : s.isOpen with
      | true => exact absurd ((h.live hu ho).1.symm.trans hover) (by decide)
      | false =>
          rw [told, (h.shaking hu ho).1] at hover
          cases hover

variable {i : Fin sv.maxConns} {io io' : WsIo sv.maxConns σ} {g u v : Trace sv.maxConns}

theorem leave_mute {p : Bool × WsIo sv.maxConns σ} (h : Runs (leave i p) v io') :
    ∀ e ∈ v, Mute e := by
  rcases leave_cases h with ⟨-, rfl, -⟩ | ⟨-, rfl, -⟩ <;> simp [Mute]

/-- **A chunk is fed** to a client whose dialogue goes on, and the client is dropped if it ends. -/
theorem Conversing.feed {bytes : List UInt8} {p : Bool × WsIo sv.maxConns σ} (hne : bytes ≠ [])
    (htalk : Libws.talk (life i g) = (told sv (life i g)).talk)
    (ho : (told sv (life i g)).isOver = false)
    (hd : SentOn (told sv (life i g)).conn (io.conns i).conn) (hu : (io.conns i).used = true)
    (hopen : (io.conns i).isOpen = true) (hf : Runs (Libws.feed sv io i bytes) u p)
    (hv : Runs (leave i p) v io') : Conversing sv (io'.conns i) (life i (g ++ (u ++ v))) := by
  obtain ⟨⟨ts, hgive, hsaid⟩, hover, hsent⟩ := feed_says hne hd ho hf
  have htold : Libws.talk (life i (g ++ (u ++ v))) = Libws.talk (life i g) ++ ts := by
    rw [← List.append_assoc, talk_mute (leave_mute hv), hsaid.said]
  have hchunks : chunks ts = [bytes] := by
    obtain ⟨evs, hevs⟩ := Dialogue.give_talk ho bytes
    obtain rfl := List.append_cancel_left (hgive.symm.trans hevs)
    change bytes :: chunks (evs.map .event) = [bytes]
    rw [chunks_events]
  have hnow : told sv (life i (g ++ (u ++ v))) = (told sv (life i g)).give bytes := by
    rw [told, htold, chunks_append, hchunks, dialogue, run_append]
    rfl
  have hused := (hsaid.recon.used i).trans hu
  have hopen' := (hsaid.recon.isOpen i).trans hopen
  have hsame : Libws.talk (life i (g ++ (u ++ v))) = (told sv (life i (g ++ (u ++ v)))).talk := by
    rw [htold, hnow, hgive, htalk]
  rw [← hnow] at hover hsent
  rcases leave_cases hv with ⟨hp, rfl, rfl⟩ | ⟨hp, rfl, rfl⟩
  · refine ⟨hsame, ?_, ?_, fun _ _ => .inl (hover.symm.trans hp)⟩
    · rw [WsIo.set_same]
      exact fun hno => by cases hno
    · rw [WsIo.set_same]
      exact fun hno => by cases hno
  · refine ⟨hsame, fun _ hno => ?_, fun _ _ => ⟨hover.symm.trans hp, hsent⟩, fun hno => ?_⟩
    · rw [hopen'] at hno
      cases hno
    · rw [hused] at hno
      cases hno

/-- The other slots, while one is served. -/
theorem Conversing.others {p : Bool × WsIo sv.maxConns σ} {ts : List Talk}
    (hsaid : Says i io u p.2 ts) (hv : Runs (leave i p) v io') {j : Fin sv.maxConns} (hj : j ≠ i)
    (h : Conversing sv (io.conns j) (life j g)) :
    Conversing sv (io'.conns j) (life j (g ++ (u ++ v))) := by
  obtain ⟨c, hc⟩ := hsaid.recon j
  have hslot : io'.conns j = { io.conns j with conn := c } := by
    rcases leave_cases hv with ⟨-, -, rfl⟩ | ⟨-, -, rfl⟩
    · rw [p.2.set_other _ hj, hc]
    · exact hc
  have hsent := hsaid.sent j hj
  rw [hc] at hsent
  have hmute := leave_mute hv
  refine h.kept ?_ ?_ hslot hsent
  · rw [← List.append_assoc, talk_mute hmute, hsaid.silent j hj]
  · rw [← List.append_assoc]
    exact (hsaid.grows j g).trans (life_mute hmute j _)

/-- Slot `i` changes and nothing is said: the other slots are as before. -/
theorem Conversing.elsewhere (ht : ∀ e ∈ u, Mute e) {j : Fin sv.maxConns} (hj : j ≠ i)
    (h : Conversing sv (io.conns j) (life j g)) (s : WsSlot) :
    Conversing sv ((io.set i s).conns j) (life j (g ++ u)) := by
  rw [io.set_other _ hj]
  exact h.kept (talk_mute ht j g) (life_mute ht j g) rfl .same

/-- After a part `m` that says nothing, a chunk is fed. -/
theorem Conversing.fed {m : Trace sv.maxConns} {bytes : List UInt8}
    {p : Bool × WsIo sv.maxConns σ} (hm : ∀ e ∈ m, Mute e) (hne : bytes ≠ [])
    (hall : ∀ j, j ≠ i → Conversing sv (io.conns j) (life j g))
    (htalk : Libws.talk (life i g) = (told sv (life i g)).talk)
    (ho : (told sv (life i g)).isOver = false)
    (hd : SentOn (told sv (life i g)).conn (io.conns i).conn) (hu : (io.conns i).used = true)
    (hopen : (io.conns i).isOpen = true) (hf : Runs (Libws.feed sv io i bytes) u p)
    (hv : Runs (leave i p) v io') (j : Fin sv.maxConns) :
    Conversing sv (io'.conns j) (life j (g ++ (m ++ (u ++ v)))) := by
  have htold : told sv (life i (g ++ m)) = told sv (life i g) := by rw [told, talk_mute hm]; rfl
  rw [← List.append_assoc]
  by_cases hj : j = i
  · subst hj
    exact .feed hne (by rw [htold, talk_mute hm]; exact htalk) (by rw [htold]; exact ho)
      (by rw [htold]; exact hd) hu hopen hf hv
  · obtain ⟨⟨ts, -, hsaid⟩, -, -⟩ := feed_says hne hd ho hf
    exact ((hall j hj).kept (talk_mute hm j g) (life_mute hm j g) rfl .same).others hsaid hv hj

/-- **One service** of a client keeps what is known of all of them. -/
theorem Conversing.service (hall : ∀ j, Conversing sv (io.conns j) (life j g))
    (hu : (io.conns i).used = true) (hs : Service sv i io u io') :
    ∀ j, Conversing sv (io'.conns j) (life j (g ++ u)) := by
  have hi := hall i
  -- nothing is said, and the client has not been upgraded
  have waiting : ∀ {s : WsSlot} {t : Trace sv.maxConns}, (∀ e ∈ t, Mute e) →
      (io.conns i).isOpen = false → s.isOpen = false →
      (s.used = true → s.msgBuf = (io.conns i).msgBuf) →
      ∀ j, Conversing sv ((io.set i s).conns j) (life j (g ++ t)) := by
    intro s t hmute ho hso hbuf j
    obtain ⟨htalk, hzero⟩ := hi.shaking hu ho
    by_cases hj : j = i
    · subst hj
      rw [WsIo.set_same]
      refine .silent ?_ hso fun hu => (hbuf hu).trans hzero
      rw [talk_mute hmute]
      exact htalk
    · exact .elsewhere hmute hj (hall j) s
  cases hs with
  | wait ho _ => exact waiting (by simp [Mute]) ho ho fun _ => rfl
  | @reject r t s ho hrej hsu hso =>
      refine waiting (fun e he => ?_) ho hso fun hyes => by rw [hsu] at hyes; cases hyes
      have := hrej.mute
      simp only [List.cons_append, List.mem_cons, List.mem_append, List.not_mem_nil, or_false] at he
      rcases he with rfl | he | rfl
      · trivial
      · exact this e he
      · trivial
  | @upgrade r accept rest t u v p _ ho _ hans _ hf hv =>
      obtain ⟨htalk, hzero⟩ := hi.shaking hu ho
      have hstart : told sv (life i g) = .start sv.role sv.maxMessage := by rw [told, htalk]; rfl
      have hmute : ∀ e ∈ (⟨.client i (io.conns i).fd (.read (hsCap - (io.conns i).hslen)), r⟩ :: t :
          Trace sv.maxConns), Mute e := by
        rintro e (_ | ⟨_, he⟩)
        · trivial
        · exact (hans.isWrite e he).mute
      have hconn : ((io.set i (((io.conns i).gather r.val).opened sv.role)).conns i).conn
          = (Dialogue.start sv.role sv.maxMessage).conn := by
        rw [WsIo.set_same, Dialogue.start, ← hzero]
        rfl
      have hother : ∀ j, j ≠ i → Conversing sv
          ((io.set i (((io.conns i).gather r.val).opened sv.role)).conns j) (life j g) := by
        intro j hj
        rw [io.set_other _ hj]
        exact hall j
      rw [List.append_assoc]
      by_cases hne : rest = []
      · subst hne
        obtain ⟨rfl, rfl⟩ := feed_nil hconn hf
        obtain ⟨rfl, rfl⟩ := runs_pure.mp hv
        intro j
        rw [List.append_nil, List.append_nil]
        by_cases hj : j = i
        · subst hj
          have htold : told sv (life j (g ++ (⟨.client j (io.conns j).fd
              (.read (hsCap - (io.conns j).hslen)), r⟩ :: t))) = .start sv.role sv.maxMessage := by
            rw [told, talk_mute hmute, ← told, hstart]
          refine ⟨?_, ?_, fun _ _ => ?_, ?_⟩
          · rw [talk_mute hmute, htold, htalk]
            rfl
          · rw [WsIo.set_same]
            exact fun _ hno => by cases hno
          · rw [htold, hconn]
            exact ⟨rfl, .same⟩
          · rw [WsIo.set_same]
            intro hno
            exact absurd (hu.symm.trans hno) (by decide)
        · exact .elsewhere hmute hj (hall j) _
      · refine .fed hmute hne hother ?_ ?_ ?_ ?_ ?_ hf hv
        · rw [hstart, htalk]
          rfl
        · rw [hstart]
          rfl
        · rw [hstart, hconn]
          exact .same
        · rw [WsIo.set_same]
          exact hu
        · rw [WsIo.set_same]
          rfl
  | @eof r ho hnil =>
      have hmute : ∀ e ∈ ([⟨.client i (io.conns i).fd (.read chunkCap), r⟩,
          ⟨.client i (io.conns i).fd .close, ()⟩] : Trace sv.maxConns), Mute e := by simp [Mute]
      intro j
      by_cases hj : j = i
      · subst hj
        have honly : Only j (io.conns j).fd [⟨.client j (io.conns j).fd (.read chunkCap), r⟩,
            ⟨.client j (io.conns j).fd .close, ()⟩] := .cons _ (.cons _ .nil)
        rw [WsIo.set_same]
        refine ⟨?_, fun hno => (by cases hno), fun hno => (by cases hno), fun _ _ => .inr ?_⟩
        · rw [told, talk_mute hmute]
          exact hi.talk
        · refine ⟨⟨(io.conns j).fd, .read chunkCap, r⟩, ?_, hnil⟩
          rw [life_same honly]
          exact List.mem_append_right _ (List.mem_cons_self ..)
      · exact .elsewhere hmute hj (hall j) _
  | @pump r u v p _ ho hne hf hv =>
      obtain ⟨hover, hsent⟩ := hi.live hu ho
      exact .fed (m := [⟨.client i (io.conns i).fd (.read chunkCap), r⟩]) (by simp [Mute]) hne
        (fun j _ => hall j) hi.talk hover hsent hu ho hf hv

theorem Conversing.arrival (hall : ∀ j, Conversing sv (io.conns j) (life j g))
    (ha : Arrival sv io u io') : ∀ j, Conversing sv (io'.conns j) (life j (g ++ u)) := by
  intro j
  cases ha with
  | failed | refuse =>
      rw [life, run_append]
      exact hall j
  | @seat k fd =>
      rw [life_seat]
      by_cases hkj : k = j
      · subst hkj
        rw [if_pos rfl, WsIo.set_same]
        exact .silent rfl rfl fun _ => rfl
      · rw [if_neg hkj, io.set_other _ (Ne.symm hkj)]
        exact hall j

end Turns

theorem conversing_run {σ : Type} {sv : Server σ} {app : σ} {fds : List Nat}
    {t : Trace sv.maxConns} {io : WsIo sv.maxConns σ}
    (hr : Runs (runLoop sv (wsServe sv app) fds) t io) (i : Fin sv.maxConns) :
    Conversing sv (io.conns i) (life i t) :=
  runLoop_services (P := fun io h => ∀ i, Conversing sv (io.conns i) (life i h))
    (fun _ _ _ _ _ _ hall hu hs => .service hall hu hs) (fun _ _ _ _ hall ha => .arrival hall ha)
    (fun _ => .silent rfl rfl fun hno => by cases hno) hr i

/-- **A client's dialogue.**  Whenever the loop waits, whatever the handler has sent on any
connection and however the writes went: the chunks and events of a client are those of the
driver's loop on its chunks alone, in the same order; only the last event can be a close or an
error; a client that is served has not been closed, and for one that is no longer served the close
is the last deed; a client is dropped when a read gives nothing or its dialogue is over, and an
upgraded client only then; and while it is served its connection is the one of the dialogue, but for
a close that was sent on it. -/
theorem client_dialogue {σ : Type} (sv : Server σ) (app : σ) (fds : List Nat)
    (t : Trace sv.maxConns) (io : WsIo sv.maxConns σ)
    (hr : Runs (runLoop sv (wsServe sv app) fds) t io) (i : Fin sv.maxConns) :
    let l := life i t
    let s := io.conns i
    let d := dialogue sv.role sv.maxMessage (chunks (talk l))
    talk l = d.talk ∧ (∀ x ∈ (talk l).dropLast, x.terminal = false) ∧ ClosedLast s l ∧
      (d.isOver = true ∨ (∃ e ∈ l, e.Ends) → s.used = false) ∧
      (s.isOpen = true → (s.used = false ↔ d.isOver = true ∨ ∃ e ∈ l, e.Ends)) ∧
      (s.used = true → s.isOpen = true → SentOn d.conn s.conn) := by
  intro l s d
  have hc := conversing_run hr i
  have hended := dialogue_ended sv.role sv.maxMessage (chunks (talk l))
  have hdrop : d.isOver = true ∨ (∃ e ∈ l, e.Ends) → s.used = false := by
    rintro (hover | ⟨e, he, hends⟩)
    · exact hc.over hover
    · by_contra hu
      exact unended_run hr i (by simpa using hu) e he hends
  refine ⟨hc.talk, ?_, closedLast_run hr i, hdrop, fun ho => ⟨fun hno => hc.dropped hno ho, hdrop⟩,
    fun hu ho => (hc.live hu ho).2⟩
  rw [hc.talk]
  exact hended.last

/-- The client of `echoRun`, whose next read gives nothing. -/
def endedRun : Trace (echoServer 1).maxConns × WsIo (echoServer 1).maxConns Unit :=
  play (environment [5] [upgradeRequest.take 61, upgradeRequest.drop 61 ++ hiFrame]) []
    (runLoop (echoServer 1) (wsServe (echoServer 1) ()) [3, 5, 5, 5])

theorem client_dialogue_ended :
    let l := life echoSlot endedRun.1
    talk l = [.chunk hiFrame, .event (.message .text [0x48, 0x69])] ∧
      (dialogue .server 64 [hiFrame]).talk = talk l ∧
      (endedRun.2.conns echoSlot).used = false ∧ ClosedLast (endedRun.2.conns echoSlot) l := by
  intro l
  have htalk : talk l = [.chunk hiFrame, .event (.message .text [0x48, 0x69])] := by decide +kernel
  obtain ⟨hd, -, hlast, hdrop, -⟩ := client_dialogue (echoServer 1) () [3, 5, 5, 5] endedRun.1
    endedRun.2 (runs_play _ _ _) echoSlot
  have hend : ∃ e ∈ l, e.Ends := by decide +kernel
  refine ⟨htalk, ?_, hdrop (.inr hend), hlast⟩
  rw [show [hiFrame] = chunks (talk l) by rw [htalk]; rfl]
  exact hd.symm

end Libws
