import Libws.Io.Lives

/-!
# Io — from the request to the first frame

What is known of a client at every point of every run, whatever the handler does.  `Stage s l`
relates a slot to the life of its client: before the upgrade the bytes received are the request so
far and its connection lets nothing be sent; from the upgrade on the whole response has been
written and the bytes behind the request are the ones handed to `ws_conn_recv`.

* `Serve.inv`, `Step.inv`: one step keeps the stages, and shows events and frames only for clients
  that have been upgraded.
* `frames_after_upgrade`: so it is in every run.
* `handshake_segmentation`: and the outcome of the handshake depends on the bytes of the stream
  alone, not on how they are cut into reads.
-/

namespace Libws
open Libws.Support Prog

/-! ### Stages -/

/-- The response has been written, and the bytes behind the request handed on. -/
def Upgraded (l : List Deed) : Prop :=
  ∃ pos accept, FirstAt crlf2 (received l) pos ∧ pos + 4 ≤ hsCap ∧
    computeAccept ((received l).take pos) = some accept ∧ answered l = response accept ∧
    passed l = (received l).drop (pos + 4)

/-- No read is offered an empty buffer. -/
def Rooms (l : List Deed) : Prop := ∀ d ∈ l, ∀ room, d.act = .read room → 0 < room

/-- How far the handshake of a client got. -/
inductive Fate (l : List Deed) : Prop where
  | waiting : findSub (received l) crlf2 = none → answered l = [] → passed l = [] →
      (∀ d ∈ l, d.act ≠ .close) → Fate l
  | upgraded : Upgraded l → Fate l
  | large : findSub (received l) crlf2 = none → hsCap ≤ (received l).length → answered l = [] →
      passed l = [] → Fate l
  | keyless {pos : Nat} : FirstAt crlf2 (received l) pos →
      computeAccept ((received l).take pos) = none → answered l = [] → passed l = [] → Fate l
  | failed {d : Deed} : d ∈ l → d.Failed → Fate l

/-- A slot whose client has not sent the whole request. -/
structure Shaking (s : WsSlot) (l : List Deed) : Prop where
  connecting : s.conn.state = .connecting
  hsbuf : s.hsbuf.length = hsCap
  request : s.request = received l
  hslen : s.hslen = (received l).length
  room : s.hslen < hsCap
  undecided : findSub (received l) crlf2 = none
  answered : answered l = []
  passed : passed l = []
  unclosed : ∀ d ∈ l, d.act ≠ .close

structure Stage (s : WsSlot) (l : List Deed) : Prop where
  fate : Fate l
  rooms : Rooms l
  fd : s.used = true → ∀ d ∈ l, d.fd = s.fd
  opened : s.used = true → s.isOpen = true → Upgraded l
  shaking : s.used = true → s.isOpen = false → Shaking s l

section Stages

variable {s : WsSlot} {l ds : List Deed}

theorem Upgraded.neutral (h : Upgraded l) (hd : Neutral ds) : Upgraded (l ++ ds) := by
  obtain ⟨pos, accept, hpos, hcap, hkey, hans, hpass⟩ := h
  refine ⟨pos, accept, ?_⟩
  rw [received_append, answered_append, passed_append, hd.received, hd.answered, hd.passed,
    List.append_nil, List.append_nil, List.append_nil]
  exact ⟨hpos, hcap, hkey, hans, hpass⟩

theorem crlf2_ne_nil : crlf2 ≠ [] := by decide

theorem firstAt_le {buf : List UInt8} {pos : Nat} (h : FirstAt crlf2 buf pos) :
    pos + 4 ≤ buf.length :=
  length_of_prefix_drop crlf2_ne_nil h.1

/-- Bytes that are read are handed on. -/
theorem Upgraded.pump (h : Upgraded l) {bytes : List UInt8} (hr : received ds = bytes)
    (ha : answered ds = []) (hp : passed ds = bytes) : Upgraded (l ++ ds) := by
  obtain ⟨pos, accept, hpos, hcap, hkey, hans, hpass⟩ := h
  have hle := firstAt_le hpos
  refine ⟨pos, accept, ?_⟩
  rw [received_append, answered_append, passed_append, hr, ha, hp, List.append_nil,
    List.take_append_of_le_length (by omega), List.drop_append_of_le_length hle, hpass]
  exact ⟨hpos.append crlf2_ne_nil bytes, hcap, hkey, hans, rfl⟩

/-- The stage of a slot that is open. -/
theorem Upgraded.stage (h : Upgraded l) (ho : s.isOpen = true)
    (hrooms : Rooms l)
    (hfd : s.used = true → ∀ d ∈ l, d.fd = s.fd) : Stage s l :=
  ⟨.upgraded h, hrooms, hfd, fun _ _ => h, fun _ hno => by simp [ho] at hno⟩

theorem Shaking.stage (h : Shaking s l) (ho : s.isOpen = false)
    (hrooms : Rooms l) (hfd : ∀ d ∈ l, d.fd = s.fd) :
    Stage s l :=
  ⟨.waiting h.undecided h.answered h.passed h.unclosed, hrooms, fun _ => hfd,
    fun _ hyes => by simp [ho] at hyes, fun _ _ => h⟩

theorem Fate.stage (h : Fate l) (hu : s.used = false)
    (hrooms : Rooms l) : Stage s l :=
  ⟨h, hrooms, fun hyes => by simp [hu] at hyes, fun hyes => by simp [hu] at hyes,
    fun hyes => by simp [hu] at hyes⟩

/-- A connection that lets frames be sent is open. -/
theorem Stage.isOpen_of_active (h : Stage s l) (hu : s.used = true)
    (hact : wsLcActive s.conn = true) : s.isOpen = true := by
  by_contra hno
  have := (h.shaking hu (by simpa using hno)).connecting
  simp [wsLcActive, this] at hact

/-- A connection may change as long as it stays as it is before the upgrade. -/
theorem Stage.setConn (h : Stage s l) {c : WsConn}
    (hc : s.used = true → s.isOpen = false → c.state = .connecting) :
    Stage { s with conn := c } l :=
  ⟨h.fate, h.rooms, h.fd, h.opened, fun hu ho =>
    { h.shaking hu ho with connecting := hc hu ho }⟩

theorem Rooms.append (h : Rooms l) (hd : Rooms ds) : Rooms (l ++ ds) := by
  intro d hm
  rcases List.mem_append.mp hm with hm | hm
  · exact h d hm
  · exact hd d hm

theorem Rooms.nil : Rooms [] := fun _ hd => by cases hd

/-- What is not a read needs no room. -/
theorem Rooms.cons {d : Deed} (h : ∀ room, d.act ≠ .read room) (hl : Rooms l) :
    Rooms (d :: l) := by
  intro d' hd room hr
  rcases List.mem_cons.mp hd with rfl | hd
  · exact absurd hr (h room)
  · exact hl d' hd room hr

theorem Rooms.read {fd room : Nat} (r : Act.Answer (.read room)) (h : 0 < room) (hl : Rooms l) :
    Rooms (⟨fd, .read room, r⟩ :: l) := by
  intro d hd room' hr
  rcases List.mem_cons.mp hd with rfl | hd
  · cases hr
    exact h
  · exact hl d hd room' hr

theorem Rooms.writes {fd : Nat} {src : Source}
    (h : ∀ d ∈ l, ∃ bytes w, d = ⟨fd, .write src bytes, w⟩) : Rooms l := by
  intro d hd room hr
  obtain ⟨bytes, w, rfl⟩ := h d hd
  cases hr

theorem fds_append {fd : Nat} (h : ∀ d ∈ l, d.fd = fd) (hd : ∀ d ∈ ds, d.fd = fd) :
    ∀ d ∈ l ++ ds, d.fd = fd := by
  intro d hm
  rcases List.mem_append.mp hm with hm | hm
  · exact h d hm
  · exact hd d hm

end Stages

/-! ### The request -/

section Request

variable {s : WsSlot} {l : List Deed} {r : List UInt8}

/-- Bytes that fit are added to the request. -/
theorem Shaking.gather (h : Shaking s l) (hr : r.length ≤ hsCap - s.hslen) :
    (s.gather r).hsbuf.length = hsCap ∧ (s.gather r).request = received l ++ r ∧
      (s.gather r).hslen = (received l ++ r).length := by
  have hroom := h.room
  have hbuf := h.hsbuf
  have htake : (s.hsbuf.take s.hslen).length = s.hslen := List.length_take_of_le (by omega)
  refine ⟨?_, ?_, ?_⟩
  · simp only [WsSlot.gather, splice, List.length_append, htake, List.length_drop]
    omega
  · have hlen : s.hslen + r.length = (s.hsbuf.take s.hslen ++ r).length := by
      rw [List.length_append, htake]
    rw [← h.request, WsSlot.request, WsSlot.request]
    simp only [WsSlot.gather, splice, hlen, List.take_left]
  · simp only [WsSlot.gather, h.hslen, List.length_append]

/-- The blank line `find_sub` finds in the buffer is the first of the stream. -/
theorem Shaking.found (h : Shaking s l) (hr : r.length ≤ hsCap - s.hslen) {pos : Nat}
    (hpos : findSub (s.gather r).request crlf2 = some pos) :
    FirstAt crlf2 (received l ++ r) pos := by
  rw [(h.gather hr).2.1] at hpos
  exact (findSub_eq_some_iff crlf2_ne_nil).mp hpos

/-- The part of the request in front of the blank line, and the bytes behind it. -/
theorem Shaking.cut (h : Shaking s l) (hr : r.length ≤ hsCap - s.hslen) {pos : Nat}
    (hpos : FirstAt crlf2 (received l ++ r) pos) :
    (s.gather r).hsbuf.take pos = (received l ++ r).take pos ∧
      slice (s.gather r).hsbuf (pos + 4) ((s.gather r).hslen - (pos + 4))
        = (received l ++ r).drop (pos + 4) := by
  obtain ⟨-, hreq, hlen⟩ := h.gather hr
  have hle := firstAt_le hpos
  rw [← hreq, WsSlot.request]
  constructor
  · rw [List.take_take, Nat.min_eq_left (by omega)]
  · rw [slice, List.drop_take]

end Request

/-! ### The invariant -/

/-- The client on `fd` is the one slot `i` was last given, and the whole response has been written
to it. -/
def Ready {n : Nat} (i : Fin n) (fd : Nat) (h : Trace n) : Prop :=
  tenant i h = some fd ∧ (∀ d ∈ life i h, d.fd = fd) ∧
    ∃ accept, answered (life i h) = response accept

/-- After `h` an event is reported, or a frame written, only to a client that is ready for it. -/
def AfterUpgrade {n : Nat} (h : Trace n) : Entry (Req.Answer (n := n)) → Prop
  | ⟨.client i fd (.event _), _⟩ => Ready i fd h
  | ⟨.client i fd (.write .frame _), _⟩ => Ready i fd h
  | _ => True

/-- A history, and one more entry. -/
def snoc {n : Nat} (h : Trace n) (e : Entry (Req.Answer (n := n))) : Trace n := h ++ [e]

theorem run_snoc {n : Nat} (h t : Trace n) : run snoc h t = h ++ t := run_concat h t

section Invariant

variable {n : Nat} {σ : Type}

/-- What every run keeps. -/
structure Inv (io : WsIo n σ) (h : Trace n) : Prop where
  stage : ∀ i, Stage (io.conns i) (life i h)
  tenant : ∀ i, (io.conns i).used = true → tenant i h = some (io.conns i).fd
  good : Guarded snoc AfterUpgrade [] h

variable {io io' : WsIo n σ} {h t : Trace n} {k : Fin n}

/-- A client that is open is ready. -/
theorem Inv.ready (hi : Inv io h) (hu : (io.conns k).used = true)
    (ho : (io.conns k).isOpen = true) : Ready k (io.conns k).fd h := by
  obtain ⟨pos, accept, -, -, -, hans, -⟩ := (hi.stage k).opened hu ho
  exact ⟨hi.tenant k hu, (hi.stage k).fd hu, accept, hans⟩

/-- Something is done for the client of slot `k`. -/
theorem Inv.client (hi : Inv io h) (hother : ∀ j, j ≠ k → io'.conns j = io.conns j)
    (honly : Only k (io.conns k).fd t)
    (hkeep : (io'.conns k).used = true →
      (io.conns k).used = true ∧ (io'.conns k).fd = (io.conns k).fd)
    (hstage : Stage (io'.conns k) (life k h ++ deeds t)) (hgood : Guarded snoc AfterUpgrade h t) :
    Inv io' (h ++ t) := by
  refine ⟨fun j => ?_, fun j hj => ?_, ?_⟩
  · by_cases hjk : j = k
    · subst hjk
      rw [life_same honly]
      exact hstage
    · rw [life_other honly hjk, hother j hjk]
      exact hi.stage j
  · rw [tenant_only honly]
    by_cases hjk : j = k
    · subst hjk
      obtain ⟨hu, hfd⟩ := hkeep hj
      rw [hfd]
      exact hi.tenant j hu
    · rw [hother j hjk] at hj ⊢
      exact hi.tenant j hj
  · refine guarded_append.mpr ⟨hi.good, ?_⟩
    rw [run_snoc, List.nil_append]
    exact hgood

/-- What is done for a client without an event and without a frame: reads that have room, writes
of the answer, bytes handed on, and the close. -/
structure Silent (k : Fin n) (fd : Nat) (t : Trace n) : Prop where
  only : Only k fd t
  rooms : Rooms (deeds t)
  plain : ∀ e ∈ t, ∀ h, AfterUpgrade h e

namespace Silent

variable {fd : Nat} {u : Trace n}

theorem nil : Silent k fd [] := ⟨.nil, .nil, fun _ he => by cases he⟩

theorem read {room : Nat} (r : Act.Answer (.read room)) (hroom : 0 < room) (ht : Silent k fd t) :
    Silent k fd (⟨.client k fd (.read room), r⟩ :: t) := by
  refine ⟨.cons (a := .read room) r ht.only, .read r hroom ht.rooms, fun e he h => ?_⟩
  rcases List.mem_cons.mp he with rfl | he
  · trivial
  · exact ht.plain e he h

theorem recv (bytes : List UInt8) (ht : Silent k fd t) :
    Silent k fd (⟨.client k fd (.recv bytes), ()⟩ :: t) := by
  refine ⟨.cons (a := .recv bytes) () ht.only, .cons (fun room hr => by cases hr) ht.rooms,
    fun e he h => ?_⟩
  rcases List.mem_cons.mp he with rfl | he
  · trivial
  · exact ht.plain e he h

theorem close : Silent k fd [⟨.client k fd .close, ()⟩] := by
  refine ⟨.cons (a := .close) () .nil, .cons (fun room hr => by cases hr) .nil, fun e he h => ?_⟩
  obtain rfl := List.mem_singleton.mp he
  trivial

theorem append (ht : Silent k fd t) (hu : Silent k fd u) : Silent k fd (t ++ u) := by
  refine ⟨ht.only.append hu.only, ?_, fun e he => ?_⟩
  · rw [deeds_append]
    exact ht.rooms.append hu.rooms
  · rcases List.mem_append.mp he with he | he
    · exact ht.plain e he
    · exact hu.plain e he

/-- It is allowed after any history. -/
theorem guarded (ht : Silent k fd t) (h : Trace n) : Guarded snoc AfterUpgrade h t := by
  have hplain := ht.plain
  clear ht
  induction t generalizing h with
  | nil => trivial
  | cons e t ih =>
      exact ⟨hplain e (List.mem_cons_self ..) h,
        ih _ fun e he => hplain e (List.mem_cons_of_mem _ he)⟩

end Silent

theorem Answers.silent {fd : Nat} {accept : List UInt8} {rc : Int}
    (hans : Answers k fd accept t rc) : Silent k fd t := by
  refine ⟨hans.only, .writes hans.mem, fun e he h => ?_⟩
  obtain ⟨a, r, rfl⟩ := hans.only e he
  have hd : (⟨fd, a, r⟩ : Deed) ∈ deeds t := List.mem_filterMap.mpr ⟨_, he, rfl⟩
  obtain ⟨bytes, w, heq⟩ := hans.mem _ hd
  cases heq
  trivial

theorem recvd_silent (k : Fin n) (fd : Nat) (rest : List UInt8) :
    Silent k fd (recvd k fd rest) := by
  rw [recvd]
  split
  · exact .nil
  · exact .recv rest .nil

/-- Nothing but the answer is written before a client is dropped. -/
theorem Rejected.silent {s : WsSlot} {r : List UInt8} (hrej : Rejected k s r t) :
    Silent k s.fd t := by
  cases hrej with
  | ended | large | keyless => exact .nil
  | unwritten hans => exact hans.silent

/-- Frames written to a client that is ready. -/
theorem guarded_frames {fd : Nat} {buf : List UInt8} {rc : Int}
    (hw : Writes k fd .frame buf t rc) (hr : Ready k fd h) : Guarded snoc AfterUpgrade h t := by
  induction hw generalizing h with
  | done => trivial
  | fail => exact ⟨hr, trivial⟩
  | @more buf w t rc _ _ _ ih =>
      refine ⟨hr, ih ?_⟩
      have honly : Only k fd [⟨.client k fd (.write .frame buf), w⟩] :=
        .cons (a := .write .frame buf) w .nil
      obtain ⟨hten, hfd, accept, hans⟩ := hr
      rw [snoc, Ready, tenant_only honly, life_same honly]
      refine ⟨hten, fds_append hfd (deeds_fd honly), accept, ?_⟩
      rw [answered_append, hans]
      exact List.append_nil _

end Invariant

/-! ### One step -/

section Steps

variable {σ : Type} {sv : Server σ} {io io' : WsIo sv.maxConns σ}
  {h t : Trace sv.maxConns} {i : Fin sv.maxConns}

/-- Something is done for the client of a slot that is in use, and it keeps its descriptor. -/
theorem Inv.keeps (hi : Inv io h) (hu : (io.conns i).used = true) {s : WsSlot}
    (hsfd : s.fd = (io.conns i).fd) (honly : Only i (io.conns i).fd t) (hrooms : Rooms (deeds t))
    (hstage : Rooms (life i h ++ deeds t) → (∀ d ∈ life i h ++ deeds t, d.fd = s.fd) →
      Stage s (life i h ++ deeds t))
    (hgood : Guarded snoc AfterUpgrade h t) : Inv (io.set i s) (h ++ t) := by
  have hst := hi.stage i
  refine hi.client (fun j hj => io.set_other s hj) honly (fun _ => ⟨hu, ?_⟩) ?_ hgood
  · rw [WsIo.set_same, hsfd]
  · rw [WsIo.set_same]
    refine hstage (hst.rooms.append hrooms) ?_
    rw [hsfd]
    exact fds_append (hst.fd hu) (deeds_fd honly)

/-- Something is done for a client that is open, and it stays so or leaves. -/
theorem Inv.opened (hi : Inv io h) (hu : (io.conns i).used = true) {s : WsSlot}
    (hso : s.isOpen = true) (hsfd : s.fd = (io.conns i).fd) (honly : Only i (io.conns i).fd t)
    (hup : Upgraded (life i h ++ deeds t)) (hrooms : Rooms (deeds t))
    (hgood : Guarded snoc AfterUpgrade h t) : Inv (io.set i s) (h ++ t) :=
  hi.keeps hu hsfd honly hrooms (fun hr hfd => hup.stage hso hr fun _ => hfd) hgood

/-- What is done is silent. -/
theorem Inv.silent (hi : Inv io h) (hu : (io.conns i).used = true) {s : WsSlot}
    (hso : s.isOpen = true) (hsfd : s.fd = (io.conns i).fd) (ht : Silent i (io.conns i).fd t)
    (hup : Upgraded (life i h ++ deeds t)) : Inv (io.set i s) (h ++ t) :=
  hi.opened hu hso hsfd ht.only hup ht.rooms (ht.guarded h)

/-- A connection of a slot changes. -/
theorem Inv.setConn (hi : Inv io h) {c : WsConn}
    (hc : (io.conns i).used = true → (io.conns i).isOpen = false → c.state = .connecting) :
    Inv (io.setConn i c) h := by
  rw [← List.append_nil h]
  refine hi.client (k := i) (fun j hj => io.set_other _ hj) .nil (fun hu => ?_) ?_ trivial
  · rw [WsIo.setConn_same] at hu ⊢
    exact ⟨hu, rfl⟩
  · rw [WsIo.setConn_same, deeds_nil, List.append_nil]
    exact (hi.stage i).setConn hc

/-- Something is done for a client before it is upgraded, and it leaves. -/
theorem Inv.left (hi : Inv io h) {s : WsSlot} (hs : s.used = false)
    (ht : Silent i (io.conns i).fd t) (hfate : Fate (life i h ++ deeds t)) :
    Inv (io.set i s) (h ++ t) := by
  refine hi.client (fun j hj => io.set_other s hj) ht.only (fun hu => ?_) ?_ (ht.guarded h)
  · rw [WsIo.set_same, hs] at hu
    cases hu
  · rw [WsIo.set_same]
    exact hfate.stage hs ((hi.stage i).rooms.append ht.rooms)

/-- Something is done for a client before it is upgraded, and it waits on. -/
theorem Inv.waits (hi : Inv io h) (hu : (io.conns i).used = true) {s : WsSlot}
    (hso : s.isOpen = false) (hsfd : s.fd = (io.conns i).fd) (ht : Silent i (io.conns i).fd t)
    (hsh : Shaking s (life i h ++ deeds t)) : Inv (io.set i s) (h ++ t) :=
  hi.keeps hu hsfd ht.only ht.rooms (fun hr hfd => hsh.stage hso hr hfd) (ht.guarded h)

/-- A read of a request leaves the response unwritten, and hands nothing on. -/
theorem read_deed (l : List Deed) (fd room : Nat) (r : Act.Answer (.read room)) :
    received (l ++ [⟨fd, .read room, r⟩]) = received l ++ r.val ∧
      answered (l ++ [⟨fd, .read room, r⟩]) = answered l ∧
      passed (l ++ [⟨fd, .read room, r⟩]) = passed l := by
  refine ⟨?_, ?_, ?_⟩
  · rw [received_append]
    simp [received]
  · rw [answered_append]
    exact List.append_nil _
  · rw [passed_append]
    exact List.append_nil _

/-- The request is not complete yet. -/
theorem Shaking.wait {s : WsSlot} {l : List Deed} (hsh : Shaking s l)
    {r : { bs : List UInt8 // bs.length ≤ hsCap - s.hslen }}
    (hnone : findSub (s.gather r.val).request crlf2 = none)
    (hroom : (s.gather r.val).hslen < hsCap) :
    Shaking (s.gather r.val) (l ++ [⟨s.fd, .read (hsCap - s.hslen), r⟩]) := by
  obtain ⟨hbuf, hreq, hlen⟩ := hsh.gather r.property
  obtain ⟨hr, ha, hp⟩ := read_deed l s.fd (hsCap - s.hslen) r
  refine ⟨hsh.connecting, hbuf, hreq.trans hr.symm, hlen.trans (by rw [hr]), hroom, ?_,
    ha.trans hsh.answered, hp.trans hsh.passed, ?_⟩
  · rw [hr, ← hreq]
    exact hnone
  · intro d hd
    rcases List.mem_append.mp hd with hd | hd
    · exact hsh.unclosed d hd
    · obtain rfl := List.mem_singleton.mp hd
      exact fun hno => by cases hno

theorem close_neutral (fd : Nat) : Neutral [⟨fd, .close, ()⟩] := ⟨rfl, rfl, rfl⟩

/-- The bytes behind the request, handed to `ws_conn_recv` if there are any. -/
theorem deeds_recvd (fd : Nat) (rest : List UInt8) :
    received (deeds (recvd i fd rest)) = [] ∧ answered (deeds (recvd i fd rest)) = [] ∧
      passed (deeds (recvd i fd rest)) = rest := by
  rw [recvd]
  split
  · rename_i hnil
    exact ⟨rfl, rfl, hnil.symm⟩
  · exact ⟨rfl, rfl, List.append_nil _⟩

/-- The stream of the client has a request, which asks for this accept. -/
def Asked (l : List Deed) (accept : List UInt8) : Prop :=
  ∃ pos, FirstAt crlf2 (received l) pos ∧ computeAccept ((received l).take pos) = some accept

theorem Asked.append {l : List Deed} {accept : List UInt8} (ha : Asked l accept) (m : List Deed) :
    Asked (l ++ m) accept := by
  obtain ⟨pos, hpos, hkey⟩ := ha
  have hle := firstAt_le hpos
  refine ⟨pos, ?_⟩
  rw [received_append, List.take_append_of_le_length (by omega)]
  exact ⟨hpos.append crlf2_ne_nil _, hkey⟩

/-- What the server finds in its buffer is what the client asks for. -/
theorem Shaking.asked {s : WsSlot} {l : List Deed} (hsh : Shaking s l)
    {r : { bs : List UInt8 // bs.length ≤ hsCap - s.hslen }} {pos : Nat} {accept : List UInt8}
    (hpos : findSub (s.gather r.val).request crlf2 = some pos)
    (hkey : computeAccept ((s.gather r.val).hsbuf.take pos) = some accept) :
    Asked (l ++ [⟨s.fd, .read (hsCap - s.hslen), r⟩]) accept := by
  have hfirst := hsh.found r.property hpos
  refine ⟨pos, ?_⟩
  rw [(read_deed l s.fd (hsCap - s.hslen) r).1, ← (hsh.cut r.property hfirst).1]
  exact ⟨hfirst, hkey⟩

/-- **The upgrade.** -/
theorem Shaking.upgrade {s : WsSlot} {l : List Deed} (hsh : Shaking s l)
    {r : { bs : List UInt8 // bs.length ≤ hsCap - s.hslen }} {pos : Nat}
    {accept rest : List UInt8} {u : Trace sv.maxConns}
    (hpos : findSub (s.gather r.val).request crlf2 = some pos)
    (hkey : computeAccept ((s.gather r.val).hsbuf.take pos) = some accept)
    (hans : Answers i s.fd accept u 0)
    (hrest : rest = slice (s.gather r.val).hsbuf (pos + 4) ((s.gather r.val).hslen - (pos + 4))) :
    Upgraded (l ++ deeds (⟨.client i s.fd (.read (hsCap - s.hslen)), r⟩ :: u
      ++ recvd i s.fd rest)) := by
  replace hpos := hsh.found r.property hpos
  obtain ⟨htake, hslice⟩ := hsh.cut r.property hpos
  obtain ⟨hr₀, ha₀, hp₀⟩ := read_deed l s.fd (hsCap - s.hslen) r
  obtain ⟨hr₁, hp₁⟩ := received_writes hans.mem
  obtain ⟨hr₂, ha₂, hp₂⟩ := deeds_recvd (i := i) s.fd rest
  have ha₁ : Libws.answered (deeds u) = response accept := by
    rcases hans.answered with ⟨-, ha⟩ | ⟨hne, -⟩
    · exact ha
    · exact absurd rfl hne
  have hsplit : l ++ deeds (⟨.client i s.fd (.read (hsCap - s.hslen)), r⟩ :: u
      ++ recvd i s.fd rest)
      = (l ++ [⟨s.fd, .read (hsCap - s.hslen), r⟩]) ++ deeds u ++ deeds (recvd i s.fd rest) := by
    simp
  have hle := firstAt_le hpos
  refine ⟨pos, accept, ?_⟩
  rw [hsplit, received_append, received_append, answered_append, answered_append, passed_append,
    passed_append, hr₀, hr₁, hr₂, ha₀, ha₁, ha₂, hp₀, hp₁, hp₂, hsh.answered, hsh.passed]
  simp only [List.append_nil, List.nil_append]
  refine ⟨hpos, ?_, ?_, trivial, ?_⟩
  · have := r.property
    have hroom := hsh.room
    rw [List.length_append, ← hsh.hslen] at hle
    omega
  · rw [← htake]
    exact hkey
  · rw [hrest, hslice]

/-- **A handshake that fails.** -/
theorem Shaking.reject {s : WsSlot} {l : List Deed} (hsh : Shaking s l)
    {r : { bs : List UInt8 // bs.length ≤ hsCap - s.hslen }} {u : Trace sv.maxConns}
    (hrej : Rejected i s r.val u) :
    Fate (l ++ deeds (⟨.client i s.fd (.read (hsCap - s.hslen)), r⟩ :: u
      ++ [⟨.client i s.fd .close, ()⟩])) := by
  obtain ⟨hbuf, hreq, hlen⟩ := hsh.gather r.property
  obtain ⟨hr₀, ha₀, hp₀⟩ := read_deed l s.fd (hsCap - s.hslen) r
  have hsplit : l ++ deeds (⟨.client i s.fd (.read (hsCap - s.hslen)), r⟩ :: u
      ++ [⟨.client i s.fd .close, ()⟩])
      = (l ++ [⟨s.fd, .read (hsCap - s.hslen), r⟩]) ++ deeds u ++ [⟨s.fd, .close, ()⟩] := by
    simp
  -- without a write the bytes are those of the request
  have hquiet : u = [] →
      let l' := (l ++ [⟨s.fd, .read (hsCap - s.hslen), r⟩]) ++ deeds u ++ [⟨s.fd, .close, ()⟩]
      received l' = received l ++ r.val ∧ Libws.answered l' = [] ∧ Libws.passed l' = [] := by
    rintro rfl
    simp only [received_append, answered_append, passed_append, hr₀, ha₀, hp₀, deeds_nil,
      hsh.answered, hsh.passed]
    exact ⟨by rw [(close_neutral s.fd).received]; simp [received], rfl, rfl⟩
  rw [hsplit]
  cases hrej with
  | ended hnil =>
      exact .failed (d := ⟨s.fd, .read (hsCap - s.hslen), r⟩) (by simp) hnil
  | large hnone hfull =>
      obtain ⟨hr, ha, hp⟩ := hquiet rfl
      refine .large ?_ ?_ ha hp
      · rw [hr, ← hreq]
        exact hnone
      · rw [hr, ← hlen]
        exact hfull
  | @keyless pos hpos hkey =>
      obtain ⟨hr, ha, hp⟩ := hquiet rfl
      have hfirst := hsh.found r.property hpos
      refine Fate.keyless (?_ : FirstAt crlf2 _ pos) ?_ ha hp
      · rw [hr]
        exact hfirst
      · rw [hr, ← (hsh.cut r.property hfirst).1]
        exact hkey
  | unwritten hans hrc =>
      rcases hans.answered with ⟨hz, -⟩ | ⟨-, d, hd, hf⟩
      · exact absurd hz hrc
      · exact .failed (d := d) (by simp [hd]) hf

/-- **One step of serving a client** keeps the invariant. -/
theorem Serve.inv {T : Fin sv.maxConns → Prop} (hs : Serve sv T i io t io') (hi : Inv io h) :
    Inv io' (h ++ t) := by
  have hst := hi.stage
  cases hs with
  | app =>
      rw [List.append_nil]
      exact ⟨hi.stage, hi.tenant, hi.good⟩
  | @sendClose j _ ho =>
      rw [List.append_nil]
      refine hi.setConn fun hu hno => ?_
      have := ((hst j).shaking hu hno).connecting
      rw [ho] at this
      cases this
  | @frame j bytes _ rc _ hu hact hw =>
      have ho := (hst j).isOpen_of_active hu hact
      have := hi.opened hu ho rfl hw.only (((hst j).opened hu ho).neutral (neutral_frames hw.mem))
        (.writes hw.mem) (guarded_frames hw (hi.ready hu ho))
      rwa [WsIo.set_self] at this
  | poll hu ho =>
      rw [List.append_nil]
      exact hi.setConn fun _ hno => by simp [ho] at hno
  | @event ev hu ho =>
      have := hi.opened (t := [⟨.client i (io.conns i).fd (.event ev), ()⟩]) hu ho rfl
        (.cons (a := .event ev) () .nil) (((hst i).opened hu ho).neutral ⟨rfl, rfl, rfl⟩)
        (.cons (fun room hr => by cases hr) .nil) ⟨hi.ready hu ho, trivial⟩
      rwa [WsIo.set_self] at this
  | @eof r hu ho hnil =>
      have hneutral : Neutral [⟨(io.conns i).fd, .read chunkCap, r⟩] :=
        ⟨by simp [received, hnil], rfl, rfl⟩
      have := hi.silent hu ho rfl (.read r (by decide) .nil)
        (((hst i).opened hu ho).neutral hneutral)
      rwa [WsIo.set_self] at this
  | @pump r hu ho =>
      have hreceived : received [⟨(io.conns i).fd, .read chunkCap, r⟩,
          ⟨(io.conns i).fd, .recv r.val, ()⟩] = r.val := by simp [received]
      have hpassed : passed [⟨(io.conns i).fd, .read chunkCap, r⟩,
          ⟨(io.conns i).fd, .recv r.val, ()⟩] = r.val := by simp [passed]
      exact hi.silent hu ho rfl (.read r (by decide) (.recv r.val .nil))
        (((hst i).opened hu ho).pump hreceived rfl hpassed)
  | close hu ho =>
      exact hi.silent hu ho rfl .close (((hst i).opened hu ho).neutral (close_neutral _))
  | @wait r hu ho _ hnone hroom =>
      have hsh := (hst i).shaking hu ho
      exact hi.waits hu ho rfl (.read r (Nat.sub_pos_of_lt hsh.room) .nil)
        (hsh.wait hnone hroom)
  | @upgrade r pos accept rest u hu ho _ hpos hkey hans hrest =>
      have hsh := (hst i).shaking hu ho
      have hread := hans.silent.read r (Nat.sub_pos_of_lt hsh.room)
      exact hi.silent hu rfl rfl (hread.append (recvd_silent i _ rest))
        (hsh.upgrade hpos hkey hans hrest)
  | @quit r u s hu ho hrej hsu =>
      have hsh := (hst i).shaking hu ho
      have hread := hrej.silent.read r (Nat.sub_pos_of_lt hsh.room)
      exact hi.left hsu (hread.append .close) (hsh.reject hrej)

/-- A client that has just been accepted. -/
theorem shaking_seat (maxMessage fd : Nat) : Shaking (.mk₀ maxMessage fd true) [] where
  connecting := rfl
  hsbuf := List.length_replicate
  request := rfl
  hslen := rfl
  room := Nat.zero_lt_succ _
  undecided := by decide
  answered := rfl
  passed := rfl
  unclosed := fun _ hd => by cases hd

/-- **One step of the loop** keeps the invariant. -/
theorem Step.inv {T : Fin sv.maxConns → Fin sv.maxConns → Prop} (hs : Step sv T io t io')
    (hi : Inv io h) : Inv io' (h ++ t) := by
  have hgood : Guarded snoc AfterUpgrade h t → Guarded snoc AfterUpgrade [] (h ++ t) := by
    intro ht
    refine guarded_append.mpr ⟨hi.good, ?_⟩
    rw [run_snoc, List.nil_append]
    exact ht
  -- calls that are about no client change no life
  have hidle : ∀ {u : Trace sv.maxConns}, (∀ i, life i (h ++ u) = life i h) →
      (∀ i, tenant i (h ++ u) = tenant i h) → Guarded snoc AfterUpgrade [] (h ++ u) →
      Inv io (h ++ u) := fun hl hten hg =>
    ⟨fun i => by rw [hl]; exact hi.stage i, fun i hu => by rw [hten]; exact hi.tenant i hu, hg⟩
  cases hs with
  | accept ha =>
      cases ha with
      | failed =>
          exact hidle (fun i => by rw [life, run_append]; rfl)
            (fun i => by rw [tenant, run_append]; rfl) (hgood ⟨trivial, trivial⟩)
      | refuse =>
          exact hidle (fun i => by rw [life, run_append]; rfl)
            (fun i => by rw [tenant, run_append]; rfl) (hgood ⟨trivial, trivial, trivial⟩)
      | @seat j fd =>
          refine ⟨fun i => ?_, fun i hu => ?_, hgood ⟨trivial, trivial, trivial⟩⟩
          · rw [life_seat]
            by_cases hij : j = i
            · subst hij
              rw [if_pos rfl, WsIo.set_same]
              exact (shaking_seat sv.maxMessage fd).stage rfl .nil fun d hd => by cases hd
            · rw [if_neg hij, io.set_other _ (Ne.symm hij)]
              exact hi.stage i
          · rw [tenant_seat]
            by_cases hij : j = i
            · subst hij
              rw [if_pos rfl, WsIo.set_same]
              rfl
            · rw [if_neg hij]
              rw [io.set_other _ (Ne.symm hij)] at hu ⊢
              exact hi.tenant i hu
  | serve i hs => exact hs.inv hi

theorem inv_run {app : σ} {fds : List Nat}
    (hr : Runs (runLoop sv (wsServe sv app) fds) t io) : Inv io t := by
  refine runLoop_inv (fun io h t io' hi hs => hs.inv hi) ⟨fun i => ?_, fun i hu => ?_, trivial⟩ hr
  · exact (Fate.waiting (l := []) (by decide) rfl rfl fun d hd => by cases hd).stage rfl .nil
  · cases hu

end Steps

/-! ### Runs -/

/-- **No event and no frame before the upgrade.**  In every run, with any handler, an event is
reported for a connection, and a frame written to its descriptor, only after the whole 101
response has been written to that descriptor since its slot was given to it. -/
theorem frames_after_upgrade {σ : Type} (sv : Server σ) (app : σ) (fds : List Nat)
    (t : Trace sv.maxConns) (io : WsIo sv.maxConns σ)
    (hr : Runs (runLoop sv (wsServe sv app) fds) t io) (i : Fin sv.maxConns) (fd : Nat)
    (h u : Trace sv.maxConns) :
    (∀ ev r, t = h ++ ⟨.client i fd (.event ev), r⟩ :: u → Ready i fd h) ∧
    (∀ bytes w, t = h ++ ⟨.client i fd (.write .frame bytes), w⟩ :: u → Ready i fd h) := by
  have hgood : ∀ e, t = h ++ e :: u → AfterUpgrade h e := by
    rintro e rfl
    have := (guarded_append.mp (inv_run hr).good).2.1
    rwa [run_snoc] at this
  exact ⟨fun ev r heq => hgood _ heq, fun bytes w heq => hgood _ heq⟩

/-- One client, whose request arrives in two reads.  The cut is inside the blank line, and the
message comes with the second read. -/
def echoRun : Trace (echoServer 1).maxConns × WsIo (echoServer 1).maxConns Unit :=
  play (environment [5] [upgradeRequest.take 61, upgradeRequest.drop 61 ++ hiFrame]) []
    (runLoop (echoServer 1) (wsServe (echoServer 1) ()) [3, 5, 5])

def echoSlot : Fin (echoServer 1).maxConns := ⟨0, by decide⟩

theorem frames_after_upgrade_echo :
    echoRun.1[9]?.map Sigma.fst
      = some (.client echoSlot 5 (.write .frame [0x81, 0x02, 0x48, 0x69])) ∧
    Ready echoSlot 5 (echoRun.1.take 9) := by
  have hat : echoRun.1[9]?.map Sigma.fst
      = some (.client echoSlot 5 (.write .frame [0x81, 0x02, 0x48, 0x69])) := by decide +kernel
  refine ⟨hat, ?_⟩
  obtain ⟨⟨_, w⟩, hget, rfl⟩ := Option.map_eq_some_iff.mp hat
  obtain ⟨hlt, hget⟩ := List.getElem?_eq_some_iff.mp hget
  have hcut : echoRun.1 = echoRun.1.take 9 ++
      ⟨.client echoSlot 5 (.write .frame [0x81, 0x02, 0x48, 0x69]), w⟩ :: echoRun.1.drop 10 := by
    rw [← hget, ← List.drop_eq_getElem_cons, List.take_append_drop]
  exact (frames_after_upgrade (echoServer 1) () [3, 5, 5] echoRun.1 echoRun.2 (runs_play _ _ _)
    echoSlot 5 _ _).2 _ w hcut

theorem response_ne_nil (accept : List UInt8) : response accept ≠ [] := by
  simp [response, crlf2]

theorem response_inj {a b : List UInt8} (h : response a = response b) : a = b := by
  simpa [response] using h

/-- A client without failures and without more to deliver before it is closed was left alone, and
its stream asks for no response, or has got the response its stream asks for. -/
theorem Fate.settled {l : List Deed} {rest : List UInt8} (hfate : Fate l)
    (hok : ∀ d ∈ l, ¬ d.Failed)
    (hall : received l = received l ++ rest ∨ ∃ d ∈ l, d.act = .close) :
    (answered l = [] ∧ passed l = [] ∧
      ∀ pos, FirstAt crlf2 (received l ++ rest) pos → pos + 4 ≤ hsCap →
        computeAccept ((received l ++ rest).take pos) = none) ∨
    ∃ pos accept, FirstAt crlf2 (received l ++ rest) pos ∧ pos + 4 ≤ hsCap ∧
      computeAccept ((received l ++ rest).take pos) = some accept ∧
      answered l = response accept ∧ passed l = (received l).drop (pos + 4) ∧
      pos + 4 ≤ (received l).length := by
  cases hfate with
  | waiting hnone ha hp hopen =>
      refine .inl ⟨ha, hp, fun pos hpos _ => ?_⟩
      rcases hall with hall | ⟨d, hd, hclose⟩
      · rw [← hall] at hpos
        exact absurd hpos.1 ((findSub_eq_none_iff crlf2_ne_nil).mp hnone pos)
      · exact absurd hclose (hopen d hd)
  | large hnone hfull ha hp =>
      refine .inl ⟨ha, hp, fun pos hpos hcap => ?_⟩
      have hin : pos + crlf2.length ≤ (received l).length := Nat.le_trans hcap hfull
      exact absurd ((prefix_drop_append hin).mp hpos.1)
        ((findSub_eq_none_iff crlf2_ne_nil).mp hnone pos)
  | @keyless pos hpos hkey ha hp =>
      refine .inl ⟨ha, hp, fun pos' hpos' _ => ?_⟩
      obtain rfl := (hpos.append crlf2_ne_nil rest).unique hpos'
      have hle := firstAt_le hpos
      rw [List.take_append_of_le_length (by omega)]
      exact hkey
  | failed hd hf => exact absurd hf (hok _ hd)
  | upgraded hup =>
      obtain ⟨pos, accept, hpos, hcap, hkey, ha, hp⟩ := hup
      have hle := firstAt_le hpos
      have htake : (received l ++ rest).take pos = (received l).take pos :=
        List.take_append_of_le_length (by omega)
      rw [← htake] at hkey
      exact .inr ⟨pos, accept, hpos.append crlf2_ne_nil rest, hcap, hkey, ha, hp, hle⟩

/-- **The handshake does not depend on how the request is cut.**  Let a client's stream be
delivered in any reads, none of them empty, with no write failing, until it is all delivered or
the slot is closed.  The 101 response is written if and only if the first blank line of the stream
ends within 2048 bytes and `compute_accept` succeeds on what stands in front of it, and then with
that accept; no read is offered an empty buffer; and the bytes handed to `ws_conn_recv` are those
delivered behind that blank line, a prefix of the stream behind it, and none if the response is
not written. -/
theorem handshake_segmentation {σ : Type} (sv : Server σ) (app : σ) (fds : List Nat)
    (t : Trace sv.maxConns) (io : WsIo sv.maxConns σ)
    (hr : Runs (runLoop sv (wsServe sv app) fds) t io) (i : Fin sv.maxConns)
    (stream : List UInt8) (hok : ∀ d ∈ life i t, ¬ d.Failed)
    (hpre : received (life i t) <+: stream)
    (hall : received (life i t) = stream ∨ ∃ d ∈ life i t, d.act = .close) :
    (∀ accept, answered (life i t) = response accept ↔
      ∃ pos, FirstAt crlf2 stream pos ∧ pos + 4 ≤ 2048 ∧
        computeAccept (stream.take pos) = some accept) ∧
    (∀ d ∈ life i t, ∀ room, d.act = .read room → 0 < room) ∧
    (∀ pos, FirstAt crlf2 stream pos → (∃ accept, answered (life i t) = response accept) →
      passed (life i t) = (received (life i t)).drop (pos + 4) ∧
        passed (life i t) <+: stream.drop (pos + 4)) ∧
    ((∀ accept, answered (life i t) ≠ response accept) → passed (life i t) = []) := by
  have hst := (inv_run hr).stage i
  obtain ⟨rest, rfl⟩ := hpre
  generalize life i t = l at *
  rcases hst.fate.settled hok hall with
    ⟨ha, hp, hno⟩ | ⟨pos, accept, hpos, hcap, hkey, ha, hp, hle⟩
  · have hsilent : ∀ accept, answered l ≠ response accept := by
      intro accept h
      exact response_ne_nil accept (h.symm.trans ha)
    refine ⟨fun accept => ⟨fun h => absurd h (hsilent accept), ?_⟩, hst.rooms, ?_, fun _ => hp⟩
    · rintro ⟨pos, hpos, hcap, hkey⟩
      rw [hno pos hpos hcap] at hkey
      cases hkey
    · rintro pos - ⟨accept, h⟩
      exact absurd h (hsilent accept)
  · refine ⟨fun accept' => ⟨fun h => ?_, ?_⟩, hst.rooms, ?_, ?_⟩
    · obtain rfl := response_inj (ha.symm.trans h)
      exact ⟨pos, hpos, hcap, hkey⟩
    · rintro ⟨pos', hpos', -, hkey'⟩
      obtain rfl := hpos.unique hpos'
      rw [hkey] at hkey'
      cases hkey'
      exact ha
    · rintro pos' hpos' -
      obtain rfl := hpos.unique hpos'
      rw [List.drop_append_of_le_length hle, hp]
      exact ⟨rfl, List.prefix_append ..⟩
    · intro hno
      exact absurd ha (hno accept)

instance : (d : Deed) → Decidable d.Failed
  | ⟨_, .read _, r⟩ => inferInstanceAs (Decidable (r.val = []))
  | ⟨_, .write _ _, w⟩ => inferInstanceAs (Decidable (w.val = 0))
  | ⟨_, .recv _, _⟩ | ⟨_, .event _, _⟩ | ⟨_, .close, _⟩ => .isFalse id

theorem handshake_segmentation_echo :
    answered (life echoSlot echoRun.1) = response (bytesOf "s3pPLMBiTxaQ9kYGzzhZRbK+xOo=") ∧
      passed (life echoSlot echoRun.1) = hiFrame := by
  have hat : FirstAt crlf2 (upgradeRequest ++ hiFrame) 59 :=
    (findSub_eq_some_iff crlf2_ne_nil).mp (by decide +kernel)
  have hkey : computeAccept ((upgradeRequest ++ hiFrame).take 59)
      = some (bytesOf "s3pPLMBiTxaQ9kYGzzhZRbK+xOo=") := by decide +kernel
  have hall : received (life echoSlot echoRun.1) = upgradeRequest ++ hiFrame := by decide +kernel
  obtain ⟨hiff, -, hpass, -⟩ := handshake_segmentation (echoServer 1) () [3, 5, 5] echoRun.1
    echoRun.2 (runs_play _ _ _) echoSlot (upgradeRequest ++ hiFrame) (by decide +kernel)
    (by rw [hall]) (.inl hall)
  have hans := (hiff _).mpr ⟨59, hat, by decide, hkey⟩
  refine ⟨hans, ?_⟩
  rw [(hpass 59 hat ⟨_, hans⟩).1, hall]
  decide +kernel

end Libws
