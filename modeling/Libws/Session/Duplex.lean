import Libws.Session.Closing
import Libws.Session.Items

/-!
# Session — two endpoints and the bytes between them

A client and a server over two byte streams.  Each may send, take any number of the bytes that are
on their way to it, or poll, and the moves of the two interleave in any order.  A `Endpoint` is one
endpoint with the bytes on their way to it, what its peer has sent so far and what it has seen.

`Lane` is the invariant of one direction: what was sent falls into what the endpoint has seen and
the rest, of which the first bytes are in its buffer and the others on their way.

* `Lane.send`, `Lane.recv`, `Lane.poll`: the three moves.
* `duplex_paced`: **no endpoint fails, and each sees the first items its peer sent**, in order,
  as long as no chunk reaches past the end of a frame.
* `duplex_stopAndWait`: the same for any chunks, when an endpoint sends only after its peer has
  taken all it sent before.
-/

namespace Libws
open Libws.Support

/-! ### The system -/

/-- An item on its way, and the bytes it went out as. -/
structure Packet where
  item : Item
  bytes : List UInt8
  deriving DecidableEq, Repr

/-- An endpoint, the bytes on their way to it, what its peer has sent and what it has seen. -/
structure Endpoint where
  conn : WsConn
  wire : List UInt8
  sent : List Packet
  seen : List Event
  deriving DecidableEq, Repr

/-- The two endpoints. -/
abbrev Net := WsRole → Endpoint

/-- Both endpoints after the handshake. -/
def Net.start (bufs : WsRole → MsgBuf 64) : Net := fun role =>
  ⟨wsConnOpen (wsConnInit role (bufs role).bytes), [], [], []⟩

inductive Move where
  | send (role : WsRole) (key : MaskKey) (item : Item) (out : List UInt8)
  | recv (role : WsRole) (n : Nat)
  | poll (role : WsRole)
  deriving DecidableEq, Repr

/-- The sender's side of a send. -/
def Endpoint.send (l : Endpoint) (key : MaskKey) (item : Item) (out : List UInt8) : Endpoint :=
  { l with conn := (Libws.send l.conn key out item).2 }

/-- The receiver's side: a frame that was written is on its way. -/
def Endpoint.arrive (l : Endpoint) (item : Item) (b : Built) : Endpoint :=
  if b.n = 0 then l
  else { l with wire := l.wire ++ b.bytes, sent := l.sent ++ [⟨item, b.bytes⟩] }

/-- Bytes for which `ws_conn_recv` returns an error stay on their way. -/
def Endpoint.recv (l : Endpoint) (n : Nat) : Endpoint :=
  let r := wsConnRecv 64 l.conn (l.wire.take n)
  { l with conn := r.2, wire := if r.1 < 0 then l.wire else l.wire.drop n }

def Endpoint.poll (l : Endpoint) : Endpoint :=
  { l with
    conn := (wsConnPoll 64 l.conn).conn
    seen := l.seen ++ [(wsConnPoll 64 l.conn).event].filter fun e => e.type ≠ .none }

theorem Endpoint.arrive_conn (l : Endpoint) (item : Item) (b : Built) :
    (l.arrive item b).conn = l.conn := by
  rw [Endpoint.arrive]
  split <;> rfl

def Net.step (net : Net) : Move → Net
  | .send role key item out =>
    let b := (Libws.send (net role).conn key out item).1
    Function.update (Function.update net role ((net role).send key item out)) role.opposite
      ((net role.opposite).arrive item b)
  | .recv role n => Function.update net role ((net role).recv n)
  | .poll role => Function.update net role (net role).poll

/-! ### What is asked of the applications -/

/-- A valid item, sent before any close. -/
def Proper (l : Endpoint) (item : Item) (out : List UInt8) : Prop :=
  l.conn.state = .open ∧ item.Valid ∧ out.length < 2 ^ 64

/-- The length of the chunk is an `int`, and the sum `ws_conn_recv` tests does not wrap around. -/
def Counted (l : Endpoint) (n : Nat) : Prop :=
  (l.wire.take n).length < 2147483648 ∧ NoWrap 64 l.conn (.recv (l.wire.take n))

/-- Proper sends, and chunks that do not reach past the end of a frame. -/
def Paced (net : Net) : Move → Prop
  | .send role _ item out => Proper (net role) item out
  | .recv role n => Counted (net role) n ∧ ∀ m < ((net role).wire.take n).length,
      ¬ HoldsFrame (rawBytes (net role).conn ++ (net role).wire.take m)
  | .poll _ => True

/-- Proper sends, each after the peer has taken all that was sent before; any chunks. -/
def StopAndWait (net : Net) : Move → Prop
  | .send role _ item out => Proper (net role) item out ∧
      (net role.opposite).wire = [] ∧ (net role.opposite).conn.rxLen = 0
  | .recv role n => Counted (net role) n
  | .poll _ => True

instance (l : Endpoint) (item : Item) (out : List UInt8) : Decidable (Proper l item out) :=
  inferInstanceAs (Decidable (_ ∧ _ ∧ _))

instance (l : Endpoint) (n : Nat) : Decidable (Counted l n) := inferInstanceAs (Decidable (_ ∧ _))

instance : DecidablePred HoldsFrame := fun bs =>
  match h : wsParseHeader bs .zero with
  | .error _ => .isFalse fun ⟨_, _, hp, _⟩ => by rw [h] at hp; cases hp
  | .ok (n, hd) => decidable_of_iff (n + hd.payloadLen.toNat ≤ bs.length)
    ⟨fun hle => ⟨n, hd, h, hle⟩, fun ⟨_, _, hp, hle⟩ => by rw [h] at hp; cases hp; exact hle⟩

instance (net : Net) : (move : Move) → Decidable (Paced net move)
  | .send role _ item out => inferInstanceAs (Decidable (Proper (net role) item out))
  | .recv _ _ => inferInstanceAs (Decidable (_ ∧ _))
  | .poll _ => .isTrue trivial

instance (net : Net) : (move : Move) → Decidable (StopAndWait net move)
  | .send _ _ _ _ => inferInstanceAs (Decidable (_ ∧ _ ∧ _))
  | .recv role n => inferInstanceAs (Decidable (Counted (net role) n))
  | .poll _ => .isTrue trivial

/-! ### One direction -/

def Item.IsClose (i : Item) : Prop := ∃ code, i = .close code

theorem Item.event_type (i : Item) : i.event.type ≠ .none := by
  cases i with
  | message op payload =>
      rw [Item.event]
      split
      · simp [Event.ping]
      · simp [Event.message]
  | pong => simp [Item.event, Event.pong]
  | close => simp [Item.event, Event.close]

theorem Item.isClose_iff (i : Item) : i.IsClose ↔ i.event.type = .close := by
  cases i with
  | message op payload =>
      rw [Item.event, Item.IsClose]
      split <;> simp [Event.ping, Event.message]
  | pong => simp [Item.IsClose, Item.event, Event.pong]
  | close => simp [Item.IsClose, Item.event, Event.close]

/-- What was sent to an endpoint is `done`, which it has seen, and `rest`, of which it has the bytes
`rx`; `peer` is the state of its peer. -/
structure LaneAt (role : WsRole) (l : Endpoint) (peer : WsState) (done rest : List Packet)
    (rx : List UInt8) : Prop where
  sent : l.sent = done ++ rest
  seen : l.seen = done.map fun p => p.item.event
  holding : Holding role l.conn ⟨l.conn.state, .none, [], false⟩ rx
  stream : rx ++ l.wire = rest.flatMap Packet.bytes
  frames : ∀ p ∈ rest, ∃ f : Frame, p.bytes = f.wire ∧ Carries role f p.item
  within : ∀ p ps, rest = p :: ps → rx.length ≤ p.bytes.length
  phase : l.conn.state = .open ∨ l.conn.state = .closing ∨
    l.conn.state = .closed ∧ ∃ p ∈ done, p.item.IsClose
  closed : ∀ p ∈ done, p.item.IsClose → l.conn.state = .closed
  last : ∀ ps p qs, l.sent = ps ++ p :: qs → p.item.IsClose → qs = [] ∧ peer ≠ .open

/-- A send leaves the connection alone, or is a close that an open connection has written. -/
theorem send_conn (c : WsConn) (key : MaskKey) (out : List UInt8) (item : Item) :
    (send c key out item).2 = c ∧ (item.IsClose → (send c key out item).1.n = 0) ∨
      c.state = .open ∧ (send c key out item).2 = { c with sentClose := true, state := .closing } := by
  cases item with
  | message | pong => exact .inl ⟨rfl, fun ⟨_, hc⟩ => by cases hc⟩
  | close code =>
      rcases wsSendClose_cases 64 c key code out with ⟨hn, hc⟩ | ⟨-, ho, hc⟩
      · exact .inl ⟨hc, fun _ => hn⟩
      · exact .inr ⟨ho, hc⟩

/-- Sending a close keeps a connection sound. -/
theorem Sound.closing {c : WsConn} (hs : Sound c) (ho : c.state = .open) :
    Sound { c with sentClose := true, state := .closing } :=
  ⟨hs.cap_lt, hs.fits, hs.failed_frag, hs.boundary, fun _ => hs.closeCode (by simp [ho])⟩

def Lane (role : WsRole) (l : Endpoint) (peer : WsState) : Prop :=
  ∃ done rest rx, LaneAt role l peer done rest rx

namespace LaneAt

variable {role : WsRole} {l : Endpoint} {peer peer' : WsState} {done rest : List Packet}
  {rx : List UInt8}

theorem failed (h : LaneAt role l peer done rest rx) : l.conn.failed = false :=
  (Receiver.mk.inj h.holding.receiver).2.2.2

theorem raw (h : LaneAt role l peer done rest rx) : rawBytes l.conn = rx := h.holding.raw h.failed

/-- The peer does not open again. -/
theorem mono (h : LaneAt role l peer done rest rx) (hp : peer ≠ .open → peer' ≠ .open) :
    LaneAt role l peer' done rest rx :=
  { h with last := fun ps p qs hs hc => ⟨(h.last ps p qs hs hc).1, hp (h.last ps p qs hs hc).2⟩ }

/-- Nothing comes after a close, so an endpoint with something to come is not closed. -/
theorem active (h : LaneAt role l peer done rest rx) (hrest : rest ≠ []) :
    l.conn.state = .open ∨ l.conn.state = .closing := by
  rcases h.phase with ho | hc | ⟨-, p, hp, hclose⟩
  · exact .inl ho
  · exact .inr hc
  · obtain ⟨ps, qs, rfl⟩ := List.append_of_mem hp
    have hnil := (h.last ps p (qs ++ rest) (by rw [h.sent]; simp) hclose).1
    exact absurd (List.append_eq_nil_iff.mp hnil).2 hrest

/-! ### Polling -/

/-- The buffer holds a whole frame, or none. -/
theorem whole_or_none (h : LaneAt role l peer done rest rx) :
    ¬ HoldsFrame rx ∨ ∃ p ps, rest = p :: ps ∧ rx = p.bytes := by
  match rest, h with
  | [], h =>
      have hnil := (List.append_eq_nil_iff.mp h.stream).1
      exact .inl (hnil ▸ not_holdsFrame_nil)
  | p :: ps, h =>
      have hle := h.within p ps rfl
      obtain ⟨f, hf, -⟩ := h.frames p (by simp)
      have hpre : rx <+: p.bytes := by
        refine List.prefix_of_prefix_length_le ⟨l.wire, h.stream⟩ ?_ hle
        exact List.prefix_append ..
      obtain ⟨t, ht⟩ := hpre
      rcases eq_or_ne t [] with rfl | hne
      · exact .inr ⟨p, ps, rfl, by simpa using ht⟩
      · exact .inl (f.not_holdsFrame_prefix (ht.trans hf) hne)

/-- **A poll shows the next item, or nothing.** -/
theorem poll (h : LaneAt role l peer done rest rx) :
    Lane role l.poll peer ∧ (l.conn.state ≠ .open → l.poll.conn.state ≠ .open) := by
  rcases h.whole_or_none with hno | ⟨p, ps, rfl, hrx⟩
  · obtain ⟨hev, hconn⟩ := h.holding.wait hno
    have hsame : l.poll = l := by
      rw [Endpoint.poll, hev, hconn]
      simp [Event.none]
    rw [hsame]
    exact ⟨⟨done, rest, rx, h⟩, id⟩
  · obtain ⟨f, hf, hcar⟩ := h.frames p (by simp)
    have hact := h.active (by simp)
    have hwhole := h.holding
    rw [hrx, hf] at hwhole
    obtain ⟨hev, -, hnext⟩ := hwhole.finish
    rw [hcar _ hact] at hev hnext
    have hstate : l.poll.conn.state = p.item.phase l.conn.state :=
      (Receiver.mk.inj hnext.receiver).1
    have hsame : ¬ p.item.IsClose → p.item.phase l.conn.state = l.conn.state := by
      intro hno
      cases hi : p.item with
      | close code => exact absurd ⟨code, hi⟩ hno
      | message | pong => rfl
    have hclosed : p.item.IsClose → p.item.phase l.conn.state = .closed := by
      rintro ⟨code, hc⟩
      rw [hc]
      rfl
    have hstream := h.stream
    rw [hrx, List.flatMap_cons, List.append_cancel_left_eq] at hstream
    refine ⟨⟨done ++ [p], ps, [], ?_⟩, fun hne => ?_⟩
    · refine ⟨?_, ?_, ?_, ?_, fun q hq => h.frames q (by simp [hq]), ?_, ?_, ?_, ?_⟩
      · exact h.sent.trans (by simp)
      · show l.seen ++ [(wsConnPoll 64 l.conn).event].filter _ = _
        rw [hev, h.seen, List.filter_cons_of_pos (by simp [Item.event_type])]
        simp
      · rw [hstate]
        exact hnext
      · exact hstream
      · intro q qs _
        exact Nat.zero_le _
      · rw [hstate]
        by_cases hc : p.item.IsClose
        · exact .inr (.inr ⟨hclosed hc, p, by simp, hc⟩)
        · rw [hsame hc]
          exact hact.imp id .inl
      · intro q hq hc
        rw [hstate]
        rcases List.mem_append.mp hq with hq | hq
        · have := h.closed q hq hc
          rcases hact with ha | ha <;> rw [ha] at this <;> cases this
        · rw [List.mem_singleton] at hq
          exact hclosed (hq ▸ hc)
      · exact h.last
    · rw [hstate]
      by_cases hc : p.item.IsClose
      · rw [hclosed hc]
        simp
      · rwa [hsame hc]

/-! ### Receiving -/

/-- A chunk that does not reach past the frame it ends in. -/
theorem within_take (h : LaneAt role l peer done rest rx) {n : Nat}
    (hpace : ∀ m < (l.wire.take n).length, ¬ HoldsFrame (rawBytes l.conn ++ l.wire.take m))
    {p : Packet} {ps : List Packet} (hrest : rest = p :: ps) :
    (rx ++ l.wire.take n).length ≤ p.bytes.length := by
  by_contra hlt
  rw [List.length_append] at hlt
  have hle := h.within p ps hrest
  obtain ⟨f, hf, -⟩ := h.frames p (by simp [hrest])
  -- the bytes up to the end of the frame are a shorter chunk
  obtain ⟨m, hm⟩ := Nat.exists_eq_add_of_le hle
  have hmn : m < (l.wire.take n).length := by omega
  refine hpace m hmn ?_
  rw [h.raw]
  have hwire : m ≤ l.wire.length := by
    rw [List.length_take] at hmn
    omega
  have hpre : p.bytes <+: rx ++ l.wire.take m := by
    have hall : p.bytes <+: rx ++ l.wire := by
      rw [h.stream, hrest, List.flatMap_cons]
      exact List.prefix_append ..
    refine List.prefix_of_prefix_length_le hall ?_ ?_
    · exact List.prefix_append_right_inj rx |>.mpr (List.take_prefix ..)
    · rw [List.length_append, List.length_take, Nat.min_eq_left hwire, hm]
  obtain ⟨t, ht⟩ := hpre
  exact (holdsFrame_iff _).mpr ⟨f, t, by rw [← ht, hf]⟩

/-- **A chunk moves from the wire to the buffer**, or stays where it is. -/
theorem recv (h : LaneAt role l peer done rest rx) {n : Nat} (hc : Counted l n)
    (hpace : ∀ m < (l.wire.take n).length, ¬ HoldsFrame (rawBytes l.conn ++ l.wire.take m)) :
    Lane role (l.recv n) peer ∧ (l.recv n).conn.state = l.conn.state := by
  have hs := h.holding.sound
  rcases hs.recv_cases hc.2 with ⟨hlt, -⟩ | ⟨hle, b, -, hexec, -⟩
  · have hrej : wsConnRecv 64 l.conn (l.wire.take n) = (WsStatus.errTooSmall.code, l.conn) :=
      wsConnRecv_rejects (by rw [Nat.mod_eq_of_lt hc.2]; exact hlt)
    have hsame : l.recv n = l := by
      rw [Endpoint.recv, hrej]
      rfl
    rw [hsame]
    exact ⟨⟨done, rest, rx, h⟩, rfl⟩
  · have hnext := h.holding.recv hle
    have hret : ¬ (wsConnRecv 64 l.conn (l.wire.take n)).1 < 0 := by
      rw [wsConnRecv_fits hs.cap_lt hle, (toInt_eq_iff _).mpr hc.1]
      exact Int.not_lt.mpr (Int.natCast_nonneg _)
    have htaken : l.recv n = { l with
        conn := exec 64 l.conn (.recv (l.wire.take n)), wire := l.wire.drop n } := by
      rw [Endpoint.recv, if_neg hret]
      rfl
    have hstate : (exec 64 l.conn (.recv (l.wire.take n))).state = l.conn.state := by rw [hexec]
    rw [htaken]
    refine ⟨⟨done, rest, rx ++ l.wire.take n, ?_⟩, hstate⟩
    refine ⟨h.sent, h.seen, ?_, ?_, h.frames, fun p ps => h.within_take hpace, ?_, ?_, h.last⟩
    · rw [hstate]
      exact hnext
    · rw [List.append_assoc, List.take_append_drop]
      exact h.stream
    · rw [hstate]
      exact h.phase
    · rw [hstate]
      exact h.closed

/-! ### Sending -/

/-- **A send leaves what is on its way to the sender alone.** -/
theorem send (h : LaneAt role l peer done rest rx) {key : MaskKey} {item : Item} {out : List UInt8} :
    LaneAt role (l.send key item out) peer done rest rx ∧
      (l.conn.state ≠ .open → (l.send key item out).conn.state ≠ .open) := by
  rcases send_conn l.conn key out item with ⟨hsame, -⟩ | ⟨ho, hclosing⟩
  · rw [Endpoint.send, hsame]
    exact ⟨h, id⟩
  · rw [Endpoint.send, hclosing]
    refine ⟨⟨h.sent, h.seen, ?_, h.stream, h.frames, h.within, .inr (.inl rfl), ?_, h.last⟩,
      fun hne => absurd ho hne⟩
    · exact ⟨h.holding.sound.closing ho, h.holding.role_eq,
        congrArg (fun r : Receiver => { r with phase := .closing }) h.holding.receiver,
        h.holding.raw⟩
    · intro p hp hc
      rw [h.closed p hp hc] at ho
      cases ho

/-- **A frame that was written is on its way to the peer.** -/
theorem arrive {c : WsConn} (key : MaskKey) (h : LaneAt c.role.opposite l c.state done rest rx)
    {item : Item} {out : List UInt8} (ho : c.state = .open) (hv : item.Valid)
    (hout : out.length < 2 ^ 64) :
    Lane c.role.opposite (l.arrive item (Libws.send c key out item).1)
      (Libws.send c key out item).2.state := by
  have hnone : ∀ p ∈ l.sent, ¬ p.item.IsClose := by
    intro p hp hc
    obtain ⟨ps, qs, hs⟩ := List.append_of_mem hp
    exact (h.last ps p qs hs hc).2 ho
  rw [Endpoint.arrive]
  split
  · exact ⟨done, rest, rx, h.mono fun hne => absurd ho hne⟩
  · rename_i hn
    obtain ⟨f, hf, hcar⟩ := send_carries ho hv hout (Nat.pos_of_ne_zero hn)
    refine ⟨done, rest ++ [⟨item, (Libws.send c key out item).1.bytes⟩], rx, ?_⟩
    refine ⟨by rw [h.sent, List.append_assoc], h.seen, h.holding, ?_, ?_, ?_, h.phase, h.closed, ?_⟩
    · rw [← List.append_assoc, h.stream, List.flatMap_append, List.flatMap_singleton]
    · intro p hp
      rcases List.mem_append.mp hp with hp | hp
      · exact h.frames p hp
      · rw [List.mem_singleton] at hp
        subst hp
        exact ⟨f, hf, hcar⟩
    · intro p ps hrest
      match rest, h, hrest with
      | [], h, hrest =>
          rw [(List.append_eq_nil_iff.mp h.stream).1]
          exact Nat.zero_le _
      | q :: qs, h, hrest =>
          obtain ⟨rfl, -⟩ := List.cons.inj hrest
          exact h.within q qs rfl
    · intro ps p qs hs hc
      rcases List.eq_nil_or_concat qs with rfl | ⟨qs, q, rfl⟩
      · -- the new packet is the close
        have hp := List.singleton_inj.mp (List.append_inj' hs rfl).2
        rw [← hp] at hc
        refine ⟨rfl, ?_⟩
        rcases send_conn c key out item with ⟨-, hzero⟩ | ⟨-, hclosing⟩
        · exact absurd (hzero hc) hn
        · rw [hclosing]
          simp
      · rw [List.concat_eq_append, ← List.cons_append, ← List.append_assoc] at hs
        have hold := (List.append_inj' hs rfl).1
        exact absurd hc (hnone p (by rw [hold]; simp))

end LaneAt

/-! ### Runs -/

theorem WsRole.opposite_ne (role : WsRole) : role.opposite ≠ role := by cases role <;> simp [opposite]

theorem WsRole.opposite_opposite (role : WsRole) : role.opposite.opposite = role := by
  cases role <;> rfl

theorem WsRole.eq_or_opposite (role other : WsRole) : other = role ∨ other = role.opposite := by
  cases role <;> cases other <;> simp [opposite]

/-- Both directions. -/
def Net.Lanes (net : Net) : Prop := ∀ role, Lane role (net role) (net role.opposite).conn.state

/-- A move of one endpoint that leaves its connection's phase closed if it was. -/
theorem Net.Lanes.update {net : Net} (h : net.Lanes) {role : WsRole} {l : Endpoint}
    (hl : Lane role l (net role.opposite).conn.state)
    (hmono : (net role).conn.state ≠ .open → l.conn.state ≠ .open) :
    Net.Lanes (Function.update net role l) := by
  intro other
  rcases role.eq_or_opposite other with rfl | rfl
  · rw [Function.update_self, Function.update_of_ne other.opposite_ne]
    exact hl
  · rw [role.opposite_opposite, Function.update_self, Function.update_of_ne role.opposite_ne]
    obtain ⟨done, rest, rx, hother⟩ := h role.opposite
    rw [role.opposite_opposite] at hother
    exact ⟨done, rest, rx, hother.mono hmono⟩

/-- **One move keeps both directions.** -/
theorem Net.Lanes.step {net : Net} (h : net.Lanes) {move : Move} (hp : Paced net move) :
    (net.step move).Lanes := by
  cases move with
  | poll role =>
      obtain ⟨done, rest, rx, hl⟩ := h role
      exact h.update hl.poll.1 hl.poll.2
  | recv role n =>
      obtain ⟨done, rest, rx, hl⟩ := h role
      obtain ⟨hnext, hstate⟩ := hl.recv hp.1 hp.2
      exact h.update hnext (by rw [hstate]; exact id)
  | send role key item out =>
      obtain ⟨ho, hv, hout⟩ := hp
      obtain ⟨done, rest, rx, hl⟩ := h role
      obtain ⟨done', rest', rx', hpeer⟩ := h role.opposite
      have hrole : (net role).conn.role = role := hl.holding.role_eq
      rw [role.opposite_opposite] at hpeer
      have harrive := LaneAt.arrive (c := (net role).conn) key (by rwa [hrole]) ho hv hout
      rw [hrole] at harrive
      intro other
      simp only [Net.step]
      rcases role.eq_or_opposite other with rfl | rfl
      · rw [Function.update_of_ne other.opposite_ne.symm, Function.update_self, Function.update_self,
          Endpoint.arrive_conn]
        exact ⟨done, rest, rx, hl.send.1⟩
      · rw [role.opposite_opposite, Function.update_self,
          Function.update_of_ne role.opposite_ne.symm, Function.update_self]
        exact harrive

/-- What holds of an endpoint in every state of the system: it has not failed; it has seen the
events of the first items its peer sent, in order; the bytes in its buffer and on their way are
those of the other items, none lost or doubled; when there are none it has seen all; and it is
closed exactly when it has seen a close, which is the last item its peer ever sends. -/
structure Faithful (net : Net) (role : WsRole) : Prop where
  failed : (net role).conn.failed = false
  seen : (net role).seen <+: (net role).sent.map fun p => p.item.event
  bytes : rawBytes (net role).conn ++ (net role).wire
    = ((net role).sent.drop (net role).seen.length).flatMap Packet.bytes
  all : (net role).wire = [] → (net role).conn.rxLen = 0 →
    (net role).seen = (net role).sent.map fun p => p.item.event
  closed : (net role).conn.state = .closed ↔ ∃ e ∈ (net role).seen, e.type = .close
  last : (net role).conn.state = .closed →
    (net role).seen.length = (net role).sent.length ∧ (net role.opposite).conn.state ≠ .open

theorem LaneAt.faithful {net : Net} {role : WsRole} {done rest : List Packet} {rx : List UInt8}
    (h : LaneAt role (net role) (net role.opposite).conn.state done rest rx) :
    Faithful net role := by
  have hlen : (net role).seen.length = done.length := by rw [h.seen, List.length_map]
  have hclosed : (net role).conn.state = .closed ↔ ∃ p ∈ done, p.item.IsClose := by
    constructor
    · intro hc
      rcases h.phase with ho | hcl | ⟨-, hp⟩
      · rw [ho] at hc; cases hc
      · rw [hcl] at hc; cases hc
      · exact hp
    · rintro ⟨p, hp, hc⟩
      exact h.closed p hp hc
  refine ⟨h.failed, ?_, ?_, ?_, ?_, ?_⟩
  · rw [h.seen, h.sent, List.map_append]
    exact List.prefix_append ..
  · rw [h.raw, h.stream, hlen, h.sent, List.drop_left]
  · intro hwire hrx
    have hnil : rx = [] := by
      rw [← h.raw, rawBytes, hrx]
      rfl
    have hstream := h.stream
    rw [hwire, hnil] at hstream
    have hrest : rest = [] := by
      cases rest with
      | nil => rfl
      | cons p ps =>
          obtain ⟨f, hf, -⟩ := h.frames p (by simp)
          have := (List.append_eq_nil_iff.mp hstream.symm).1
          exact absurd (hf ▸ this) f.wire_ne_nil
    rw [h.seen, h.sent, hrest, List.append_nil]
  · rw [hclosed, h.seen]
    simp only [List.mem_map, exists_exists_and_eq_and, Item.isClose_iff]
  · intro hc
    obtain ⟨p, hp, hclose⟩ := hclosed.mp hc
    obtain ⟨ps, qs, rfl⟩ := List.append_of_mem hp
    obtain ⟨hnil, hpeer⟩ := h.last ps p (qs ++ rest) (by rw [h.sent]; simp) hclose
    rw [hlen, h.sent, (List.append_eq_nil_iff.mp hnil).2, List.append_nil]
    exact ⟨rfl, hpeer⟩

/-- At most one item is on its way to the endpoint. -/
def Endpoint.One (l : Endpoint) : Prop := l.sent.length ≤ l.seen.length + 1

theorem Endpoint.poll_one {l : Endpoint} (h : l.One) : l.poll.One := by
  refine Nat.le_trans h (Nat.add_le_add_right ?_ 1)
  show l.seen.length ≤ (l.seen ++ _).length
  rw [List.length_append]
  omega

theorem StopAndWait.one {net : Net} {move : Move} (h : net.Lanes) (hone : ∀ role, (net role).One)
    (hs : StopAndWait net move) (other : WsRole) : (net.step move other).One := by
  cases move with
  | poll role =>
      rw [Net.step]
      rcases eq_or_ne other role with rfl | hne
      · rw [Function.update_self]
        exact Endpoint.poll_one (hone other)
      · rw [Function.update_of_ne hne]
        exact hone other
  | recv role n =>
      rw [Net.step]
      rcases eq_or_ne other role with rfl | hne
      · rw [Function.update_self]
        exact hone other
      · rw [Function.update_of_ne hne]
        exact hone other
  | send role key item out =>
      obtain ⟨-, hwire, hrx⟩ := hs
      obtain ⟨done, rest, rx, hl⟩ := h role.opposite
      have hall := hl.faithful.all hwire hrx
      simp only [Net.step]
      rcases role.eq_or_opposite other with rfl | rfl
      · rw [Function.update_of_ne other.opposite_ne.symm, Function.update_self]
        exact hone other
      · rw [Function.update_self, Endpoint.arrive]
        split
        · exact hone role.opposite
        · show (_ ++ [_]).length ≤ _
          rw [hall, List.length_append, List.length_map]
          rfl

end Libws
