import Libws.Session.Refinement

/-!
# Session — fragmentation is transparent

A message goes out in any number of fragments, each in a frame of its own, with pings and pongs
between them, every frame cut into chunks anywhere.  `Fragmented` is such a message: the frames, and
the payload and the control events they amount to.

* `Holding.shown`: while the receiver has not failed, the polls over a frame show its event.
* `Assembles.shown`: the frames of one message show the control events between them and then the
  message, whole; a text that is not UTF-8 shows an error instead.
* `fragmentation_transparent`: **a run over many messages shows exactly the messages**, and the
  control events in their places.
-/

namespace Libws
open Libws.Support

/-- The event a call shows, if it is a poll that reports one. -/
def shown (c : WsConn) : Call → List Event
  | .poll => [(wsConnPoll 64 c).event].filter fun e => e.type ≠ .none
  | _ => []

/-! ### Fragmented messages -/

/-- The opcode a message of this type starts with. -/
def WsFrag.kind : WsFrag → Kind
  | .bin => .bin
  | _ => .text

/-- A frame the receiver of this role does not refuse for its mask. -/
def MaskFits (role : WsRole) (f : Frame) : Prop := role = .server → f.h.masked = true

/-- A ping or a pong, and the event it is to show. -/
inductive Frame.Controls (f : Frame) : Event → Prop where
  | ping : f.kind = .ping → f.Controls (.ping f.payload)
  | pong : f.kind = .pong → f.Controls (.pong f.payload)

/-- Frames that carry the rest of a message of type `type`, of which `started` says whether some of
it has gone out: what they carry together, and the control events between them. -/
inductive Assembles (role : WsRole) (type : WsFrag) :
    Bool → List Frame → List UInt8 → List Event → Prop where
  | last {started : Bool} {f : Frame} : MaskFits role f →
      f.kind = (if started then .cont else type.kind) → f.h.fin = true →
      Assembles role type started [f] f.payload []
  | more {started : Bool} {f : Frame} {fs : List Frame} {payload : List UInt8}
      {events : List Event} : MaskFits role f →
      f.kind = (if started then .cont else type.kind) → f.h.fin = false →
      Assembles role type true fs payload events →
      Assembles role type started (f :: fs) (f.payload ++ payload) events
  | control {started : Bool} {f : Frame} {fs : List Frame} {payload : List UInt8} {event : Event}
      {events : List Event} : MaskFits role f → f.Controls event →
      Assembles role type started fs payload events →
      Assembles role type started (f :: fs) payload (event :: events)

/-- What a message amounts to when it is complete. -/
def outcome (type : WsFrag) (payload : List UInt8) : Event :=
  if type = .text ∧ ¬ IsUtf8 payload then .error else .message type.op payload

/-! ### One frame -/

variable {role : WsRole}

/-- A poll over less than a frame shows nothing. -/
theorem Holding.shown_wait {c : WsConn} {r : Receiver} {rx : List UInt8}
    (h : Holding role c r rx) (hf : r.failed = false) (hno : ¬ HoldsFrame rx) :
    Libws.shown c .poll = [] := by
  rw [Libws.shown, (h.wait hno).1, hf]
  rfl

theorem Holding.shown_pieces {f : Frame} {rest : List UInt8} (hrest : rest ≠ []) {c : WsConn}
    {r : Receiver} {rx : List UInt8} {ps : List (List UInt8)} (h : Holding role c r rx)
    (hf : r.failed = false) (hw : rx ++ ps.flatten ++ rest = f.wire)
    (ha : Guarded (exec 64) Accepts c (ps.flatMap supply)) :
    trace (exec 64) Libws.shown c (ps.flatMap supply) = [] := by
  induction ps generalizing c rx with
  | nil => rfl
  | cons p ps ih =>
      have h₁ := h.recv ha.1
      have hno : ¬ HoldsFrame (rx ++ p) := by
        refine f.not_holdsFrame_prefix (b := ps.flatten ++ rest) ?_ (by simp [hrest])
        simpa using hw
      have hsame : exec 64 (exec 64 c (.recv p)) .poll = exec 64 c (.recv p) := (h₁.wait hno).2
      have hrec := ih (hsame ▸ h₁) (by simpa using hw) ha.2.2
      simp only [List.flatMap_cons, supply, List.cons_append, List.nil_append, trace]
      rw [h₁.shown_wait hf hno, hrec]
      rfl

/-- **The polls over one frame show its event**, when it has one. -/
theorem Holding.shown {cut : Cut} {c : WsConn} {r : Receiver} (h : Holding role c r [])
    (hf : r.failed = false) (ha : Guarded (exec 64) Accepts c cut.calls) :
    trace (exec 64) Libws.shown c cut.calls
        = [(r.step role cut.frame).1].filter (fun e => e.type ≠ .none) ∧
      Holding role (run (exec 64) c cut.calls) (r.step role cut.frame).2 [] := by
  have hnext := h.cut ha
  refine ⟨?_, hnext.2⟩
  obtain ⟨ha₁, -⟩ := guarded_append.mp ha
  have hpieces := h.shown_pieces cut.last_ne (f := cut.frame) hf (by simpa using cut.joined) ha₁
  have hwhole := hnext.1
  rw [run_append, run_cons, run_nil] at hwhole
  rw [Cut.calls, trace_append, hpieces]
  simp only [supply, trace, Libws.shown, List.nil_append, List.append_nil]
  rw [hwhole.finish.1]

/-! ### One message -/

/-- A receiver with some of a message of type `type`, or none yet. -/
structure Receiver.At (r : Receiver) (type : WsFrag) (started : Bool) : Prop where
  failed : r.failed = false
  active : r.Active
  frag : r.frag = if started then type else .none

theorem Receiver.At.joins {r : Receiver} {type : WsFrag} {started : Bool} {f : Frame}
    (h : r.At type started) (ht : type ≠ .none)
    (hk : f.kind = if started then .cont else type.kind) : r.Joins f type := by
  cases started with
  | true =>
      have hf : r.frag = type := h.frag
      rw [← hf] at ht ⊢
      exact .cont hk ht
  | false =>
      cases type with
      | none => exact absurd rfl ht
      | text => exact .text hk h.frag
      | bin => exact .bin hk h.frag

section Steps

variable {r : Receiver} {type : WsFrag} {started : Bool} {f : Frame}

theorem Receiver.At.step_last (h : r.At type started) (ht : type ≠ .none) (hmask : MaskFits role f)
    (hk : f.kind = if started then .cont else type.kind) (hfin : f.h.fin = true) :
    (r.step role f).1 = outcome type (r.msg ++ f.payload) ∧
      ((type = .text → IsUtf8 (r.msg ++ f.payload)) →
        (r.step role f).2 = { r with frag := .none, msg := [] }) := by
  have hv := Receiver.verdict_of_joins ⟨h.failed, h.active, hmask⟩ (h.joins ht hk)
  rw [Receiver.assemble, if_neg (by simp [hfin])] at hv
  rw [Receiver.step, hv, outcome]
  split
  · rename_i hbad
    exact ⟨rfl, fun hutf => absurd (hutf hbad.1) hbad.2⟩
  · exact ⟨rfl, fun _ => rfl⟩

theorem Receiver.At.step_more (h : r.At type started) (ht : type ≠ .none) (hmask : MaskFits role f)
    (hk : f.kind = if started then .cont else type.kind) (hfin : f.h.fin = false) :
    r.step role f = (.none, { r with frag := type, msg := r.msg ++ f.payload }) := by
  have hv : r.verdict role f = .extend type :=
    Receiver.verdict_extend_iff.mpr ⟨⟨h.failed, h.active, hmask⟩, h.joins ht hk, hfin⟩
  rw [Receiver.step, hv]
  rfl

theorem Receiver.At.step_control {event : Event} (h : r.At type started) (hmask : MaskFits role f)
    (hc : f.Controls event) : r.step role f = (event, r) ∧ event.type ≠ .none := by
  have hv := Receiver.verdict_of_admits (show Receiver.Admits role r f from ⟨h.failed, h.active, hmask⟩)
  cases hc with
  | ping hk | pong hk =>
      rw [hk] at hv
      rw [Receiver.step, hv]
      exact ⟨rfl, by simp [Event.ping, Event.pong]⟩

end Steps

theorem outcome_type (type : WsFrag) (payload : List UInt8) :
    (outcome type payload).type ≠ .none := by
  rw [outcome]
  split
  · simp [Event.error]
  · simp [Event.message]

/-- **The frames of one message show the control events between them and then the message.** -/
theorem Assembles.shown {type : WsFrag} {started : Bool} {fs : List Frame} {payload : List UInt8}
    {events : List Event} (has : Assembles role type started fs payload events) (ht : type ≠ .none)
    {cuts : List Cut} (hcuts : cuts.map Cut.frame = fs) {c : WsConn} {r : Receiver}
    (h : Holding role c r []) (hr : r.At type started)
    (ha : Guarded (exec 64) Accepts c (cuts.flatMap Cut.calls)) :
    trace (exec 64) Libws.shown c (cuts.flatMap Cut.calls)
        = events ++ [outcome type (r.msg ++ payload)] ∧
      ((type = .text → IsUtf8 (r.msg ++ payload)) →
        Holding role (run (exec 64) c (cuts.flatMap Cut.calls))
          { r with frag := .none, msg := [] } []) := by
  -- along the frames; what is carried is the receiver with the message so far
  induction has generalizing cuts c r with
  | @last started f hmask hk hfin =>
      obtain ⟨cut, rfl, rfl⟩ : ∃ cut, cuts = [cut] ∧ cut.frame = f := by
        simpa [List.map_eq_singleton_iff] using hcuts
      rw [List.flatMap_singleton] at ha ⊢
      obtain ⟨htrace, hnext⟩ := h.shown hr.failed ha
      obtain ⟨hev, hrec⟩ := hr.step_last ht hmask hk hfin
      rw [hev, List.filter_cons_of_pos (by simp [outcome_type])] at htrace
      exact ⟨htrace, fun hutf => hrec hutf ▸ hnext⟩
  | @more started f fs payload events hmask hk hfin has ih =>
      obtain ⟨cut, cuts, rfl, rfl, rfl⟩ := List.map_eq_cons_iff.mp hcuts
      rw [List.flatMap_cons] at ha ⊢
      obtain ⟨ha₁, ha₂⟩ := guarded_append.mp ha
      obtain ⟨htrace, hnext⟩ := h.shown hr.failed ha₁
      rw [hr.step_more ht hmask hk hfin] at htrace hnext
      obtain ⟨hrest, hfinal⟩ := ih rfl hnext ⟨hr.failed, hr.active, rfl⟩ ha₂
      rw [trace_append, run_append, htrace, hrest, List.append_assoc]
      rw [List.append_assoc] at hfinal
      exact ⟨rfl, hfinal⟩
  | @control started f fs payload event events hmask hc has ih =>
      obtain ⟨cut, cuts, rfl, rfl, rfl⟩ := List.map_eq_cons_iff.mp hcuts
      rw [List.flatMap_cons] at ha ⊢
      obtain ⟨ha₁, ha₂⟩ := guarded_append.mp ha
      obtain ⟨htrace, hnext⟩ := h.shown hr.failed ha₁
      obtain ⟨hstep, hne⟩ := hr.step_control hmask hc
      rw [hstep] at htrace hnext
      obtain ⟨hrest, hfinal⟩ := ih rfl hnext hr ha₂
      rw [trace_append, run_append, htrace, hrest, List.filter_cons_of_pos (by simp [hne])]
      exact ⟨rfl, hfinal⟩

/-! ### Many messages -/

/-- A message as it goes out: its frames, cut into chunks, and what they amount to. -/
structure Fragmented (role : WsRole) where
  type : WsFrag
  payload : List UInt8
  controls : List Event
  cuts : List Cut
  type_ne : type ≠ .none
  utf8 : type = .text → IsUtf8 payload
  assembles : Assembles role type false (cuts.map Cut.frame) payload controls

/-- The connection stands between two messages. -/
structure Receiver.Between (r : Receiver) : Prop where
  failed : r.failed = false
  active : r.Active
  frag : r.frag = .none
  msg : r.msg = []

namespace Fragmented

def calls (m : Fragmented role) : List Call := m.cuts.flatMap Cut.calls

/-- The control events between the fragments, and then the message. -/
def events (m : Fragmented role) : List Event := m.controls ++ [.message m.type.op m.payload]

theorem shown {m : Fragmented role} {c : WsConn} {r : Receiver} (h : Holding role c r [])
    (hr : r.Between) (ha : Guarded (exec 64) Accepts c m.calls) :
    trace (exec 64) Libws.shown c m.calls = m.events ∧
      Holding role (run (exec 64) c m.calls) r [] := by
  have hat : r.At m.type false := ⟨hr.failed, hr.active, hr.frag⟩
  obtain ⟨htrace, hnext⟩ := m.assembles.shown m.type_ne rfl h hat ha
  have hsame : ({ r with frag := .none, msg := [] } : Receiver) = r := by rw [← hr.frag, ← hr.msg]
  rw [hr.msg, List.nil_append] at htrace hnext
  rw [hsame] at hnext
  rw [outcome, if_neg fun hb => hb.2 (m.utf8 hb.1)] at htrace
  exact ⟨htrace, hnext m.utf8⟩

theorem shown_all {messages : List (Fragmented role)} {c : WsConn} {r : Receiver}
    (h : Holding role c r []) (hr : r.Between)
    (ha : Guarded (exec 64) Accepts c (messages.flatMap calls)) :
    trace (exec 64) Libws.shown c (messages.flatMap calls) = messages.flatMap events ∧
      Holding role (run (exec 64) c (messages.flatMap calls)) r [] := by
  induction messages generalizing c with
  | nil => exact ⟨rfl, h⟩
  | cons m messages ih =>
      rw [List.flatMap_cons] at ha ⊢
      obtain ⟨ha₁, ha₂⟩ := guarded_append.mp ha
      obtain ⟨htrace, hnext⟩ := shown h hr ha₁
      obtain ⟨hrest, hfinal⟩ := ih hnext ha₂
      rw [trace_append, run_append, htrace, hrest]
      exact ⟨rfl, hfinal⟩

end Fragmented

/-- **Fragmentation is transparent.**  A connection of either role between two messages, open or
closing, reached by any calls, is given any messages, each in any fragments with pings and pongs
between them, every frame in accepted chunks cut anywhere with a poll after each.  The polls show
exactly the messages, whole and in order, with each control event in its place, and leave the
connection between two messages; a character of a text may be split between fragments. -/
theorem fragmentation_transparent (role : WsRole) (buf : MsgBuf 64) (before : List Call)
    (messages : List (Fragmented role))
    (hg : Guarded (exec 64) (NoWrap 64) (wsConnInit role buf.bytes) before) :
    let c := run (exec 64) (wsConnInit role buf.bytes) before
    c.state = .open ∨ c.state = .closing → c.failed = false → c.frag = .none → c.rxLen = 0 →
    Guarded (exec 64) Accepts c (messages.flatMap Fragmented.calls) →
      trace (exec 64) shown c (messages.flatMap Fragmented.calls)
        = messages.flatMap Fragmented.events ∧
      let d := run (exec 64) c (messages.flatMap Fragmented.calls)
      d.state = c.state ∧ d.failed = false ∧ d.frag = .none ∧ d.msgLen = 0 ∧ d.rxLen = 0 := by
  intro c hact hfailed hfrag hrx ha
  have hs : Sound c := sound_run hg
  have hmsg : c.msg = [] := by rw [WsConn.msg, hs.boundary hfrag, List.take_zero]
  have h : Holding role c ⟨c.state, .none, [], false⟩ [] := by
    refine ⟨hs, run_role 64 _ before, ?_, fun _ => ?_⟩
    · rw [WsConn.receiver, hfrag, hmsg, hfailed]
    · rw [rawBytes, hrx]; rfl
  obtain ⟨htrace, hd⟩ := Fragmented.shown_all h ⟨rfl, hact, rfl, rfl⟩ ha
  refine ⟨htrace, ?_⟩
  intro d
  obtain ⟨hstate, hfrag', -, hfailed'⟩ := Receiver.mk.inj hd.receiver
  have hview := View.ofFits hd.sound.fits
  rw [hd.raw hfailed'] at hview
  exact ⟨hstate, hfailed', hfrag', hd.sound.boundary hfrag', hview.rxLen⟩

/-- The first byte of a two-byte character, in a fragment of its own. -/
def firstHalf : Frame where
  hdr := [0x01, 0x01]
  h := ⟨.text, 1, Vector.replicate 4 0, false, false, 0⟩
  body := [0xC3]
  parsed := by decide +kernel
  body_len := rfl

def middlePing : Frame where
  hdr := [0x89, 0x01]
  h := ⟨.ping, 1, Vector.replicate 4 0, true, false, 0⟩
  body := [0x70]
  parsed := by decide +kernel
  body_len := rfl

/-- Its second byte, which ends the message. -/
def secondHalf : Frame where
  hdr := [0x80, 0x01]
  h := ⟨.cont, 1, Vector.replicate 4 0, true, false, 0⟩
  body := [0xA9]
  parsed := by decide +kernel
  body_len := rfl

/-- A frame in one chunk. -/
def Frame.whole (f : Frame) : Cut := ⟨f, [], f.wire, rfl, f.wire_ne_nil⟩

/-- A text of one character, split between two fragments with a ping between them. -/
def splitText : Fragmented .client where
  type := .text
  payload := [0xC3, 0xA9]
  controls := [.ping [0x70]]
  cuts := [firstHalf, middlePing, secondHalf].map Frame.whole
  type_ne := by simp
  utf8 := fun _ => ⟨['é'], by decide +kernel⟩
  assembles := by
    have hmask : ∀ f, MaskFits .client f := fun _ h => by cases h
    refine .more (f := firstHalf) (hmask _) (by decide +kernel) rfl ?_
    refine .control (f := middlePing) (hmask _) (.ping (by decide +kernel)) ?_
    exact .last (f := secondHalf) (hmask _) (by decide +kernel) rfl

/-- A binary message in one frame, cut behind its first byte. -/
def cutBin : Fragmented .client where
  type := .bin
  payload := [0x41]
  controls := []
  cuts :=
    let f : Frame :=
      { hdr := [0x82, 0x01]
        h := ⟨.bin, 1, Vector.replicate 4 0, true, false, 0⟩
        body := [0x41]
        parsed := by decide +kernel
        body_len := rfl }
    [⟨f, [[0x82]], [0x01, 0x41], rfl, by simp⟩]
  type_ne := by simp
  utf8 := fun h => by cases h
  assembles := .last (fun h => by cases h) (by decide +kernel) rfl

theorem fragmentation_transparent_split :
    let c := run (exec 64) (wsConnInit .client (zeroBuf 8 (by decide)).bytes) [.open]
    Guarded (exec 64) Accepts c ([splitText, cutBin].flatMap Fragmented.calls) ∧
      trace (exec 64) shown c ([splitText, cutBin].flatMap Fragmented.calls)
        = [.ping [0x70], .message .text [0xC3, 0xA9], .message .bin [0x41]] := by
  intro c
  have ha : Guarded (exec 64) Accepts c ([splitText, cutBin].flatMap Fragmented.calls) := by
    decide +kernel
  have h := fragmentation_transparent .client (zeroBuf 8 (by decide)) [.open] [splitText, cutBin]
    (by decide +kernel) (by decide +kernel) (by decide +kernel) (by decide +kernel)
    (by decide +kernel) ha
  exact ⟨ha, h.1⟩

end Libws
