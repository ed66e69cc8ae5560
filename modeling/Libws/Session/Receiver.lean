import Libws.Framing.Utf8Valid
import Libws.Framing.Wire
import Libws.Session.Stream

/-!
# Session — the reference receiver

What a receiver of RFC 6455 does with one frame at a time, with no buffer: the message in flight
is a list of bytes.  It is written from the protocol, not from the source, and `Poll` compares the
driver with it.

A `verdict` says what a frame is; `event` and `next` say what it yields and leaves behind.  `step`
pairs them.
-/

namespace Libws

/-- Whether a text is UTF-8 is decided by running the validator. -/
instance : DecidablePred IsUtf8 := fun bs => decidable_of_iff _ (wsUtf8Valid_iff bs)

/-! ### Frames and close bodies -/

/-- The opcodes of RFC 6455 §11.8. -/
inductive Kind where
  | cont
  | text
  | bin
  | close
  | ping
  | pong
  | reserved
  deriving DecidableEq, Repr

def Kind.ofOpcode : Nat → Kind
  | 0 => .cont
  | 1 => .text
  | 2 => .bin
  | 8 => .close
  | 9 => .ping
  | 10 => .pong
  | _ => .reserved

def Frame.kind (f : Frame) : Kind := .ofOpcode f.h.opcode.toNat

/-- The close codes an endpoint may send (RFC 6455 §7.4). -/
def Sendable (code : Nat) : Prop :=
  1000 ≤ code ∧ code ≤ 1011 ∧ code ≠ 1004 ∧ code ≠ 1005 ∧ code ≠ 1006 ∨ 3000 ≤ code ∧ code ≤ 4999

instance : DecidablePred Sendable := fun _ => inferInstanceAs (Decidable (_ ∨ _))

/-- The code of a well-formed close body: none is `0`, and a reason is UTF-8. -/
def closeBody : List UInt8 → Option UInt16
  | [] => some 0
  | [_] => none
  | a :: b :: reason =>
    if Sendable (a.toNat * 256 + b.toNat) ∧ IsUtf8 reason then
      some (UInt16.ofNat (a.toNat * 256 + b.toNat))
    else none

/-! ### Events -/

/-- What an event shows: its type, opcode, payload bytes and close code. -/
structure Event where
  type : WsEventType
  op : WsOpcode
  data : List UInt8
  closeCode : UInt16
  deriving DecidableEq, Repr

namespace Event

def none : Event := ⟨.none, .text, [], 0⟩
def error : Event := ⟨.error, .text, [], 0⟩
def ping (data : List UInt8) : Event := ⟨.ping, .text, data, 0⟩
def pong (data : List UInt8) : Event := ⟨.pong, .text, data, 0⟩
def close (code : UInt16) : Event := ⟨.close, .text, [], code⟩
def message (op : WsOpcode) (data : List UInt8) : Event := ⟨.message, op, data, 0⟩

end Event

/-- What an event shows: the bytes are those in the buffer when the poll returns. -/
def Poll.event (p : Poll) : Event := ⟨p.ret, p.ev.op, p.data, p.ev.closeCode⟩

/-- The opcode a message of this type was sent with. -/
def WsFrag.op : WsFrag → WsOpcode
  | .bin => .bin
  | _ => .text

/-! ### The receiver -/

/-- The phase of the connection, the type and bytes of the message in flight, and whether the
connection has failed. -/
structure Receiver where
  phase : WsState
  frag : WsFrag
  msg : List UInt8
  failed : Bool
  deriving DecidableEq, Repr

/-- What a frame is to a receiver. -/
inductive Verdict where
  | refuse
  | ping
  | pong
  | close (code : UInt16)
  | extend (type : WsFrag)
  | deliver (type : WsFrag)
  deriving DecidableEq, Repr

namespace Receiver

/-- Frames are processed in these phases only. -/
def Active (r : Receiver) : Prop := r.phase = .open ∨ r.phase = .closing

instance (r : Receiver) : Decidable r.Active := inferInstanceAs (Decidable (_ ∨ _))

/-- A data frame that continues or starts a message of this type. -/
def assemble (r : Receiver) (f : Frame) (type : WsFrag) : Verdict :=
  if f.h.fin = false then .extend type
  else if type = .text ∧ ¬ IsUtf8 (r.msg ++ f.payload) then .refuse
  else .deliver type

def verdict (role : WsRole) (r : Receiver) (f : Frame) : Verdict :=
  if r.failed then .refuse
  else if ¬ r.Active then .refuse
  else if role = .server ∧ f.h.masked = false then .refuse
  else match f.kind with
    | .reserved => .refuse
    | .ping => .ping
    | .pong => .pong
    | .close => match closeBody f.payload with
      | some code => .close code
      | .none => .refuse
    | .cont => if r.frag = .none then .refuse else r.assemble f r.frag
    | .text => if r.frag = .none then r.assemble f .text else .refuse
    | .bin => if r.frag = .none then r.assemble f .bin else .refuse

def event (r : Receiver) (f : Frame) : Verdict → Event
  | .refuse => .error
  | .ping => .ping f.payload
  | .pong => .pong f.payload
  | .close code => .close code
  | .extend _ => .none
  | .deliver type => .message type.op (r.msg ++ f.payload)

def next (r : Receiver) (f : Frame) : Verdict → Receiver
  | .refuse => { r with failed := true, frag := .none, msg := [] }
  | .ping | .pong => r
  | .close _ => { r with phase := .closed, frag := .none, msg := [] }
  | .extend type => { r with frag := type, msg := r.msg ++ f.payload }
  | .deliver _ => { r with frag := .none, msg := [] }

/-- One frame: the event it yields and the receiver after it. -/
def step (role : WsRole) (r : Receiver) (f : Frame) : Event × Receiver :=
  (r.event f (r.verdict role f), r.next f (r.verdict role f))

/-! ### Inversion -/

variable {role : WsRole} {r : Receiver} {f : Frame}

/-- A frame is processed at all. -/
def Admits (role : WsRole) (r : Receiver) (f : Frame) : Prop :=
  r.failed = false ∧ r.Active ∧ (role = .server → f.h.masked = true)

/-- A data frame that joins a message of type `type`: it continues the one in flight, or starts
one. -/
inductive Joins (r : Receiver) (f : Frame) : WsFrag → Prop where
  | cont : f.kind = .cont → r.frag ≠ .none → Joins r f r.frag
  | text : f.kind = .text → r.frag = .none → Joins r f .text
  | bin : f.kind = .bin → r.frag = .none → Joins r f .bin

theorem verdict_admits (h : r.verdict role f ≠ .refuse) : r.Admits role f := by
  rw [verdict] at h
  split at h
  · exact absurd rfl h
  · rename_i hf
    split at h
    · exact absurd rfl h
    · rename_i ha
      split at h
      · exact absurd rfl h
      · rename_i hm
        refine ⟨by simpa using hf, not_not.mp ha, fun hr => ?_⟩
        simpa [hr] using hm

/-- The verdict on a frame that is processed. -/
theorem verdict_of_admits (h : r.Admits role f) : r.verdict role f = match f.kind with
    | .reserved => .refuse
    | .ping => .ping
    | .pong => .pong
    | .close => match closeBody f.payload with
      | some code => .close code
      | .none => .refuse
    | .cont => if r.frag = .none then .refuse else r.assemble f r.frag
    | .text => if r.frag = .none then r.assemble f .text else .refuse
    | .bin => if r.frag = .none then r.assemble f .bin else .refuse := by
  obtain ⟨hf, ha, hm⟩ := h
  have hmask : ¬ (role = .server ∧ f.h.masked = false) := fun ⟨hr, hno⟩ => by
    simp [hm hr] at hno
  rw [verdict, if_neg (by simp [hf]), if_neg (not_not.mpr ha), if_neg hmask]

/-- A data frame that joins a message is assembled into it. -/
theorem verdict_of_joins {type : WsFrag} (h : r.Admits role f) (hj : r.Joins f type) :
    r.verdict role f = r.assemble f type := by
  rw [verdict_of_admits h]
  cases hj with
  | cont hk hf => simp only [hk, if_neg hf]
  | text hk hf | bin hk hf => simp only [hk, if_pos hf]

/-- The frames that are neither refused nor control frames join a message. -/
theorem verdict_joins {type : WsFrag}
    (h : r.verdict role f = .extend type ∨ r.verdict role f = .deliver type) :
    r.Admits role f ∧ r.Joins f type ∧ r.verdict role f = r.assemble f type := by
  have hadm : r.Admits role f := verdict_admits (by rcases h with h | h <;> simp [h])
  -- the type in the verdict is the one `assemble` was called with
  have htype : ∀ ty, r.assemble f ty = .extend type ∨ r.assemble f ty = .deliver type →
      ty = type := by
    intro ty h
    rw [assemble] at h
    split at h
    · simpa using h
    · split at h
      · simp at h
      · simpa using h
  have hjoins : r.Joins f type := by
    rw [verdict_of_admits hadm] at h
    cases hk : f.kind with
    | reserved | ping | pong => simp [hk] at h
    | close => simp only [hk] at h; split at h <;> simp at h
    | cont =>
        by_cases hf : r.frag = .none
        · simp [hk, hf] at h
        · simp only [hk, if_neg hf] at h
          exact htype _ h ▸ .cont hk hf
    | text =>
        by_cases hf : r.frag = .none
        · simp only [hk, if_pos hf] at h
          exact htype _ h ▸ .text hk hf
        · simp [hk, hf] at h
    | bin =>
        by_cases hf : r.frag = .none
        · simp only [hk, if_pos hf] at h
          exact htype _ h ▸ .bin hk hf
        · simp [hk, hf] at h
  exact ⟨hadm, hjoins, verdict_of_joins hadm hjoins⟩

/-- **The frames that extend a message without finishing it.** -/
theorem verdict_extend_iff {type : WsFrag} : r.verdict role f = .extend type ↔
    r.Admits role f ∧ r.Joins f type ∧ f.h.fin = false := by
  constructor
  · intro h
    obtain ⟨hadm, hj, ha⟩ := verdict_joins (.inl h)
    refine ⟨hadm, hj, ?_⟩
    by_contra hfin
    rw [h, assemble, if_neg hfin] at ha
    split at ha <;> cases ha
  · rintro ⟨hadm, hj, hfin⟩
    rw [verdict_of_joins hadm hj, assemble, if_pos hfin]

/-- **The frames that finish a message.** -/
theorem verdict_deliver_iff {type : WsFrag} : r.verdict role f = .deliver type ↔
    r.Admits role f ∧ r.Joins f type ∧ f.h.fin = true ∧
      (type = .text → IsUtf8 (r.msg ++ f.payload)) := by
  constructor
  · intro h
    obtain ⟨hadm, hj, ha⟩ := verdict_joins (.inr h)
    rw [h, assemble] at ha
    split at ha
    · cases ha
    · rename_i hfin
      split at ha
      · cases ha
      · rename_i hutf
        exact ⟨hadm, hj, by simpa using hfin, fun ht => not_not.mp fun hu => hutf ⟨ht, hu⟩⟩
  · rintro ⟨hadm, hj, hfin, hutf⟩
    rw [verdict_of_joins hadm hj, assemble, if_neg (by simp [hfin]),
      if_neg fun h => h.2 (hutf h.1)]

theorem assemble_ne_control (type : WsFrag) :
    r.assemble f type ≠ .ping ∧ r.assemble f type ≠ .pong := by
  rw [assemble]
  split
  · simp
  · split <;> simp

theorem verdict_control (h : r.verdict role f = .ping ∨ r.verdict role f = .pong) :
    f.kind = .ping ∨ f.kind = .pong := by
  rw [verdict_of_admits (verdict_admits (by rcases h with h | h <;> simp [h]))] at h
  cases hk : f.kind with
  | ping => exact .inl rfl
  | pong => exact .inr rfl
  | reserved => simp [hk] at h
  | close => simp only [hk] at h; split at h <;> simp at h
  | cont | text | bin => simp only [hk] at h; split at h <;> simp [assemble_ne_control] at h

end Receiver

end Libws
