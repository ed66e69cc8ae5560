import Libws.Session.Draining

/-!
# Session — the buffer layout along a run

The layout stated at the top of `stream.c`: behind the message in flight stands the not yet
consumed end of the received stream.  `Layout stream c` says it with the frames that were consumed:
the stream is their bytes and then the unparsed bytes of `c`, and the message is what they leave in
flight.

`finish_message` moves `raw` back to the start of the buffer and leaves the bytes behind the
message where they are.  `Tidy` is the condition under which this does no harm, and `layout_iff`
says that a run keeps the layout exactly when all of its polls are tidy.
-/

namespace Libws
open Libws.Support

/-- The bytes a call adds to the received stream: those of a chunk that is accepted. -/
def accepted (w : Nat) (c : WsConn) : Call → List UInt8
  | .recv bytes => if szAdd w (szAdd w c.msgLen c.rxLen) bytes.length > c.msgCap then [] else bytes
  | _ => []

/-- The unmasked payloads of the data frames since the last message boundary. -/
def assembly (fs : List Frame) : List UInt8 :=
  fs.foldl (fun msg f => match f.kind with
    | .cont | .text | .bin => if f.h.fin then [] else msg ++ f.payload
    | .close | .ping | .pong | .reserved => msg) []

/-- The received stream is the frames consumed and then the unparsed bytes, and the message in
flight is what the frames leave. -/
structure Layout (stream : List UInt8) (c : WsConn) : Prop where
  fits : c.msgLen + c.rxLen ≤ c.msgCap
  consumed : ∃ fs : List Frame, stream = fs.flatMap Frame.wire ++ rawBytes c ∧ c.msg = assembly fs

/-- A poll that completes a message finds behind the frame bytes `t` that stay the same when they
are read from the start of the message. -/
def Tidy (c : WsConn) : Call → Prop
  | .poll => ∀ (f : Frame) (t : List UInt8) (type : WsFrag), rawBytes c = f.wire ++ t →
      (c.receiver c.msg).verdict c.role f = .deliver type → t <+: c.msg ++ f.payload ++ t
  | _ => True

/-! ### One frame -/

theorem assembly_concat (fs : List Frame) (f : Frame) :
    assembly (fs ++ [f]) = match f.kind with
      | .cont | .text | .bin => if f.h.fin then [] else assembly fs ++ f.payload
      | .close | .ping | .pong | .reserved => assembly fs := by
  rw [assembly, List.foldl_append]
  rfl

theorem assembly_control {fs : List Frame} {f : Frame} (h : f.kind = .ping ∨ f.kind = .pong) :
    assembly (fs ++ [f]) = assembly fs := by
  rw [assembly_concat]
  rcases h with h | h <;> rw [h]

theorem assembly_joins {fs : List Frame} {f : Frame} {r : Receiver} {type : WsFrag}
    (h : r.Joins f type) :
    assembly (fs ++ [f]) = if f.h.fin then [] else assembly fs ++ f.payload := by
  rw [assembly_concat]
  cases h with
  | cont h | text h | bin h => rw [h]

/-- One more frame is consumed. -/
theorem Layout.consume {stream msg rx : List UInt8} {c d : WsConn} {f : Frame} {t : List UInt8}
    (hl : Layout stream c) (hraw : rawBytes c = f.wire ++ t) (hv : View d msg rx) (hrx : rx = t)
    (hmsg : ∀ fs, c.msg = assembly fs → msg = assembly (fs ++ [f])) : Layout stream d := by
  obtain ⟨fs, hstream, hfs⟩ := hl.consumed
  subst hrx
  refine ⟨hv.fits, fs ++ [f], ?_, hv.msg_eq.trans (hmsg fs hfs)⟩
  rw [hstream, hraw, hv.rawBytes_eq, List.flatMap_append, List.flatMap_singleton]
  exact (List.append_assoc ..).symm

/-! ### One call -/

/-- **A tidy poll keeps the layout**, unless it fails or closes the connection. -/
theorem Layout.poll {stream : List UInt8} {c : WsConn} (hs : Sound c) (hl : Layout stream c)
    (ht : Tidy c .poll) (hf : (wsConnPoll 64 c).conn.failed = false)
    (hc : (wsConnPoll 64 c).conn.state ≠ .closed) : Layout stream (wsConnPoll 64 c).conn := by
  cases hf₀ : c.failed with
  | true => rw [poll_failed hf₀] at hf; simp [hf₀] at hf
  | false =>
      rcases hs.poll_cases hf₀ with ⟨-, hp⟩ | ⟨f, t, hv, ho⟩
      · rw [hp]; exact hl
      · have hraw := hv.rawBytes_eq
        cases hverdict : (c.receiver c.msg).verdict c.role f with
        | refuse => rw [hverdict] at ho; simp [ho.of_refuse.2] at hf
        | close => rw [hverdict] at ho; exact absurd ho.of_close.2 hc
        | ping =>
            rw [hverdict] at ho
            refine hl.consume hraw (ho.view_control (.inl rfl)) rfl fun fs hfs => ?_
            rw [assembly_control (Receiver.verdict_control (.inl hverdict)), hfs]
        | pong =>
            rw [hverdict] at ho
            refine hl.consume hraw (ho.view_control (.inr rfl)) rfl fun fs hfs => ?_
            rw [assembly_control (Receiver.verdict_control (.inr hverdict)), hfs]
        | extend type =>
            rw [hverdict] at ho
            obtain ⟨-, hjoins, hfin⟩ := Receiver.verdict_extend_iff.mp hverdict
            refine hl.consume hraw ho.view_extend.2 rfl fun fs hfs => ?_
            rw [assembly_joins hjoins, hfin, hfs]
            rfl
        | deliver type =>
            rw [hverdict] at ho
            obtain ⟨-, hjoins, hfin, -⟩ := Receiver.verdict_deliver_iff.mp hverdict
            refine hl.consume hraw ho.view_deliver.2.2 ?_ fun fs _ => ?_
            · exact (List.prefix_iff_eq_take.mp (ht f t type hraw hverdict)).symm
            · rw [assembly_joins hjoins, hfin]
              rfl

theorem accepted_eq {c : WsConn} {bytes : List UInt8} (hg : NoWrap 64 c (.recv bytes)) :
    accepted 64 c (.recv bytes)
      = if c.msgCap < c.msgLen + c.rxLen + bytes.length then [] else bytes := by
  have hwrap : c.msgLen + c.rxLen + bytes.length < 2 ^ 64 := hg
  rw [accepted, szAdd_of_lt (a := c.msgLen) (b := c.rxLen) (by omega), szAdd_of_lt hwrap]

/-- **A tidy call keeps the layout**, unless it fails or closes the connection. -/
theorem Layout.exec {stream : List UInt8} {c : WsConn} (hs : Sound c) (hl : Layout stream c)
    {call : Call} (hg : NoWrap 64 c call) (ht : Tidy c call)
    (hf : (Libws.exec 64 c call).failed = false) (hc : (Libws.exec 64 c call).state ≠ .closed) :
    Layout (stream ++ accepted 64 c call) (Libws.exec 64 c call) := by
  -- the other calls add nothing to the stream and leave the buffer alone
  have hother : (∀ bytes, call ≠ .recv bytes) → call ≠ .poll → accepted 64 c call = [] →
      Layout (stream ++ accepted 64 c call) (Libws.exec 64 c call) := by
    intro hrecv hpoll hnil
    obtain ⟨state, sent, hexec⟩ := exec_lifecycle 64 c hpoll hrecv
    rw [hexec, hnil, List.append_nil]
    exact ⟨hl.fits, hl.consumed⟩
  cases call with
  | poll =>
      rw [show accepted 64 c .poll = [] from rfl, List.append_nil]
      exact hl.poll hs ht hf hc
  | recv bytes =>
      rcases hs.recv_cases hg with ⟨hlt, hsame⟩ | ⟨hle, b, -, hexec, hv⟩
      · rw [accepted_eq hg, if_pos hlt, hsame, List.append_nil]
        exact hl
      · obtain ⟨fs, hstream, hfs⟩ := hl.consumed
        refine ⟨hv.fits, fs, ?_, hv.msg_eq.trans hfs⟩
        rw [hv.rawBytes_eq, accepted_eq hg, if_neg (Nat.not_lt.mpr hle), hstream,
          List.append_assoc]
  | «open» | sendMessage | sendPong | sendClose => exact hother (by simp) (by simp) rfl

/-! ### Whole runs -/

/-- The layout of a connection that is neither failed nor closed. -/
def LayoutHolds (stream : List UInt8) (c : WsConn) : Prop :=
  c.failed = false → c.state ≠ .closed → Layout stream c

/-- **A tidy run keeps the layout.** -/
theorem layout_run {role : WsRole} {buf : MsgBuf 64} {calls : List Call}
    (hg : Guarded (exec 64) (NoWrap 64) (wsConnInit role buf.bytes) calls)
    (ht : Guarded (exec 64) Tidy (wsConnInit role buf.bytes) calls) :
    LayoutHolds (trace (exec 64) (accepted 64) (wsConnInit role buf.bytes) calls)
      (run (exec 64) (wsConnInit role buf.bytes) calls) := by
  have key := run_trace_inv (P := fun c stream => Sound c ∧ LayoutHolds stream c)
    (o := accepted 64) (t := []) ?_ (guarded_and hg ht) ?_
  · exact key.2
  · rintro c call stream ⟨hs, hl⟩ ⟨hg, ht⟩
    refine ⟨hs.exec hg, fun hf hc => ?_⟩
    have hlatch := exec_latched 64 c call
    have hf₀ : c.failed = false := by
      rw [← Bool.not_eq_true]; exact fun h => by simp [hlatch.1 h] at hf
    exact (hl hf₀ fun h => hc (hlatch.2 h)).exec hs hg ht hf hc
  · refine ⟨.init role buf, fun _ _ => ⟨Nat.zero_le _, [], ?_, rfl⟩⟩
    simp [rawBytes, slice, wsConnInit]

/-- A poll after which the layout still holds was tidy. -/
theorem tidy_of_layout {stream : List UInt8} {c : WsConn} (hs : Sound c)
    (hl : LayoutHolds stream c) (hl' : LayoutHolds stream (wsConnPoll 64 c).conn) :
    Tidy c .poll := by
  intro f t type hraw hverdict
  obtain ⟨⟨hf, hact, -⟩, -⟩ := Receiver.verdict_deliver_iff.mp hverdict
  obtain ⟨-, ho⟩ := hs.poll_frame hf hraw
  rw [hverdict] at ho
  have hv' := ho.view_deliver.2.2
  obtain ⟨-, hstate', -, hfailed', -⟩ := ho.of_deliver
  have hne : c.state ≠ .closed := by
    rcases hact with h | h <;> rw [show c.state = _ from h] <;> simp
  -- the stream ends in `t` and in what the poll left, which are equally long
  obtain ⟨fs, hstream, -⟩ := (hl hf hne).consumed
  obtain ⟨fs', hstream', -⟩ := (hl' (hfailed'.trans hf) (hstate'.trans_ne hne)).consumed
  rw [hraw, ← List.append_assoc] at hstream
  rw [hv'.rawBytes_eq] at hstream'
  have hlen : t.length = ((c.msg ++ f.payload ++ t).take t.length).length := by
    rw [List.length_take_of_le]
    rw [List.length_append]
    omega
  have := (List.append_inj' (hstream.symm.trans hstream') hlen).2
  exact List.prefix_iff_eq_take.mpr this

/-- **A run keeps the layout exactly when all of its polls are tidy.** -/
theorem layout_iff (role : WsRole) (buf : MsgBuf 64) (calls : List Call)
    (hg : Guarded (exec 64) (NoWrap 64) (wsConnInit role buf.bytes) calls) :
    (∀ pre, pre <+: calls →
      let c := run (exec 64) (wsConnInit role buf.bytes) pre
      c.failed = false → c.state ≠ .closed →
        Layout (trace (exec 64) (accepted 64) (wsConnInit role buf.bytes) pre) c) ↔
      Guarded (exec 64) Tidy (wsConnInit role buf.bytes) calls := by
  constructor
  · intro h
    induction calls using List.reverseRecOn with
    | nil => trivial
    | append_singleton calls call ih =>
        obtain ⟨hg₁, -⟩ := guarded_append.mp hg
        refine guarded_append.mpr ⟨ih hg₁ fun pre hpre => h pre (hpre.trans (by simp)), ?_, trivial⟩
        by_cases hcall : call = .poll
        · subst hcall
          have hl := h calls (by simp)
          have hl' := h (calls ++ [.poll]) List.prefix_rfl
          rw [run_append, trace_append] at hl'
          simp only [trace, accepted, List.append_nil] at hl'
          exact tidy_of_layout (sound_run hg₁) hl hl'
        · cases call with
          | poll => exact absurd rfl hcall
          | «open» | recv | sendMessage | sendPong | sendClose => trivial
  · rintro ht pre ⟨rest, rfl⟩
    exact layout_run (guarded_append.mp hg).1 (guarded_append.mp ht).1

/-- Two binary messages received at once, and one poll. -/
def pipelined : List Call :=
  [.open, .recv [0x82, 0x81, 1, 2, 3, 4, 0x60, 0x82, 0x81, 5, 6, 7, 8, 0x67], .poll]

theorem pipelined_broken :
    ¬ Layout (trace (exec 64) (accepted 64)
        (wsConnInit .server (zeroBuf 32 (by decide)).bytes) pipelined)
      (run (exec 64) (wsConnInit .server (zeroBuf 32 (by decide)).bytes) pipelined) := by
  intro h
  obtain ⟨fs, hstream, -⟩ := h.consumed
  have hsuf : rawBytes (run (exec 64) (wsConnInit .server (zeroBuf 32 (by decide)).bytes) pipelined)
      <:+ trace (exec 64) (accepted 64) (wsConnInit .server (zeroBuf 32 (by decide)).bytes)
        pipelined := ⟨_, hstream.symm⟩
  exact absurd hsuf (by decide +kernel)

/-- After it the unparsed bytes are no longer the end of the stream. -/
theorem layout_lost :
    let c := run (exec 64) (wsConnInit .server (zeroBuf 32 (by decide)).bytes) pipelined
    Guarded (exec 64) (NoWrap 64) (wsConnInit .server (zeroBuf 32 (by decide)).bytes) pipelined ∧
    c.failed = false ∧ c.state = .open ∧
    ¬ Layout (trace (exec 64) (accepted 64)
      (wsConnInit .server (zeroBuf 32 (by decide)).bytes) pipelined) c :=
  ⟨by decide +kernel, by decide +kernel, by decide +kernel, pipelined_broken⟩

/-- A poll on a known frame is tidy if the bytes behind that frame are. -/
theorem tidy_of_wire {c : WsConn} {g : Frame} {u : List UInt8} (h : rawBytes c = g.wire ++ u)
    (hu : u <+: c.msg ++ g.payload ++ u) : Tidy c .poll := by
  rintro f t type hraw -
  obtain ⟨rfl, rfl⟩ := Frame.wire_inj (h.symm.trans hraw)
  exact hu

/-- A binary message of the byte `82`. -/
def frame82 : Frame where
  hdr := [0x82, 0x81, 1, 1, 1, 1]
  h := ⟨.bin, 1, .replicate 4 1, true, true, 0⟩
  body := [0x83]
  parsed := by decide +kernel
  body_len := rfl

/-- The binary message `b`. -/
def frameB : Frame where
  hdr := [0x82, 0x81, 2, 2, 2, 2]
  h := ⟨.bin, 1, .replicate 4 2, true, true, 0⟩
  body := [0x60]
  parsed := by decide +kernel
  body_len := rfl

/-- The second message begins in the chunk of the first, with the byte that is its payload. -/
def overlapping : List Call :=
  [.open, .recv (frame82.wire ++ frameB.wire.take 1), .poll, .recv (frameB.wire.drop 1), .poll]

theorem overlapping_tidy :
    Guarded (exec 64) Tidy (wsConnInit .server (zeroBuf 32 (by decide)).bytes) overlapping := by
  refine ⟨trivial, trivial, ?_, trivial, ?_, trivial⟩
  · exact tidy_of_wire (g := frame82) (u := [0x82]) (by decide +kernel) (by decide +kernel)
  · exact tidy_of_wire (g := frameB) (u := []) (by decide +kernel) List.nil_prefix

/-- The run of two messages at once is not tidy; in the tidy run the layout is kept, when the first
message is complete and when both are. -/
theorem layout_iff_runs :
    let c := wsConnInit .server (zeroBuf 32 (by decide)).bytes
    ¬ Guarded (exec 64) Tidy c pipelined ∧
      Layout (frame82.wire ++ [0x82]) (run (exec 64) c (overlapping.take 3)) ∧
      Layout (frame82.wire ++ frameB.wire) (run (exec 64) c overlapping) := by
  intro c
  have htidy := layout_iff .server (zeroBuf 32 (by decide)) overlapping (by decide +kernel)
  have hfirst := htidy.mpr overlapping_tidy (overlapping.take 3) (List.take_prefix ..)
    (by decide +kernel) (by decide +kernel)
  have hboth := htidy.mpr overlapping_tidy overlapping List.prefix_rfl
    (by decide +kernel) (by decide +kernel)
  rw [show trace (exec 64) (accepted 64) c (overlapping.take 3) = frame82.wire ++ [0x82] by
    decide +kernel] at hfirst
  rw [show trace (exec 64) (accepted 64) c overlapping = frame82.wire ++ frameB.wire by
    decide +kernel] at hboth
  refine ⟨fun ht => pipelined_broken ?_, hfirst, hboth⟩
  exact (layout_iff .server (zeroBuf 32 (by decide)) pipelined (by decide +kernel)).mpr ht pipelined
    List.prefix_rfl (by decide +kernel) (by decide +kernel)

end Libws
