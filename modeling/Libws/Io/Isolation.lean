import Libws.Io.Lives
import Libws.Io.Lockstep
import Libws.Io.Pool

/-!
# Io — connections do not see each other

`history fd t` is what was done on a descriptor since `accept` last returned it.  It is a chain of
services of one slot, which starts fresh, whatever happens between them (`Alone`): the other slots
are not touched while this one is served, and a slot that is used again is cleared.  Chains of two
servers go in lockstep (`links_alike`), so what is done on a descriptor is decided by the results
of its own reads and writes (`connections_isolated`).
-/

namespace Libws
open Libws.Support Prog

/-! ### The history of a descriptor -/

section History

variable {n : Nat} {i : Fin n} {fd : Nat} {t : Trace n}

def historyStep (fd : Nat) (l : List Deed) : Entry (Req.Answer (n := n)) → List Deed
  | ⟨.accept, r⟩ => if r = some fd then [] else l
  | ⟨.client _ fd' a, r⟩ => if fd' = fd then l ++ [⟨fd', a, r⟩] else l
  | ⟨.refuse _, _⟩ | ⟨.seat _ _, _⟩ => l

/-- What was done on `fd` since `accept` last returned it. -/
def history (fd : Nat) (t : Trace n) : List Deed := run (historyStep fd) [] t

/-- The results of its reads and writes. -/
def results (l : List Deed) : List Result := l.filterMap fun d => d.act.result d.ans

/-- The events passed to the handler. -/
def events (l : List Deed) : List Event :=
  (l.map Deed.act).filterMap fun
    | .event ev => some ev
    | _ => none

/-- The bytes offered to each write. -/
def offered (l : List Deed) : List (List UInt8) :=
  (l.map Deed.act).filterMap fun
    | .write _ bytes => some bytes
    | _ => none

theorem results_append (l m : List Deed) : results (l ++ m) = results l ++ results m :=
  List.filterMap_append ..

/-- What is done for one slot is added to the history of its descriptor, and to no other. -/
theorem history_only (ht : Only i fd t) (g : Nat) (h : Trace n) :
    history g (h ++ t) = if fd = g then history g h ++ deeds t else history g h := by
  rw [history, run_append]
  exact run_only (fun _ _ _ => rfl) ht (history g h)

/-- An accepted descriptor has no history. -/
theorem history_accept (g : Nat) (h : Trace n) (r : Option Nat) (e : Entry (Req.Answer (n := n)))
    (he : ∀ l, historyStep g l e = l) :
    history g (h ++ [⟨.accept, r⟩, e]) = if r = some g then [] else history g h := by
  rw [history, run_append]
  change historyStep g (if r = some g then [] else history g h) e = _
  exact he _

theorem watch_vals (ht : Only i fd t) : watch.vals t = results (deeds t) := by
  induction t with
  | nil => rfl
  | cons e t ih =>
      obtain ⟨a, r, rfl⟩ := ht e (List.mem_cons_self ..)
      have := ih fun e he => ht e (List.mem_cons_of_mem _ he)
      simp only [Watch.vals, results, deeds_client, List.filterMap_cons] at this ⊢
      rw [this]
      rfl

theorem watch_views (ht : Only i fd t) :
    watch.views t = ((deeds t).map Deed.act).map some := by
  induction t with
  | nil => rfl
  | cons e t ih =>
      obtain ⟨a, r, rfl⟩ := ht e (List.mem_cons_self ..)
      have := ih fun e he => ht e (List.mem_cons_of_mem _ he)
      rw [Watch.views] at this ⊢
      rw [List.map_cons, this]
      rfl

end History

/-! ### One service -/

section Service

variable {σ : Type} {sv : Server σ} {i : Fin sv.maxConns} {io io' : WsIo sv.maxConns σ}
  {t : Trace sv.maxConns}

/-- A slot keeps its descriptor while it is served. -/
theorem Serve.fd {T : Fin sv.maxConns → Prop} (h : Serve sv T i io t io') (k : Fin sv.maxConns) :
    (io'.conns k).fd = (io.conns k).fd := by
  have hset : ∀ {j s}, s.fd = (io.conns j).fd → ((io.set j s).conns k).fd = (io.conns k).fd := by
    intro j s hs
    by_cases hk : k = j
    · subst hk
      rw [WsIo.set_same, hs]
    · rw [io.set_other s hk]
  cases h with
  | app | frame | event | eof => rfl
  | sendClose | poll | pump | close | wait | upgrade => exact hset rfl
  | quit _ _ _ _ hfd => exact hset hfd

/-- **A service is about one slot**, when the handler sends on the connection of the event. -/
theorem serviceClient_local (hT : ∀ a ev, (sv.onEvent a i ev).Within (· = i))
    (hu : (io.conns i).used = true) (h : Runs (serviceClient sv io i) t io') :
    Only i (io.conns i).fd t ∧ (io'.conns i).fd = (io.conns i).fd ∧
      ∀ j, j ≠ i → io'.conns j = io.conns j := by
  refine (serviceClient_trail hT hu h).inv (P := fun io' t => Only i (io.conns i).fd t ∧
    (io'.conns i).fd = (io.conns i).fd ∧ ∀ j, j ≠ i → io'.conns j = io.conns j) (h := [])
    ?_ ⟨.nil, rfl, fun _ _ => rfl⟩
  rintro io₁ t₁ u io₂ ⟨honly, hfd, hother⟩ hs
  obtain ⟨k, hk, honly', hother'⟩ := hs.local
  obtain rfl : k = i := hk.elim id id
  rw [hfd] at honly'
  exact ⟨honly.append honly', (hs.fd k).trans hfd, fun j hj => (hother' j hj).trans (hother j hj)⟩

/-- What a service of a slot does, and the slot it leaves. -/
def Link (sv : Server σ) (s : WsSlot) (l : List Deed) (s' : WsSlot) : Prop :=
  ∃ (i : Fin sv.maxConns) (io io' : WsIo sv.maxConns σ) (t : Trace sv.maxConns),
    Runs (serviceClient sv io i) t io' ∧ Only i (io.conns i).fd t ∧
      s = io.conns i ∧ l = deeds t ∧ s' = io'.conns i

/-- A service starts with a read. -/
theorem Link.results_ne_nil {s s' : WsSlot} {l : List Deed} (h : Link sv s l s') :
    results l ≠ [] := by
  obtain ⟨i, io, io', t, hr, -, -, rfl, -⟩ := h
  obtain ⟨r, t₁, t₂, rfl, h₁, -⟩ := runs_bind.mp hr
  rw [onClientData] at h₁
  split at h₁
  · obtain ⟨x, u, v, rfl, hx, -⟩ := runs_bind.mp h₁
    obtain rfl := runs_request.mp hx
    simp [results, Act.result]
  · obtain ⟨x, u, v, rfl, hx, -⟩ := runs_bind.mp h₁
    obtain rfl := runs_request.mp hx
    simp [results, Act.result]

end Service

/-! ### Chains of services -/

section Chains

variable {σ τ : Type} {sv : Server σ} {tv : Server τ} {script : Event → Script}

/-- **Two chains** that start with twins and see the same results do the same. -/
theorem links_alike (hp : Peers sv tv script) {s s₁ z z₁ : WsSlot} {l m : List Deed}
    (hl : Trail (Link sv) s l s₁) (hm : Trail (Link tv) z m z₁) (h : Twin s z)
    (hres : results l = results m) : l.map Deed.act = m.map Deed.act := by
  refine hl.head_induct (P := fun s l => ∀ z m, Trail (Link tv) z m z₁ → Twin s z →
    results l = results m → l.map Deed.act = m.map Deed.act) ?_ ?_ z m hm h hres
  · intro z m hm _ hres
    rcases hm.cases_head with ⟨rfl, -⟩ | ⟨v, z', w, rfl, hlink, -⟩
    · rfl
    · rw [results_append] at hres
      exact absurd (List.append_eq_nil_iff.mp hres.symm).1 hlink.results_ne_nil
  · intro s u s' l hlink ih z m hm h hres
    rcases hm.cases_head with ⟨rfl, -⟩ | ⟨v, z', w, rfl, hlink', hw⟩
    · rw [results_append] at hres
      exact absurd (List.append_eq_nil_iff.mp hres).1 hlink.results_ne_nil
    · obtain ⟨i, io, io', t, hr, honly, rfl, rfl, rfl⟩ := hlink
      obtain ⟨j, jo, jo', t', hr', honly', rfl, rfl, rfl⟩ := hlink'
      rw [results_append, results_append, ← watch_vals honly, ← watch_vals honly'] at hres
      obtain ⟨hviews, hrest, htwin⟩ :=
        (serviceClient_lock hp h).runs watch_isSome hr hr' hres
      rw [watch_views honly, watch_views honly'] at hviews
      have hacts := List.map_injective_iff.mpr (Option.some_injective _) hviews
      rw [List.map_append, List.map_append, hacts, ih _ w hw htwin hrest]

end Chains

/-! ### Runs -/

section Runs

variable {σ : Type} {sv : Server σ} {io io' : WsIo sv.maxConns σ} {h t : Trace sv.maxConns}

/-- Every history is a chain of services of a slot that starts fresh, and the slots in use are
where the chains of their descriptors have got to. -/
structure Alone (sv : Server σ) (io : WsIo sv.maxConns σ) (h : Trace sv.maxConns) : Prop where
  chain : ∀ fd, ∃ s, Trail (Link sv) (.mk₀ sv.maxMessage fd true) (history fd h) s
  slot : ∀ i, (io.conns i).used = true →
    Trail (Link sv) (.mk₀ sv.maxMessage (io.conns i).fd true) (history (io.conns i).fd h)
      (io.conns i)

/-- **One client served.** -/
theorem Alone.serve {i : Fin sv.maxConns} {open_ : List Nat}
    (hT : ∀ a ev, (sv.onEvent a i ev).Within (· = i)) (hu : (io.conns i).used = true)
    (hown : Owns sv.listenFd io open_) (ha : Alone sv io h)
    (hr : Runs (serviceClient sv io i) t io') : Alone sv io' (h ++ t) := by
  obtain ⟨honly, hfd, hother⟩ := serviceClient_local hT hu hr
  have hnext : Trail (Link sv) (.mk₀ sv.maxMessage (io.conns i).fd true)
      (history (io.conns i).fd (h ++ t)) (io'.conns i) := by
    rw [history_only honly, if_pos rfl]
    exact (ha.slot i hu).tail ⟨i, io, io', t, hr, honly, rfl, rfl, rfl⟩
  refine ⟨fun fd => ?_, fun j hj => ?_⟩
  · by_cases hsame : (io.conns i).fd = fd
    · subst hsame
      exact ⟨_, hnext⟩
    · rw [history_only honly, if_neg hsame]
      exact ha.chain fd
  · by_cases hji : j = i
    · subst hji
      rw [hfd]
      exact hnext
    · rw [hother j hji] at hj ⊢
      rw [history_only honly, if_neg fun hsame => hji (hown.inj j i hj hu hsame.symm)]
      exact ha.slot j hj

/-- **A client that arrives** starts afresh, on a descriptor no slot in use holds. -/
theorem Alone.arrive {open_ : List Nat} (hown : Owns sv.listenFd io open_)
    (hk : Guarded openStep (FreshAccept sv.listenFd) open_ t) (ha : Alone sv io h)
    (hr : Arrival sv io t io') : Alone sv io' (h ++ t) := by
  -- the descriptor is none of a slot in use
  have hfree : ∀ {fd i}, fd ∉ open_ → (io.conns i).used = true → some fd ≠ some (io.conns i).fd :=
    fun hfresh hu heq => hfresh ((hown.mem_iff _).mpr ⟨_, hu, (Option.some.inj heq).symm⟩)
  have hchain : ∀ {fd g e}, (∀ l, historyStep g l e = l) →
      ∃ s, Trail (Link sv) (.mk₀ sv.maxMessage g true) (history g (h ++ [⟨.accept, fd⟩, e])) s := by
    intro fd g e he
    rw [history_accept g h fd e he]
    split
    · exact ⟨_, .refl _⟩
    · exact ha.chain g
  cases hr with
  | failed =>
      have hsame : ∀ fd, history fd (h ++ [⟨.accept, none⟩]) = history fd h := fun fd => by
        rw [history, run_append]
        rfl
      exact ⟨fun fd => by rw [hsame]; exact ha.chain fd, fun i hu => by
        rw [hsame]; exact ha.slot i hu⟩
  | @refuse fd =>
      refine ⟨fun g => hchain fun _ => rfl, fun i hu => ?_⟩
      rw [history_accept _ _ _ _ fun _ => rfl, if_neg (hfree hk.1.1 hu)]
      exact ha.slot i hu
  | @seat j fd =>
      refine ⟨fun g => hchain fun _ => rfl, fun i hu => ?_⟩
      rw [history_accept _ _ _ _ fun _ => rfl]
      by_cases hij : i = j
      · subst hij
        rw [WsIo.set_same, if_pos (show some fd = some (WsSlot.mk₀ _ fd true).fd from rfl)]
        exact .refl _
      · rw [io.set_other _ hij] at hu ⊢
        rw [if_neg (hfree hk.1.1 hu)]
        exact ha.slot i hu

theorem onReadable_alone {fd : Nat} {open_ : List Nat}
    (hT : ∀ a i ev, (sv.onEvent a i ev).Within (· = i)) (hown : Owns sv.listenFd io open_)
    (hk : Guarded openStep (FreshAccept sv.listenFd) open_ t) (ha : Alone sv io h)
    (hr : Runs (onReadable sv io fd) t io') : Alone sv io' (h ++ t) := by
  rw [onReadable] at hr
  split at hr
  · exact ha.arrive hown hk (onAccept_arrival hr)
  · split at hr
    · obtain ⟨rfl, rfl⟩ := runs_pure.mp hr
      rwa [List.append_nil]
    · rename_i i hi
      exact ha.serve (fun a => hT a i) (slotByFd_some hi).1 hown hr

/-- **Every run.** -/
theorem runLoop_alone {fds : List Nat} (hT : ∀ a i ev, (sv.onEvent a i ev).Within (· = i))
    (hown : Owns sv.listenFd io (openFds h))
    (hk : Guarded openStep (FreshAccept sv.listenFd) (openFds h) t) (ha : Alone sv io h)
    (hr : Runs (runLoop sv io fds) t io') : Alone sv io' (h ++ t) := by
  induction fds generalizing io h t with
  | nil =>
      obtain ⟨rfl, rfl⟩ := runs_pure.mp hr
      rwa [List.append_nil]
  | cons fd fds ih =>
      obtain ⟨io₁, t₁, t₂, rfl, h₁, hk'⟩ := runs_bind.mp hr
      obtain ⟨hk₁, hk₂⟩ := guarded_append.mp hk
      have ha₁ := onReadable_alone hT hown hk₁ ha h₁
      have hown₁ := (trail_owns (onReadable_trail hT h₁) hk₁ hown).1
      rw [openFds, ← run_append] at hown₁ hk₂
      have := ih hown₁ hk₂ ha₁ hk'
      rwa [List.append_assoc] at this

theorem alone_run {script : Event → Script} {app : σ} {fds : List Nat}
    (hf : ∀ a i ev, (sv.onEvent a i ev).Follows i (script ev))
    (hk : Guarded openStep (FreshAccept sv.listenFd) [] t)
    (hr : Runs (runLoop sv (wsServe sv app) fds) t io) : Alone sv io t :=
  runLoop_alone (h := []) (fun a i ev => (hf a i ev).within) (owns_wsServe sv app) hk
    ⟨fun _ => ⟨_, .refl _⟩, fun _ hu => (Bool.false_ne_true hu).elim⟩ hr

end Runs

/-- **Connections are isolated.**  Take two runs of the loop, in one role and with handlers that
follow one script, and a descriptor accepted in each.  If the reads and writes on the one had the
same results as those on the other, then the same events were passed to the handler, and the same
bytes were offered to write, whatever else was accepted, served or closed in between.  A
descriptor that is accepted again starts a new history; the older ones are those of the runs that
stop before. -/
theorem connections_isolated {σ τ : Type} {sv : Server σ} {tv : Server τ}
    {script : Event → Script} (hp : Peers sv tv script) (app : σ) (app' : τ)
    (fds fds' : List Nat) (t : Trace sv.maxConns) (t' : Trace tv.maxConns)
    (io : WsIo sv.maxConns σ) (jo : WsIo tv.maxConns τ)
    (hr : Runs (runLoop sv (wsServe sv app) fds) t io)
    (hr' : Runs (runLoop tv (wsServe tv app') fds') t' jo)
    (hk : Guarded openStep (FreshAccept sv.listenFd) [] t)
    (hk' : Guarded openStep (FreshAccept tv.listenFd) [] t') (fd fd' : Nat)
    (hres : results (history fd t) = results (history fd' t')) :
    events (history fd t) = events (history fd' t') ∧
      offered (history fd t) = offered (history fd' t') := by
  obtain ⟨s, hs⟩ := (alone_run hp.follows hk hr).chain fd
  obtain ⟨z, hz⟩ := (alone_run hp.follows' hk' hr').chain fd'
  rw [hp.maxMessage] at hs
  have hacts := links_alike hp hs hz (twin_mk₀ _ fd fd' true) hres
  exact ⟨by rw [events, events, hacts], by rw [offered, offered, hacts]⟩

/-- What the echo server sends. -/
def echoScript (ev : Event) : Script :=
  .send (.message (.replicate 4 0) ev.op ev.data) fun _ => .done

/-- A client on 5 that is alone, and one on 7 that shares the server with one on 8. -/
theorem connections_isolated_echo :
    let p := play (environment [5] [upgradeRequest.take 61, upgradeRequest.drop 61 ++ hiFrame]) []
      (runLoop (echoServer 1) (wsServe (echoServer 1) ()) [3, 5, 5])
    let q := play (environment [7, 8] [upgradeRequest.take 61, upgradeRequest,
        upgradeRequest.drop 61 ++ hiFrame]) []
      (runLoop (echoServer 2) (wsServe (echoServer 2) ()) [3, 3, 7, 8, 7])
    events (history 5 p.1) = [⟨.message, .text, [0x48, 0x69], 0⟩] ∧
      events (history 7 q.1) = [⟨.message, .text, [0x48, 0x69], 0⟩] := by
  intro p q
  have hev : events (history 5 p.1) = [⟨.message, .text, [0x48, 0x69], 0⟩] := by decide +kernel
  have hp : Peers (echoServer 1) (echoServer 2) echoScript :=
    ⟨rfl, rfl, fun _ _ _ => ⟨rfl, rfl, fun _ => trivial⟩, fun _ _ _ => ⟨rfl, rfl, fun _ => trivial⟩⟩
  have hres : results (history 5 p.1) = results (history 7 q.1) := by decide +kernel
  have := (connections_isolated hp () () _ _ p.1 q.1 p.2 q.2 (runs_play _ _ _) (runs_play _ _ _)
    (by decide +kernel) (by decide +kernel) 5 7 hres).1
  exact ⟨hev, this.symm.trans hev⟩

end Libws
