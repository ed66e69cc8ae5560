import Libws.Io.Drain
import Libws.Io.Upgrade

/-!
# Io — what one service of a client does

Serving a slot is a read and what follows from it: more of the request is awaited, the client is
dropped, or bytes are fed to its connection.  `Service` lists these, with the run of `feed` left as
it is; what `feed` does is a matter of the connection and of the handler.

* `serviceClient_service`: serving a slot in use is one of them.
* `runLoop_services`: what they and the accepting of clients keep holds whenever the loop waits.
-/

namespace Libws
open Libws.Support Prog

/-- A client whose request has been answered. -/
def WsSlot.opened (role : WsRole) (s : WsSlot) : WsSlot :=
  { s with conn := wsConnOpen (wsConnInit role s.msgBuf), isOpen := true }

/-- `service_client`, from the result of `on_client_data` on. -/
def leave {n : Nat} {σ : Type} (i : Fin n) (r : Bool × WsIo n σ) : Sys n (WsIo n σ) :=
  if r.1 then slotClose r.2 i else pure r.2

section Services

variable {σ : Type} (sv : Server σ) (i : Fin sv.maxConns) (io : WsIo sv.maxConns σ)

/-- What one service of slot `i` does. -/
inductive Service : Trace sv.maxConns → WsIo sv.maxConns σ → Prop where
  | wait {r : { bs : List UInt8 // bs.length ≤ hsCap - (io.conns i).hslen }} :
      (io.conns i).isOpen = false → r.val ≠ [] →
      Service [⟨.client i (io.conns i).fd (.read (hsCap - (io.conns i).hslen)), r⟩]
        (io.set i ((io.conns i).gather r.val))
  | reject {r : { bs : List UInt8 // bs.length ≤ hsCap - (io.conns i).hslen }}
      {t : Trace sv.maxConns} {s : WsSlot} :
      (io.conns i).isOpen = false → Rejected i (io.conns i) r.val t →
      s.used = false → s.isOpen = false →
      Service (⟨.client i (io.conns i).fd (.read (hsCap - (io.conns i).hslen)), r⟩ :: t
        ++ [⟨.client i (io.conns i).fd .close, ()⟩]) (io.set i s)
  | upgrade {r : { bs : List UInt8 // bs.length ≤ hsCap - (io.conns i).hslen }}
      {accept rest : List UInt8} {t u v : Trace sv.maxConns} {p : Bool × WsIo sv.maxConns σ}
      {io' : WsIo sv.maxConns σ} :
      (io.conns i).isOpen = false → r.val ≠ [] → Answers i (io.conns i).fd accept t 0 →
      (∃ off len, rest = slice ((io.conns i).gather r.val).hsbuf off len) →
      Runs (feed sv (io.set i (((io.conns i).gather r.val).opened sv.role)) i rest) u p →
      Runs (leave i p) v io' →
      Service (⟨.client i (io.conns i).fd (.read (hsCap - (io.conns i).hslen)), r⟩ :: t
        ++ u ++ v) io'
  | eof {r : { bs : List UInt8 // bs.length ≤ chunkCap }} :
      (io.conns i).isOpen = true → r.val = [] →
      Service [⟨.client i (io.conns i).fd (.read chunkCap), r⟩,
        ⟨.client i (io.conns i).fd .close, ()⟩] (io.set i { io.conns i with used := false })
  | pump {r : { bs : List UInt8 // bs.length ≤ chunkCap }} {u v : Trace sv.maxConns}
      {p : Bool × WsIo sv.maxConns σ} {io' : WsIo sv.maxConns σ} :
      (io.conns i).isOpen = true → r.val ≠ [] → Runs (feed sv io i r.val) u p →
      Runs (leave i p) v io' →
      Service (⟨.client i (io.conns i).fd (.read chunkCap), r⟩ :: u ++ v) io'

end Services

section Runs

variable {σ : Type} {sv : Server σ} {i : Fin sv.maxConns} {io io' : WsIo sv.maxConns σ}
  {t u v : Trace sv.maxConns}

/-- A slot that is closed at once. -/
theorem leave_runs {s : WsSlot} (h : Runs (leave i (true, io.set i s)) v io')
    (hfd : s.fd = (io.conns i).fd) :
    v = [⟨.client i (io.conns i).fd .close, ()⟩] ∧ io' = io.set i { s with used := false } := by
  obtain ⟨rfl, rfl⟩ := slotClose_runs h
  rw [WsIo.set_same, WsIo.set_set]
  exact ⟨by rw [hfd], rfl⟩

/-- The service of a client that is not open yet. -/
theorem onHandshakeData_service {p : Bool × WsIo sv.maxConns σ} (ho : (io.conns i).isOpen = false)
    (h : Runs (onHandshakeData sv io i) u p) (hv : Runs (leave i p) v io') :
    Service sv i io (u ++ v) io' := by
  obtain ⟨x, t₁, t₂, rfl, h₁, hk⟩ := runs_bind.mp h
  obtain rfl := runs_request.mp h₁
  -- a handshake that fails leaves what was gathered in the slot, and closes it
  have rejected : ∀ {t : Trace sv.maxConns} {s : WsSlot},
      Runs (leave i (true, io.set i s)) v io' → Rejected i (io.conns i) x.val t →
      s.fd = (io.conns i).fd → s.isOpen = false →
      Service sv i io ([⟨.client i (io.conns i).fd (.read (hsCap - (io.conns i).hslen)), x⟩]
        ++ t ++ v) io' := by
    intro t s hv hrej hfd hopen
    obtain ⟨rfl, rfl⟩ := leave_runs hv hfd
    exact .reject ho hrej rfl hopen
  split at hk
  · rename_i hz
    obtain ⟨rfl, rfl⟩ := runs_pure.mp hk
    rw [← WsIo.set_self io i] at hv
    exact rejected hv (.ended (List.length_eq_zero_iff.mp hz)) rfl ho
  · rename_i hz
    have hne : x.val ≠ [] := fun hnil => hz (by rw [hnil]; rfl)
    change Runs (handshakeStep sv (io.set i ((io.conns i).gather x.val)) i) t₂ p at hk
    cases hfind : findSub ((io.conns i).gather x.val).request crlf2 with
    | none =>
        rw [handshakeStep_none (by rw [WsIo.set_same]; exact hfind), WsIo.set_same] at hk
        obtain ⟨rfl, rfl⟩ := runs_pure.mp hk
        by_cases hfull : hsCap ≤ ((io.conns i).gather x.val).hslen
        · rw [decide_eq_true hfull] at hv
          exact rejected hv (.large hfind hfull) rfl ho
        · rw [decide_eq_false hfull] at hv
          obtain ⟨rfl, rfl⟩ := runs_pure.mp hv
          rw [List.append_nil, List.append_nil]
          exact .wait ho hne
    | some pos =>
        rw [handshakeStep_some (by rw [WsIo.set_same]; exact hfind)] at hk
        cases hkey : computeAccept (((io.conns i).gather x.val).hsbuf.take pos) with
        | none =>
            rw [finishHandshake_none (by rw [WsIo.set_same]; exact hkey)] at hk
            obtain ⟨rfl, rfl⟩ := runs_pure.mp hk
            exact rejected hv (.keyless hfind hkey) rfl ho
        | some accept =>
            obtain ⟨rc, t, w, rfl, hans, hw⟩ :=
              finishHandshake_runs (by rw [WsIo.set_same]; exact hkey) hk
            rw [WsIo.set_same] at hans hw
            rcases hw with ⟨hrc, rfl, rfl⟩ | ⟨rfl, hw⟩
            · rw [List.append_nil]
              exact rejected hv (.unwritten hans hrc hfind hkey) rfl ho
            · rw [WsIo.set_set] at hw
              have := Service.upgrade ho hne hans ⟨_, _, rfl⟩ hw hv
              simpa only [List.cons_append, List.nil_append, List.append_assoc] using this

/-- **Serving a slot in use** is a `Service`. -/
theorem serviceClient_service (h : Runs (serviceClient sv io i) t io') :
    Service sv i io t io' := by
  obtain ⟨p, u, v, rfl, hu, hv⟩ := runs_bind.mp h
  change Runs (leave i p) v io' at hv
  rw [onClientData] at hu
  split at hu
  · rename_i ho
    exact onHandshakeData_service (by simpa using ho) hu hv
  · rename_i ho
    have ho : (io.conns i).isOpen = true := by simpa using ho
    obtain ⟨x, t₁, t₂, rfl, h₁, hk⟩ := runs_bind.mp hu
    obtain rfl := runs_request.mp h₁
    split at hk
    · rename_i hz
      obtain ⟨rfl, rfl⟩ := runs_pure.mp hk
      rw [← WsIo.set_self io i] at hv
      obtain ⟨rfl, rfl⟩ := leave_runs hv rfl
      exact .eof ho (List.length_eq_zero_iff.mp hz)
    · rename_i hz
      exact .pump ho (fun hnil => hz (by rw [hnil]; rfl)) hk hv

/-- **What every service and every arrival keeps** holds whenever the loop waits.  `Inv` holds
there as well. -/
theorem runLoop_services {P : WsIo sv.maxConns σ → Trace sv.maxConns → Prop}
    (hserve : ∀ io h i t io', Inv io h → P io h → (io.conns i).used = true →
      Service sv i io t io' → P io' (h ++ t))
    (harrive : ∀ io h t io', P io h → Arrival sv io t io' → P io' (h ++ t))
    {app : σ} {fds : List Nat} (h₀ : P (wsServe sv app) [])
    (h : Runs (runLoop sv (wsServe sv app) fds) t io) : P io t := by
  have hinit : Inv (wsServe sv app) ([] : Trace sv.maxConns) :=
    inv_run (show Runs (runLoop sv (wsServe sv app) []) [] _ from ⟨rfl, rfl⟩)
  -- over the ready descriptors, from any point of the run
  suffices hrun : ∀ (fds : List Nat) io₀ h₀ t, Inv io₀ h₀ → P io₀ h₀ →
      Runs (runLoop sv io₀ fds) t io → P io (h₀ ++ t) by
    simpa using hrun fds _ [] t hinit h₀ h
  intro fds
  induction fds with
  | nil =>
      rintro io₀ h₀ t - hP hr
      obtain ⟨rfl, rfl⟩ := runs_pure.mp hr
      rwa [List.append_nil]
  | cons fd fds ih =>
      intro io₀ h₀ t hi hP hr
      obtain ⟨io₁, t₁, t₂, rfl, h₁, hk⟩ := runs_bind.mp hr
      have hi₁ : Inv io₁ (h₀ ++ t₁) :=
        (onReadable_trail (T := fun _ _ => True) (fun _ _ _ => Reply.within_all _) h₁).inv
          (fun _ _ _ _ hi hs => hs.inv hi) hi
      have hP₁ : P io₁ (h₀ ++ t₁) := by
        rw [onReadable] at h₁
        split at h₁
        · exact harrive _ _ _ _ hP (onAccept_arrival h₁)
        · split at h₁
          · obtain ⟨rfl, rfl⟩ := runs_pure.mp h₁
            rwa [List.append_nil]
          · rename_i j hj
            exact hserve _ _ j _ _ hi hP (slotByFd_some hj).1 (serviceClient_service h₁)
      rw [← List.append_assoc]
      exact ih _ _ _ hi₁ hP₁ hk

end Runs

end Libws
