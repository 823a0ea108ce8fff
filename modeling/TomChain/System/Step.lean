import TomChain.Client.Client
import TomChain.Lib.Runs
import TomChain.Server.Handlers
import TomChain.Server.Threads

/-!
# The whole system

Servers `1 .. server-count`, clients `1 .. client-count` and the calls between them. A call is
in `calls` from the moment it is made until its caller has the answer; the caller waits. A
failed call sends its caller on, while the handler may still be running, may run later or never:
the call stays as one that nobody waits for. `foreign` makes a request of arbitrary content, as
a client that does not follow `TcClient` would.

A step is a section that the code runs under one accessor; no thread ever waits for a lock here. What
the locks add, `pb_sm_1` and those of the elements, is in `TomChain.Server.Locks`.
-/

namespace TomChain

open Flexbuffers (Flex)

variable {G D : Type}

inductive Thread where
  | send (server : ℕ) (ch : Chan)
  | pull (client : ℕ)
  | vote (client : ℕ)
  deriving DecidableEq

structure Call (G : Type) where
  target : ℕ
  caller : Option Thread
  rpc : Rpc G

structure State (G : Type) where
  server : ℕ → Server G
  client : ℕ → Client G
  calls : List (Call G)
  -- History, not in the code: the elements of `VoteBlocks` requests that were sent, and those
  -- that a server took up, each with the id of its request.
  sent : List (ℕ × Flex G)
  received : List (ℕ × Flex G)

inductive Action (G : Type) where
  | server (s : ℕ) (a : ServerAction)
  | client (c : ℕ) (a : ClientAction)
  | handle (i now : ℕ) (order : List (ℕ × ℕ))
  | ret (i : ℕ)
  | fail (i : ℕ)
  | foreign (target : ℕ) (rpc : Rpc G)

/-- The requests of the client service; ids are `uint32`. -/
def Rpc.isClientRequest : Rpc G → Bool
  | .pullPendingBlocks id none [] => id < 2 ^ 32
  | .getBlocks _ [] => true
  | .voteBlocks id _ none => id < 2 ^ 32
  | _ => false

def Rpc.votedItems : Rpc G → List (ℕ × Flex G)
  | .voteBlocks id votedBlocks _ => votedBlocks.map (id, ·)
  | _ => []

/-- The element that the next step of a `VoteBlocks` handler takes up. -/
def Rpc.takenItem : Rpc G → List (ℕ × Flex G)
  | .voteBlocks id (item :: _) none => [(id, item)]
  | _ => []

namespace State

def init (cfg : Config) : State G where
  server := Server.init cfg
  client := fun _ => .init
  calls := []
  sent := []
  received := []

def setServer (σ : State G) (s : ℕ) (srv : Server G) : State G :=
  { σ with server := Function.update σ.server s srv }

def setClient (σ : State G) (c : ℕ) (cl : Client G) : State G :=
  { σ with client := Function.update σ.client c cl }

def addCall (σ : State G) (caller : Option Thread) : Option (ℕ × Rpc G) → State G
  | none => σ
  | some (target, rpc) =>
    { σ with calls := σ.calls ++ [⟨target, caller, rpc⟩], sent := σ.sent ++ rpc.votedItems }

/-- The caller goes on with the response, or with a failure. -/
def resume (σ : State G) (response : Option (Rpc G)) : Thread → Option (State G)
  | .send s ch => ((σ.server s).resumeSend ch).map (σ.setServer s)
  | .pull c => ((σ.client c).resumePull response).map (σ.setClient c)
  | .vote c => ((σ.client c).resumeVote).map (σ.setClient c)

end State

/-- The thread of a server that makes the calls of an action. -/
def ServerAction.chan : ServerAction → Chan
  | .sendGo ch => ch
  | _ => .block

def ClientAction.thread (c : ℕ) : ClientAction → Thread
  | .pull _ => .pull c
  | _ => .vote c

def step (cfg : Config) (crypto : Crypto G D) (σ : State G) : Action G → Option (State G)
  | .server s a =>
    if 1 ≤ s ∧ s ≤ cfg.serverCount then
      ((σ.server s).act cfg crypto.merge s a).map fun r =>
        (σ.setServer s r.1).addCall (some (.send s a.chan)) r.2
    else none
  | .client c a =>
    if 1 ≤ c ∧ c ≤ cfg.clientCount then
      ((σ.client c).act cfg crypto c a).map fun r =>
        (σ.setClient c r.1).addCall (some (a.thread c)) r.2
    else none
  | .handle i now order =>
    match σ.calls[i]? with
    | none => none
    | some call =>
      ((σ.server call.target).handle cfg call.target now order call.rpc).map fun r =>
        { σ.setServer call.target r.1 with
          calls := σ.calls.set i { call with rpc := r.2 }
          received := σ.received ++ call.rpc.takenItem }
  | .ret i =>
    match σ.calls[i]? with
    | none => none
    | some call =>
      if call.rpc.finished then
        match call.caller with
        | none => some { σ with calls := σ.calls.eraseIdx i }
        | some θ => ({ σ with calls := σ.calls.eraseIdx i }).resume (some call.rpc) θ
      else none
  | .fail i =>
    match σ.calls[i]? with
    | none => none
    | some call =>
      match call.caller with
      | none => some { σ with calls := σ.calls.eraseIdx i }
      | some θ => ({ σ with calls := σ.calls.set i { call with caller := none } }).resume none θ
  | .foreign target rpc =>
    if 1 ≤ target ∧ target ≤ cfg.serverCount ∧ rpc.isClientRequest then
      some (σ.addCall none (some (target, rpc)))
    else none

/-! ## What a step can do -/

inductive Resumes (σ : State G) (response : Option (Rpc G)) : Thread → State G → Prop
  | send (s : ℕ) (ch : Chan) (srv' : Server G) : (σ.server s).resumeSend ch = some srv' →
      Resumes σ response (.send s ch) (σ.setServer s srv')
  | pull (c : ℕ) (cl' : Client G) : (σ.client c).resumePull response = some cl' →
      Resumes σ response (.pull c) (σ.setClient c cl')
  | vote (c : ℕ) (cl' : Client G) : (σ.client c).resumeVote = some cl' →
      Resumes σ response (.vote c) (σ.setClient c cl')

theorem resumes_of_resume {σ σ' : State G} {response : Option (Rpc G)} {θ : Thread}
    (h : σ.resume response θ = some σ') : Resumes σ response θ σ' := by
  cases θ with
  | send s ch => obtain ⟨srv', hr, rfl⟩ := Option.map_eq_some_iff.mp h; exact .send _ _ _ hr
  | pull c => obtain ⟨cl', hr, rfl⟩ := Option.map_eq_some_iff.mp h; exact .pull _ _ hr
  | vote c => obtain ⟨cl', hr, rfl⟩ := Option.map_eq_some_iff.mp h; exact .vote _ _ hr

inductive Steps (cfg : Config) (crypto : Crypto G D) (σ : State G) : Action G → State G → Prop
  | server (s : ℕ) (a : ServerAction) (srv' : Server G) (out : Option (ℕ × Rpc G)) :
      1 ≤ s → s ≤ cfg.serverCount → (σ.server s).Acts cfg crypto.merge s a srv' out →
      Steps cfg crypto σ (.server s a) ((σ.setServer s srv').addCall (some (.send s a.chan)) out)
  | client (c : ℕ) (a : ClientAction) (cl' : Client G) (out : Option (ℕ × Rpc G)) :
      1 ≤ c → c ≤ cfg.clientCount → (σ.client c).Acts cfg crypto c a cl' out →
      Steps cfg crypto σ (.client c a) ((σ.setClient c cl').addCall (some (a.thread c)) out)
  | handle (i now : ℕ) (order : List (ℕ × ℕ)) (call : Call G) (srv' : Server G) (rpc' : Rpc G) :
      σ.calls[i]? = some call →
      (σ.server call.target).Handles cfg call.target now call.rpc srv' rpc' →
      Steps cfg crypto σ (.handle i now order) { σ.setServer call.target srv' with
        calls := σ.calls.set i { call with rpc := rpc' }
        received := σ.received ++ call.rpc.takenItem }
  | retOrphan (i : ℕ) (call : Call G) : σ.calls[i]? = some call → call.rpc.finished = true →
      call.caller = none → Steps cfg crypto σ (.ret i) { σ with calls := σ.calls.eraseIdx i }
  | ret (i : ℕ) (call : Call G) (θ : Thread) (σ' : State G) : σ.calls[i]? = some call →
      call.rpc.finished = true → call.caller = some θ →
      Resumes { σ with calls := σ.calls.eraseIdx i } (some call.rpc) θ σ' →
      Steps cfg crypto σ (.ret i) σ'
  | failOrphan (i : ℕ) (call : Call G) : σ.calls[i]? = some call → call.caller = none →
      Steps cfg crypto σ (.fail i) { σ with calls := σ.calls.eraseIdx i }
  | fail (i : ℕ) (call : Call G) (θ : Thread) (σ' : State G) : σ.calls[i]? = some call →
      call.caller = some θ →
      Resumes { σ with calls := σ.calls.set i { call with caller := none } } none θ σ' →
      Steps cfg crypto σ (.fail i) σ'
  | foreign (target : ℕ) (rpc : Rpc G) : 1 ≤ target → target ≤ cfg.serverCount →
      rpc.isClientRequest = true →
      Steps cfg crypto σ (.foreign target rpc) (σ.addCall none (some (target, rpc)))

theorem steps_of_step {cfg : Config} {crypto : Crypto G D} {σ σ' : State G} {a : Action G}
    (h : step cfg crypto σ a = some σ') : Steps cfg crypto σ a σ' := by
  unfold step at h
  split at h
  · split at h
    · rename_i hs
      obtain ⟨⟨srv', out⟩, ha, rfl⟩ := Option.map_eq_some_iff.mp h
      exact .server _ _ _ _ hs.1 hs.2 (Server.acts_of_act ha)
    · cases h
  · split at h
    · rename_i hc
      obtain ⟨⟨cl', out⟩, ha, rfl⟩ := Option.map_eq_some_iff.mp h
      exact .client _ _ _ _ hc.1 hc.2 (Client.acts_of_act ha)
    · cases h
  · split at h
    · cases h
    · rename_i call hi
      obtain ⟨⟨srv', rpc'⟩, hh, rfl⟩ := Option.map_eq_some_iff.mp h
      exact .handle _ _ _ _ _ _ hi (Server.handles_of_handle hh)
  · split at h
    · cases h
    · rename_i call hi
      split at h
      · rename_i hf
        split at h
        · rename_i hc; cases h; exact .retOrphan _ _ hi hf hc
        · rename_i hc; exact .ret _ _ _ _ hi hf hc (resumes_of_resume h)
      · cases h
  · split at h
    · cases h
    · rename_i call hi
      split at h
      · rename_i hc; cases h; exact .failOrphan _ _ hi hc
      · rename_i hc; exact .fail _ _ _ _ hi hc (resumes_of_resume h)
  · split at h
    · rename_i hc; cases h; exact .foreign _ _ hc.1 hc.2.1 hc.2.2
    · cases h

/-! ## Frame facts -/

section Frame

variable (σ : State G) (s s' c : ℕ) (srv : Server G) (cl : Client G) (caller : Option Thread)
  (out : Option (ℕ × Rpc G))

@[simp] theorem State.setServer_server :
    (σ.setServer s srv).server s' = if s' = s then srv else σ.server s' := by
  simp [setServer, Function.update_apply]

@[simp] theorem State.setServer_client : (σ.setServer s srv).client = σ.client := rfl

@[simp] theorem State.setServer_calls : (σ.setServer s srv).calls = σ.calls := rfl

@[simp] theorem State.setServer_sent : (σ.setServer s srv).sent = σ.sent := rfl

@[simp] theorem State.setServer_received : (σ.setServer s srv).received = σ.received := rfl

@[simp] theorem State.setClient_client (c' : ℕ) :
    (σ.setClient c cl).client c' = if c' = c then cl else σ.client c' := by
  simp [setClient, Function.update_apply]

@[simp] theorem State.setClient_server : (σ.setClient c cl).server = σ.server := rfl

@[simp] theorem State.setClient_calls : (σ.setClient c cl).calls = σ.calls := rfl

@[simp] theorem State.setClient_sent : (σ.setClient c cl).sent = σ.sent := rfl

@[simp] theorem State.setClient_received : (σ.setClient c cl).received = σ.received := rfl

@[simp] theorem State.addCall_server : (σ.addCall caller out).server = σ.server := by
  cases out <;> rfl

@[simp] theorem State.addCall_client : (σ.addCall caller out).client = σ.client := by
  cases out <;> rfl

@[simp] theorem State.addCall_received : (σ.addCall caller out).received = σ.received := by
  cases out <;> rfl

def madeCall (caller : Option Thread) (out : Option (ℕ × Rpc G)) : List (Call G) :=
  out.toList.map fun r => ⟨r.1, caller, r.2⟩

@[simp] theorem State.addCall_calls :
    (σ.addCall caller out).calls = σ.calls ++ madeCall caller out := by
  cases out <;> simp [addCall, madeCall]

theorem State.mem_addCall {σ : State G} {caller : Option Thread} {out : Option (ℕ × Rpc G)}
    {call : Call G} (h : call ∈ (σ.addCall caller out).calls) :
    call ∈ σ.calls ∨ ∃ r, out = some r ∧ call = ⟨r.1, caller, r.2⟩ := by
  rw [State.addCall_calls] at h
  rcases List.mem_append.mp h with h | h
  · exact .inl h
  · obtain ⟨r, hr, rfl⟩ := List.mem_map.mp h
    exact .inr ⟨r, Option.mem_toList.mp hr, rfl⟩

@[simp] theorem State.addCall_sent :
    (σ.addCall caller out).sent = σ.sent ++ out.toList.flatMap fun r => r.2.votedItems := by
  cases out <;> simp [addCall]

end Frame

end TomChain
