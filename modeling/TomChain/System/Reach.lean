import TomChain.Server.Heap
import TomChain.System.Step

/-!
# Reachable states

A run starts from `State.init`. Whatever happens in it, a step changes a server only by one of
its own moves (`Steps.moves`); so what every move preserves holds on every server of every
reachable state (`Reachable.server_invariant`).
-/

namespace TomChain

open Runs Server
open Flexbuffers (Flex)

variable {G D : Type} {cfg : Config} {crypto : Crypto G D} {σ σ' : State G} {a : Action G}
  {ok : State G → Action G → Bool}

def Reaches (cfg : Config) (crypto : Crypto G D) (ok : State G → Action G → Bool) :
    State G → State G → Prop :=
  Run (step cfg crypto) fun σ a => ok σ a

/-- The states that runs under the guard `ok` reach. -/
def Reachable (cfg : Config) (crypto : Crypto G D) (ok : State G → Action G → Bool)
    (σ : State G) : Prop :=
  Reaches cfg crypto ok (State.init cfg) σ

theorem Resumes.moves {response : Option (Rpc G)} {θ : Thread} (h : Resumes σ response θ σ') (s : ℕ) :
    σ'.server s = σ.server s ∨ (σ.server s).Moves cfg crypto.merge s (σ'.server s) := by
  cases h with
  | send s' ch srv' h =>
    by_cases hs : s = s'
    · subst hs
      simpa using .inr (.resume ch h)
    · simp [hs]
  | pull | vote => exact .inl rfl

/-- A step changes a server by one of the server's moves, or not at all. -/
theorem Steps.moves (h : Steps cfg crypto σ a σ') (s : ℕ) :
    σ'.server s = σ.server s ∨ (σ.server s).Moves cfg crypto.merge s (σ'.server s) := by
  cases h with
  | server s' a srv' out _ _ ha =>
    by_cases hs : s = s'
    · subst hs
      simpa using .inr (.act a out ha)
    · simp [hs]
  | client => exact .inl (by simp)
  | handle i now order call srv' rpc' _ hh =>
    by_cases hs : s = call.target
    · subst hs
      simpa using .inr (.handle now call.rpc rpc' hh)
    · simp [hs]
  | retOrphan | failOrphan => exact .inl rfl
  | ret i call θ _ _ _ _ hr => simpa using hr.moves s
  | fail i call θ _ _ _ hr => simpa using hr.moves s
  | foreign => exact .inl (by simp)

theorem Steps.later (h : Steps cfg crypto σ a σ') (s : ℕ) : (σ.server s).Later (σ'.server s) := by
  rcases h.moves s with he | hm
  · rw [he]; exact .refl _
  · exact hm.later

/-- The elements of `VoteBlocks` requests that servers took up stay on record. -/
theorem Steps.received (h : Steps cfg crypto σ a σ') : σ.received <+: σ'.received := by
  cases h with
  | handle => exact List.prefix_append _ _
  | ret i call θ _ _ _ _ hr | fail i call θ _ _ _ hr => cases hr <;> exact List.prefix_rfl
  | server | client | foreign => simp
  | retOrphan | failOrphan => exact List.prefix_rfl

namespace Reachable

/-- What every move of a server preserves holds on every server. -/
theorem server_invariant (P : ℕ → Server G → Prop) (h₀ : ∀ s, P s (Server.init cfg s))
    (hmove : ∀ s srv srv', P s srv → srv.Moves cfg crypto.merge s srv' → P s srv')
    (h : Reachable cfg crypto ok σ) (s : ℕ) : P s (σ.server s) := by
  refine h.invariant (fun σ => P s (σ.server s)) (h₀ s) fun σ a σ' _ _ hP hs => ?_
  rcases (steps_of_step hs).moves s with he | hm
  · rw [he]; exact hP
  · exact hmove s _ _ hP hm

theorem wf (h : Reachable cfg crypto ok σ) (s : ℕ) : (σ.server s).WF :=
  h.server_invariant (fun _ srv => srv.WF) (wf_init cfg) (fun _ _ _ hwf hm => hm.wf hwf) s

end Reachable

theorem Reaches.later (h : Reaches cfg crypto ok σ σ') (s : ℕ) :
    (σ.server s).Later (σ'.server s) := by
  induction h with
  | refl => exact .refl _
  | next a _ _ hs ih => exact ih.trans ((steps_of_step hs).later s)

/-! ## The snapshots of `PullPendingBlocks` -/

/-- Every snapshot pairs an id with the address of a block of that id. -/
def SnapshotsOk (σ : State G) : Prop :=
  ∀ call ∈ σ.calls, ∀ x ∈ call.rpc.snapshot, (σ.server call.target).idAt x.2 = some x.1

theorem Server.Handles.snapshot {s now : ℕ} {srv srv' : Server G} {rpc rpc' : Rpc G} (hwf : srv.WF)
    (h : srv.Handles cfg s now rpc srv' rpc') (hsnap : ∀ x ∈ rpc.snapshot, srv.idAt x.2 = some x.1) :
    ∀ x ∈ rpc'.snapshot, srv.idAt x.2 = some x.1 := by
  cases h with
  | pullBegin id order pbHdrs hp =>
    intro x hx
    have hm : x ∈ srv.pendingBlks.toList := hp.mem_iff.mp hx
    exact hwf.pending _ _ (Std.ExtTreeMap.mem_toList_iff_getElem?_eq_some.mp hm)
  | pullItem => exact fun x hx => hsnap x (List.mem_cons_of_mem _ hx)
  | _ => exact fun x hx => by cases hx

theorem Server.Acts.snapshot {s target : ℕ} {srv srv' : Server G} {a : ServerAction} {rpc : Rpc G}
    (h : srv.Acts cfg crypto.merge s a srv' (some (target, rpc))) : rpc.snapshot = [] := by
  cases h with
  | sendGo ch => cases ch <;> rfl
  | syncSend => rfl

theorem Client.Acts.snapshot {c target : ℕ} {cl cl' : Client G} {a : ClientAction} {rpc : Rpc G}
    (h : cl.Acts cfg crypto c a cl' (some (target, rpc))) : rpc.snapshot = [] := by
  cases h <;> rfl

/-- Where the calls after a step come from: they were there before (with another caller perhaps),
they were made in the step, or the step handled them. -/
theorem Steps.call_cases (h : Steps cfg crypto σ a σ') {call : Call G} (hm : call ∈ σ'.calls) :
    (∃ call₀ ∈ σ.calls, call₀.target = call.target ∧ call₀.rpc = call.rpc) ∨
    (∃ s sa srv', 1 ≤ s ∧ s ≤ cfg.serverCount ∧ a = .server s sa ∧
      (σ.server s).Acts cfg crypto.merge s sa srv' (some (call.target, call.rpc))) ∨
    (∃ c ca cl', 1 ≤ c ∧ c ≤ cfg.clientCount ∧ a = .client c ca ∧
      (σ.client c).Acts cfg crypto c ca cl' (some (call.target, call.rpc))) ∨
    (∃ i now order rpc, a = .handle i now order ∧
      σ.calls[i]? = some { call with rpc := rpc } ∧
      (σ.server call.target).Handles cfg call.target now rpc (σ'.server call.target) call.rpc) ∨
    (a = .foreign call.target call.rpc ∧ call.rpc.isClientRequest = true) := by
  cases h with
  | server s sa srv' out h1 h2 ha =>
    rcases State.mem_addCall hm with hm | ⟨r, rfl, rfl⟩
    · exact .inl ⟨call, hm, rfl, rfl⟩
    · exact .inr (.inl ⟨s, sa, srv', h1, h2, rfl, ha⟩)
  | client c ca cl' out h1 h2 ha =>
    rcases State.mem_addCall hm with hm | ⟨r, rfl, rfl⟩
    · exact .inl ⟨call, hm, rfl, rfl⟩
    · exact .inr (.inr (.inl ⟨c, ca, cl', h1, h2, rfl, ha⟩))
  | handle i now order call₀ srv' rpc' hi hh =>
    rcases List.mem_or_eq_of_mem_set hm with hm | rfl
    · exact .inl ⟨call, hm, rfl, rfl⟩
    · refine .inr (.inr (.inr (.inl ⟨i, now, order, call₀.rpc, rfl, hi, ?_⟩)))
      simpa using hh
  | retOrphan i | failOrphan i => exact .inl ⟨call, List.mem_of_mem_eraseIdx hm, rfl, rfl⟩
  | ret i call₀ θ σ' _ _ _ hr =>
    have hm' : call ∈ σ.calls.eraseIdx i := by cases hr <;> exact hm
    exact .inl ⟨call, List.mem_of_mem_eraseIdx hm', rfl, rfl⟩
  | fail i call₀ θ σ' hi _ hr =>
    have hm' : call ∈ σ.calls.set i { call₀ with caller := none } := by cases hr <;> exact hm
    rcases List.mem_or_eq_of_mem_set hm' with hm | rfl
    · exact .inl ⟨call, hm, rfl, rfl⟩
    · exact .inl ⟨call₀, List.mem_of_getElem? hi, rfl, rfl⟩
  | foreign target rpc _ _ hc =>
    rcases State.mem_addCall hm with hm | ⟨r, hr, rfl⟩
    · exact .inl ⟨call, hm, rfl, rfl⟩
    · cases hr
      exact .inr (.inr (.inr (.inr ⟨rfl, hc⟩)))

theorem Reachable.snapshots (h : Reachable cfg crypto ok σ) : SnapshotsOk σ := by
  refine h.invariant SnapshotsOk (by intro call hm; cases hm) fun σ a σ' hr _ hsnap hs => ?_
  have hst := steps_of_step hs
  intro call hm x hx
  refine idAt_grows (hst.later _).heap ?_
  rcases hst.call_cases hm with ⟨call₀, hm₀, ht, hrpc⟩ | ⟨_, _, _, _, _, _, ha⟩ |
    ⟨_, _, _, _, _, _, ha⟩ | ⟨i, now, order, rpc, _, hi, hh⟩ | ⟨_, hc⟩
  · rw [← ht]
    exact hsnap call₀ hm₀ x (by rw [hrpc]; exact hx)
  · rw [ha.snapshot] at hx; cases hx
  · rw [ha.snapshot] at hx; cases hx
  · exact hh.snapshot (Reachable.wf hr _) (hsnap _ (List.mem_of_getElem? hi)) x hx
  · revert hx hc
    cases call.rpc with
    | pullPendingBlocks id todo hdrs => cases todo <;> simp [Rpc.isClientRequest, Rpc.snapshot]
    | _ => simp [Rpc.snapshot]

/-! ## A round -/

def unguarded (_ : State G) (_ : Action G) : Bool := true

/-- Clients run `TcClient`. -/
def honest (_ : State G) : Action G → Bool
  | .foreign _ _ => false
  | _ => true

/-- Two servers and two clients, one transaction in a block. The scripts below are put together
to concrete runs; a script expects that no call is in progress when it starts. -/
def sampleConfig : Config := ⟨2, 2, 1, 1, 5, 10, 100000, true⟩

namespace Script

/-- Server 2 creates the block with id 2000000 and queues it for server 1. -/
def packBlock : List (Action Point) :=
  [.server 2 .packCheck, .server 2 (.packGenerate [⟨1, 2, 3, 0, 4⟩]), .server 2 (.packBegin 50 [1]),
    .server 2 .packPush]

/-- A relay thread sends the `n` elements of its only queue, and its peer handles them. -/
def relay (s : ℕ) (ch : Chan) (n : ℕ) : List (Action Point) :=
  ([.server s (.sendStart ch)] : List (Action Point)) ++
    List.replicate n (.server s (.sendPop ch) : Action Point) ++
    ([.server s (.sendGo ch)] : List (Action Point)) ++
    List.replicate n (.handle 0 100 [] : Action Point) ++ ([.ret 0] : List (Action Point))

/-- The sync signal for one block, up to the label of the sender. -/
def sync : List (Action Point) :=
  [.server 2 .syncPop, .server 2 .syncSend, .handle 0 100 [], .ret 0, .server 2 .syncLabel,
    .server 2 .syncPop]

/-- A pull round of a client when both servers hold the labelled block at address 0. -/
def pull (c now : ℕ) : List (Action Point) :=
  [.client c (.pull []), .handle 0 now [(2000000, 0)], .handle 0 now [], .ret 0,
    .client c (.pull []), .handle 0 now [(2000000, 0)], .handle 0 now [], .ret 0,
    .client c (.pull [2000000]), .handle 0 now [], .ret 0, .client c (.pull []), .ret 0]

def vote (c : ℕ) : List (Action Point) :=
  [.client c .votePop, .client c .voteSend, .handle 0 200 [], .handle 0 200 [], .ret 0,
    .client c .voteSend, .handle 0 200 [], .handle 0 200 [], .ret 0]

def merge (s : ℕ) : List (Action Point) :=
  [.server s .mergePop, .server s (.mergeCommit 300), .server s .mergePush, .server s .mergePush]

/-- One block from packing to the commit on both servers. -/
def round : List (Action Point) :=
  packBlock ++ [.server 2 .packInsert] ++ relay 2 .block 1 ++ sync ++ pull 1 100 ++ pull 2 100 ++
    vote 1 ++ vote 2 ++ relay 1 .vote 2 ++ relay 2 .vote 2 ++ merge 1 ++ merge 2 ++
    relay 1 .commit 1 ++ relay 2 .commit 1

def lateConfig : Config := ⟨3, 1, 1, 1, 5, 10, 100000, true⟩

/-- A relay thread sends one element to its current target. -/
def send (s : ℕ) (ch : Chan) : List (Action Point) :=
  [.server s (.sendPop ch), .server s (.sendGo ch), .handle 0 100 [], .ret 0]

/-- The sync signal of one block from server 3 to servers 1 and 2. -/
def syncBoth : List (Action Point) :=
  [.server 3 .syncPop, .server 3 .syncSend, .handle 0 100 [], .ret 0, .server 3 .syncSend,
    .handle 0 100 [], .ret 0, .server 3 .syncLabel, .server 3 .syncPop]

/-- `pack_block` on server 3 from start to end. -/
def packLate : List (Action Point) :=
  [.server 3 .packCheck, .server 3 (.packGenerate [⟨1, 2, 3, 0, 4⟩]), .server 3 (.packBegin 50 [1]),
    .server 3 .packPush, .server 3 .packPush, .server 3 .packInsert]

end Script

/-- A decidable property of the end of a guarded script holds in a reachable state. -/
theorem exists_reachable (cfg : Config) (crypto : Crypto G D) (ok : State G → Action G → Bool)
    (script : List (Action G)) (p : State G → Bool)
    (h : (exec (step cfg crypto) ok (State.init cfg) script).any p = true) :
    ∃ σ, Reachable cfg crypto ok σ ∧ p σ = true :=
  Run.exists_of_exec (fun _ _ h => h) h

end TomChain
