import TomChain.Server.Offers
import TomChain.System.Callers
import TomChain.System.Startup
import TomChain.System.Votes

/-!
# The data never stop a handler

When clients run `TcClient`, no handler throws and none uses a lookup that found nothing, and the
thread that made a call can use its response. A handler that runs alone makes at most `Rpc.left` steps.

A step is a whole section under an accessor, and `pb_sm_1` and the locks of the elements are no part
of it. A handler that waits for a lock is the subject of `TomChain.Server.Locks`.
-/

namespace TomChain

open Std (ExtTreeMap ExtTreeSet)
open Runs Server
open Flexbuffers (Flex toBytes fromBytes voteFromBytes)

variable {G D : Type} {cfg : Config} {crypto : Crypto G D} {σ σ' : State G} {a : Action G}
  {ok : State G → Action G → Bool}

/-! ## The lookups -/

/-- A server has a profile for every client and a queue of votes for every peer. -/
structure Server.LookupsOk (cfg : Config) (s : ℕ) (srv : Server G) : Prop where
  clients : ∀ c, c ∈ srv.clients ↔ 1 ≤ c ∧ c ≤ cfg.clientCount
  relayVotes : ∀ t, t ∈ srv.relayVotes ↔ t ∈ peerIds cfg.serverCount s

theorem Server.LookupsOk.sameKeys {s : ℕ} {srv srv' : Server G} (h : srv.LookupsOk cfg s)
    (hk : srv.SameKeys srv') : srv'.LookupsOk cfg s where
  clients c := (hk.clients c).trans (h.clients c)
  relayVotes t := (hk.relayVotes t).trans (h.relayVotes t)

theorem Reachable.lookupsOk (h : Reachable cfg crypto ok σ) (s : ℕ) :
    (σ.server s).LookupsOk cfg s :=
  h.server_invariant (fun s srv => srv.LookupsOk cfg s)
    (fun _ => ⟨fun _ => mem_initClients, fun _ => mem_initQueues⟩)
    (fun _ _ _ hl hm => hl.sameKeys hm.sameKeys) s

/-- The target servers of a block are this server and servers that it has a queue for. -/
theorem Server.LookupsOk.voteBlocksItem {s id : ℕ} {srv : Server G} (h : srv.LookupsOk cfg s)
    (hS : 1 ≤ cfg.serverCount) (block : Block G) : srv.voteBlocksItem cfg s id block ≠ none := by
  have hpush : ∀ vote : BlockVote G, srv.pushVotes vote
      ((block.getServerId cfg.serverCount).toList.filter (· ≠ s)) ≠ none := by
    intro vote
    rw [← Option.isSome_iff_ne_none, pushVotes_isSome]
    intro t ht
    obtain ⟨hm, hne⟩ := List.mem_filter.mp ht
    obtain ⟨ht1, ht2⟩ := Block.getServerId_range hS (ExtTreeSet.mem_toList.mp hm)
    exact (h.relayVotes t).mpr (mem_peerIds.mpr ⟨ht1, ht2, by simpa using hne⟩)
  unfold Server.voteBlocksItem
  split
  · exact Option.some_ne_none _
  · rename_i vote _
    split
    · exact Option.some_ne_none _
    · dsimp only
      split
      · rename_i hnone
        exact absurd hnone (hpush vote)
      · exact Option.some_ne_none _

/-! ## The elements of the requests -/

/-- The block that a request or a response of honest clients carries can be decoded: its votes have
the ids of clients as keys. -/
theorem fromBytes_honest (hC : cfg.clientCount ≤ Decimal.intMax) {b : Block G}
    (hb : HonestVotes cfg crypto b) : (fromBytes (toBytes b)).isSome := by
  rw [Flexbuffers.fromBytes_toBytes b fun k hk => ?_]
  · rfl
  · obtain ⟨v, hv⟩ := Option.isSome_iff_exists.mp (ExtTreeMap.mem_iff_isSome_getElem?.mp hk)
    exact (hb k v hv).2.1.trans hC

theorem fromBytes_honest_item (hC : cfg.clientCount ≤ Decimal.intMax) {c : ℕ} {item : Flex G}
    (hF : (honestFlow cfg crypto).item c item) : (fromBytes item).isSome := by
  obtain ⟨-, hc, b, hb, rfl⟩ := hF
  rw [Flexbuffers.fromBytes_toBytes _ fun k hk => ?_]
  · rfl
  · rcases Block.mem_insertVote.mp hk with rfl | hk
    · exact hc.trans hC
    · obtain ⟨v, hv⟩ := Option.isSome_iff_exists.mp (ExtTreeMap.mem_iff_isSome_getElem?.mp hk)
      exact (hb k v hv).2.1.trans hC

/-- The call is not broken, and a pull is that of a client with a profile. -/
def Rpc.Registered (cfg : Config) : Rpc G → Prop
  | .pullPendingBlocks id _ _ => 1 ≤ id ∧ id ≤ cfg.clientCount
  | .failed | .undefined => False
  | _ => True

theorem Rpc.Registered.not_broken {rpc : Rpc G} (h : rpc.Registered cfg) : rpc.broken = false := by
  cases rpc with
  | failed | undefined => exact h.elim
  | _ => rfl

theorem Server.Acts.registered {s : ℕ} {srv srv' : Server G} {sa : ServerAction} {r : ℕ × Rpc G}
    (h : srv.Acts cfg crypto.merge s sa srv' (some r)) : r.2.Registered cfg := by
  cases h with
  | sendGo ch => cases ch <;> trivial
  | syncSend => trivial

theorem Client.Acts.registered {c : ℕ} {cl cl' : Client G} {ca : ClientAction} {r : ℕ × Rpc G}
    (hc : 1 ≤ c ∧ c ≤ cfg.clientCount) (h : cl.Acts cfg crypto c ca cl' (some r)) :
    r.2.Registered cfg := by
  cases h with
  | pull => exact hc
  | get | voteSend => trivial

/-- No exception leaves the handler, and no lookup finds nothing. -/
theorem Server.Handles.registered {s now : ℕ} {srv srv' : Server G} {rpc rpc' : Rpc G}
    (hS : 1 ≤ cfg.serverCount) (hC : cfg.clientCount ≤ Decimal.intMax) (hl : srv.LookupsOk cfg s)
    (hF : (honestFlow cfg crypto).RpcOk cfg rpc) (hreg : rpc.Registered cfg)
    (h : srv.Handles cfg s now rpc srv' rpc') : rpc'.Registered cfg := by
  cases h with
  | relayVoteFailed item rest hd =>
    obtain ⟨v, -, rfl⟩ := hF item (List.mem_cons_self ..)
    rw [Flexbuffers.voteFromBytes_toBytes] at hd
    cases hd
  | relayBlockFailed item rest hd =>
    obtain ⟨b, hb, rfl⟩ := hF item (List.mem_cons_self ..)
    have := fromBytes_honest hC hb
    rw [hd] at this
    cases this
  | spBcastCommitFailed item rest hd =>
    obtain ⟨b, hb, -, -, rfl⟩ := hF item (List.mem_cons_self ..)
    have := fromBytes_honest hC hb
    rw [hd] at this
    cases this
  | voteBlocksFailed id item rest hd =>
    have := fromBytes_honest_item hC (hF.1 item (List.mem_cons_self ..))
    rw [hd] at this
    cases this
  | pullUndefined id blockId p todo pbHdrs b hb hi =>
    obtain ⟨seen, hseen⟩ := Option.isSome_iff_exists.mp
      (ExtTreeMap.mem_iff_isSome_getElem?.mp ((hl.clients id).mpr hreg))
    exact absurd hi (Server.pullItem_ne_none hseen)
  | voteBlocksUndefined id item rest block hd hi => exact absurd hi (hl.voteBlocksItem hS block)
  | pullBegin | pullItem => exact hreg
  | _ => trivial

theorem Reachable.registered (hS : 1 ≤ cfg.serverCount) (hC : cfg.clientCount ≤ Decimal.intMax)
    (h : Reachable cfg crypto honest σ) : ∀ call ∈ σ.calls, call.rpc.Registered cfg := by
  refine h.invariant (fun σ => ∀ call ∈ σ.calls, call.rpc.Registered cfg) (by simp [State.init])
    fun σ a σ' hr ha hcalls hs call hm => ?_
  rcases (steps_of_step hs).call_cases hm with ⟨call₀, hm₀, -, hrpc⟩ | ⟨_, _, _, _, _, _, hact⟩ |
    ⟨_, _, _, h1, h2, _, hact⟩ | ⟨i, now, order, rpc, rfl, hi, hh⟩ | ⟨rfl, -⟩
  · rw [← hrpc]
    exact hcalls call₀ hm₀
  · exact hact.registered
  · exact hact.registered ⟨h1, h2⟩
  · have hm₀ := List.mem_of_getElem? hi
    exact hh.registered hS hC (Reachable.lookupsOk hr _)
      ((honestFlow_clean (fun _ _ h => h) hr).calls _ hm₀) (hcalls _ hm₀)
  · cases ha

/-! ## A handler that goes on -/

/-- The steps that the handler still has to make, at most. -/
def Rpc.left (srv : Server G) : Rpc G → ℕ
  | .relayVote votes => votes.length
  | .relayBlock blocks => blocks.length
  | .spBcastCommit blocks => blocks.length
  | .relayBlockSync _ handled => if handled then 0 else 1
  | .pullPendingBlocks _ none _ => srv.pendingBlks.size + 1
  | .pullPendingBlocks _ (some todo) _ => todo.length
  | .getBlocks pbHdrs _ => pbHdrs.length
  | .voteBlocks _ votedBlocks current => 2 * votedBlocks.length + current.toList.length
  | .failed | .undefined => 0

theorem Server.Handles.left {s now : ℕ} {srv srv' : Server G} {rpc rpc' : Rpc G}
    (h : srv.Handles cfg s now rpc srv' rpc') : rpc'.left srv' < rpc.left srv := by
  cases h with
  | pullBegin id order pbHdrs hp =>
    have hlen : order.length = srv.pendingBlks.size := by
      rw [hp.length_eq, ExtTreeMap.length_toList]
    simp [Rpc.left, hlen]
  | voteBlocks id item rest block _ current =>
    cases current with
    | none => simp [Rpc.left]
    | some r =>
      simp only [Rpc.left, List.length_cons, Option.toList, List.length_nil]
      omega
  | _ => simp [Rpc.left]

/-- A handler that is not at its end can make its next step, whatever the clock says. -/
theorem Server.handle_isSome {s : ℕ} {srv : Server G} {rpc : Rpc G} (hreg : rpc.Registered cfg)
    (hsnap : ∀ x ∈ rpc.snapshot, srv.idAt x.2 = some x.1) (hf : rpc.finished = false) (now : ℕ) :
    ∃ order r, srv.handle cfg s now order rpc = some r := by
  cases rpc with
  | relayVote items | relayBlock items | spBcastCommit items =>
    cases items with
    | nil => cases hf
    | cons item rest =>
      refine ⟨[], ?_⟩
      simp only [Server.handle]
      split <;> exact ⟨_, rfl⟩
  | relayBlockSync id handled =>
    cases handled with
    | false => exact ⟨[], _, rfl⟩
    | true => cases hf
  | pullPendingBlocks id todo pbHdrs =>
    rcases todo with - | - | ⟨⟨blockId, p⟩, todo⟩
    · refine ⟨srv.pendingBlks.toList, ?_⟩
      simp only [Server.handle, List.isPerm_iff, List.Perm.refl, if_true]
      exact ⟨_, rfl⟩
    · cases hf
    · obtain ⟨b, hb, -⟩ := idAt_eq_some.mp (hsnap _ (List.mem_cons_self ..))
      refine ⟨[], ?_⟩
      simp only [Server.handle, hb]
      split <;> exact ⟨_, rfl⟩
  | getBlocks hdrs pb =>
    cases hdrs with
    | nil => cases hf
    | cons hdr rest => exact ⟨[], _, rfl⟩
  | voteBlocks id items current =>
    cases current with
    | some r => exact ⟨[], _, rfl⟩
    | none =>
      cases items with
      | nil => cases hf
      | cons item rest =>
        refine ⟨[], ?_⟩
        simp only [Server.handle]
        split
        · exact ⟨_, rfl⟩
        · split <;> exact ⟨_, rfl⟩
  | failed | undefined => exact hreg.elim

theorem Reachable.handle_isSome (hS : 1 ≤ cfg.serverCount) (hC : cfg.clientCount ≤ Decimal.intMax)
    (h : Reachable cfg crypto honest σ) {i : ℕ} {call : Call G} (hi : σ.calls[i]? = some call)
    (hf : call.rpc.finished = false) (now : ℕ) :
    ∃ order σ', step cfg crypto σ (.handle i now order) = some σ' := by
  have hm := List.mem_of_getElem? hi
  have hnext : ∃ order r, (σ.server call.target).handle cfg call.target now order call.rpc = some r :=
    Server.handle_isSome (h.registered hS hC call hm) (h.snapshots call hm) hf now
  obtain ⟨order, r, hr⟩ := hnext
  exact ⟨order, _, by simp only [step, hi, hr, Option.map_some]; rfl⟩

/-! ## A caller that goes on -/

theorem Client.receiveBlocks_isSome {pb : List (Flex G)} (h : ∀ item ∈ pb, (fromBytes item).isSome)
    (cl : Client G) : (cl.receiveBlocks pb).isSome := by
  induction pb generalizing cl with
  | nil => rfl
  | cons item rest ih =>
    obtain ⟨block, hd⟩ := Option.isSome_iff_exists.mp (h item (List.mem_cons_self ..))
    simp only [Client.receiveBlocks, hd]
    exact ih (fun item hm => h item (List.mem_cons_of_mem _ hm)) _

/-- A thread that waits can go on from a response of honest servers and clients. -/
theorem State.resume_isSome (hC : cfg.clientCount ≤ Decimal.intMax) {rpc : Rpc G} {θ : Thread}
    (hw : σ.waits θ = 1) (hF : (honestFlow cfg crypto).RpcOk cfg rpc) :
    (σ.resume (some rpc) θ).isSome := by
  cases θ with
  | send s ch =>
    simp only [State.waits] at hw
    simp only [State.resume, Option.isSome_map, Server.resumeSend]
    cases hpc : (σ.server s).send ch with
    | wait | syncWait => rfl
    | idle | drain | sync | syncSend => rw [hpc] at hw; cases hw
  | pull c =>
    simp only [State.waits] at hw
    simp only [State.resume, Option.isSome_map, Client.resumePull]
    cases hpc : (σ.client c).pull with
    | ready => rw [hpc] at hw; cases hw
    | wait stage =>
      cases rpc with
      | getBlocks hdrs pb =>
        refine Client.receiveBlocks_isSome (fun item hm => ?_) _
        obtain ⟨b, hb, rfl⟩ := hF.2 item hm
        exact fromBytes_honest hC hb
      | _ => rfl
  | vote c =>
    simp only [State.waits] at hw
    simp only [State.resume, Option.isSome_map, Client.resumeVote]
    cases hpc : (σ.client c).vote with
    | wait request stubs => cases stubs <;> rfl
    | idle | send => rw [hpc] at hw; cases hw

theorem Reachable.ret_isSome (hC : cfg.clientCount ≤ Decimal.intMax)
    (h : Reachable cfg crypto honest σ) {i : ℕ} {call : Call G} (hi : σ.calls[i]? = some call)
    (hf : call.rpc.finished = true) : ∃ σ', step cfg crypto σ (.ret i) = some σ' := by
  have hm := List.mem_of_getElem? hi
  simp only [step, hi, if_pos hf]
  cases hc : call.caller with
  | none => exact ⟨_, rfl⟩
  | some θ =>
    have hw : ({ σ with calls := σ.calls.eraseIdx i } : State G).waits θ = 1 := by
      rw [← h.waits_of_mem hm hc]
      cases θ <;> rfl
    exact Option.isSome_iff_exists.mp
      (State.resume_isSome hC hw ((honestFlow_clean (fun _ _ h => h) h).calls call hm))

/-! ## A handler that runs alone -/

def handling (i : ℕ) (_ : State G) : Action G → Bool
  | .handle j _ _ => j = i
  | _ => false

theorem honest_of_handling {i : ℕ} (h : handling i σ a) : honest σ a := by
  cases a with
  | handle => rfl
  | _ => cases h

/-- From `σ` on, the handler of `call` has run, and nothing else. -/
structure HandledAlone (σ : State G) (i : ℕ) (call : Call G) (σ' : State G) : Prop where
  calls : ∃ rpc', σ'.calls = σ.calls.set i { call with rpc := rpc' }
  client : σ'.client = σ.client
  server : ∀ s, s ≠ call.target → σ'.server s = σ.server s

variable {i : ℕ} {call : Call G}

theorem HandledAlone.refl (hi : σ.calls[i]? = some call) : HandledAlone σ i call σ where
  calls := by
    obtain ⟨hlt, rfl⟩ := List.getElem?_eq_some_iff.mp hi
    exact ⟨_, (List.set_getElem_self hlt).symm⟩
  client := rfl
  server _ _ := rfl

theorem HandledAlone.get {σ₀ : State G} (h : HandledAlone σ₀ i call σ)
    (hi : σ₀.calls[i]? = some call) : ∃ rpc', σ.calls[i]? = some { call with rpc := rpc' } := by
  obtain ⟨rpc', hcalls⟩ := h.calls
  obtain ⟨hlt, -⟩ := List.getElem?_eq_some_iff.mp hi
  exact ⟨rpc', by rw [hcalls, List.getElem?_set_self hlt]⟩

def State.left (σ : State G) (i : ℕ) : ℕ :=
  match σ.calls[i]? with
  | some call => call.rpc.left (σ.server call.target)
  | none => 0

theorem left_eq (hi : σ.calls[i]? = some call) : σ.left i = call.rpc.left (σ.server call.target) := by
  simp only [State.left, hi]

/-- Each step of the handler keeps to the call and leaves less of it. -/
theorem lowers_handling {σ₀ : State G} (hi : σ₀.calls[i]? = some call) :
    Lowers (step cfg crypto) (fun σ a => handling i σ a) (HandledAlone σ₀ i call)
      (fun σ => σ.left i) := by
  intro σ a σ' hinv ha hs
  cases steps_of_step hs with
  | handle j now order call' srv' rpc' hj hh =>
    have hji : j = i := by simpa [handling] using ha
    subst hji
    obtain ⟨rpc, hget⟩ := hinv.get hi
    rw [hget] at hj
    cases hj
    obtain ⟨hlt, -⟩ := List.getElem?_eq_some_iff.mp hget
    obtain ⟨rpc₁, hcalls⟩ := hinv.calls
    refine ⟨⟨⟨rpc', ?_⟩, hinv.client, fun s hs => ?_⟩, ?_⟩
    · rw [hcalls, List.set_set]
    · rw [← hinv.server s hs]
      simp [hs]
    · have hleft := hh.left
      simp [State.left, hget, List.getElem?_set_self hlt, hleft]
  | server | client | retOrphan | ret | fail | failOrphan | foreign => cases ha

/-- While clients run `TcClient`, no call is broken: locks aside, its handler has a next step at any
clock until it is at its end, and then the thread that made the call can use the response. A handler
that runs alone makes at most `Rpc.left` steps to its end and touches no other call, no client and no
other server. -/
theorem handlers_safe (cfg : Config) (crypto : Crypto G D) (hS : 1 ≤ cfg.serverCount)
    (hC : cfg.clientCount ≤ Decimal.intMax) (σ : State G) (h : Reachable cfg crypto honest σ) (i : ℕ)
    (call : Call G) (hi : σ.calls[i]? = some call) :
    call.rpc.broken = false ∧
      (call.rpc.finished = false → ∀ now, ∃ order σ',
        step cfg crypto σ (.handle i now order) = some σ') ∧
      (call.rpc.finished = true → ∃ σ', step cfg crypto σ (.ret i) = some σ') ∧
      (∀ σ' l, Trace (step cfg crypto) (fun σ a => handling i σ a) σ (σ' :: l) →
        l.length ≤ call.rpc.left (σ.server call.target) ∧ HandledAlone σ i call σ') ∧
      ∃ σ' rpc', Reaches cfg crypto (handling i) σ σ' ∧ HandledAlone σ i call σ' ∧
        σ'.calls[i]? = some { call with rpc := rpc' } ∧ rpc'.finished = true ∧
        ∃ σ'', step cfg crypto σ' (.ret i) = some σ'' := by
  have hlow : Lowers (step cfg crypto) (fun σ a => handling i σ a) (HandledAlone σ i call)
      (fun σ => σ.left i) := lowers_handling hi
  have hstart := HandledAlone.refl hi
  refine ⟨(h.registered hS hC call (List.mem_of_getElem? hi)).not_broken,
    h.handle_isSome hS hC hi, h.ret_isSome hC hi, fun σ' l htr => ⟨?_, hlow.inv hstart htr.run⟩, ?_⟩
  · have hle := htr.length_le hlow hstart
    rw [left_eq hi] at hle
    omega
  · obtain ⟨σ', hr, hstuck⟩ := Run.exists_stuck hlow hstart
    have halone := hlow.inv hstart hr
    obtain ⟨rpc', hget⟩ := halone.get hi
    have hreach : Reachable cfg crypto honest σ' :=
      Run.trans h (hr.mono fun _ _ ha => honest_of_handling ha)
    have hf : rpc'.finished = true := by
      by_contra hf
      obtain ⟨order, σ'', hs⟩ := hreach.handle_isSome hS hC hget (by simpa using hf) 0
      exact hstuck _ _ (by simp [handling]) hs
    exact ⟨σ', rpc', hr, halone, hget, hf, hreach.ret_isSome hC hget hf⟩

/-- In the round, client 1 has sent its first vote to server 1: the request takes two steps. -/
theorem handlers_safe_round :
    ∃ σ call, Reachable sampleConfig Crypto.symbolic honest σ ∧ σ.calls[0]? = some call ∧
      call.rpc.left (σ.server call.target) = 2 ∧
      ∃ σ' rpc', Reaches sampleConfig Crypto.symbolic (handling 0) σ σ' ∧
        σ'.calls[0]? = some { call with rpc := rpc' } ∧ rpc'.finished = true ∧
        ∃ σ'', step sampleConfig Crypto.symbolic σ' (.ret 0) = some σ'' := by
  obtain ⟨σ, hr, hσ⟩ := exists_reachable sampleConfig Crypto.symbolic honest
    (Script.round.take 44) (fun σ => (σ.calls[0]?).any fun call =>
      call.rpc.left (σ.server call.target) == 2) (by decide +kernel)
  simp only [Option.any_eq_true, beq_iff_eq] at hσ
  obtain ⟨call, hi, hleft⟩ := hσ
  obtain ⟨-, -, -, -, σ', rpc', hrun, -, hget, hf, hret⟩ :=
    handlers_safe sampleConfig Crypto.symbolic (by decide) (by decide) σ hr 0 call hi
  exact ⟨σ, call, hr, hi, hleft, σ', rpc', hrun, hget, hf, hret⟩

end TomChain
