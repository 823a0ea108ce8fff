import TomChain.Server.PackBlock
import TomChain.System.Agreement
import TomChain.System.Work

/-!
# The system settles

When no more blocks are packed, no client begins a pull, no call fails and no timer runs over empty
queues, what has been begun comes to an end: every step lowers the work that is left
(`work_lt_of_step`), and as long as the system does not rest some step is possible
(`resting_of_stuck`). Locks are no part of a step: a thread that waits for one is not seen here.
-/

namespace TomChain

open Std (ExtTreeMap)
open Runs Server
open Flexbuffers (Flex fromBytes toBytes)

variable {G D : Type} {cfg : Config} {crypto : Crypto G D} {σ σ' : State G} {a : Action G}
  {ok : State G → Action G → Bool}

/-! ## At rest -/

/-- The threads of the server have nothing to do, but for the packing thread, which has no block in
its hands. -/
structure Server.Resting (srv : Server G) : Prop where
  pack : ∀ i p id peers ids, srv.pack ≠ .push i p id peers ids
  send : ∀ ch, srv.send ch = .idle
  queues : ∀ ch, srv.drainedOut ch = true
  sync : srv.pbSyncQueue = []
  mergeQueue : srv.pbMergeQueue = []
  merge : srv.merge = .idle

/-- The servers rest, every client has voted on what it has, and no call is in progress. -/
structure Resting (cfg : Config) (σ : State G) : Prop where
  servers : ∀ s, 1 ≤ s → s ≤ cfg.serverCount → (σ.server s).Resting
  votes : ∀ c, 1 ≤ c → c ≤ cfg.clientCount →
    (σ.client c).vote = .idle ∧ (σ.client c).pendingBlks = []
  calls : σ.calls = []

theorem Resting.atRest (h : Resting cfg σ) : atRest cfg σ = true := by
  simp only [TomChain.atRest, Bool.and_eq_true, List.all_eq_true, List.mem_range'_1, h.calls,
    List.isEmpty_nil, and_true]
  intro s hs
  have hq := h.servers s hs.1 (by omega)
  refine ⟨⟨⟨fun ch _ => hq.queues ch, ?_⟩, ?_⟩, ?_⟩
  · rw [hq.sync]; rfl
  · rw [hq.mergeQueue]; rfl
  · rw [hq.merge]; rfl

/-! ## A server that does not rest can go on -/

namespace Server

variable {s : ℕ} {srv : Server G} {merge : List (BLSSigShare G) → BLSSignature G}

def StuckThreads (cfg : Config) (merge : List (BLSSigShare G) → BLSSignature G) (s : ℕ)
    (srv : Server G) : Prop :=
  ∀ sa r, srv.settling sa = true → srv.act cfg merge s sa ≠ some r

/-- A relay thread at the queue of a peer takes an element or goes on. -/
theorem not_stuck_of_drain (hwf : srv.WF) (hq : srv.QueuesOk cfg s) (hl : srv.LookupsOk cfg s) {ch : Chan}
    {t : ℕ} {items : List (Flex G)} {ids rest : List ℕ} (ht : t ∈ peerIds cfg.serverCount s)
    (hpc : srv.send ch = .drain t items ids rest) (hstuck : srv.StuckThreads cfg merge s) : False := by
  have hqueue : srv.queueEmpty ch t = true ∨ ∃ r, srv.popQueue ch t = some r := by
    cases ch with
    | vote =>
      obtain ⟨q, hget⟩ := Option.isSome_iff_exists.mp
        (ExtTreeMap.mem_iff_isSome_getElem?.mp ((hl.relayVotes t).mpr ht))
      cases q with
      | nil => exact .inl (by simp [queueEmpty, hget])
      | cons v q => exact .inr ⟨_, by simp only [popQueue, hget]; rfl⟩
    | block =>
      obtain ⟨q, hget⟩ := Option.isSome_iff_exists.mp
        (ExtTreeMap.mem_iff_isSome_getElem?.mp ((hq.blocks t).mpr ht))
      cases q with
      | nil => exact .inl (by simp [queueEmpty, hget])
      | cons p q =>
        obtain ⟨id, hid⟩ := hwf.relay t _ hget p (List.mem_cons_self ..)
        obtain ⟨b, hb, -⟩ := idAt_eq_some.mp hid
        exact .inr ⟨_, by simp only [popQueue, hget, hb]; rfl⟩
    | commit =>
      obtain ⟨q, hget⟩ := Option.isSome_iff_exists.mp
        (ExtTreeMap.mem_iff_isSome_getElem?.mp ((hq.commits t).mpr ht))
      cases q with
      | nil => exact .inl (by simp [queueEmpty, hget])
      | cons p q =>
        obtain ⟨id, hid⟩ := hwf.bcast t _ hget p (List.mem_cons_self ..)
        obtain ⟨b, hb, -⟩ := idAt_eq_some.mp hid
        exact .inr ⟨_, by simp only [popQueue, hget, hb]; rfl⟩
  rcases hqueue with he | ⟨r, hr⟩
  · have hgo : ∃ r, srv.act cfg merge s (.sendGo ch) = some r := by
      simp only [act, hpc, he, if_true]
      split <;> exact ⟨_, rfl⟩
    obtain ⟨r, hgo⟩ := hgo
    exact hstuck _ r rfl hgo
  · exact absurd (by simp only [act, hpc, hr]; rfl) (hstuck (.sendPop ch) _ rfl)

theorem send_of_stuck (hwf : srv.WF) (hq : srv.QueuesOk cfg s) (hl : srv.LookupsOk cfg s)
    (hc : srv.OnCourse cfg s) (hstuck : srv.StuckThreads cfg merge s) {ch : Chan}
    (hwait : (srv.send ch).waits = 0) : srv.send ch = .idle := by
  cases hpc : srv.send ch with
  | idle => rfl
  | drain t items ids rest =>
    have ht := hc.ahead ch t (by rw [hpc]; exact List.mem_cons_self ..)
    exact (not_stuck_of_drain hwf hq hl ht hpc hstuck).elim
  | wait | syncWait =>
    rw [hpc] at hwait
    cases hwait
  | sync =>
    have hch := hc.syncing ch (by rw [hpc]; rfl)
    subst hch
    cases hqueue : srv.pbSyncQueue with
    | nil => exact absurd (by simp only [act, hpc, hqueue]; rfl) (hstuck .syncPop _ rfl)
    | cons id q => exact absurd (by simp only [act, hpc, hqueue]; rfl) (hstuck .syncPop _ rfl)
  | syncSend id targets =>
    have hch := hc.syncing ch (by rw [hpc]; rfl)
    subst hch
    cases targets with
    | nil => exact absurd (by simp only [act, hpc]; rfl) (hstuck .syncLabel _ rfl)
    | cons t rest => exact absurd (by simp only [act, hpc]; rfl) (hstuck .syncSend _ rfl)

theorem pack_of_stuck (hstuck : srv.StuckThreads cfg merge s) (i p id : ℕ) (peers ids : List ℕ) :
    srv.pack ≠ .push i p id peers ids := by
  intro hpc
  cases peers with
  | nil => exact absurd (by simp only [act, hpc]; rfl) (hstuck .packInsert _ rfl)
  | cons t peers => exact absurd (by simp only [act, hpc]; rfl) (hstuck .packPush _ rfl)

/-- The merging thread can go on as long as the block that it has popped can be merged. -/
theorem merge_of_stuck (hstuck : srv.StuckThreads cfg merge s)
    (hpopped : ∀ p, srv.merge = .popped p → ∃ r, srv.act cfg merge s (.mergeCommit 0) = some r) :
    srv.merge = .idle ∧ srv.pbMergeQueue = [] := by
  cases hpc : srv.merge with
  | idle =>
    cases hqueue : srv.pbMergeQueue with
    | nil => exact ⟨rfl, rfl⟩
    | cons p q => exact absurd (by simp only [act, hpc, hqueue]; rfl) (hstuck .mergePop _ rfl)
  | popped p =>
    obtain ⟨r, hr⟩ := hpopped p hpc
    exact absurd hr (hstuck _ _ rfl)
  | push p peers =>
    cases peers with
    | nil => exact absurd (by simp only [act, hpc]; rfl) (hstuck .mergePush _ rfl)
    | cons t peers => exact absurd (by simp only [act, hpc]; rfl) (hstuck .mergePush _ rfl)

theorem resting_of_stuckThreads (hwf : srv.WF) (hq : srv.QueuesOk cfg s) (hl : srv.LookupsOk cfg s)
    (hc : srv.OnCourse cfg s) (hstuck : srv.StuckThreads cfg merge s)
    (hwait : ∀ ch, (srv.send ch).waits = 0)
    (hpopped : ∀ p, srv.merge = .popped p → ∃ r, srv.act cfg merge s (.mergeCommit 0) = some r) :
    srv.Resting := by
  have hidle : ∀ ch, srv.send ch = .idle := fun ch => send_of_stuck hwf hq hl hc hstuck (hwait ch)
  obtain ⟨hmerge, hqueue⟩ := merge_of_stuck hstuck hpopped
  refine ⟨pack_of_stuck hstuck, hidle, fun ch => ?_, hc.idle (hidle .block), hqueue, hmerge⟩
  by_contra hne
  exact absurd (by simp only [act, hidle ch]; rfl) (hstuck (.sendStart ch) _ (by simp [settling, hne]))

end Server

/-! ## A client that has blocks can go on -/

/-- The vote thread has a request only while it has a stub to send it to. -/
theorem Reachable.vote_ne (h : Reachable cfg crypto ok σ) (c : ℕ) :
    ∀ request, (σ.client c).vote ≠ .send request [] := by
  refine h.invariant (fun σ => ∀ request, (σ.client c).vote ≠ .send request [])
    (fun _ he => by cases he) fun σ a σ' _ _ hinv hs => ?_
  have hset : ∀ {σ₁ : State G} {c' : ℕ} {cl' : Client G}, σ₁.client = σ.client →
      (cl'.vote = (σ.client c').vote ∨ ∀ request, cl'.vote ≠ .send request []) →
      ∀ request, ((σ₁.setClient c' cl').client c).vote ≠ .send request [] := by
    intro σ₁ c' cl' hsame hcl
    rw [State.setClient_client]
    split
    · rename_i he
      subst he
      rcases hcl with he | hne
      · rw [he]; exact hinv
      · exact hne
    · rw [hsame]; exact hinv
  have hres : ∀ {σ₁ : State G} {response θ}, Resumes σ₁ response θ σ' → σ₁.client = σ.client →
      ∀ request, (σ'.client c).vote ≠ .send request [] := by
    intro σ₁ response θ hr hsame
    cases hr with
    | send => rw [State.setServer_client, hsame]; exact hinv
    | pull c' cl' hr =>
      rw [hsame] at hr
      exact hset hsame (.inl (Client.resumePull_backlog hr).1)
    | vote c' cl' hr =>
      refine hset hsame (.inr fun request he => ?_)
      unfold Client.resumeVote at hr
      split at hr
      · cases hr; cases he
      · rename_i hne _
        cases hr
        cases he
        exact hne rfl
      · cases hr
  cases steps_of_step hs with
  | server => rw [State.addCall_client, State.setServer_client]; exact hinv
  | client c' ca cl' out _ _ hact =>
    rw [State.addCall_client]
    refine hset rfl ?_
    cases hact with
    | pull | get => exact .inl rfl
    | votePop | voteSend => exact .inr fun _ he => by cases he
  | handle | retOrphan | failOrphan => exact hinv
  | ret i call θ _ _ _ _ hr => exact hres hr rfl
  | fail i call θ _ _ _ hr => exact hres hr rfl
  | foreign => rw [State.addCall_client]; exact hinv

def sizeFlow (n : ℕ) : Flow G :=
  { (Flow.top : Flow G) with
    block := fun b => b.txVec.length ≤ n
    served := fun b => b.txVec.length ≤ n }

theorem sizeFlow_laws (n : ℕ) : (sizeFlow n : Flow G).Laws cfg crypto where
  dist b now h := by
    show (b.stampDist now).txVec.length ≤ n
    unfold Block.stampDist
    split <;> exact h
  insert _ _ _ h _ := h
  sign _ _ h := h
  commit _ _ h _ := h
  recv _ _ h _ := h
  offered _ _ := trivial
  served _ h := h
  item _ _ _ _ _ _ := trivial

/-- `pack_block` takes `tx-per-block` transactions, or a single one when this is zero. -/
theorem length_extractTx_le (numTx : ℕ) (ids : List ℕ) :
    (extractTx numTx 0 ids).length ≤ max numTx 1 := by
  by_cases h : numTx = 0
  · subst h
    cases ids <;> simp [extractTx]
  · rw [extractTx_eq_take ids 0 (by omega), List.length_take]
    omega

/-- No block is too long for the buffers of the clients. -/
theorem sizeFlow_clean (htx : cfg.txPerBlock ≤ Client.strvecSize) (h : Reachable cfg crypto ok σ) :
    (sizeFlow Client.strvecSize : Flow G).Clean cfg σ := by
  refine Flow.clean_of_reachable (fun _ => sizeFlow Client.strvecSize) (fun _ => sizeFlow_laws _)
    (fun _ _ _ _ _ => .refl _) ?_ h
  intro σ a σ' hr _ _ hs
  exact {
    pack := fun s now order _ => by
      refine (List.length_filterMap_le _ _).trans ((length_extractTx_le _ _).trans ?_)
      exact max_le htx (by decide)
    sync := fun _ _ _ _ _ _ => trivial
    merge := fun _ _ _ _ _ _ _ => trivial
    vote := fun _ _ _ _ _ _ _ _ _ _ _ _ _ _ _ => ⟨trivial, fun _ _ => trivial⟩
    get := fun _ _ _ _ _ _ _ _ _ _ _ _ _ _ _ hb => hb
    foreign := fun _ _ _ => rpcOk_of_isClientRequest (fun _ => trivial) (fun _ _ _ => trivial) }

theorem Client.resting_of_stuck {c : ℕ} {cl : Client G} (hwait : cl.vote.waits = 0)
    (hne : ∀ request, cl.vote ≠ .send request [])
    (hsize : ∀ b ∈ cl.pendingBlks, b.txVec.length ≤ Client.strvecSize)
    (hstuck : ∀ ca r, Client.settling ca = true → cl.act cfg crypto c ca ≠ some r) :
    cl.vote = .idle ∧ cl.pendingBlks = [] := by
  cases hpc : cl.vote with
  | idle =>
    cases hq : cl.pendingBlks with
    | nil => exact ⟨rfl, rfl⟩
    | cons b q =>
      have hb := hsize b (by rw [hq]; exact List.mem_cons_self ..)
      exact absurd (by simp only [Client.act, hpc, hq, if_pos hb]; rfl) (hstuck .votePop _ rfl)
  | send request stubs =>
    cases stubs with
    | nil => exact absurd hpc (hne request)
    | cons stub stubs => exact absurd (by simp only [Client.act, hpc]; rfl) (hstuck .voteSend _ rfl)
  | wait request stubs =>
    rw [hpc] at hwait
    cases hwait

/-! ## The system -/

/-- Where no settling step is possible, the system rests. -/
theorem resting_of_stuck (hS : 1 ≤ cfg.serverCount) (hC : cfg.clientCount ≤ Decimal.intMax)
    (htx : cfg.txPerBlock ≤ Client.strvecSize) (h : Reachable cfg crypto honest σ)
    (hstuck : Stuck (step cfg crypto) (fun σ a => settling σ a) σ) : Resting cfg σ := by
  have hcalls : σ.calls = [] := by
    cases hc : σ.calls with
    | nil => rfl
    | cons call calls =>
      have hi : σ.calls[0]? = some call := by rw [hc]; rfl
      by_cases hf : call.rpc.finished = true
      · obtain ⟨σ', hs⟩ := h.ret_isSome hC hi hf
        exact absurd hs (hstuck _ _ rfl)
      · obtain ⟨order, σ', hs⟩ := h.handle_isSome hS hC hi (by simpa using hf) 0
        exact absurd hs (hstuck _ _ rfl)
  have hwaits : ∀ θ, σ.waits θ = 0 := by
    intro θ
    rw [← h.callsBy_eq θ, hcalls]
    rfl
  refine ⟨fun s h1 h2 => ?_, fun c h1 h2 => ?_, hcalls⟩
  · have hthreads : (σ.server s).StuckThreads cfg crypto.merge s := by
      intro sa r hset hact
      refine hstuck (.server s sa) ((σ.setServer s r.1).addCall (some (.send s sa.chan)) r.2) hset ?_
      simp only [step, if_pos (And.intro h1 h2), hact, Option.map_some]
    refine resting_of_stuckThreads (h.wf s) (h.relayOk s).1 (h.lookupsOk s) (h.onCourse s) hthreads
      (fun ch => hwaits (.send s ch)) fun p hp => ?_
    obtain ⟨b, hb, hv, hn⟩ := merging_votes h (.inr hp)
    obtain ⟨sig, hm⟩ := mergeVotes_of_honest hv hn
    exact ⟨_, by simp only [Server.act, hp, hb, Server.mergeCommit, hm]; rfl⟩
  · have hvote : ∀ ca r, Client.settling ca = true → (σ.client c).act cfg crypto c ca ≠ some r := by
      intro ca r hset hact
      refine hstuck (.client c ca) ((σ.setClient c r.1).addCall (some (ca.thread c)) r.2) hset ?_
      simp only [step, if_pos (And.intro h1 h2), hact, Option.map_some]
    exact Client.resting_of_stuck (hwaits (.vote c)) (h.vote_ne c)
      (fun b hb => (((sizeFlow_clean htx h).client c).blks b hb).1) hvote

theorem queueLength_of_drainedOut {srv : Server G} {ch : Chan} (h : srv.drainedOut ch = true) (t : ℕ) :
    srv.queueLength ch t = 0 := by
  simp only [Server.drainedOut, Bool.and_eq_true] at h
  cases ch with
  | vote | block | commit =>
    have := getD_eq_nil_of_all h.1 t
    simp [Server.queueLength, queueLen, this]

end TomChain
