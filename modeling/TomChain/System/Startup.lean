import TomChain.System.Reach

/-!
# The start of a server

`TcServer::start` brings up both gRPC services, sleeps for two seconds, makes the queues and stubs
of the peers and starts the schedule thread. The handlers run from the first moment on, for whoever
calls: requests here have arbitrary content. `Server.lookups` names the lookups whose result a
handler dereferences without asking whether there is one.
-/

namespace TomChain

open Std (ExtTreeMap ExtTreeSet)
open Runs Server
open Flexbuffers (Flex toBytes fromBytes)

variable {G : Type}

/-- Where `start` stands: before `init_peer_stubs`, after `i` iterations of one of its loops, or
after it. -/
inductive StartPc where
  | asleep
  | votes (i : ℕ)
  | blocks (i : ℕ)
  | commits (i : ℕ)
  | running
  deriving DecidableEq

/-- A call to one of the two services. `Register` stores the client's public key, which is not
modelled, and answers with its id and key share. -/
inductive Inquiry (G : Type) where
  | register (id : ℕ)
  | registered (id : ℕ)
  | rpc (call : Rpc G)

/-- A server from the moment its services are up. -/
structure Boot (G : Type) where
  server : Server G
  pc : StartPc
  inquiries : List (Inquiry G)

inductive BootAction (G : Type) where
  | start
  | schedule (a : ServerAction)
  | resume (ch : Chan)
  | request (q : Inquiry G)
  | handle (i now : ℕ) (order : List (ℕ × ℕ))

/-- A request as it arrives; ids are `uint32`. -/
def Inquiry.fresh : Inquiry G → Bool
  | .register id => id < 2 ^ 32
  | .registered _ => false
  | .rpc (.relayVote _) | .rpc (.relayBlock _) | .rpc (.spBcastCommit _) => true
  | .rpc (.relayBlockSync _ handled) => !handled
  | .rpc call => call.isClientRequest

/-- One iteration of a loop of `init_peer_stubs`. -/
def makeQueue {α : Type} (serverId i : ℕ) (m : ExtTreeMap ℕ (List α)) : ExtTreeMap ℕ (List α) :=
  if i + 1 = serverId then m else m.insertIfNew (i + 1) []

namespace Boot

/-- After `init_server` and `init_client_profile`. -/
def init (cfg : Config) (serverId : ℕ) : Boot G where
  server := { Server.init cfg serverId with
    relayVotes := ∅
    relayBlocks := ∅
    bcastCommitBlocks := ∅ }
  pc := .asleep
  inquiries := []

def start (cfg : Config) (serverId : ℕ) (b : Boot G) : Option (Boot G) :=
  match b.pc with
  | .asleep => some { b with server := { b.server with relayVotes := ∅ }, pc := .votes 0 }
  | .votes i =>
    if i < cfg.serverCount then
      some { b with
        server := { b.server with relayVotes := makeQueue serverId i b.server.relayVotes }
        pc := .votes (i + 1) }
    else some { b with server := { b.server with relayBlocks := ∅ }, pc := .blocks 0 }
  | .blocks i =>
    if i < cfg.serverCount then
      some { b with
        server := { b.server with relayBlocks := makeQueue serverId i b.server.relayBlocks }
        pc := .blocks (i + 1) }
    else some { b with server := { b.server with bcastCommitBlocks := ∅ }, pc := .commits 0 }
  | .commits i =>
    if i < cfg.serverCount then
      some { b with
        server :=
          { b.server with bcastCommitBlocks := makeQueue serverId i b.server.bcastCommitBlocks }
        pc := .commits (i + 1) }
    else some { b with pc := .running }
  | .running => none

end Boot

def Server.answer (cfg : Config) (serverId now : ℕ) (order : List (ℕ × ℕ)) (srv : Server G) :
    Inquiry G → Option (Server G × Inquiry G)
  | .register id => some (srv, if id ∈ srv.clients then .registered id else .rpc .undefined)
  | .registered _ => none
  | .rpc call => (srv.handle cfg serverId now order call).map fun r => (r.1, .rpc r.2)

/-- One step of a server. The schedule thread runs after `start`; what its threads send goes to
other servers. -/
def Boot.step (cfg : Config) (merge : List (BLSSigShare G) → BLSSignature G) (serverId : ℕ)
    (b : Boot G) : BootAction G → Option (Boot G)
  | .start => b.start cfg serverId
  | .schedule a =>
    if b.pc = .running then
      (b.server.act cfg merge serverId a).map fun r => { b with server := r.1 }
    else none
  | .resume ch => (b.server.resumeSend ch).map fun srv => { b with server := srv }
  | .request q => if q.fresh then some { b with inquiries := b.inquiries ++ [q] } else none
  | .handle i now order =>
    match b.inquiries[i]? with
    | none => none
    | some q =>
      (b.server.answer cfg serverId now order q).map fun r =>
        { b with server := r.1, inquiries := b.inquiries.set i r.2 }

/-- The states of a server from the start of its services on, whatever is asked of it. -/
def Booted (cfg : Config) (merge : List (BLSSigShare G) → BLSSignature G) (serverId : ℕ) :
    Boot G → Prop :=
  Run (Boot.step cfg merge serverId) (fun _ _ => True) (Boot.init cfg serverId)

/-! ## The start leads to the state that the rest of the model starts with -/

theorem initQueues_succ {α : Type} (serverId i : ℕ) :
    (initQueues (i + 1) serverId : ExtTreeMap ℕ (List α)) =
      makeQueue serverId i (initQueues i serverId) := by
  have hpeers : peerIds (i + 1) serverId =
      peerIds i serverId ++ if i + 1 = serverId then [] else [i + 1] := by
    rw [peerIds, List.range_succ, List.filterMap_append, peerIds]
    split <;> simp [*]
  rw [initQueues, hpeers, List.foldl_append, makeQueue]
  split <;> rfl

section Start

variable {cfg : Config} {merge : List (BLSSigShare G) → BLSSignature G} {s : ℕ}

theorem Booted.start {b b' : Boot G} (h : Booted cfg merge s b) (hs : b.start cfg s = some b') :
    Booted cfg merge s b' :=
  .next .start h trivial hs

/-- The servers of the system are those whose start nobody disturbed. -/
theorem booted_init : Booted cfg merge s ⟨Server.init cfg s, .running, []⟩ := by
  have hvotes : ∀ i ≤ cfg.serverCount, Booted cfg merge s
      ⟨{ Server.init cfg s with
        relayVotes := initQueues i s, relayBlocks := ∅, bcastCommitBlocks := ∅ }, .votes i, []⟩ := by
    intro i
    induction i with
    | zero => exact fun _ => Booted.start .refl rfl
    | succ i ih =>
      intro hi
      refine (ih (by omega)).start ?_
      simp only [Boot.start]
      rw [if_pos (by omega), initQueues_succ]
  have hblocks : ∀ i ≤ cfg.serverCount, Booted cfg merge s
      ⟨{ Server.init cfg s with relayBlocks := initQueues i s, bcastCommitBlocks := ∅ },
        .blocks i, []⟩ := by
    intro i
    induction i with
    | zero =>
      intro _
      refine (hvotes _ le_rfl).start ?_
      simp only [Boot.start, lt_irrefl, if_false]
      rfl
    | succ i ih =>
      intro hi
      refine (ih (by omega)).start ?_
      simp only [Boot.start]
      rw [if_pos (by omega), initQueues_succ]
  have hcommits : ∀ i ≤ cfg.serverCount, Booted cfg merge s
      ⟨{ Server.init cfg s with bcastCommitBlocks := initQueues i s }, .commits i, []⟩ := by
    intro i
    induction i with
    | zero =>
      intro _
      refine (hblocks _ le_rfl).start ?_
      simp only [Boot.start, lt_irrefl, if_false]
      rfl
    | succ i ih =>
      intro hi
      refine (ih (by omega)).start ?_
      simp only [Boot.start]
      rw [if_pos (by omega), initQueues_succ]
  refine (hcommits _ le_rfl).start ?_
  simp only [Boot.start, lt_irrefl, if_false]
  rfl

end Start

/-! ## The lookups -/

/-- A lookup whose result is dereferenced: `clients.find` or `relay_votes.find`. -/
inductive Lookup where
  | client (id : ℕ)
  | relayVotes (target : ℕ)
  deriving DecidableEq

namespace Server

variable {cfg : Config} {merge : List (BLSSigShare G) → BLSSignature G} {s : ℕ} {srv srv' : Server G}

def finds (srv : Server G) : Lookup → Bool
  | .client id => srv.clients.contains id
  | .relayVotes target => srv.relayVotes.contains target

def lookups (cfg : Config) (serverId : ℕ) (srv : Server G) : Inquiry G → List Lookup
  | .register id => [.client id]
  | .rpc (.pullPendingBlocks id (some ((blockId, _) :: _)) _) =>
    if blockId ∈ srv.pbSyncLabels then [.client id] else []
  | .rpc (.voteBlocks id (item :: _) none) =>
    match fromBytes item with
    | none => []
    | some block =>
      if (block.votes[id]?).isNone ∨ block.header.id ∈ srv.deadBlock then []
      else ((block.getServerId cfg.serverCount).toList.filter (· ≠ serverId)).map .relayVotes
  | _ => []

theorem voteBlocksItem_isSome {id : ℕ} {item : Flex G} {rest : List (Flex G)} {block : Block G}
    (hd : fromBytes item = some block) :
    (srv.voteBlocksItem cfg s id block).isSome ↔
      ∀ l ∈ srv.lookups cfg s (.rpc (.voteBlocks id (item :: rest) none)), srv.finds l = true := by
  simp only [lookups, hd]
  unfold voteBlocksItem
  cases hv : block.votes[id]? with
  | none => simp
  | some vote =>
    by_cases hdead : block.header.id ∈ srv.deadBlock
    · simp [hdead]
    · simp only [hdead, if_false, Option.isNone_some, Bool.false_eq_true, or_self,
        List.forall_mem_map, finds, ExtTreeMap.contains_iff_mem]
      rw [← (pushVotes_isSome : (srv.pushVotes vote _).isSome ↔ _)]
      split
      · rename_i hp; rw [hp]; rfl
      · rename_i hp; rw [hp]; rfl

/-- A handler's behaviour is undefined exactly when one of its lookups fails. -/
theorem answer_undefined_iff {now : ℕ} {order : List (ℕ × ℕ)} {q q' : Inquiry G}
    (h : srv.answer cfg s now order q = some (srv', q')) :
    q' = .rpc .undefined ↔ ¬∀ l ∈ srv.lookups cfg s q, srv.finds l = true := by
  cases q with
  | register id =>
    simp only [answer, Option.some.injEq, Prod.mk.injEq] at h
    obtain ⟨-, rfl⟩ := h
    by_cases hid : id ∈ srv.clients <;> simp [lookups, finds, hid]
  | registered id => cases h
  | rpc call =>
    obtain ⟨⟨srv₁, call'⟩, hh, he⟩ := Option.map_eq_some_iff.mp h
    cases he
    rw [Inquiry.rpc.injEq]
    cases handles_of_handle hh with
    | pullUndefined id blockId p todo hdrs b hb hi =>
      unfold pullItem at hi
      split at hi
      · rename_i hl
        split at hi
        · rename_i hc
          have hnot : id ∉ srv.clients := by
            rw [ExtTreeMap.mem_iff_isSome_getElem?, hc]
            exact Bool.false_ne_true
          simp [lookups, hl, finds, hnot]
        · split at hi <;> cases hi
      · cases hi
    | pullItem id blockId p todo hdrs b _ hdrs' hb hi =>
      unfold pullItem at hi
      split at hi
      · rename_i hl
        split at hi
        · cases hi
        · rename_i seen hc
          have hmem : id ∈ srv.clients := by
            rw [ExtTreeMap.mem_iff_isSome_getElem?, hc]
            rfl
          simp [lookups, hl, finds, hmem]
      · rename_i hl
        simp [lookups, hl]
    | voteBlocksUndefined id item rest block hd hi =>
      rw [← voteBlocksItem_isSome hd, hi]
      simp
    | voteBlocks id item rest block _ current hd hi =>
      rw [← voteBlocksItem_isSome hd, hi]
      simp
    | voteBlocksFailed id item rest hd => simp [lookups, hd]
    | _ => simp [lookups]

/-! ## The keys of the two maps -/

structure SameKeys (srv srv' : Server G) : Prop where
  clients : ∀ c, c ∈ srv'.clients ↔ c ∈ srv.clients
  relayVotes : ∀ t, t ∈ srv'.relayVotes ↔ t ∈ srv.relayVotes

theorem SameKeys.of_eq (hc : srv'.clients = srv.clients) (hv : srv'.relayVotes = srv.relayVotes) :
    srv.SameKeys srv' :=
  ⟨fun _ => by rw [hc], fun _ => by rw [hv]⟩

theorem mem_insert_of_getElem? {V : Type} {m : ExtTreeMap ℕ V} {k : ℕ} {v v' : V}
    (h : m[k]? = some v) (k' : ℕ) : k' ∈ m.insert k v' ↔ k' ∈ m := by
  rw [ExtTreeMap.mem_insert, Nat.compare_eq_eq, or_iff_right_iff_imp]
  rintro rfl
  rw [ExtTreeMap.mem_iff_isSome_getElem?, h]
  rfl

theorem mem_relayVotes_pushVotes {vote : BlockVote G} {targets : List ℕ}
    (h : srv.pushVotes vote targets = some srv') (t : ℕ) :
    t ∈ srv'.relayVotes ↔ t ∈ srv.relayVotes := by
  induction targets generalizing srv with
  | nil => cases h; exact Iff.rfl
  | cons t' targets ih =>
    simp only [pushVotes] at h
    split at h
    · cases h
    · rename_i q hq
      exact (ih h).trans (mem_insert_of_getElem? hq t)

theorem Records.sameKeys {id k : ℕ} {v : BlockVote G} (h : srv.Records cfg id k v srv') :
    srv.SameKeys srv' := by
  cases h <;> exact .of_eq rfl rfl

theorem Moves.sameKeys (h : srv.Moves cfg merge s srv') : srv.SameKeys srv' := by
  cases h with
  | act a out h =>
    cases h with
    | sendPop ch t items ids rest srv'' item ids' _ hpop =>
      cases hpop with
      | vote v q hq => exact ⟨fun _ => Iff.rfl, mem_insert_of_getElem? hq⟩
      | block | commit => exact .of_eq rfl rfl
    | reap id now =>
      rcases reap_eq cfg srv id now with h | ⟨-, h⟩ <;> rw [h] <;> exact .of_eq rfl rfl
    | _ => exact .of_eq rfl rfl
  | handle now rpc rpc' h =>
    cases h with
    | relayVote item rest vote _ =>
      unfold relayVoteItem
      split
      · exact .of_eq rfl rfl
      · exact (records_recordVote ..).sameKeys
    | spBcastCommit item rest block _ =>
      rcases spBcastCommitItem_eq cfg srv now block with ⟨-, h⟩ | ⟨-, db, h⟩ <;> rw [h] <;>
        exact .of_eq rfl rfl
    | pullItem id blockId p todo pbHdrs b _ hdrs hb hi =>
      unfold pullItem at hi
      split at hi
      · split at hi
        · cases hi
        · rename_i seen hc
          split at hi
          · cases hi; exact .of_eq rfl rfl
          · cases hi; exact ⟨mem_insert_of_getElem? hc, fun _ => Iff.rfl⟩
      · cases hi; exact .of_eq rfl rfl
    | record => exact (records_recordVote ..).sameKeys
    | voteBlocks id item rest block _ current _ hi =>
      rcases voteBlocksItem_cases hi with ⟨rfl, -⟩ | ⟨vote, -, -, hpush, -⟩
      · exact .of_eq rfl rfl
      · obtain ⟨queues, he⟩ := pushVotes_eq hpush
        refine ⟨fun c => ?_, mem_relayVotes_pushVotes hpush⟩
        rw [he]
    | _ => exact .of_eq rfl rfl
  | resume ch h =>
    rcases resumeSend_eq h with ⟨_, _, _, -, rfl⟩ | ⟨_, _, _, -, rfl⟩ <;> exact .of_eq rfl rfl

end Server

/-! ## What every start keeps -/

def StartPc.made : StartPc → ℕ → Bool
  | .asleep, _ => false
  | .votes i, t => t ≤ i
  | _, _ => true

structure BootOk (cfg : Config) (serverId : ℕ) (b : Boot G) : Prop where
  clients : ∀ c, c ∈ b.server.clients ↔ 1 ≤ c ∧ c ≤ cfg.clientCount
  relayVotes : ∀ t, t ∈ b.server.relayVotes ↔
    t ∈ peerIds cfg.serverCount serverId ∧ b.pc.made t = true

variable {cfg : Config} {merge : List (BLSSigShare G) → BLSSignature G} {s : ℕ} {b b' : Boot G}

theorem bootOk_init (cfg : Config) (serverId : ℕ) :
    BootOk cfg serverId (Boot.init cfg serverId : Boot G) where
  clients c := mem_initClients
  relayVotes t := by simp [Boot.init, StartPc.made]

theorem BootOk.sameKeys (h : BootOk cfg s b) {srv : Server G} (hk : b.server.SameKeys srv)
    (inquiries : List (Inquiry G)) : BootOk cfg s ⟨srv, b.pc, inquiries⟩ where
  clients c := (hk.clients c).trans (h.clients c)
  relayVotes t := (hk.relayVotes t).trans (h.relayVotes t)

theorem mem_makeQueue {α : Type} {i t : ℕ} {m : ExtTreeMap ℕ (List α)} :
    t ∈ makeQueue s i m ↔ t ∈ m ∨ t = i + 1 ∧ t ≠ s := by
  unfold makeQueue
  split
  · rename_i he
    exact (or_iff_left fun h => h.2 (h.1.trans he)).symm
  · rename_i hne
    rw [ExtTreeMap.mem_insertIfNew, Nat.compare_eq_eq]
    constructor
    · rintro (rfl | h)
      · exact .inr ⟨rfl, hne⟩
      · exact .inl h
    · rintro (h | ⟨rfl, -⟩)
      · exact .inr h
      · exact .inl rfl

theorem BootOk.start (h : BootOk cfg s b) (hs : b.start cfg s = some b') : BootOk cfg s b' := by
  unfold Boot.start at hs
  split at hs
  · -- `relay_votes.clear()`: nothing was in it
    cases hs
    refine ⟨h.clients, fun t => ?_⟩
    simp only [ExtTreeMap.not_mem_empty, StartPc.made, decide_eq_true_eq, false_iff, not_and,
      mem_peerIds]
    omega
  · rename_i i hpc
    have hvotes := h.relayVotes
    rw [hpc] at hvotes
    split at hs
    · cases hs
      refine ⟨h.clients, fun t => ?_⟩
      rw [mem_makeQueue, hvotes]
      simp only [StartPc.made, decide_eq_true_eq, mem_peerIds]
      omega
    · cases hs
      refine ⟨h.clients, fun t => (hvotes t).trans ?_⟩
      simp only [StartPc.made, decide_eq_true_eq, and_true, mem_peerIds]
      omega
  · rename_i i hpc
    have hvotes := h.relayVotes
    rw [hpc] at hvotes
    split at hs <;> cases hs <;> exact ⟨h.clients, hvotes⟩
  · rename_i i hpc
    have hvotes := h.relayVotes
    rw [hpc] at hvotes
    split at hs <;> cases hs <;> exact ⟨h.clients, hvotes⟩
  · cases hs

theorem BootOk.step (h : BootOk cfg s b) {a : BootAction G}
    (hs : b.step cfg merge s a = some b') : BootOk cfg s b' := by
  cases a with
  | start => exact h.start hs
  | schedule a =>
    simp only [Boot.step] at hs
    split at hs
    · obtain ⟨⟨srv, out⟩, ha, rfl⟩ := Option.map_eq_some_iff.mp hs
      exact h.sameKeys (Moves.sameKeys (.act a out (acts_of_act ha))) _
    · cases hs
  | resume ch =>
    obtain ⟨srv, hr, rfl⟩ := Option.map_eq_some_iff.mp hs
    have hmove : b.server.Moves cfg merge s srv := .resume ch hr
    exact h.sameKeys hmove.sameKeys _
  | request q =>
    simp only [Boot.step] at hs
    split at hs
    · cases hs
      exact ⟨h.clients, h.relayVotes⟩
    · cases hs
  | handle i now order =>
    simp only [Boot.step] at hs
    split at hs
    · cases hs
    · rename_i q hi
      obtain ⟨⟨srv, q'⟩, hq, rfl⟩ := Option.map_eq_some_iff.mp hs
      cases q with
      | register id => cases hq; exact h.sameKeys (.of_eq rfl rfl) _
      | registered id => cases hq
      | rpc call =>
        obtain ⟨⟨srv₁, call'⟩, hh, he⟩ := Option.map_eq_some_iff.mp hq
        cases he
        have hmove : b.server.Moves cfg merge s srv₁ :=
          .handle now call call' (handles_of_handle hh)
        exact h.sameKeys hmove.sameKeys _

theorem Booted.bootOk (h : Booted cfg merge s b) : BootOk cfg s b :=
  h.invariant (BootOk cfg s) (bootOk_init cfg s) fun _ _ _ _ _ hok hs => hok.step hs

/-! ## When a handler's lookups succeed -/

/-- The condition under which every lookup of a handler's next step finds an entry: the request
comes from one of the registered clients, and its votes are for servers whose queue has been made. -/
def Answerable (cfg : Config) (serverId : ℕ) (b : Boot G) : Inquiry G → Prop
  | .register id => 1 ≤ id ∧ id ≤ cfg.clientCount
  | .rpc (.pullPendingBlocks id (some ((blockId, _) :: _)) _) =>
    blockId ∈ b.server.pbSyncLabels → 1 ≤ id ∧ id ≤ cfg.clientCount
  | .rpc (.voteBlocks id (item :: _) none) =>
    ∀ block, fromBytes item = some block → id ∈ block.votes →
      block.header.id ∉ b.server.deadBlock →
      ∀ t ∈ block.getServerId cfg.serverCount, t ≠ serverId → b.pc.made t = true
  | _ => True

theorem voteBlocks_found (h1 : 1 ≤ s) (h2 : s ≤ cfg.serverCount) (h : BootOk cfg s b) {id : ℕ}
    {item : Flex G} {rest : List (Flex G)} {block : Block G} (hd : fromBytes item = some block) :
    (∀ l ∈ b.server.lookups cfg s (.rpc (.voteBlocks id (item :: rest) none)),
      b.server.finds l = true) ↔
      Answerable cfg s b (.rpc (.voteBlocks id (item :: rest) none)) := by
  have hqueue : ∀ t ∈ block.getServerId cfg.serverCount, t ≠ s →
      (b.server.finds (.relayVotes t) = true ↔ b.pc.made t = true) := by
    intro t ht hne
    obtain ⟨ht1, ht2⟩ := Block.getServerId_range (h1.trans h2) ht
    rw [finds, ExtTreeMap.contains_iff_mem, h.relayVotes, mem_peerIds]
    exact and_iff_right ⟨ht1, ht2, hne⟩
  simp only [lookups, Answerable, hd]
  constructor
  · rintro hall block' he hv hdead t ht hne
    cases he
    refine (hqueue t ht hne).mp (hall _ ?_)
    rw [if_neg]
    · exact List.mem_map_of_mem
        (List.mem_filter.mpr ⟨ExtTreeSet.mem_toList.mpr ht, by simpa using hne⟩)
    · rw [not_or, Bool.not_eq_true, Option.isNone_eq_false_iff,
        ← ExtTreeMap.mem_iff_isSome_getElem?]
      exact ⟨hv, hdead⟩
  · intro hall l hl
    split at hl
    · cases hl
    · rename_i hquiet
      rw [not_or, Bool.not_eq_true, Option.isNone_eq_false_iff,
        ← ExtTreeMap.mem_iff_isSome_getElem?] at hquiet
      obtain ⟨t, hm, rfl⟩ := List.mem_map.mp hl
      obtain ⟨ht, hne⟩ := List.mem_filter.mp hm
      have ht' := ExtTreeSet.mem_toList.mp ht
      have hne' : t ≠ s := by simpa using hne
      exact (hqueue t ht' hne').mpr (hall block rfl hquiet.1 hquiet.2 t ht' hne')

theorem lookups_found (h1 : 1 ≤ s) (h2 : s ≤ cfg.serverCount) (h : BootOk cfg s b) (q : Inquiry G) :
    (∀ l ∈ b.server.lookups cfg s q, b.server.finds l = true) ↔ Answerable cfg s b q := by
  cases q with
  | register id => simp [lookups, finds, Answerable, h.clients]
  | registered id => simp [lookups, Answerable]
  | rpc call =>
    cases call with
    | pullPendingBlocks id todo hdrs =>
      rcases todo with - | - | ⟨⟨blockId, p⟩, todo⟩
      · simp [lookups, Answerable]
      · simp [lookups, Answerable]
      · by_cases hl : blockId ∈ b.server.pbSyncLabels <;>
          simp [lookups, finds, Answerable, hl, h.clients]
    | voteBlocks id items current =>
      rcases items with - | ⟨item, rest⟩
      · simp [lookups, Answerable]
      · cases current with
        | some r => simp [lookups, Answerable]
        | none =>
          cases hd : fromBytes item with
          | none => simp [lookups, Answerable, hd]
          | some block =>
            exact voteBlocks_found h1 h2 h hd
    | _ => simp [lookups, Answerable]

/-- In every state of a server from the start of its services on, the lookups of a handler's next
step all find an entry exactly when the request is answerable; else the handler's behaviour is
undefined. -/
theorem lookups_found_iff (cfg : Config) (merge : List (BLSSigShare G) → BLSSignature G)
    (serverId : ℕ) (h1 : 1 ≤ serverId) (h2 : serverId ≤ cfg.serverCount) (b : Boot G)
    (h : Booted cfg merge serverId b) (q : Inquiry G) :
    ((∀ l ∈ b.server.lookups cfg serverId q, b.server.finds l = true) ↔
      Answerable cfg serverId b q) ∧
    ∀ now order srv' q', b.server.answer cfg serverId now order q = some (srv', q') →
      (q' = .rpc .undefined ↔ ¬Answerable cfg serverId b q) := by
  have hiff := lookups_found h1 h2 h.bootOk q
  refine ⟨hiff, fun now order srv' q' hq => ?_⟩
  rw [answer_undefined_iff hq, hiff]

namespace Script

def sampleVote : Inquiry Point :=
  .rpc (.voteBlocks 1 [toBytes (votedBlock Crypto.symbolic 2 1 (Block.make 2000000 0 0))] none)

/-- A peer relays a block and its sync signal, and someone who is not a registered client pulls. -/
def strangerPulls : List (BootAction Point) :=
  [.request (.rpc (.relayBlock [toBytes (Block.make 2000000 0 0)])), .handle 0 0 [],
    .request (.rpc (.relayBlockSync 2000000 false)), .handle 1 0 [],
    .request (.rpc (.pullPendingBlocks 3 none [])), .handle 2 0 [(2000000, 0)]]

def isStrangerPull : Inquiry Point → Bool
  | .rpc (.pullPendingBlocks 3 _ []) => true
  | _ => false

end Script

/-- After `start` the vote of client 1 on server 1 finds the queue for server 2. -/
theorem lookups_found_running :
    (Server.init sampleConfig 1).lookups sampleConfig 1 Script.sampleVote = [.relayVotes 2] ∧
      (Server.init sampleConfig 1 : Server Point).finds (.relayVotes 2) = true := by
  have hlookups : (Server.init sampleConfig 1).lookups sampleConfig 1 Script.sampleVote =
      [.relayVotes 2] := by decide +kernel
  refine ⟨hlookups, ?_⟩
  refine (lookups_found_iff sampleConfig Crypto.symbolic.merge 1 (by decide) (by decide) _
    booted_init Script.sampleVote).1.mpr (fun _ _ _ _ _ _ _ => rfl) _ ?_
  rw [hlookups]
  exact List.mem_singleton_self _

/-- With two clients and two servers, server 1 looks up a client 3 in `Register` and in
`PullPendingBlocks`, and a vote that comes before `init_peer_stubs` looks up a queue that has not
been made. -/
theorem exists_failed_lookup :
    (∃ (b : Boot Point) (q : Inquiry Point), Booted sampleConfig Crypto.symbolic.merge 1 b ∧
      q = .register 3 ∧ q.fresh = true ∧ .client 3 ∈ b.server.lookups sampleConfig 1 q ∧
      b.server.finds (.client 3) = false) ∧
    (∃ (b : Boot Point) (q : Inquiry Point), Booted sampleConfig Crypto.symbolic.merge 1 b ∧
      q = Script.sampleVote ∧ q.fresh = true ∧
      .relayVotes 2 ∈ b.server.lookups sampleConfig 1 q ∧
      b.server.finds (.relayVotes 2) = false) ∧
    ∃ (b : Boot Point) (q : Inquiry Point), Booted sampleConfig Crypto.symbolic.merge 1 b ∧
      q ∈ b.inquiries ∧ (∃ todo, q = .rpc (.pullPendingBlocks 3 todo [])) ∧
      .client 3 ∈ b.server.lookups sampleConfig 1 q ∧ b.server.finds (.client 3) = false := by
  refine ⟨⟨Boot.init sampleConfig 1, _, .refl, rfl, by decide, by decide, by decide +kernel⟩,
    ⟨Boot.init sampleConfig 1, _, .refl, rfl, by decide, by decide +kernel, by decide +kernel⟩, ?_⟩
  have hrun : (exec (Boot.step sampleConfig Crypto.symbolic.merge 1) (fun _ _ => true)
      (Boot.init sampleConfig 1) Script.strangerPulls).any (fun b =>
        !b.server.finds (.client 3) && (b.inquiries[2]?).any fun q =>
          (b.server.lookups sampleConfig 1 q).contains (.client 3) &&
            Script.isStrangerPull q) = true := by decide +kernel
  obtain ⟨b, hb, hfinds⟩ := Run.exists_of_exec (fun _ _ _ => trivial) hrun
  simp only [Bool.and_eq_true, Bool.not_eq_true', Option.any_eq_true, List.contains_iff_mem]
    at hfinds
  obtain ⟨hnot, q, hi, hlookup, hq⟩ := hfinds
  refine ⟨b, q, hb, List.mem_of_getElem? hi, ?_, hlookup, hnot⟩
  unfold Script.isStrangerPull at hq
  split at hq
  · rename_i todo
    cases todo with
    | none => simp [lookups] at hlookup
    | some todo => exact ⟨_, rfl⟩
  · cases hq

end TomChain
