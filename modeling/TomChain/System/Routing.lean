import TomChain.Lib.Counted
import TomChain.Lib.Seats
import TomChain.Client.Client

/-!
# Primary and shadow

The server of a block and its shadow are computed three times: by `Block::get_server_id` for the
votes, by `TcServer::get_shadow_peer_server_id` on a server and by the client's `main` for its two
channels. Here they stand at the width they are written for, `uint64_t` on the servers and `uint32_t`
in the client, beside `init_peer_stubs`, which makes the queues the servers are looked up in. For a
`server-count` at which no sum wraps they all mean a seat at one round table and the next, and so do
the plain numbers of `Block.getServerId` and `stubServer`.
-/

namespace TomChain

open Std (ExtTreeMap ExtTreeSet)
open Decimal (Text)

variable {G : Type}

/-! ## The code at its width -/

namespace Routing

def primaryId (id serverCount : UInt64) : UInt64 := id % serverCount + 1

def shadowId (id serverCount : UInt64) : UInt64 :=
  let shadowId := primaryId id serverCount + 1
  if shadowId > serverCount then 1 else shadowId

/-- `Block::get_server_id` for the id in the header. -/
def getServerId (id serverCount : UInt64) : ExtTreeSet UInt64 :=
  ((∅ : ExtTreeSet UInt64).insert (primaryId id serverCount)).insert (shadowId id serverCount)

/-- `TcServer::get_shadow_peer_server_id` on server `serverId`. -/
def getShadowPeerServerId (serverCount serverId : UInt64) : UInt64 :=
  if serverId = serverCount then 1 else serverId + 1

/-- The entries of the configuration from which the client's `main` makes its channels. -/
structure ClientConf where
  clientId : ℕ
  grpcServerCount : ℕ
  grpcServerIp : Text
  grpcServerPort : ℕ

namespace ClientConf

/-- `client_index`; `get<uint32_t>()` truncates the number of the file. -/
def clientIndex (conf : ClientConf) : UInt32 := .ofNat conf.clientId - 1

def serverSelect (conf : ClientConf) : UInt32 :=
  conf.clientIndex % .ofNat conf.grpcServerCount + 1

def shadowServerSelect (conf : ClientConf) : UInt32 :=
  let select := conf.clientIndex % .ofNat conf.grpcServerCount + 2
  if select > .ofNat conf.grpcServerCount then 1 else select

def serverAddr (conf : ClientConf) (select : UInt32) : Text :=
  conf.grpcServerIp ++ ":".toList ++ Decimal.toText (.ofNat conf.grpcServerPort + select : UInt32).toNat

/-- `server_addr` and `shadow_server_addr`, behind the two stubs of `TcClient`. -/
def channels (conf : ClientConf) : Text × Text :=
  (conf.serverAddr conf.serverSelect, conf.serverAddr conf.shadowServerSelect)

end ClientConf

/-- What `init_peer_stubs` fills, without `peer_status`. A stub is the address of its channel, a
block in a queue the address of the object. -/
structure PeerTables (G : Type) where
  relayVotes : ExtTreeMap UInt64 (List (BlockVote G))
  relayBlocks : ExtTreeMap UInt64 (List ℕ)
  bcastCommitBlocks : ExtTreeMap UInt64 (List ℕ)
  grpcPeerClientStub : ExtTreeMap UInt64 Text

/-- The body of a loop of `init_peer_stubs`: an entry for server `i + 1` unless this is the server
itself. -/
def insertPeer {α : Type} (serverId : UInt64) (entry : UInt64 → α) (i : UInt64)
    (m : ExtTreeMap UInt64 α) : ExtTreeMap UInt64 α :=
  let peerId := i + 1
  if peerId = serverId then m else m.insertIfNew peerId (entry i)

/-- `TcServer::init_peer_stubs`. The queues are cleared before, the stubs are not; `peer_addr.at(i)`
is in range. -/
def initPeerStubs (serverCount : UInt64) (peerAddr : List Text) (serverId : UInt64)
    (tables : PeerTables G) : PeerTables G where
  relayVotes := forUpto serverCount (insertPeer serverId fun _ => []) ∅
  relayBlocks := forUpto serverCount (insertPeer serverId fun _ => []) ∅
  bcastCommitBlocks := forUpto serverCount (insertPeer serverId fun _ => []) ∅
  grpcPeerClientStub :=
    forUpto (.ofNat peerAddr.length) (insertPeer serverId fun i => peerAddr.getD i.toNat [])
      tables.grpcPeerClientStub

end Routing

/-! ## The plain numbers -/

section Numbers

variable {n : ℕ}

theorem Block.mem_getServerId_seat (hn : 1 ≤ n) (b : Block G) (t : ℕ) :
    t ∈ b.getServerId n ↔ t ∈ (Seat.deal hn b.header.id).pair := by
  rw [Block.mem_getServerId, Seat.mem_pair, Seat.next_val_of_gt, Seat.deal_val]

theorem stubServer_zero_seat (hn : 1 ≤ n) (c : ℕ) :
    stubServer n c 0 = (Seat.deal hn (c - 1)).val := rfl

theorem stubServer_one_seat (hn : 1 ≤ n) (c : ℕ) :
    stubServer n c 1 = (Seat.deal hn (c - 1)).next.val := by
  rw [Seat.next_val_of_gt, Seat.deal_val]
  rfl

end Numbers

namespace Routing

/-! ## A seat and the next -/

section Servers

variable {serverCount : UInt64} (h1 : 1 ≤ serverCount.toNat)

theorem toNat_primaryId (id : UInt64) :
    (primaryId id serverCount).toNat = (Seat.deal h1 id.toNat).val := by
  have hlt : id % serverCount < serverCount := UInt64.mod_lt id (UInt64.lt_iff_toNat_lt.mpr h1)
  rw [primaryId, toNat_add_one hlt, UInt64.toNat_mod, Seat.deal_val]

theorem toNat_getShadowPeerServerId {serverId : UInt64} (p : Seat serverCount.toNat)
    (hp : serverId.toNat = p.val) :
    (getShadowPeerServerId serverCount serverId).toNat = p.next.val := by
  have hle := p.le
  rw [getShadowPeerServerId, Seat.next_val]
  by_cases hlast : p.val = serverCount.toNat
  · have heq : serverId = serverCount := UInt64.toNat_inj.mp (hp.trans hlast)
    rw [if_pos heq, if_pos hlast, UInt64.toNat_one]
  · have hlt : serverId < serverCount := UInt64.lt_iff_toNat_lt.mpr (by omega)
    rw [if_neg (UInt64.ne_of_lt hlt), if_neg hlast, toNat_add_one hlt, hp]

-- The sum is made before the test: with `2 ^ 64 - 1` servers it would wrap to zero.
theorem toNat_shadowId (id : UInt64) (hb : serverCount.toNat < 2 ^ 64 - 1) :
    (shadowId id serverCount).toNat = (Seat.deal h1 id.toNat).next.val := by
  have hle := (Seat.deal h1 id.toNat).le
  have hsum : (primaryId id serverCount + 1).toNat = (Seat.deal h1 id.toNat).val + 1 := by
    rw [UInt64.toNat_add, toNat_primaryId h1, UInt64.toNat_one]
    exact Nat.mod_eq_of_lt (by omega)
  rw [Seat.next_val_of_gt, ← hsum, shadowId, apply_ite UInt64.toNat]
  simp only [gt_iff_lt, UInt64.lt_iff_toNat_lt, UInt64.toNat_one]

theorem mem_getServerId {id t : UInt64} :
    t ∈ getServerId id serverCount ↔ t = primaryId id serverCount ∨ t = shadowId id serverCount := by
  simp only [getServerId, ExtTreeSet.mem_insert, Std.compare_eq_iff_eq, ExtTreeSet.not_mem_empty,
    or_false, eq_comm (a := t)]
  exact Or.comm

theorem mem_getServerId_seat {id t : UInt64} (hb : serverCount.toNat < 2 ^ 64 - 1) :
    t ∈ getServerId id serverCount ↔ t.toNat ∈ (Seat.deal h1 id.toNat).pair := by
  rw [mem_getServerId, Seat.mem_pair, ← toNat_primaryId h1, ← toNat_shadowId h1 id hb,
    UInt64.toNat_inj, UInt64.toNat_inj]

theorem mem_getServerId_block {id t : UInt64} (h1 : 1 ≤ serverCount.toNat)
    (hb : serverCount.toNat < 2 ^ 64 - 1) (b : Block G) (hid : b.header.id = id.toNat) :
    t ∈ getServerId id serverCount ↔ t.toNat ∈ b.getServerId serverCount.toNat := by
  rw [mem_getServerId_seat h1 hb, Block.mem_getServerId_seat h1, hid]

theorem size_getServerId (h1 : 1 ≤ serverCount.toNat) (id : UInt64)
    (hb : serverCount.toNat < 2 ^ 64 - 1) :
    (getServerId id serverCount).size = min 2 serverCount.toNat := by
  have hsize : (getServerId id serverCount).size =
      if primaryId id serverCount = shadowId id serverCount then 1 else 2 := by
    simp only [getServerId, ExtTreeSet.size_insert, ExtTreeSet.contains_insert, ExtTreeSet.size_empty]
    simp
  rw [← Seat.card_pair (Seat.deal h1 id.toNat), Seat.pair, ← toNat_primaryId h1,
    ← toNat_shadowId h1 id hb, hsize]
  split
  · rename_i heq
    rw [heq, Finset.pair_eq_singleton, Finset.card_singleton]
  · rename_i hne
    rw [Finset.card_pair fun h => hne (UInt64.toNat_inj.mp h)]

end Servers

section Clients

variable {conf : ClientConf} {n : ℕ} (hS : conf.grpcServerCount = n) (h1 : 1 ≤ n)
  (hb : n < 2 ^ 32 - 1) (hc : 1 ≤ conf.clientId) (hc' : conf.clientId < 2 ^ 32)

include hS hb hc hc'

theorem toNat_clientSlot : (conf.clientIndex % .ofNat conf.grpcServerCount).toNat =
    (conf.clientId - 1) % n := by
  have hid : (UInt32.ofNat conf.clientId).toNat = conf.clientId := UInt32.toNat_ofNat_of_lt' hc'
  have hle : (1 : UInt32) ≤ .ofNat conf.clientId := by
    rw [UInt32.le_iff_toNat_le, hid]
    exact hc
  rw [hS, UInt32.toNat_mod, ClientConf.clientIndex, UInt32.toNat_sub_of_le _ _ hle, hid,
    UInt32.toNat_ofNat_of_lt' (by rw [UInt32.size]; omega)]
  rfl

theorem toNat_serverSelect :
    conf.serverSelect.toNat = (Seat.deal h1 (conf.clientId - 1)).val := by
  have hmod := Nat.mod_lt (conf.clientId - 1) h1
  rw [ClientConf.serverSelect, UInt32.toNat_add, toNat_clientSlot hS hb hc hc', Seat.deal_val]
  exact Nat.mod_eq_of_lt (by rw [UInt32.toNat_one]; omega)

theorem toNat_shadowServerSelect :
    conf.shadowServerSelect.toNat = (Seat.deal h1 (conf.clientId - 1)).next.val := by
  have hmod := Nat.mod_lt (conf.clientId - 1) h1
  have hsum : (conf.clientIndex % .ofNat conf.grpcServerCount + 2).toNat =
      (Seat.deal h1 (conf.clientId - 1)).val + 1 := by
    have htwo : (2 : UInt32).toNat = 2 := rfl
    rw [UInt32.toNat_add, toNat_clientSlot hS hb hc hc', Seat.deal_val, htwo]
    exact Nat.mod_eq_of_lt (by omega)
  have hcount : (UInt32.ofNat conf.grpcServerCount).toNat = n := by
    rw [hS, UInt32.toNat_ofNat_of_lt' (by rw [UInt32.size]; omega)]
  rw [Seat.next_val_of_gt, ← hsum, ClientConf.shadowServerSelect, apply_ite UInt32.toNat]
  simp only [gt_iff_lt, UInt32.lt_iff_toNat_lt, hcount, UInt32.toNat_one]

-- At `2 ^ 32 - 1` servers the sum wraps before the test, and the last client gets server 0.
example : (⟨2 ^ 32 - 1, 2 ^ 32 - 1, [], 0⟩ : ClientConf).shadowServerSelect = 0 := by decide

include h1 in
theorem toNat_select_stubServer :
    conf.serverSelect.toNat = stubServer n conf.clientId 0 ∧
      conf.shadowServerSelect.toNat = stubServer n conf.clientId 1 := by
  rw [toNat_serverSelect hS h1 hb hc hc', toNat_shadowServerSelect hS h1 hb hc hc',
    stubServer_zero_seat h1, stubServer_one_seat h1]
  exact ⟨rfl, rfl⟩

end Clients

/-! ## The queues -/

/-- A peer is one of the servers `1 .. n`, but not the server itself. -/
def IsPeer (n : ℕ) (serverId t : UInt64) : Prop := 1 ≤ t.toNat ∧ t.toNat ≤ n ∧ t ≠ serverId

instance (n : ℕ) (serverId t : UInt64) : Decidable (IsPeer n serverId t) :=
  inferInstanceAs (Decidable (_ ∧ _ ∧ _))

section Queues

variable {α : Type} {count serverId : UInt64}

theorem getElem?_insertPeer (entry : UInt64 → α) (i t : UInt64) (m : ExtTreeMap UInt64 α) :
    (insertPeer serverId entry i m)[t]? =
      if i + 1 = t ∧ t ≠ serverId then m[t]?.or (some (entry i)) else m[t]? := by
  unfold insertPeer
  dsimp only
  by_cases hself : i + 1 = serverId
  · have hno : ¬ (i + 1 = t ∧ t ≠ serverId) := fun h => h.2 (h.1.symm.trans hself)
    rw [if_pos hself, if_neg hno]
  · rw [if_neg hself, ExtTreeMap.getElem?_insertIfNew]
    by_cases ht : i + 1 = t
    · subst ht
      cases hm : m[i + 1]? with
      | none => simp [hself, ExtTreeMap.mem_iff_isSome_getElem?, hm]
      | some v => simp [hself, ExtTreeMap.mem_iff_isSome_getElem?, hm]
    · simp [ht]

/-- A loop of `init_peer_stubs` keeps the entries it finds and adds one for every other peer. -/
theorem getElem?_insertPeers (entry : UInt64 → α) (m₀ : ExtTreeMap UInt64 α) (t : UInt64) :
    (forUpto count (insertPeer serverId entry) m₀)[t]? =
      m₀[t]?.or (if IsPeer count.toNat serverId t then some (entry (t - 1)) else none) := by
  let P := fun (i : ℕ) (m : ExtTreeMap UInt64 α) =>
    m[t]? = m₀[t]?.or (if IsPeer i serverId t then some (entry (t - 1)) else none)
  have h0 : P 0 m₀ := by
    have hnone : ¬ IsPeer 0 serverId t := fun h => absurd (h.1.trans h.2.1) (by decide)
    simp only [P, if_neg hnone, Option.or_none]
  refine forUpto_keeps P h0 ?_
  intro i hi m hm
  have hnext := toNat_add_one hi
  simp only [P] at hm ⊢
  rw [getElem?_insertPeer]
  by_cases ht : i + 1 = t ∧ t ≠ serverId
  · obtain ⟨rfl, hne⟩ := ht
    have hbefore : ¬ IsPeer i.toNat serverId (i + 1) := fun h => by have := h.2.1; omega
    have hnow : IsPeer (i.toNat + 1) serverId (i + 1) := ⟨by omega, by omega, hne⟩
    rw [if_neg hbefore, Option.or_none] at hm
    rw [if_pos ⟨rfl, hne⟩, if_pos hnow, hm, UInt64.add_sub_cancel]
  · have hsame : IsPeer (i.toNat + 1) serverId t ↔ IsPeer i.toNat serverId t := by
      refine and_congr_right fun h1 => and_congr_left fun hne => ?_
      have hdiff : t.toNat ≠ i.toNat + 1 := fun h =>
        ht ⟨UInt64.toNat_inj.mp (hnext.trans h.symm), hne⟩
      omega
    rw [if_neg ht, hm]
    simp only [hsame]

theorem mem_insertPeers (entry : UInt64 → α) {t : UInt64} :
    t ∈ forUpto count (insertPeer serverId entry) ∅ ↔ IsPeer count.toNat serverId t := by
  rw [ExtTreeMap.mem_iff_isSome_getElem?, getElem?_insertPeers]
  split <;> simp [*]

end Queues

theorem isPeer_iff_mem_peerIds {n : ℕ} {serverId t : UInt64} :
    IsPeer n serverId t ↔ t.toNat ∈ peerIds n serverId.toNat := by
  rw [IsPeer, mem_peerIds, ne_eq, ne_eq, UInt64.toNat_inj]

/-- Every target of a block but the server itself is a peer, whatever the server. -/
theorem isPeer_of_target {serverCount serverId id t : UInt64} (h1 : 1 ≤ serverCount.toNat)
    (hb : serverCount.toNat < 2 ^ 64 - 1) (ht : t ∈ getServerId id serverCount)
    (hne : t ≠ serverId) : IsPeer serverCount.toNat serverId t := by
  have hrange := Seat.range_of_mem_pair ((mem_getServerId_seat h1 hb).mp ht)
  exact ⟨hrange.1, hrange.2, hne⟩

section Tables

variable (serverCount serverId : UInt64) (peerAddr : List Text) (tables : PeerTables G)

/-- The queues are those of `Server.init`. -/
theorem mem_initPeerStubs_init (cfg : Config) (hcfg : cfg.serverCount = serverCount.toNat) (t : UInt64) :
    let after := initPeerStubs serverCount peerAddr serverId tables
    let srv : Server G := Server.init cfg serverId.toNat
    (t ∈ after.relayVotes ↔ t.toNat ∈ srv.relayVotes) ∧
      (t ∈ after.relayBlocks ↔ t.toNat ∈ srv.relayBlocks) ∧
      (t ∈ after.bcastCommitBlocks ↔ t.toNat ∈ srv.bcastCommitBlocks) := by
  simp only [initPeerStubs, Server.init, mem_insertPeers, mem_initQueues, isPeer_iff_mem_peerIds, hcfg,
    and_self]

/-- With an address for every server, each target of a block but the server itself has a stub, whose
channel leads to the target's address. -/
theorem stub_of_target {id t : UInt64} (h1 : 1 ≤ serverCount.toNat)
    (hb : serverCount.toNat < 2 ^ 64 - 1) (haddr : peerAddr.length = serverCount.toNat)
    (ht : t ∈ getServerId id serverCount) (hne : t ≠ serverId)
    (hfresh : t ∉ tables.grpcPeerClientStub) :
    (initPeerStubs serverCount peerAddr serverId tables).grpcPeerClientStub[t]? =
      peerAddr[t.toNat - 1]? := by
  have hpeer := isPeer_of_target h1 hb ht hne
  have hcount : (UInt64.ofNat peerAddr.length).toNat = serverCount.toNat := by
    rw [haddr, UInt64.ofNat_toNat]
  have hle : (1 : UInt64) ≤ t := UInt64.le_iff_toNat_le.mpr hpeer.1
  have hlt : t.toNat - 1 < peerAddr.length := by
    have hlast := hpeer.2.1
    omega
  rw [initPeerStubs, getElem?_insertPeers, hcount, if_pos hpeer,
    ExtTreeMap.getElem?_eq_none hfresh, Option.none_or, UInt64.toNat_sub_of_le _ _ hle,
    UInt64.toNat_one, List.getD_eq_getElem?_getD, List.getElem?_eq_getElem hlt, Option.getD_some]

end Tables

/-! ## One ring -/

/-- A client talks to two different servers as soon as there are two. -/
theorem channels_ne {conf : ClientConf} {n : ℕ} (hS : conf.grpcServerCount = n) (h2 : 2 ≤ n)
    (hb : n < 2 ^ 32 - 1) (hc : 1 ≤ conf.clientId) (hc' : conf.clientId < 2 ^ 32) :
    conf.channels.1 ≠ conf.channels.2 := by
  have h1 : 1 ≤ n := by omega
  intro h
  have hport := Decimal.toText_injective (List.append_cancel_left h)
  have hsel : conf.serverSelect = conf.shadowServerSelect :=
    (UInt32.add_right_inj _).mp (UInt32.toNat_inj.mp hport)
  have hval := congrArg UInt32.toNat hsel
  rw [toNat_serverSelect hS h1 hb hc hc', toNat_shadowServerSelect hS h1 hb hc hc'] at hval
  exact Seat.next_val_ne _ h2 hval.symm

section Ring

variable {S : UInt64} (h1 : 1 ≤ S.toNat) (hb : S.toNat < 2 ^ 32 - 1)

include h1 hb

theorem getServerId_pair (id : UInt64) :
    ∃ p q : UInt64, p.toNat = id.toNat % S.toNat + 1 ∧ q = getShadowPeerServerId S p ∧
      (∀ t, t ∈ getServerId id S ↔ t = p ∨ t = q) ∧
      (1 ≤ p.toNat ∧ p.toNat ≤ S.toNat) ∧ (1 ≤ q.toNat ∧ q.toNat ≤ S.toNat) ∧
      (getServerId id S).size = min 2 S.toNat := by
  have hb' : S.toNat < 2 ^ 64 - 1 := by omega
  have hp := toNat_primaryId h1 id
  have hq := toNat_getShadowPeerServerId _ hp
  have hshadow : shadowId id S = getShadowPeerServerId S (primaryId id S) :=
    UInt64.toNat_inj.mp ((toNat_shadowId h1 id hb').trans hq.symm)
  refine ⟨primaryId id S, _, hp, rfl, fun t => ?_, ?_, ?_, size_getServerId h1 id hb'⟩
  · rw [mem_getServerId, hshadow]
  · rw [hp]
    exact ⟨Seat.one_le _, Seat.le _⟩
  · rw [hq]
    exact ⟨Seat.one_le _, Seat.le _⟩

theorem clientConf_pair (conf : ClientConf) (hS : conf.grpcServerCount = S.toNat)
    (hc : 1 ≤ conf.clientId) (hc' : conf.clientId < 2 ^ 32) :
    conf.shadowServerSelect.toUInt64 = getShadowPeerServerId S conf.serverSelect.toUInt64 ∧
      ∀ id : UInt64, id.toNat ≡ conf.clientId - 1 [MOD S.toNat] → ∀ t, t ∈ getServerId id S ↔
        t = conf.serverSelect.toUInt64 ∨ t = conf.shadowServerSelect.toUInt64 := by
  have hp : conf.serverSelect.toUInt64.toNat = (Seat.deal h1 (conf.clientId - 1)).val := by
    rw [UInt32.toNat_toUInt64, toNat_serverSelect hS h1 hb hc hc']
  have hq : conf.shadowServerSelect.toUInt64.toNat = (Seat.deal h1 (conf.clientId - 1)).next.val := by
    rw [UInt32.toNat_toUInt64, toNat_shadowServerSelect hS h1 hb hc hc']
  constructor
  · exact UInt64.toNat_inj.mp (hq.trans (toNat_getShadowPeerServerId _ hp).symm)
  · intro id hid t
    have hb' : S.toNat < 2 ^ 64 - 1 := by omega
    rw [mem_getServerId_seat h1 hb', Seat.deal_congr h1 hid, Seat.mem_pair, ← hp, ← hq,
      UInt64.toNat_inj, UInt64.toNat_inj]

end Ring

/-- The three computations agree at every number of servers without a wrap, and a server has the
queues of all targets that a block can name. -/
theorem targets_agree (S : UInt64) (h1 : 1 ≤ S.toNat) (hb : S.toNat < 2 ^ 32 - 1) :
    (∀ id : UInt64, ∃ p q : UInt64, p.toNat = id.toNat % S.toNat + 1 ∧
      q = getShadowPeerServerId S p ∧ (∀ t, t ∈ getServerId id S ↔ t = p ∨ t = q) ∧
      (1 ≤ p.toNat ∧ p.toNat ≤ S.toNat) ∧ (1 ≤ q.toNat ∧ q.toNat ≤ S.toNat) ∧
      (getServerId id S).size = min 2 S.toNat) ∧
    (∀ conf : ClientConf, conf.grpcServerCount = S.toNat → 1 ≤ conf.clientId →
      conf.clientId < 2 ^ 32 →
      conf.shadowServerSelect.toUInt64 = getShadowPeerServerId S conf.serverSelect.toUInt64 ∧
      ∀ id : UInt64, id.toNat ≡ conf.clientId - 1 [MOD S.toNat] → ∀ t, t ∈ getServerId id S ↔
        t = conf.serverSelect.toUInt64 ∨ t = conf.shadowServerSelect.toUInt64) ∧
    ∀ (serverId : UInt64) (peerAddr : List Text) (tables : PeerTables G),
      1 ≤ serverId.toNat → serverId.toNat ≤ S.toNat →
      let after := initPeerStubs S peerAddr serverId tables
      (∀ t : UInt64,
        (t ∈ after.relayVotes ↔ 1 ≤ t.toNat ∧ t.toNat ≤ S.toNat ∧ t ≠ serverId) ∧
        (t ∈ after.relayBlocks ↔ 1 ≤ t.toNat ∧ t.toNat ≤ S.toNat ∧ t ≠ serverId) ∧
        (t ∈ after.bcastCommitBlocks ↔ 1 ≤ t.toNat ∧ t.toNat ≤ S.toNat ∧ t ≠ serverId)) ∧
      ∀ id t : UInt64, t ∈ getServerId id S → t ≠ serverId →
        after.relayVotes[t]? = some [] ∧ after.relayBlocks[t]? = some [] ∧
          after.bcastCommitBlocks[t]? = some [] := by
  refine ⟨getServerId_pair h1 hb, clientConf_pair h1 hb, ?_⟩
  intro serverId peerAddr tables _ _ after
  constructor
  · intro t
    exact ⟨mem_insertPeers _, mem_insertPeers _, mem_insertPeers _⟩
  · intro id t ht hne
    have hpeer := isPeer_of_target h1 (by omega) ht hne
    simp only [after, initPeerStubs, getElem?_insertPeers, if_pos hpeer, ExtTreeMap.getElem?_empty,
      Option.none_or, and_self]

/-- The third client of three servers, whose shadow is the first one. -/
def thirdClient : ClientConf := ⟨3, 3, "127.0.0.1".toList, 50050⟩

theorem targets_agree_three :
    (∃ p q : UInt64, p.toNat = 5 % 3 + 1 ∧ q = getShadowPeerServerId 3 p ∧
      (∀ t, t ∈ getServerId 5 3 ↔ t = p ∨ t = q) ∧ (1 ≤ p.toNat ∧ p.toNat ≤ 3) ∧
      (1 ≤ q.toNat ∧ q.toNat ≤ 3) ∧ (getServerId 5 3).size = min 2 3) ∧
    (∀ t, t ∈ getServerId 5 3 ↔ t = 3 ∨ t = 1) ∧
    ∀ t ∈ getServerId 5 3, t ≠ 2 →
      (initPeerStubs 3 [] 2 (⟨∅, ∅, ∅, ∅⟩ : PeerTables Unit)).relayVotes[t]? = some [] := by
  have h := targets_agree (G := Unit) 3 (by decide) (by decide)
  refine ⟨h.1 5, ?_, fun t ht hne => ?_⟩
  · have hselect : thirdClient.serverSelect.toUInt64 = 3 := by decide
    have hshadow : thirdClient.shadowServerSelect.toUInt64 = 1 := by decide
    rw [← hselect, ← hshadow]
    exact (h.2.1 thirdClient rfl (by decide) (by decide)).2 5 rfl
  · exact ((h.2.2 2 [] ⟨∅, ∅, ∅, ∅⟩ (by decide) (by decide)).2 5 t ht hne).1

end Routing

end TomChain
