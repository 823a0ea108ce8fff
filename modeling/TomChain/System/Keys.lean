import Mathlib.Tactic.NormNum.Prime
import Mathlib.Algebra.Field.ZMod
import TomChain.Client.Client
import TomChain.Entity.Flexbuffers
import TomChain.Lib.Sharing

/-!
# Threshold keys

Every server runs `init_client_profile` on its own, so every server has its own sharing; a client
takes its secret share from the server behind stub 0. The merged signature of a block is one under
the key of a single server as long as all clients register at the same server.

Secret shares are elements of a field `F` that acts on the group `G`, as `alt_bn128_Fr` acts on
`alt_bn128_G1`. `hashToPoint` takes a digest to the group.
-/

namespace TomChain

open Std (ExtTreeMap)
open Sharing (evalPoly coeffAtZero combine)
open Decimal (Text)

variable {F G D : Type} [Field F] [AddCommGroup G] [Module F G]

/-! ## Key generation and registration -/

/-- `DKGBLSWrapper(n, n).createDKGSecretShares`: the values at `1 .. n` of the polynomial with the
coefficients `f`. -/
def createDKGSecretShares (f : List F) (n : ℕ) : List F :=
  (List.range n).map fun i => evalPoly f ((i + 1 : ℕ) : F)

/-- `init_client_profile`: the secret share in the profile of every client; `none` when
`sshares->at(i)` throws. -/
def initTssKeys (clientCount : ℕ) (sshares : List F) : Option (ExtTreeMap ℕ F) :=
  (List.range clientCount).foldlM (fun m i => (sshares[i]?).map fun sk => m.insertIfNew (i + 1) sk) ∅

/-- `Register`: the share that client `clientId` gets from the server behind stub 0. `f s` is the
polynomial of server `s`. -/
def register (serverCount clientCount : ℕ) (f : ℕ → List F) (clientId : ℕ) : Option F :=
  let server := stubServer serverCount clientId 0
  (initTssKeys clientCount (createDKGSecretShares (f server) clientCount)).bind (·[clientId]?)

/-- The library calls with real shares: `sign` multiplies the hashed point by the registered secret
share (a client that has none does not sign), and `merge` combines the shares with the Lagrange
coefficients at zero over their indices. -/
def Crypto.threshold (base : Crypto G D) (hashToPoint : D → G) (key : ℕ → Option F) : Crypto G D :=
  { base with
    sign := fun c d => ((key c).map (· • hashToPoint d)).getD 0
    merge := fun shares =>
      { base.merge shares with
        sig := combine (fun i : ℕ => (i : F)) (shares.map fun s => (s.signerIndex, s.sigShare)) } }

omit [Field F] in
theorem initTssKeys_prefix (sshares : List F) (n : ℕ) (hn : n ≤ sshares.length) :
    ∃ m, (List.range n).foldlM (fun m i => (sshares[i]?).map fun sk => m.insertIfNew (i + 1) sk)
        (∅ : ExtTreeMap ℕ F) = some m ∧
      ∀ c, m[c]? = if 1 ≤ c ∧ c ≤ n then sshares[c - 1]? else none := by
  induction n with
  | zero => exact ⟨∅, rfl, fun c => by rw [if_neg (by omega)]; simp⟩
  | succ n ih =>
    obtain ⟨m, hm, hget⟩ := ih (by omega)
    have hsk : sshares[n]? = some (sshares.get ⟨n, hn⟩) := List.getElem?_eq_getElem hn
    refine ⟨m.insertIfNew (n + 1) (sshares.get ⟨n, hn⟩), ?_, fun c => ?_⟩
    · rw [List.range_succ, List.foldlM_append, hm]
      simp [hsk]
    · have hnot : n + 1 ∉ m := by
        rw [ExtTreeMap.mem_iff_isSome_getElem?, hget, if_neg (by omega)]
        simp
      rw [ExtTreeMap.getElem?_insertIfNew]
      by_cases hc : c = n + 1
      · subst hc
        rw [if_pos ⟨by simp, hnot⟩, if_pos ⟨by omega, le_rfl⟩, Nat.add_sub_cancel, hsk]
      · rw [if_neg (by simp; omega), hget]
        by_cases hle : 1 ≤ c ∧ c ≤ n
        · rw [if_pos hle, if_pos ⟨hle.1, by omega⟩]
        · rw [if_neg hle, if_neg (by omega)]

/-- A client registers for the value of its server's polynomial at its own id. -/
theorem register_eq {serverCount clientCount c : ℕ} (f : ℕ → List F) (h1 : 1 ≤ c)
    (h2 : c ≤ clientCount) :
    register serverCount clientCount f c = some (evalPoly (f (stubServer serverCount c 0)) (c : F)) := by
  obtain ⟨m, hm, hget⟩ := initTssKeys_prefix
    (createDKGSecretShares (f (stubServer serverCount c 0)) clientCount) clientCount
    (by simp [createDKGSecretShares])
  have hlt : c - 1 < clientCount := by omega
  have hc : c - 1 + 1 = c := by omega
  rw [register, initTssKeys, hm, Option.bind_some, hget, if_pos ⟨h1, h2⟩, createDKGSecretShares,
    List.getElem?_map, List.getElem?_range hlt, Option.map_some, hc]

/-! ## Merging -/

/-- All clients have voted on the block, each on a copy with the digest `h`. -/
def AllSigned (crypto : Crypto G D) (clientCount : ℕ) (h : D) (b : Block G) : Prop :=
  (∀ k, k ∈ b.votes ↔ 1 ≤ k ∧ k ≤ clientCount) ∧
    ∀ (k : ℕ) v, b.votes[k]? = some v →
      ∃ block : Block G, block.getSha256 crypto = h ∧ v = castVote crypto clientCount k block

/-- What `Block::merge_votes` computes from the shares of all clients. -/
theorem mergeVotes_allSigned {base : Crypto G D} {hashToPoint : D → G} {key : ℕ → F} {n : ℕ} {h : D}
    {b : Block G} {keyOf : ℕ → Option F} (hkey : ∀ c, 1 ≤ c → c ≤ n → keyOf c = some (key c))
    (hb : AllSigned (base.threshold hashToPoint keyOf) n h b) :
    ∃ sig, b.mergeVotes (base.threshold hashToPoint keyOf).merge n =
        .ok { b with tssSig := some sig } ∧
      sig.sig = (b.votes.keys.map fun i =>
        coeffAtZero (fun i : ℕ => (i : F)) b.votes.keys i * key i).sum • hashToPoint h := by
  obtain ⟨hmem, hvotes⟩ := hb
  have hshare : ∀ kv ∈ b.votes.toList, ∃ share, kv.2.sigShare = some share ∧
      share.signerIndex = kv.1 ∧ share.sigShare = key kv.1 • hashToPoint h := by
    intro kv hkv
    have hget := ExtTreeMap.mem_toList_iff_getElem?_eq_some.mp hkv
    obtain ⟨block, rfl, hv⟩ := hvotes kv.1 kv.2 hget
    have hk := (hmem kv.1).mp (by rw [ExtTreeMap.mem_iff_isSome_getElem?, hget]; rfl)
    refine ⟨_, by rw [hv]; rfl, rfl, ?_⟩
    simp [Crypto.threshold, hkey kv.1 hk.1 hk.2]
  obtain ⟨shares, hok, hmap⟩ := addSigShares_ok b.votes.toList []
    (fun kv hkv => (hshare kv hkv).imp fun _ hs => ⟨hs.1, hs.2.1⟩)
    (by simpa using Flexbuffers.toList_fst_nodup b.votes)
  have hpairs : shares.map (fun s => (s.signerIndex, s.sigShare)) =
      b.votes.keys.map fun i => (i, key i • hashToPoint h) := by
    apply List.map_injective_iff.mpr (Option.some_injective _)
    calc (shares.map fun s => (s.signerIndex, s.sigShare)).map some
        = (shares.map some).map (Option.map fun s => (s.signerIndex, s.sigShare)) := by
          simp [List.map_map, Function.comp_def]
      _ = b.votes.toList.map fun kv => kv.2.sigShare.map fun s => (s.signerIndex, s.sigShare) := by
          rw [hmap, List.map_map]
          rfl
      _ = b.votes.toList.map fun kv => some (kv.1, key kv.1 • hashToPoint h) := by
          refine List.map_congr_left fun kv hkv => ?_
          obtain ⟨share, h1, h2, h3⟩ := hshare kv hkv
          rw [h1, Option.map_some, h2, h3]
      _ = (b.votes.keys.map fun i => (i, key i • hashToPoint h)).map some := by
          rw [← ExtTreeMap.map_fst_toList_eq_keys, List.map_map, List.map_map]
          rfl
  have hlen : shares.length = b.votes.size := by
    have := congrArg List.length hmap
    simpa using this
  have hsize : b.votes.size = n := by
    have hperm : b.votes.keys.Perm (List.range' 1 n) := by
      rw [List.perm_ext_iff_of_nodup ExtTreeMap.nodup_keys List.nodup_range']
      intro k
      rw [ExtTreeMap.mem_keys, hmem, List.mem_range'_1]
      omega
    have := hperm.length_eq
    simpa using this
  refine ⟨(base.threshold hashToPoint keyOf).merge shares, ?_, ?_⟩
  · simp only [Block.mergeVotes, hok, List.nil_append]
    rw [if_pos (by omega)]
  · simp only [Crypto.threshold, hpairs]
    exact Sharing.combine_smul _ _

/-! ## One key or several -/

/-- Whatever polynomials the servers choose, the merged signature of a block that all clients signed
is the signature under the key of a single server. -/
def SingleKey (F : Type) [Field F] [Module F G] (base : Crypto G D) (hashToPoint : D → G)
    (serverCount clientCount : ℕ) : Prop :=
  ∀ f : ℕ → List F, (∀ s, (f s).length ≤ clientCount) → ∀ h b,
    AllSigned (base.threshold hashToPoint (register serverCount clientCount f)) clientCount h b →
    ∃ b' sig s,
      b.mergeVotes (base.threshold hashToPoint (register serverCount clientCount f)).merge clientCount =
        .ok b' ∧ b'.tssSig = some sig ∧ 1 ≤ s ∧ s ≤ serverCount ∧
      sig.sig = evalPoly (f s) 0 • hashToPoint h

section

variable {base : Crypto G D} {hashToPoint : D → G} {serverCount clientCount : ℕ}

omit [AddCommGroup G] [Module F G] in
/-- The ids of the voters are distinct nodes, and none of them is zero. -/
theorem nodes_of_allSigned {crypto : Crypto G D} {h : D} {b : Block G}
    (hinj : Set.InjOn (fun i : ℕ => (i : F)) (Set.Iic clientCount))
    (hb : AllSigned crypto clientCount h b) :
    b.votes.keys.Nodup ∧ b.votes.keys.length = clientCount ∧
      Set.InjOn (fun i : ℕ => (i : F)) {i | i ∈ b.votes.keys} ∧
      ∀ i ∈ b.votes.keys, (i : F) ≠ 0 := by
  have hmem : ∀ i, i ∈ b.votes.keys ↔ 1 ≤ i ∧ i ≤ clientCount := fun i => by
    rw [ExtTreeMap.mem_keys, hb.1]
  have hperm : b.votes.keys.Perm (List.range' 1 clientCount) := by
    rw [List.perm_ext_iff_of_nodup ExtTreeMap.nodup_keys List.nodup_range']
    intro i
    rw [hmem, List.mem_range'_1]
    omega
  refine ⟨ExtTreeMap.nodup_keys, by simpa using hperm.length_eq, fun i hi j hj he => ?_,
    fun i hi he => ?_⟩
  · exact hinj ((hmem i).mp hi).2 ((hmem j).mp hj).2 he
  · have hzero : i = 0 := hinj ((hmem i).mp hi).2 (Nat.zero_le _) (by simpa using he)
    have := ((hmem i).mp hi).1
    omega

/-- When all clients register at server 1, the signature is under its key. -/
theorem singleKey_of_stub (hS : 1 ≤ serverCount)
    (hinj : Set.InjOn (fun i : ℕ => (i : F)) (Set.Iic clientCount))
    (hstub : ∀ c, 1 ≤ c → c ≤ clientCount → stubServer serverCount c 0 = 1) :
    SingleKey F base hashToPoint serverCount clientCount := by
  intro f hf h b hb
  obtain ⟨sig, hok, hsig⟩ := mergeVotes_allSigned (fun c h1 h2 => register_eq f h1 h2) hb
  obtain ⟨hnd, hlen, hv, -⟩ := nodes_of_allSigned hinj hb
  refine ⟨_, sig, 1, hok, rfl, le_rfl, hS, ?_⟩
  rw [hsig, ← Sharing.sum_coeffAtZero_evalPoly hnd hv (by rw [hlen]; exact hf 1)]
  refine congrArg (fun l : List F => l.sum • hashToPoint h) (List.map_congr_left fun i hi => ?_)
  obtain ⟨h1, h2⟩ := (hb.1 i).mp (ExtTreeMap.mem_keys.mp hi)
  rw [hstub i h1 h2]

theorem exists_map_of_range {V : Type} (g : ℕ → V) (n : ℕ) :
    ∃ m : ExtTreeMap ℕ V, ∀ k, m[k]? = if 1 ≤ k ∧ k ≤ n then some (g k) else none := by
  induction n with
  | zero => exact ⟨∅, fun k => by rw [if_neg (by omega)]; simp⟩
  | succ n ih =>
    obtain ⟨m, hm⟩ := ih
    refine ⟨m.insert (n + 1) (g (n + 1)), fun k => ?_⟩
    rw [ExtTreeMap.getElem?_insert]
    by_cases hk : k = n + 1
    · subst hk
      rw [if_pos (by simp), if_pos ⟨by omega, le_rfl⟩]
    · rw [if_neg (by simp; omega), hm]
      by_cases hle : 1 ≤ k ∧ k ≤ n
      · rw [if_pos hle, if_pos ⟨hle.1, by omega⟩]
      · rw [if_neg hle, if_neg (by omega)]

omit [AddCommGroup G] in
theorem exists_allSigned (crypto : Crypto G D) (clientCount : ℕ) (block : Block G) :
    ∃ b, AllSigned crypto clientCount (block.getSha256 crypto) b := by
  obtain ⟨m, hm⟩ := exists_map_of_range (fun k => castVote crypto clientCount k block) clientCount
  refine ⟨{ block with votes := m }, fun k => ?_, fun k v hv => ⟨block, rfl, ?_⟩⟩
  · rw [ExtTreeMap.mem_iff_isSome_getElem?, hm]
    split <;> simp [*]
  · have hv' : m[k]? = some v := hv
    rw [hm] at hv'
    split at hv'
    · exact (Option.some.inj hv').symm
    · cases hv'

/-- The coefficients at zero pick out the value at one node. -/
theorem sum_mul_indicator {is : List ℕ} (hnd : is.Nodup) {i₀ : ℕ} (hi : i₀ ∈ is) (w : ℕ → F) :
    (is.map fun i => w i * if i = i₀ then 1 else 0).sum = w i₀ := by
  rw [← List.sum_toFinset _ hnd, Finset.sum_eq_single_of_mem i₀ (List.mem_toFinset.mpr hi)]
  · simp
  · intro i _ hne
    rw [if_neg hne, mul_zero]

/-- A polynomial with the value one at 1 and 2 and zero at the other nodes. -/
theorem exists_indicatorPoly (hinj : Set.InjOn (fun i : ℕ => (i : F)) (Set.Iic clientCount)) :
    ∃ p : List F, p.length ≤ clientCount ∧ ∀ i, 1 ≤ i → i ≤ clientCount →
      evalPoly p (i : F) = (if i = 1 then 1 else 0) + if i = 2 then 1 else 0 := by
  have hrange : Set.InjOn (fun i : ℕ => (i : F)) {i | i ∈ List.range' 1 clientCount} := by
    intro i hi j hj he
    have hi' := List.mem_range'_1.mp hi
    have hj' := List.mem_range'_1.mp hj
    exact hinj (show i ≤ clientCount by omega) (show j ≤ clientCount by omega) he
  obtain ⟨p, hlen, hp⟩ := Sharing.exists_evalPoly List.nodup_range' hrange
    fun i => (if i = 1 then 1 else 0) + if i = 2 then 1 else 0
  exact ⟨p, by simpa using hlen, fun i h1 h2 => hp i (List.mem_range'_1.mpr (by omega))⟩

theorem stubServer_two (hS : 2 ≤ serverCount) : stubServer serverCount 2 0 ≠ 1 := by
  simp [stubServer, Nat.mod_eq_of_lt hS]

/-- With two servers and two clients the shares are of different sharings. Server 1 takes a
polynomial with the value one at 1 and 2 and zero at the other nodes, the other servers take zero. -/
theorem not_singleKey (hS : 2 ≤ serverCount) (hN : 2 ≤ clientCount)
    (hinj : Set.InjOn (fun i : ℕ => (i : F)) (Set.Iic clientCount))
    (hne : ∃ b : Block G, hashToPoint (b.getSha256 base) ≠ 0) :
    ¬ SingleKey F base hashToPoint serverCount clientCount := by
  intro hsingle
  obtain ⟨block, hpoint⟩ := hne
  obtain ⟨p, hlen, hp⟩ := exists_indicatorPoly hinj
  have hf : ∀ s, (if s = 1 then p else []).length ≤ clientCount := by
    intro s
    split
    · exact hlen
    · exact Nat.zero_le _
  obtain ⟨b, hb⟩ := exists_allSigned (base.threshold hashToPoint
    (register serverCount clientCount fun s => if s = 1 then p else [])) clientCount block
  have hdigest : block.getSha256 (base.threshold hashToPoint
    (register serverCount clientCount fun s => if s = 1 then p else [])) = block.getSha256 base := rfl
  rw [hdigest] at hb
  obtain ⟨b', sig, s, hok, hsig, -, -, he⟩ := hsingle _ hf _ b hb
  obtain ⟨sig', hok', hsum⟩ := mergeVotes_allSigned (fun c h1 h2 => register_eq _ h1 h2) hb
  rw [hok'] at hok
  cases hok
  cases hsig
  obtain ⟨hnd, hlen', hv, hzero⟩ := nodes_of_allSigned hinj hb
  have hmem : ∀ i, i ∈ b.votes.keys ↔ 1 ≤ i ∧ i ≤ clientCount := fun i => by
    rw [ExtTreeMap.mem_keys, hb.1]
  have h1 : 1 ∈ b.votes.keys := (hmem 1).mpr ⟨le_rfl, by omega⟩
  have h2 : 2 ∈ b.votes.keys := (hmem 2).mpr ⟨by omega, hN⟩
  have hvalue : ∀ i ∈ b.votes.keys,
      evalPoly p (i : F) = (if i = 1 then 1 else 0) + if i = 2 then 1 else 0 := by
    intro i hi
    obtain ⟨h1, h2⟩ := (hmem i).mp hi
    exact hp i h1 h2
  have hmerged : sig.sig = coeffAtZero (fun i : ℕ => (i : F)) b.votes.keys 1 •
      hashToPoint (block.getSha256 base) := by
    rw [hsum, ← sum_mul_indicator hnd h1 (coeffAtZero (fun i : ℕ => (i : F)) b.votes.keys)]
    refine congrArg (fun l : List F => l.sum • hashToPoint (block.getSha256 base))
      (List.map_congr_left fun i hi => congrArg _ ?_)
    by_cases hi1 : i = 1
    · subst hi1
      simpa [stubServer] using hvalue 1 hi
    · rw [if_neg hi1]
      split
      · rename_i hstub
        rw [hvalue i hi, if_neg hi1, if_neg, add_zero]
        rintro rfl
        exact stubServer_two hS hstub
      · rfl
  have hkey : evalPoly p 0 = coeffAtZero (fun i : ℕ => (i : F)) b.votes.keys 1 +
      coeffAtZero (fun i : ℕ => (i : F)) b.votes.keys 2 := by
    rw [← Sharing.sum_coeffAtZero_evalPoly hnd hv (f := p) (by simpa [hlen'] using hlen),
      List.map_congr_left fun i hi => by rw [hvalue i hi, mul_add], List.sum_map_add,
      sum_mul_indicator hnd h1, sum_mul_indicator hnd h2]
  have hw1 := Sharing.coeffAtZero_ne_zero hv hzero h1
  have hw2 := Sharing.coeffAtZero_ne_zero hv hzero h2
  rw [hmerged] at he
  by_cases hs : s = 1
  · rw [if_pos hs, hkey, add_smul, left_eq_add, smul_eq_zero] at he
    exact he.elim hw2 hpoint
  · rw [if_neg hs, evalPoly, zero_smul, smul_eq_zero] at he
    exact he.elim hw1 hpoint

end

/-- The merged signature is under one key exactly when there is one server or one client. -/
theorem singleKey_iff (base : Crypto G D) (hashToPoint : D → G) (serverCount clientCount : ℕ)
    (hS : 1 ≤ serverCount) (hN : 1 ≤ clientCount)
    (hinj : Set.InjOn (fun i : ℕ => (i : F)) (Set.Iic clientCount))
    (hne : ∃ b : Block G, hashToPoint (b.getSha256 base) ≠ 0) :
    SingleKey F base hashToPoint serverCount clientCount ↔ serverCount = 1 ∨ clientCount = 1 := by
  constructor
  · intro h
    by_contra hcond
    push Not at hcond
    exact not_singleKey (by omega) (by omega) hinj hne h
  · intro hcond
    refine singleKey_of_stub hS hinj fun c h1 h2 => ?_
    rcases hcond with rfl | rfl
    · simp [stubServer, Nat.mod_one]
    · have hc : c = 1 := by omega
      simp [stubServer, hc]

/-! ## A small group -/

/-- A group of prime order, its field of scalars, and digests that are the hashed values. -/
def Crypto.cyclic : Crypto (ZMod 101) (Msgpack (ZMod 101)) where
  sha256 := id
  sign := fun _ _ => 0
  hint := fun _ => []
  sigToString := fun _ => []
  merge := fun shares => ⟨0, [], shares.length, shares.length⟩

instance fact_prime_101 : Fact (Nat.Prime 101) := ⟨by norm_num⟩

theorem injOn_cast_101 : Set.InjOn (fun i : ℕ => (i : ZMod 101)) (Set.Iic 2) := by
  intro i hi j hj he
  have hi' : i ≤ 2 := hi
  have hj' : j ≤ 2 := hj
  have := (ZMod.natCast_eq_natCast_iff' i j 101).mp he
  omega

/-- One server and two clients, and two servers and two clients. -/
theorem singleKey_iff_small :
    SingleKey (ZMod 101) Crypto.cyclic (fun _ => 1) 1 2 ∧
      ¬ SingleKey (ZMod 101) Crypto.cyclic (fun _ => 1) 2 2 := by
  have hne : ∃ b : Block (ZMod 101), (fun _ => (1 : ZMod 101)) (b.getSha256 Crypto.cyclic) ≠ 0 :=
    ⟨Block.make 1 0 0, one_ne_zero⟩
  refine ⟨(singleKey_iff _ _ 1 2 le_rfl (by omega) injOn_cast_101 hne).mpr (.inl rfl), fun h => ?_⟩
  have := (singleKey_iff _ _ 2 2 (by omega) (by omega) injOn_cast_101 hne).mp h
  omega

/-- The polynomials `1 + x` of server 1 and `3 + x` of server 2. -/
def mixedPoly (s : ℕ) : List (ZMod 101) := if s = 1 then [1, 1] else [3, 1]

def mixedCrypto : Crypto (ZMod 101) (Msgpack (ZMod 101)) :=
  Crypto.cyclic.threshold (fun _ => (1 : ZMod 101)) (register 2 2 mixedPoly)

def mixedBlock : Block (ZMod 101) :=
  ((Block.make 1 0 0).insertVote 1 (castVote mixedCrypto 2 1 (Block.make 1 0 0))).insertVote 2
    (castVote mixedCrypto 2 2 (Block.make 1 0 0))

theorem allSigned_mixedBlock :
    AllSigned mixedCrypto 2 ((Block.make 1 0 0).getSha256 mixedCrypto) mixedBlock := by
  refine ⟨fun k => ?_, fun k v hv => ⟨Block.make 1 0 0, rfl, ?_⟩⟩
  · rw [mixedBlock, Block.mem_insertVote, Block.mem_insertVote]
    have hnot : k ∉ (Block.make 1 0 0 : Block (ZMod 101)).votes := ExtTreeMap.not_mem_empty
    constructor
    · rintro (h | h | h)
      · omega
      · omega
      · exact absurd h hnot
    · intro h
      omega
  · rw [mixedBlock, Block.insertVote_votes] at hv
    split at hv
    · rename_i hk
      cases hv
      rw [hk.1]
    · rw [Block.insertVote_votes] at hv
      split at hv
      · rename_i hk
        cases hv
        rw [hk.1]
      · simp [Block.make] at hv

/-- Client 1 signs with a share of server 1, client 2 with one of server 2. The merged point is `-1`
times the hash; the keys of the servers are `1` and `3`. -/
theorem exists_mixed_signature : ¬ SingleKey (ZMod 101) Crypto.cyclic (fun _ => 1) 2 2 := by
  intro h
  have hlen : ∀ s, (mixedPoly s).length ≤ 2 := by
    intro s
    unfold mixedPoly
    split <;> simp
  obtain ⟨b', sig, s, hok, hsig, h1, h2, he⟩ := h mixedPoly hlen _ mixedBlock allSigned_mixedBlock
  obtain ⟨sig', hok', hsum⟩ :=
    mergeVotes_allSigned (fun c h1 h2 => register_eq mixedPoly h1 h2) allSigned_mixedBlock
  rw [hok'] at hok
  cases hok
  cases hsig
  have hkeys : mixedBlock.votes.keys = [1, 2] := by decide +kernel
  have hmerged : sig.sig = -1 := by
    rw [hsum, hkeys]
    have h12 : (1 : ZMod 101) / (1 - 2) = -1 := by
      rw [div_eq_iff (by decide)]
      decide
    have h21 : (2 : ZMod 101) / (2 - 1) = 2 := by
      rw [div_eq_iff (by decide)]
      decide
    simp [coeffAtZero, stubServer, mixedPoly, evalPoly, h12, h21]
    decide
  rw [hmerged] at he
  have hs : s = 1 ∨ s = 2 := by omega
  rcases hs with rfl | rfl
  · simp [mixedPoly, evalPoly] at he
    exact absurd he (by decide)
  · simp [mixedPoly, evalPoly] at he
    exact absurd he (by decide)

end TomChain
