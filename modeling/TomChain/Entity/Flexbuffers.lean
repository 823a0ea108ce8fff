import Mathlib.Data.Char
import TomChain.Entity.Block
import TomChain.Lib.Keyed

/-!
# The flexbuffers codec

`flexbuffers_adapter<T>::to_bytes` and `from_bytes`. A finished buffer is
represented by the value at its root, so that the library's exact storage of
integers, strings, blobs and vectors is part of the representation; maps are kept
in key order and read by binary search (`Keyed`). The raw bytes of a curve point
are the constructor `point`.

`none` from a `fromBytes` stands for an exception of `std::stoi` or a failed
`assert` on the size of a point.
-/

namespace TomChain.Flexbuffers

open Std (ExtTreeMap)
open Decimal

inductive Flex (G : Type) where
  | null
  | uint (n : ℕ)
  | string (s : Text)
  | point (g : G)
  | blob (root : Flex G)
  | vector (elems : List (Flex G))
  | map (entries : List (Text × Flex G))

variable {G : Type}

namespace Flex

instance : Inhabited (Flex G) := ⟨null⟩

/-- `Builder::Map`: the entries are sorted by key when the map is closed. -/
def mkMap (entries : List (Text × Flex G)) : Flex G := map (Keyed.sortByKey entries)

/-- `Reference::AsUInt64`, with the library's conversions. -/
def asUInt64 : Flex G → ℕ
  | uint n => n
  | string s => strtoull s
  | vector elems => elems.length
  | _ => 0

def asString : Flex G → Text
  | string s => s
  | _ => []

/-- `Reference::AsBlob` followed by `GetRoot`; what is not a blob is an empty one. -/
def asBlob : Flex G → Flex G
  | blob root => root
  | _ => null

/-- A blob of the size of a point, else the `assert` on its size fails. -/
def asPoint : Flex G → Option G
  | point g => some g
  | _ => none

def asVector : Flex G → List (Flex G)
  | vector elems => elems
  | map entries => entries.map Prod.snd
  | _ => []

def asMap : Flex G → List (Text × Flex G)
  | map entries => entries
  | _ => []

/-- `map[key]`; a missing key gives a null reference. -/
def get (v : Flex G) (key : Text) : Flex G := (Keyed.find v.asMap key).getD null

/-- `vector[i]`; an index out of range gives a null reference. -/
def getIdx (v : Flex G) (i : ℕ) : Flex G := (v.asVector[i]?).getD null

theorem get_mkMap (entries : List (Text × Flex G)) (h : (entries.map Prod.fst).Nodup)
    {key : Text} {v : Flex G} (hm : (key, v) ∈ entries) : (mkMap entries).get key = v := by
  simp [get, mkMap, asMap, Keyed.find_sortByKey entries h hm]

end Flex

/-! ## Signature shares, votes and headers -/

def sigShareToBytes (share : BLSSigShare G) : Flex G :=
  .mkMap [("g1".toList, .point share.sigShare), ("hint".toList, .string share.hint),
    ("signer_index".toList, .uint share.signerIndex), ("t".toList, .uint share.t),
    ("n".toList, .uint share.n)]

def sigShareFromBytes (root : Flex G) : Option (BLSSigShare G) :=
  (root.get "g1".toList).asPoint.map fun g1 =>
    { sigShare := g1
      hint := (root.get "hint".toList).asString
      signerIndex := (root.get "signer_index".toList).asUInt64
      t := (root.get "t".toList).asUInt64
      n := (root.get "n".toList).asUInt64 }

def voteToBytes (vote : BlockVote G) : Flex G :=
  .mkMap [("block_id".toList, .uint vote.blockId), ("voter_id".toList, .uint vote.voterId),
    ("sig_share".toList, match vote.sigShare with
      | none => .null
      | some share => .blob (sigShareToBytes share))]

def voteFromBytes (root : Flex G) : Option (BlockVote G) :=
  let blockId := (root.get "block_id".toList).asUInt64
  let voterId := (root.get "voter_id".toList).asUInt64
  match root.get "sig_share".toList with
  | .null => some ⟨blockId, voterId, none⟩
  | ref => (sigShareFromBytes ref.asBlob).map fun share => ⟨blockId, voterId, some share⟩

def headerToBytes (bh : BlockHeader) : Flex G :=
  .mkMap [("id".toList, .uint bh.id), ("base_id".toList, .uint bh.baseId),
    ("proposal_ts".toList, .uint bh.proposalTs), ("dist_ts".toList, .uint bh.distTs),
    ("commit_ts".toList, .uint bh.commitTs), ("recv_ts".toList, .uint bh.recvTs)]

def headerFromBytes (root : Flex G) : BlockHeader :=
  { id := (root.get "id".toList).asUInt64
    baseId := (root.get "base_id".toList).asUInt64
    proposalTs := (root.get "proposal_ts".toList).asUInt64
    distTs := (root.get "dist_ts".toList).asUInt64
    commitTs := (root.get "commit_ts".toList).asUInt64
    recvTs := (root.get "recv_ts".toList).asUInt64 }

theorem sigShareFromBytes_toBytes (share : BLSSigShare G) :
    sigShareFromBytes (sigShareToBytes share) = some share := by
  have hnd : ["g1".toList, "hint".toList, "signer_index".toList, "t".toList, "n".toList].Nodup := by
    decide
  have hget := fun {key v} => @Flex.get_mkMap G [("g1".toList, .point share.sigShare),
    ("hint".toList, .string share.hint), ("signer_index".toList, .uint share.signerIndex),
    ("t".toList, .uint share.t), ("n".toList, .uint share.n)] hnd key v
  have h1 := @hget "g1".toList (.point share.sigShare) (by simp)
  have h2 := @hget "hint".toList (.string share.hint) (by simp)
  have h3 := @hget "signer_index".toList (.uint share.signerIndex) (by simp)
  have h4 := @hget "t".toList (.uint share.t) (by simp)
  have h5 := @hget "n".toList (.uint share.n) (by simp)
  simp only [sigShareFromBytes, sigShareToBytes, h1, h2, h3, h4, h5]
  rfl

theorem voteFromBytes_toBytes (vote : BlockVote G) :
    voteFromBytes (voteToBytes vote) = some vote := by
  obtain ⟨blockId, voterId, sigShare⟩ := vote
  have hnd : ["block_id".toList, "voter_id".toList, "sig_share".toList].Nodup := by decide
  have hget := fun {ss key v} => @Flex.get_mkMap G [("block_id".toList, .uint blockId),
    ("voter_id".toList, .uint voterId), ("sig_share".toList, ss)] hnd key v
  have h1 := fun ss => @hget ss "block_id".toList (.uint blockId) (by simp)
  have h2 := fun ss => @hget ss "voter_id".toList (.uint voterId) (by simp)
  have h3 := fun ss => @hget ss "sig_share".toList ss (by simp)
  cases sigShare with
  | none =>
    simp only [voteFromBytes, voteToBytes, h1, h2, h3]
    rfl
  | some share =>
    simp only [voteFromBytes, voteToBytes, h1, h2, h3]
    simp [Flex.asBlob, Flex.asUInt64, sigShareFromBytes_toBytes]

theorem headerFromBytes_toBytes (bh : BlockHeader) :
    headerFromBytes (headerToBytes (G := G) bh) = bh := by
  have hnd : ["id".toList, "base_id".toList, "proposal_ts".toList, "dist_ts".toList,
      "commit_ts".toList, "recv_ts".toList].Nodup := by decide
  have hget := fun {key v} => @Flex.get_mkMap G [("id".toList, .uint bh.id),
    ("base_id".toList, .uint bh.baseId), ("proposal_ts".toList, .uint bh.proposalTs),
    ("dist_ts".toList, .uint bh.distTs), ("commit_ts".toList, .uint bh.commitTs),
    ("recv_ts".toList, .uint bh.recvTs)] hnd key v
  have h1 := @hget "id".toList (.uint bh.id) (by simp)
  have h2 := @hget "base_id".toList (.uint bh.baseId) (by simp)
  have h3 := @hget "proposal_ts".toList (.uint bh.proposalTs) (by simp)
  have h4 := @hget "dist_ts".toList (.uint bh.distTs) (by simp)
  have h5 := @hget "commit_ts".toList (.uint bh.commitTs) (by simp)
  have h6 := @hget "recv_ts".toList (.uint bh.recvTs) (by simp)
  simp only [headerFromBytes, headerToBytes, h1, h2, h3, h4, h5, h6, Flex.asUInt64]

/-! ## Blocks -/

/-- A transaction inside a block is a positional vector of its five fields. -/
def txToVector (tx : Transaction) : Flex G :=
  .vector [.uint tx.id, .uint tx.sender, .uint tx.receiver, .uint tx.value, .uint tx.fee]

def txFromVector (v : Flex G) : Transaction :=
  { id := (v.getIdx 0).asUInt64
    sender := (v.getIdx 1).asUInt64
    receiver := (v.getIdx 2).asUInt64
    value := (v.getIdx 3).asUInt64
    fee := (v.getIdx 4).asUInt64 }

def votesToMap (votes : ExtTreeMap ℕ (BlockVote G)) : Flex G :=
  .mkMap (votes.toList.map fun kv => (toText kv.1, .blob (voteToBytes kv.2)))

/-- The map key of a parsed `int`, converted to `uint64_t`. -/
def keyOfInt (i : ℤ) : ℕ := (i % 2 ^ 64).toNat

/-- The loop over the keys of the stored votes map `m`. -/
def votesFromKeys (m : Flex G) :
    List Text → ExtTreeMap ℕ (BlockVote G) → Option (ExtTreeMap ℕ (BlockVote G))
  | [], votes => some votes
  | key :: keys, votes =>
    match voteFromBytes (m.get key).asBlob with
    | none => none
    | some vote =>
      match stoi key with
      | none => none
      | some i => votesFromKeys m keys (votes.insertIfNew (keyOfInt i) vote)

/-- The threshold signature is not written. -/
def toBytes (b : Block G) : Flex G :=
  .mkMap [("header".toList, .blob (headerToBytes b.header)),
    ("tx_vec".toList, .vector (b.txVec.map txToVector)), ("votes".toList, votesToMap b.votes)]

def fromBytes (root : Flex G) : Option (Block G) :=
  let votesFb := root.get "votes".toList
  (votesFromKeys votesFb (votesFb.asMap.map Prod.fst) ∅).map fun votes =>
    { header := headerFromBytes (root.get "header".toList).asBlob
      txVec := (root.get "tx_vec".toList).asVector.map txFromVector
      votes := votes
      tssSig := none }

theorem txFromVector_toVector (tx : Transaction) : txFromVector (G := G) (txToVector tx) = tx :=
  rfl

theorem keyOfInt_natCast {n : ℕ} (h : n ≤ intMax) : keyOfInt (n : ℤ) = n := by
  unfold keyOfInt
  unfold intMax at h
  omega

theorem foldl_insertIfNew {V : Type} (l : List (ℕ × V)) :
    ∀ acc : ExtTreeMap ℕ V, (l.map Prod.fst).Nodup → (∀ kv ∈ l, kv.1 ∉ acc) → ∀ k v,
      ((l.foldl (fun m kv => m.insertIfNew kv.1 kv.2) acc)[k]? = some v ↔
        acc[k]? = some v ∨ (k, v) ∈ l) := by
  induction l with
  | nil => simp
  | cons kv l ih =>
    intro acc hnd hfresh k v
    obtain ⟨hk, hnd⟩ := List.nodup_cons.mp hnd
    have hkv : kv.1 ∉ acc := hfresh kv (List.mem_cons_self ..)
    rw [List.foldl_cons, ih _ hnd, ExtTreeMap.getElem?_insertIfNew]
    · by_cases h : kv.1 = k
      · subst h
        simp [hkv, Prod.ext_iff, eq_comm (a := v)]
      · simp [h, Prod.ext_iff, eq_comm (a := k)]
    · intro kv' hm
      simp only [ExtTreeMap.mem_insertIfNew, Nat.compare_eq_eq, not_or]
      refine ⟨fun he => hk ?_, hfresh kv' (List.mem_cons_of_mem _ hm)⟩
      rw [he]
      exact List.mem_map_of_mem hm

section Votes

variable (m : Flex G) (kvs : List (ℕ × BlockVote G))
  (hget : ∀ kv ∈ kvs, m.get (toText kv.1) = .blob (voteToBytes kv.2))

include hget

theorem votesFromKeys_ok (hle : ∀ kv ∈ kvs, kv.1 ≤ intMax) (acc : ExtTreeMap ℕ (BlockVote G)) :
    votesFromKeys m (kvs.map fun kv => toText kv.1) acc =
      some (kvs.foldl (fun m kv => m.insertIfNew kv.1 kv.2) acc) := by
  induction kvs generalizing acc with
  | nil => rfl
  | cons kv kvs ih =>
    have hkv := hle kv (List.mem_cons_self ..)
    rw [List.map_cons, votesFromKeys, hget kv (List.mem_cons_self ..)]
    simp only [Flex.asBlob, voteFromBytes_toBytes, stoi_toText, if_pos hkv, keyOfInt_natCast hkv]
    exact ih (fun kv' h => hget kv' (List.mem_cons_of_mem _ h))
      (fun kv' h => hle kv' (List.mem_cons_of_mem _ h)) _

theorem votesFromKeys_none (hbig : ∃ kv ∈ kvs, intMax < kv.1) (acc : ExtTreeMap ℕ (BlockVote G)) :
    votesFromKeys m (kvs.map fun kv => toText kv.1) acc = none := by
  induction kvs generalizing acc with
  | nil => simp at hbig
  | cons kv kvs ih =>
    rw [List.map_cons, votesFromKeys, hget kv (List.mem_cons_self ..)]
    simp only [Flex.asBlob, voteFromBytes_toBytes, stoi_toText]
    by_cases hkv : kv.1 ≤ intMax
    · simp only [if_pos hkv]
      obtain ⟨kv', hm, hb⟩ := hbig
      rcases List.mem_cons.mp hm with rfl | hm
      · omega
      · exact ih (fun kv' h => hget kv' (List.mem_cons_of_mem _ h)) ⟨kv', hm, hb⟩ _
    · simp only [if_neg hkv]

end Votes

/-- The stored votes in the order of their text keys: what the decoder walks through. -/
def votesByText (votes : ExtTreeMap ℕ (BlockVote G)) : List (ℕ × BlockVote G) :=
  votes.toList.insertionSort (fun a b => toText a.1 ≤ toText b.1)

theorem mem_votesByText (votes : ExtTreeMap ℕ (BlockVote G)) (kv : ℕ × BlockVote G) :
    kv ∈ votesByText votes ↔ votes[kv.1]? = some kv.2 := by
  rw [votesByText, List.mem_insertionSort]
  exact ExtTreeMap.mem_toList_iff_getElem?_eq_some

theorem toList_fst_nodup {V : Type} (m : ExtTreeMap ℕ V) : (m.toList.map Prod.fst).Nodup := by
  have := ExtTreeMap.distinct_keys_toList (t := m)
  exact List.pairwise_map.mpr (this.imp fun h => by simpa using h)

theorem votesToMap_asMap (votes : ExtTreeMap ℕ (BlockVote G)) :
    (votesToMap votes).asMap =
      (votesByText votes).map fun kv => (toText kv.1, Flex.blob (voteToBytes kv.2)) := by
  simp only [votesToMap, Flex.mkMap, Flex.asMap, Keyed.sortByKey, votesByText]
  rw [← List.map_insertionSort (fun a b : ℕ × BlockVote G => toText a.1 ≤ toText b.1)]
  simp

theorem votesToMap_get (votes : ExtTreeMap ℕ (BlockVote G)) :
    ∀ kv ∈ votesByText votes, (votesToMap votes).get (toText kv.1) = .blob (voteToBytes kv.2) := by
  intro kv hkv
  have hm : kv ∈ votes.toList := (List.mem_insertionSort _).mp hkv
  refine Flex.get_mkMap _ ?_ (List.mem_map_of_mem hm)
  rw [List.map_map]
  have : (Prod.fst ∘ fun kv : ℕ × BlockVote G => (toText kv.1, Flex.blob (voteToBytes kv.2))) =
      toText ∘ Prod.fst := rfl
  rw [this, ← List.map_map]
  exact (toList_fst_nodup votes).map toText_injective

theorem foldl_votesByText (votes : ExtTreeMap ℕ (BlockVote G)) :
    (votesByText votes).foldl (fun m kv => m.insertIfNew kv.1 kv.2) ∅ = votes := by
  have hnd : ((votesByText votes).map Prod.fst).Nodup :=
    ((List.perm_insertionSort _ _).map Prod.fst).nodup_iff.mpr (toList_fst_nodup votes)
  apply ExtTreeMap.ext_getElem?
  intro k
  apply Option.ext
  intro v
  rw [foldl_insertIfNew _ _ hnd (by simp)]
  simp [mem_votesByText]

theorem header_toBytes (b : Block G) :
    headerFromBytes ((toBytes b).get "header".toList).asBlob = b.header := by
  have hnd : ["header".toList, "tx_vec".toList, "votes".toList].Nodup := by decide
  have h1 := @Flex.get_mkMap G
    [("header".toList, .blob (headerToBytes b.header)),
      ("tx_vec".toList, .vector (b.txVec.map txToVector)), ("votes".toList, votesToMap b.votes)]
    hnd "header".toList (.blob (headerToBytes b.header)) (by simp)
  rw [toBytes, h1]
  exact headerFromBytes_toBytes b.header

theorem fromBytes_toBytes_eq (b : Block G) :
    fromBytes (toBytes b) =
      (votesFromKeys (votesToMap b.votes) ((votesByText b.votes).map fun kv => toText kv.1) ∅).map
        fun votes => { b with votes := votes, tssSig := none } := by
  have hnd : ["header".toList, "tx_vec".toList, "votes".toList].Nodup := by decide
  have hget := fun {key v} => @Flex.get_mkMap G
    [("header".toList, .blob (headerToBytes b.header)),
      ("tx_vec".toList, .vector (b.txVec.map txToVector)), ("votes".toList, votesToMap b.votes)]
    hnd key v
  have h1 := @hget "header".toList (.blob (headerToBytes b.header)) (by simp)
  have h2 := @hget "tx_vec".toList (.vector (b.txVec.map txToVector)) (by simp)
  have h3 := @hget "votes".toList (votesToMap b.votes) (by simp)
  simp only [fromBytes, toBytes, h1, h2, h3, votesToMap_asMap]
  simp [Flex.asBlob, Flex.asVector, headerFromBytes_toBytes, Function.comp_def,
    txFromVector_toVector]

/-- What a peer or a client receives: everything but the threshold signature. -/
theorem fromBytes_toBytes (b : Block G) (h : ∀ k ∈ b.votes, k ≤ intMax) :
    fromBytes (toBytes b) = some { b with tssSig := none } := by
  rw [fromBytes_toBytes_eq, votesFromKeys_ok _ _ (votesToMap_get b.votes), foldl_votesByText]
  · rfl
  · intro kv hkv
    refine h _ (ExtTreeMap.mem_iff_isSome_getElem?.mpr ?_)
    rw [(mem_votesByText _ _).mp hkv]
    rfl

/-- A vote key past the range of `int` makes the decoder throw. -/
theorem fromBytes_toBytes_none (b : Block G) {k : ℕ} (hk : k ∈ b.votes) (hbig : intMax < k) :
    fromBytes (toBytes b) = none := by
  obtain ⟨v, hv⟩ := Option.isSome_iff_exists.mp (ExtTreeMap.mem_iff_isSome_getElem?.mp hk)
  rw [fromBytes_toBytes_eq, votesFromKeys_none _ _ (votesToMap_get b.votes)]
  · rfl
  · exact ⟨(k, v), (mem_votesByText _ _).mpr hv, hbig⟩

/-- The decoder accepts exactly the blocks whose vote keys are in the range of `std::stoi`, and
then only the threshold signature is lost. -/
theorem fromBytes_toBytes_exact (b : Block G) :
    ((fromBytes (toBytes b)).isSome ↔ ∀ k ∈ b.votes, k ≤ intMax) ∧
      ∀ b', fromBytes (toBytes b) = some b' →
        b'.header = b.header ∧ b'.txVec = b.txVec ∧ b'.votes = b.votes ∧ b'.tssSig = none := by
  by_cases h : ∀ k ∈ b.votes, k ≤ intMax
  · rw [fromBytes_toBytes b h]
    refine ⟨iff_of_true rfl h, ?_⟩
    rintro _ ⟨⟩
    exact ⟨rfl, rfl, rfl, rfl⟩
  · push Not at h
    obtain ⟨k, hk, hbig⟩ := h
    rw [fromBytes_toBytes_none b hk hbig]
    constructor
    · constructor
      · intro hs; cases hs
      · intro hall
        have := hall k hk
        omega
    · intro b' hb'; cases hb'

/-- The keys a decoder can produce: an `int` converted to `uint64_t`. -/
theorem votesFromKeys_mem {m : Flex G} {keys : List Text} :
    ∀ {acc votes : ExtTreeMap ℕ (BlockVote G)}, votesFromKeys m keys acc = some votes →
      ∀ k ∈ votes, k ∈ acc ∨ k ≤ intMax ∨ 2 ^ 32 ≤ k := by
  induction keys with
  | nil => intro acc votes h k hk; cases h; exact .inl hk
  | cons key keys ih =>
    intro acc votes h k hk
    simp only [votesFromKeys] at h
    split at h
    · cases h
    · split at h
      · cases h
      · rename_i i hi
        rcases ih h k hk with hk | hk
        · rcases ExtTreeMap.mem_insertIfNew.mp hk with he | hk
          · right
            rw [← Nat.compare_eq_eq.mp he]
            have := stoi_range hi
            unfold keyOfInt
            unfold intMax at this ⊢
            omega
          · exact .inl hk
        · exact .inr hk

theorem fromBytes_mem {item : Flex G} {b : Block G} (h : fromBytes item = some b) {k : ℕ}
    (hk : k ∈ b.votes) (hlt : k < 2 ^ 32) : k ≤ intMax := by
  obtain ⟨votes, hv, rfl⟩ := Option.map_eq_some_iff.mp h
  rcases votesFromKeys_mem hv k hk with hk | hk | hk
  · simp at hk
  · exact hk
  · omega

end TomChain.Flexbuffers
