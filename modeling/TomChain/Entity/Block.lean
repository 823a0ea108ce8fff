import Std.Data.ExtTreeMap
import Std.Data.ExtTreeSet
import TomChain.Lib.Decimal

/-!
# Blocks, votes and their signature shares

The entities of `block.hpp` and `transaction.hpp`. A `std::map` is an ordered map,
a `std::shared_ptr` to an immutable object is an `Option` (null or the object).
Points of the curve group are an arbitrary type `G`.
-/

namespace TomChain

open Std (ExtTreeMap ExtTreeSet)
open Decimal (Text)

structure Transaction where
  id : ℕ
  sender : ℕ
  receiver : ℕ
  value : ℕ
  fee : ℕ
  deriving DecidableEq, Repr

structure BlockHeader where
  id : ℕ
  baseId : ℕ
  proposalTs : ℕ
  distTs : ℕ
  commitTs : ℕ
  recvTs : ℕ
  deriving DecidableEq, Repr

/-- The constructor from id, base and proposal time; the other times start at zero. -/
def BlockHeader.make (id baseId proposalTs : ℕ) : BlockHeader :=
  ⟨id, baseId, proposalTs, 0, 0, 0⟩

/-- `BLSSigShare`: a point with the hint of the hashed message, the signer's index
and the threshold parameters. -/
structure BLSSigShare (G : Type) where
  sigShare : G
  hint : Text
  signerIndex : ℕ
  t : ℕ
  n : ℕ
  deriving DecidableEq

structure BLSSignature (G : Type) where
  sig : G
  hint : Text
  t : ℕ
  n : ℕ
  deriving DecidableEq

structure BlockVote (G : Type) where
  blockId : ℕ
  voterId : ℕ
  sigShare : Option (BLSSigShare G)
  deriving DecidableEq

structure Block (G : Type) where
  header : BlockHeader
  txVec : List Transaction
  votes : ExtTreeMap ℕ (BlockVote G)
  tssSig : Option (BLSSignature G)

variable {G : Type}

def Block.make (id baseId proposalTs : ℕ) : Block G :=
  ⟨.make id baseId proposalTs, [], ∅, none⟩

namespace Block

/-- The primary server of a block and its shadow, the next one on the ring. Server
ids start from one. -/
def getServerId (b : Block G) (serverCount : ℕ) : ExtTreeSet ℕ :=
  let primaryId := b.header.id % serverCount + 1
  let shadowId := if primaryId + 1 > serverCount then 1 else primaryId + 1
  ((∅ : ExtTreeSet ℕ).insert primaryId).insert shadowId

def isVoteEnough (b : Block G) (targetNum : ℕ) : Bool := b.votes.size ≥ targetNum

/-- `votes_.insert(std::make_pair(voter, vote))`: the first vote under a key stays. -/
def insertVote (b : Block G) (voter : ℕ) (vote : BlockVote G) : Block G :=
  { b with votes := b.votes.insertIfNew voter vote }

def stampDist (b : Block G) (now : ℕ) : Block G :=
  if b.header.distTs = 0 then { b with header := { b.header with distTs := now } } else b

def stampCommit (b : Block G) (now : ℕ) : Block G :=
  { b with header := { b.header with commitTs := now, recvTs := now } }

def stampRecv (b : Block G) (now : ℕ) : Block G :=
  { b with header := { b.header with recvTs := now } }

/-- What the chain is about: identity, base, proposal time and transactions. Votes,
the other time stamps and the merged signature are bookkeeping of the servers. -/
def SameContent (b b' : Block G) : Prop :=
  b.header.id = b'.header.id ∧ b.header.baseId = b'.header.baseId ∧
    b.header.proposalTs = b'.header.proposalTs ∧ b.txVec = b'.txVec

@[simp] theorem insertVote_header (b : Block G) (k : ℕ) (v : BlockVote G) :
    (b.insertVote k v).header = b.header := rfl

@[simp] theorem insertVote_txVec (b : Block G) (k : ℕ) (v : BlockVote G) :
    (b.insertVote k v).txVec = b.txVec := rfl

@[simp] theorem stampDist_votes (b : Block G) (now : ℕ) : (b.stampDist now).votes = b.votes := by
  unfold stampDist
  split <;> rfl

@[simp] theorem stampDist_id (b : Block G) (now : ℕ) :
    (b.stampDist now).header.id = b.header.id := by
  unfold stampDist
  split <;> rfl

theorem insertVote_votes (b : Block G) (k k' : ℕ) (v : BlockVote G) :
    (b.insertVote k v).votes[k']? =
      if k = k' ∧ k ∉ b.votes then some v else b.votes[k']? := by
  simp [insertVote, ExtTreeMap.getElem?_insertIfNew]

theorem mem_insertVote {b : Block G} {k k' : ℕ} {v : BlockVote G} :
    k' ∈ (b.insertVote k v).votes ↔ k = k' ∨ k' ∈ b.votes := by
  simp [insertVote, ExtTreeMap.mem_insertIfNew]

theorem mem_getServerId (b : Block G) (serverCount s : ℕ) :
    s ∈ b.getServerId serverCount ↔
      s = b.header.id % serverCount + 1 ∨
      s = if b.header.id % serverCount + 1 + 1 > serverCount then 1
          else b.header.id % serverCount + 1 + 1 := by
  simp only [getServerId, ExtTreeSet.mem_insert, Nat.compare_eq_eq]
  simp only [ExtTreeSet.not_mem_empty, or_false, eq_comm (a := s)]
  exact Or.comm

theorem getServerId_range {serverCount t : ℕ} (h : 1 ≤ serverCount) {b : Block G}
    (ht : t ∈ b.getServerId serverCount) : 1 ≤ t ∧ t ≤ serverCount := by
  have hmod := Nat.mod_lt b.header.id h
  rw [mem_getServerId] at ht
  rcases ht with rfl | rfl
  · omega
  · split <;> omega

end Block

/-! ## Merging the shares of a block -/

/-- The two reasons for which `BLSSigShareSet::addSigShare` throws. -/
inductive BlsError where
  | nullShare
  | repeatedIndex
  deriving DecidableEq, Repr

/-- `BLSSigShareSet::addSigShare` on the shares collected so far. -/
def addSigShare (set : List (BLSSigShare G)) :
    Option (BLSSigShare G) → Except BlsError (List (BLSSigShare G))
  | none => .error .nullShare
  | some share =>
    if share.signerIndex ∈ set.map BLSSigShare.signerIndex then .error .repeatedIndex
    else .ok (set ++ [share])

def addSigShares (set : List (BLSSigShare G)) :
    List (ℕ × BlockVote G) → Except BlsError (List (BLSSigShare G))
  | [] => .ok set
  | (_, vote) :: votes =>
    match addSigShare set vote.sigShare with
    | .error e => .error e
    | .ok set' => addSigShares set' votes

/-- `Block::merge_votes`; `merge` is `BLSSigShareSet::merge`. -/
def Block.mergeVotes (merge : List (BLSSigShare G) → BLSSignature G) (targetNum : ℕ)
    (b : Block G) : Except BlsError (Block G) :=
  match addSigShares [] b.votes.toList with
  | .error e => .error e
  | .ok set =>
    if set.length ≥ targetNum then .ok { b with tssSig := some (merge set) } else .ok b

theorem addSigShares_ok :
    ∀ (votes : List (ℕ × BlockVote G)) (set : List (BLSSigShare G)),
      (∀ kv ∈ votes, ∃ share, kv.2.sigShare = some share ∧ share.signerIndex = kv.1) →
      (set.map BLSSigShare.signerIndex ++ votes.map Prod.fst).Nodup →
      ∃ shares, addSigShares set votes = .ok (set ++ shares) ∧
        shares.map some = votes.map fun kv => kv.2.sigShare := by
  intro votes
  induction votes with
  | nil => intro set _ _; exact ⟨[], by simp [addSigShares], rfl⟩
  | cons kv votes ih =>
    intro set hv hnd
    obtain ⟨share, hs, hi⟩ := hv kv (List.mem_cons_self ..)
    have hfresh : share.signerIndex ∉ set.map BLSSigShare.signerIndex := by
      rw [hi]
      intro hm
      exact (List.nodup_append.mp hnd).2.2 _ hm kv.1 (by simp) rfl
    have hadd : addSigShare set kv.2.sigShare = .ok (set ++ [share]) := by
      simp only [hs, addSigShare, if_neg hfresh]
    obtain ⟨shares, hok, hmap⟩ := ih (set ++ [share])
      (fun kv' h => hv kv' (List.mem_cons_of_mem _ h)) (by simpa [hi] using hnd)
    refine ⟨share :: shares, ?_, by simp [hs, hmap]⟩
    simp only [addSigShares, hadd, hok]
    simp

end TomChain
