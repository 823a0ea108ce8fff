import Mathlib.Data.List.Perm.Subperm
import Std.Data.ExtTreeMap

/-!
# Tallies in which the first vote of a voter counts

Votes arrive in any order and any number of times; the first one under a voter's name stays. When
every voter always casts the same vote, the tally depends only on the set of voters. Among voters
`1 .. n` a tally of size `n` is full: everybody has voted.
-/

namespace TomChain.Tally

open Std (ExtTreeMap)

variable {V : Type}

/-- Enter the votes of `voters` in order; `cast` is the vote of each. -/
def tally (cast : ℕ → V) (voters : List ℕ) (votes : ExtTreeMap ℕ V) : ExtTreeMap ℕ V :=
  voters.foldl (fun votes k => votes.insertIfNew k (cast k)) votes

theorem getElem?_tally (cast : ℕ → V) (voters : List ℕ) (votes : ExtTreeMap ℕ V) (k : ℕ) :
    (tally cast voters votes)[k]? =
      if k ∈ voters ∧ k ∉ votes then some (cast k) else votes[k]? := by
  induction voters generalizing votes with
  | nil => simp [tally]
  | cons j voters ih =>
    rw [tally, List.foldl_cons]
    refine (ih _).trans ?_
    simp only [ExtTreeMap.mem_insertIfNew, ExtTreeMap.getElem?_insertIfNew, Nat.compare_eq_eq,
      List.mem_cons]
    by_cases hj : j = k
    · subst hj
      by_cases hm : j ∈ votes <;> simp [hm]
    · simp [hj, Ne.symm hj]

theorem mem_tally {cast : ℕ → V} {voters : List ℕ} {votes : ExtTreeMap ℕ V} {k : ℕ} :
    k ∈ tally cast voters votes ↔ k ∈ voters ∨ k ∈ votes := by
  rw [ExtTreeMap.mem_iff_isSome_getElem?, getElem?_tally]
  by_cases hv : k ∈ votes
  · simp [hv]
  · by_cases hk : k ∈ voters <;> simp [hv, hk]

theorem tally_concat (cast : ℕ → V) (voters : List ℕ) (votes : ExtTreeMap ℕ V) (k : ℕ) :
    tally cast (voters ++ [k]) votes = (tally cast voters votes).insertIfNew k (cast k) := by
  simp [tally]

theorem tally_concat_of_mem {cast : ℕ → V} {voters : List ℕ} {votes : ExtTreeMap ℕ V} {k : ℕ}
    (h : k ∈ tally cast voters votes) :
    tally cast (voters ++ [k]) votes = tally cast voters votes := by
  apply ExtTreeMap.ext_getElem?
  intro j
  rw [tally_concat, ExtTreeMap.getElem?_insertIfNew, if_neg (fun hj => hj.2 h)]

/-- The tally is a matter of who has voted. -/
theorem tally_congr {cast : ℕ → V} {voters voters' : List ℕ} {votes : ExtTreeMap ℕ V}
    (h : ∀ k, k ∈ voters ↔ k ∈ voters') : tally cast voters votes = tally cast voters' votes := by
  apply ExtTreeMap.ext_getElem?
  intro k
  simp only [getElem?_tally, h]

/-! ## Full tallies -/

def Full (n : ℕ) (votes : ExtTreeMap ℕ V) : Prop := ∀ k, 1 ≤ k → k ≤ n → k ∈ votes

/-- As many votes as voters are the votes of all voters. -/
theorem mem_iff_of_size_le {votes : ExtTreeMap ℕ V} {n : ℕ}
    (hsub : ∀ k ∈ votes, 1 ≤ k ∧ k ≤ n) (hsize : n ≤ votes.size) (k : ℕ) :
    k ∈ votes ↔ 1 ≤ k ∧ k ≤ n := by
  refine ⟨hsub k, fun hk => ?_⟩
  have hsubset : votes.keys ⊆ List.range' 1 n := by
    intro j hj
    have := hsub j (ExtTreeMap.mem_keys.mp hj)
    rw [List.mem_range'_1]
    omega
  have hperm : votes.keys.Perm (List.range' 1 n) :=
    (List.subperm_of_subset ExtTreeMap.nodup_keys hsubset).perm_of_length_le (by simpa using hsize)
  rw [← ExtTreeMap.mem_keys, hperm.mem_iff, List.mem_range'_1]
  omega

theorem Full.size_le {votes : ExtTreeMap ℕ V} {n : ℕ} (h : Full n votes) : n ≤ votes.size := by
  have hsubset : List.range' 1 n ⊆ votes.keys := by
    intro j hj
    rw [List.mem_range'_1] at hj
    exact ExtTreeMap.mem_keys.mpr (h j hj.1 (by omega))
  simpa using (List.subperm_of_subset List.nodup_range' hsubset).length_le

theorem size_le_iff_full {votes : ExtTreeMap ℕ V} {n : ℕ} (hsub : ∀ k ∈ votes, 1 ≤ k ∧ k ≤ n) :
    n ≤ votes.size ↔ Full n votes := by
  constructor
  · intro hsize k h1 h2
    exact (mem_iff_of_size_le hsub hsize k).mpr ⟨h1, h2⟩
  · exact Full.size_le

end TomChain.Tally
