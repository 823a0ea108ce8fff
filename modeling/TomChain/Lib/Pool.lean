import Mathlib.Data.List.Nodup
import Mathlib.Data.List.Perm.Subperm
import Std.Data.ExtTreeMap

/-!
# Putting entries into a map and taking them out

A pool is a map from which a batch of keys is taken: the values of the batch are collected, then its
keys are erased one by one. With distinct keys of the pool, the batch and what is left make up the
pool again. Values are put into the pool under keys of their own; one whose key is taken is turned
away.
-/

namespace TomChain.Pool

open Std (ExtTreeMap)

variable {V : Type}

def eraseAll (pool : ExtTreeMap ℕ V) (keys : List ℕ) : ExtTreeMap ℕ V :=
  keys.foldl (fun pool k => pool.erase k) pool

def collect (pool : ExtTreeMap ℕ V) (keys : List ℕ) : List V := keys.filterMap (pool[·]?)

theorem getElem?_eraseAll (pool : ExtTreeMap ℕ V) (keys : List ℕ) (k : ℕ) :
    (eraseAll pool keys)[k]? = if k ∈ keys then none else pool[k]? := by
  induction keys generalizing pool with
  | nil => simp [eraseAll]
  | cons j keys ih =>
    rw [eraseAll, List.foldl_cons]
    refine (ih _).trans ?_
    rw [ExtTreeMap.getElem?_erase]
    simp only [Nat.compare_eq_eq, List.mem_cons]
    by_cases hj : j = k
    · simp [hj]
    · simp [hj, Ne.symm hj]

theorem nodup_toList (pool : ExtTreeMap ℕ V) : pool.toList.Nodup :=
  List.Nodup.of_map Prod.fst (by rw [ExtTreeMap.map_fst_toList_eq_keys]; exact ExtTreeMap.nodup_keys)

/-- The entries of a pool are those of the batch and those that are left. -/
theorem toList_perm (pool : ExtTreeMap ℕ V) {keys : List ℕ} (hnd : keys.Nodup) :
    (keys.filterMap (fun k => (pool[k]?).map fun v => (k, v)) ++ (eraseAll pool keys).toList).Perm
      pool.toList := by
  rw [List.perm_ext_iff_of_nodup]
  · rintro ⟨k, v⟩
    rw [List.mem_append, List.mem_filterMap, ExtTreeMap.mem_toList_iff_getElem?_eq_some,
      ExtTreeMap.mem_toList_iff_getElem?_eq_some, getElem?_eraseAll]
    constructor
    · rintro (⟨j, hj, he⟩ | h)
      · obtain ⟨w, hw, he⟩ := Option.map_eq_some_iff.mp he
        cases he
        exact hw
      · split at h
        · cases h
        · exact h
    · intro h
      by_cases hk : k ∈ keys
      · exact .inl ⟨k, hk, by simp [h]⟩
      · exact .inr (by rw [if_neg hk]; exact h)
  · refine List.nodup_append.mpr ⟨?_, nodup_toList _, ?_⟩
    · refine hnd.filterMap fun j j' kv hj hj' => ?_
      obtain ⟨w, -, rfl⟩ := Option.map_eq_some_iff.mp hj
      obtain ⟨w', -, he⟩ := Option.map_eq_some_iff.mp hj'
      exact (congrArg Prod.fst he).symm
    · rintro ⟨k, v⟩ hkv ⟨k', v'⟩ hkv' he
      cases he
      obtain ⟨j, hj, he⟩ := List.mem_filterMap.mp hkv
      obtain ⟨w, -, he⟩ := Option.map_eq_some_iff.mp he
      cases he
      rw [ExtTreeMap.mem_toList_iff_getElem?_eq_some, getElem?_eraseAll, if_pos hj] at hkv'
      cases hkv'
  · exact nodup_toList pool

/-- The values of a pool are those of the batch and those that are left. -/
theorem collect_perm (pool : ExtTreeMap ℕ V) {keys : List ℕ} (hnd : keys.Nodup) :
    (collect pool keys ++ (eraseAll pool keys).toList.map Prod.snd).Perm
      (pool.toList.map Prod.snd) := by
  have h := (toList_perm pool hnd).map Prod.snd
  rw [List.map_append, List.map_filterMap] at h
  have hcollect : keys.filterMap (fun k => ((pool[k]?).map fun v => (k, v)).map Prod.snd) =
      collect pool keys := by
    refine List.filterMap_congr fun k _ => ?_
    rw [Option.map_map]
    simp [Function.comp_def]
  rwa [hcollect] at h

theorem length_collect {pool : ExtTreeMap ℕ V} {keys : List ℕ} (hsub : ∀ k ∈ keys, k ∈ pool) :
    (collect pool keys).length = keys.length := by
  induction keys with
  | nil => rfl
  | cons k keys ih =>
    obtain ⟨v, hv⟩ := Option.isSome_iff_exists.mp
      (ExtTreeMap.mem_iff_isSome_getElem?.mp (hsub k (List.mem_cons_self ..)))
    rw [collect, List.filterMap_cons_some hv, List.length_cons, List.length_cons]
    exact congrArg (· + 1) (ih fun j hj => hsub j (List.mem_cons_of_mem _ hj))

theorem size_eraseAll {pool : ExtTreeMap ℕ V} {keys : List ℕ} (hnd : keys.Nodup)
    (hsub : ∀ k ∈ keys, k ∈ pool) : (eraseAll pool keys).size + keys.length = pool.size := by
  have h := (collect_perm pool hnd).length_eq
  rw [List.length_append, List.length_map, List.length_map, length_collect hsub,
    ExtTreeMap.length_toList, ExtTreeMap.length_toList] at h
  omega

def insertAll (key : V → ℕ) (pool : ExtTreeMap ℕ V) (vs : List V) : ExtTreeMap ℕ V :=
  vs.foldl (fun pool v => pool.insertIfNew (key v) v) pool

/-- The values that find their key free. -/
def admitted (key : V → ℕ) : ExtTreeMap ℕ V → List V → List V
  | _, [] => []
  | pool, v :: vs =>
    if key v ∈ pool then admitted key pool vs
    else v :: admitted key (pool.insertIfNew (key v) v) vs

theorem insertIfNew_of_mem {pool : ExtTreeMap ℕ V} {k : ℕ} (h : k ∈ pool) (v : V) :
    pool.insertIfNew k v = pool := by
  ext j
  rw [ExtTreeMap.getElem?_insertIfNew, if_neg fun hk => hk.2 h]

theorem toList_insertIfNew_perm {pool : ExtTreeMap ℕ V} {k : ℕ} (h : k ∉ pool) (v : V) :
    (pool.insertIfNew k v).toList.Perm (pool.toList ++ [(k, v)]) := by
  rw [List.perm_ext_iff_of_nodup (nodup_toList _)]
  · rintro ⟨j, w⟩
    rw [List.mem_append, List.mem_singleton, ExtTreeMap.mem_toList_iff_getElem?_eq_some,
      ExtTreeMap.mem_toList_iff_getElem?_eq_some, ExtTreeMap.getElem?_insertIfNew, Prod.mk.injEq]
    by_cases hj : k = j
    · subst hj
      rw [ExtTreeMap.getElem?_eq_none h]
      simp [h, eq_comm]
    · simp [hj, Ne.symm hj]
  · refine List.nodup_append.mpr ⟨nodup_toList _, List.nodup_singleton _, ?_⟩
    rintro kv hkv _ hs rfl
    rw [List.mem_singleton] at hs
    subst hs
    rw [ExtTreeMap.mem_toList_iff_getElem?_eq_some, ExtTreeMap.getElem?_eq_none h] at hkv
    cases hkv

/-- The values of a pool after a batch: those before and those that were admitted. -/
theorem insertAll_perm (key : V → ℕ) (vs : List V) (pool : ExtTreeMap ℕ V) :
    ((insertAll key pool vs).toList.map Prod.snd).Perm
      (pool.toList.map Prod.snd ++ admitted key pool vs) := by
  induction vs generalizing pool with
  | nil => simp [insertAll, admitted]
  | cons v vs ih =>
    have hrest := ih (pool.insertIfNew (key v) v)
    rw [insertAll, List.foldl_cons]
    refine hrest.trans ?_
    rw [admitted]
    split
    · rename_i hmem
      rw [insertIfNew_of_mem hmem]
    · rename_i hmem
      have hone := (toList_insertIfNew_perm hmem v).map Prod.snd
      rw [List.map_append] at hone
      refine (hone.append_right _).trans ?_
      simp

end TomChain.Pool
