import Mathlib.Data.List.Sort
import Mathlib.Data.List.Lex

/-!
# Key/value vectors kept in key order

A map that is written as a vector sorted by key and read by binary search over a
half-open window, as C's `bsearch` does it. The search is only right on a sorted
vector; `find_of_mem` says that there it finds every entry.
-/

namespace TomChain.Keyed

variable {κ υ : Type} [LinearOrder κ]

def sortByKey (l : List (κ × υ)) : List (κ × υ) := l.insertionSort (fun a b => a.1 ≤ b.1)

/-- The search loop on the window `[lo, hi)`. Every round shrinks the window, so
`l.length` rounds are enough. -/
def search (l : List (κ × υ)) (k : κ) : ℕ → ℕ → ℕ → Option υ
  | 0, _, _ => none
  | rounds + 1, lo, hi =>
    if lo < hi then
      match l[(lo + hi) / 2]? with
      | none => none
      | some e =>
        if k < e.1 then search l k rounds lo ((lo + hi) / 2)
        else if e.1 < k then search l k rounds ((lo + hi) / 2 + 1) hi
        else some e.2
    else none

def find (l : List (κ × υ)) (k : κ) : Option υ := search l k l.length 0 l.length

theorem perm_sortByKey (l : List (κ × υ)) : (sortByKey l).Perm l :=
  List.perm_insertionSort _ l

theorem sortByKey_sorted (l : List (κ × υ)) (h : (l.map Prod.fst).Nodup) :
    ((sortByKey l).map Prod.fst).Pairwise (· < ·) := by
  have hle : (sortByKey l).Pairwise (fun a b => a.1 ≤ b.1) := by
    have : Std.Total (fun a b : κ × υ => a.1 ≤ b.1) := ⟨fun a b => le_total a.1 b.1⟩
    have : IsTrans (κ × υ) (fun a b => a.1 ≤ b.1) := ⟨fun _ _ _ hab hbc => le_trans hab hbc⟩
    exact List.pairwise_insertionSort _ l
  have hnd : ((sortByKey l).map Prod.fst).Nodup :=
    ((perm_sortByKey l).map Prod.fst).nodup_iff.mpr h
  have hle' : ((sortByKey l).map Prod.fst).Pairwise (· ≤ ·) := List.pairwise_map.mpr hle
  exact (hle'.and hnd).imp fun ⟨hab, hne⟩ => lt_of_le_of_ne hab hne

theorem search_of_mem (l : List (κ × υ)) (hs : (l.map Prod.fst).Pairwise (· < ·))
    {k : κ} {v : υ} {i : ℕ} (hget : l[i]? = some (k, v)) :
    ∀ rounds lo hi, lo ≤ i → i < hi → hi ≤ l.length → hi - lo ≤ rounds →
      search l k rounds lo hi = some v := by
  have hlt : ∀ (a b : ℕ) (ea eb : κ × υ), l[a]? = some ea → l[b]? = some eb → a < b → ea.1 < eb.1 := by
    intro a b ea eb ha hb hab
    obtain ⟨ha', rfl⟩ := List.getElem?_eq_some_iff.mp ha
    obtain ⟨hb', rfl⟩ := List.getElem?_eq_some_iff.mp hb
    have := List.pairwise_iff_getElem.mp (List.pairwise_map.mp hs) a b ha' hb' hab
    exact this
  intro rounds
  induction rounds with
  | zero => intro lo hi h₁ h₂ _ h₃; omega
  | succ rounds ih =>
    intro lo hi h₁ h₂ hlen h₃
    have hmid : (lo + hi) / 2 < l.length := by omega
    obtain ⟨e, he⟩ : ∃ e, l[(lo + hi) / 2]? = some e := ⟨_, List.getElem?_eq_getElem hmid⟩
    simp only [search, show lo < hi by omega, if_true, he]
    rcases Nat.lt_trichotomy i ((lo + hi) / 2) with h | h | h
    · rw [if_pos (hlt _ _ _ _ hget he h)]
      exact ih _ _ h₁ h (by omega) (by omega)
    · rw [h, he] at hget
      cases hget
      simp
    · have hk := hlt _ _ _ _ he hget h
      rw [if_neg (not_lt_of_gt hk), if_pos hk]
      exact ih _ _ (by omega) h₂ hlen (by omega)

theorem find_of_mem (l : List (κ × υ)) (hs : (l.map Prod.fst).Pairwise (· < ·))
    {k : κ} {v : υ} (h : (k, v) ∈ l) : find l k = some v := by
  obtain ⟨i, hi, he⟩ := List.getElem_of_mem h
  exact search_of_mem l hs (List.getElem?_eq_some_iff.mpr ⟨hi, he⟩) _ _ _
    (Nat.zero_le i) hi le_rfl (by omega)

theorem find_sortByKey (l : List (κ × υ)) (h : (l.map Prod.fst).Nodup) {k : κ} {v : υ}
    (hm : (k, v) ∈ l) : find (sortByKey l) k = some v :=
  find_of_mem _ (sortByKey_sorted l h) ((perm_sortByKey l).mem_iff.mpr hm)

end TomChain.Keyed
