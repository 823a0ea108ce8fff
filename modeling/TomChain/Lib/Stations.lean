import Mathlib.Data.List.Count
import Mathlib.Data.Set.Insert

/-!
# Stations

Items of an arbitrary type pass through a component: an item enters and waits, it is taken into a
queue of items that are worked on and is finished in the order of the queue, or it is finished or
dropped while it still waits. `entered` and `finished` keep the history.

An item is never at more places than it entered, an item that entered is somewhere (`Step.ok`), and
it waits again only if it enters again (`Step.not_waiting`).
-/

namespace TomChain

/-- The places of a component that items pass through. -/
structure Stations (ι : Type) where
  waiting : Set ι
  working : List ι
  finished : List ι
  dropped : Set ι
  entered : List ι

namespace Stations

variable {ι : Type}

inductive Step (S : Stations ι) : Stations ι → Prop
  | enter (i : ι) : Step S { S with waiting := insert i S.waiting, entered := S.entered ++ [i] }
  | take (i : ι) : i ∈ S.waiting →
      Step S { S with waiting := S.waiting \ {i}, working := S.working ++ [i] }
  | finish (i : ι) (rest : List ι) : S.working = i :: rest →
      Step S { S with working := rest, finished := S.finished ++ [i] }
  | adopt (i : ι) : i ∈ S.waiting →
      Step S { S with waiting := S.waiting \ {i}, finished := S.finished ++ [i] }
  | drop (i : ι) : i ∈ S.waiting →
      Step S { S with waiting := S.waiting \ {i}, dropped := insert i S.dropped }

open Classical in
noncomputable def at1 (A : Set ι) (i : ι) : ℕ := if i ∈ A then 1 else 0

@[simp] theorem at1_mem {A : Set ι} {i : ι} (h : i ∈ A) : at1 A i = 1 := if_pos h

@[simp] theorem at1_not_mem {A : Set ι} {i : ι} (h : i ∉ A) : at1 A i = 0 := if_neg h

theorem at1_le_insert (A : Set ι) (i j : ι) : at1 A j ≤ at1 (insert i A) j := by
  by_cases hj : j ∈ A
  · rw [at1_mem hj, at1_mem (Set.mem_insert_of_mem i hj)]
  · rw [at1_not_mem hj]
    exact Nat.zero_le _

variable [DecidableEq ι]

theorem at1_insert_le (A : Set ι) (i j : ι) : at1 (insert i A) j ≤ at1 A j + [i].count j := by
  by_cases hj : j ∈ A
  · rw [at1_mem hj, at1_mem (Set.mem_insert_of_mem i hj)]
    omega
  · by_cases hij : j = i
    · subst hij
      rw [at1_mem (Set.mem_insert j A)]
      simp
    · rw [at1_not_mem (by simp [hij, hj])]
      omega

theorem at1_diff {A : Set ι} {i : ι} (hi : i ∈ A) (j : ι) :
    at1 (A \ {i}) j + [i].count j = at1 A j := by
  by_cases hij : j = i
  · subst hij
    rw [at1_mem hi, at1_not_mem (by simp)]
    simp
  · have hc : [i].count j = 0 := by simp [Ne.symm hij]
    by_cases hj : j ∈ A
    · rw [at1_mem hj, at1_mem (show j ∈ A \ {i} from ⟨hj, hij⟩), hc]
    · rw [at1_not_mem hj, at1_not_mem (show j ∉ A \ {i} from fun h => hj h.1), hc]

noncomputable def occ (S : Stations ι) (i : ι) : ℕ :=
  at1 S.waiting i + S.working.count i + S.finished.count i + at1 S.dropped i

/-- An item is nowhere more often than it entered, and it is somewhere if it entered. -/
def Ok (S : Stations ι) : Prop := ∀ i, S.occ i ≤ S.entered.count i ∧ (i ∈ S.entered → 0 < S.occ i)

theorem ok_empty : (⟨∅, [], [], ∅, []⟩ : Stations ι).Ok := by
  intro i
  simp [occ]

theorem Step.ok {S S' : Stations ι} (h : S.Step S') (hS : S.Ok) : S'.Ok := by
  intro j
  obtain ⟨hle, hpos⟩ := hS j
  unfold occ at hle hpos
  cases h with
  | enter i =>
    have hins := at1_insert_le S.waiting i j
    have hle' := at1_le_insert S.waiting i j
    simp only [occ, List.count_append, List.mem_append, List.mem_singleton]
    refine ⟨by omega, ?_⟩
    rintro (hj | rfl)
    · have := hpos hj; omega
    · rw [at1_mem (Set.mem_insert j _)]; omega
  | take i hi =>
    have hd := at1_diff hi j
    simp only [occ, List.count_append]
    exact ⟨by omega, fun hj => by have := hpos hj; omega⟩
  | finish i rest hw =>
    simp only [hw, List.count_cons] at hle hpos
    simp only [occ, List.count_append, List.count_singleton]
    exact ⟨by omega, fun hj => by have := hpos hj; omega⟩
  | adopt i hi =>
    have hd := at1_diff hi j
    simp only [occ, List.count_append]
    exact ⟨by omega, fun hj => by have := hpos hj; omega⟩
  | drop i hi =>
    have hd := at1_diff hi j
    have hins := at1_insert_le S.dropped i j
    refine ⟨by simp only [occ]; omega, fun hj => ?_⟩
    have := hpos hj
    by_cases hij : j = i
    · subst hij
      simp only [occ, at1_mem (Set.mem_insert j S.dropped)]
      omega
    · have hc : [i].count j = 0 := by simp [Ne.symm hij]
      have hle' := at1_le_insert S.dropped i j
      simp only [occ]
      omega

/-- An item that does not wait starts to wait only by entering. -/
theorem Step.not_waiting {S S' : Stations ι} (h : S.Step S') {i : ι} (hi : i ∉ S.waiting)
    (hcount : S'.entered.count i = S.entered.count i) : i ∉ S'.waiting := by
  cases h with
  | enter j =>
    simp only [List.count_append] at hcount
    rintro (rfl | h)
    · simp at hcount
    · exact hi h
  | finish => exact hi
  | take | adopt | drop => exact fun h => hi h.1

end Stations

end TomChain
