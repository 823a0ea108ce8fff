import Mathlib.Data.Set.Insert
import Mathlib.Logic.Relation

/-!
# A ledger under unanimous votes

Nodes `ν` keep a ledger of items `ι`, each with a content `χ`. An item is proposed once, voters `κ`
cast their ballots on what is proposed, and a node commits an item when every voter has cast a
ballot on it, or when another node has committed it. So a node commits only what was proposed and
what all voters want, and no two nodes commit different contents of one item.
-/

namespace TomChain

structure Ledger (ν κ ι χ : Type) where
  proposals : Set (ι × χ)
  ballots : Set (κ × ι)
  commits : Set (ν × ι × χ)

namespace Ledger

variable {ν κ ι χ : Type} {voters : Set κ} {L L' : Ledger ν κ ι χ}

def empty : Ledger ν κ ι χ := ⟨∅, ∅, ∅⟩

inductive Step (voters : Set κ) (L : Ledger ν κ ι χ) : Ledger ν κ ι χ → Prop
  | propose (i : ι) (c : χ) : (∀ c', (i, c') ∉ L.proposals) →
      Step voters L { L with proposals := insert (i, c) L.proposals }
  | vote (k : κ) (i : ι) (c : χ) : k ∈ voters → (i, c) ∈ L.proposals →
      Step voters L { L with ballots := insert (k, i) L.ballots }
  | commit (n : ν) (i : ι) (c : χ) : (i, c) ∈ L.proposals → (∀ k ∈ voters, (k, i) ∈ L.ballots) →
      (∀ c', (n, i, c') ∉ L.commits) → Step voters L { L with commits := insert (n, i, c) L.commits }
  | adopt (n m : ν) (i : ι) (c : χ) : (m, i, c) ∈ L.commits → (∀ c', (n, i, c') ∉ L.commits) →
      Step voters L { L with commits := insert (n, i, c) L.commits }

def Reaches (voters : Set κ) : Ledger ν κ ι χ → Ledger ν κ ι χ → Prop :=
  Relation.ReflTransGen (Step voters)

/-- What is committed was proposed and voted for, and what is voted for was proposed. -/
structure Ok (voters : Set κ) (L : Ledger ν κ ι χ) : Prop where
  proposed : ∀ i c c', (i, c) ∈ L.proposals → (i, c') ∈ L.proposals → c = c'
  voted : ∀ k i, (k, i) ∈ L.ballots → k ∈ voters ∧ ∃ c, (i, c) ∈ L.proposals
  backed : ∀ n i c, (n, i, c) ∈ L.commits → (i, c) ∈ L.proposals
  unanimous : ∀ n i c, (n, i, c) ∈ L.commits → ∀ k ∈ voters, (k, i) ∈ L.ballots

theorem ok_empty : (empty : Ledger ν κ ι χ).Ok voters where
  proposed _ _ _ h := by cases h
  voted _ _ h := by cases h
  backed _ _ _ h := by cases h
  unanimous _ _ _ h := by cases h

theorem Step.ok (h : L.Step voters L') (hL : L.Ok voters) : L'.Ok voters := by
  cases h with
  | propose i c hnew =>
    refine ⟨fun j d d' hd hd' => ?_, fun k j hk => ?_, fun n j d hd => ?_, hL.unanimous⟩
    · rcases hd with hd | hd <;> rcases hd' with hd' | hd'
      · rw [Prod.mk.injEq] at hd hd'
        exact hd.2.trans hd'.2.symm
      · cases hd
        exact absurd hd' (hnew d')
      · cases hd'
        exact absurd hd (hnew d)
      · exact hL.proposed j d d' hd hd'
    · obtain ⟨hkv, d, hd⟩ := hL.voted k j hk
      exact ⟨hkv, d, .inr hd⟩
    · exact .inr (hL.backed n j d hd)
  | vote k i c hk hc =>
    refine ⟨hL.proposed, fun k' j hk' => ?_, hL.backed, fun n j d hd k' hk' => ?_⟩
    · rcases hk' with hk' | hk'
      · cases hk'
        exact ⟨hk, c, hc⟩
      · exact hL.voted k' j hk'
    · exact .inr (hL.unanimous n j d hd k' hk')
  | commit n i c hc hall _ =>
    refine ⟨hL.proposed, hL.voted, fun m j d hd => ?_, fun m j d hd => ?_⟩
    · rcases hd with hd | hd
      · cases hd; exact hc
      · exact hL.backed m j d hd
    · rcases hd with hd | hd
      · cases hd; exact hall
      · exact hL.unanimous m j d hd
  | adopt n m i c hm _ =>
    refine ⟨hL.proposed, hL.voted, fun m' j d hd => ?_, fun m' j d hd => ?_⟩
    · rcases hd with hd | hd
      · cases hd; exact hL.backed m i c hm
      · exact hL.backed m' j d hd
    · rcases hd with hd | hd
      · cases hd; exact hL.unanimous m i c hm
      · exact hL.unanimous m' j d hd

theorem Reaches.ok (h : L.Reaches voters L') (hL : L.Ok voters) : L'.Ok voters := by
  induction h with
  | refl => exact hL
  | tail _ hs ih => exact hs.ok ih

/-- Two nodes that committed an item committed the same content. -/
theorem Ok.agreement (hL : L.Ok voters) {n m : ν} {i : ι} {c c' : χ} (h : (n, i, c) ∈ L.commits)
    (h' : (m, i, c') ∈ L.commits) : c = c' :=
  hL.proposed i c c' (hL.backed n i c h) (hL.backed m i c' h')

/-- The ledger only grows. -/
theorem Reaches.grows (h : L.Reaches voters L') : L.proposals ⊆ L'.proposals ∧
    L.ballots ⊆ L'.ballots ∧ L.commits ⊆ L'.commits := by
  induction h with
  | refl => exact ⟨subset_rfl, subset_rfl, subset_rfl⟩
  | tail _ hs ih =>
    obtain ⟨hp, hb, hc⟩ := ih
    cases hs with
    | propose => exact ⟨hp.trans (Set.subset_insert _ _), hb, hc⟩
    | vote => exact ⟨hp, hb.trans (Set.subset_insert _ _), hc⟩
    | commit | adopt => exact ⟨hp, hb, hc.trans (Set.subset_insert _ _)⟩

/-! ## Several parts at once

A step of an implementation may touch every part of the ledger. Each part grows by one entry or not
at all, and what a later part rests on may have come with an earlier one. -/

theorem reaches_propose {P : Set (ι × χ)} (h : P = L.proposals ∨
    ∃ i c, P = insert (i, c) L.proposals ∧ ∀ c', (i, c') ∉ L.proposals) :
    L.Reaches voters { L with proposals := P } := by
  rcases h with rfl | ⟨i, c, rfl, hnew⟩
  · exact .refl
  · exact .single (.propose i c hnew)

theorem reaches_vote {B : Set (κ × ι)} (h : B = L.ballots ∨
    ∃ k i, B = insert (k, i) L.ballots ∧ k ∈ voters ∧ ∃ c, (i, c) ∈ L.proposals) :
    L.Reaches voters { L with ballots := B } := by
  rcases h with rfl | ⟨k, i, rfl, hk, c, hc⟩
  · exact .refl
  · exact .single (.vote k i c hk hc)

theorem reaches_commit {C : Set (ν × ι × χ)} (h : C = L.commits ∨
    ∃ n i c, C = insert (n, i, c) L.commits ∧ (∀ c', (n, i, c') ∉ L.commits) ∧
      ((i, c) ∈ L.proposals ∧ (∀ k ∈ voters, (k, i) ∈ L.ballots) ∨ ∃ m, (m, i, c) ∈ L.commits)) :
    L.Reaches voters { L with commits := C } := by
  rcases h with rfl | ⟨n, i, c, rfl, hnew, ⟨hc, hall⟩ | ⟨m, hm⟩⟩
  · exact .refl
  · exact .single (.commit n i c hc hall hnew)
  · exact .single (.adopt n m i c hm hnew)

end Ledger

end TomChain
