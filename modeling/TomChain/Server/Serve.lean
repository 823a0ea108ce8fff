import TomChain.Lib.Runs
import TomChain.Server.Handlers

/-!
# Whole requests

A handler that runs from its request to its answer with no other step of the server in between.
The handlers that go through the elements of a batch are then folds over the decoded elements.
-/

namespace TomChain.Server

open Runs
open Flexbuffers (Flex fromBytes voteFromBytes)

variable {G : Type} {cfg : Config} {s : ℕ} {srv srv' : Server G}

def serveStep (cfg : Config) (s : ℕ) (x : Server G × Rpc G) (a : ℕ × List (ℕ × ℕ)) :
    Option (Server G × Rpc G) :=
  x.1.handle cfg s a.1 a.2 x.2

/-- The handler answers the request `rpc` and leaves `srv'`. -/
def Serves (cfg : Config) (s : ℕ) (srv : Server G) (rpc : Rpc G) (srv' : Server G) : Prop :=
  ∃ rpc', Run (serveStep cfg s) (fun _ _ => True) (srv, rpc) (srv', rpc') ∧ rpc'.finished = true

theorem serves_cons {rpc : Rpc G} (hf : rpc.finished = false) :
    Serves cfg s srv rpc srv' ↔
      ∃ now order srv₁ rpc₁, srv.handle cfg s now order rpc = some (srv₁, rpc₁) ∧
        Serves cfg s srv₁ rpc₁ srv' := by
  constructor
  · rintro ⟨rpc', hr, hf'⟩
    rcases hr.cases_head with he | ⟨⟨now, order⟩, ⟨srv₁, rpc₁⟩, -, hs, hr⟩
    · cases he
      rw [hf] at hf'
      cases hf'
    · exact ⟨now, order, srv₁, rpc₁, hs, rpc', hr, hf'⟩
  · rintro ⟨now, order, srv₁, rpc₁, hs, rpc', hr, hf'⟩
    refine ⟨rpc', Run.trans (.next (now, order) .refl trivial ?_) hr, hf'⟩
    exact hs

theorem serves_nil {rpc : Rpc G} (hf : rpc.finished = true)
    (hn : ∀ now order, srv.handle cfg s now order rpc = none) :
    Serves cfg s srv rpc srv' ↔ srv' = srv := by
  constructor
  · rintro ⟨rpc', hr, -⟩
    rcases hr.cases_head with he | ⟨⟨now, order⟩, x, -, hs, -⟩
    · cases he
      rfl
    · rw [serveStep, hn] at hs
      cases hs
  · rintro rfl
    exact ⟨rpc, .refl, hf⟩

theorem serves_step {srv₁ : Server G} {rpc rpc₁ : Rpc G} (hf : rpc.finished = false)
    (hs : ∀ now order, srv.handle cfg s now order rpc = some (srv₁, rpc₁)) :
    Serves cfg s srv rpc srv' ↔ Serves cfg s srv₁ rpc₁ srv' := by
  rw [serves_cons hf]
  constructor
  · rintro ⟨now, order, srv₂, rpc₂, h, hr⟩
    rw [hs] at h
    cases h
    exact hr
  · intro hr
    exact ⟨0, [], srv₁, rpc₁, hs 0 [], hr⟩

inductive ServesAll (cfg : Config) (s : ℕ) : Server G → List (Rpc G) → Server G → Prop
  | nil (srv : Server G) : ServesAll cfg s srv [] srv
  | cons {srv srv₁ srv₂ : Server G} {rpc : Rpc G} {rpcs : List (Rpc G)} :
      Serves cfg s srv rpc srv₁ → ServesAll cfg s srv₁ rpcs srv₂ →
      ServesAll cfg s srv (rpc :: rpcs) srv₂

theorem not_serves_undefined : ¬ Serves cfg s srv .undefined srv' := by
  rw [serves_cons rfl]
  rintro ⟨now, order, srv₁, rpc₁, hs, -⟩
  cases hs

section

variable {β : Type} {mk : List (Flex G) → Rpc G} {dec : Flex G → Option β}
  {f : ℕ → Server G → β → Server G}

/-- A handler that goes through its batch: element by element, with a clock for each. -/
theorem serves_batch (hnil : ∀ (srv : Server G) now order, srv.handle cfg s now order (mk []) = none)
    (hfin : ∀ items, (mk items).finished = items.isEmpty)
    (hcons : ∀ (srv : Server G) now order item rest b, dec item = some b →
      srv.handle cfg s now order (mk (item :: rest)) = some (f now srv b, mk rest))
    {items : List (Flex G)} {bs : List β} (hdec : items.map dec = bs.map some) :
    Serves cfg s srv (mk items) srv' ↔ ∃ nows : List ℕ, nows.length = bs.length ∧
      srv' = (nows.zip bs).foldl (fun srv x => f x.1 srv x.2) srv := by
  induction items generalizing srv bs with
  | nil =>
    cases bs with
    | nil =>
      rw [serves_nil (by rw [hfin]; rfl) (hnil srv)]
      constructor
      · intro h; exact ⟨[], rfl, h⟩
      · rintro ⟨nows, -, h⟩; simpa using h
    | cons b bs => cases hdec
  | cons item items ih =>
    cases bs with
    | nil => cases hdec
    | cons b bs =>
      rw [List.map_cons, List.map_cons, List.cons.injEq] at hdec
      rw [serves_cons (by rw [hfin]; rfl)]
      constructor
      · rintro ⟨now, order, srv₁, rpc₁, hs, hr⟩
        rw [hcons _ _ _ _ _ _ hdec.1] at hs
        cases hs
        obtain ⟨nows, hl, rfl⟩ := (ih hdec.2).mp hr
        exact ⟨now :: nows, by simp [hl], rfl⟩
      · rintro ⟨nows, hl, rfl⟩
        cases nows with
        | nil => cases hl
        | cons now nows =>
          refine ⟨now, [], _, _, hcons _ _ _ _ _ _ hdec.1, (ih hdec.2).mpr ⟨nows, ?_, rfl⟩⟩
          simpa using hl

theorem serves_batch_const {f : Server G → β → Server G}
    (hnil : ∀ (srv : Server G) now order, srv.handle cfg s now order (mk []) = none)
    (hfin : ∀ items, (mk items).finished = items.isEmpty)
    (hcons : ∀ (srv : Server G) now order item rest b, dec item = some b →
      srv.handle cfg s now order (mk (item :: rest)) = some (f srv b, mk rest))
    {items : List (Flex G)} {bs : List β} (hdec : items.map dec = bs.map some) :
    Serves cfg s srv (mk items) srv' ↔ srv' = bs.foldl f srv := by
  have hfold : ∀ (nows : List ℕ) (bs : List β), nows.length = bs.length → ∀ srv : Server G,
      (nows.zip bs).foldl (fun srv x => f srv x.2) srv = bs.foldl f srv := by
    intro nows bs hl srv
    rw [← List.foldl_map (f := Prod.snd) (g := f), List.map_snd_zip (by omega)]
  rw [serves_batch (f := fun _ => f) hnil hfin hcons hdec]
  constructor
  · rintro ⟨nows, hl, rfl⟩
    exact hfold nows bs hl srv
  · rintro rfl
    exact ⟨List.replicate bs.length 0, by simp, (hfold _ bs (by simp) srv).symm⟩

end

theorem serves_relayVote {items : List (Flex G)} {votes : List (BlockVote G)}
    (hdec : items.map voteFromBytes = votes.map some) :
    Serves cfg s srv (.relayVote items) srv' ↔ srv' = votes.foldl (relayVoteItem cfg) srv := by
  apply serves_batch_const (fun _ _ _ => rfl) (fun _ => rfl) _ hdec
  intro srv now order item rest vote hv
  simp only [handle, hv]

theorem serves_relayBlock {items : List (Flex G)} {blocks : List (Block G)}
    (hdec : items.map fromBytes = blocks.map some) :
    Serves cfg s srv (.relayBlock items) srv' ↔ srv' = blocks.foldl relayBlockItem srv := by
  apply serves_batch_const (fun _ _ _ => rfl) (fun _ => rfl) _ hdec
  intro srv now order item rest block hb
  simp only [handle, hb]

theorem serves_spBcastCommit {items : List (Flex G)} {blocks : List (Block G)}
    (hdec : items.map fromBytes = blocks.map some) :
    Serves cfg s srv (.spBcastCommit items) srv' ↔ ∃ nows : List ℕ, nows.length = blocks.length ∧
      srv' = (nows.zip blocks).foldl (fun srv x => srv.spBcastCommitItem cfg x.1 x.2) srv := by
  refine serves_batch (f := fun now srv block => srv.spBcastCommitItem cfg now block) ?_ ?_ ?_ hdec
  · exact fun _ _ _ => rfl
  · exact fun _ => rfl
  intro srv now order item rest block hb
  simp only [handle, hb]

end TomChain.Server
