import TomChain.Server.Life
import TomChain.System.Pipeline

/-!
# The lifecycle of a block

Every id is at one place of a server at most, and it goes through the places in one direction. The
stations of a server bound the number of places by the number of times the id was stored
(`Stations.Ok`), and the pipeline from the packing server bounds that by one.
-/

namespace TomChain

open Std (ExtTreeMap ExtTreeSet)
open Runs Server

variable {G D : Type} {cfg : Config} {crypto : Crypto G D} {σ σ' : State G} {a : Action G}
  {ok : State G → Action G → Bool}

theorem Reachable.life (h : Reachable cfg crypto ok σ) (s : ℕ) : (σ.server s).life.Ok := by
  have := h.server_invariant (fun _ srv => srv.WF ∧ srv.life.Ok)
    (fun s => ⟨wf_init cfg s, by
      have he : (Server.init cfg s : Server G).life = ⟨∅, [], [], ∅, []⟩ := by
        simp [Server.life, Server.init, mergingIds, merging, poppedBy]
      rw [he]
      exact Stations.ok_empty⟩)
    (fun s srv srv' hP hm => ⟨hm.wf hP.1, by
      rcases hm.life hP.1 with he | hstep
      · rw [he]; exact hP.2
      · exact hstep.ok hP.2⟩) s
  exact this.2

theorem Reachable.stored_of_pending (h : Reachable cfg crypto ok σ) {s id : ℕ}
    (hp : id ∈ (σ.server s).pendingBlks) : id ∈ (σ.server s).stored := by
  have hle := ((h.life s) id).1
  have hw : Stations.at1 (σ.server s).life.waiting id = 1 := Stations.at1_mem hp
  have he : (σ.server s).life.entered.count id = (σ.server s).stored.count id := rfl
  unfold Stations.occ at hle
  exact List.count_pos_iff.mp (by omega)

theorem Reachable.commitsOk (h : Reachable cfg crypto ok σ) (s : ℕ) : (σ.server s).CommitsOk :=
  h.server_invariant (fun _ srv => srv.CommitsOk) (fun s id => by simp [Server.init])
    (fun _ _ _ hc hm => hc.moves hm) s

def Server.places (srv : Server G) (id : ℕ) : ℕ :=
  (if id ∈ srv.pendingBlks then 1 else 0) + srv.mergingIds.count id +
    (if id ∈ srv.committedBlks then 1 else 0) + if id ∈ srv.deadBlock then 1 else 0

theorem places_le_occ {srv : Server G} (hc : srv.CommitsOk) (id : ℕ) :
    srv.places id ≤ srv.life.occ id := by
  have hpending : Stations.at1 srv.life.waiting id = if id ∈ srv.pendingBlks then 1 else 0 := by
    split
    · rename_i h; exact Stations.at1_mem h
    · rename_i h; exact Stations.at1_not_mem h
  have hdead : Stations.at1 srv.life.dropped id = if id ∈ srv.deadBlock then 1 else 0 := by
    split
    · rename_i h; exact Stations.at1_mem h
    · rename_i h; exact Stations.at1_not_mem h
  have hcommit : (if id ∈ srv.committedBlks then 1 else 0) ≤ srv.life.finished.count id := by
    split
    · rename_i h; exact List.count_pos_iff.mpr ((hc id).mp h)
    · exact Nat.zero_le _
  have hworking : srv.mergingIds.count id = srv.life.working.count id := rfl
  simp only [Server.places, Stations.occ, hpending, hdead]
  omega

theorem not_pending_of_reaches (h₁ : Reachable cfg crypto ok σ) (h : Reaches cfg crypto ok σ σ')
    {s id : ℕ} (hcount : (σ'.server s).stored.count id = (σ.server s).stored.count id)
    (hn : id ∉ (σ.server s).pendingBlks) : id ∉ (σ'.server s).pendingBlks := by
  induction h with
  | refl => exact hn
  | @next σ₁ σ₂ a hr hok hs ih =>
    have hle₁ := (Reaches.later hr s).stored.sublist.count_le id
    have hle₂ := ((steps_of_step hs).later s).stored.sublist.count_le id
    have hn₁ := ih (by omega)
    have hwf := Reachable.wf (Run.trans h₁ hr) s
    rcases (steps_of_step hs).moves s with he | hm
    · rw [he]; exact hn₁
    · rcases hm.life hwf with he | hstep
      · intro hmem
        have hw : id ∈ (σ₂.server s).life.waiting := hmem
        rw [he] at hw
        exact hn₁ hw
      · exact hstep.not_waiting hn₁ (by
          have : (σ₂.server s).stored.count id = (σ₁.server s).stored.count id := by omega
          exact this)

/-- A committed block stays where it is as long as its id is not committed again. -/
theorem committed_of_reaches (h₁ : Reachable cfg crypto ok σ) (h : Reaches cfg crypto ok σ σ')
    {s id p : ℕ} (hcount : (σ'.server s).commits.count id ≤ 1)
    (hp : (σ.server s).committedBlks[id]? = some p) : (σ'.server s).committedBlks[id]? = some p := by
  induction h with
  | refl => exact hp
  | @next σ₁ σ₂ a hr hok hs ih =>
    have hle := ((steps_of_step hs).later s).commits.sublist.count_le id
    have hp₁ := ih (by omega)
    rcases (steps_of_step hs).moves s with he | hm
    · rw [he]; exact hp₁
    · rcases hm.committed hp₁ with h | hc
      · exact h
      · have hmem : id ∈ (σ₁.server s).committedBlks := by
          rw [ExtTreeMap.mem_iff_isSome_getElem?, hp₁]
          rfl
        have := List.count_pos_iff.mpr ((Reachable.commitsOk (Run.trans h₁ hr) s id).mp hmem)
        omega

/-- At every point of every run an id is at one place of a server at most; once it has left
`pending_blks` it never comes back, and it is committed once and stays committed. -/
theorem block_lifecycle (cfg : Config) (crypto : Crypto G D) (σ₀ σ₁ σ₂ : State G)
    (h₀ : Reachable cfg crypto unguarded σ₀) (h₁ : Reaches cfg crypto unguarded σ₀ σ₁)
    (h₂ : Reaches cfg crypto unguarded σ₁ σ₂)
    (hlt : (σ₂.server cfg.serverCount).packed.length < 2 ^ 64) (s : ℕ) (hs₁ : 1 ≤ s)
    (hs₂ : s ≤ cfg.serverCount) (id : ℕ) :
    (σ₂.server s).places id ≤ 1 ∧
    (id ∈ (σ₀.server s).pendingBlks → id ∉ (σ₁.server s).pendingBlks →
      id ∉ (σ₂.server s).pendingBlks) ∧
    (∀ p, (σ₁.server s).committedBlks[id]? = some p → (σ₂.server s).committedBlks[id]? = some p) ∧
    (σ₂.server s).commits.count id ≤ 1 := by
  have hr₁ : Reachable cfg crypto unguarded σ₁ := Run.trans h₀ h₁
  have hr₂ : Reachable cfg crypto unguarded σ₂ := Run.trans hr₁ h₂
  have hone := stored_count_le_one hr₂ hlt hs₁ hs₂ id
  have hocc : (σ₂.server s).life.occ id ≤ 1 := ((hr₂.life s) id).1.trans hone
  have hcommits : (σ₂.server s).commits.count id ≤ 1 := by
    have hf : (σ₂.server s).life.finished.count id = (σ₂.server s).commits.count id := rfl
    unfold Stations.occ at hocc
    omega
  refine ⟨(places_le_occ (hr₂.commitsOk s) id).trans hocc, fun hpend hn => ?_,
    fun p hp => committed_of_reaches hr₁ h₂ hcommits hp, hcommits⟩
  -- the id was stored before it left, and it cannot be stored a second time
  have hpos := List.count_pos_iff.mpr (h₀.stored_of_pending hpend)
  have hle₁ := (h₁.later s).stored.sublist.count_le id
  have hle₂ := (h₂.later s).stored.sublist.count_le id
  exact not_pending_of_reaches hr₁ h₂ (by omega) hn

/-- The round on server 2: the block is pending after it is packed, has left the pending map once
all votes are in, and is committed at the end. -/
theorem block_lifecycle_round :
    ∃ σ₀ σ₁ σ₂ : State Point, Reachable sampleConfig Crypto.symbolic unguarded σ₀ ∧
      Reaches sampleConfig Crypto.symbolic unguarded σ₀ σ₁ ∧
      Reaches sampleConfig Crypto.symbolic unguarded σ₁ σ₂ ∧
      2000000 ∈ (σ₀.server 2).pendingBlks ∧ 2000000 ∉ (σ₁.server 2).pendingBlks ∧
      2000000 ∈ (σ₂.server 2).committedBlks ∧ 2000000 ∉ (σ₂.server 2).pendingBlks ∧
      (σ₂.server 2).places 2000000 ≤ 1 ∧ (σ₂.server 2).commits.count 2000000 ≤ 1 := by
  obtain ⟨σ₀, h₀, hσ₀⟩ := exists_reachable sampleConfig Crypto.symbolic unguarded
    (Script.round.take 5) (fun σ₀ => (σ₀.server 2).pendingBlks.contains 2000000 &&
      (exec (step sampleConfig Crypto.symbolic) unguarded σ₀ ((Script.round.drop 5).take 55)).any
        fun σ₁ => !(σ₁.server 2).pendingBlks.contains 2000000 &&
          (exec (step sampleConfig Crypto.symbolic) unguarded σ₁ (Script.round.drop 60)).any
            fun σ₂ => (σ₂.server 2).packed.length == 1 &&
              (σ₂.server 2).committedBlks.contains 2000000) (by decide +kernel)
  simp only [Bool.and_eq_true, ExtTreeMap.contains_iff_mem] at hσ₀
  obtain ⟨hp₀, hex₀⟩ := hσ₀
  obtain ⟨σ₁, h₁, hσ₁⟩ := Run.exists_of_exec (fun _ _ h => h) hex₀
  simp only [Bool.and_eq_true, Bool.not_eq_true', ← Bool.not_eq_true,
    ExtTreeMap.contains_iff_mem] at hσ₁
  obtain ⟨hp₁, hex₁⟩ := hσ₁
  obtain ⟨σ₂, h₂, hσ₂⟩ := Run.exists_of_exec (fun _ _ h => h) hex₁
  simp only [Bool.and_eq_true, beq_iff_eq, ExtTreeMap.contains_iff_mem] at hσ₂
  obtain ⟨hlen, hc⟩ := hσ₂
  obtain ⟨hplaces, hleft, -, hcount⟩ := block_lifecycle _ _ σ₀ σ₁ σ₂ h₀ h₁ h₂
    (by simp [sampleConfig, hlen]) 2 (by decide) (by decide) 2000000
  exact ⟨σ₀, σ₁, σ₂, h₀, h₁, h₂, hp₀, hp₁, hc, hleft hp₀ hp₁, hplaces, hcount⟩

end TomChain
