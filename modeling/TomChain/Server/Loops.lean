import TomChain.Server.Signals

/-!
# The loops of the relay threads

A relay thread goes through the peers once, and then the one for the blocks gives the sync signals.
So a thread at rest has left nothing behind: no sync signal is due, and a queue has an element only if
it was pushed after the thread was there.
-/

namespace TomChain

variable {G : Type}

/-- The peers that a relay thread has still to see in this loop. -/
def SendPc.ahead : SendPc G → List ℕ
  | .drain target _ _ rest => target :: rest
  | .wait _ _ rest => rest
  | _ => []

/-- The relay thread is past the relaying, at the sync signals. -/
def SendPc.syncing : SendPc G → Bool
  | .sync | .syncSend _ _ | .syncWait _ _ _ => true
  | _ => false

namespace Server

variable {cfg : Config} {merge : List (BLSSigShare G) → BLSSignature G} {s : ℕ} {srv srv' : Server G}
  {ch : Chan}

theorem send_setSend_ne {ch' : Chan} (hne : ch' ≠ ch) (pc : SendPc G) :
    (srv.setSend ch pc).send ch' = srv.send ch' := by
  simp [setSend, hne]

@[simp] theorem ahead_nextTarget (ch : Chan) (rest : List ℕ) :
    (nextTarget ch rest : SendPc G).ahead = rest := by
  cases rest with
  | nil =>
    simp only [nextTarget]
    split <;> rfl
  | cons t rest => rfl

/-- A relay thread goes to peers only, and only the one of the blocks gives sync signals. It rests
when none are left. -/
structure OnCourse (cfg : Config) (s : ℕ) (srv : Server G) : Prop where
  ahead : ∀ ch, ∀ t ∈ (srv.send ch).ahead, t ∈ peerIds cfg.serverCount s
  idle : srv.send .block = .idle → srv.pbSyncQueue = []
  syncing : ∀ ch, (srv.send ch).syncing = true → ch = .block

theorem onCourse_init (cfg : Config) (s : ℕ) : (Server.init cfg s : Server G).OnCourse cfg s where
  ahead ch t ht := by cases ht
  idle _ := rfl
  syncing ch h := by cases h

theorem syncing_nextTarget (ch : Chan) (rest : List ℕ) :
    (nextTarget ch rest : SendPc G).syncing = true → ch = .block := by
  cases rest with
  | nil =>
    simp only [nextTarget]
    split
    · rename_i h; exact fun _ => h
    · exact fun h => by cases h
  | cons t rest => exact fun h => by cases h

theorem nextTarget_ne_idle (rest : List ℕ) : (nextTarget .block rest : SendPc G) ≠ .idle := by
  cases rest <;> simp [nextTarget]

theorem OnCourse.setSend (h : srv.OnCourse cfg s) {pc : SendPc G}
    (hahead : ∀ t ∈ pc.ahead, t ∈ peerIds cfg.serverCount s)
    (hidle : ch = .block → pc = .idle → srv.pbSyncQueue = [])
    (hsync : pc.syncing = true → ch = .block) : (srv.setSend ch pc).OnCourse cfg s where
  ahead ch' t ht := by
    by_cases hch : ch' = ch
    · subst hch
      rw [setSend_send] at ht
      exact hahead t ht
    · rw [send_setSend_ne hch] at ht
      exact h.ahead ch' t ht
  idle hpc := by
    by_cases hch : ch = .block
    · subst hch
      rw [setSend_send] at hpc
      exact hidle rfl hpc
    · rw [setSend_send_ne _ hch] at hpc
      exact h.idle hpc
  syncing ch' hpc := by
    by_cases hch : ch' = ch
    · subst hch
      rw [setSend_send] at hpc
      exact hsync hpc
    · rw [send_setSend_ne hch] at hpc
      exact h.syncing ch' hpc

theorem OnCourse.same (h : srv.OnCourse cfg s) (hsend : srv'.send = srv.send)
    (hsync : srv'.pbSyncQueue = srv.pbSyncQueue) : srv'.OnCourse cfg s where
  ahead := by rw [hsend]; exact h.ahead
  idle := by rw [hsend, hsync]; exact h.idle
  syncing := by rw [hsend]; exact h.syncing

theorem OnCourse.acts (h : srv.OnCourse cfg s) {sa : ServerAction} {out : Option (ℕ × Rpc G)}
    (hact : srv.Acts cfg merge s sa srv' out) : srv'.OnCourse cfg s := by
  cases hact with
  | sendStart ch hpc =>
    refine h.setSend (fun t ht => ?_) (fun hch he => ?_) (syncing_nextTarget ch _)
    · rwa [ahead_nextTarget] at ht
    · subst hch
      exact absurd he (nextTarget_ne_idle _)
  | sendPop ch t items ids rest srv₁ item ids' hpc hpop =>
    have hsame : srv₁.OnCourse cfg s := by cases hpop <;> exact h.same rfl rfl
    refine hsame.setSend (fun t' ht => ?_) (fun _ he => by cases he) (fun he => by cases he)
    exact h.ahead ch t' (by rw [hpc]; exact ht)
  | sendSkip ch t ids rest hpc =>
    refine h.setSend (fun t' ht => ?_) (fun hch he => ?_) (syncing_nextTarget ch _)
    · rw [ahead_nextTarget] at ht
      exact h.ahead ch t' (by rw [hpc]; exact List.mem_cons_of_mem _ ht)
    · subst hch
      exact absurd he (nextTarget_ne_idle _)
  | sendGo ch t items ids rest hpc _ =>
    refine h.setSend (fun t' ht => ?_) (fun _ he => by cases he) (fun he => by cases he)
    exact h.ahead ch t' (by rw [hpc]; exact List.mem_cons_of_mem _ ht)
  | syncIdle hpc hq => exact h.setSend (fun t ht => by cases ht) (fun _ _ => hq) (fun he => by cases he)
  | syncPop id q hpc hq =>
    have hsame : ({ srv with pbSyncQueue := q } : Server G).OnCourse cfg s :=
      { h with idle := fun he => by rw [hpc] at he; cases he }
    exact hsame.setSend (fun t ht => by cases ht) (fun _ he => by cases he) fun _ => rfl
  | syncSend id t rest hpc =>
    exact h.setSend (fun t ht => by cases ht) (fun _ he => by cases he) fun _ => rfl
  | syncLabel id hpc =>
    have hsame : ({ srv with pbSyncLabels := srv.pbSyncLabels.insert id } : Server G).OnCourse cfg s :=
      h.same rfl rfl
    exact hsame.setSend (fun t ht => by cases ht) (fun _ he => by cases he) fun _ => rfl
  | reap id now => rcases reap_eq cfg srv id now with h' | ⟨-, h'⟩ <;> rw [h'] <;> exact h.same rfl rfl
  | _ => exact h.same rfl rfl

theorem OnCourse.moves (h : srv.OnCourse cfg s) (hm : srv.Moves cfg merge s srv') :
    srv'.OnCourse cfg s := by
  cases hm with
  | act a out hact => exact h.acts hact
  | handle now rpc rpc' hh => exact h.same hh.sameThreads.send hh.sameThreads.pbSyncQueue
  | resume ch hr =>
    rcases resumeSend_eq hr with ⟨t, ids, rest, hpc, rfl⟩ | ⟨id, t, rest, hpc, rfl⟩
    · have hne : ch = .block → srv.send .block ≠ .idle := by
        rintro rfl he
        rw [hpc] at he
        cases he
      have hsame : ({ srv with pbSyncQueue :=
          if ch = .block then srv.pbSyncQueue ++ ids else srv.pbSyncQueue } : Server G).OnCourse cfg s :=
        { h with
          idle := fun he => by
            have hch : ch ≠ .block := fun hch => hne hch he
            rw [if_neg hch]
            exact h.idle he }
      refine hsame.setSend (fun t' ht => ?_) (fun hch he => ?_) (syncing_nextTarget ch _)
      · rw [ahead_nextTarget] at ht
        exact h.ahead ch t' (by rw [hpc]; exact ht)
      · subst hch
        exact absurd he (nextTarget_ne_idle _)
    · have hch := h.syncing ch (by rw [hpc]; rfl)
      exact h.setSend (fun t ht => by cases ht) (fun _ he => by cases he) fun _ => hch

end Server

end TomChain
