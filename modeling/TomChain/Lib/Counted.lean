import Mathlib.Data.Nat.Notation

/-!
# Counted loops over words

`for (uint64_t i = 0; i < count; i++)` on a state of any type. The counter does not wrap before
it reaches `count`, so the body runs `count` times and what every round keeps holds after them.
-/

namespace TomChain

variable {σ : Type}

theorem toNat_add_one {i count : UInt64} (h : i < count) : (i + 1).toNat = i.toNat + 1 := by
  have hlt : i.toNat < count.toNat := UInt64.lt_iff_toNat_lt.mp h
  have hcount := count.toNat_lt
  rw [UInt64.toNat_add, UInt64.toNat_one]
  omega

def forFrom (count : UInt64) (body : UInt64 → σ → σ) (i : UInt64) (state : σ) : σ :=
  if i < count then forFrom count body (i + 1) (body i state) else state
termination_by count.toNat - i.toNat
decreasing_by
  have hlt : i.toNat < count.toNat := UInt64.lt_iff_toNat_lt.mp ‹_›
  rw [toNat_add_one ‹_›]
  omega

def forUpto (count : UInt64) (body : UInt64 → σ → σ) (state : σ) : σ := forFrom count body 0 state

theorem forFrom_keeps {count : UInt64} {body : UInt64 → σ → σ} (P : ℕ → σ → Prop)
    (hstep : ∀ i < count, ∀ state, P i.toNat state → P (i.toNat + 1) (body i state))
    (i : UInt64) (state : σ) (hle : i.toNat ≤ count.toNat) (h : P i.toNat state) :
    P count.toNat (forFrom count body i state) := by
  induction i, state using forFrom.induct count body with
  | case1 i state hlt ih =>
    have hi := toNat_add_one hlt
    have hlt' : i.toNat < count.toNat := UInt64.lt_iff_toNat_lt.mp hlt
    rw [forFrom, if_pos hlt]
    apply ih
    · omega
    · rw [hi]
      exact hstep i hlt state h
  | case2 i state hlt =>
    have hge : ¬ i.toNat < count.toNat := fun h => hlt (UInt64.lt_iff_toNat_lt.mpr h)
    have heq : i.toNat = count.toNat := by omega
    rw [forFrom, if_neg hlt, ← heq]
    exact h

/-- The rule of the loop: what holds before the first round and is kept by every round. -/
theorem forUpto_keeps {count : UInt64} {body : UInt64 → σ → σ} (P : ℕ → σ → Prop) {state : σ}
    (h0 : P 0 state)
    (hstep : ∀ i < count, ∀ state, P i.toNat state → P (i.toNat + 1) (body i state)) :
    P count.toNat (forUpto count body state) :=
  forFrom_keeps P hstep 0 state (Nat.zero_le _) h0

end TomChain
