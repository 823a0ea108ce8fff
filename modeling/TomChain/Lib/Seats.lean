import Mathlib.Data.Finset.Card
import Mathlib.Data.Nat.ModEq

/-!
# Seats at a round table

The places `1 .. n` of a round table. Numbered guests take them in turn, and each seat has a next
one. A seat and the next form a pair, of one member if the table has a single seat.
-/

namespace TomChain

/-- A place at a round table for `n`. -/
structure Seat (n : ℕ) where
  val : ℕ
  one_le : 1 ≤ val
  le : val ≤ n

namespace Seat

variable {n : ℕ}

def deal (hn : 1 ≤ n) (x : ℕ) : Seat n :=
  ⟨x % n + 1, Nat.le_add_left 1 _, Nat.mod_lt x hn⟩

/-- The next seat; the first one follows the last. -/
def next (p : Seat n) : Seat n where
  val := if p.val = n then 1 else p.val + 1
  one_le := by split <;> omega
  le := by
    have h1 := p.one_le
    have h2 := p.le
    split <;> omega

def pair (p : Seat n) : Finset ℕ := {p.val, p.next.val}

theorem deal_val (hn : 1 ≤ n) (x : ℕ) : (deal hn x).val = x % n + 1 := rfl

theorem deal_congr (hn : 1 ≤ n) {x y : ℕ} (h : x ≡ y [MOD n]) : deal hn x = deal hn y := by
  simp only [deal, Seat.mk.injEq]
  rw [h]

theorem next_val (p : Seat n) : p.next.val = if p.val = n then 1 else p.val + 1 := rfl

/-- The wrap test on the number after the seat's. -/
theorem next_val_of_gt (p : Seat n) :
    p.next.val = if p.val + 1 > n then 1 else p.val + 1 := by
  have hle := p.le
  have hiff : p.val = n ↔ p.val + 1 > n := by omega
  simp only [next_val, hiff]

theorem next_val_ne (p : Seat n) (hn : 2 ≤ n) : p.next.val ≠ p.val := by
  rw [next_val]
  split <;> omega

theorem mem_pair {p : Seat n} {t : ℕ} : t ∈ p.pair ↔ t = p.val ∨ t = p.next.val := by
  rw [pair, Finset.mem_insert, Finset.mem_singleton]

theorem range_of_mem_pair {p : Seat n} {t : ℕ} (h : t ∈ p.pair) : 1 ≤ t ∧ t ≤ n := by
  rcases mem_pair.mp h with rfl | rfl
  · exact ⟨p.one_le, p.le⟩
  · exact ⟨p.next.one_le, p.next.le⟩

theorem card_pair (p : Seat n) : p.pair.card = min 2 n := by
  have h1 := p.one_le
  have h2 := p.le
  by_cases hn : 2 ≤ n
  · rw [pair, Finset.card_pair (p.next_val_ne hn).symm, min_eq_left hn]
  · have hone : n = 1 := by omega
    have hval : p.val = n := by omega
    have hnext : p.next.val = p.val := by
      rw [next_val, if_pos hval]
      omega
    rw [pair, hnext, Finset.pair_eq_singleton, Finset.card_singleton, hone]
    rfl

end Seat

end TomChain
