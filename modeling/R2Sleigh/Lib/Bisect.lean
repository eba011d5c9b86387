import Mathlib.Tactic.Common

/-!
Contract: binary search on a closed range whose bounds stop at both ends.

Owns `Window`, `Around` and `Stuck`.

Below the threshold a probe moves the lower bound up, and from it on the upper bound
down. The bounds saturate at 0 and at `top`.
-/

namespace R2Sleigh.Lib.Bisect

structure Window where
  lo : Nat
  hi : Nat

namespace Window

def mid (w : Window) : Nat := w.lo + (w.hi - w.lo) / 2

def next (top : Nat) (down : Bool) (w : Window) : Window :=
  if down then { w with hi := w.mid - 1 } else { w with lo := min (w.mid + 1) top }

/-- How many places are left. -/
def span (w : Window) : Nat := w.hi + 1 - w.lo

theorem mid_mem {w : Window} (isOpen : w.lo ≤ w.hi) : w.lo ≤ w.mid ∧ w.mid ≤ w.hi := by
  unfold mid
  omega

end Window

/-- The threshold is in the window or right after it. -/
structure Around (threshold : Nat) (w : Window) : Prop where
  lo_le : w.lo ≤ threshold
  le_hi : threshold ≤ w.hi + 1

namespace Around

variable {top threshold : Nat} {w : Window}

theorem next (positive : 0 < threshold) (reachable : threshold ≤ top) (around : Around threshold w)
    (isOpen : w.lo ≤ w.hi) : Around threshold (w.next top (decide (threshold ≤ w.mid))) ∧
      (w.next top (decide (threshold ≤ w.mid))).span < w.span := by
  obtain ⟨lo_le, le_hi⟩ := around
  obtain ⟨lo_mid, mid_hi⟩ := Window.mid_mem isOpen
  unfold Window.next Window.span
  by_cases down : threshold ≤ w.mid
  · rw [if_pos (decide_eq_true down)]
    exact ⟨⟨lo_le, by dsimp only; omega⟩, by dsimp only; omega⟩
  · rw [if_neg (by simpa using down)]
    have room : min (w.mid + 1) top = w.mid + 1 := by omega
    exact ⟨⟨by dsimp only; omega, le_hi⟩, by dsimp only; omega⟩

theorem closed (around : Around threshold w) (isClosed : w.hi < w.lo) :
    w.lo = threshold ∧ w.hi + 1 = threshold := by
  obtain ⟨lo_le, le_hi⟩ := around
  omega

end Around

/-- Nothing is below the threshold, or nothing up to `top` has reached it. -/
def Stuck (top threshold : Nat) (w : Window) : Prop :=
  threshold = 0 ∧ w.lo = 0 ∨ top < threshold ∧ w.lo ≤ top ∧ w.hi = top

namespace Stuck

variable {top threshold : Nat} {w : Window}

theorem isOpen (stuck : Stuck top threshold w) : w.lo ≤ w.hi := by
  rcases stuck with ⟨-, atStart⟩ | ⟨-, below, atEnd⟩ <;> omega

theorem next (stuck : Stuck top threshold w) :
    Stuck top threshold (w.next top (decide (threshold ≤ w.mid))) := by
  have inside := Window.mid_mem stuck.isOpen
  unfold Window.next
  rcases stuck with ⟨rfl, atStart⟩ | ⟨beyond, below, atEnd⟩
  · exact .inl ⟨rfl, atStart⟩
  · have notReached : ¬ threshold ≤ w.mid := by omega
    rw [if_neg (by simpa using notReached)]
    exact .inr ⟨beyond, Nat.min_le_right _ _, atEnd⟩

end Stuck

end R2Sleigh.Lib.Bisect
