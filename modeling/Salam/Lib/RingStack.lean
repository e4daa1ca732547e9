import Mathlib.Data.List.Basic
import Mathlib.Logic.Function.Basic

/-!
# Stacks in a ring

A bounded stack that lives in the cells of a ring of `N`, above a bottom that stays where it is: element `k` from the
bottom is in `slot N bottom k`. `Repr` says that a ring with top index `tos` has a stack; the cells that are not in the
stack keep what they had, and may be overwritten.
-/

namespace Salam.RingStack

variable {α : Type*} {N bottom tos k : Nat} {cells : Nat → α} {stack : List α} {a : α}

/-- The cell of the element that is the `k`-th from the bottom. -/
def slot (N bottom k : Nat) : Nat := if bottom + k < N then bottom + k else bottom + k - N

/-- The next index of the ring. -/
def incr (N tos : Nat) : Nat := if tos + 1 = N then 0 else tos + 1

/-- The previous index of the ring. -/
def decr (N tos : Nat) : Nat := if tos = 0 then N - 1 else tos - 1

theorem incr_lt (h : tos < N) : incr N tos < N := by
  rw [incr]
  split <;> omega

theorem decr_lt (h : tos < N) : decr N tos < N := by
  rw [decr]
  split <;> omega

/-- The newest `d` elements, from the top. -/
def live (N tos : Nat) (cells : Nat → α) (d : Nat) : List α :=
  (List.range d).map fun i => cells (if i ≤ tos then tos - i else tos + N - i)

structure Repr (N bottom tos : Nat) (cells : Nat → α) (stack : List α) : Prop where
  length : stack.length ≤ N
  inRing : 0 < N → bottom < N
  top : tos = slot N bottom stack.length
  entries : ∀ i (h : i < stack.length), cells (slot N bottom (stack.length - i)) = stack[i]

/-- An index inside the ring is the top of the elements below it. -/
theorem repr_live (cells : Nat → α) {d : Nat} (htos : 0 < N → tos < N) (hd : d ≤ N) :
    ∃ bottom, Repr N bottom tos cells (live N tos cells d) := by
  have hlen : (live N tos cells d).length = d := by rw [live, List.length_map, List.length_range]
  refine ⟨if d ≤ tos then tos - d else tos + N - d, hlen.symm ▸ hd, fun hN => ?_, ?_, fun i hi => ?_⟩
  · have := htos hN
    split <;> omega
  · rw [hlen, slot]
    by_cases hN : 0 < N
    · have := htos hN
      split <;> split <;> omega
    · split <;> split <;> omega
  · rw [hlen] at hi ⊢
    simp only [live, List.getElem_map, List.getElem_range]
    congr 1
    rw [slot]
    split <;> split <;> split <;> omega

namespace Repr

theorem live_eq (h : Repr N bottom tos cells stack) : live N tos cells stack.length = stack := by
  refine List.ext_getElem (by rw [live, List.length_map, List.length_range]) fun i hi hi' => ?_
  rw [← h.entries i hi']
  simp only [live, List.getElem_map, List.getElem_range]
  have hN := h.length
  have htop := h.top
  congr 1
  rw [htop, slot, slot]
  split <;> split <;> split <;> omega

theorem head (h : Repr N bottom tos cells (a :: stack)) : cells tos = a := by
  rw [h.top]
  exact h.entries 0 (Nat.succ_pos _)

theorem push (h : Repr N bottom tos cells stack) (hlen : stack.length + 1 ≤ N) (a : α) :
    Repr N bottom (incr N tos) (Function.update cells (incr N tos) a) (a :: stack) := by
  have hbottom := h.inRing (by omega)
  have htop : incr N tos = slot N bottom (stack.length + 1) := by
    rw [h.top, incr, slot, slot]
    split <;> split <;> split <;> omega
  refine ⟨hlen, h.inRing, htop, fun i hi => ?_⟩
  cases i with
  | zero =>
    rw [htop]
    exact Function.update_self ..
  | succ i =>
    have hi' : i < stack.length := Nat.lt_of_succ_lt_succ hi
    have hne : slot N bottom ((a :: stack).length - (i + 1)) ≠ incr N tos := by
      rw [htop, List.length_cons, slot, slot]
      split <;> split <;> omega
    rw [Function.update_of_ne hne, List.length_cons, Nat.add_sub_add_right, List.getElem_cons_succ]
    exact h.entries i hi'

theorem pop (h : Repr N bottom tos cells (a :: stack)) : Repr N bottom (decr N tos) cells stack := by
  have hlen := h.length
  rw [List.length_cons] at hlen
  refine ⟨Nat.le_of_succ_le hlen, h.inRing, ?_, fun i hi => ?_⟩
  · rw [h.top, List.length_cons, decr, slot, slot]
    split <;> split <;> split <;> omega
  · rw [← List.getElem_cons_succ a stack i (Nat.succ_lt_succ hi), ← h.entries (i + 1) (Nat.succ_lt_succ hi),
      List.length_cons, Nat.add_sub_add_right]

/-- The element that was popped is put back. -/
theorem restore (h : Repr N bottom tos cells stack) (hlen : stack.length + 1 ≤ N) (a : α) :
    Repr N bottom (slot N bottom (stack.length + 1)) (Function.update cells (slot N bottom (stack.length + 1)) a)
      (a :: stack) := by
  have hpush := h.push hlen a
  have htop : incr N tos = slot N bottom (stack.length + 1) := hpush.top
  rw [htop] at hpush
  exact hpush

end Repr

end Salam.RingStack
