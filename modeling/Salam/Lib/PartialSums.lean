import Mathlib.Algebra.Order.Group.Nat
import Mathlib.Data.Nat.Basic
import Mathlib.Tactic.Ring

/-!
# Partial sums over a binary tree

The natural numbers as the leaves of a binary tree: the node `j` of level `i` is above the leaves `k` with
`k / 2 ^ i = j`, and its children are the nodes `2 * j` and `2 * j + 1` of the level below. For a predicate on the
leaves, `below` counts those under a node, and `rightOf` collects, on the way up from a leaf, the counts of the right
siblings.

* `below_eq_countP`, `rightOf_root`: the sums as counts over ranges.
-/

namespace Salam

namespace PartialSums

theorem div_succ (k i : Nat) : k / 2 ^ (i + 1) = k / 2 ^ i / 2 := by rw [pow_succ, Nat.div_div_eq_div_mul]

theorem under_succ {k i j : Nat} : k / 2 ^ (i + 1) = j ↔ k / 2 ^ i = 2 * j ∨ k / 2 ^ i = 2 * j + 1 := by
  rw [div_succ]
  omega

/-- Every leaf under the node has `q`. -/
def All (q : Nat → Prop) (i j : Nat) : Prop := ∀ k, k / 2 ^ i = j → q k

theorem all_zero {q : Nat → Prop} {j : Nat} : All q 0 j ↔ q j := by simp [All]

theorem all_succ {q : Nat → Prop} {i j : Nat} : All q (i + 1) j ↔ All q i (2 * j) ∧ All q i (2 * j + 1) := by
  constructor
  · intro h
    exact ⟨fun k hk => h k (under_succ.mpr (.inl hk)), fun k hk => h k (under_succ.mpr (.inr hk))⟩
  · rintro ⟨h₁, h₂⟩ k hk
    exact (under_succ.mp hk).elim (h₁ k) (h₂ k)

/-- How many leaves with `p` are under the node. -/
def below (p : Nat → Bool) : Nat → Nat → Nat
  | 0, j => if p j then 1 else 0
  | i + 1, j => below p i (2 * j) + below p i (2 * j + 1)

variable {p q : Nat → Bool}

theorem below_congr : ∀ {i j : Nat}, All (fun k => p k = q k) i j → below p i j = below q i j
  | 0, j, h => by
    rw [all_zero] at h
    rw [below, below, h]
  | i + 1, j, h => by
    rw [all_succ] at h
    rw [below, below, below_congr h.1, below_congr h.2]

theorem below_eq_zero : ∀ {i j : Nat}, All (fun k => p k = false) i j → below p i j = 0
  | 0, j, h => by
    rw [all_zero] at h
    simp [below, h]
  | i + 1, j, h => by
    rw [all_succ] at h
    rw [below, below_eq_zero h.1, below_eq_zero h.2]

theorem below_le : ∀ i j : Nat, below p i j ≤ 2 ^ i
  | 0, j => by
    unfold below
    split <;> simp
  | i + 1, j => by
    have h₁ := below_le i (2 * j)
    have h₂ := below_le i (2 * j + 1)
    rw [below, pow_succ]
    omega

theorem below_eq_countP : ∀ i j : Nat, below p i j = (List.range' (j * 2 ^ i) (2 ^ i)).countP p
  | 0, j => by simp [below, List.countP_cons]
  | i + 1, j => by
    have hsplit : List.range' (j * 2 ^ (i + 1)) (2 ^ (i + 1)) =
        List.range' (2 * j * 2 ^ i) (2 ^ i) ++ List.range' ((2 * j + 1) * 2 ^ i) (2 ^ i) := by
      rw [show (2 * j + 1) * 2 ^ i = 2 * j * 2 ^ i + 2 ^ i by ring, List.range'_append_1,
        show j * 2 ^ (i + 1) = 2 * j * 2 ^ i by ring, show 2 ^ (i + 1) = 2 ^ i + 2 ^ i by ring]
    rw [below, hsplit, List.countP_append, below_eq_countP i, below_eq_countP i]

/-- The counts to the right of the leaf `k`, collected up to level `i`. -/
def rightOf (p : Nat → Bool) (k : Nat) : Nat → Nat
  | 0 => 0
  | i + 1 => rightOf p k i + if k / 2 ^ i % 2 = 0 then below p i (k / 2 ^ i + 1) else 0

theorem rightOf_eq_countP (k : Nat) : ∀ i : Nat,
    rightOf p k i = (List.range' (k + 1) ((k / 2 ^ i + 1) * 2 ^ i - (k + 1))).countP p
  | 0 => by simp [rightOf]
  | i + 1 => by
    have hlt : k < (k / 2 ^ i + 1) * 2 ^ i := by
      rw [mul_comm]
      exact Nat.lt_mul_div_succ k (Nat.two_pow_pos i)
    rw [rightOf, rightOf_eq_countP k i, div_succ]
    generalize k / 2 ^ i = c at *
    split
    · rename_i hc
      have hc₂ : (c / 2 + 1) * 2 ^ (i + 1) = (c + 1) * 2 ^ i + 2 ^ i := by
        obtain ⟨m, rfl⟩ : ∃ m, c = 2 * m := ⟨c / 2, by omega⟩
        rw [show 2 * m / 2 = m by omega]
        ring
      rw [below_eq_countP, ← List.countP_append, hc₂]
      obtain ⟨l, hl⟩ : ∃ l, (c + 1) * 2 ^ i = k + 1 + l := ⟨(c + 1) * 2 ^ i - (k + 1), by omega⟩
      rw [hl, Nat.add_sub_cancel_left, List.range'_append_1, Nat.add_assoc, Nat.add_sub_cancel_left]
    · rename_i hc
      have hc₂ : (c / 2 + 1) * 2 ^ (i + 1) = (c + 1) * 2 ^ i := by
        obtain ⟨m, rfl⟩ : ∃ m, c = 2 * m + 1 := ⟨c / 2, by omega⟩
        rw [show (2 * m + 1) / 2 = m by omega]
        ring
      rw [hc₂, Nat.add_zero]

theorem rightOf_le (k i : Nat) : rightOf p k i ≤ 2 ^ i := by
  have hle := Nat.div_mul_le_self k (2 ^ i)
  have hpos := Nat.two_pow_pos i
  rw [rightOf_eq_countP]
  refine List.countP_le_length.trans ?_
  rw [List.length_range', Nat.add_one_mul]
  omega

theorem rightOf_root {k d : Nat} (hk : k < 2 ^ d) :
    rightOf p k d = (List.range' (k + 1) (2 ^ d - (k + 1))).countP p := by
  rw [rightOf_eq_countP, Nat.div_eq_of_lt hk, Nat.zero_add, Nat.one_mul]

end PartialSums

end Salam
