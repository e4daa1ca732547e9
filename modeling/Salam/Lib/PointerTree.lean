import Mathlib.Algebra.Group.Nat.Defs
import Mathlib.Data.List.Perm.Basic
import Mathlib.Data.Nat.Notation

/-!
# Perfect binary trees of pointers

Every inner node points to one of its children, so that the tree points to a leaf; the leaves are numbered from the
left. A path can be turned to its leaf or away from it.

* `pointed_turnTo`, `pointed_turnAway_ne`: the leaf that is pointed to after a turn.
* `visits_perm`: turning away from the leaf that is pointed to, again and again, goes round all leaves.
-/

namespace Salam

/-- A tree of this height; a node says whether it points to the right. -/
inductive PointerTree : Nat → Type
  | leaf : PointerTree 0
  | node {h : Nat} (right : Bool) (l r : PointerTree h) : PointerTree (h + 1)

namespace PointerTree

variable {h n x : Nat} {dir : Bool → Bool}

/-- The leaf that the tree points to. -/
def pointed : {h : Nat} → PointerTree h → Nat
  | _, leaf => 0
  | _, node (h := h) right l r => if right then 2 ^ h + r.pointed else l.pointed

/-- Every node on the path to a leaf is set, by whether the path goes to the right. -/
def turn (dir : Bool → Bool) : {h : Nat} → PointerTree h → Nat → PointerTree h
  | _, leaf, _ => leaf
  | _, node (h := h) _ l r, x =>
    if x < 2 ^ h then node (dir false) (turn dir l x) r else node (dir true) l (turn dir r (x - 2 ^ h))

theorem pointed_lt (t : PointerTree h) : t.pointed < 2 ^ h := by
  induction t with
  | leaf => exact Nat.one_pos
  | node right l r ihl ihr =>
    rw [pointed, Nat.pow_succ]
    split <;> omega

theorem pointed_turnTo (t : PointerTree h) (hx : x < 2 ^ h) : (t.turn id x).pointed = x := by
  induction t generalizing x with
  | leaf =>
    rw [Nat.lt_one_iff.mp hx]
    rfl
  | node right l r ihl ihr =>
    rw [turn]
    split
    · rename_i hlow
      exact ihl hlow
    · rw [pointed, id, if_pos rfl, ihr (by omega)]
      omega

theorem pointed_turnAway_ne (t : PointerTree (h + 1)) (x : Nat) : (t.turn not x).pointed ≠ x := by
  cases t with
  | node right l r =>
    rw [turn]
    split
    · rename_i hlow
      rw [pointed, if_pos (by decide)]
      omega
    · rename_i hhigh
      have hl := l.pointed_lt
      rw [pointed, if_neg (by decide)]
      omega

/-! ## Going round -/

/-- The tree turns away from the leaf that it points to. -/
def next (t : PointerTree h) : PointerTree h := t.turn not t.pointed

/-- The leaves that are pointed to one after the other. -/
def visits : Nat → PointerTree h → List Nat
  | 0, _ => []
  | n + 1, t => t.pointed :: visits n t.next

theorem next_left (l r : PointerTree h) : (node false l r).next = node true l.next r := by
  rw [next, pointed, if_neg (by decide), turn, if_pos l.pointed_lt]
  rfl

theorem next_right (l r : PointerTree h) : (node true l r).next = node false l r.next := by
  rw [next, pointed, if_pos rfl, turn, if_neg (by omega), Nat.add_sub_cancel_left]
  rfl

/-- **The subtrees take turns**, so that each goes on as by itself. -/
theorem visits_node (right : Bool) (l r : PointerTree h) (n : Nat) :
    (visits (2 * n) (node right l r)).Perm (visits n l ++ (visits n r).map (2 ^ h + ·)) := by
  induction n generalizing l r with
  | zero => exact .refl _
  | succ n ih =>
    rw [show 2 * (n + 1) = 2 * n + 1 + 1 by omega]
    cases right with
    | false =>
      rw [visits, visits, next_left, next_right]
      have hrest := ((ih l.next r.next).cons (2 ^ h + r.pointed)).trans List.perm_middle.symm
      exact hrest.cons l.pointed
    | true =>
      rw [visits, visits, next_right, next_left]
      have hrest := ((ih l.next r.next).cons l.pointed).cons (2 ^ h + r.pointed)
      have hmiddle : ((2 ^ h + r.pointed) :: (visits (n + 1) l ++ (visits n r.next).map (2 ^ h + ·))).Perm
          (visits (n + 1) l ++ (2 ^ h + r.pointed) :: (visits n r.next).map (2 ^ h + ·)) := List.perm_middle.symm
      exact hrest.trans hmiddle

/-- **Every leaf is visited once** in as many visits as there are leaves. -/
theorem visits_perm (t : PointerTree h) : (visits (2 ^ h) t).Perm (List.range (2 ^ h)) := by
  induction t with
  | leaf => exact .refl _
  | @node h right l r ihl ihr =>
    rw [Nat.pow_succ, Nat.mul_comm, Nat.two_mul, List.range_add, ← Nat.two_mul]
    exact (visits_node right l r _).trans (ihl.append (ihr.map _))

end PointerTree

end Salam
