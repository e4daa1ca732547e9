import Mathlib.Data.List.Nodup
import Mathlib.Logic.Function.Basic

/-!
# Doubly linked lists

Elements linked by two partial functions `next` and `prev`. `Seg next prev p l q` says that the links of the elements of
`l` lead through `l` in both directions, with `p` before it and `q` after it.

* `seg_append`: a segment is made of its parts.
* `Seg.remove`: an element is taken out by linking its neighbours.
* `Seg.pushFront`, `Seg.pushBack`: an element that is not in a list is put at one of its ends.
-/

namespace Salam.LinkedList

open Function (update_of_ne update_self update)

variable {α : Type*}

/-- The links of `l`, between `p` and `q`. -/
def Seg (next prev : α → Option α) : Option α → List α → Option α → Prop
  | _, [], _ => True
  | p, x :: xs, q => prev x = p ∧ next x = xs.head?.or q ∧ Seg next prev (some x) xs q

section Seg

variable {next prev next' prev' : α → Option α} {p q : Option α} {l : List α} {x : α}

theorem seg_append {xs ys : List α} : Seg next prev p (xs ++ ys) q ↔
    Seg next prev p xs (ys.head?.or q) ∧ Seg next prev (xs.getLast?.or p) ys q := by
  induction xs generalizing p with
  | nil => simp [Seg]
  | cons x xs ih =>
    have hlast : (x :: xs).getLast?.or p = xs.getLast?.or (some x) := by
      cases xs with
      | nil => rfl
      | cons y ys => simp [List.getLast?_cons]
    rw [List.cons_append, Seg, Seg, ih, List.head?_append, Option.or_assoc, hlast]
    simp only [and_assoc]

theorem Seg.congr (h : Seg next prev p l q) (heq : ∀ y ∈ l, next' y = next y ∧ prev' y = prev y) :
    Seg next' prev' p l q := by
  induction l generalizing p with
  | nil => trivial
  | cons x xs ih =>
    obtain ⟨hp, hn, hs⟩ := h
    obtain ⟨hnx, hpx⟩ := heq x List.mem_cons_self
    exact ⟨hpx.trans hp, hnx.trans hn, ih hs fun y hy => heq y (List.mem_cons_of_mem _ hy)⟩

theorem Seg.links {xs ys : List α} (h : Seg next prev p (xs ++ x :: ys) q) :
    prev x = xs.getLast?.or p ∧ next x = ys.head?.or q := by
  obtain ⟨-, hp, hn, -⟩ := seg_append.mp h
  exact ⟨hp, hn⟩

/-- A list is linked if the links of its elements lead to the positions beside them. -/
theorem seg_of_getElem (h : ∀ i x, l[i]? = some x → prev x = (if i = 0 then p else l[i - 1]?) ∧ next x = l[i + 1]?) :
    Seg next prev p l none := by
  induction l generalizing p with
  | nil => trivial
  | cons x xs ih =>
    obtain ⟨hp, hn⟩ := h 0 x rfl
    refine ⟨hp, ?_, ih fun i y hy => ?_⟩
    · rw [hn, List.getElem?_cons_succ, ← List.head?_eq_getElem?, Option.or_none]
    · obtain ⟨hpy, hny⟩ := h (i + 1) y hy
      refine ⟨?_, hny⟩
      rw [hpy, if_neg (Nat.succ_ne_zero i), Nat.add_sub_cancel]
      cases i with
      | zero => rfl
      | succ i => rfl

/-- The links of the element at a position. -/
theorem Seg.getElem {i : Nat} (h : Seg next prev none l none) (hi : l[i]? = some x) :
    prev x = (if i = 0 then none else l[i - 1]?) ∧ next x = l[i + 1]? := by
  obtain ⟨hlt, hx⟩ := List.getElem?_eq_some_iff.mp hi
  have hsplit : l = l.take i ++ x :: l.drop (i + 1) := by
    rw [← hx, List.getElem_cons_drop, List.take_append_drop]
  rw [hsplit] at h
  obtain ⟨hp, hn⟩ := h.links
  constructor
  · rw [hp, Option.or_none]
    split
    · rename_i hzero
      simp [hzero]
    · rw [List.getLast?_eq_getElem?, List.getElem?_take, List.length_take, Nat.min_eq_left (Nat.le_of_lt hlt),
        if_pos (by omega)]
  · rw [hn, Option.or_none, List.head?_drop]

theorem Seg.setNext [DecidableEq α] (h : Seg next prev p (l ++ [x]) q) (hx : x ∉ l) (q' : Option α) :
    Seg (update next x q') prev p (l ++ [x]) q' := by
  obtain ⟨hl, hp, -, -⟩ := seg_append.mp h
  refine seg_append.mpr ⟨hl.congr fun y hy => ⟨update_of_ne (ne_of_mem_of_not_mem hy hx) _ _, rfl⟩, hp, ?_, trivial⟩
  simp

theorem Seg.setPrev [DecidableEq α] (h : Seg next prev p (x :: l) q) (hx : x ∉ l) (p' : Option α) :
    Seg next (update prev x p') p' (x :: l) q := by
  obtain ⟨-, hn, hs⟩ := h
  exact ⟨update_self _ _ _, hn,
    hs.congr fun y hy => ⟨rfl, update_of_ne (ne_of_mem_of_not_mem hy hx) _ _⟩⟩

section Update

variable [DecidableEq α] {ys : List α}

theorem Seg.update_next (h : Seg next prev p l q) (hx : x ∉ l) (v : Option α) : Seg (update next x v) prev p l q :=
  h.congr fun _ hy => ⟨update_of_ne (ne_of_mem_of_not_mem hy hx) _ _, rfl⟩

theorem Seg.update_prev (h : Seg next prev p l q) (hx : x ∉ l) (v : Option α) : Seg next (update prev x v) p l q :=
  h.congr fun _ hy => ⟨rfl, update_of_ne (ne_of_mem_of_not_mem hy hx) _ _⟩

/-- **An element between two others is taken out.** -/
theorem Seg.remove {a b : α} {xs ys : List α} (h : Seg next prev p (xs ++ a :: x :: b :: ys) q)
    (hnd : (xs ++ a :: x :: b :: ys).Nodup) :
    Seg (update next a (some b)) (update prev b (some a)) p (xs ++ a :: b :: ys) q := by
  have hsplit : xs ++ a :: x :: b :: ys = (xs ++ [a]) ++ [x] ++ (b :: ys) := by simp
  have hgoal : xs ++ a :: b :: ys = (xs ++ [a]) ++ (b :: ys) := by simp
  rw [hsplit] at h hnd
  obtain ⟨hfront, hback⟩ := seg_append.mp h
  have hfront := (seg_append.mp hfront).1
  obtain ⟨hnd₁, hnd₂, hdis⟩ := List.nodup_append.mp hnd
  have ha : a ∉ xs := by
    have := (List.nodup_append.mp (List.nodup_append.mp hnd₁).1).2.2
    intro hmem
    exact this a hmem a List.mem_cons_self rfl
  have hb : b ∉ xs ++ [a] := fun hmem => hdis b (List.mem_append_left _ hmem) b List.mem_cons_self rfl
  have hab : a ∉ b :: ys := fun hmem => hdis a (by simp) a hmem rfl
  rw [hgoal]
  apply seg_append.mpr
  constructor
  · exact (hfront.setNext ha _).update_prev hb _
  · have hlast : (xs ++ [a]).getLast?.or p = some a := by simp
    rw [hlast]
    exact (hback.setPrev (List.nodup_cons.mp hnd₂).1 _).update_next hab _

theorem Seg.removeLast {a : α} {xs : List α} (h : Seg next prev p (xs ++ [a, x]) q) (hnd : (xs ++ [a, x]).Nodup)
    (q' : Option α) : Seg (update next a q') prev p (xs ++ [a]) q' := by
  have hsplit : xs ++ [a, x] = (xs ++ [a]) ++ [x] := by simp
  rw [hsplit] at h hnd
  have ha : a ∉ xs := by
    have := (List.nodup_append.mp (List.nodup_append.mp hnd).1).2.2
    intro hmem
    exact this a hmem a List.mem_cons_self rfl
  exact (seg_append.mp h).1.setNext ha _

theorem Seg.removeFirst {b : α} (h : Seg next prev p (x :: b :: ys) q) (hnd : (x :: b :: ys).Nodup) (p' : Option α) :
    Seg next (update prev b p') p' (b :: ys) q :=
  h.2.2.setPrev (List.nodup_cons.mp (List.nodup_cons.mp hnd).2).1 _

/-- **An element is put at the front.** -/
theorem Seg.pushFront {y : α} (h : Seg next prev p (y :: ys) q) (hnd : (y :: ys).Nodup) (hx : x ∉ y :: ys) :
    Seg (update next x (some y)) (update (update prev x none) y (some x)) none (x :: y :: ys) q := by
  have hy := (List.nodup_cons.mp hnd).1
  have hxy : x ≠ y := fun h => hx (h ▸ List.mem_cons_self)
  refine ⟨?_, ?_, ?_⟩
  · rw [update_of_ne hxy, update_self]
  · rw [update_self]
    rfl
  · exact ((h.update_prev hx none).setPrev hy _).update_next hx _

/-- **An element is put at the back.** -/
theorem Seg.pushBack {y : α} (h : Seg next prev p (ys ++ [y]) q) (hnd : (ys ++ [y]).Nodup) (hx : x ∉ ys ++ [y]) :
    Seg (update (update next x none) y (some x)) (update prev x (some y)) p (ys ++ [y] ++ [x]) none := by
  have hy : y ∉ ys := by
    intro hmem
    exact (List.nodup_append.mp hnd).2.2 y hmem y List.mem_cons_self rfl
  have hxy : x ≠ y := fun h => hx (h ▸ by simp)
  refine seg_append.mpr ⟨((h.update_next hx none).setNext hy _).update_prev hx _, ?_, ?_, trivial⟩
  · simp
  · rw [update_of_ne hxy, update_self]
    rfl

end Update

end Seg

/-! ## Positions -/

section Positions

variable {as bs : List α} {x : α}

theorem getElem?_skip {i : Nat} (h : as.length ≤ i) : (as ++ bs)[i]? = (as ++ x :: bs)[i + 1]? := by
  rw [List.getElem?_append_right h, List.getElem?_append_right (by omega), Nat.sub_add_comm h, List.getElem?_cons_succ]

/-- The positions after the element behind `as` is put at the front. -/
theorem getElem?_front (i : Nat) :
    (x :: (as ++ bs))[i]? =
      if i = 0 then some x else if i ≤ as.length then (as ++ x :: bs)[i - 1]? else (as ++ x :: bs)[i]? := by
  cases i with
  | zero => rfl
  | succ i =>
    rw [List.getElem?_cons_succ, if_neg (by omega), Nat.add_sub_cancel]
    by_cases hi : i + 1 ≤ as.length
    · rw [if_pos hi, List.getElem?_append_left (by omega), List.getElem?_append_left (by omega)]
    · rw [if_neg hi, getElem?_skip (by omega)]

/-- The positions after the element behind `as` is put at the back. -/
theorem getElem?_back (i : Nat) (hi : i < as.length + bs.length) :
    (as ++ bs ++ [x])[i]? = if i < as.length then (as ++ x :: bs)[i]? else (as ++ x :: bs)[i + 1]? := by
  rw [List.getElem?_append_left (by rw [List.length_append]; exact hi)]
  by_cases h : i < as.length
  · rw [if_pos h, List.getElem?_append_left h, List.getElem?_append_left h]
  · rw [if_neg h, getElem?_skip (by omega)]

theorem getElem?_back_last : (as ++ bs ++ [x])[as.length + bs.length]? = some x := by
  rw [← List.length_append, List.getElem?_concat_length]

end Positions

end Salam.LinkedList
