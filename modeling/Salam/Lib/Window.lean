import Mathlib.Algebra.Order.Group.Nat
import Mathlib.Data.List.Basic

/-!
# Windows over a growing list

A list of ticks that grows at its end. `recent n pad l` has its last `n` elements, the newest first, padded to the
length `n`: what is kept of the list by something that forgets the oldest element whenever it records one.
`Spaced n x l` says that an element is at least `x` above the one `n` places before it (and above all those before that
one).
-/

namespace Salam.Window

section Recent

variable {α : Type*} {n : Nat} {pad t : α} {l : List α}

def recent (n : Nat) (pad : α) (l : List α) : List α := (l.reverse ++ List.replicate n pad).take n

theorem recent_nil : recent n pad [] = List.replicate n pad := by
  rw [recent, List.reverse_nil, List.nil_append, List.take_of_length_le]
  exact (List.length_replicate).le

theorem length_recent : (recent n pad l).length = n := by
  rw [recent, List.length_take, List.length_append, List.length_replicate]
  omega

/-- The newest element is recorded and the oldest one is forgotten. -/
theorem recent_push (hn : 0 < n) : recent n pad (l ++ [t]) = t :: (recent n pad l).dropLast := by
  obtain ⟨k, rfl⟩ := Nat.exists_eq_succ_of_ne_zero hn.ne'
  rw [List.dropLast_eq_take, length_recent, recent, List.reverse_concat, List.cons_append, List.take_succ_cons, recent,
    List.take_take, Nat.succ_sub_one, min_eq_left (Nat.le_succ k)]

theorem getLast?_recent (hn : 0 < n) : (recent n pad l).getLast? = some ((l.reverse[n - 1]?).getD pad) := by
  rw [List.getLast?_eq_getElem?, length_recent, recent, List.getElem?_take_of_lt (by omega)]
  by_cases hlt : n - 1 < l.reverse.length
  · rw [List.getElem?_append_left hlt, List.getElem?_eq_getElem hlt]
    rfl
  · have hnone : l.reverse[n - 1]? = none := List.getElem?_eq_none (not_lt.mp hlt)
    rw [List.getElem?_append_right (not_lt.mp hlt), List.getElem?_replicate, if_pos (by omega), hnone]
    rfl

theorem getElem?_reverse_pred (hn : 0 < n) (i : Nat) (hi : i + n = l.length) : l.reverse[n - 1]? = l[i]? := by
  rw [List.getElem?_reverse (by omega)]
  congr 1
  omega

end Recent

/-! ## Spacing -/

def Spaced (n x : Nat) (l : List Nat) : Prop := ∀ i j u v, i + n ≤ j → l[i]? = some u → l[j]? = some v → u + x ≤ v

/-- All of the list but its last `n` elements are `x` below `t`. -/
def Below (n x t : Nat) (l : List Nat) : Prop := ∀ i u, i + n ≤ l.length → l[i]? = some u → u + x ≤ t

section Spaced

variable {n x t t' : Nat} {l : List Nat}

theorem Spaced.push (h : Spaced n x l) (ht : Below n x t l) (hn : 0 < n) : Spaced n x (l ++ [t]) := by
  intro i j u v hij hu hv
  have hj : j < (l ++ [t]).length := (List.getElem?_eq_some_iff.mp hv).1
  rw [List.length_append, List.length_singleton] at hj
  rw [List.getElem?_append_left (by omega)] at hu
  by_cases hlast : j < l.length
  · rw [List.getElem?_append_left hlast] at hv
    exact h i j u v hij hu hv
  · obtain rfl : j = l.length := by omega
    rw [List.getElem?_concat_length] at hv
    rw [← Option.some.inj hv]
    exact ht i u hij hu

theorem Below.mono (h : Below n x t l) (hle : t ≤ t') : Below n x t' l := fun i u hi hu => (h i u hi hu).trans hle

/-- What the next element has to be above, when one is added: the oldest one that is then in the window. -/
theorem Below.push (h : Below n x t' l) (hn : 0 < n)
    (hback : ∀ u, (l ++ [t]).reverse[n - 1]? = some u → u + x ≤ t') : Below n x t' (l ++ [t]) := by
  intro i u hi hu
  rw [List.length_append, List.length_singleton] at hi
  by_cases hle : i + n ≤ l.length
  · rw [List.getElem?_append_left (by omega)] at hu
    exact h i u hle hu
  · refine hback u ?_
    rw [getElem?_reverse_pred hn i (by rw [List.length_append, List.length_singleton]; omega)]
    exact hu

theorem Below.oldest (h : Below n x t l) (hn : 0 < n) {u : Nat} (hu : l.reverse[n - 1]? = some u) : u + x ≤ t := by
  have hlt := (List.getElem?_eq_some_iff.mp hu).1
  rw [List.length_reverse] at hlt
  have hi : l.length - n + n = l.length := by omega
  rw [getElem?_reverse_pred hn _ hi] at hu
  exact h _ u hi.le hu

theorem Below.nil (hn : 0 < n) : Below n x t [] := fun i u hi _ => by
  rw [List.length_nil] at hi
  omega

theorem Spaced.nil : Spaced n x [] := fun _ _ _ _ _ hu => by
  cases hu

end Spaced

end Salam.Window
