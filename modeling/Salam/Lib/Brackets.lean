import Mathlib.Data.List.Basic
import Mathlib.Order.Basic

/-!
# Balanced brackets

Lists in which one element opens a bracket and another closes it, told by their numbers in every prefix.

* `Closes`: the position that closes the bracket that a list starts with.
* `Closes.shortest`: up to there, the list is the shortest balanced prefix.
-/

namespace Salam.Brackets

variable {α : Type*} [DecidableEq α] {o c : α} {s : List α}

/-- No prefix closes more brackets than it opens, and all are closed. -/
def Balanced (o c : α) (s : List α) : Prop := (∀ p, p <+: s → p.count c ≤ p.count o) ∧ s.count c = s.count o

/-- The shortest prefix that is not empty and balanced. -/
def Shortest (o c : α) (s p : List α) : Prop :=
  p <+: s ∧ p ≠ [] ∧ Balanced o c p ∧ ∀ q, q <+: s → q ≠ [] → Balanced o c q → p.length ≤ q.length

/-- The bracket at the start is closed at `r`: until there, more brackets have been opened than closed. -/
structure Closes (o c : α) (s : List α) (r : Nat) : Prop where
  lt : r < s.length
  open_before : ∀ n, 0 < n → n ≤ r → (s.take n).count c < (s.take n).count o
  closed : (s.take (r + 1)).count c = (s.take (r + 1)).count o

theorem balanced_of_take (h : ∀ n ≤ s.length, (s.take n).count c ≤ (s.take n).count o) (hall : s.count c = s.count o) :
    Balanced o c s := by
  refine ⟨fun p hp => ?_, hall⟩
  have hle := h p.length hp.length_le
  rwa [← List.prefix_iff_eq_take.mp hp] at hle

theorem count_take_succ {n : Nat} {a : α} (h : s[n]? = some a) (b : α) :
    (s.take (n + 1)).count b = (s.take n).count b + if a = b then 1 else 0 := by
  rw [List.take_add_one, h, List.count_append, Option.toList_some, List.count_singleton]
  simp only [beq_iff_eq]

theorem count_take_le {m n : Nat} (h : m ≤ n) (s : List α) (b : α) : (s.take m).count b ≤ (s.take n).count b :=
  (List.take_sublist_take_left h).count_le b

/-- **Up to the closing bracket, the list is the shortest balanced prefix.** -/
theorem Closes.shortest {r : Nat} (h : Closes o c s r) : Shortest o c s (s.take (r + 1)) := by
  have hlen : (s.take (r + 1)).length = r + 1 := List.length_take_of_le h.lt
  refine ⟨List.take_prefix _ _, ?_, balanced_of_take (fun n hn => ?_) h.closed, fun q hq hne hbalanced => ?_⟩
  · intro he
    rw [he] at hlen
    cases hlen
  · rw [hlen] at hn
    rw [List.take_take, Nat.min_eq_left hn]
    rcases Nat.eq_zero_or_pos n with rfl | hpos
    · exact Nat.le_refl _
    · rcases Nat.lt_or_ge r n with hlt | hle
      · rw [Nat.le_antisymm hn hlt]
        exact Nat.le_of_eq h.closed
      · exact Nat.le_of_lt (h.open_before n hpos hle)
  · rw [hlen]
    by_contra hlt
    have hpos : 0 < q.length := List.length_pos_iff.mpr hne
    have hopen := h.open_before q.length hpos (by omega)
    rw [← List.prefix_iff_eq_take.mp hq, hbalanced.2] at hopen
    exact absurd hopen (Nat.lt_irrefl _)

/-- There is only one shortest balanced prefix. -/
theorem Shortest.unique {p q : List α} (hp : Shortest o c s p) (hq : Shortest o c s q) : p = q := by
  have hle := hp.2.2.2 q hq.1 hq.2.1 hq.2.2.1
  have hge := hq.2.2.2 p hp.1 hp.2.1 hp.2.2.1
  exact (List.prefix_of_prefix_length_le hp.1 hq.1 hle).eq_of_length (Nat.le_antisymm hle hge)

/-- The end of a balanced list closes as many brackets as it opens, or more. -/
theorem Balanced.suffix {l : List α} (h : Balanced o c l) (hs : s <:+ l) : s.count o ≤ s.count c := by
  obtain ⟨u, rfl⟩ := hs
  have hu := h.1 u (List.prefix_append u s)
  have hall := h.2
  rw [List.count_append, List.count_append] at hall
  omega

end Salam.Brackets
