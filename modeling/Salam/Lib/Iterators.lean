import Mathlib.Data.List.Perm.Basic
import Mathlib.Logic.Function.Basic

/-!
# Lists with iterators

A linked list whose elements have identities. An iterator is the `id` of an element; it stays valid while other elements
are inserted and erased, and dangles once its own element is erased, as ids are not used again. `Points` says that a
list holds every value once, and that the iterators that are stored for the values point at their elements.

* `Points.insert`, `Points.erase`: what inserting and erasing an element do to it.
-/

namespace Salam

open Function (update_of_ne update_self update)

/-- An element of a list. -/
structure Node (α : Type*) where
  id : Nat
  val : α
  deriving DecidableEq

namespace Node

variable {α : Type*}

/-- The values of a list. -/
def vals (l : List (Node α)) : List α := l.map (·.val)

/-- The list without the element of an iterator; nothing if the iterator dangles. -/
def erase (l : List (Node α)) (it : Nat) : Option (List (Node α)) :=
  if l.any fun n => n.id = it then some (l.filter fun n => n.id ≠ it) else none

/-- The value that an iterator points at. -/
def deref (l : List (Node α)) (it : Nat) : Option α := (l.find? fun n => n.id = it).map (·.val)

/-- Insert an element before the first one that meets `p`; nothing if there is none. -/
def insertBefore (p : Node α → Bool) (x : Node α) : List (Node α) → Option (List (Node α))
  | [] => none
  | n :: ns => if p n then some (x :: n :: ns) else (insertBefore p x ns).map (n :: ·)

/-- Move the element of `it` before that of `pos`, to the end if there is no `pos`. -/
def splice (l : List (Node α)) (pos : Option Nat) (it : Nat) : Option (List (Node α)) :=
  match l.find? fun n => n.id = it with
  | none => none
  | some n =>
    if pos = some it then some l
    else
      match pos with
      | none => some ((l.filter fun m => m.id ≠ it) ++ [n])
      | some p => insertBefore (fun m => m.id = p) n (l.filter fun m => m.id ≠ it)

theorem mem_of_splice {l l' : List (Node α)} {pos : Option Nat} {it : Nat} (h : splice l pos it = some l') :
    ∃ n ∈ l, n.id = it := by
  rw [splice] at h
  split at h
  · cases h
  · rename_i n hn
    exact ⟨n, List.mem_of_find?_eq_some hn, of_decide_eq_true (List.find?_some hn :)⟩

theorem insertBefore_perm {p : Node α → Bool} {x : Node α} {l l' : List (Node α)} (h : insertBefore p x l = some l') :
    l'.Perm (x :: l) := by
  induction l generalizing l' with
  | nil => cases h
  | cons n ns ih =>
    rw [insertBefore] at h
    split at h
    · cases h
      exact .refl _
    · obtain ⟨ns', hns, rfl⟩ := Option.map_eq_some_iff.mp h
      exact ((ih hns).cons n).trans (.swap x n ns)

theorem insertBefore_of_mem {p : Node α → Bool} {x n : Node α} {l : List (Node α)} (hp : p n = true) (h : n ∈ l) :
    ∃ l', insertBefore p x l = some l' := by
  induction l with
  | nil => cases h
  | cons m ms ih =>
    rw [insertBefore]
    split
    · exact ⟨_, rfl⟩
    · rename_i hm
      rcases List.mem_cons.mp h with rfl | h
      · exact absurd hp hm
      · obtain ⟨l', hl'⟩ := ih h
        exact ⟨m :: l', by rw [hl']; rfl⟩

/-- The list holds no value twice, the iterators of its values point at their elements, no other iterator points at an
element, and `next` has not been used as an id. -/
structure Points (l : List (Node α)) (iter : α → Nat) (next : Nat) : Prop where
  nodup : (vals l).Nodup
  stored : ∀ n ∈ l, iter n.val = n.id
  own : ∀ a, ∀ n ∈ l, iter a = n.id → n.val = a
  bound : ∀ a, iter a < next

section Points

variable {l l' : List (Node α)} {iter : α → Nat} {next : Nat} {a : α}

theorem vals_perm (h : l.Perm l') : (vals l).Perm (vals l') := h.map _

theorem mem_vals_cons {n : Node α} : a ∈ vals (n :: l) ↔ a = n.val ∨ a ∈ vals l := List.mem_cons

theorem Points.nil (h : ∀ a, iter a < next) : Points ([] : List (Node α)) iter next :=
  ⟨List.nodup_nil, fun _ hn => absurd hn List.not_mem_nil, fun _ _ hn => absurd hn List.not_mem_nil, h⟩

theorem Points.mono (h : Points l iter next) {next' : Nat} (hle : next ≤ next') : Points l iter next' :=
  ⟨h.nodup, h.stored, h.own, fun a => Nat.lt_of_lt_of_le (h.bound a) hle⟩

theorem Points.perm (h : Points l iter next) (hp : l'.Perm l) : Points l' iter next :=
  ⟨(vals_perm hp).nodup_iff.mpr h.nodup, fun n hn => h.stored n (hp.mem_iff.mp hn),
    fun a n hn => h.own a n (hp.mem_iff.mp hn), h.bound⟩

/-- A new element for a value that is not in the list, somewhere in it. -/
theorem Points.insert [DecidableEq α] (h : Points l iter next) (ha : a ∉ vals l) (hp : l'.Perm (⟨next, a⟩ :: l)) :
    Points l' (update iter a next) (next + 1) := by
  refine Points.perm ⟨?_, ?_, ?_, ?_⟩ hp
  · exact List.nodup_cons.mpr ⟨ha, h.nodup⟩
  · intro n hn
    rcases List.mem_cons.mp hn with rfl | hn
    · exact update_self ..
    · have hne : n.val ≠ a := fun heq => ha (heq ▸ List.mem_map_of_mem hn)
      rw [update_of_ne hne]
      exact h.stored n hn
  · intro b n hn hb
    by_cases hba : b = a
    · subst hba
      rw [update_self] at hb
      rcases List.mem_cons.mp hn with rfl | hn
      · rfl
      · have := h.bound n.val
        have := h.stored n hn
        omega
    · rw [update_of_ne hba] at hb
      rcases List.mem_cons.mp hn with rfl | hn
      · exact absurd hb (Nat.ne_of_lt (h.bound b))
      · exact h.own b n hn hb
  · intro b
    by_cases hba : b = a
    · rw [hba, update_self]
      exact Nat.lt_succ_self next
    · rw [update_of_ne hba]
      exact Nat.lt_succ_of_lt (h.bound b)

/-- The iterator of a value erases the element of the value, and no other. -/
theorem Points.erase [DecidableEq α] (h : Points l iter next) (he : erase l (iter a) = some l') :
    l.Perm (⟨iter a, a⟩ :: l') ∧ Points l' iter next := by
  simp only [Node.erase, Option.ite_none_right_eq_some, Option.some.injEq, List.any_eq_true, decide_eq_true_iff] at he
  obtain ⟨⟨n, hn, hid⟩, rfl⟩ := he
  have hval : n.val = a := h.own a n hn hid.symm
  have heq : n = ⟨iter a, a⟩ := by
    cases n
    simp only at hid hval
    rw [hid, hval]
  have hl : l.Nodup := (List.pairwise_map.mp h.nodup).imp fun hne heq => hne (congrArg _ heq)
  have hperm : l.Perm (⟨iter a, a⟩ :: l.filter fun m => m.id ≠ iter a) := by
    have hfilter : (l.filter fun m => m.id ≠ iter a) = l.erase n := by
      rw [hl.erase_eq_filter]
      apply List.filter_congr
      intro m hm
      by_cases hmn : m = n
      · simp [hmn, hid]
      · have hne : m.id ≠ iter a := by
          intro hm'
          have hv : m.val = a := h.own a m hm hm'.symm
          exact hmn (by cases m; cases n; simp_all)
        simp [hmn, hne]
    rw [hfilter, ← heq]
    exact List.perm_cons_erase hn
  refine ⟨hperm, ?_, fun m hm => h.stored m (List.mem_of_mem_filter hm),
    fun b m hm => h.own b m (List.mem_of_mem_filter hm), h.bound⟩
  exact (h.nodup.sublist (List.filter_sublist.map _))

section

variable (h : Points l iter next) (ha : a ∈ vals l)
include h ha

/-- The iterator of a value of the list points at the value. -/
theorem Points.find_of_mem : (l.find? fun n => n.id = iter a) = some ⟨iter a, a⟩ := by
  obtain ⟨n, hn, rfl⟩ := List.mem_map.mp ha
  obtain ⟨m, hm⟩ := Option.isSome_iff_exists.mp
    (List.find?_isSome.mpr ⟨n, hn, decide_eq_true (h.stored n hn).symm⟩ : (l.find? fun m => m.id = iter n.val).isSome)
  have hid : m.id = iter n.val := of_decide_eq_true (List.find?_some hm :)
  have hval : m.val = n.val := h.own _ m (List.mem_of_find?_eq_some hm) hid.symm
  rw [hm, ← hid, ← hval]

theorem Points.deref_of_mem : deref l (iter a) = some a := by
  rw [deref, h.find_of_mem ha]
  rfl

theorem Points.erase_of_mem : ∃ l', Node.erase l (iter a) = some l' := by
  obtain ⟨n, hn, rfl⟩ := List.mem_map.mp ha
  refine ⟨_, if_pos (List.any_eq_true.mpr ⟨n, hn, ?_⟩)⟩
  exact decide_eq_true (h.stored n hn).symm

end

/-- After erasing, the value is not in the list, and the others are. -/
theorem Points.mem_erase [DecidableEq α] (h : Points l iter next) (he : Node.erase l (iter a) = some l') :
    a ∈ vals l ∧ ∀ b, b ∈ vals l' ↔ b ∈ vals l ∧ b ≠ a := by
  have hperm := vals_perm (h.erase he).1
  have hnodup := hperm.nodup_iff.mp h.nodup
  have hnot : a ∉ vals l' := (List.nodup_cons.mp hnodup).1
  refine ⟨hperm.mem_iff.mpr (List.mem_cons_self ..), fun b => ?_⟩
  rw [hperm.mem_iff, mem_vals_cons]
  constructor
  · exact fun hb => ⟨.inr hb, fun hba => hnot (hba ▸ hb)⟩
  · rintro ⟨rfl | hb, hne⟩
    · exact absurd rfl hne
    · exact hb

end Points

end Node

theorem countP_update_of_not_mem {α : Type*} [DecidableEq α] {l : List α} {f : α → Bool} {a : α} (b : Bool)
    (ha : a ∉ l) : l.countP (update f a b) = l.countP f := by
  apply List.countP_congr
  intro c hc
  have hca : c ≠ a := fun hca => ha (hca ▸ hc)
  rw [update_of_ne hca]

/-- How a count changes when the predicate changes at one value. -/
theorem countP_update {α : Type*} [DecidableEq α] {l : List α} {f : α → Bool} {a : α} (b : Bool) (hl : l.Nodup)
    (ha : a ∈ l) : l.countP (update f a b) + (f a).toNat = l.countP f + b.toNat := by
  have hperm := List.perm_cons_erase ha
  have hnot : a ∉ l.erase a := (List.nodup_cons.mp (hperm.nodup_iff.mp hl)).1
  rw [hperm.countP_eq, hperm.countP_eq, List.countP_cons, List.countP_cons, countP_update_of_not_mem b hnot,
    update_self]
  cases b <;> cases f a <;> simp

end Salam
