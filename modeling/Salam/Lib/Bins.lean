import Mathlib.Data.List.Sort
import Mathlib.Order.Lattice

/-!
# Ordered stacks

A list of stacks, ordered by the keys of their elements, in which all elements of a stack have one key. A new element
goes to the top of the stack of its key, so the elements read off from the first stack to the last are the elements in
the order of their keys, and the last one put in comes first among those with the same key.

* `all_insert`, `all_remove`: what the two operations do to the elements.
* `sort_erase`, `find?_of_sort`: the order in which the elements were put in, as a stable sort.
-/

namespace Salam

namespace Bins

variable {α κ : Type*} [LinearOrder κ] (key : α → κ)

/-- The elements, with the top of the first stack first. A stack is its top and what is under it. -/
def all (bs : List (α × List α)) : List α := bs.flatMap fun b => b.1 :: b.2

structure Ordered (bs : List (α × List α)) : Prop where
  tops : bs.Pairwise fun b b' => key b.1 < key b'.1
  bin : ∀ b ∈ bs, ∀ x ∈ b.2, key x = key b.1

def insert (a : α) : List (α × List α) → List (α × List α)
  | [] => [(a, [])]
  | (t, r) :: bs =>
    if key a < key t then (a, []) :: (t, r) :: bs
    else if key a = key t then (a, t :: r) :: bs
    else (t, r) :: insert a bs

/-- A stack without its top. -/
def pop : List α → List (α × List α) → List (α × List α)
  | [], bs => bs
  | n :: r, bs => (n, r) :: bs

def remove [DecidableEq α] (a : α) : List (α × List α) → List (α × List α)
  | [] => []
  | (t, r) :: bs =>
    if key t = key a then if a = t then pop r bs else (t, r.erase a) :: bs
    else (t, r) :: remove a bs

variable {key} {a t : α} {r : List α} {bs : List (α × List α)} {x : α}

@[simp] theorem all_nil : all ([] : List (α × List α)) = [] := rfl

@[simp] theorem all_cons : all ((t, r) :: bs) = t :: r ++ all bs := by simp [all]

@[simp] theorem all_pop : all (pop r bs) = r ++ all bs := by
  cases r <;> simp [pop]

theorem Ordered.nil : Ordered key ([] : List (α × List α)) := ⟨.nil, by simp⟩

theorem ordered_cons : Ordered key ((t, r) :: bs) ↔
    (∀ b ∈ bs, key t < key b.1) ∧ (∀ x ∈ r, key x = key t) ∧ Ordered key bs := by
  constructor
  · rintro ⟨ht, hb⟩
    rw [List.pairwise_cons] at ht
    exact ⟨ht.1, hb (t, r) List.mem_cons_self, ht.2, fun b h => hb b (List.mem_cons_of_mem _ h)⟩
  · rintro ⟨h₁, h₂, h₃⟩
    refine ⟨List.pairwise_cons.mpr ⟨h₁, h₃.tops⟩, fun b hb => ?_⟩
    rcases List.mem_cons.mp hb with rfl | hb
    · exact h₂
    · exact h₃.bin b hb

theorem Ordered.congr {key' : α → κ} (h : Ordered key bs) (hk : ∀ x ∈ all bs, key' x = key x) : Ordered key' bs where
  tops := h.tops.imp_of_mem fun hb hb' hlt => by
    rwa [hk _ (List.mem_flatMap.mpr ⟨_, hb, List.mem_cons_self⟩),
      hk _ (List.mem_flatMap.mpr ⟨_, hb', List.mem_cons_self⟩)]
  bin b hb x hx := by
    rw [hk x (List.mem_flatMap.mpr ⟨b, hb, List.mem_cons_of_mem _ hx⟩), h.bin b hb x hx,
      hk b.1 (List.mem_flatMap.mpr ⟨b, hb, List.mem_cons_self⟩)]

theorem mem_all : x ∈ all bs ↔ ∃ b ∈ bs, x = b.1 ∨ x ∈ b.2 := by simp [all]

theorem Ordered.lt_of_mem (h : Ordered key ((t, r) :: bs)) (hx : x ∈ all bs) : key t < key x := by
  obtain ⟨h₁, -, h₃⟩ := ordered_cons.mp h
  obtain ⟨b, hb, rfl | hx⟩ := mem_all.mp hx
  · exact h₁ b hb
  · rw [h₃.bin b hb x hx]
    exact h₁ b hb

theorem Ordered.sorted (h : Ordered key bs) : (all bs).Pairwise fun x y => key x ≤ key y := by
  induction bs with
  | nil => exact .nil
  | cons b bs ih =>
    obtain ⟨t, r⟩ := b
    obtain ⟨-, hr, hbs⟩ := ordered_cons.mp h
    have hall : ∀ x ∈ t :: r, key x = key t := by simpa using hr
    rw [all_cons, List.pairwise_append]
    refine ⟨List.Pairwise.imp_of_mem (fun hx hy _ => ?_) (List.pairwise_of_forall fun _ _ => trivial), ih hbs,
      fun x hx y hy => ?_⟩
    · rw [hall _ hx, hall _ hy]
    · rw [hall x hx]
      exact (h.lt_of_mem hy).le

theorem Ordered.head_le (h : Ordered key ((t, r) :: bs)) (hx : x ∈ all ((t, r) :: bs)) : key t ≤ key x := by
  have hs := h.sorted
  rw [all_cons, List.cons_append, List.pairwise_cons] at hs
  rw [all_cons, List.cons_append, List.mem_cons] at hx
  rcases hx with rfl | hx
  · exact le_rfl
  · exact hs.1 x hx

/-! ## The two operations -/

theorem mem_all_insert : x ∈ all (insert key a bs) ↔ x = a ∨ x ∈ all bs := by
  induction bs with
  | nil => simp [insert]
  | cons b bs ih =>
    obtain ⟨t, r⟩ := b
    unfold insert
    split_ifs
    · simp
    · simp
    · simp only [all_cons, List.mem_append, ih]
      tauto

theorem top_of_mem_insert {b : α × List α} (hb : b ∈ insert key a bs) : b.1 = a ∨ ∃ b' ∈ bs, b.1 = b'.1 := by
  induction bs with
  | nil =>
    rw [insert, List.mem_singleton] at hb
    exact .inl (hb ▸ rfl)
  | cons b' bs ih =>
    unfold insert at hb
    grind

theorem insert_ordered (a : α) (h : Ordered key bs) : Ordered key (insert key a bs) := by
  induction bs with
  | nil => exact ordered_cons.mpr ⟨by simp, by simp, .nil⟩
  | cons b bs ih =>
    obtain ⟨t, r⟩ := b
    have ⟨h₁, h₂, h₃⟩ := ordered_cons.mp h
    unfold insert
    split_ifs with hlt heq
    · refine ordered_cons.mpr ⟨fun b hb => ?_, by simp, h⟩
      rcases List.mem_cons.mp hb with rfl | hb
      · exact hlt
      · exact hlt.trans (h₁ b hb)
    · refine ordered_cons.mpr ⟨fun b hb => heq ▸ h₁ b hb, ?_, h₃⟩
      simpa [heq] using h₂
    · refine ordered_cons.mpr ⟨fun b hb => ?_, h₂, ih h₃⟩
      have hta : key t < key a := lt_of_le_of_ne (not_lt.mp hlt) (Ne.symm heq)
      rcases top_of_mem_insert hb with hb | ⟨b', hb', hb⟩
      · rwa [hb]
      · rw [hb]
        exact h₁ b' hb'

theorem orderedInsert_append {l : List α} (hr : ∀ x ∈ r, ¬ key a ≤ key x) :
    (r ++ l).orderedInsert (fun x y => key x ≤ key y) a = r ++ l.orderedInsert (fun x y => key x ≤ key y) a := by
  induction r with
  | nil => rfl
  | cons x r ih =>
    have hx : ¬ key a ≤ key x := hr x List.mem_cons_self
    simp only [List.cons_append, List.orderedInsert_cons, hx, if_false]
    rw [ih fun y hy => hr y (List.mem_cons_of_mem _ hy)]

/-- A new element comes before the elements of its key, and after those of smaller keys. -/
theorem all_insert (a : α) (h : Ordered key bs) :
    all (insert key a bs) = (all bs).orderedInsert (fun x y => key x ≤ key y) a := by
  induction bs with
  | nil => simp [insert]
  | cons b bs ih =>
    obtain ⟨t, r⟩ := b
    have ⟨h₁, h₂, h₃⟩ := ordered_cons.mp h
    unfold insert
    split_ifs with hlt heq
    · simp [hlt.le]
    · simp [heq.le]
    · have hta : ¬ key a ≤ key t := fun hle => heq (le_antisymm hle (not_lt.mp hlt))
      rw [all_cons, all_cons, ih h₃, orderedInsert_append]
      have hr : ∀ x ∈ r, key x < key a := fun x hx => (h₂ x hx).symm ▸ not_le.mp hta
      simpa using ⟨not_le.mp hta, hr⟩

section Remove

variable [DecidableEq α]

theorem top_of_mem_remove {b : α × List α} (hb : b ∈ remove key a bs) : b.1 ∈ all bs := by
  induction bs with
  | nil => cases hb
  | cons b' bs ih =>
    obtain ⟨t, r⟩ := b'
    unfold remove at hb
    cases r <;> grind [pop, all_cons, mem_all]

theorem remove_ordered (a : α) (h : Ordered key bs) : Ordered key (remove key a bs) := by
  induction bs with
  | nil => exact .nil
  | cons b bs ih =>
    obtain ⟨t, r⟩ := b
    have ⟨h₁, h₂, h₃⟩ := ordered_cons.mp h
    unfold remove
    split_ifs with heq ht
    · cases r with
      | nil => exact h₃
      | cons n r =>
        have hn : key n = key t := h₂ n List.mem_cons_self
        refine ordered_cons.mpr ⟨fun b hb => hn ▸ h₁ b hb, fun x hx => ?_, h₃⟩
        rw [hn, h₂ x (List.mem_cons_of_mem _ hx)]
    · exact ordered_cons.mpr ⟨h₁, fun x hx => h₂ x (List.mem_of_mem_erase hx), h₃⟩
    · refine ordered_cons.mpr ⟨fun b hb => ?_, h₂, ih h₃⟩
      exact h.lt_of_mem (top_of_mem_remove hb)

/-- An element is looked for in the stack of its key. -/
theorem all_remove (h : Ordered key bs) (hn : (all bs).Nodup) : all (remove key a bs) = (all bs).erase a := by
  induction bs with
  | nil => rfl
  | cons b bs ih =>
    obtain ⟨t, r⟩ := b
    have ⟨h₁, h₂, h₃⟩ := ordered_cons.mp h
    rw [all_cons, List.nodup_append] at hn
    obtain ⟨hr, hbs, hd⟩ := hn
    unfold remove
    split_ifs with heq ht
    · subst ht
      simp
    · have hnot : a ∉ all bs := fun ha => (heq ▸ h.lt_of_mem ha).false
      rw [all_cons, all_cons, List.erase_append, List.erase_of_not_mem hnot,
        List.erase_cons_tail (by simpa using Ne.symm ht)]
      split_ifs with ha
      · rfl
      · rw [List.erase_of_not_mem fun hm => ha (List.mem_cons_of_mem _ hm)]
    · have hnot : a ∉ t :: r := by
        rintro (_ | ⟨_, ha⟩)
        · exact heq rfl
        · exact heq (h₂ a ha).symm
      rw [all_cons, all_cons, ih h₃ hbs, List.erase_append_right _ hnot]

end Remove

/-! ## The order in which the elements were put in -/

section Stable

variable (key) (l : List α)

/-- The elements by their keys, and in the order of `l` where the keys are the same. -/
def sort : List α := l.insertionSort fun x y => key x ≤ key y

variable {key l}

theorem orderedInsert_erase_comm [DecidableEq α] {b : α} (hb : b ≠ a) (hl : l.Pairwise fun x y => key x ≤ key y) :
    (l.orderedInsert (fun x y => key x ≤ key y) b).erase a =
    (l.erase a).orderedInsert (fun x y => key x ≤ key y) b := by
  induction l with
  | nil => simp [hb]
  | cons c l ih =>
    rw [List.pairwise_cons] at hl
    have ih := ih hl.2
    by_cases hc : c = a
    · subst hc
      by_cases hbc : key b ≤ key c
      · -- everything after `c` is at least `key c`, so `b` stays in front
        have hfront : l.orderedInsert (fun x y => key x ≤ key y) b = b :: l := by
          cases l with
          | nil => rfl
          | cons d l => simp [hbc.trans (hl.1 d List.mem_cons_self)]
        simp [hbc, hb, hfront]
      · simp [hbc]
    · by_cases hbc : key b ≤ key c
      · simp [hbc, hb, hc]
      · simp [hbc, hc, ih]

theorem sort_sorted (l : List α) : (sort key l).Pairwise fun x y => key x ≤ key y := by
  exact List.pairwise_insertionSort _ l

theorem sort_perm (l : List α) : (sort key l).Perm l := List.perm_insertionSort _ l

theorem sort_cons : sort key (a :: l) = (sort key l).orderedInsert (fun x y => key x ≤ key y) a := rfl

theorem sort_erase [DecidableEq α] (hn : l.Nodup) : (sort key l).erase a = sort key (l.erase a) := by
  induction l with
  | nil => rfl
  | cons b l ih =>
    rw [List.nodup_cons] at hn
    by_cases hb : b = a
    · subst hb
      rw [sort_cons, List.erase_cons_head]
      exact List.erase_orderedInsert b _
    · rw [sort_cons, orderedInsert_erase_comm hb (sort_sorted l), ih hn.2, List.erase_cons_tail (by simpa using hb),
        sort_cons]

/-- Elements with one key keep their order. -/
theorem filter_sort (k : κ) : (sort key l).filter (key · = k) = l.filter (key · = k) := by
  have hsub : (l.filter (key · = k)).Sublist (sort key l) := by
    refine List.sublist_insertionSort ?_ List.filter_sublist
    rw [List.pairwise_filter]
    refine List.pairwise_of_forall fun x y hx hy => ?_
    rw [of_decide_eq_true hx, of_decide_eq_true hy]
  have hsub' := hsub.filter (key · = k)
  refine (hsub'.eq_of_length ?_).symm.trans (by simp)
  have hperm : (sort key l).Perm l := sort_perm l
  simpa using (hperm.filter (key · = k)).length_eq.symm

/-- The first element is the first one put at the front among those with its key. -/
theorem find?_of_sort {rest : List α} (h : sort key l = a :: rest) : l.find? (key · = key a) = some a := by
  rw [← List.head?_filter, ← filter_sort, h]
  simp

theorem sort_congr {key' : α → κ} (h : ∀ x ∈ l, key' x = key x) : sort key' l = sort key l := by
  have hmap := List.map_insertionSort (r := fun x y : α => key x ≤ key y) (s := fun x y : α => key' x ≤ key' y) id l
    fun a ha b hb => by simp [h a ha, h b hb]
  simpa [sort] using hmap.symm

end Stable

end Bins

end Salam
