import Mathlib.Algebra.Order.Group.Nat

/-!
# Binary heaps in an array

`pushHeap` and `popHeap` work as the heap functions of C++ do: `pushHeap` moves the last element of an array to its
place in the heap that the others are, and `popHeap` moves the first element to the end and makes the others a heap. The
order is a strict weak order `comp`, and no element is before one of its children's: the first element is a greatest
one.

* `isHeap_push`, `push_perm`: a push.
* `isHeap_pop`, `pop_perm`: a pop.
* `IsHeap.front_max`: the first element.
* `front_pushAll`: after pushes it is the first of those that come before no other one.
-/

namespace Salam.Heap

variable {α : Type*} {n m : Nat} (comp : α → α → Bool)

/-- Move an element up, as long as its parent comes before it. -/
def siftUp : Nat → Vector α n → Nat → Vector α n
  | 0, v, _ => v
  | fuel + 1, v, i =>
    if h : 0 < i ∧ i < n then
      if comp v[(i - 1) / 2] v[i] then siftUp fuel (v.swap i ((i - 1) / 2)) ((i - 1) / 2) else v
    else v

/-- The child that does not come before the other one, of the first `m` elements. -/
def bestChild (m : Nat) (v : Vector α n) (i : Nat) : Nat :=
  if h : 2 * i + 2 < m ∧ m ≤ n then if comp v[2 * i + 1] v[2 * i + 2] then 2 * i + 2 else 2 * i + 1 else 2 * i + 1

/-- Move an element down in the first `m` elements, as long as it comes before its best child. -/
def siftDown (m : Nat) : Nat → Vector α n → Nat → Vector α n
  | 0, v, _ => v
  | fuel + 1, v, i =>
    if h : bestChild comp m v i < m ∧ i < m ∧ m ≤ n then
      if comp v[i] v[bestChild comp m v i] then
        siftDown m fuel (v.swap i (bestChild comp m v i)) (bestChild comp m v i)
      else v
    else v

/-- The last element of the array is put in its place. -/
def pushHeap (xs : Array α) : Array α := (siftUp comp xs.size xs.toVector (xs.size - 1)).toArray

/-- The first element of the array is put at its end. -/
def popHeap (xs : Array α) : Array α :=
  if h : 0 < xs.size then
    (siftDown comp (xs.size - 1) xs.size (xs.toVector.swap 0 (xs.size - 1)) 0).toArray
  else xs

/-- The first `m` elements are a heap. -/
def Ordered (m : Nat) (v : Vector α n) : Prop :=
  ∀ i (_ : i < n), 0 < i → i < m → comp v[(i - 1) / 2] v[i] = false

def IsHeap (xs : Array α) : Prop := ∀ i (_ : i < xs.size), 0 < i → comp xs[(i - 1) / 2] xs[i] = false

/-- A strict weak order. -/
structure Weak (comp : α → α → Bool) : Prop where
  asymm : ∀ {a b}, comp a b = true → comp b a = false
  trans : ∀ {a b c}, comp a b = false → comp b c = false → comp a c = false

variable {comp} {v : Vector α n} {i : Nat} {xs : Array α} {a : α}

theorem Weak.irrefl (hc : Weak comp) (a : α) : comp a a = false := by
  by_contra h
  rw [Bool.not_eq_false] at h
  exact absurd (hc.asymm h) (by rw [h]; decide)

/-! ## Moving up -/

/-- The pairs off `i` are in order, and so are the children of `i` with its parent. -/
structure UpOrder (comp : α → α → Bool) (v : Vector α n) (i : Nat) : Prop where
  except : ∀ j (_ : j < n), 0 < j → j ≠ i → comp v[(j - 1) / 2] v[j] = false
  grand : ∀ j (_ : j < n) (_ : i < n), 0 < i → 0 < j → (j - 1) / 2 = i → comp v[(i - 1) / 2] v[j] = false

theorem UpOrder.swap (hc : Weak comp) (h : UpOrder comp v i) (h0 : 0 < i) (hi : i < n)
    (hlt : comp v[(i - 1) / 2] v[i] = true) : UpOrder comp (v.swap i ((i - 1) / 2)) ((i - 1) / 2) := by
  have hback := hc.asymm hlt
  constructor
  · intro j hj hj0 hne
    by_cases hji : j = i
    · subst hji
      rw [Vector.getElem_swap_left, Vector.getElem_swap_right]
      exact hback
    · rw [Vector.getElem_swap_of_ne hji hne]
      by_cases hpi : (j - 1) / 2 = i
      · -- a child of `i`
        have hgrand := h.grand j hj hi h0 hj0 hpi
        simp only [hpi, Vector.getElem_swap_left]
        exact hgrand
      · by_cases hpp : (j - 1) / 2 = (i - 1) / 2
        · -- the sibling of `i`
          have hsib := h.except j hj hj0 hji
          simp only [hpp] at hsib ⊢
          rw [Vector.getElem_swap_right]
          exact hc.trans hback hsib
        · rw [Vector.getElem_swap_of_ne hpi hpp]
          exact h.except j hj hj0 hji
  · intro j hj hp hp0 hj0 hjp
    have hup := h.except ((i - 1) / 2) hp hp0 (by omega)
    rw [Vector.getElem_swap_of_ne (by omega) (by omega)]
    by_cases hji : j = i
    · subst hji
      rw [Vector.getElem_swap_left]
      exact hup
    · rw [Vector.getElem_swap_of_ne hji (by omega)]
      have hsib := h.except j hj hj0 hji
      simp only [hjp] at hsib
      exact hc.trans hup hsib

theorem siftUp_ordered (hc : Weak comp) : ∀ {fuel : Nat} {v : Vector α n} {i : Nat}, UpOrder comp v i → i ≤ fuel →
    Ordered comp n (siftUp comp fuel v i) := by
  intro fuel
  induction fuel with
  | zero =>
    intro v i h hi j hj h0 _
    exact h.except j hj h0 (by omega)
  | succ fuel ih =>
    intro v i h hi
    rw [siftUp]
    by_cases hin : 0 < i ∧ i < n
    · rw [dif_pos hin]
      by_cases hlt : comp v[(i - 1) / 2] v[i] = true
      · rw [if_pos hlt]
        exact ih (h.swap hc hin.1 hin.2 hlt) (by omega)
      · rw [if_neg hlt]
        intro j hj h0 _
        by_cases hji : j = i
        · subst hji
          exact Bool.not_eq_true _ ▸ hlt
        · exact h.except j hj h0 hji
    · rw [dif_neg hin]
      intro j hj h0 _
      exact h.except j hj h0 (by omega)

theorem siftUp_perm : ∀ {fuel : Nat} {v : Vector α n} {i : Nat}, (siftUp comp fuel v i).toList.Perm v.toList := by
  intro fuel
  induction fuel with
  | zero => exact .refl _
  | succ fuel ih =>
    intro v i
    rw [siftUp]
    split
    · split
      · exact ih.trans (Vector.swap_perm _ _).toList
      · exact .refl _
    · exact .refl _

/-! ## Moving down -/

variable (comp) in
theorem bestChild_cases (m : Nat) (v : Vector α n) (i : Nat) :
    bestChild comp m v i = 2 * i + 1 ∨ bestChild comp m v i = 2 * i + 2 := by
  rw [bestChild]
  split
  · split
    · exact .inr rfl
    · exact .inl rfl
  · exact .inl rfl

theorem bestChild_lt (hm : m ≤ n) {j : Nat} (hj : j < m) (h0 : 0 < j) (hp : (j - 1) / 2 = i) :
    bestChild comp m v i < m := by
  by_cases h : 2 * i + 2 < m ∧ m ≤ n
  · obtain hb | hb := bestChild_cases comp m v i
    · omega
    · omega
  · rw [bestChild, dif_neg h]
    omega

theorem bestChild_best (hc : Weak comp) (hm : m ≤ n) {j : Nat} (hj : j < m) (h0 : 0 < j) (hp : (j - 1) / 2 = i)
    (hb : bestChild comp m v i < m) : comp v[bestChild comp m v i] v[j] = false := by
  obtain rfl | rfl : j = 2 * i + 1 ∨ j = 2 * i + 2 := by omega
  · by_cases h : 2 * i + 2 < m ∧ m ≤ n
    · by_cases hlt : comp v[2 * i + 1] v[2 * i + 2] = true
      · have hbest : bestChild comp m v i = 2 * i + 2 := by rw [bestChild, dif_pos h, if_pos hlt]
        simp only [hbest]
        exact hc.asymm hlt
      · have hbest : bestChild comp m v i = 2 * i + 1 := by rw [bestChild, dif_pos h, if_neg hlt]
        simp only [hbest]
        exact hc.irrefl _
    · have hbest : bestChild comp m v i = 2 * i + 1 := by rw [bestChild, dif_neg h]
      simp only [hbest]
      exact hc.irrefl _
  · by_cases hlt : comp v[2 * i + 1] v[2 * i + 2] = true
    · have hbest : bestChild comp m v i = 2 * i + 2 := by rw [bestChild, dif_pos ⟨hj, hm⟩, if_pos hlt]
      simp only [hbest]
      exact hc.irrefl _
    · have hbest : bestChild comp m v i = 2 * i + 1 := by rw [bestChild, dif_pos ⟨hj, hm⟩, if_neg hlt]
      simp only [hbest]
      exact Bool.not_eq_true _ ▸ hlt

/-- The pairs off `i` are in order, and so are the children of `i` with its parent, in the first `m` elements. -/
structure DownOrder (comp : α → α → Bool) (m : Nat) (v : Vector α n) (i : Nat) : Prop where
  except : ∀ j (_ : j < n), 0 < j → j < m → (j - 1) / 2 ≠ i → comp v[(j - 1) / 2] v[j] = false
  grand : ∀ j (_ : j < n) (_ : i < n), 0 < i → 0 < j → j < m → (j - 1) / 2 = i → comp v[(i - 1) / 2] v[j] = false

theorem DownOrder.swap (hc : Weak comp) (h : DownOrder comp m v i) {c : Nat} (hm : m ≤ n) (hi : i < n) (hcm : c < m)
    (hchild : c = 2 * i + 1 ∨ c = 2 * i + 2) (hlt : comp v[i] v[c] = true)
    (hbest : ∀ j (_ : j < n), 0 < j → j < m → (j - 1) / 2 = i → comp v[c] v[j] = false) :
      DownOrder comp m (v.swap i c) c := by
  have hback := hc.asymm hlt
  have hci : (c - 1) / 2 = i := by omega
  constructor
  · intro j hj h0 hjm hp
    by_cases hji : j = i
    · subst hji
      rw [Vector.getElem_swap_left, Vector.getElem_swap_of_ne (by omega) (by omega)]
      exact h.grand c (by omega) hi h0 (by omega) hcm hci
    · by_cases hjc : j = c
      · subst hjc
        simp only [hci, Vector.getElem_swap_left, Vector.getElem_swap_right]
        exact hback
      · rw [Vector.getElem_swap_of_ne hji hjc]
        by_cases hpi : (j - 1) / 2 = i
        · simp only [hpi, Vector.getElem_swap_left]
          exact hbest j hj h0 hjm hpi
        · rw [Vector.getElem_swap_of_ne hpi hp]
          exact h.except j hj h0 hjm hpi
  · intro j hj hcn _ h0 hjm hp
    have hdown := h.except j hj h0 hjm (by omega)
    simp only [hp] at hdown
    simp only [hci, Vector.getElem_swap_left]
    rw [Vector.getElem_swap_of_ne (by omega) (by omega)]
    exact hdown

theorem siftDown_ordered (hc : Weak comp) (hm : m ≤ n) :
    ∀ {fuel : Nat} {v : Vector α n} {i : Nat}, DownOrder comp m v i →
    m ≤ fuel + i → Ordered comp m (siftDown comp m fuel v i) := by
  intro fuel
  induction fuel with
  | zero =>
    intro v i h hi j hj h0 hjm
    exact h.except j hj h0 hjm (by omega)
  | succ fuel ih =>
    intro v i h hi
    rw [siftDown]
    have hchild := bestChild_cases comp m v i
    by_cases hin : bestChild comp m v i < m ∧ i < m ∧ m ≤ n
    · rw [dif_pos hin]
      have hbest : ∀ j (_ : j < n), 0 < j → j < m → (j - 1) / 2 = i → comp v[bestChild comp m v i] v[j] = false :=
        fun j _ h0 hjm hp => bestChild_best hc hm hjm h0 hp hin.1
      by_cases hlt : comp v[i] v[bestChild comp m v i] = true
      · rw [if_pos hlt]
        exact ih (h.swap hc hm (by omega) hin.1 hchild hlt hbest) (by omega)
      · rw [if_neg hlt]
        intro j hj h0 hjm
        by_cases hp : (j - 1) / 2 = i
        · have hstop : comp v[i] v[bestChild comp m v i] = false := Bool.not_eq_true _ ▸ hlt
          simp only [hp]
          exact hc.trans hstop (hbest j hj h0 hjm hp)
        · exact h.except j hj h0 hjm hp
    · rw [dif_neg hin]
      intro j hj h0 hjm
      refine h.except j hj h0 hjm fun hp => ?_
      have : bestChild comp m v i < m := bestChild_lt hm hjm h0 hp
      omega

theorem siftDown_perm : ∀ {fuel : Nat} {v : Vector α n} {i : Nat}, (siftDown comp m fuel v i).toList.Perm v.toList := by
  intro fuel
  induction fuel with
  | zero => exact .refl _
  | succ fuel ih =>
    intro v i
    rw [siftDown]
    split
    · split
      · exact ih.trans (Vector.swap_perm _ _).toList
      · exact .refl _
    · exact .refl _

/-- The elements after the first `m` stay where they are. -/
theorem siftDown_getElem {k : Nat} (hk : k < n) (hmk : m ≤ k) : ∀ {fuel : Nat} {v : Vector α n} {i : Nat},
    (siftDown comp m fuel v i)[k] = v[k] := by
  intro fuel
  induction fuel with
  | zero => exact rfl
  | succ fuel ih =>
    intro v i
    rw [siftDown]
    split
    · rename_i h
      split
      · rw [ih, Vector.getElem_swap_of_ne (by omega) (by omega)]
      · rfl
    · rfl

/-! ## Push and pop -/

theorem isHeap_empty : IsHeap comp #[] := fun _ hi => absurd hi (Nat.not_lt_zero _)

theorem isHeap_toArray (h : Ordered comp n v) : IsHeap comp v.toArray := by
  intro i hi h0
  have hin : i < n := v.size_toArray ▸ hi
  exact h i hin h0 hin

section

variable (hc : Weak comp) (h : IsHeap comp xs)
include hc h

theorem IsHeap.front_max (h0 : 0 < xs.size) : ∀ i (_ : i < xs.size), comp xs[0] xs[i] = false := by
  intro i
  induction i using Nat.strongRecOn with
  | ind i ih =>
    intro hi
    by_cases hzero : i = 0
    · subst hzero
      exact hc.irrefl _
    · exact hc.trans (ih ((i - 1) / 2) (by omega) (by omega)) (h i hi (by omega))

theorem IsHeap.front_max_of_mem (h0 : 0 < xs.size) (ha : a ∈ xs.toList) : comp xs[0] a = false := by
  obtain ⟨i, hi, rfl⟩ := List.getElem_of_mem ha
  exact h.front_max hc h0 i (by simpa using hi)

/-- An element that is added at the end is put in its place. -/
theorem isHeap_push (a : α) : IsHeap comp (pushHeap comp (xs.push a)) := by
  have hup : UpOrder comp (xs.push a).toVector xs.size := by
    constructor
    · intro j hj h0 hne
      rw [Array.size_push] at hj
      have hjs : j < xs.size := by omega
      have hps : (j - 1) / 2 < xs.size := by omega
      change comp (xs.push a)[(j - 1) / 2] (xs.push a)[j] = false
      rw [Array.getElem_push_lt hps, Array.getElem_push_lt hjs]
      exact h j hjs h0
    · intro j hj _ _ _ hp
      rw [Array.size_push] at hj
      omega
  have hlast : (xs.push a).size - 1 = xs.size := by rw [Array.size_push, Nat.add_sub_cancel]
  exact isHeap_toArray (siftUp_ordered hc (hlast.symm ▸ hup) (Nat.sub_le _ _))

end

theorem push_perm (xs : Array α) (a : α) : (pushHeap comp (xs.push a)).toList.Perm (a :: xs.toList) := by
  refine (siftUp_perm (v := (xs.push a).toVector)).trans ?_
  change (xs.push a).toList.Perm _
  rw [Array.toList_push]
  exact List.perm_append_singleton a xs.toList

/-- The array after a pop: its first elements are a heap, and its last one is the one that was the first. -/
def popped (comp : α → α → Bool) (xs : Array α) (h0 : 0 < xs.size) : Vector α xs.size :=
  siftDown comp (xs.size - 1) xs.size (xs.toVector.swap 0 (xs.size - 1)) 0

theorem popHeap_eq (h0 : 0 < xs.size) : popHeap comp xs = (popped comp xs h0).toArray := dif_pos h0

theorem isHeap_pop (hc : Weak comp) (h : IsHeap comp xs) (h0 : 0 < xs.size) : IsHeap comp (popHeap comp xs).pop := by
  have hdown : DownOrder comp (xs.size - 1) (xs.toVector.swap 0 (xs.size - 1)) 0 := by
    constructor
    · intro j hj hj0 hjm hp
      rw [Vector.getElem_swap_of_ne (by omega) (by omega), Vector.getElem_swap_of_ne (by omega) (by omega)]
      exact h j hj hj0
    · intro j _ _ hlt
      exact absurd hlt (Nat.lt_irrefl 0)
  have hordered : Ordered comp (xs.size - 1) (popped comp xs h0) :=
    siftDown_ordered hc (Nat.sub_le _ _) hdown (Nat.sub_le _ _)
  rw [popHeap_eq h0]
  intro i hi hi0
  rw [Array.size_pop, Vector.size_toArray] at hi
  rw [Array.getElem_pop, Array.getElem_pop]
  exact hordered i (by omega) hi0 hi

/-- The first element and what is left are the elements. -/
theorem pop_perm (h0 : 0 < xs.size) : (xs[0] :: (popHeap comp xs).pop.toList).Perm xs.toList := by
  have hperm : (popped comp xs h0).toList.Perm xs.toList := siftDown_perm.trans (Vector.swap_perm _ _).toList
  have hlast : (popped comp xs h0)[xs.size - 1] = xs[0] := by
    rw [popped, siftDown_getElem (by omega) (Nat.le_refl _), Vector.getElem_swap_right]
    rfl
  have hne : (popped comp xs h0).toList ≠ [] := by
    rw [← List.length_pos_iff, Vector.length_toList]
    exact h0
  have hback : (popped comp xs h0).toList.getLast hne = xs[0] := by
    rw [List.getLast_eq_getElem]
    simpa using hlast
  rw [popHeap_eq h0, Array.toList_pop]
  refine (List.perm_append_singleton _ _).symm.trans ?_
  rw [← hback]
  exact (List.dropLast_concat_getLast hne).symm ▸ hperm

/-! ## The first element after pushes -/

/-- Moving an element up leaves the first one that does not come before it. -/
theorem siftUp_front (hn : 0 < n) : ∀ {fuel : Nat} {v : Vector α n} {i : Nat} (hi : i < n), comp v[0] v[i] = false →
    (siftUp comp fuel v i)[0] = v[0] := by
  intro fuel
  induction fuel with
  | zero => exact fun _ _ => rfl
  | succ fuel ih =>
    intro v i hi h
    rw [siftUp]
    split
    · rename_i hpos
      split
      · rename_i hlt
        have hp : (i - 1) / 2 ≠ 0 := by
          intro hp
          simp only [hp] at hlt
          rw [h] at hlt
          cases hlt
        have hfront : (v.swap i ((i - 1) / 2))[0] = v[0] := Vector.getElem_swap_of_ne (by omega) (Ne.symm hp)
        rw [ih (by omega) (by rw [hfront, Vector.getElem_swap_right]; exact h), hfront]
      · rfl
    · rfl

/-- A push changes the first element only if the new one comes after it. -/
theorem front_push (hc : Weak comp) (h : IsHeap comp xs) (h0 : 0 < xs.size) (a : α) :
    (pushHeap comp (xs.push a))[0]? = some (if comp xs[0] a then a else xs[0]) := by
  have hsize : 0 < (pushHeap comp (xs.push a)).size := by
    rw [← Array.length_toList, (push_perm xs a).length_eq]
    exact Nat.succ_pos _
  rw [Array.getElem?_eq_getElem hsize, Option.some.injEq]
  split
  · rename_i hlt
    have hperm : (pushHeap comp (xs.push a)).toList.Perm (a :: xs.toList) := push_perm xs a
    have hfront : comp (pushHeap comp (xs.push a))[0] a = false :=
      (isHeap_push hc h a).front_max_of_mem hc hsize (hperm.mem_iff.mpr List.mem_cons_self)
    rcases List.mem_cons.mp (hperm.mem_iff.mp (Array.getElem_mem_toList hsize)) with heq | hmem
    · exact heq
    · -- the first of the others comes before the new one
      have hle := h.front_max_of_mem hc h0 hmem
      rw [hc.trans hle hfront] at hlt
      cases hlt
  · rename_i hlt
    have hlast : (xs.push a).size - 1 < (xs.push a).size := by
      rw [Array.size_push]
      omega
    have hfirst : (xs.push a).toVector[0] = xs[0] := Array.getElem_push_lt h0
    have hnew : (xs.push a).toVector[(xs.push a).size - 1] = a := by simp
    have hbefore : comp (xs.push a).toVector[0] (xs.push a).toVector[(xs.push a).size - 1] = false := by
      rw [hfirst, hnew]
      exact eq_false_of_ne_true hlt
    exact (siftUp_front (Nat.zero_lt_of_lt hlast) hlast hbefore).trans hfirst

/-- The heap after pushes of the elements of a list. -/
def pushAll (comp : α → α → Bool) : List α → Array α → Array α
  | [], xs => xs
  | a :: as, xs => pushAll comp as (pushHeap comp (xs.push a))

/-- Element `i` comes before no other one, and every element in front of it comes before it. -/
structure FirstLast (comp : α → α → Bool) (as : List α) (i : Nat) (c : α) : Prop where
  at_i : as[i]? = some c
  last : ∀ a ∈ as, comp c a = false
  first : ∀ j < i, ∀ a, as[j]? = some a → comp a c = true

theorem FirstLast.unique {as : List α} {j : Nat} {c c' : α} (h : FirstLast comp as i c) (h' : FirstLast comp as j c') :
    i = j ∧ c = c' := by
  have hle : ∀ {i j c c'}, FirstLast comp as i c → FirstLast comp as j c' → j ≤ i := by
    intro i j c c' h h'
    by_contra hlt
    have hbefore := h'.first i (by omega) c h.at_i
    rw [h.last c' (List.mem_of_getElem? h'.at_i)] at hbefore
    cases hbefore
  obtain rfl : i = j := Nat.le_antisymm (hle h' h) (hle h h')
  exact ⟨rfl, Option.some.inj (h.at_i.symm.trans h'.at_i)⟩

theorem FirstLast.push (hc : Weak comp) {as : List α} {c : α} (h : FirstLast comp as i c) (a : α) :
    ∃ j, FirstLast comp (as ++ [a]) j (if comp c a then a else c) := by
  by_cases hlt : comp c a = true
  · rw [if_pos hlt]
    refine ⟨as.length, by simp, fun b hb => ?_, fun j hj b hb => ?_⟩
    · rcases List.mem_append.mp hb with hb | hb
      · by_contra hab
        have hba := hc.asymm (eq_true_of_ne_false hab)
        rw [hc.trans (h.last b hb) hba] at hlt
        cases hlt
      · rw [List.mem_singleton.mp hb]
        exact hc.irrefl a
    · rw [List.getElem?_append_left hj] at hb
      by_contra hba
      rw [hc.trans (h.last b (List.mem_of_getElem? hb)) (eq_false_of_ne_true hba)] at hlt
      cases hlt
  · rw [if_neg hlt]
    obtain ⟨hi, -⟩ := List.getElem?_eq_some_iff.mp h.at_i
    refine ⟨i, ?_, fun b hb => ?_, fun j hj b hb => ?_⟩
    · rw [List.getElem?_append_left hi]
      exact h.at_i
    · rcases List.mem_append.mp hb with hb | hb
      · exact h.last b hb
      · rw [List.mem_singleton.mp hb]
        exact eq_false_of_ne_true hlt
    · rw [List.getElem?_append_left (Nat.lt_trans hj hi)] at hb
      exact h.first j hj b hb

theorem front_pushAll_append (hc : Weak comp) {as bs : List α} {c : α} (h : IsHeap comp xs) (hfront : xs[0]? = some c)
    (hfirst : FirstLast comp bs i c) : ∃ j c', (pushAll comp as xs)[0]? = some c' ∧ FirstLast comp (bs ++ as) j c' := by
  induction as generalizing xs bs i c with
  | nil => exact ⟨i, c, hfront, by rwa [List.append_nil]⟩
  | cons a as ih =>
    obtain ⟨h0, hc0⟩ := Array.getElem?_eq_some_iff.mp hfront
    obtain ⟨j, hj⟩ := hfirst.push hc a
    have hpush := front_push hc h h0 a
    rw [hc0] at hpush
    obtain ⟨j', c', hout⟩ := ih (isHeap_push hc h a) hpush hj
    rw [List.append_assoc] at hout
    exact ⟨j', c', hout⟩

/-- **The first element after pushes** is the first of those that come before no other one. -/
theorem front_pushAll (hc : Weak comp) {as : List α} (has : as ≠ []) :
    ∃ i c, (pushAll comp as #[])[0]? = some c ∧ FirstLast comp as i c := by
  cases as with
  | nil => exact absurd rfl has
  | cons a as =>
    have hone : (pushHeap comp (#[].push a))[0]? = some a := by
      have hlist : (pushHeap comp (#[].push a)).toList = [a] := List.perm_singleton.mp (push_perm #[] a)
      rfl
    have hfirst : FirstLast comp [a] 0 a :=
      ⟨rfl, fun b hb => by rw [List.mem_singleton.mp hb]; exact hc.irrefl a, fun j hj => absurd hj (Nat.not_lt_zero j)⟩
    exact front_pushAll_append hc (isHeap_push hc isHeap_empty a) hone hfirst

end Salam.Heap
