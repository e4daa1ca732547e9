import Mathlib.Algebra.Order.Group.Nat
import Mathlib.Logic.Function.Basic

/-!
# Trees of tables

Tables that point to tables: `next t i` is the table that entry `i` of the table `t` points to. A path of indices is
followed from a root through `depth` tables, and the entries of the tables at its end are read (`find`).

* `Tree`: every table that is reached has one path, so that two paths to a table are the same (`Tree.follow_inj`).
* `Tree.link`, `find_link`: a new table without entries is put below a table, and nothing is found that was not found
  before.
* `find_write`: an entry of a table at the end is written, and what is found at other paths stays.
-/

namespace Salam.Radix

variable {T ι E : Type*}

/-- The table at the end of a path. -/
def follow (next : T → ι → Option T) : T → List ι → Option T
  | t, [] => some t
  | t, i :: is => (next t i).bind fun t' => follow next t' is

/-- The entry at the end of a path. -/
def find (next : T → ι → Option T) (leaf : T → ι → Option E) (t : T) (is : List ι) (i : ι) : Option E :=
  (follow next t is).bind fun t' => leaf t' i

/-- `path` is where the tables are: what points from a table at less than `depth` points to a table below it. -/
structure Tree (next : T → ι → Option T) (path : T → Option (List ι)) (depth : Nat) (root : T) : Prop where
  root : path root = some []
  child : ∀ {t p i t'}, path t = some p → p.length < depth → next t i = some t' → path t' = some (p ++ [i])

section Tree

variable {next next' : T → ι → Option T} {leaf leaf' : T → ι → Option E} {path : T → Option (List ι)} {depth : Nat}
  {root t t' f : T} {p is js : List ι} {i j : ι}

/-- A path that is followed is the path of the table that it leads to. -/
theorem Tree.follow_path (h : Tree next path depth root) (ht : path t = some p) (hlen : (p ++ is).length ≤ depth)
    (hf : follow next t is = some t') : path t' = some (p ++ is) := by
  induction is generalizing t p with
  | nil =>
    obtain rfl := Option.some.inj hf
    rw [ht, List.append_nil]
  | cons i is ih =>
    obtain ⟨u, hu, hf⟩ := Option.bind_eq_some_iff.mp hf
    have hlt : p.length < depth := by
      simp only [List.length_append, List.length_cons] at hlen
      omega
    have hcons : p ++ i :: is = p ++ [i] ++ is := by simp
    rw [hcons] at hlen ⊢
    exact ih (h.child ht hlt hu) hlen hf

theorem Tree.follow_inj (h : Tree next path depth root) (hi : is.length ≤ depth) (hj : js.length ≤ depth)
    (hfi : follow next root is = some t) (hfj : follow next root js = some t) : is = js := by
  have h₁ := h.follow_path h.root hi hfi
  have h₂ := h.follow_path h.root hj hfj
  exact Option.some.inj (h₁.symm.trans h₂)

/-- A table without entries is put below another one. -/
theorem Tree.link [DecidableEq T] (h : Tree next path depth root) (ht : path t = some p) (hnew : path f = none)
    (hself : next' t i = some f) (hempty : ∀ j, next' f j = none)
    (hother : ∀ u j q, path u = some q → q.length < depth → (u, j) ≠ (t, i) → next' u j = next u j) :
    Tree next' (Function.update path f (some (p ++ [i]))) depth root := by
  have hne : ∀ {u : T}, path u ≠ none → u ≠ f := by
    rintro u hu rfl
    exact hu hnew
  constructor
  · rw [Function.update_of_ne (hne (by simp [h.root]))]
    exact h.root
  · intro u q j u' hu hlt hn
    by_cases huf : u = f
    · rw [huf, hempty] at hn
      cases hn
    · rw [Function.update_of_ne huf] at hu
      by_cases hcell : (u, j) = (t, i)
      · obtain ⟨rfl, rfl⟩ := Prod.mk.inj hcell
        obtain rfl : f = u' := Option.some.inj (hself.symm.trans hn)
        obtain rfl : p = q := Option.some.inj (ht.symm.trans hu)
        exact Function.update_self ..
      · rw [hother u j q hu hlt hcell] at hn
        have hu' := h.child hu hlt hn
        rw [Function.update_of_ne (hne (by simp [hu']))]
        exact hu'

/-- Below a table that is new and has no entries nothing is found, as before. -/
theorem find_link (h : Tree next path depth root) (hbefore : next t i = none)
    (hself : next' t i = some f) (hempty : ∀ j, next' f j = none) (hleaf : ∀ j, leaf' f j = none)
    (hother : ∀ u j q, path u = some q → q.length < depth → (u, j) ≠ (t, i) → next' u j = next u j)
    (hsame : ∀ u j q, path u = some q → q.length = depth → leaf' u j = leaf u j)
    {u : T} {q : List ι} (hu : path u = some q) (hlen : (q ++ is).length = depth) :
    find next' leaf' u is j = find next leaf u is j := by
  induction is generalizing u q with
  | nil => exact hsame u j q hu (by simpa using hlen)
  | cons k is ih =>
    have hlt : q.length < depth := by
      rw [← hlen]
      simp
    by_cases hcell : (u, k) = (t, i)
    · obtain ⟨rfl, rfl⟩ := Prod.mk.inj hcell
      have hnone : find next' leaf' f is j = none := by
        cases is with
        | nil => exact hleaf j
        | cons k' is => simp [find, follow, hempty]
      simp only [find, follow, hself, hbefore, Option.bind_some, Option.bind_none]
      exact hnone
    · simp only [find, follow, hother u k q hu hlt hcell]
      cases hn : next u k with
      | none => rfl
      | some u' =>
        exact ih (h.child hu hlt hn) (by simpa using hlen)

/-- A path that is followed through tables that have not changed. -/
theorem Tree.follow_congr (h : Tree next path depth root)
    (hother : ∀ u j q, path u = some q → q.length < depth → next' u j = next u j)
    (ht : path t = some p) (hlen : (p ++ is).length ≤ depth) : follow next' t is = follow next t is := by
  induction is generalizing t p with
  | nil => rfl
  | cons i is ih =>
    have hlt : p.length < depth := by
      simp only [List.length_append, List.length_cons] at hlen
      omega
    simp only [follow, hother t i p ht hlt]
    cases hn : next t i with
    | none => rfl
    | some u =>
      exact ih (h.child ht hlt hn) (by simpa using hlen)

/-- An entry of a table at the end of a path is written. -/
theorem Tree.find_write [DecidableEq ι] (h : Tree next path depth root) (hp : p.length = depth)
    (hf : follow next root p = some t)
    (hother : ∀ u j q, path u = some q → q.length < depth → next' u j = next u j)
    (hleaf : ∀ u k q, path u = some q → q.length = depth → (u, k) ≠ (t, i) → leaf' u k = leaf u k)
    (his : is.length = depth) :
    find next' leaf' root is j = if (is, j) = (p, i) then leaf' t i else find next leaf root is j := by
  rw [find, find, h.follow_congr hother h.root his.le]
  by_cases hcell : (is, j) = (p, i)
  · obtain ⟨rfl, rfl⟩ := Prod.mk.inj hcell
    rw [if_pos rfl, hf]
    rfl
  · rw [if_neg hcell]
    cases hu : follow next root is with
    | none => rfl
    | some u =>
      have hpath := h.follow_path h.root his.le hu
      refine hleaf u j _ hpath his fun heq => hcell ?_
      obtain ⟨rfl, rfl⟩ := Prod.mk.inj heq
      rw [h.follow_inj his.le hp.le hu hf]

end Tree

end Salam.Radix
