import Mathlib.Data.List.Pairwise
import Salam.Base.AddrRange
import Salam.Lib.System

/-!
# `AddrRangeMap`

The `std::map` is the list of its entries in the order of `operator<`, and an iterator is the range of its entry. `find`
asks the entries in the cache first. Then it asks the first entry after the range (`upper_bound`), and from there goes
back as long as the entries merge with each other.

* `find_eq`: a look-up asks the entries in the cache and then those that the search reaches, until one answers.
* `lookup_iff`: when a look-up is right.
-/

namespace Salam.Base

open List (mem_append mem_cons mem_cons_of_mem mem_filter mem_reverse pairwise_cons)

variable {V : Type}

structure AddrRangeMap (V : Type) where
  tree : List (AddrRange × V)
  cache : List AddrRange

namespace AddrRangeMap

/-! ## The functions -/

/-- The loop over the cache. -/
def scanCache (tree : List (AddrRange × V)) (cond : AddrRange → Except RangeErr Bool) :
    List AddrRange → Except RangeErr (Option (AddrRange × V))
  | [] => .ok none
  | c :: cs =>
    match tree.find? (fun e => e.1 = c) with
    | none => .error .dangling
    | some e => do
      if ← cond e.1 then .ok (some e) else scanCache tree cond cs

/-- The loop from an entry back to the first one, the entries in the order of the loop. -/
def walkBack (cond : AddrRange → Except RangeErr Bool) : List (AddrRange × V) → Except RangeErr (Option (AddrRange × V))
  | [] => .ok none
  | [i] => do
    if ← cond i.1 then .ok (some i) else .ok none
  | i :: next :: rest => do
    if ← cond i.1 then .ok (some i)
    else if next.1.mergesWith i.1 then walkBack cond (next :: rest) else .ok none

/-- The entries up to `upper_bound(r)`, and those from there on. -/
def below (tree : List (AddrRange × V)) (r : AddrRange) : List (AddrRange × V) := tree.takeWhile fun e => !r.less e.1

def above (tree : List (AddrRange × V)) (r : AddrRange) : List (AddrRange × V) := tree.dropWhile fun e => !r.less e.1

/-- The look-up in the tree. -/
def search (tree : List (AddrRange × V)) (r : AddrRange) (cond : AddrRange → Except RangeErr Bool) :
    Except RangeErr (Option (AddrRange × V)) :=
  match above tree r with
  | next :: _ => do
    if ← cond next.1 then .ok (some next) else walkBack cond (below tree r).reverse
  | [] => walkBack cond (below tree r).reverse

def addNewEntryToCache (max : Nat) (it : AddrRange) (cache : List AddrRange) : List AddrRange :=
  if max ≠ 0 then
    if cache.length ≥ max then
      -- The last element is overwritten, and moved to the front.
      if max > 1 then it :: cache.dropLast else cache.dropLast ++ [it]
    else it :: cache
  else cache

def find (max : Nat) (m : AddrRangeMap V) (r : AddrRange) (cond : AddrRange → Except RangeErr Bool) :
    Except RangeErr (AddrRangeMap V × Option (AddrRange × V)) := do
  match ← scanCache m.tree cond m.cache with
  | some e => .ok ({ m with cache := e.1 :: m.cache.erase e.1 }, some e)
  | none =>
    match ← search m.tree r cond with
    | some e => .ok ({ m with cache := addNewEntryToCache max e.1 m.cache }, some e)
    | none => .ok (m, none)

/-- `contains(const AddrRange &r)`. -/
def containsRange (max : Nat) (m : AddrRangeMap V) (r : AddrRange) :
    Except RangeErr (AddrRangeMap V × Option (AddrRange × V)) :=
  m.find max r fun r' => r.isSubset r'

/-- `contains(Addr r)`. -/
def contains (max : Nat) (m : AddrRangeMap V) (a : Addr) : Except RangeErr (AddrRangeMap V × Option (AddrRange × V)) :=
  m.containsRange max (rangeSize a 1)

def intersects (max : Nat) (m : AddrRangeMap V) (r : AddrRange) :
    Except RangeErr (AddrRangeMap V × Option (AddrRange × V)) :=
  m.find max r fun r' => r.intersects r'

/-- `std::map::insert`: nothing is inserted next to an entry with an equivalent key. -/
def insertEntry (e : AddrRange × V) : List (AddrRange × V) → List (AddrRange × V)
  | [] => [e]
  | x :: xs =>
    if e.1.less x.1 then e :: x :: xs
    else if x.1.less e.1 then x :: insertEntry e xs
    else x :: xs

/-- `insert`, with the entry that it returns an iterator to; nothing for `end()`. -/
def insert (max : Nat) (m : AddrRangeMap V) (r : AddrRange) (v : V) :
    Except RangeErr (AddrRangeMap V × Option (AddrRange × V)) := do
  match ← m.intersects max r with
  | (m, some _) => .ok (m, none)
  | (m, none) =>
    let tree := insertEntry (r, v) m.tree
    .ok ({ m with tree := tree }, tree.find? fun e => !r.less e.1 && !e.1.less r)

/-- `erase(iterator p)`, with the position of `p` in the map. -/
def erase (m : AddrRangeMap V) (p : Nat) : Option (AddrRangeMap V) :=
  match m.tree[p]? with
  | some e => some { tree := m.tree.eraseIdx p, cache := m.cache.filter (· ≠ e.1) }
  | none => none

/-- `erase(iterator p, iterator q)`: the loop removes `p` from the cache each time. -/
def eraseRange (m : AddrRangeMap V) (p q : Nat) : Option (AddrRangeMap V) :=
  if p ≤ q ∧ q ≤ m.tree.length then
    match m.tree[p]? with
    | some e => some { tree := m.tree.take p ++ m.tree.drop q, cache :=
        if p < q then m.cache.filter (· ≠ e.1) else m.cache }
    | none => some m
  else none

def clear (_ : AddrRangeMap V) : AddrRangeMap V := ⟨[], []⟩

/-! ## The calls on a map -/

inductive Op (V : Type)
  | insert (r : AddrRange) (v : V)
  | erase (p : Nat)
  | eraseRange (p q : Nat)
  | clear
  | contains (a : Addr)
  | containsRange (r : AddrRange)
  | intersects (r : AddrRange)

def step (max : Nat) (m : AddrRangeMap V) : Op V → Option (AddrRangeMap V)
  | .insert r v => (m.insert max r v).toOption.map (·.1)
  | .erase p => m.erase p
  | .eraseRange p q => m.eraseRange p q
  | .clear => some m.clear
  | .contains a => (m.contains max a).toOption.map (·.1)
  | .containsRange r => (m.containsRange max r).toOption.map (·.1)
  | .intersects r => (m.intersects max r).toOption.map (·.1)

/-- The maps with a cache of at most `max` entries. -/
def system (V : Type) (max : Nat) : System (AddrRangeMap V) (Op V) where
  init m := m = ⟨[], []⟩
  step := step max

/-- Only ranges that are disjoint from those in the map are inserted. -/
def DisjointInserts (m : AddrRangeMap V) : Op V → Prop
  | .insert r _ => ∀ e ∈ m.tree, r.Disjoint e.1
  | _ => True

/-- Only ranges that are disjoint from those in the map are inserted, and no entry but the first of a range that is
erased is in the cache. -/
def Clean (m : AddrRangeMap V) (op : Op V) : Prop :=
  DisjointInserts m op ∧
    match op with
    | .eraseRange p q => ∀ e ∈ (m.tree.take q).drop (p + 1), e.1 ∉ m.cache
    | _ => True

/-- The look-up of `a` gives the entry whose range contains it, if there is one. -/
def Right (max : Nat) (m : AddrRangeMap V) (a : Addr) : Prop :=
  ∃ m' res, m.contains max a = .ok (m', res) ∧ ∀ e, res = some e ↔ e ∈ m.tree ∧ e.1.Holds a

/-- The search for `r` asks the range `e`, if no range before it answers: `e` is the first range after `r`, or it is not
after `r` and all ranges between merge with it. -/
def Reached (tree : List (AddrRange × V)) (r e : AddrRange) : Prop :=
  if r.less e = true then ∀ x ∈ tree, r.less x.1 = true → e.key ≤ x.1.key
  else ∀ x ∈ tree, e.less x.1 = true → r.less x.1 = false → x.1.mergesWith e = true

/-- `no` is the answer of those that come before `e` in the list. -/
def AskedIn {α : Type} (no : α → Prop) (e : α) : List α → Prop
  | [] => False
  | x :: xs => x = e ∨ no x ∧ AskedIn no e xs

/-- The look-up for `r` asks the range `e`, where `no` says which ranges do not answer: those before `e` in the cache do
not; or none in the cache does, and none that the search asks before `e`. -/
def Asked (m : AddrRangeMap V) (r : AddrRange) (no : AddrRange → Prop) (e : AddrRange) : Prop :=
  AskedIn no e m.cache ∨ (∀ c ∈ m.cache, no c) ∧ Reached m.tree r e ∧
    ∀ x ∈ m.tree, Reached m.tree r x.1 → e.key < x.1.key → no x.1

/-- When the look-up of `a` is right: `isSubset` is, for the ranges that are asked up to the one that holds `a`, and the
search does not stop before it. -/
structure Found (m : AddrRangeMap V) (a : Addr) : Prop where
  plain : ∀ e ∈ m.tree, Asked m (rangeSize a 1) (fun x => ¬ x.Holds a) e.1 → e.1.Plain a
  reached : ∀ e ∈ m.tree, e.1.Holds a → e.1 ∈ m.cache ∨ Reached m.tree (rangeSize a 1) e.1

/-! ## The search -/

/-- The entries are in the order of `operator<`. -/
def Sorted (tree : List (AddrRange × V)) : Prop := tree.Pairwise fun x y => x.1.key < y.1.key

theorem not_less_iff {r r' : AddrRange} : (!r.less r') = true ↔ r'.key ≤ r.key := by
  rw [Bool.not_eq_true', Bool.eq_false_iff, ne_eq, AddrRange.less_iff, Nat.not_lt]

variable {r : AddrRange}

theorem below_eq : ∀ {tree : List (AddrRange × V)}, Sorted tree →
    below tree r = tree.filter fun e => !r.less e.1
  | [], _ => rfl
  | x :: xs, h => by
    obtain ⟨hx, hxs⟩ := pairwise_cons.mp h
    by_cases hr : (!r.less x.1) = true
    · rw [below, List.takeWhile_cons_of_pos (by exact hr), List.filter_cons_of_pos (by exact hr)]
      exact congrArg (x :: ·) (below_eq hxs)
    · rw [below, List.takeWhile_cons_of_neg (by exact hr), List.filter_cons_of_neg (by exact hr), Eq.comm,
        List.filter_eq_nil_iff]
      intro y hy
      rw [not_less_iff] at hr ⊢
      have := hx y hy
      omega

theorem above_eq : ∀ {tree : List (AddrRange × V)}, Sorted tree →
    above tree r = tree.filter fun e => r.less e.1
  | [], _ => rfl
  | x :: xs, h => by
    obtain ⟨hx, hxs⟩ := pairwise_cons.mp h
    by_cases hr : (!r.less x.1) = true
    · rw [above, List.dropWhile_cons_of_pos (by exact hr), List.filter_cons_of_neg (by simpa using hr)]
      exact above_eq hxs
    · rw [above, List.dropWhile_cons_of_neg (by exact hr), Eq.comm, List.filter_eq_self]
      intro y hy
      rw [not_less_iff] at hr
      rw [AddrRange.less_iff]
      rcases mem_cons.mp hy with rfl | hy
      · omega
      · have := hx y hy
        omega

/-- The entries of the map have different ranges. -/
theorem Sorted.eq_of_key {tree : List (AddrRange × V)} (h : Sorted tree) {x y : AddrRange × V} (hx : x ∈ tree)
    (hy : y ∈ tree) (hxy : x.1.key = y.1.key) : x = y := by
  by_contra hne
  have hpair : tree.Pairwise fun x y => x.1.key ≠ y.1.key := h.imp fun hlt => Nat.ne_of_lt hlt
  have : Std.Symm fun x y : AddrRange × V => x.1.key ≠ y.1.key := ⟨fun _ _ => Ne.symm⟩
  exact hpair.forall hx hy hne hxy

section FindM

variable {α : Type} {p : α → Except RangeErr Bool} {no : α → Prop} {e : α}

theorem findM?_eq_none : ∀ {l : List α}, l.findM? p = .ok none ↔ ∀ x ∈ l, p x = .ok false
  | [] => by simp [List.findM?, pure, Except.pure]
  | x :: xs => by
    rw [List.forall_mem_cons, ← findM?_eq_none]
    cases hx : p x with
    | error err => simp [List.findM?, hx, bind, Except.bind]
    | ok b => cases b <;> simp [List.findM?, hx, bind, Except.bind, pure, Except.pure]

theorem findM?_eq_some : ∀ {l : List α}, l.findM? p = .ok (some e) ↔ AskedIn (fun x => p x = .ok false) e l ∧
    p e = .ok true
  | [] => by simp [List.findM?, AskedIn, pure, Except.pure]
  | x :: xs => by
    rw [AskedIn]
    cases hx : p x with
    | error err =>
      simp only [List.findM?, hx, bind, Except.bind]
      refine ⟨fun h => (by cases h), ?_⟩
      rintro ⟨rfl | ⟨h, -⟩, he⟩
      · exact absurd (hx.symm.trans he) (by simp)
      · cases h
    | ok b =>
      cases b with
      | true =>
        simp only [List.findM?, hx, bind, Except.bind, pure, Except.pure, Except.ok.injEq, Option.some.injEq,
          Bool.true_eq_false, false_and, or_false]
        exact ⟨fun h => ⟨h, h ▸ hx⟩, And.left⟩
      | false =>
        simp only [List.findM?, hx, bind, Except.bind, true_and]
        rw [findM?_eq_some]
        refine and_congr_left fun he => ⟨Or.inr, ?_⟩
        rintro (rfl | h)
        · exact absurd (hx.symm.trans he) (by simp)
        · exact h

theorem findM?_append {l' : List α} : ∀ {l : List α}, (l ++ l').findM? p =
    (do match ← l.findM? p with
      | some x => .ok (some x)
      | none => l'.findM? p)
  | [] => by simp [List.findM?, bind, Except.bind, pure, Except.pure]
  | x :: xs => by
    have ih : (xs ++ l').findM? p = _ := findM?_append
    cases hx : p x with
    | error err => simp [List.findM?, hx, bind, Except.bind]
    | ok b => cases b <;> simp_all [List.findM?, bind, Except.bind, pure, Except.pure]

theorem AskedIn.mem : ∀ {l : List α}, AskedIn no e l → e ∈ l
  | _ :: _, .inl rfl => List.mem_cons_self
  | _ :: _, .inr h => mem_cons_of_mem _ h.2.mem

theorem askedIn_append {l' : List α} : ∀ {l : List α},
    AskedIn no e (l ++ l') ↔ AskedIn no e l ∨ (∀ x ∈ l, no x) ∧ AskedIn no e l'
  | [] => by simp [AskedIn]
  | x :: xs => by
    rw [List.cons_append, AskedIn, AskedIn, askedIn_append, List.forall_mem_cons]
    tauto

/-- In a list in descending order those before `e` are the greater ones. -/
theorem askedIn_of_desc {key : α → Nat} : ∀ {l : List α}, l.Pairwise (fun x y => key y < key x) →
    (AskedIn no e l ↔ e ∈ l ∧ ∀ x ∈ l, key e < key x → no x)
  | [], _ => by simp [AskedIn]
  | x :: xs, h => by
    obtain ⟨hx, hxs⟩ := pairwise_cons.mp h
    rw [AskedIn, askedIn_of_desc hxs, mem_cons, List.forall_mem_cons]
    constructor
    · rintro (rfl | ⟨hno, he, hall⟩)
      · exact ⟨.inl rfl, fun h => absurd h (Nat.lt_irrefl _), fun y hy h => absurd (hx y hy) (Nat.lt_asymm h)⟩
      · exact ⟨.inr he, fun _ => hno, hall⟩
    · rintro ⟨rfl | he, hno, hall⟩
      · exact .inl rfl
      · exact .inr ⟨hno (hx e he), he, hall⟩

/-- Where no answer is missed, the first that answers is the one that there is, if those asked before it and it answer
as they should and it is in the list. -/
theorem findM?_right {T l : List α} {P : α → Prop} [DecidablePred P] (hmiss : ∀ x, p x = .ok false → ¬ P x)
    (hunique : ∀ x ∈ T, ∀ y ∈ T, P x → P y → x = y) (hsub : l ⊆ T) :
    (∃ res, l.findM? p = .ok res ∧ ∀ e, res = some e ↔ e ∈ T ∧ P e) ↔
      (∀ e, AskedIn (fun x => ¬ P x) e l → p e = .ok (P e)) ∧ ∀ e ∈ T, P e → e ∈ l := by
  induction l with
  | nil => simp [List.findM?, AskedIn, pure, Except.pure]
  | cons x xs ih =>
    obtain ⟨hxT, hsub⟩ := List.cons_subset.mp hsub
    simp only [AskedIn, or_imp, forall_and, mem_cons, forall_eq']
    have hwrong : p x ≠ .ok (P x) → ¬ ∃ res, (x :: xs).findM? p = .ok res ∧ ∀ e, res = some e ↔ e ∈ T ∧ P e := by
      rintro hne ⟨res, hres, hall⟩
      cases hx : p x with
      | error err => simp [List.findM?, hx, bind, Except.bind] at hres
      | ok b =>
        cases b with
        | false => exact hne (by rw [hx, decide_eq_false (hmiss x hx)])
        | true =>
          simp only [List.findM?, hx, bind, Except.bind, pure, Except.pure, Except.ok.injEq] at hres
          exact hne (by rw [hx, decide_eq_true ((hall x).mp hres.symm).2])
    by_cases hright : p x = .ok (P x)
    · by_cases hP : P x
      · rw [decide_eq_true hP] at hright
        simp only [List.findM?, hright, bind, Except.bind, pure, Except.pure, hP]
        refine iff_of_true ⟨_, rfl, fun e => ?_⟩ ⟨⟨by simp, fun e h => absurd trivial h.1⟩, fun e he hPe => ?_⟩
        · refine ⟨fun h => ?_, fun h => by rw [hunique x hxT e h.1 hP h.2]⟩
          cases h
          exact ⟨hxT, hP⟩
        · exact .inl (hunique e he x hxT hPe hP)
      · rw [decide_eq_false hP] at hright
        simp only [List.findM?, hright, bind, Except.bind, hP]
        rw [ih hsub]
        refine and_congr (by simp) (forall₃_congr fun e he hPe => ⟨.inr, fun h => h.resolve_left ?_⟩)
        rintro rfl
        exact hP hPe
    · exact iff_of_false (hwrong hright) fun h => hright h.1.1

end FindM

section Search

variable {cond : AddrRange → Except RangeErr Bool} {tree : List (AddrRange × V)} {r : AddrRange}

/-- The entries that the loop asks as long as they answer no. -/
def chain : List (AddrRange × V) → List (AddrRange × V)
  | [] => []
  | [i] => [i]
  | i :: next :: rest => i :: if next.1.mergesWith i.1 then chain (next :: rest) else []

theorem walkBack_eq : ∀ l : List (AddrRange × V), walkBack cond l = (chain l).findM? fun e => cond e.1
  | [] => rfl
  | [i] => by
    simp only [walkBack, chain, List.findM?]
    cases cond i.1 with
    | error err => rfl
    | ok b => cases b <;> rfl
  | i :: next :: rest => by
    have ih := walkBack_eq (next :: rest)
    simp only [walkBack, chain, List.findM?]
    cases cond i.1 with
    | error err => rfl
    | ok b =>
      cases b with
      | true => rfl
      | false =>
        simp only [bind, Except.bind, Bool.false_eq_true, if_false]
        split
        · exact ih
        · rfl

theorem chain_sublist : ∀ l : List (AddrRange × V), (chain l).Sublist l
  | [] => .slnil
  | [i] => List.Sublist.refl [i]
  | i :: next :: rest => by
    rw [chain]
    split
    · exact (chain_sublist (next :: rest)).cons_cons i
    · exact (List.nil_sublist _).cons_cons i

/-- The loop comes to the entries that merge with all entries before them. -/
theorem mem_chain {e : AddrRange × V} : ∀ {l : List (AddrRange × V)}, l.Pairwise (fun x y => y.1.key < x.1.key) →
    (e ∈ chain l ↔ e ∈ l ∧ ∀ x ∈ l, e.1.key < x.1.key → x.1.mergesWith e.1 = true)
  | [], _ => by simp [chain]
  | [i], _ => by
    rw [chain, List.mem_singleton, List.forall_mem_singleton]
    refine ⟨?_, And.left⟩
    rintro rfl
    exact ⟨rfl, fun h => absurd h (Nat.lt_irrefl _)⟩
  | i :: next :: rest, h => by
    obtain ⟨hi, htail⟩ := pairwise_cons.mp h
    have ih := mem_chain (e := e) htail
    rw [chain, mem_cons, mem_cons, List.forall_mem_cons]
    by_cases hei : e = i
    · subst hei
      refine iff_of_true (.inl rfl) ⟨.inl rfl, fun h => absurd h (Nat.lt_irrefl _), fun x hx h => ?_⟩
      exact absurd (hi x hx) (Nat.lt_asymm h)
    · simp only [hei, false_or]
      -- the next entry merges with `e` if all entries from it on that are before `e` do
      have hnext : e ∈ next :: rest → (∀ x ∈ next :: rest, e.1.key < x.1.key → x.1.mergesWith e.1 = true) →
          next.1.mergesWith e.1 = true := by
        intro he hall
        rcases mem_cons.mp he with rfl | he
        · exact AddrRange.mergesWith_iff.mpr ⟨rfl, rfl, rfl⟩
        · exact hall next List.mem_cons_self ((pairwise_cons.mp htail).1 e he)
      constructor
      · intro he
        split at he
        · rename_i hm
          obtain ⟨hmem, hall⟩ := ih.mp he
          exact ⟨hmem, fun _ => AddrRange.mergesWith_trans (AddrRange.mergesWith_symm hm) (hnext hmem hall), hall⟩
        · cases he
      · rintro ⟨hmem, hie, hall⟩
        have hm := AddrRange.mergesWith_trans (hnext hmem hall) (AddrRange.mergesWith_symm (hie (hi e hmem)))
        rw [if_pos hm]
        exact ih.mpr ⟨hmem, hall⟩

/-- The entries that the search for `r` asks as long as they answer no. -/
def path (tree : List (AddrRange × V)) (r : AddrRange) : List (AddrRange × V) :=
  (above tree r).head?.toList ++ chain (below tree r).reverse

theorem search_eq : search tree r cond = (path tree r).findM? fun e => cond e.1 := by
  unfold search path
  split
  · rename_i next rest hab
    rw [hab, walkBack_eq]
    simp only [List.head?_cons, Option.toList_some, List.singleton_append, List.findM?]
    cases cond next.1 with
    | error err => rfl
    | ok b => cases b <;> rfl
  · rename_i hab
    rw [hab, walkBack_eq]
    rfl

theorem path_subset : path tree r ⊆ tree := by
  intro e he
  rcases mem_append.mp he with he | he
  · exact (List.dropWhile_sublist _).subset (List.mem_of_mem_head? (Option.mem_toList.mp he))
  · exact (List.takeWhile_sublist _).subset (mem_reverse.mp ((chain_sublist _).subset he))

/-- The first entry after `r`. -/
theorem head?_above (hs : Sorted tree) {e : AddrRange × V} : (above tree r).head? = some e ↔
    e ∈ tree ∧ r.less e.1 = true ∧ ∀ x ∈ tree, r.less x.1 = true → e.1.key ≤ x.1.key := by
  have hmem : ∀ x, x ∈ above tree r ↔ x ∈ tree ∧ r.less x.1 = true := by
    intro x
    rw [above_eq hs, mem_filter]
  have hsorted : Sorted (above tree r) := by
    rw [above_eq hs]
    exact hs.filter _
  cases hab : above tree r with
  | nil =>
    refine ⟨fun h => (by cases h), fun h => ?_⟩
    have := (hmem e).mpr ⟨h.1, h.2.1⟩
    rw [hab] at this
    cases this
  | cons next rest =>
    rw [hab] at hmem hsorted
    have hnext := (hmem next).mp List.mem_cons_self
    have hfirst : ∀ x ∈ tree, r.less x.1 = true → next.1.key ≤ x.1.key := by
      intro x hx hxr
      rcases mem_cons.mp ((hmem x).mpr ⟨hx, hxr⟩) with rfl | hx
      · exact Nat.le_refl _
      · exact Nat.le_of_lt ((pairwise_cons.mp hsorted).1 x hx)
    rw [List.head?_cons, Option.some.injEq]
    refine ⟨?_, fun h => ?_⟩
    · rintro rfl
      exact ⟨hnext.1, hnext.2, hfirst⟩
    · exact hs.eq_of_key hnext.1 h.1 (Nat.le_antisymm (hfirst e h.1 h.2.1) (h.2.2 next hnext.1 hnext.2))

theorem below_desc (hs : Sorted tree) : (below tree r).reverse.Pairwise fun x y => y.1.key < x.1.key := by
  rw [List.pairwise_reverse, below_eq hs]
  exact hs.filter _

theorem mem_path (hs : Sorted tree) {e : AddrRange × V} : e ∈ path tree r ↔ e ∈ tree ∧ Reached tree r e.1 := by
  have hbelow : ∀ x, x ∈ (below tree r).reverse ↔ x ∈ tree ∧ r.less x.1 = false := by
    intro x
    rw [mem_reverse, below_eq hs, mem_filter, Bool.not_eq_true']
  rw [path, mem_append, Option.mem_toList, mem_chain (below_desc hs), hbelow, head?_above hs]
  cases hless : r.less e.1 with
  | true => simp [Reached, hless]
  | false =>
    simp only [Reached, hless, Bool.false_eq_true, if_false, false_and, and_false, false_or, and_true]
    refine and_congr_right fun _ => ⟨fun h x hx hex hxr => ?_, fun h x hx hex => ?_⟩
    · exact h x ((hbelow x).mpr ⟨hx, hxr⟩) (AddrRange.less_iff.mp hex)
    · obtain ⟨hx, hxr⟩ := (hbelow x).mp hx
      exact h x hx (AddrRange.less_iff.mpr hex) hxr

/-- The search goes down in the order of `operator<`. -/
theorem path_desc (hs : Sorted tree) : (path tree r).Pairwise fun x y => y.1.key < x.1.key := by
  rw [path, List.pairwise_append]
  refine ⟨?_, (below_desc hs).sublist (chain_sublist _), fun x hx y hy => ?_⟩
  · cases (above tree r).head? <;> simp
  · obtain ⟨-, hxr, -⟩ := (head?_above hs).mp (Option.mem_toList.mp hx)
    have hy := (chain_sublist _).subset hy
    rw [mem_reverse, below_eq hs, mem_filter, not_less_iff] at hy
    rw [AddrRange.less_iff] at hxr
    omega

theorem mem_of_search {e : AddrRange × V} (h : search tree r cond = .ok (some e)) : e ∈ tree := by
  rw [search_eq, findM?_eq_some] at h
  exact path_subset h.1.mem

/-! ## The cache -/

theorem mem_of_scanCache : ∀ {cache : List AddrRange} {e : AddrRange × V},
    scanCache tree cond cache = .ok (some e) → e ∈ tree
  | [], e, h => by cases h
  | c :: cs, e, h => by
    simp only [scanCache] at h
    split at h
    · cases h
    · rename_i e' hfind
      simp only [bind, Except.bind] at h
      split at h
      · cases h
      · split at h
        · cases h
          exact List.mem_of_find?_eq_some hfind
        · exact mem_of_scanCache h

/-- The cache has only entries of the map. -/
def Cached (tree : List (AddrRange × V)) (cache : List AddrRange) : Prop := ∀ c ∈ cache, ∃ e ∈ tree, e.1 = c

theorem Cached.find {cache : List AddrRange} (h : Cached tree cache) {c : AddrRange} (hc : c ∈ cache) :
    ∃ e ∈ tree, e.1 = c ∧ tree.find? (fun e => e.1 = c) = some e := by
  obtain ⟨e, he, rfl⟩ := h c hc
  cases hfind : tree.find? (fun x => x.1 = e.1) with
  | none =>
    have := List.find?_eq_none.mp hfind e he
    simp at this
  | some x => exact ⟨x, List.mem_of_find?_eq_some hfind, by simpa using List.find?_some hfind, rfl⟩

/-- The entries of the ranges in the cache. -/
def entries (tree : List (AddrRange × V)) (cache : List AddrRange) : List (AddrRange × V) :=
  cache.filterMap fun c => tree.find? fun e => e.1 = c

theorem scanCache_eq : ∀ {cache : List AddrRange}, Cached tree cache →
    scanCache tree cond cache = (entries tree cache).findM? fun e => cond e.1
  | [], _ => rfl
  | c :: cs, h => by
    obtain ⟨e, -, -, hfind⟩ := h.find (show c ∈ c :: cs by simp)
    have ih := scanCache_eq fun c hc => h c (mem_cons_of_mem _ hc)
    simp only [scanCache, entries, List.filterMap_cons, hfind, List.findM?]
    cases cond e.1 with
    | error err => rfl
    | ok b =>
      cases b with
      | true => rfl
      | false => exact ih

theorem mem_entries {e : AddrRange × V} (hs : Sorted tree) {cache : List AddrRange} :
    e ∈ entries tree cache ↔ e ∈ tree ∧ e.1 ∈ cache := by
  rw [entries, List.mem_filterMap]
  constructor
  · rintro ⟨c, hc, hfind⟩
    have hec : e.1 = c := by simpa using List.find?_some hfind
    exact ⟨List.mem_of_find?_eq_some hfind, hec ▸ hc⟩
  · rintro ⟨he, hc⟩
    refine ⟨e.1, hc, ?_⟩
    have hcached : Cached tree [e.1] := by simpa [Cached] using ⟨e.2, he⟩
    obtain ⟨x, hx, hxe, hfind⟩ := hcached.find List.mem_cons_self
    rw [hfind, hs.eq_of_key hx he (by rw [hxe])]

theorem askedIn_entries (no : AddrRange → Prop) {e : AddrRange × V} (hs : Sorted tree) (he : e ∈ tree) :
    ∀ {cache : List AddrRange}, Cached tree cache →
      (AskedIn (fun x => no x.1) e (entries tree cache) ↔ AskedIn no e.1 cache)
  | [], _ => Iff.rfl
  | c :: cs, h => by
    obtain ⟨x, hx, hxc, hfind⟩ := h.find (show c ∈ c :: cs by simp)
    have ih := askedIn_entries no hs he fun c hc => h c (mem_cons_of_mem _ hc)
    have hhead : x = e ↔ c = e.1 := ⟨fun h => by rw [← hxc, h], fun h => hs.eq_of_key hx he (by rw [hxc, h])⟩
    simp only [entries, List.filterMap_cons, hfind, AskedIn, hxc, hhead]
    rw [← ih, entries]

theorem mem_addNewEntryToCache {max : Nat} {it c : AddrRange} {cache : List AddrRange}
    (h : c ∈ addNewEntryToCache max it cache) : c = it ∨ c ∈ cache := by
  have hdrop : c ∈ cache.dropLast → c ∈ cache := fun hc => (List.dropLast_sublist cache).subset hc
  unfold addNewEntryToCache at h
  split at h
  · split at h
    · split at h
      · exact (mem_cons.mp h).imp_right hdrop
      · rcases mem_append.mp h with h | h
        · exact .inr (hdrop h)
        · exact .inl (List.mem_singleton.mp h)
    · exact mem_cons.mp h
  · exact .inr h

theorem find_keeps {max : Nat} {m m' : AddrRangeMap V} {res : Option (AddrRange × V)}
    (h : m.find max r cond = .ok (m', res)) : m'.tree = m.tree ∧ (Cached m.tree m.cache → Cached m.tree m'.cache) := by
  unfold find at h
  simp only [bind, Except.bind] at h
  split at h
  · cases h
  · rename_i hit hscan
    cases hit with
    | some e =>
      cases h
      refine ⟨rfl, fun hc c hmem => ?_⟩
      rcases mem_cons.mp hmem with rfl | hmem
      · exact ⟨e, mem_of_scanCache hscan, rfl⟩
      · exact hc c (List.mem_of_mem_erase hmem)
    | none =>
      simp only at h
      split at h
      · cases h
      · rename_i found hsearch
        cases found with
        | some e =>
          cases h
          refine ⟨rfl, fun hc c hmem => ?_⟩
          rcases mem_addNewEntryToCache hmem with rfl | hmem
          · exact ⟨e, mem_of_search hsearch, rfl⟩
          · exact hc c hmem
        | none =>
          cases h
          exact ⟨rfl, id⟩

/-- The entries that the look-up for `r` asks as long as they answer no. -/
def asked (m : AddrRangeMap V) (r : AddrRange) : List (AddrRange × V) := entries m.tree m.cache ++ path m.tree r

/-- **What a look-up finds.** -/
theorem find_eq {m : AddrRangeMap V} (h : Cached m.tree m.cache) (max : Nat) (r : AddrRange)
    (cond : AddrRange → Except RangeErr Bool) :
    (m.find max r cond).map (·.2) = (asked m r).findM? fun e => cond e.1 := by
  rw [find, asked, findM?_append, ← scanCache_eq h, ← search_eq]
  cases scanCache m.tree cond m.cache with
  | error err => rfl
  | ok hit =>
    cases hit with
    | some e => rfl
    | none =>
      simp only [bind, Except.bind]
      cases search m.tree r cond with
      | error err => rfl
      | ok res => cases res <;> rfl

theorem mem_asked {m : AddrRangeMap V} {e : AddrRange × V} (hs : Sorted m.tree) :
    e ∈ asked m r ↔ e ∈ m.tree ∧ (e.1 ∈ m.cache ∨ Reached m.tree r e.1) := by
  rw [asked, mem_append, mem_entries hs, mem_path hs, and_or_left]

theorem askedIn_asked (no : AddrRange → Prop) {m : AddrRangeMap V} {e : AddrRange × V} (hs : Sorted m.tree)
    (hc : Cached m.tree m.cache) : AskedIn (fun x => no x.1) e (asked m r) ↔ e ∈ m.tree ∧ Asked m r no e.1 := by
  by_cases he : e ∈ m.tree
  · have hall : (∀ x ∈ entries m.tree m.cache, no x.1) ↔ ∀ c ∈ m.cache, no c := by
      refine ⟨fun h c hmem => ?_, fun h x hx => h x.1 ((mem_entries hs).mp hx).2⟩
      obtain ⟨x, hx, rfl⟩ := hc c hmem
      exact h x ((mem_entries hs).mpr ⟨hx, hmem⟩)
    have hpath : AskedIn (fun x => no x.1) e (path m.tree r) ↔ Reached m.tree r e.1 ∧
        ∀ x ∈ m.tree, Reached m.tree r x.1 → e.1.key < x.1.key → no x.1 := by
      rw [askedIn_of_desc (path_desc hs), mem_path hs]
      simp only [he, true_and, mem_path hs, and_imp]
    rw [asked, askedIn_append, askedIn_entries _ hs he hc, hall, hpath, Asked]
    simp [he]
  · refine iff_of_false (fun h => he ?_) fun h => he h.1
    exact ((mem_asked hs).mp h.mem).1

end Search

/-! ## The invariant -/

/-- The map holds disjoint ranges in their order, and the cache entries of the map. -/
structure Inv (m : AddrRangeMap V) : Prop where
  sorted : Sorted m.tree
  disjoint : ∀ x ∈ m.tree, ∀ y ∈ m.tree, x ≠ y → x.1.Disjoint y.1
  cached : Cached m.tree m.cache

theorem mem_insertEntry {e x : AddrRange × V} : ∀ {l : List (AddrRange × V)}, x ∈ insertEntry e l → x = e ∨ x ∈ l
  | [], h => by simpa [insertEntry] using h
  | y :: l, h => by
    unfold insertEntry at h
    split at h
    · exact mem_cons.mp h
    · split at h
      · rcases mem_cons.mp h with rfl | h
        · exact .inr (by simp)
        · exact (mem_insertEntry h).imp_right (mem_cons_of_mem y)
      · exact .inr h

theorem subset_insertEntry (e : AddrRange × V) : ∀ l : List (AddrRange × V), l ⊆ insertEntry e l
  | [] => by simp
  | y :: l => by
    unfold insertEntry
    split
    · exact List.subset_cons_self _ _
    · split
      · exact List.cons_subset_cons y (subset_insertEntry e l)
      · exact List.Subset.refl _

theorem sorted_insertEntry (e : AddrRange × V) : ∀ {l : List (AddrRange × V)}, Sorted l → Sorted (insertEntry e l)
  | [], _ => List.pairwise_singleton _ _
  | y :: l, h => by
    obtain ⟨hy, hl⟩ := pairwise_cons.mp h
    unfold insertEntry
    split
    · rename_i hless
      rw [AddrRange.less_iff] at hless
      refine pairwise_cons.mpr ⟨fun x hx => ?_, h⟩
      rcases mem_cons.mp hx with rfl | hx
      · exact hless
      · exact Nat.lt_trans hless (hy x hx)
    · split
      · rename_i hless
        rw [AddrRange.less_iff] at hless
        refine pairwise_cons.mpr ⟨fun x hx => ?_, sorted_insertEntry e hl⟩
        rcases mem_insertEntry hx with rfl | hx
        · exact hless
        · exact hy x hx
      · exact h

variable {m : AddrRangeMap V}

theorem Inv.insert (h : Inv m) (v : V) (hr : ∀ e ∈ m.tree, r.Disjoint e.1) :
    Inv { m with tree := insertEntry (r, v) m.tree } := by
  refine ⟨sorted_insertEntry _ h.sorted, ?_, ?_⟩
  · intro x hx y hy hne
    rcases mem_insertEntry hx with rfl | hx
    · rcases mem_insertEntry hy with rfl | hy
      · exact absurd rfl hne
      · exact hr y hy
    · rcases mem_insertEntry hy with rfl | hy
      · exact (hr x hx).symm
      · exact h.disjoint x hx y hy hne
  · intro c hc
    obtain ⟨e, he, hce⟩ := h.cached c hc
    exact ⟨e, subset_insertEntry _ _ he, hce⟩

variable {tree : List (AddrRange × V)}

theorem Inv.sublist (h : Inv m) {cache : List AddrRange} (hsub : tree.Sublist m.tree) (hc : Cached tree cache) :
    Inv ⟨tree, cache⟩ :=
  ⟨List.Pairwise.sublist hsub h.sorted, fun x hx y hy => h.disjoint x (hsub.subset hx) y (hsub.subset hy), hc⟩

variable {m m' : AddrRangeMap V}

theorem Inv.find {max : Nat} {cond : AddrRange → Except RangeErr Bool} {res : Option (AddrRange × V)} (h : Inv m)
    (hf : m.find max r cond = .ok (m', res)) : Inv m' := by
  obtain ⟨htree, hcached⟩ := find_keeps hf
  obtain ⟨tree, cache⟩ := m'
  cases htree
  exact ⟨h.sorted, h.disjoint, hcached h.cached⟩

theorem Inv.lookup {max : Nat} {cond : AddrRange → Except RangeErr Bool} (h : Inv m)
    (hm : (m.find max r cond).toOption.map (·.1) = some m') : Inv m' := by
  obtain ⟨⟨m₁, res⟩, hf, rfl⟩ := Option.map_eq_some_iff.mp hm
  exact h.find (ok_of_toOption hf)

theorem Cached.erase {p : Nat} (h : Cached m.tree m.cache) (he : m.erase p = some m') :
    m'.tree.Sublist m.tree ∧ Cached m'.tree m'.cache := by
  unfold AddrRangeMap.erase at he
  split at he
  · rename_i e hp
    cases he
    refine ⟨List.eraseIdx_sublist _ _, fun c hc => ?_⟩
    rw [mem_filter, decide_eq_true_iff] at hc
    obtain ⟨x, hx, hxc⟩ := h c hc.1
    refine ⟨x, ?_, hxc⟩
    obtain ⟨i, hi⟩ := List.mem_iff_getElem?.mp hx
    refine List.mem_eraseIdx_iff_getElem?.mpr ⟨i, ?_, hi⟩
    rintro rfl
    rw [hp] at hi
    cases hi
    exact hc.2 hxc.symm
  · cases he

theorem Inv.erase {p : Nat} (h : Inv m) (he : m.erase p = some m') : Inv m' := by
  obtain ⟨hsub, hcached⟩ := h.cached.erase he
  exact h.sublist hsub hcached

variable {e : AddrRange × V} {p q : Nat}

/-- The entries before `p`, `p`, the entries up to `q`, and the rest. -/
theorem tree_split (hpq : p < q) (hq : q ≤ tree.length) (hp : tree[p]? = some e) :
    tree = tree.take p ++ e :: (tree.take q).drop (p + 1) ++ tree.drop q := by
  have hlt : p < tree.length := (List.getElem?_eq_some_iff.mp hp).1
  have hpe : (tree.take q).drop p = e :: (tree.take q).drop (p + 1) := by
    have hlen : p < (tree.take q).length := by
      rw [List.length_take]
      omega
    rw [List.drop_eq_getElem_cons hlen, List.getElem_take]
    rw [List.getElem?_eq_getElem hlt] at hp
    rw [Option.some.inj hp]
  have htake : (tree.take q).take p = tree.take p := by
    rw [List.take_take, Nat.min_eq_left (Nat.le_of_lt hpq)]
  rw [← hpe, ← htake, List.take_append_drop, List.take_append_drop]

theorem eraseRange_cases (he : m.eraseRange p q = some m') :
    m' = m ∧ (m.tree.take q).drop (p + 1) = [] ∨ ∃ e, p < q ∧ q ≤ m.tree.length ∧ m.tree[p]? = some e ∧
      m' = { tree := m.tree.take p ++ m.tree.drop q, cache := m.cache.filter (· ≠ e.1) } := by
  obtain ⟨⟨hpq, hq⟩, he⟩ := Option.ite_none_right_eq_some.mp he
  split at he
  · rename_i e hp
    cases he
    by_cases hlt : p < q
    · exact .inr ⟨e, hlt, hq, hp, by rw [if_pos hlt]⟩
    · obtain rfl : p = q := by omega
      refine .inl ⟨by rw [if_neg hlt, List.take_append_drop], ?_⟩
      rw [List.drop_eq_nil_iff, List.length_take]
      omega
  · rename_i hp
    cases he
    refine .inl ⟨rfl, ?_⟩
    rw [List.getElem?_eq_none_iff] at hp
    rw [List.drop_eq_nil_iff, List.length_take]
    omega

theorem Cached.eraseRange (h : Cached m.tree m.cache) (he : m.eraseRange p q = some m')
    (hclean : ∀ e ∈ (m.tree.take q).drop (p + 1), e.1 ∉ m.cache) :
      m'.tree.Sublist m.tree ∧ Cached m'.tree m'.cache := by
  rcases eraseRange_cases he with ⟨rfl, -⟩ | ⟨e, hpq, hq, hp, rfl⟩
  · exact ⟨List.Sublist.refl _, h⟩
  · constructor
    · conv_rhs => rw [← List.take_append_drop p m.tree]
      exact (List.Sublist.refl _).append (List.drop_sublist_drop_left m.tree (Nat.le_of_lt hpq))
    · intro c hc
      rw [mem_filter, decide_eq_true_iff] at hc
      obtain ⟨x, hx, hxc⟩ := h c hc.1
      refine ⟨x, ?_, hxc⟩
      rw [tree_split hpq hq hp, mem_append, mem_append, mem_cons] at hx
      rcases hx with (hx | rfl | hx) | hx
      · exact List.mem_append_left _ hx
      · exact absurd hxc.symm hc.2
      · exact absurd (hxc ▸ hc.1) (hclean x hx)
      · exact List.mem_append_right _ hx

theorem Inv.eraseRange (h : Inv m) (he : m.eraseRange p q = some m')
    (hclean : ∀ e ∈ (m.tree.take q).drop (p + 1), e.1 ∉ m.cache) : Inv m' := by
  obtain ⟨hsub, hcached⟩ := h.cached.eraseRange he hclean
  exact h.sublist hsub hcached

/-- What a call of `insert` does to the map. -/
theorem insert_of_step {max : Nat} {v : V} (h : step max m (.insert r v) = some m') :
    ∃ m₁ res, m.intersects max r = .ok (m₁, res) ∧
      (res.isSome = true ∧ m' = m₁ ∨ res = none ∧ m' = { m₁ with tree := insertEntry (r, v) m₁.tree }) := by
  obtain ⟨⟨m₂, end_⟩, hi, rfl⟩ := Option.map_eq_some_iff.mp h
  replace hi := ok_of_toOption hi
  unfold AddrRangeMap.insert at hi
  simp only [bind, Except.bind] at hi
  split at hi
  · cases hi
  · rename_i out hint
    obtain ⟨m₁, res⟩ := out
    refine ⟨m₁, res, hint, ?_⟩
    cases res with
    | some e =>
      cases hi
      exact .inl ⟨rfl, rfl⟩
    | none =>
      cases hi
      exact .inr ⟨rfl, rfl⟩

theorem inv_of_step {max : Nat} {op : Op V} (h : Inv m) (hc : Clean m op) (hstep : step max m op = some m') :
    Inv m' := by
  cases op with
  | insert r v =>
    obtain ⟨m₁, res, hint, hcase⟩ := insert_of_step hstep
    have hinv := h.find hint
    have htree := (find_keeps hint).1
    rcases hcase with ⟨-, rfl⟩ | ⟨-, rfl⟩
    · exact hinv
    · exact hinv.insert v (htree ▸ hc.1)
  | erase p => exact h.erase hstep
  | eraseRange p q => exact h.eraseRange hstep hc.2
  | clear =>
    cases hstep
    exact ⟨List.Pairwise.nil, by simp [clear], by simp [clear, Cached]⟩
  | contains a => exact h.lookup hstep
  | containsRange r => exact h.lookup hstep
  | intersects r => exact h.lookup hstep

theorem inv_of_reachable {max : Nat} (h : (system V max).ReachableWhen Clean m) : Inv m := by
  refine System.invariantWhen (I := Inv) ?_ ?_ h
  · rintro _ rfl
    exact ⟨List.Pairwise.nil, by simp, by simp [Cached]⟩
  · intro s op s' _ hi hc hs
    exact inv_of_step hi hc hs

/-! ## The look-up of an address -/

variable {a : Addr}

theorem Inv.unique (h : Inv m) {x y : AddrRange × V} (hx : x ∈ m.tree) (hy : y ∈ m.tree) (hxa : x.1.Holds a)
    (hya : y.1.Holds a) : x = y := by
  by_contra hne
  exact h.disjoint x hx y hy hne a ⟨hxa, hya⟩

theorem right_iff_findM? {max : Nat} (h : Inv m) : Right max m a ↔
    ∃ res, (asked m (rangeSize a 1)).findM? (fun e => (rangeSize a 1).isSubset e.1) = .ok res ∧
      ∀ e, res = some e ↔ e ∈ m.tree ∧ e.1.Holds a := by
  rw [← find_eq h.cached max]
  show (∃ m' res, m.find max _ _ = .ok (m', res) ∧ _) ↔ _
  cases m.find max (rangeSize a 1) fun r => (rangeSize a 1).isSubset r with
  | error err => simp [Except.map]
  | ok out =>
    obtain ⟨m', res⟩ := out
    simp [Except.map]

/-- In every run in which the inserted ranges are disjoint and no range of entries is erased with one of them, other
than the first, in the cache: the cache has only entries of the map, and a look-up gives the entry whose range contains
the address exactly if `Found` holds. -/
theorem lookup_iff (max : Nat) {m : AddrRangeMap V} (hm : (system V max).ReachableWhen Clean m) (a : Addr) :
    Cached m.tree m.cache ∧ (Right max m a ↔ Found m a) := by
  have hinv := inv_of_reachable hm
  refine ⟨hinv.cached, ?_⟩
  have hsub : asked m (rangeSize a 1) ⊆ m.tree := fun e he => ((mem_asked hinv.sorted).mp he).1
  rw [right_iff_findM? hinv, findM?_right (P := fun e => e.1.Holds a) (fun x => AddrRange.not_holds_of_isSubset)
    (fun x hx y hy => hinv.unique hx hy) hsub]
  constructor
  · rintro ⟨hplain, hmem⟩
    refine ⟨fun e he hasked => ?_, fun e he hea => ((mem_asked hinv.sorted).mp (hmem e he hea)).2⟩
    exact AddrRange.isSubset_one_iff.mp (hplain e ((askedIn_asked _ hinv.sorted hinv.cached).mpr ⟨he, hasked⟩))
  · rintro ⟨hplain, hreached⟩
    refine ⟨fun e hasked => ?_, fun e he hea => (mem_asked hinv.sorted).mpr ⟨he, hreached e he hea⟩⟩
    obtain ⟨he, hasked⟩ := (askedIn_asked (fun x => ¬ x.Holds a) hinv.sorted hinv.cached).mp hasked
    exact AddrRange.isSubset_one_iff.mpr (hplain e he hasked)

/-- The stripe `i` of four, by the bits 8 and 9 of the address; the first address is in stripe `2`. -/
def stripe (i : BitVec 8) (h : i.toNat < 4) : AddrRange := ⟨0x200, 0x1000, [0x100, 0x200], i, fun _ => h⟩

/-- The inserted range is away from every range in the map, or another stripe of its group. -/
def apart (m : AddrRangeMap V) : Op V → Bool
  | .insert r _ => m.tree.all fun e =>
      r.mergesWith e.1 && r.intlvMatch ≠ e.1.intlvMatch || r.end_ ≤ e.1.start || e.1.end_ ≤ r.start
  | .eraseRange _ _ => false
  | _ => true

theorem clean_of_apart (m : AddrRangeMap V) (op : Op V) (h : apart m op = true) : Clean m op := by
  cases op with
  | insert r v =>
    refine ⟨fun e he => AddrRange.disjoint_of_apart ?_, trivial⟩
    have := List.all_eq_true.mp h e he
    simpa only [Bool.or_eq_true, Bool.and_eq_true, decide_eq_true_eq, or_assoc] using this
  | eraseRange p q => cases h
  | _ => exact ⟨trivial, trivial⟩

/-- Two stripes and a range below them. -/
theorem lookup_iff_two_stripes : ∃ m : AddrRangeMap Nat, (system Nat 3).ReachableWhen Clean m ∧
    m.cache = [rangeEx 0 0x200] ∧ Right 3 m 0x200 := by
  obtain ⟨m, hm, htree, hcache⟩ := System.reachableWhen_of_replay (S := system Nat 3) (C := apart) rfl
    [.insert (stripe 2 (by decide)) 2, .insert (rangeEx 0 0x200) 7, .insert (stripe 0 (by decide)) 0, .contains 0x100]
    (fun m => m.tree = [(rangeEx 0 0x200, 7), (stripe 0 (by decide), 0), (stripe 2 (by decide), 2)] ∧
      m.cache = [rangeEx 0 0x200]) (by decide)
  have hreach := hm.mono clean_of_apart
  refine ⟨m, hreach, hcache, (lookup_iff 3 hreach 0x200).2.mpr ?_⟩
  constructor
  · intro e he _
    rw [htree] at he
    rcases List.mem_cons.mp he with rfl | he
    · exact ⟨by decide, by decide, by decide, by decide⟩
    · simp only [mem_cons, List.not_mem_nil, or_false] at he
      rcases he with rfl | rfl <;> exact ⟨by decide, by decide, by decide, fun _ _ => ⟨0x100, by decide, by decide⟩⟩
  · intro e he hea
    rw [htree] at he ⊢
    simp only [mem_cons, List.not_mem_nil, or_false] at he
    rcases he with rfl | rfl | rfl
    · exact absurd hea (by decide)
    · exact absurd hea (by decide)
    · refine .inr ?_
      rw [Reached, if_pos (by decide)]
      decide

/-- With all four stripes in the map, the look-up of their first address finds nothing, although stripe `2` contains it;
after a look-up of another address of stripe `2` the cache has its entry, and the look-up finds it. -/
theorem not_history_independent :
    (∃ m : AddrRangeMap Nat, (system Nat 3).ReachableWhen DisjointInserts m ∧ ¬ Right 3 m 0x200) ∧
    ∃ m m' : AddrRangeMap Nat, (system Nat 3).ReachableWhen DisjointInserts m ∧
      (system Nat 3).ReachableWhen DisjointInserts m' ∧ m.tree = m'.tree ∧
      (m.contains 3 0x200).toOption.map (·.2) = some none ∧
      (m'.contains 3 0x200).toOption.map (·.2) = some (some (stripe 2 (by decide), 2)) := by
  obtain ⟨m, hm, htree, hnone⟩ := System.reachableWhen_of_replay (S := system Nat 3) (C := apart) rfl
    [.insert (stripe 0 (by decide)) 0, .insert (stripe 1 (by decide)) 1, .insert (stripe 2 (by decide)) 2,
      .insert (stripe 3 (by decide)) 3]
    (fun m => m.tree = [(stripe 0 (by decide), 0), (stripe 1 (by decide), 1), (stripe 2 (by decide), 2),
      (stripe 3 (by decide), 3)] ∧ (m.contains 3 0x200).toOption.map (·.2) = some none)
    (by decide)
  obtain ⟨m', hm', htree', hsome⟩ := System.reachableWhen_of_replay (S := system Nat 3) (C := apart) rfl
    [.insert (stripe 0 (by decide)) 0, .insert (stripe 1 (by decide)) 1, .insert (stripe 2 (by decide)) 2,
      .insert (stripe 3 (by decide)) 3, .contains 0x600]
    (fun m => m.tree = [(stripe 0 (by decide), 0), (stripe 1 (by decide), 1), (stripe 2 (by decide), 2),
      (stripe 3 (by decide), 3)] ∧
      (m.contains 3 0x200).toOption.map (·.2) = some (some (stripe 2 (by decide), 2)))
    (by decide)
  have hreach := hm.mono fun m op h => (clean_of_apart m op h).1
  have hreach' := hm'.mono fun m op h => (clean_of_apart m op h).1
  refine ⟨⟨m, hreach, ?_⟩, m, m', hreach, hreach', by rw [htree, htree'], hnone, hsome⟩
  rintro ⟨m₁, res, hc, hres⟩
  rw [hc] at hnone
  have hsome₂ := (hres (stripe 2 (by decide), 2)).mpr ⟨by rw [htree]; simp, by decide⟩
  subst hsome₂
  cases hnone

end AddrRangeMap

end Salam.Base
