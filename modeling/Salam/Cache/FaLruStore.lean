import Salam.Cache.FaLruTracking

/-!
# The list and the hash table of `FALRU`

* `moveToHead_spec`, `moveToTail_spec`: the block is moved in the list, and the tracked caches with it.
* `Store`: what is in the list and in the hash table. `Store.front`, `Store.removed` and `Store.inserted` say what
  becomes of it.
* `recordAccess_eq`: the statistics of an access.
-/

namespace Salam.Cache

open Function (update_of_ne update_self update_apply update)

open Base (Addr)
open LinkedList

namespace FALRU

/-! ## Moves -/

section Moves

variable {P : FALRUParams} {N : Nat} {s : FALRU N} {as bs l : List (Fin N)} {x a b : Fin N}

theorem unlink_eq (hlinks : Seg s.next s.prev none (as ++ a :: x :: b :: bs) none) (hne : x ≠ a) :
    s.unlink x = .ok { s with next := update s.next a (some b), prev := update s.prev b (some a) } := by
  have hsplit : as ++ a :: x :: b :: bs = (as ++ [a]) ++ x :: (b :: bs) := by simp
  rw [hsplit] at hlinks
  obtain ⟨hp, hn⟩ := hlinks.links
  have hprev : s.prev x = some a := by simpa using hp
  have hnext : s.next x = some b := by simpa using hn
  simp only [unlink, hprev, hnext, deref, bind, Except.bind, setNext, update_of_ne hne, setPrev]
  rfl

theorem unlinkTail_eq (hlinks : Seg s.next s.prev none (as ++ [a, x]) none) :
    s.unlinkTail x = .ok { s with tail := a, next := update s.next a none } := by
  have hsplit : as ++ [a, x] = (as ++ [a]) ++ x :: [] := by simp
  rw [hsplit] at hlinks
  obtain ⟨hp, hn⟩ := hlinks.links
  have hprev : s.prev x = some a := by simpa using hp
  have hnext : s.next x = none := by simpa using hn
  simp only [unlinkTail, hprev, hnext, deref, bind, Except.bind, ne_eq, not_true_eq_false, if_false, setNext]
  rfl

theorem unlinkHead_eq (hlinks : Seg s.next s.prev none (x :: b :: bs) none) :
    s.unlinkHead x = .ok { s with head := b, prev := update s.prev b none } := by
  obtain ⟨hprev, hn, -⟩ := hlinks
  have hnext : s.next x = some b := by simpa using hn
  simp only [unlinkHead, hprev, hnext, deref, bind, Except.bind, ne_eq, not_true_eq_false, if_false, setPrev]
  rfl

/-- The pointers to the ends of the list. -/
structure Ends (s : FALRU N) (l : List (Fin N)) : Prop where
  head : l.head? = some s.head
  tail : l.getLast? = some s.tail

/-- **A block that is not the head is put there.** -/
theorem moveToHead_spec (h : Before P s (as ++ x :: bs)) (hends : Ends s (as ++ x :: bs)) (has : as ≠ []) :
    ∃ m c pr ne t, s.moveToHead P x = .ok { s with prev := pr, next := ne, inCachesMask := m, head := x, tail := t,
                                                   boundaries := c } ∧
      Seg ne pr none (x :: (as ++ bs)) none ∧ (x :: (as ++ bs)).getLast? = some t ∧
      Masks P { s with inCachesMask := m, boundaries := c } (x :: (as ++ bs)) ∧
      ∀ i < P.numTrackedCaches, c i =
        if P.trackedBlocks i = 1 then none else (x :: (as ++ bs))[P.trackedBlocks i - 1]? := by
  obtain ⟨m, c, hmove, hmasks, hbounds⟩ := moveBlockToHead_spec h has
  have hxmem : x ∉ as ++ bs := (List.nodup_cons.mp (List.perm_middle.nodup_iff.mp h.nodup)).1
  have hnd' : (as ++ bs).Nodup := (List.nodup_cons.mp (List.perm_middle.nodup_iff.mp h.nodup)).2
  obtain ⟨y, ys, hy⟩ : ∃ y ys, as = y :: ys := List.exists_cons_of_ne_nil has
  have hhead : s.head = y := by
    have := hends.head
    rw [hy] at this
    exact (Option.some.inj this).symm
  have hxh : x ≠ s.head := by
    rintro rfl
    exact hxmem (by simp [hy, hhead])
  obtain ⟨as', a, ha⟩ : ∃ as' a, as = as' ++ [a] :=
    ⟨as.dropLast, as.getLast has, (List.dropLast_append_getLast has).symm⟩
  cases bs with
  | nil =>
    have hxt : x = s.tail := by
      have := hends.tail
      simp only [List.getLast?_append, List.getLast?_singleton, Option.some_or, Option.some.injEq] at this
      exact this
    have hlist : as ++ [x] = as' ++ [a, x] := by simp [ha]
    have hlinks := h.links
    have hnd := h.nodup
    rw [hlist] at hlinks hnd
    have hcut := hlinks.removeLast hnd none
    rw [← ha] at hcut
    rw [List.append_nil] at *
    rw [hy] at hcut hnd' hxmem
    refine ⟨m, c, _, _, a, ?_, by rw [hy]; exact hcut.pushFront hnd' hxmem, ?_, hmasks, hbounds⟩
    · rw [moveToHead, if_pos hxh, hmove]
      simp only [bind, Except.bind, if_pos hxt]
      rw [unlinkTail_eq (s := { s with inCachesMask := m, boundaries := c }) hlinks]
      simp only [setNext, setPrev, hhead]
      rfl
    · simp [ha, List.getLast?_cons]
  | cons b bs =>
    have hxt : x ≠ s.tail := by
      rintro rfl
      have hlast := hends.tail
      rw [List.getLast?_append, List.getLast?_cons_cons] at hlast
      have : (b :: bs).getLast? = some s.tail := by
        cases hbl : (b :: bs).getLast? with
        | none => simp at hbl
        | some z =>
          rw [hbl] at hlast
          exact hlast
      exact hxmem (List.mem_append_right _ (List.mem_of_getLast? this))
    have hlist : as ++ x :: b :: bs = as' ++ a :: x :: b :: bs := by simp [ha]
    have hlinks := h.links
    have hnd := h.nodup
    rw [hlist] at hlinks hnd
    have hxa : x ≠ a := by
      rintro rfl
      exact hxmem (by simp [ha])
    have hcut := hlinks.remove hnd
    have hlist' : as' ++ a :: b :: bs = as ++ b :: bs := by simp [ha]
    rw [hlist', hy, List.cons_append] at hcut
    rw [hy, List.cons_append] at hnd' hxmem
    refine ⟨m, c, _, _, s.tail, ?_, by rw [hy]; exact hcut.pushFront hnd' hxmem, ?_, hmasks, hbounds⟩
    · rw [moveToHead, if_pos hxh, hmove]
      simp only [bind, Except.bind, if_neg hxt]
      rw [unlink_eq (s := { s with inCachesMask := m, boundaries := c }) hlinks hxa]
      simp only [setNext, setPrev, hhead]
      rfl
    · have hlast := hends.tail
      rw [List.getLast?_append, List.getLast?_cons_cons] at hlast
      rw [List.getLast?_cons, List.getLast?_append]
      cases hbl : (b :: bs).getLast? with
      | none => simp at hbl
      | some z =>
        rw [hbl] at hlast
        simpa using hlast

/-- **A block that is not the tail is put there.** -/
theorem moveToTail_spec (h : Before P s (as ++ x :: bs)) (hends : Ends s (as ++ x :: bs)) (hbs : bs ≠ []) :
    ∃ m c pr ne hd, s.moveToTail P x = .ok { s with prev := pr, next := ne, inCachesMask := m, head := hd, tail := x,
                                                    boundaries := c } ∧
      Seg ne pr none (as ++ bs ++ [x]) none ∧ (as ++ bs ++ [x]).head? = some hd ∧
      Masks P { s with inCachesMask := m, boundaries := c } (as ++ bs ++ [x]) ∧
      Bounds P { s with inCachesMask := m, boundaries := c } (as ++ bs ++ [x]) := by
  obtain ⟨m, c, hmove, hmasks, hbounds⟩ := moveBlockToTail_spec h
  have hxmem : x ∉ as ++ bs := (List.nodup_cons.mp (List.perm_middle.nodup_iff.mp h.nodup)).1
  have hnd' : (as ++ bs).Nodup := (List.nodup_cons.mp (List.perm_middle.nodup_iff.mp h.nodup)).2
  obtain ⟨bs', z, hz⟩ : ∃ bs' z, bs = bs' ++ [z] :=
    ⟨bs.dropLast, bs.getLast hbs, (List.dropLast_append_getLast hbs).symm⟩
  have htail : s.tail = z := by
    have := hends.tail
    rw [hz, ← List.cons_append, ← List.append_assoc, List.getLast?_concat] at this
    exact (Option.some.inj this).symm
  have hxt : x ≠ s.tail := by
    rintro rfl
    exact hxmem (by simp [hz, htail])
  have hback : as ++ bs = (as ++ bs') ++ [z] := by rw [hz, List.append_assoc]
  obtain ⟨b, ys, hb⟩ : ∃ b ys, bs = b :: ys := List.exists_cons_of_ne_nil hbs
  cases as with
  | nil =>
    have hxh : x = s.head := Option.some.inj hends.head
    have hlinks := h.links
    have hnd := h.nodup
    rw [List.nil_append, hb] at hlinks hnd
    have hcut := hlinks.removeFirst hnd none
    rw [← hb, ← List.nil_append bs, hback] at hcut
    rw [hback] at hnd' hxmem
    refine ⟨m, c, _, _, b, ?_, by rw [hback]; exact hcut.pushBack hnd' hxmem, by simp [hb], hmasks, hbounds⟩
    rw [moveToTail, if_pos hxt, hmove]
    simp only [bind, Except.bind, if_pos hxh]
    rw [unlinkHead_eq (s := { s with inCachesMask := m, boundaries := c }) hlinks]
    simp only [setNext, setPrev, htail]
    rfl
  | cons y as =>
    have hyh : y = s.head := Option.some.inj hends.head
    have hxh : x ≠ s.head := by
      rintro rfl
      exact hxmem (by simp [hyh])
    obtain ⟨as', a, ha⟩ : ∃ as' a, y :: as = as' ++ [a] :=
      ⟨(y :: as).dropLast, (y :: as).getLast (by simp), (List.dropLast_append_getLast _).symm⟩
    have hlist : y :: as ++ x :: bs = as' ++ a :: x :: b :: ys := by simp [ha, hb]
    have hlinks := h.links
    have hnd := h.nodup
    rw [hlist] at hlinks hnd
    have hxa : x ≠ a := by
      rintro rfl
      exact hxmem (by simp [ha])
    have hcut := hlinks.remove hnd
    have hlist' : as' ++ a :: b :: ys = y :: as ++ bs := by simp [ha, hb]
    rw [hlist', hback] at hcut
    rw [hback] at hnd' hxmem
    refine ⟨m, c, _, _, s.head, ?_, by rw [hback]; exact hcut.pushBack hnd' hxmem, by simp [hyh], hmasks, hbounds⟩
    rw [moveToTail, if_pos hxt, hmove]
    simp only [bind, Except.bind, if_neg hxh]
    rw [unlink_eq (s := { s with inCachesMask := m, boundaries := c }) hlinks hxa]
    simp only [setNext, setPrev, htail]
    rfl

end Moves

end FALRU

namespace FALRUParams

variable {P : FALRUParams}

/-- No smaller caches are tracked, or they have a number of blocks that is at least two. -/
def Tracks (P : FALRUParams) : Prop :=
  P.size ≤ P.minTrackedSize ∨ P.blkSize ∣ P.minTrackedSize ∧ 2 * P.blkSize ≤ P.minTrackedSize

instance : Decidable P.Tracks := inferInstanceAs (Decidable (_ ∨ _))

instance : Decidable P.Aligned := inferInstanceAs (Decidable (_ ∨ _))

theorem numTrackedCaches_eq_zero (h : P.size ≤ P.minTrackedSize) : P.numTrackedCaches = 0 := if_neg (Nat.not_lt.mpr h)

theorem Tracks.aligned (h : P.Tracks) : P.Aligned := h.imp numTrackedCaches_eq_zero And.left

theorem Tracks.two_le (h : P.Tracks) {i : Nat} (hi : i < P.numTrackedCaches) : 2 ≤ P.trackedBlocks i := by
  rcases h with h | ⟨hdvd, h⟩
  · rw [numTrackedCaches_eq_zero h] at hi
    omega
  · rw [trackedBlocks, Nat.le_div_iff_mul_le P.blkSize_pos]
    exact h.trans (Nat.le_mul_of_pos_right _ (Nat.two_pow_pos i))

end FALRUParams

namespace FALRU

variable {P : FALRUParams}

/-! ## The tag store -/

/-- The blocks in the list: first the valid ones `vs`, from the one used last on, then the others; and the hash
table. -/
structure Store (c : FALRU P.numBlocks) (used : Fin P.numBlocks → Nat) (vs is : List (Fin P.numBlocks)) : Prop where
  links : Seg c.next c.prev none (vs ++ is) none
  nodup : (vs ++ is).Nodup
  all : ∀ b, b ∈ vs ++ is
  ends : Ends c (vs ++ is)
  valid : ∀ b ∈ vs, c.valid b = true
  invalid : ∀ b ∈ is, c.valid b = false
  order : vs.Pairwise fun a b => used b < used a
  hash : ∀ k b, c.tagHash k = some b ↔ c.valid b = true ∧ (c.tag b, c.secure b) = k
  clean : ∀ b, c.valid b = false → c.secure b = false

/-- The tracked caches, as far as the store gets: the one move of a store that tracks caches of one block is the
first. -/
structure Tracking (c : FALRU P.numBlocks) (l : List (Fin P.numBlocks)) : Prop where
  masks : P.Aligned → Masks P c l
  bounds : P.Tracks → Bounds P c l
  once : ¬ P.Tracks → ∀ b, c.valid b = true → b = c.head
  first : P.Aligned → (∀ b, c.valid b = false) → Bounds P c l

section Store

variable {c : FALRU P.numBlocks} {used : Fin P.numBlocks → Nat} {vs is as bs : List (Fin P.numBlocks)}
  {x : Fin P.numBlocks}
  {c' : FALRU P.numBlocks}

section

variable (h : Store c used vs is)
include h

theorem Store.length : (vs ++ is).length = P.numBlocks := by
  have hperm : (vs ++ is).Perm (List.finRange P.numBlocks) :=
    (List.perm_ext_iff_of_nodup h.nodup (List.nodup_finRange _)).mpr fun b => by simp [h.all b, List.mem_finRange]
  rw [hperm.length_eq, List.length_finRange]

theorem Store.mem_valid {b : Fin P.numBlocks} : b ∈ vs ↔ c.valid b = true := by
  constructor
  · exact h.valid b
  · intro hv
    rcases List.mem_append.mp (h.all b) with hb | hb
    · exact hb
    · rw [h.invalid b hb] at hv
      cases hv

theorem Store.before (hal : P.Aligned) (hm : Masks P c (vs ++ is)) (hb : Bounds P c (vs ++ is)) :
    Before P c (vs ++ is) := ⟨hal, h.links, h.nodup, h.length, hm, hb⟩

theorem Store.key_inj {a b : Fin P.numBlocks} (ha : c.valid a = true) (hb : c.valid b = true)
    (heq : (c.tag a, c.secure a) = (c.tag b, c.secure b)) : a = b :=
  Option.some.inj (((h.hash _ a).mpr ⟨ha, rfl⟩).symm.trans ((h.hash _ b).mpr ⟨hb, heq.symm⟩))

theorem Store.findBlock (addr : Addr) (is_secure : Bool) :
    c.findBlock P addr is_secure = .ok (c.tagHash (P.extractTag addr, is_secure)) := by
  rw [FALRU.findBlock]
  cases hhash : c.tagHash (P.extractTag addr, is_secure) with
  | none => rfl
  | some b =>
    obtain ⟨hv, hkey⟩ := (h.hash _ b).mp hhash
    obtain ⟨htag, hsec⟩ := Prod.mk.inj hkey
    simp [htag, hsec]

end

/-- A valid block is used, and is then at the head. -/
theorem Store.front (h : Store c used (as ++ x :: bs) is) {now : Nat} (htag : c'.tag = c.tag)
    (hsecure : c'.secure = c.secure)
    (hvalid : c'.valid = c.valid) (hhash : c'.tagHash = c.tagHash)
    (hlinks : Seg c'.next c'.prev none (x :: (as ++ bs) ++ is) none) (hends : Ends c' (x :: (as ++ bs) ++ is))
    (hnow : ∀ b ∈ as ++ x :: bs, used b < now) : Store c' (update used x now) (x :: (as ++ bs)) is := by
  have hperm : (as ++ x :: bs ++ is).Perm (x :: (as ++ bs) ++ is) := List.perm_middle.append_right is
  have hnd : (x :: (as ++ bs) ++ is).Nodup := hperm.nodup_iff.mp h.nodup
  have hx : ∀ b ∈ as ++ bs, b ≠ x := by
    rintro b hb rfl
    exact (List.nodup_cons.mp hnd).1 (List.mem_append_left _ hb)
  constructor
  · exact hlinks
  · exact hnd
  · exact fun b => hperm.mem_iff.mp (h.all b)
  · exact hends
  · intro b hb
    rw [hvalid]
    exact h.valid b (List.perm_middle.mem_iff.mpr hb)
  · intro b hb
    rw [hvalid]
    exact h.invalid b hb
  · have hsub : (as ++ bs).Sublist (as ++ x :: bs) := (List.sublist_cons_self x bs).append_left as
    constructor
    · intro b hb
      rw [update_self, update_of_ne (hx b hb)]
      exact hnow b (hsub.subset hb)
    · refine (h.order.sublist hsub).imp_of_mem fun ha hb hlt => ?_
      rwa [update_of_ne (hx _ ha), update_of_ne (hx _ hb)]
  · rw [htag, hsecure, hvalid, hhash]
    exact h.hash
  · rw [hsecure, hvalid]
    exact h.clean

/-- A valid block is invalidated, and is then at the tail. -/
theorem Store.removed (h : Store c used (as ++ x :: bs) is) (htag : c'.tag = update c.tag x (BitVec.allOnes 64))
    (hsecure : c'.secure = update c.secure x false) (hvalid : c'.valid = update c.valid x false)
    (hhash : c'.tagHash = update c.tagHash (c.tag x, c.secure x) none)
    (hlinks : Seg c'.next c'.prev none (as ++ bs ++ (is ++ [x])) none) (hends : Ends c' (as ++ bs ++ (is ++ [x]))) :
    Store c' used (as ++ bs) (is ++ [x]) := by
  have hxv : c.valid x = true := h.valid x (by simp)
  have hperm : (as ++ x :: bs ++ is).Perm (as ++ bs ++ (is ++ [x])) := by
    rw [← List.append_assoc]
    exact (List.perm_middle.append_right is).trans (List.perm_append_singleton x (as ++ bs ++ is)).symm
  have hnd : (as ++ bs ++ (is ++ [x])).Nodup := hperm.nodup_iff.mp h.nodup
  have hsub : (as ++ bs).Sublist (as ++ x :: bs) := (List.sublist_cons_self x bs).append_left as
  have hx : ∀ b ∈ as ++ bs, b ≠ x := by
    rintro b hb rfl
    exact (List.disjoint_of_nodup_append hnd) hb (by simp)
  constructor
  · exact hlinks
  · exact hnd
  · exact fun b => hperm.mem_iff.mp (h.all b)
  · exact hends
  · intro b hb
    rw [hvalid, update_of_ne (hx b hb)]
    exact h.valid b (hsub.subset hb)
  · intro b hb
    rw [hvalid]
    by_cases hbx : b = x
    · rw [hbx, update_self]
    · rw [update_of_ne hbx]
      rcases List.mem_append.mp hb with hb | hb
      · exact h.invalid b hb
      · exact absurd (List.mem_singleton.mp hb) hbx
  · exact h.order.sublist hsub
  · intro k b
    rw [htag, hsecure, hvalid, hhash]
    by_cases hbx : b = x
    · subst hbx
      by_cases hk : k = (c.tag b, c.secure b)
      · rw [hk, update_self]
        simp
      · rw [update_of_ne hk, h.hash]
        simp [Ne.symm hk]
    · rw [update_of_ne hbx, update_of_ne hbx, update_of_ne hbx]
      by_cases hk : k = (c.tag x, c.secure x)
      · subst hk
        rw [update_self]
        constructor
        · intro hb
          cases hb
        · rintro ⟨hv, heq⟩
          exact absurd (h.key_inj hv hxv heq) hbx
      · rw [update_of_ne hk]
        exact h.hash k b
  · intro b hb
    rw [hvalid] at hb
    rw [hsecure]
    by_cases hbx : b = x
    · rw [hbx, update_self]
    · rw [update_of_ne hbx] at hb ⊢
      exact h.clean b hb

/-- A block is put in the place of an invalid one at the tail, and is then at the head. -/
theorem Store.inserted (h : Store c used vs (is ++ [x])) {now : Nat} {tag : Addr} {is_secure : Bool}
    (habsent : c.tagHash (tag, is_secure) = none) (htag : c'.tag = update c.tag x tag)
    (hsecure : c'.secure = update c.secure x is_secure) (hvalid : c'.valid = update c.valid x true)
    (hhash : c'.tagHash = update c.tagHash (tag, is_secure) (some x))
    (hlinks : Seg c'.next c'.prev none (x :: vs ++ is) none) (hends : Ends c' (x :: vs ++ is))
      (hnow : ∀ b ∈ vs, used b < now) :
    Store c' (update used x now) (x :: vs) is := by
  have hxv : c.valid x = false := h.invalid x (by simp)
  have hperm : (vs ++ (is ++ [x])).Perm (x :: vs ++ is) := by
    rw [← List.append_assoc]
    exact List.perm_append_singleton x (vs ++ is)
  have hnd : (x :: vs ++ is).Nodup := hperm.nodup_iff.mp h.nodup
  have hx : ∀ b ∈ vs, b ≠ x := by
    rintro b hb rfl
    exact (List.nodup_cons.mp hnd).1 (List.mem_append_left _ hb)
  constructor
  · exact hlinks
  · exact hnd
  · exact fun b => hperm.mem_iff.mp (h.all b)
  · exact hends
  · intro b hb
    rw [hvalid]
    rcases List.mem_cons.mp hb with rfl | hb
    · rw [update_self]
    · rw [update_of_ne (hx b hb)]
      exact h.valid b hb
  · intro b hb
    have hbx : b ≠ x := by
      rintro rfl
      exact (List.nodup_cons.mp hnd).1 (List.mem_append_right _ hb)
    rw [hvalid, update_of_ne hbx]
    exact h.invalid b (List.mem_append_left _ hb)
  · rw [List.pairwise_cons]
    constructor
    · intro b hb
      rw [update_self, update_of_ne (hx b hb)]
      exact hnow b hb
    · refine h.order.imp_of_mem fun ha hb hlt => ?_
      rwa [update_of_ne (hx _ ha), update_of_ne (hx _ hb)]
  · intro k b
    rw [htag, hsecure, hvalid, hhash]
    by_cases hk : k = (tag, is_secure)
    · subst hk
      rw [update_self]
      constructor
      · intro hb
        obtain rfl := Option.some.inj hb
        simp
      · rintro ⟨hv, heq⟩
        by_cases hbx : b = x
        · rw [hbx]
        · rw [update_of_ne hbx] at hv
          rw [update_of_ne hbx, update_of_ne hbx] at heq
          rw [(h.hash _ b).mpr ⟨hv, heq⟩] at habsent
          cases habsent
    · rw [update_of_ne hk, h.hash]
      by_cases hbx : b = x
      · subst hbx
        simp [hxv, Ne.symm hk]
      · rw [update_of_ne hbx, update_of_ne hbx, update_of_ne hbx]
  · intro b hb
    rw [hvalid] at hb
    rw [hsecure]
    have hbx : b ≠ x := by
      rintro rfl
      rw [update_self] at hb
      cases hb
    rw [update_of_ne hbx] at hb ⊢
    exact h.clean b hb

/-- The block is in a tracked cache. -/
def inCache {N : Nat} (c : FALRU N) (blk : Option (Fin N)) (i : Nat) : Bool :=
    blk.any fun b => (c.inCachesMask b).getLsbD i

theorem count_apply (f : Nat → Nat) (i j : Nat) : count f i j = if j = i then f j + 1 else f j := by
  rw [count, update_apply]
  split
  · rename_i h
    rw [h]
  · rfl

theorem recordTracked_eq {N i : Nat} (hi : i < 32) (c : FALRU N) (blk : Option (Fin N)) :
    recordTracked blk i c = { c with hits := if c.inCache blk i then count c.hits i else c.hits,
                                     misses := if c.inCache blk i then c.misses else count c.misses i } := by
  have hbit : (blk.any fun b => bit i &&& c.inCachesMask b ≠ 0) = c.inCache blk i := by
    cases blk with
    | none => rfl
    | some b =>
      have := bit_and_ne_zero hi (c.inCachesMask b)
      exact Bool.eq_iff_iff.mpr (decide_eq_true_iff.trans this)
  rw [recordTracked, hbit]
  split <;> rfl

theorem recordTracked_foldl {N : Nat} (c : FALRU N) (blk : Option (Fin N)) {n : Nat} (hn : n ≤ 32) :
    ∃ hits misses, (List.range n).foldl (fun s i => recordTracked blk i s) c =
    { c with hits := hits, misses := misses } ∧
      ∀ i, hits i = (if i < n ∧ c.inCache blk i = true then c.hits i + 1 else c.hits i) ∧
        misses i = (if i < n ∧ c.inCache blk i = false then c.misses i + 1 else c.misses i) := by
  induction n with
  | zero => exact ⟨c.hits, c.misses, rfl, by simp⟩
  | succ n ih =>
    obtain ⟨hits, misses, heq, hspec⟩ := ih (by omega)
    refine ⟨if c.inCache blk n then count hits n else hits, if c.inCache blk n then misses
      else count misses n, ?_, fun i => ?_⟩
    · rw [List.range_succ, List.foldl_append, heq]
      exact recordTracked_eq (show n < 32 by omega) { c with hits := hits, misses := misses } blk
    · obtain ⟨hh, hm⟩ := hspec i
      by_cases hi : i = n
      · subst hi
        cases hany : c.inCache blk i <;> simp [count_apply, hh, hm, hany]
      · have hlt : i < n + 1 ↔ i < n := by omega
        cases c.inCache blk n <;> simp [count_apply, hh, hm, hi, hlt]

/-- The statistics are no part of the store. -/
theorem recordAccess_eq (c : FALRU P.numBlocks) (blk : Option (Fin P.numBlocks)) :
    ∃ hits misses, recordAccess P c blk = { c with hits := hits, misses := misses, accesses := c.accesses + 1 } ∧
      ∀ i < P.numTrackedCaches, hits i = (if c.inCache blk i then c.hits i + 1 else c.hits i) ∧
        misses i = (if c.inCache blk i then c.misses i else c.misses i + 1) := by
  obtain ⟨hits, misses, heq, hspec⟩ := recordTracked_foldl c blk P.numTrackedCaches_le
  -- the actual cache comes after the tracked ones
  have hrest : ∀ f : Nat → Nat, ∀ i < P.numTrackedCaches, count f P.numTrackedCaches i = f i := by
    intro f i hi
    rw [count_apply, if_neg hi.ne]
  have htracked : ∀ i < P.numTrackedCaches, hits i = (if c.inCache blk i then c.hits i + 1 else c.hits i) ∧
      misses i = (if c.inCache blk i then c.misses i else c.misses i + 1) := by
    intro i hi
    obtain ⟨hh, hm⟩ := hspec i
    rw [hh, hm]
    cases c.inCache blk i <;> simp [hi]
  rw [recordAccess, heq]
  by_cases hv : blk.any c.valid = true
  · refine ⟨count hits P.numTrackedCaches, misses, by simp only [if_pos hv], fun i hi => ?_⟩
    rw [hrest hits i hi]
    exact htracked i hi
  · refine ⟨hits, count misses P.numTrackedCaches, by simp only [if_neg hv], fun i hi => ?_⟩
    rw [hrest misses i hi]
    exact htracked i hi

end Store

end FALRU

end Salam.Cache
