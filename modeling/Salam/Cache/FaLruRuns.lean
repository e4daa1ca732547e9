import Salam.Cache.FaLruStore

/-!
# `FALRU` in every run

The tag store along any sequence of accesses, fills and invalidations, with the time at which each block was last used.
Beside it runs the ideal list: what is stored, from the most to the least recently used, and the hits and misses of a
cache of each tracked size.

* `Inv`: the list, the hash table and the tracked caches, and that the ideal list is the one of the store.
* `falru_tag_store`: the store is right in every run, for the sizes that it can track.
* `falru_statistics`: so are the statistics, as long as what is hit is in the smallest tracked cache.
-/

namespace Salam.Cache

open Function (update_of_ne update_self update_idem update)

open Base (Addr)
open LinkedList

namespace FALRU

variable {P : FALRUParams}

/-! ## The operations -/

section Operations

variable {c : FALRU P.numBlocks} {used : Fin P.numBlocks → Nat} {vs is as bs l : List (Fin P.numBlocks)}
  {x : Fin P.numBlocks} {now : Nat} {addr : Addr} {is_secure : Bool}

theorem accessBlock_miss (h : Store c used vs is) (hmiss : c.tagHash (P.extractTag addr, is_secure) = none) :
    c.accessBlock P addr is_secure = .ok (c.recordAccess P none, none, 0) := by
  rw [accessBlock, h.findBlock addr is_secure, hmiss]
  rfl

/-- An access to the block at the head is recorded as a hit of every cache. -/
theorem recordAccess_head (hm : P.Aligned → Masks P c (x :: l)) :
    ∃ hits misses, recordAccess P c (some x) = { c with hits := hits, misses := misses, accesses := c.accesses + 1 } ∧
      (P.Aligned → ∀ i < P.numTrackedCaches, hits i = c.hits i + 1 ∧ misses i = c.misses i) := by
  obtain ⟨hits, misses, hrec, hspec⟩ := recordAccess_eq c (some x)
  refine ⟨hits, misses, hrec, fun hal i hi => ?_⟩
  have hbit : c.inCache (some x) i = true := by
    rw [inCache, Option.any_some, hm hal 0 x rfl i]
    simp [hi, FALRUParams.trackedBlocks_pos hal hi]
  have := hspec i hi
  rwa [if_pos hbit, if_pos hbit] at this

theorem accessBlock_hit (h : Store c used (as ++ x :: bs) is) (ht : Tracking c (as ++ x :: bs ++ is))
    (hhit : c.tagHash (P.extractTag addr, is_secure) = some x) (hnow : ∀ b ∈ as ++ x :: bs, used b < now) :
    ∃ c' mask, c.accessBlock P addr is_secure = .ok (c', some x, mask) ∧
      Store c' (update used x now) (x :: (as ++ bs)) is ∧ Tracking c' (x :: (as ++ bs) ++ is) ∧
      c'.tag = c.tag ∧ c'.secure = c.secure ∧ c'.valid = c.valid ∧
      (P.Aligned → ∀ i < P.numTrackedCaches, c'.hits i = c.hits i + 1 ∧ c'.misses i = c.misses i) := by
  have hxv : c.valid x = true := h.valid x (by simp)
  have hcall : c.accessBlock P addr is_secure =
      (c.moveToHead P x).bind fun s => .ok (s.recordAccess P (some x), some x, c.inCachesMask x) := by
    rw [accessBlock, h.findBlock addr is_secure, hhit]
    simp only [bind, Except.bind, hxv, if_true]
    rfl
  by_cases has : as = []
  · subst has
    have hhead : c.head = x := (Option.some.inj h.ends.head).symm
    obtain ⟨hits, misses, hrec, hstats⟩ := recordAccess_head ht.masks
    refine ⟨{ c with hits := hits, misses := misses, accesses := c.accesses + 1 }, c.inCachesMask x, ?_,
      h.front rfl rfl rfl rfl h.links ⟨h.ends.head, h.ends.tail⟩ hnow,
      ⟨ht.masks, ht.bounds, ht.once, ht.first⟩, rfl, rfl, rfl, hstats⟩
    rw [hcall, moveToHead, if_neg (not_not.mpr hhead.symm)]
    simp only [Except.bind, hrec]
  · have htracks : P.Tracks := by
      by_contra hno
      obtain ⟨y, ys, rfl⟩ := List.exists_cons_of_ne_nil has
      have hy : y = c.head := Option.some.inj h.ends.head
      have hx : x = y := (ht.once hno x hxv).trans hy.symm
      exact (List.nodup_cons.mp h.nodup).1 (by simp [hx])
    have hlist : as ++ x :: bs ++ is = as ++ x :: (bs ++ is) := by simp
    have hbefore := h.before htracks.aligned (ht.masks htracks.aligned) (ht.bounds htracks)
    have hends := h.ends
    rw [hlist] at hbefore hends
    obtain ⟨m, b, pr, ne, t, hmove, hlinks, hlast, hmasks, hbounds⟩ := moveToHead_spec hbefore hends has
    rw [← List.append_assoc] at hlinks hlast hmasks hbounds
    obtain ⟨hits, misses, hrec, hstats⟩ := recordAccess_head
      (c := { c with prev := pr, next := ne, inCachesMask := m, head := x, tail := t, boundaries := b }) fun _ => hmasks
    refine ⟨{ c with prev := pr, next := ne, inCachesMask := m, head := x, tail := t, boundaries := b, hits := hits,
                     misses := misses, accesses := c.accesses + 1 }, c.inCachesMask x, ?_,
      h.front rfl rfl rfl rfl hlinks ⟨rfl, hlast⟩ hnow,
        ⟨fun _ => hmasks, fun _ i hi => ?_, fun hno => absurd htracks hno, ?_⟩, rfl,
      rfl, rfl, hstats⟩
    · rw [hcall, hmove]
      simp only [Except.bind, hrec]
    · have htwo := htracks.two_le hi
      exact (hbounds i hi).trans (if_neg (by omega))
    · intro _ hnone
      have := hnone x
      rw [hxv] at this
      cases this

theorem invalidate_spec (h : Store c used (as ++ x :: bs) is) (ht : Tracking c (as ++ x :: bs ++ is))
    (htracks : P.Tracks) :
    ∃ c', c.invalidate P x = .ok c' ∧ Store c' used (as ++ bs) (is ++ [x]) ∧ Tracking c' (as ++ bs ++ (is ++ [x])) ∧
      c'.tag = update c.tag x (BitVec.allOnes 64) ∧ c'.secure = update c.secure x false ∧
      c'.valid = update c.valid x false ∧
      c'.tagHash = update c.tagHash (c.tag x, c.secure x) none ∧ c'.hits = c.hits ∧ c'.misses = c.misses := by
  have hxv : c.valid x = true := h.valid x (by simp)
  have hhash : c.tagHash (c.tag x, c.secure x) = some x := (h.hash _ x).mpr ⟨hxv, rfl⟩
  have hcall : c.invalidate P x = FALRU.moveToTail P
      { c with tag := update c.tag x (BitVec.allOnes 64), secure := update c.secure x false,
               valid := update c.valid x false,
               tagHash := update c.tagHash (c.tag x, c.secure x) none } x := by
    rw [invalidate, hhash, if_neg (by simp)]
    simp only [invalidateBlk, hxv, if_true, bind, Except.bind]
  by_cases hlast : bs ++ is = []
  · -- the block is at the tail already
    obtain ⟨rfl, rfl⟩ := List.append_eq_nil_iff.mp hlast
    have htail : x = c.tail := by
      have := h.ends.tail
      rw [List.append_nil, List.getLast?_concat] at this
      exact Option.some.inj this
    have hsame : as ++ [x] ++ [] = as ++ [] ++ ([] ++ [x]) := by simp
    refine ⟨{ c with tag := update c.tag x (BitVec.allOnes 64), secure := update c.secure x false,
                     valid := update c.valid x false,
                     tagHash := update c.tagHash (c.tag x, c.secure x) none }, ?_,
      h.removed rfl rfl rfl rfl ?_ ?_, ⟨fun hal => ?_, fun _ => ?_, ?_, fun hal _ => ?_⟩, rfl, rfl, rfl, rfl, rfl, rfl⟩
    · rw [hcall, moveToTail, if_neg (not_not.mpr htail)]
    · rw [← hsame]
      exact h.links
    · rw [← hsame]
      exact ⟨h.ends.head, h.ends.tail⟩
    · rw [← hsame]
      exact ht.masks hal
    · rw [← hsame]
      exact ht.bounds htracks
    · exact fun hno => absurd htracks hno
    · rw [← hsame]
      exact ht.bounds htracks
  · have hlist : as ++ x :: bs ++ is = as ++ x :: (bs ++ is) := by simp
    have hbefore := h.before htracks.aligned (ht.masks htracks.aligned) (ht.bounds htracks)
    have hends := h.ends
    rw [hlist] at hbefore hends
    obtain ⟨m, b, pr, ne, hd, hmove, hlinks, hhead, hmasks, hbounds⟩ := moveToTail_spec
      (s := { c with tag := update c.tag x (BitVec.allOnes 64), secure := update c.secure x false,
                     valid := update c.valid x false,
                     tagHash := update c.tagHash (c.tag x, c.secure x) none })
      ⟨hbefore.aligned, hbefore.links, hbefore.nodup, hbefore.length, hbefore.masks, hbefore.bounds⟩
      ⟨hends.head, hends.tail⟩ hlast
    have hsame : as ++ (bs ++ is) ++ [x] = as ++ bs ++ (is ++ [x]) := by simp
    rw [hsame] at hlinks hhead hmasks hbounds
    refine ⟨_, hcall.trans hmove, h.removed rfl rfl rfl rfl hlinks ⟨hhead, ?_⟩,
      ⟨fun _ => hmasks, fun _ => hbounds, fun hno => absurd htracks hno, fun _ _ => hbounds⟩, rfl, rfl, rfl,
      rfl, rfl, rfl⟩
    rw [← List.append_assoc, List.getLast?_concat]

/-- A block is put in the place of the tail, which is invalid. -/
theorem insertBlock_spec (h : Store c used vs (is ++ [x])) (hal : P.Aligned) (hm : Masks P c (vs ++ (is ++ [x])))
    (hb : Bounds P c (vs ++ (is ++ [x]))) (honce : ¬ P.Tracks → vs = [])
    (habsent : c.tagHash (P.extractTag addr, is_secure) = none) (hnow : ∀ b ∈ vs, used b < now) :
    ∃ c', c.insertBlock P addr is_secure x = .ok c' ∧ Store c' (update used x now) (x :: vs) is ∧
      Tracking c' (x :: vs ++ is) ∧ c'.tag = update c.tag x (P.extractTag addr) ∧
      c'.secure = update c.secure x is_secure ∧ c'.valid = update c.valid x true ∧ c'.hits = c.hits ∧
      c'.misses = c.misses := by
  have hxv : c.valid x = false := h.invalid x (by simp)
  have hlist : vs ++ (is ++ [x]) = vs ++ is ++ x :: [] := (List.append_assoc _ _ _).symm
  have hbefore := h.before hal hm hb
  have hends := h.ends
  rw [hlist] at hbefore hends
  have hlen := hbefore.length
  simp only [List.length_append, List.length_singleton] at hlen
  have hne : vs ++ is ≠ [] := by
    intro hnil
    have hlen0 := congrArg List.length hnil
    simp only [List.length_append, List.length_nil] at hlen0
    have := P.two_le_numBlocks
    omega
  have hmask : c.inCachesMask x = 0 := by
    apply BitVec.eq_of_getLsbD_eq
    intro i _
    rw [hbefore.masks (vs ++ is).length x (by simp) i]
    refine Eq.trans (decide_eq_false ?_) BitVec.getLsbD_zero.symm
    rintro ⟨hi, hlt⟩
    have := FALRUParams.trackedBlocks_lt hal hi
    simp only [List.length_append] at hlt
    omega
  obtain ⟨m, b, pr, ne, t, hmove, hlinks, hlast, hmasks, hbounds⟩ := moveToHead_spec
    (s := { c with tag := update c.tag x (P.extractTag addr), secure := update c.secure x is_secure,
                   valid := update c.valid x true })
    ⟨hbefore.aligned, hbefore.links, hbefore.nodup, hbefore.length, hbefore.masks, hbefore.bounds⟩
    ⟨hends.head, hends.tail⟩ hne
  rw [List.append_nil] at hlinks hlast hmasks hbounds
  refine ⟨{ c with tag := update c.tag x (P.extractTag addr), secure := update c.secure x is_secure,
                   valid := update c.valid x true, prev := pr, next := ne, inCachesMask := m, head := x, tail := t,
                   boundaries := b, tagHash := update c.tagHash (P.extractTag addr, is_secure) (some x) }, ?_,
    h.inserted habsent rfl rfl rfl rfl hlinks ⟨rfl, hlast⟩ hnow,
    ⟨fun _ => hmasks, fun htracks i hi => ?_, ?_, fun _ hnone => ?_⟩, rfl, rfl, rfl, rfl, rfl⟩
  · rw [insertBlock, hmask, if_neg (by simp)]
    simp only [insertBlk, hxv, h.clean x hxv, Bool.or_self, Bool.false_eq_true, if_false, bind, Except.bind, hmove,
      update_self]
    rfl
  · have htwo := htracks.two_le hi
    exact (hbounds i hi).trans (if_neg (by omega))
  · intro hno y hy
    by_cases hyx : y = x
    · exact hyx
    · simp only [update_of_ne hyx] at hy
      have := h.mem_valid.mpr hy
      rw [honce hno] at this
      cases this
  · have := hnone x
    simp at this

theorem fill_spec (h : Store c used vs is) (ht : Tracking c (vs ++ is))
    (hok : P.Tracks ∨ P.Aligned ∧ ∀ b, c.valid b = false)
    (habsent : c.tagHash (P.extractTag addr, is_secure) = none) (hnow : ∀ b ∈ vs, used b < now) :
    ∃ c' vs' is', c.fill P addr is_secure = .ok c' ∧ vs ++ is = vs' ++ is' ++ [c.findVictim] ∧ (∀ b ∈ vs', b ∈ vs) ∧
      Store c' (update used c.findVictim now) (c.findVictim :: vs') is' ∧
      Tracking c' (c.findVictim :: vs' ++ is') ∧ c'.tag = update c.tag c.findVictim (P.extractTag addr) ∧
      c'.secure = update c.secure c.findVictim is_secure ∧
      c'.valid = update c.valid c.findVictim true ∧ c'.hits = c.hits ∧ c'.misses = c.misses := by
  have hal : P.Aligned := hok.elim FALRUParams.Tracks.aligned And.left
  have hend := h.ends.tail
  by_cases his : is = []
  · -- every block is valid, and the one at the tail is taken out first
    subst his
    obtain ⟨as, x, rfl⟩ : ∃ as x, vs = as ++ [x] := by
      have hvs : vs ≠ [] := by
        rintro rfl
        simp at hend
      exact ⟨vs.dropLast, vs.getLast hvs, (List.dropLast_append_getLast hvs).symm⟩
    have hx : c.findVictim = x := by
      rw [List.append_nil, List.getLast?_concat] at hend
      exact (Option.some.inj hend).symm
    have hxv : c.valid x = true := h.valid x (by simp)
    have htracks : P.Tracks := by
      rcases hok with htracks | ⟨-, hnone⟩
      · exact htracks
      · rw [hnone x] at hxv
        cases hxv
    obtain ⟨c₁, hinv, hstore, htrack, htag, hsec, hval, hhash, hhits, hmisses⟩ := invalidate_spec h ht htracks
    have habsent' : c₁.tagHash (P.extractTag addr, is_secure) = none := by
      rw [hhash]
      by_cases hk : (P.extractTag addr, is_secure) = (c.tag x, c.secure x)
      · rw [hk, update_self]
      · rw [update_of_ne hk, habsent]
    rw [List.append_nil] at hstore htrack
    obtain ⟨c', hins, hstore', htrack', htag', hsec', hval', hhits', hmisses'⟩ := insertBlock_spec hstore hal
      (htrack.masks hal) (htrack.bounds htracks) (fun hno => absurd htracks hno) habsent' fun b hb =>
        hnow b (by simp [hb])
    refine ⟨c', as, [], ?_, by simp [hx], fun b hb => by simp [hb], ?_⟩
    · rw [fill]
      simp only [hx, hxv, if_true, hinv, bind, Except.bind, hins]
    · rw [hx]
      refine ⟨hstore', htrack', ?_, ?_, ?_, hhits'.trans hhits, hmisses'.trans hmisses⟩
      · rw [htag', htag, update_idem]
      · rw [hsec', hsec, update_idem]
      · rw [hval', hval, update_idem]
  · obtain ⟨is', x, rfl⟩ : ∃ is' x, is = is' ++ [x] :=
      ⟨is.dropLast, is.getLast his, (List.dropLast_append_getLast his).symm⟩
    have hx : c.findVictim = x := by
      rw [← List.append_assoc, List.getLast?_concat] at hend
      exact (Option.some.inj hend).symm
    have hxv : c.valid x = false := h.invalid x (by simp)
    have hbounds : Bounds P c (vs ++ (is' ++ [x])) := by
      rcases hok with htracks | ⟨hal, hnone⟩
      · exact ht.bounds htracks
      · exact ht.first hal hnone
    have honce : ¬ P.Tracks → vs = [] := by
      intro hno
      rcases hok with htracks | ⟨-, hnone⟩
      · exact absurd htracks hno
      · rw [List.eq_nil_iff_forall_not_mem]
        intro b hb
        have := h.valid b hb
        rw [hnone b] at this
        cases this
    obtain ⟨c', hins, hstore', htrack', htag', hsec', hval', hhits', hmisses'⟩ :=
      insertBlock_spec h hal (ht.masks hal) hbounds honce habsent hnow
    refine ⟨c', vs, is', ?_, by simp [hx], fun b hb => hb, ?_⟩
    · rw [fill]
      simp only [hx, hxv, Bool.false_eq_true, if_false, bind, Except.bind, hins]
    · rw [hx]
      exact ⟨hstore', htrack', htag', hsec', hval', hhits', hmisses'⟩

/-- The victim is invalid if some block is. -/
theorem Store.victim_invalid (h : Store c used vs is) (hex : ∃ b, c.valid b = false) :
    c.valid c.findVictim = false := by
  obtain ⟨b, hb⟩ := hex
  have his : is ≠ [] := by
    rintro rfl
    have := h.all b
    rw [List.append_nil, h.mem_valid, hb] at this
    cases this
  have htail := h.ends.tail
  rw [List.getLast?_append_of_ne_nil _ his] at htail
  exact h.invalid _ (List.mem_of_getLast? htail)

/-- Otherwise it is the block that was not used for longest. -/
theorem Store.victim_least (h : Store c used vs is) (hall : ∀ b, c.valid b = true) (b : Fin P.numBlocks)
    (hne : b ≠ c.findVictim) : used c.findVictim < used b := by
  have his : is = [] := by
    rw [List.eq_nil_iff_forall_not_mem]
    intro b hb
    have := h.invalid b hb
    rw [hall b] at this
    cases this
  subst his
  have htail := h.ends.tail
  rw [List.append_nil] at htail
  have hvs : vs.dropLast ++ [c.findVictim] = vs := List.dropLast_append_getLast? _ htail
  have horder := h.order
  rw [← hvs, List.pairwise_append] at horder
  have hb : b ∈ vs.dropLast ++ [c.findVictim] := by
    rw [hvs]
    exact h.mem_valid.mpr (hall b)
  rcases List.mem_append.mp hb with hb | hb
  · exact horder.2.2 b hb _ (by simp)
  · exact absurd (List.mem_singleton.mp hb) hne

end Operations

/-! ## The ideal list -/

/-- The lines of all the caches, from the one used last on, and the statistics of the tracked ones. -/
structure Ideal where
  lines : List (Option (Addr × Bool))
  hits : Nat → Nat
  misses : Nat → Nat

namespace Ideal

/-- The line at a position is in the caches that have room for it. -/
def access (P : FALRUParams) (d : Ideal) (key : Addr × Bool) : Ideal :=
  match d.lines.idxOf? (some key) with
  | some p =>
    { lines := some key :: d.lines.eraseIdx p,
      hits := fun i => if p < P.trackedBlocks i then d.hits i + 1 else d.hits i,
      misses := fun i => if p < P.trackedBlocks i then d.misses i else d.misses i + 1 }
  | none => { d with misses := fun i => d.misses i + 1 }

def fill (d : Ideal) (key : Addr × Bool) : Ideal := { d with lines := some key :: d.lines.dropLast }

def invalidate (d : Ideal) (key : Addr × Bool) : Ideal := { d with lines := d.lines.erase (some key) ++ [none] }

end Ideal

/-! ## Runs -/

inductive Op (P : FALRUParams)
  | access (addr : Addr) (is_secure : Bool)
  | fill (addr : Addr) (is_secure : Bool)
  | invalidate (blk : Fin P.numBlocks)

/-- A tag store, when each block was last used, and the ideal list. -/
structure Run (P : FALRUParams) where
  cache : FALRU P.numBlocks
  used : Fin P.numBlocks → Nat
  now : Nat
  ideal : Ideal

namespace Run

/-- What is filled is absent, and what is invalidated is valid. -/
def Allowed (R : Run P) : Op P → Prop
  | .access _ _ => True
  | .fill addr is_secure => R.cache.findBlock P addr is_secure = .ok none
  | .invalidate blk => R.cache.valid blk = true

instance (R : Run P) : DecidablePred R.Allowed
  | .access _ _ => inferInstanceAs (Decidable True)
  | .fill _ _ => inferInstanceAs (Decidable (_ = _))
  | .invalidate _ => inferInstanceAs (Decidable (_ = _))

def exec (R : Run P) : Op P → Except Err (Run P)
  | .access addr is_secure => do
    let (cache, blk, _) ← R.cache.accessBlock P addr is_secure
    let used := match blk with
      | some b => Function.update R.used b R.now
      | none => R.used
    return { cache, used, now := R.now + 1, ideal := R.ideal.access P (P.extractTag addr, is_secure) }
  | .fill addr is_secure => do
    let cache ← R.cache.fill P addr is_secure
    return { cache, used := Function.update R.used R.cache.findVictim R.now, now := R.now + 1,
             ideal := R.ideal.fill (P.extractTag addr, is_secure) }
  | .invalidate blk => do
    let cache ← R.cache.invalidate P blk
    return { cache, used := R.used, now := R.now, ideal := R.ideal.invalidate (R.cache.tag blk, R.cache.secure blk) }

def start (cache : FALRU P.numBlocks) : Run P :=
  ⟨cache, fun _ => 0, 0, ⟨List.replicate P.numBlocks none, fun _ => 0, fun _ => 0⟩⟩

def system (P : FALRUParams) : System (Run P) (Op P) where
  init R := ∃ cache, tagsInit P = .ok cache ∧ R = start cache
  step R op := if R.Allowed op then (R.exec op).toOption else none

/-- Blocks are put in and taken out only if no cache of one block is tracked, and none of a size that is no number of
blocks. The first block can be put in also where a cache of one block is tracked. -/
def Meets (R : Run P) : Op P → Prop
  | .access _ _ => True
  | .fill _ _ => P.Tracks ∨ P.Aligned ∧ ∀ b, R.cache.valid b = false
  | .invalidate _ => P.Tracks

instance (R : Run P) : DecidablePred R.Meets
  | .access _ _ => inferInstanceAs (Decidable True)
  | .fill _ _ => inferInstanceAs (Decidable (_ ∨ _))
  | .invalidate _ => inferInstanceAs (Decidable P.Tracks)

end Run

/-! ## The invariant -/

/-- What is stored in a block. -/
def line {N : Nat} (c : FALRU N) (b : Fin N) : Option (Addr × Bool) :=
    if c.valid b then some (c.tag b, c.secure b) else none

theorem idxOf?_middle {α : Type} [BEq α] [LawfulBEq α] {l₁ l₂ : List α} {a : α} (h : a ∉ l₁) :
    (l₁ ++ a :: l₂).idxOf? a = some l₁.length := by
  induction l₁ with
  | nil => simp [List.idxOf?_cons]
  | cons b l₁ ih =>
    have hne : a ≠ b := List.ne_of_not_mem_cons h
    have hmem : a ∉ l₁ := List.not_mem_of_not_mem_cons h
    have hba : (b == a) = false := beq_eq_false_iff_ne.mpr (Ne.symm hne)
    rw [List.cons_append, List.idxOf?_cons, hba, ih hmem]
    rfl

section Lines

variable {c c' : FALRU P.numBlocks} {used : Fin P.numBlocks → Nat} {vs is as bs l : List (Fin P.numBlocks)}
  {x : Fin P.numBlocks} {key : Addr × Bool}

theorem line_valid (hv : c.valid x = true) : c.line x = some (c.tag x, c.secure x) := if_pos hv

theorem line_invalid (hv : c.valid x = false) : c.line x = none := by
  rw [line, hv]
  rfl

theorem Store.line_eq (h : Store c used vs is) : c.line x = some key ↔ c.tagHash key = some x := by
  rw [h.hash, line]
  split
  · rename_i hv
    simp [hv]
  · rename_i hv
    simp [hv]

/-- A line that is stored is at one position. -/
theorem Store.line_notMem (h : Store c used vs is) (hsplit : vs ++ is = as ++ x :: bs) (hline : c.line x = some key) :
    some key ∉ as.map c.line := by
  intro hmem
  obtain ⟨y, hy, heq⟩ := List.mem_map.mp hmem
  have hyx : y = x := Option.some.inj ((h.line_eq.mp heq).symm.trans (h.line_eq.mp hline))
  have hnd := h.nodup
  rw [hsplit, List.perm_middle.nodup_iff] at hnd
  exact (List.nodup_cons.mp hnd).1 (by simp [← hyx, hy])

theorem map_line_of_ne (hx : x ∉ l) (htag : ∀ b, b ≠ x → c'.tag b = c.tag b)
    (hsec : ∀ b, b ≠ x → c'.secure b = c.secure b)
    (hval : ∀ b, b ≠ x → c'.valid b = c.valid b) : l.map c'.line = l.map c.line := by
  apply List.map_congr_left
  intro b hb
  have hbx : b ≠ x := by
    rintro rfl
    exact hx hb
  rw [line, line, htag b hbx, hsec b hbx, hval b hbx]

end Lines

namespace Run

/-- The list of the store is the ideal one. -/
structure Inv (R : Run P) (vs is : List (Fin P.numBlocks)) : Prop where
  store : Store R.cache R.used vs is
  tracking : Tracking R.cache (vs ++ is)
  now : ∀ b ∈ vs, R.used b < R.now
  lines : R.ideal.lines = (vs ++ is).map R.cache.line

/-- The statistics of the tracked caches are the ideal ones. -/
def Agree (R : Run P) : Prop :=
  ∀ i < P.numTrackedCaches, R.cache.hits i = R.ideal.hits i ∧ R.cache.misses i = R.ideal.misses i

/-- What is hit is in the smallest tracked cache. -/
def HitsSmallest (R : Run P) : Op P → Prop
  | .access addr is_secure => ∀ p ∈ R.ideal.lines.idxOf? (some (P.extractTag addr, is_secure)), p < P.trackedBlocks 0
  | _ => True

instance (R : Run P) : DecidablePred R.HitsSmallest
  | .access _ _ => inferInstanceAs (Decidable (∀ p ∈ _, _))
  | .fill _ _ => inferInstanceAs (Decidable True)
  | .invalidate _ => inferInstanceAs (Decidable True)

section Steps

variable {R : Run P} {vs is : List (Fin P.numBlocks)} {addr : Addr} {is_secure : Bool} {blk : Fin P.numBlocks}

theorem Inv.access (h : Inv R vs is) : ∃ R' vs' is', R.exec (.access addr is_secure) = .ok R' ∧ Inv R' vs' is' ∧
    (P.Aligned → R.HitsSmallest (.access addr is_secure) → R.Agree → R'.Agree) := by
  cases hhash : R.cache.tagHash (P.extractTag addr, is_secure) with
  | none =>
    obtain ⟨hits, misses, hrec, hspec⟩ := recordAccess_eq R.cache none
    have hideal : R.ideal.lines.idxOf? (some (P.extractTag addr, is_secure)) = none := by
      rw [List.idxOf?_eq_none_iff, h.lines]
      intro hmem
      obtain ⟨y, -, hy⟩ := List.mem_map.mp hmem
      rw [h.store.line_eq.mp hy] at hhash
      cases hhash
    refine ⟨⟨{ R.cache with hits := hits, misses := misses, accesses := R.cache.accesses + 1 }, R.used, R.now + 1,
      { R.ideal with misses := fun i => R.ideal.misses i + 1 }⟩, vs, is, ?_, ?_, fun _ _ hagree i hi => ?_⟩
    · rw [exec, accessBlock_miss h.store hhash, hrec]
      simp only [bind, Except.bind, Ideal.access, hideal]
      rfl
    · exact ⟨⟨h.store.links, h.store.nodup, h.store.all, ⟨h.store.ends.head, h.store.ends.tail⟩, h.store.valid,
        h.store.invalid, h.store.order, h.store.hash, h.store.clean⟩,
        ⟨h.tracking.masks, h.tracking.bounds, h.tracking.once, h.tracking.first⟩,
        fun b hb => (h.now b hb).trans_le (by simp), h.lines⟩
    · obtain ⟨hh, hm⟩ := hspec i hi
      obtain ⟨ah, am⟩ := hagree i hi
      have hnone : R.cache.inCache none i = false := rfl
      exact ⟨hh.trans ah, hm.trans (congrArg (· + 1) am)⟩
  | some x =>
    have hline : R.cache.line x = some (P.extractTag addr, is_secure) := h.store.line_eq.mpr hhash
    have hxv : R.cache.valid x = true := ((h.store.hash _ x).mp hhash).1
    obtain ⟨as, bs, rfl⟩ := List.append_of_mem (h.store.mem_valid.mpr hxv)
    obtain ⟨c', mask, hok, hstore, htrack, htag, hsec, hval, hstats⟩ := accessBlock_hit h.store h.tracking hhash h.now
    have hlist : as ++ x :: bs ++ is = as ++ x :: (bs ++ is) := by simp
    have hsame : c'.line = R.cache.line := by
      funext b
      rw [line, line, htag, hsec, hval]
    have hmap : R.ideal.lines = as.map R.cache.line ++ some (P.extractTag addr, is_secure) ::
      (bs ++ is).map R.cache.line := by
      rw [h.lines, hlist, List.map_append, List.map_cons, hline]
    have hideal : R.ideal.lines.idxOf? (some (P.extractTag addr, is_secure)) = some as.length := by
      rw [hmap, idxOf?_middle (h.store.line_notMem hlist hline), List.length_map]
    refine ⟨⟨c', update R.used x R.now, R.now + 1, R.ideal.access P (P.extractTag addr, is_secure)⟩,
      x :: (as ++ bs), is, ?_, ⟨hstore, htrack, ?_, ?_⟩, fun hal hsmall hagree i hi => ?_⟩
    · rw [exec, hok]
      rfl
    · intro b hb
      by_cases hbx : b = x
      · simp [hbx]
      · have hb' : b ∈ as ++ x :: bs := List.perm_middle.mem_iff.mpr hb
        simp only [update_of_ne hbx]
        exact (h.now b hb').trans_le (by simp)
    · have herase : (as.map R.cache.line ++ some (P.extractTag addr, is_secure) :: (bs ++ is).map R.cache.line).eraseIdx
          as.length = as.map R.cache.line ++ (bs ++ is).map R.cache.line := by
        rw [List.eraseIdx_append_of_length_le (by simp)]
        simp
      simp only [Ideal.access, hideal]
      rw [hsame, hmap, herase, List.cons_append, List.map_cons, hline]
      simp only [List.map_append, List.append_assoc]
    · have hp : as.length < P.trackedBlocks i := by
        have h0 := hsmall as.length hideal
        have hmono : P.trackedBlocks 0 ≤ P.trackedBlocks i :=
          Nat.div_le_div_right (Nat.mul_le_mul_left _ (Nat.pow_le_pow_right (by decide) (Nat.zero_le i)))
        omega
      obtain ⟨hh, hm⟩ := hstats hal i hi
      obtain ⟨ah, am⟩ := hagree i hi
      simp only [Ideal.access, hideal, if_pos hp]
      exact ⟨hh.trans (congrArg (· + 1) ah), hm.trans am⟩

theorem Inv.fill (h : Inv R vs is) (hA : R.Allowed (.fill addr is_secure)) (hM : R.Meets (.fill addr is_secure)) :
    ∃ R' vs' is', R.exec (.fill addr is_secure) = .ok R' ∧ Inv R' vs' is' ∧ (R.Agree → R'.Agree) := by
  have habsent : R.cache.tagHash (P.extractTag addr, is_secure) = none :=
    Except.ok.inj ((h.store.findBlock addr is_secure).symm.trans hA)
  obtain ⟨c', vs', is', hok, hlist, hsub, hstore, htrack, htag, hsec, hval, hhits, hmisses⟩ :=
    fill_spec h.store h.tracking hM habsent h.now
  have hx : R.cache.findVictim ∉ vs' ++ is' := (List.nodup_cons.mp hstore.nodup).1
  refine ⟨⟨c', update R.used R.cache.findVictim R.now, R.now + 1, R.ideal.fill (P.extractTag addr, is_secure)⟩,
    R.cache.findVictim :: vs', is', ?_, ⟨hstore, htrack, ?_, ?_⟩, fun hagree i hi => ?_⟩
  · rw [exec, hok]
    rfl
  · intro b hb
    by_cases hbx : b = R.cache.findVictim
    · simp [hbx]
    · have hb' : b ∈ vs := hsub b ((List.mem_cons.mp hb).resolve_left hbx)
      simp only [update_of_ne hbx]
      exact (h.now b hb').trans_le (by simp)
  · have hkept : (vs' ++ is').map c'.line = (vs' ++ is').map R.cache.line := by
      apply map_line_of_ne hx
      · exact fun b hb => by rw [htag, update_of_ne hb]
      · exact fun b hb => by rw [hsec, update_of_ne hb]
      · exact fun b hb => by rw [hval, update_of_ne hb]
    have hnew : c'.line R.cache.findVictim = some (P.extractTag addr, is_secure) := by
      rw [line_valid (by rw [hval, update_self]), htag, hsec, update_self, update_self]
    simp only [Ideal.fill]
    rw [h.lines, hlist, List.map_append, List.map_singleton, List.dropLast_concat, List.cons_append,
      List.map_cons, hkept, hnew]
  · obtain ⟨ah, am⟩ := hagree i hi
    exact ⟨(congrFun hhits i).trans ah, (congrFun hmisses i).trans am⟩

theorem Inv.invalidate (h : Inv R vs is) (hA : R.Allowed (.invalidate blk)) (hM : R.Meets (.invalidate blk)) :
    ∃ R' vs' is', R.exec (.invalidate blk) = .ok R' ∧ Inv R' vs' is' ∧ (R.Agree → R'.Agree) := by
  obtain ⟨as, bs, rfl⟩ := List.append_of_mem (h.store.mem_valid.mpr hA)
  obtain ⟨c', hok, hstore, htrack, htag, hsec, hval, -, hhits, hmisses⟩ := invalidate_spec h.store h.tracking hM
  have hlist : as ++ blk :: bs ++ is = as ++ blk :: (bs ++ is) := by simp
  have hline : R.cache.line blk = some (R.cache.tag blk, R.cache.secure blk) := line_valid hA
  refine ⟨⟨c', R.used, R.now, R.ideal.invalidate (R.cache.tag blk, R.cache.secure blk)⟩, as ++ bs, is ++ [blk], ?_,
    ⟨hstore, htrack, ?_, ?_⟩, fun hagree i hi => ?_⟩
  · rw [exec, hok]
    rfl
  · intro b hb
    exact h.now b (((List.sublist_cons_self blk bs).append_left as).subset hb)
  · have hx : blk ∉ as ++ bs ++ is := by
      have hnd := h.store.nodup
      rw [hlist, List.perm_middle.nodup_iff, ← List.append_assoc] at hnd
      exact (List.nodup_cons.mp hnd).1
    have hkept : (as ++ bs ++ is).map c'.line = (as ++ bs ++ is).map R.cache.line := by
      apply map_line_of_ne hx
      · exact fun b hb => by rw [htag, update_of_ne hb]
      · exact fun b hb => by rw [hsec, update_of_ne hb]
      · exact fun b hb => by rw [hval, update_of_ne hb]
    have hnew : c'.line blk = none := line_invalid (by rw [hval, update_self])
    have herase :
      (as.map R.cache.line ++ some (R.cache.tag blk, R.cache.secure blk) :: (bs ++ is).map R.cache.line).erase
        (some (R.cache.tag blk, R.cache.secure blk)) = as.map R.cache.line ++ (bs ++ is).map R.cache.line := by
      rw [List.erase_append_right _ (h.store.line_notMem hlist hline), List.erase_cons_head]
    have hafter : (as ++ bs ++ (is ++ [blk])).map c'.line = (as ++ bs ++ is).map R.cache.line ++ [none] := by
      rw [← List.append_assoc, List.map_append, hkept, List.map_singleton, hnew]
    simp only [Ideal.invalidate]
    rw [hafter, h.lines, hlist, List.map_append, List.map_cons, hline, herase]
    simp only [List.map_append, List.append_assoc]
  · obtain ⟨ah, am⟩ := hagree i hi
    exact ⟨(congrFun hhits i).trans ah, (congrFun hmisses i).trans am⟩

/-- Every step that is allowed and meets the condition ends well. -/
theorem Inv.exec (h : Inv R vs is) {op : Op P} (hA : R.Allowed op) (hM : R.Meets op) :
    ∃ R' vs' is', R.exec op = .ok R' ∧ Inv R' vs' is' ∧ (P.Aligned → R.HitsSmallest op → R.Agree → R'.Agree) := by
  cases op with
  | access addr is_secure => exact h.access
  | fill addr is_secure =>
    obtain ⟨R', vs', is', hok, hinv, hagree⟩ := h.fill hA hM
    exact ⟨R', vs', is', hok, hinv, fun _ _ => hagree⟩
  | invalidate blk =>
    obtain ⟨R', vs', is', hok, hinv, hagree⟩ := h.invalidate hA hM
    exact ⟨R', vs', is', hok, hinv, fun _ _ => hagree⟩

end Steps

/-! ## Every run -/

theorem start_inv {cache : FALRU P.numBlocks} (h : tagsInit P = .ok cache) :
    Inv (start cache) [] (List.finRange P.numBlocks) ∧ (start cache).Agree := by
  obtain ⟨m, b, hok, ht⟩ := tagsInit_tracking P
  obtain rfl : { fresh P with inCachesMask := m, boundaries := b } = cache := Except.ok.inj (hok.symm.trans h)
  constructor
  · constructor
    · constructor
      · exact fresh_links
      · exact List.nodup_finRange _
      · exact List.mem_finRange
      · exact ⟨fresh_ends.1, fresh_ends.2⟩
      · simp
      · intros; rfl
      · exact .nil
      · simp [start, fresh]
      · intros; rfl
    · constructor
      · exact fun hal => (ht hal).1
      · exact fun htracks => (ht htracks.aligned).2
      · intro _ b hb
        cases hb
      · exact fun hal _ => (ht hal).2
    · simp
    · rw [start, List.nil_append]
      refine (List.eq_replicate_iff.mpr ⟨by simp, ?_⟩).symm
      intro y hy
      obtain ⟨b, -, rfl⟩ := List.mem_map.mp hy
      rfl
  · intro i _
    exact ⟨rfl, rfl⟩

/-- The invariant, in every run that meets the condition. -/
theorem exists_inv {R : Run P} (h : (system P).ReachableWhen Meets R) : ∃ vs is, Inv R vs is := by
  refine System.invariantWhen (I := fun R => ∃ vs is, Inv R vs is) ?_ ?_ h
  · rintro R ⟨cache, hok, rfl⟩
    exact ⟨_, _, (start_inv hok).1⟩
  · rintro R op R' - ⟨vs, is, hinv⟩ hM hstep
    obtain ⟨hA, hstep⟩ := Option.ite_none_right_eq_some.mp hstep
    obtain ⟨R'', vs', is', hok, hinv', -⟩ := hinv.exec hA hM
    obtain rfl : R'' = R' := Except.ok.inj (hok.symm.trans (ok_of_toOption hstep))
    exact ⟨vs', is', hinv'⟩

/-- **The fully associative tag store**: along every run that meets the condition, the list holds every block once, the
valid ones first and in the order of their last use, the hash table holds the valid ones, and the victim is an invalid
block if there is one and the one that was not used for longest otherwise. No operation fails. -/
theorem falru_tag_store {R : Run P} (h : (system P).ReachableWhen Meets R) :
    (∃ vs is, Store R.cache R.used vs is) ∧
      ((∃ b, R.cache.valid b = false) → R.cache.valid R.cache.findVictim = false) ∧
      ((∀ b, R.cache.valid b = true) → ∀ b, b ≠ R.cache.findVictim → R.used R.cache.findVictim < R.used b) ∧
      ∀ op, R.Allowed op → R.Meets op → ∃ R', R.exec op = .ok R' := by
  obtain ⟨vs, is, hinv⟩ := exists_inv h
  refine ⟨⟨vs, is, hinv.store⟩, ?_, ?_, fun op hA hM => ?_⟩
  · exact hinv.store.victim_invalid
  · exact hinv.store.victim_least
  · obtain ⟨R', -, -, hok, -⟩ := hinv.exec hA hM
    exact ⟨R', hok⟩

/-- A run of given operations from the start. -/
theorem reachable_of_ops (C : Run P → Op P → Bool) (ops : List (Op P)) (p : Run P → Prop) [DecidablePred p]
    (h : ((tagsInit P).toOption.bind fun cache => (system P).replay C (start cache) ops).any
      (fun R => decide (p R)) = true) :
    ∃ R, (system P).ReachableWhen (fun R op => C R op = true) R ∧ p R := by
  obtain ⟨R, hR, hp⟩ := (Option.any_eq_true _ _).mp h
  obtain ⟨cache, hcache, hrun⟩ := Option.bind_eq_some_iff.mp hR
  exact ⟨R, ⟨start cache, ⟨cache, ok_of_toOption hcache, rfl⟩, System.run_of_replay hrun⟩, of_decide_eq_true hp⟩

/-- Four blocks of 64 bytes. -/
def fourBlocks (minTrackedSize : Nat) (h : 0 < minTrackedSize) : FALRUParams where
  blkSize := 64
  size := 256
  minTrackedSize := minTrackedSize
  blkSize_pow := ⟨6, rfl⟩
  size_pow := ⟨8, rfl⟩
  two_blocks := by decide
  size_lt := by decide
  minTrackedSize_pos := h

/-- Four blocks, the last of which takes the place of the one that was invalidated. -/
theorem falru_tag_store_four : ∃ R : Run (fourBlocks 128 (by decide)), R.now = 6 ∧ R.cache.findVictim.val = 2 ∧
    (∀ b, R.cache.valid b = true) ∧ ∀ b, b ≠ R.cache.findVictim → R.used R.cache.findVictim < R.used b := by
  obtain ⟨R, hR, hnow, hvictim, hvalid⟩ := reachable_of_ops (P := fourBlocks 128 (by decide))
    (fun R op => decide (R.Meets op))
    [.fill 0 false, .fill 64 false, .fill 128 false, .access 0 false, .invalidate ⟨1, by decide⟩, .fill 64 true,
      .fill 192 false]
    (fun R => R.now = 6 ∧ R.cache.findVictim.val = 2 ∧ ∀ b, R.cache.valid b = true) (by decide)
  obtain ⟨-, -, hleast, -⟩ := falru_tag_store (hR.mono fun _ _ h => of_decide_eq_true h)
  exact ⟨R, hnow, hvictim, hvalid, hleast hvalid⟩

/-- A cache of one block is tracked: the second block that is put in comes to a boundary that is a null pointer. -/
theorem falru_one_block_tracked : ∃ R : Run (fourBlocks 64 (by decide)), (system _).Reachable R ∧
    R.Allowed (.fill 64 false) ∧ (R.exec (.fill 64 false)).map (fun _ => ()) = .error .null := by
  obtain ⟨R, hR, hp⟩ := reachable_of_ops (P := fourBlocks 64 (by decide)) (fun _ _ => true) [.fill 0 false]
    (fun R => R.Allowed (.fill 64 false) ∧ (R.exec (.fill 64 false)).map (fun _ => ()) = .error .null) (by decide)
  exact ⟨R, hR.reachable, hp⟩

/-- **The statistics of the tracked caches**: along every run that meets the condition and hits only what is in the
smallest tracked cache, the hits and misses of each of them are the ideal ones. -/
theorem falru_statistics {R : Run P} (hmin : ∃ k, P.minTrackedSize = 2 ^ k) (hblk : P.blkSize ≤ P.minTrackedSize)
    (h : (system P).ReachableWhen (fun R op => R.Meets op ∧ R.HitsSmallest op) R) :
    (∀ i < P.numTrackedCaches, R.cache.hits i = R.ideal.hits i ∧ R.cache.misses i = R.ideal.misses i) ∧
      ∀ op, R.Allowed op → R.Meets op → ∃ R', R.exec op = .ok R' := by
  have hal : P.Aligned := by
    obtain ⟨k, hk⟩ := P.blkSize_pow
    obtain ⟨m, hm⟩ := hmin
    rw [hk, hm, Nat.pow_le_pow_iff_right (by decide)] at hblk
    exact .inr (by rw [hk, hm]; exact Nat.pow_dvd_pow 2 hblk)
  have hinv : (∃ vs is, Inv R vs is) ∧ R.Agree := by
    refine System.invariantWhen (I := fun R => (∃ vs is, Inv R vs is) ∧ R.Agree) ?_ ?_ h
    · rintro R ⟨cache, hok, rfl⟩
      exact ⟨⟨_, _, (start_inv hok).1⟩, (start_inv hok).2⟩
    · rintro R op R' - ⟨⟨vs, is, hinv⟩, hagree⟩ ⟨hM, hsmall⟩ hstep
      obtain ⟨hA, hstep⟩ := Option.ite_none_right_eq_some.mp hstep
      obtain ⟨R'', vs', is', hok, hinv', hagree'⟩ := hinv.exec hA hM
      obtain rfl : R'' = R' := Except.ok.inj (hok.symm.trans (ok_of_toOption hstep))
      exact ⟨⟨vs', is', hinv'⟩, hagree' hal hsmall hagree⟩
  obtain ⟨⟨vs, is, hinv⟩, hagree⟩ := hinv
  refine ⟨hagree, fun op hA hM => ?_⟩
  obtain ⟨R', -, -, hok, -⟩ := hinv.exec hA hM
  exact ⟨R', hok⟩

theorem falru_statistics_four : ∃ R : Run (fourBlocks 128 (by decide)), R.cache.hits 0 = 1 ∧ R.cache.misses 0 = 2 ∧
    ∀ i < (fourBlocks 128 (by decide)).numTrackedCaches, R.cache.hits i = R.ideal.hits i ∧
      R.cache.misses i = R.ideal.misses i := by
  obtain ⟨R, hR, hhits, hmisses⟩ := reachable_of_ops (P := fourBlocks 128 (by decide))
    (fun R op => decide (R.Meets op ∧ R.HitsSmallest op))
    [.access 0 false, .fill 0 false, .access 64 false, .fill 64 false, .access 0 false, .fill 128 false]
    (fun R => R.cache.hits 0 = 1 ∧ R.cache.misses 0 = 2) (by decide)
  obtain ⟨hagree, -⟩ := falru_statistics ⟨7, rfl⟩ (by decide) (hR.mono fun _ _ h => of_decide_eq_true h)
  exact ⟨R, hhits, hmisses, hagree⟩

/-- The block that is hit is not in the tracked cache of two blocks, and is counted as hit there. -/
theorem falru_hit_counted_everywhere : ∃ R : Run (fourBlocks 128 (by decide)), (system _).Reachable R ∧
    0 < (fourBlocks 128 (by decide)).numTrackedCaches ∧ R.cache.hits 0 = 1 ∧ R.ideal.hits 0 = 0 := by
  obtain ⟨R, hR, hp⟩ := reachable_of_ops (P := fourBlocks 128 (by decide)) (fun _ _ => true)
    [.fill 0 false, .fill 64 false, .fill 128 false, .access 0 false]
    (fun R => 0 < (fourBlocks 128 (by decide)).numTrackedCaches ∧ R.cache.hits 0 = 1 ∧ R.ideal.hits 0 = 0) (by decide)
  exact ⟨R, hR.reachable, hp⟩

end Run

end FALRU

end Salam.Cache
