import Mathlib.Data.List.Nodup
import Salam.Base.AddrRangeMap

/-!
# The look-up cache of `AddrRangeMap`

A look-up that the cache does not answer puts the entry it finds into the cache, in place of the last one if the cache
is full. An entry leaves the cache when it is erased, but `erase(p, q)` takes only `p` out of it.

* `find_cacheValid`: a look-up keeps the cache valid.
* `cacheValid_iff`: the cache is valid as long as no other entry of a range that is erased is in it.
-/

namespace Salam.Base.AddrRangeMap

variable {V : Type} {max : Nat} {m m' : AddrRangeMap V} {cache : List AddrRange}

/-- The cache holds different entries of the map, and at most `max` of them. -/
structure CacheValid (max : Nat) (m : AddrRangeMap V) : Prop where
  nodup : m.cache.Nodup
  cached : Cached m.tree m.cache
  length : m.cache.length ≤ max

/-- No entry but the first of a range that is erased is in the cache. -/
def ErasesFirst (m : AddrRangeMap V) : Op V → Prop
  | .eraseRange p q => ∀ e ∈ (m.tree.take q).drop (p + 1), e.1 ∉ m.cache
  | _ => True

/-! ## A look-up -/

section Find

variable {tree : List (AddrRange × V)} {cond : AddrRange → Except RangeErr Bool} {r : AddrRange} {e : AddrRange × V}

/-- Nothing in the cache is what is looked for. -/
theorem scanCache_none : ∀ {cache : List AddrRange}, scanCache tree cond cache = .ok none →
    ∀ c ∈ cache, cond c = .ok false
  | [], _, c, hc => by cases hc
  | d :: ds, h, c, hc => by
    simp only [scanCache] at h
    split at h
    · cases h
    · rename_i e hfind
      have hed : e.1 = d := by simpa using List.find?_some hfind
      simp only [bind, Except.bind] at h
      split at h
      · cases h
      · rename_i b hb
        cases b with
        | true => cases h
        | false =>
          rcases List.mem_cons.mp hc with rfl | hc
          · rw [← hed]
            exact hb
          · exact scanCache_none h c hc

theorem scanCache_some : ∀ {cache : List AddrRange}, scanCache tree cond cache = .ok (some e) →
    e.1 ∈ cache ∧ cond e.1 = .ok true
  | [], h => by cases h
  | d :: ds, h => by
    simp only [scanCache] at h
    split at h
    · cases h
    · rename_i x hfind
      have hxd : x.1 = d := by simpa using List.find?_some hfind
      simp only [bind, Except.bind] at h
      split at h
      · cases h
      · rename_i b hb
        cases b with
        | true =>
          cases h
          rw [← hxd]
          exact ⟨List.mem_cons_self, hb⟩
        | false =>
          obtain ⟨hmem, hcond⟩ := scanCache_some h
          exact ⟨List.mem_cons_of_mem _ hmem, hcond⟩

theorem search_some (h : search tree r cond = .ok (some e)) : cond e.1 = .ok true := by
  rw [search_eq, findM?_eq_some] at h
  exact h.2

end Find

theorem addNewEntryToCache_nodup {it : AddrRange} (h : cache.Nodup) (hit : it ∉ cache) :
    (addNewEntryToCache max it cache).Nodup := by
  have hdrop : it ∉ cache.dropLast := fun hmem => hit ((List.dropLast_sublist cache).subset hmem)
  have hnodup : cache.dropLast.Nodup := h.sublist (List.dropLast_sublist cache)
  unfold addNewEntryToCache
  split
  · split
    · split
      · exact List.nodup_cons.mpr ⟨hdrop, hnodup⟩
      · rw [List.nodup_append]
        refine ⟨hnodup, List.nodup_singleton it, fun c hc d hd => ?_⟩
        rintro rfl
        exact hdrop (List.mem_singleton.mp hd ▸ hc)
    · exact List.nodup_cons.mpr ⟨hit, h⟩
  · exact h

theorem addNewEntryToCache_length {it : AddrRange} (h : cache.length ≤ max) :
    (addNewEntryToCache max it cache).length ≤ max := by
  unfold addNewEntryToCache
  split
  · split
    · split <;> simp <;> omega
    · simp
      omega
  · exact h

/-- A look-up keeps the cache valid: what it finds in the map was not in the cache. -/
theorem find_cacheValid {r : AddrRange} {cond : AddrRange → Except RangeErr Bool} {res : Option (AddrRange × V)}
    (h : CacheValid max m) (hf : m.find max r cond = .ok (m', res)) : CacheValid max m' := by
  obtain ⟨htree, hcached⟩ := find_keeps hf
  have hc : Cached m'.tree m'.cache := htree ▸ hcached h.cached
  unfold find at hf
  simp only [bind, Except.bind] at hf
  split at hf
  · cases hf
  · rename_i hit hscan
    cases hit with
    | some e =>
      cases hf
      have hmem := (scanCache_some hscan).1
      refine ⟨?_, hc, ?_⟩
      · rw [List.nodup_cons, h.nodup.mem_erase_iff]
        exact ⟨fun he => he.1 rfl, h.nodup.erase _⟩
      · have := h.length
        have hpos := List.length_pos_of_mem hmem
        rw [List.length_cons, List.length_erase_of_mem hmem]
        omega
    | none =>
      simp only at hf
      split at hf
      · cases hf
      · rename_i found hsearch
        cases found with
        | some e =>
          cases hf
          have hnew : e.1 ∉ m.cache := by
            intro hmem
            have hno := scanCache_none hscan e.1 hmem
            rw [search_some hsearch] at hno
            cases hno
          exact ⟨addNewEntryToCache_nodup h.nodup hnew, hc, addNewEntryToCache_length h.length⟩
        | none =>
          cases hf
          exact h

theorem lookup_cacheValid {r : AddrRange} {cond : AddrRange → Except RangeErr Bool} (h : CacheValid max m)
    (hm : (m.find max r cond).toOption.map (·.1) = some m') : CacheValid max m' := by
  obtain ⟨⟨m₁, res⟩, hf, rfl⟩ := Option.map_eq_some_iff.mp hm
  exact find_cacheValid h (ok_of_toOption hf)

/-! ## The calls -/

/-- The entries of the map are in their order and the cache is valid. -/
structure Kept (max : Nat) (m : AddrRangeMap V) : Prop where
  sorted : Sorted m.tree
  valid : CacheValid max m

theorem CacheValid.insertEntry (h : CacheValid max m) (e : AddrRange × V) :
    CacheValid max { m with tree := insertEntry e m.tree } := by
  refine ⟨h.nodup, fun c hc => ?_, h.length⟩
  obtain ⟨x, hx, hxc⟩ := h.cached c hc
  exact ⟨x, subset_insertEntry _ _ hx, hxc⟩

theorem CacheValid.filter {tree : List (AddrRange × V)} (h : CacheValid max m) (hsub : cache.Sublist m.cache)
    (hc : Cached tree cache) : CacheValid max ⟨tree, cache⟩ :=
  ⟨h.nodup.sublist hsub, hc, Nat.le_trans hsub.length_le h.length⟩

theorem erase_cache_sublist {p : Nat} (he : m.erase p = some m') : m'.cache.Sublist m.cache := by
  unfold erase at he
  split at he
  · cases he
    exact List.filter_sublist
  · cases he

theorem eraseRange_cache_sublist {p q : Nat} (he : m.eraseRange p q = some m') : m'.cache.Sublist m.cache := by
  rcases eraseRange_cases he with ⟨rfl, -⟩ | ⟨e, -, -, -, rfl⟩
  · exact List.Sublist.refl _
  · exact List.filter_sublist

theorem kept_of_step {op : Op V} (h : Kept max m) (hc : ErasesFirst m op) (hstep : step max m op = some m') :
    Kept max m' := by
  have hlookup : ∀ {r cond}, (m.find max r cond).toOption.map (·.1) = some m' → Kept max m' := by
    intro r cond hm
    obtain ⟨⟨m₁, res⟩, hf, rfl⟩ := Option.map_eq_some_iff.mp hm
    exact ⟨(find_keeps (ok_of_toOption hf)).1 ▸ h.sorted, lookup_cacheValid h.valid hm⟩
  cases op with
  | insert r v =>
    obtain ⟨m₁, res, hint, hcase⟩ := insert_of_step hstep
    have hvalid := find_cacheValid h.valid hint
    have hsorted : Sorted m₁.tree := (find_keeps hint).1 ▸ h.sorted
    rcases hcase with ⟨-, rfl⟩ | ⟨-, rfl⟩
    · exact ⟨hsorted, hvalid⟩
    · exact ⟨sorted_insertEntry _ hsorted, hvalid.insertEntry _⟩
  | erase p =>
    obtain ⟨hsub, hcached⟩ := h.valid.cached.erase hstep
    exact ⟨List.Pairwise.sublist hsub h.sorted, h.valid.filter (erase_cache_sublist hstep) hcached⟩
  | eraseRange p q =>
    obtain ⟨hsub, hcached⟩ := h.valid.cached.eraseRange hstep hc
    exact ⟨List.Pairwise.sublist hsub h.sorted, h.valid.filter (eraseRange_cache_sublist hstep) hcached⟩
  | clear =>
    cases hstep
    exact ⟨List.Pairwise.nil, List.nodup_nil, by simp [clear, Cached], by simp [clear]⟩
  | contains a => exact hlookup hstep
  | containsRange r => exact hlookup hstep
  | intersects r => exact hlookup hstep

theorem kept_of_reachable (h : (system V max).ReachableWhen ErasesFirst m) : Kept max m := by
  apply System.invariantWhen (I := Kept max) _ _ h
  · rintro _ rfl
    exact ⟨List.Pairwise.nil, List.nodup_nil, by simp [Cached], by simp⟩
  · intro s op s' _ hk hc hs
    exact kept_of_step hk hc hs

/-- An entry that stays in the cache when it is erased with the range that it is in. -/
theorem erasesFirst_of_valid {op : Op V} (h : Kept max m) (hstep : step max m op = some m') (hv : CacheValid max m') :
    ErasesFirst m op := by
  cases op with
  | eraseRange p q =>
    intro e he hcache
    rcases eraseRange_cases hstep with ⟨-, hnil⟩ | ⟨f, hpq, hq, hp, rfl⟩
    · rw [hnil] at he
      cases he
    · have hsplit := tree_split hpq hq hp
      have hsorted := h.sorted
      rw [Sorted, hsplit, List.pairwise_append, List.pairwise_append, List.pairwise_cons] at hsorted
      obtain ⟨⟨-, ⟨hfe, -⟩, hleft⟩, -, hright⟩ := hsorted
      have hstay : e.1 ∈ m.cache.filter (· ≠ f.1) := by
        rw [List.mem_filter, decide_eq_true_iff]
        refine ⟨hcache, fun heq => ?_⟩
        have := hfe e he
        rw [heq] at this
        omega
      obtain ⟨x, hx, hxe⟩ := hv.cached e.1 hstay
      rcases List.mem_append.mp hx with hx | hx
      · have := hleft x hx e (List.mem_cons_of_mem _ he)
        rw [hxe] at this
        omega
      · have := hright e (List.mem_append_right _ (List.mem_cons_of_mem _ he)) x hx
        rw [hxe] at this
        omega
  | _ => trivial

/-- In every run in which no range of entries is erased with one of them, other than the first, in the cache, the cache
holds different entries of the map, at most `max` of them; and a call leaves it so exactly if it meets that
condition. -/
theorem cacheValid_iff (max : Nat) {m : AddrRangeMap V} (hm : (system V max).ReachableWhen ErasesFirst m) :
    CacheValid max m ∧ ∀ op m', step max m op = some m' → (CacheValid max m' ↔ ErasesFirst m op) := by
  have hk := kept_of_reachable hm
  refine ⟨hk.valid, fun op m' hstep => ⟨fun hv => ?_, fun hc => ?_⟩⟩
  · exact erasesFirst_of_valid hk hstep hv
  · exact (kept_of_step hk hc hstep).valid

/-- No range of entries is erased. -/
def erasesNone : Op V → Bool
  | .eraseRange _ _ => false
  | _ => true

/-- Two ranges, the second one in the cache. -/
theorem cacheValid_iff_two_ranges : ∃ m : AddrRangeMap Nat, (system Nat 3).ReachableWhen ErasesFirst m ∧
    m.cache = [rangeEx 8 16] ∧ CacheValid 3 m ∧ ∀ m', step 3 m (.erase 1) = some m' → CacheValid 3 m' := by
  obtain ⟨m, hm, hcache⟩ := System.reachableWhen_of_replay (S := system Nat 3) (C := fun _ => erasesNone) rfl
    [.insert (rangeEx 0 8) 0, .insert (rangeEx 8 16) 1, .contains 12] (fun m => m.cache = [rangeEx 8 16])
    (by decide)
  have hreach : (system Nat 3).ReachableWhen ErasesFirst m := by
    refine hm.mono fun m op h => ?_
    cases op with
    | eraseRange p q => cases h
    | _ => trivial
  obtain ⟨hvalid, hiff⟩ := cacheValid_iff 3 hreach
  exact ⟨m, hreach, hcache, hvalid, fun m' hstep => (hiff (.erase 1) m' hstep).mpr trivial⟩

/-- `erase(begin(), end())` of two ranges, the second one in the cache: it stays there. -/
theorem not_cacheValid_after_eraseRange : ∃ m : AddrRangeMap Nat, (system Nat 3).Reachable m ∧ ¬ CacheValid 3 m := by
  obtain ⟨m, hm, htree, hcache⟩ := System.reachable_of_replay (S := system Nat 3) rfl
    [.insert (rangeEx 0 8) 0, .insert (rangeEx 8 16) 1, .contains 12, .eraseRange 0 2]
    (fun m => m.tree = [] ∧ m.cache = [rangeEx 8 16]) (by decide)
  refine ⟨m, hm, fun hv => ?_⟩
  obtain ⟨e, he, -⟩ := hv.cached (rangeEx 8 16) (by rw [hcache]; exact List.mem_singleton_self _)
  rw [htree] at he
  cases he

end Salam.Base.AddrRangeMap
