import Salam.Cache.FaLru

/-!
# The tracked caches of `FALRU`

The `i`-th tracked cache has room for `trackedBlocks i` blocks, and holds the blocks at the first positions of the list.
The mask of a block says which caches hold it (`Masks`), and the boundary of a cache is the last block in it (`Bounds`).

* `tagsInit_tracking`: so it is from the start.
* `moveBlockToHead_spec`: a move to the head keeps the masks right, and the boundaries of caches of two blocks or more.
* `moveBlockToTail_spec`: a move to the tail keeps both right.
-/

namespace Salam.Cache

open Function (update_eq_self update_of_ne update_self update)

open Base (Addr)
open LinkedList

namespace FALRUParams

variable {P : FALRUParams}

/-- The blocks that fit in the `i`-th tracked cache. -/
def trackedBlocks (P : FALRUParams) (i : Nat) : Nat := P.minTrackedSize * 2 ^ i / P.blkSize

/-- The boundaries of the tracked caches lie between blocks. -/
def Aligned (P : FALRUParams) : Prop := P.numTrackedCaches = 0 ∨ P.blkSize ∣ P.minTrackedSize

theorem size_eq (P : FALRUParams) : P.size = P.numBlocks * P.blkSize := by
  obtain ⟨b, hb⟩ := P.blkSize_pow
  obtain ⟨k, hk⟩ := P.size_pow
  have hle : P.blkSize ≤ P.size := by
    have := P.two_blocks
    omega
  rw [hb, hk] at hle
  have hdvd : P.blkSize ∣ P.size := by
    rw [hb, hk]
    exact Nat.pow_dvd_pow 2 ((Nat.pow_le_pow_iff_right (by decide)).mp hle)
  exact (Nat.div_mul_cancel hdvd).symm

/-- A size that is reached by doubling the smallest one is one of a tracked cache as long as it is below the size. -/
theorem lt_numTrackedCaches_iff {i : Nat} : i < P.numTrackedCaches ↔ P.minTrackedSize * 2 ^ i < P.size := by
  have hpos := P.minTrackedSize_pos
  obtain ⟨k, hk⟩ := P.size_pow
  have hlog : Nat.log 2 (P.minTrackedSize * 2 ^ i) = Nat.log 2 P.minTrackedSize + i := by
    induction i with
    | zero => simp
    | succ i ih =>
      rw [pow_succ, ← Nat.mul_assoc, Nat.log_mul_base (by decide) (Nat.mul_ne_zero hpos.ne' (by simp)), ih,
        Nat.add_assoc]
  have hne : P.minTrackedSize * 2 ^ i ≠ 0 := Nat.mul_ne_zero hpos.ne' (by simp)
  rw [hk, ← Nat.log_lt_iff_lt_pow (by decide) hne, hlog, numTrackedCaches]
  split
  · rw [hk, Nat.log_pow (by decide)]
    omega
  · rename_i hlt
    have hle : k ≤ Nat.log 2 P.minTrackedSize := by
      rw [Nat.le_log_iff_pow_le (by decide) hpos.ne', ← hk]
      omega
    omega

theorem numTrackedCaches_le : P.numTrackedCaches ≤ 32 := by
  unfold numTrackedCaches
  split
  · have : Nat.log 2 P.size < 32 := Nat.log_lt_of_lt_pow
      (by have := P.two_blocks; have := P.blkSize_pos; omega) P.size_lt
    omega
  · omega

section Aligned

variable (hal : P.Aligned) {i j : Nat} (hi : i < P.numTrackedCaches)

include hal hi

theorem trackedBlocks_mul : P.trackedBlocks i * P.blkSize = P.minTrackedSize * 2 ^ i := by
  rcases hal with h | h
  · omega
  · exact Nat.div_mul_cancel (Nat.dvd_mul_right_of_dvd h _)

theorem trackedBlocks_pos : 0 < P.trackedBlocks i := by
  have hmul := trackedBlocks_mul hal hi
  have : 0 < P.minTrackedSize * 2 ^ i := Nat.mul_pos P.minTrackedSize_pos (Nat.two_pow_pos i)
  rw [← hmul] at this
  exact Nat.pos_of_mul_pos_right this

theorem trackedBlocks_lt : P.trackedBlocks i < P.numBlocks := by
  have hlt := lt_numTrackedCaches_iff.mp hi
  rw [← trackedBlocks_mul hal hi, P.size_eq] at hlt
  exact Nat.lt_of_mul_lt_mul_right hlt

end Aligned

end FALRUParams

namespace FALRU

variable {P : FALRUParams}

/-! ## Masks -/

theorem getLsbD_inAllCachesMask {i : Nat} : P.inAllCachesMask.getLsbD i = decide (i < P.numTrackedCaches) := by
  have hle := P.numTrackedCaches_le
  rw [FALRUParams.inAllCachesMask, BitVec.getLsbD_ofNat, Nat.testBit_two_pow_sub_one]
  by_cases hi : i < P.numTrackedCaches
  · simp [hi, hi.trans_le hle]
  · simp [hi]

theorem getLsbD_bit {i j : Nat} (hj : j < 32) : (bit j).getLsbD i = decide (i = j) := by
  rw [bit, BitVec.getLsbD_twoPow]
  by_cases h : i = j
  · simp [h, hj]
  · simp [h, Ne.symm h]

theorem bit_and_ne_zero {j : Nat} (hj : j < 32) (m : BitVec 32) : bit j &&& m ≠ 0 ↔ m.getLsbD j = true := by
  constructor
  · intro h
    by_contra hm
    apply h
    apply BitVec.eq_of_getLsbD_eq
    intro i _
    rw [BitVec.getLsbD_and, getLsbD_bit hj]
    by_cases hij : i = j
    · subst hij
      simp [hm]
    · simp [hij]
  · intro hm h
    have := congrArg (fun v => v.getLsbD j) h
    simp [getLsbD_bit hj, hm] at this

theorem loop_spec {σ : Type} {f : Nat → σ → Except Err σ} {I : Nat → σ → Prop} {n : Nat} {s : σ} (h0 : I 0 s)
    (hstep : ∀ i < n, ∀ s, I i s → ∃ s', f i s = .ok s' ∧ I (i + 1) s') : ∃ s', loop f n s = .ok s' ∧ I n s' := by
  induction n with
  | zero => exact ⟨s, rfl, h0⟩
  | succ n ih =>
    obtain ⟨s₁, h₁, hI⟩ := ih fun i hi => hstep i (by omega)
    obtain ⟨s₂, h₂, hI'⟩ := hstep n (by omega) s₁ hI
    exact ⟨s₂, by rw [loop, h₁]; exact h₂, hI'⟩

/-- A block is in the tracked caches that have room for its position. -/
def Masks (P : FALRUParams) {N : Nat} (s : FALRU N) (l : List (Fin N)) : Prop :=
  ∀ p y, l[p]? = some y → ∀ i, (s.inCachesMask y).getLsbD i = decide (i < P.numTrackedCaches ∧ p < P.trackedBlocks i)

/-- The boundary of a tracked cache is the last block in it. -/
def Bounds (P : FALRUParams) {N : Nat} (s : FALRU N) (l : List (Fin N)) : Prop :=
  ∀ i < P.numTrackedCaches, s.boundaries i = l[P.trackedBlocks i - 1]?

section Move

variable {N : Nat} {s : FALRU N} {as bs l l' : List (Fin N)} {x : Fin N} {j : Nat} {m m' : Fin N → BitVec 32}
  {b B : Nat → Option (Fin N)}

/-- The masks of the others are right for the tracked caches below `j`, and as they were for the rest. -/
def MasksBelow (P : FALRUParams) (s : FALRU N) (l' : List (Fin N)) (x : Fin N) (j : Nat) (m : Fin N → BitVec 32) :
    Prop :=
  ∀ p y, l'[p]? = some y → y ≠ x → ∀ i, (m y).getLsbD i =
    if i < j then decide (i < P.numTrackedCaches ∧ p < P.trackedBlocks i) else (s.inCachesMask y).getLsbD i

/-- So are the boundaries. -/
def BoundsBelow (P : FALRUParams) (s : FALRU N) (B : Nat → Option (Fin N)) (j : Nat) (b : Nat → Option (Fin N)) :
    Prop :=
  ∀ i < P.numTrackedCaches, b i = if i < j then B i else s.boundaries i

theorem MasksBelow.succ (h : MasksBelow P s l' x j m) (hother : ∀ y i, i ≠ j → (m' y).getLsbD i = (m y).getLsbD i)
    (hj : ∀ p y, l'[p]? = some y → y ≠ x →
      (m' y).getLsbD j = decide (j < P.numTrackedCaches ∧ p < P.trackedBlocks j)) : MasksBelow P s l' x (j + 1) m' := by
  intro p y hp hy i
  by_cases hij : i = j
  · subst hij
    rw [hj p y hp hy, if_pos (Nat.lt_succ_self _)]
  · rw [hother y i hij, h p y hp hy i]
    by_cases hlt : i < j
    · rw [if_pos hlt, if_pos (by omega)]
    · rw [if_neg hlt, if_neg (by omega)]

theorem BoundsBelow.succ (h : BoundsBelow P s B j b) {v : Option (Fin N)} (hv : v = B j) :
    BoundsBelow P s B (j + 1) (update b j v) := by
  intro i hi
  by_cases hij : i = j
  · subst hij
    rw [update_self, if_pos (Nat.lt_succ_self _), hv]
  · rw [update_of_ne hij, h i hi]
    by_cases hlt : i < j
    · rw [if_pos hlt, if_pos (by omega)]
    · rw [if_neg hlt, if_neg (by omega)]

theorem BoundsBelow.keep (h : BoundsBelow P s B j b) (hv : b j = B j) : BoundsBelow P s B (j + 1) b := by
  have := h.succ hv
  rwa [update_eq_self] at this

theorem pos_inj {p q : Nat} {y : Fin N} (hnd : l.Nodup) (hp : l[p]? = some y) (hq : l[q]? = some y) : p = q :=
  (List.getElem?_inj (List.getElem?_eq_some_iff.mp hp).1 hnd).mp (hp.trans hq.symm)

/-- The tracked caches and their boundaries, before a move. -/
structure Before (P : FALRUParams) (s : FALRU N) (l : List (Fin N)) : Prop where
  aligned : P.Aligned
  links : Seg s.next s.prev none l none
  nodup : l.Nodup
  length : l.length = P.numBlocks
  masks : Masks P s l
  bounds : Bounds P s l

section

variable (h : Before P s (as ++ x :: bs))
include h

/-- After the loop the mask of the block itself is set. -/
theorem masks_update (hperm : l'.Perm (as ++ x :: bs)) (hm : MasksBelow P s l' x P.numTrackedCaches m) {v : BitVec 32}
    (hx : ∀ p, l'[p]? = some x → ∀ i, v.getLsbD i = decide (i < P.numTrackedCaches ∧ p < P.trackedBlocks i)) :
    Masks P { s with inCachesMask := update m x v, boundaries := b } l' := by
  intro p y hp i
  by_cases hy : y = x
  · subst hy
    simp only [update_self]
    exact hx p hp i
  · simp only [update_of_ne hy]
    rw [hm p y hp hy i]
    by_cases hi : i < P.numTrackedCaches
    · rw [if_pos hi]
    · obtain ⟨q, hq⟩ : ∃ q, (as ++ x :: bs)[q]? = some y := by
        rw [← List.mem_iff_getElem?]
        exact hperm.mem_iff.mp (List.mem_of_getElem? hp)
      rw [if_neg hi, h.masks q y hq i]
      simp [hi]

/-- Another block, before the move: its place, and its bit before the loop comes to the cache. -/
theorem bit_front (hj : j < P.numTrackedCaches) (hm : MasksBelow P s (x :: (as ++ bs)) x j m) {p : Nat} {y : Fin N}
    (hp : (x :: (as ++ bs))[p]? = some y) (hy : y ≠ x) :
    ∃ q, (as ++ x :: bs)[q]? = some y ∧ q = (if p ≤ as.length then p - 1 else p) ∧ p ≠ 0 ∧
      (m y).getLsbD j = decide (q < P.trackedBlocks j) := by
  have hp' := hp
  rw [getElem?_front] at hp'
  split at hp'
  · exact absurd (Option.some.inj hp').symm hy
  · rename_i hp0
    refine ⟨if p ≤ as.length then p - 1 else p, ?_, rfl, hp0, ?_⟩
    · split at hp' <;> rename_i hle
      · rw [if_pos hle, hp']
      · rw [if_neg hle, hp']
    · rw [hm p y hp hy j, if_neg (Nat.lt_irrefl _)]
      split at hp' <;> rename_i hle
      · rw [h.masks _ _ hp', if_pos hle]
        simp [hj]
      · rw [h.masks _ _ hp', if_neg hle]
        simp [hj]

/-- The cache does not hold the block. -/
theorem misses_iff (hj : j < P.numTrackedCaches) :
    bit j &&& (P.inAllCachesMask ^^^ s.inCachesMask x) ≠ 0 ↔ P.trackedBlocks j ≤ as.length := by
  have hx : (as ++ x :: bs)[as.length]? = some x := by simp
  rw [bit_and_ne_zero (hj.trans_le P.numTrackedCaches_le), BitVec.getLsbD_xor, getLsbD_inAllCachesMask, h.masks _ _ hx]
  by_cases hle : as.length < P.trackedBlocks j
  · simp [hj, hle]
  · simp [hj, hle, Nat.le_of_not_lt hle]

/-- One tracked cache, in a move to the head. -/
theorem trackToHead_spec (has : as ≠ []) (hj : j < P.numTrackedCaches) (hm : MasksBelow P s (x :: (as ++ bs)) x j m)
    (hb : BoundsBelow P s (fun i => if P.trackedBlocks i = 1 then none
      else (x :: (as ++ bs))[P.trackedBlocks i - 1]?) j b) :
    ∃ m' b', trackToHead x (P.inAllCachesMask ^^^ s.inCachesMask x) j { s with inCachesMask := m, boundaries := b } =
        .ok { s with inCachesMask := m', boundaries := b' } ∧ MasksBelow P s (x :: (as ++ bs)) x (j + 1) m' ∧
      BoundsBelow P s (fun i => if P.trackedBlocks i = 1 then none else (x :: (as ++ bs))[P.trackedBlocks i - 1]?)
        (j + 1) b' := by
  have hj32 : j < 32 := hj.trans_le P.numTrackedCaches_le
  have hk : 0 < as.length := List.length_pos_iff.mpr has
  have hx : (as ++ x :: bs)[as.length]? = some x := by simp
  have hc := FALRUParams.trackedBlocks_pos h.aligned hj
  have hcN := FALRUParams.trackedBlocks_lt h.aligned hj
  rw [← h.length] at hcN
  have hbj : b j = (as ++ x :: bs)[P.trackedBlocks j - 1]? := by
    rw [hb j hj, if_neg (Nat.lt_irrefl _), h.bounds j hj]
  have hset := misses_iff h hj
  by_cases hle : P.trackedBlocks j ≤ as.length
  · -- the block comes into the cache, and the one at its boundary goes
    obtain ⟨y₀, hy₀⟩ : ∃ y₀, (as ++ x :: bs)[P.trackedBlocks j - 1]? = some y₀ :=
      ⟨_, List.getElem?_eq_getElem (by omega)⟩
    refine ⟨update m y₀ (m y₀ &&& ~~~bit j), update b j (s.prev y₀), ?_, ?_, ?_⟩
    · rw [trackToHead]
      simp only [if_pos (hset.mpr hle), hbj, hy₀, deref, bind, Except.bind]
      rfl
    · apply hm.succ
      · intro y i hij
        by_cases hy : y = y₀
        · subst hy
          rw [update_self, BitVec.getLsbD_and, BitVec.getLsbD_not, getLsbD_bit hj32]
          by_cases hi : i < 32
          · simp [hi, hij]
          · simp [BitVec.getLsbD_of_ge _ i (Nat.le_of_not_lt hi)]
        · rw [update_of_ne hy]
      · intro p y hp hy
        obtain ⟨q, hq, hqp, hp0, hbit⟩ := bit_front h hj hm hp hy
        by_cases hyy : y = y₀
        · subst hyy
          have hqc := pos_inj h.nodup hq hy₀
          have hpc : P.trackedBlocks j ≤ p := by
            split at hqp <;> omega
          rw [update_self, BitVec.getLsbD_and, BitVec.getLsbD_not, getLsbD_bit hj32]
          simp [Nat.not_lt.mpr hpc]
        · have hqc : q ≠ P.trackedBlocks j - 1 := by
            rintro rfl
            exact hyy (Option.some.inj (hq.symm.trans hy₀))
          rw [update_of_ne hyy, hbit]
          congr 1
          split at hqp <;> simp only [eq_iff_iff] <;> omega
    · apply hb.succ
      rw [(h.links.getElem hy₀).1]
      by_cases hone : P.trackedBlocks j = 1
      · simp [hone]
      · rw [if_neg (by omega), if_neg hone, getElem?_front, if_neg (by omega), if_pos (by omega)]
  · have hlt := Nat.lt_of_not_le hle
    have hmask : MasksBelow P s (x :: (as ++ bs)) x (j + 1) m := by
      apply hm.succ fun _ _ _ => rfl
      intro p y hp hy
      obtain ⟨q, -, hqp, hp0, hbit⟩ := bit_front h hj hm hp hy
      rw [hbit]
      congr 1
      split at hqp <;> simp only [eq_iff_iff] <;> omega
    have hone : P.trackedBlocks j ≠ 1 := by omega
    by_cases hbx : b j = some x
    · -- the block is at the boundary of the cache, and its place is taken by the one before it
      have hkc : P.trackedBlocks j - 1 = as.length := pos_inj h.nodup (hbj.symm.trans hbx) hx
      refine ⟨m, update b j (s.prev x), ?_, hmask, ?_⟩
      · rw [trackToHead]
        simp only [if_neg (hset.not.mpr hle), if_pos hbx]
      · apply hb.succ
        rw [(h.links.getElem hx).1, if_neg hk.ne', if_neg hone, hkc, getElem?_front, if_neg hk.ne', if_pos le_rfl]
    · refine ⟨m, b, ?_, hmask, ?_⟩
      · rw [trackToHead]
        simp only [if_neg (hset.not.mpr hle), if_neg hbx]
      · apply hb.keep
        have hne : P.trackedBlocks j - 1 ≠ as.length := by
          intro heq
          rw [heq, hx] at hbj
          exact hbx hbj
        rw [hbj, if_neg hone, getElem?_front, if_neg (by omega), if_neg (by omega)]

/-- **A move to the head**: a cache that did not hold the block loses the one at its boundary. The boundary of a cache
of one block is lost. -/
theorem moveBlockToHead_spec (has : as ≠ []) :
    ∃ m b, s.moveBlockToHead P x = .ok { s with inCachesMask := m, boundaries := b } ∧
      Masks P { s with inCachesMask := m, boundaries := b } (x :: (as ++ bs)) ∧
      ∀ i < P.numTrackedCaches, b i =
        if P.trackedBlocks i = 1 then none else (x :: (as ++ bs))[P.trackedBlocks i - 1]? := by
  obtain ⟨s', hloop, m, b, rfl, hm, hb⟩ := loop_spec
    (f := trackToHead x (P.inAllCachesMask ^^^ s.inCachesMask x)) (n := P.numTrackedCaches) (s := s)
    (I := fun j s' => ∃ m b, s' = { s with inCachesMask := m, boundaries := b } ∧
      MasksBelow P s (x :: (as ++ bs)) x j m ∧
      BoundsBelow P s (fun i => if P.trackedBlocks i = 1 then none else (x :: (as ++ bs))[P.trackedBlocks i - 1]?) j b)
    ⟨s.inCachesMask, s.boundaries, rfl, fun _ _ _ _ _ => by simp, fun _ _ => by simp⟩ (by
      rintro j hj _ ⟨m, b, rfl, hm, hb⟩
      obtain ⟨m', b', hok, hm', hb'⟩ := trackToHead_spec h has hj hm hb
      exact ⟨_, hok, m', b', rfl, hm', hb'⟩)
  refine ⟨update m x P.inAllCachesMask, b, by rw [moveBlockToHead, hloop]; rfl, ?_, fun i hi => ?_⟩
  · refine masks_update h List.perm_middle.symm hm fun p hp i => ?_
    have hp0 : p = 0 := pos_inj (List.perm_middle.nodup_iff.mp h.nodup) hp rfl
    rw [getLsbD_inAllCachesMask, hp0]
    by_cases hi : i < P.numTrackedCaches
    · simp [hi, FALRUParams.trackedBlocks_pos h.aligned hi]
    · simp [hi]
  · rw [hb i hi, if_pos hi]

/-- One tracked cache, in a move to the tail. -/
theorem trackToTail_spec (hj : j < P.numTrackedCaches) (hm : MasksBelow P s (as ++ bs ++ [x]) x j m)
    (hb : BoundsBelow P s (fun i => (as ++ bs ++ [x])[P.trackedBlocks i - 1]?) j b) :
    ∃ m' b', trackToTail x (s.inCachesMask x) j { s with inCachesMask := m, boundaries := b } =
        .ok { s with inCachesMask := m', boundaries := b' } ∧ MasksBelow P s (as ++ bs ++ [x]) x (j + 1) m' ∧
      BoundsBelow P s (fun i => (as ++ bs ++ [x])[P.trackedBlocks i - 1]?) (j + 1) b' := by
  have hj32 : j < 32 := hj.trans_le P.numTrackedCaches_le
  have hx : (as ++ x :: bs)[as.length]? = some x := by simp
  have hlen : (as ++ x :: bs).length = as.length + bs.length + 1 := by
    rw [List.length_append, List.length_cons, Nat.add_assoc]
  have hc := FALRUParams.trackedBlocks_pos h.aligned hj
  have hcN := FALRUParams.trackedBlocks_lt h.aligned hj
  rw [← h.length, hlen] at hcN
  have hbj : b j = (as ++ x :: bs)[P.trackedBlocks j - 1]? := by
    rw [hb j hj, if_neg (Nat.lt_irrefl _), h.bounds j hj]
  have hold : ∀ p y, (as ++ bs ++ [x])[p]? = some y → y ≠ x →
      ∃ q, (as ++ x :: bs)[q]? = some y ∧ q = (if p < as.length then p else p + 1) ∧
        (m y).getLsbD j = decide (q < P.trackedBlocks j) := by
    intro p y hp hy
    have hlt : p < as.length + bs.length := by
      have hle := (List.getElem?_eq_some_iff.mp hp).1
      simp only [List.length_append, List.length_singleton] at hle
      by_contra hge
      have hpe : p = as.length + bs.length := by omega
      rw [hpe, getElem?_back_last] at hp
      exact hy (Option.some.inj hp).symm
    have hp' := hp
    rw [getElem?_back p hlt] at hp'
    refine ⟨if p < as.length then p else p + 1, ?_, rfl, ?_⟩
    · split at hp' <;> rename_i hle
      · rw [if_pos hle, hp']
      · rw [if_neg hle, hp']
    · rw [hm p y hp hy j, if_neg (Nat.lt_irrefl _)]
      split at hp' <;> rename_i hle
      · rw [h.masks _ _ hp', if_pos hle]
        simp [hj]
      · rw [h.masks _ _ hp', if_neg hle]
        simp [hj]
  have hset : bit j &&& s.inCachesMask x ≠ 0 ↔ as.length < P.trackedBlocks j := by
    rw [bit_and_ne_zero hj32, h.masks _ _ hx]
    simp [hj]
  by_cases hlt : as.length < P.trackedBlocks j
  · -- the block goes from the cache, and the one after its boundary comes
    obtain ⟨y₀, hy₀⟩ : ∃ y₀, (as ++ x :: bs)[P.trackedBlocks j - 1]? = some y₀ :=
      ⟨_, List.getElem?_eq_getElem (by omega)⟩
    obtain ⟨z, hz⟩ : ∃ z, (as ++ x :: bs)[P.trackedBlocks j]? = some z := ⟨_, List.getElem?_eq_getElem (by omega)⟩
    have hnext : s.next y₀ = some z := by
      rw [(h.links.getElem hy₀).2, Nat.sub_add_cancel hc, hz]
    have hzx : z ≠ x := by
      rintro rfl
      have := pos_inj h.nodup hz hx
      omega
    refine ⟨update m z (m z ||| bit j), update b j (some z), ?_, ?_, ?_⟩
    · rw [trackToTail]
      simp only [if_pos (hset.mpr hlt), hbj, hy₀, hnext, deref, bind, Except.bind, Option.some.injEq, if_neg hzx]
      rfl
    · apply hm.succ
      · intro y i hij
        by_cases hy : y = z
        · subst hy
          rw [update_self, BitVec.getLsbD_or, getLsbD_bit hj32]
          simp [hij]
        · rw [update_of_ne hy]
      · intro p y hp hy
        obtain ⟨q, hq, hqp, hbit⟩ := hold p y hp hy
        by_cases hyz : y = z
        · subst hyz
          have hqc := pos_inj h.nodup hq hz
          have hpc : p < P.trackedBlocks j := by
            split at hqp <;> omega
          rw [update_self, BitVec.getLsbD_or, getLsbD_bit hj32]
          simp [hj, hpc]
        · have hqc : q ≠ P.trackedBlocks j := by
            rintro rfl
            exact hyz (Option.some.inj (hq.symm.trans hz))
          rw [update_of_ne hyz, hbit]
          congr 1
          split at hqp <;> simp only [eq_iff_iff] <;> omega
    · apply hb.succ
      rw [getElem?_back _ (by omega), if_neg (by omega), Nat.sub_add_cancel hc, hz]
  · refine ⟨m, b, ?_, ?_, ?_⟩
    · rw [trackToTail]
      simp only [if_neg (hset.not.mpr hlt)]
    · apply hm.succ fun _ _ _ => rfl
      intro p y hp hy
      obtain ⟨q, -, hqp, hbit⟩ := hold p y hp hy
      rw [hbit]
      congr 1
      split at hqp <;> simp only [eq_iff_iff] <;> omega
    · apply hb.keep
      rw [hbj, getElem?_back _ (by omega), if_pos (by omega)]

/-- **A move to the tail**: a cache that held the block gets the one after its boundary. -/
theorem moveBlockToTail_spec : ∃ m b, s.moveBlockToTail P x = .ok { s with inCachesMask := m, boundaries := b } ∧
      Masks P { s with inCachesMask := m, boundaries := b } (as ++ bs ++ [x]) ∧
      Bounds P { s with inCachesMask := m, boundaries := b } (as ++ bs ++ [x]) := by
  have hperm : (as ++ bs ++ [x]).Perm (as ++ x :: bs) := by
    rw [List.append_assoc]
    exact (List.perm_append_singleton x bs).append_left as
  obtain ⟨s', hloop, m, b, rfl, hm, hb⟩ := loop_spec
    (f := trackToTail x (s.inCachesMask x)) (n := P.numTrackedCaches) (s := s)
    (I := fun j s' => ∃ m b, s' = { s with inCachesMask := m, boundaries := b } ∧
      MasksBelow P s (as ++ bs ++ [x]) x j m ∧
      BoundsBelow P s (fun i => (as ++ bs ++ [x])[P.trackedBlocks i - 1]?) j b)
    ⟨s.inCachesMask, s.boundaries, rfl, fun _ _ _ _ _ => by simp, fun _ _ => by simp⟩ (by
      rintro j hj _ ⟨m, b, rfl, hm, hb⟩
      obtain ⟨m', b', hok, hm', hb'⟩ := trackToTail_spec h hj hm hb
      exact ⟨_, hok, m', b', rfl, hm', hb'⟩)
  refine ⟨update m x 0, b, by rw [moveBlockToTail, hloop]; rfl, ?_, fun i hi => ?_⟩
  · refine masks_update h hperm hm fun p hp i => ?_
    have hpN : p = as.length + bs.length := pos_inj (hperm.nodup_iff.mpr h.nodup) hp getElem?_back_last
    have hlen := h.length
    simp only [List.length_append, List.length_cons] at hlen
    have hout : ¬ (i < P.numTrackedCaches ∧ p < P.trackedBlocks i) := by
      rintro ⟨hi, hp⟩
      have := FALRUParams.trackedBlocks_lt h.aligned hi
      omega
    rw [decide_eq_false hout]
    exact BitVec.getLsbD_zero
  · simp only
    rw [hb i hi, if_pos hi]

end

end Move

/-! ## The start -/

section Start

/-- The pointer to the block at a position of the array. -/
def blkAt (P : FALRUParams) (p : Nat) : Option (Fin P.numBlocks) := if h : p < P.numBlocks then some ⟨p, h⟩ else none

theorem getElem?_finRange (p : Nat) : (List.finRange P.numBlocks)[p]? = blkAt P p := by
  unfold blkAt
  split
  · rename_i h
    rw [List.getElem?_eq_getElem (by simpa using h)]
    simp
  · rename_i h
    rw [List.getElem?_eq_none (by simpa using h)]

theorem fresh_links : Seg (fresh P).next (fresh P).prev none (List.finRange P.numBlocks) none := by
  apply seg_of_getElem
  intro i x hi
  rw [getElem?_finRange, blkAt] at hi
  split at hi
  · rename_i hlt
    obtain rfl := Option.some.inj hi
    refine ⟨?_, (getElem?_finRange (i + 1)).symm⟩
    rw [getElem?_finRange, blkAt, dif_pos (by omega)]
    rfl
  · cases hi

theorem fresh_ends : (List.finRange P.numBlocks).head? = some (fresh P).head ∧
    (List.finRange P.numBlocks).getLast? = some (fresh P).tail := by
  have h0 : 0 < P.numBlocks := (by decide : 0 < 2).trans_le P.two_le_numBlocks
  constructor
  · rw [List.head?_eq_getElem?, getElem?_finRange, blkAt, dif_pos h0]
    rfl
  · rw [List.getLast?_eq_getElem?, getElem?_finRange, List.length_finRange, blkAt, dif_pos (by omega)]
    rfl

theorem size_le_iff (hal : P.Aligned) {i q : Nat} (hi : i < P.numTrackedCaches) :
    P.minTrackedSize * 2 ^ i ≤ q * P.blkSize ↔ P.trackedBlocks i ≤ q := by
  rw [← FALRUParams.trackedBlocks_mul hal hi]
  exact Nat.mul_le_mul_right_iff P.blkSize_pos

theorem trackedBlocks_inj (hal : P.Aligned) {i j : Nat} (hi : i < P.numTrackedCaches) (hj : j < P.numTrackedCaches)
    (h : P.trackedBlocks i = P.trackedBlocks j) : i = j := by
  have heq : P.minTrackedSize * 2 ^ i = P.minTrackedSize * 2 ^ j := by
    rw [← FALRUParams.trackedBlocks_mul hal hi, ← FALRUParams.trackedBlocks_mul hal hj, h]
  exact Nat.pow_right_injective (le_refl 2) (Nat.eq_of_mul_eq_mul_left P.minTrackedSize_pos heq)

/-- The mask of the blocks behind the last one of a cache. -/
theorem mask_end (hal : P.Aligned) {p j : Nat} {mask : BitVec 32} (hjn : j < P.numTrackedCaches)
    (htj : P.trackedBlocks j = p + 1)
    (hmask : ∀ i, mask.getLsbD i = decide (i < P.numTrackedCaches ∧ p < P.trackedBlocks i)) (i : Nat) :
    (mask &&& ~~~bit j).getLsbD i = decide (i < P.numTrackedCaches ∧ p + 1 < P.trackedBlocks i) := by
  rw [BitVec.getLsbD_and, BitVec.getLsbD_not, hmask, getLsbD_bit (hjn.trans_le P.numTrackedCaches_le)]
  by_cases hi : i < P.numTrackedCaches
  · have hi32 : i < 32 := hi.trans_le P.numTrackedCaches_le
    by_cases hij : i = j
    · subst hij
      simp [htj]
    · have hne : P.trackedBlocks i ≠ p + 1 := fun h => hij (trackedBlocks_inj hal hi hjn (h.trans htj.symm))
      simp only [hi, hi32, hij, true_and, decide_true, decide_false, Bool.not_false, Bool.and_true, decide_eq_decide]
      omega
  · simp [hi]

/-- The loop of `init` passes a block that is not the last one of a cache, or that is the last one of all. -/
theorem no_end (hal : P.Aligned) {p j : Nat} (hlt : p < P.numBlocks)
    (hj : ∀ i < P.numTrackedCaches, i < j ↔ P.minTrackedSize * 2 ^ i ≤ p * P.blkSize)
    (hmatch : ¬((p + 1) * P.blkSize = P.minTrackedSize * 2 ^ j ∧ (⟨p, hlt⟩ : Fin P.numBlocks) ≠ (fresh P).tail))
    {i : Nat} (hi : i < P.numTrackedCaches) : P.trackedBlocks i ≠ p + 1 ∧ (i < j ↔ P.trackedBlocks i ≤ p + 1) := by
  have hN := FALRUParams.trackedBlocks_lt hal hi
  by_cases hpN : p + 1 = P.numBlocks
  · rw [hj i hi, size_le_iff hal hi]
    omega
  · have htail : (⟨p, hlt⟩ : Fin P.numBlocks) ≠ (fresh P).tail := by
      intro h
      have : p = P.numBlocks - 1 := congrArg Fin.val h
      omega
    have hne : (p + 1) * P.blkSize ≠ P.minTrackedSize * 2 ^ j := fun h => hmatch ⟨h, htail⟩
    have hij := hj i hi
    rw [size_le_iff hal hi] at hij
    by_cases hlt' : i < j
    · omega
    · have hjn : j < P.numTrackedCaches := by omega
      have hjj := hj j hjn
      rw [size_le_iff hal hjn] at hjj
      have htj : P.trackedBlocks j ≠ p + 1 := by
        intro h
        rw [← FALRUParams.trackedBlocks_mul hal hjn, h] at hne
        exact hne rfl
      have hmono : P.trackedBlocks j ≤ P.trackedBlocks i := by
        rw [← size_le_iff hal hjn, FALRUParams.trackedBlocks_mul hal hi]
        exact Nat.mul_le_mul_left _ (Nat.pow_le_pow_right (by decide) (by omega))
      omega

/-- The loop of `init` over the blocks from the `p`-th on, in caches the boundaries of which it meets. -/
theorem initLoop_spec (hal : P.Aligned) : ∀ (fuel p j : Nat) (mask : BitVec 32) (m : Fin P.numBlocks → BitVec 32)
    (b : Nat → Option (Fin P.numBlocks)), P.numBlocks - p < fuel → p ≤ P.numBlocks →
    (∀ i < P.numTrackedCaches, i < j ↔ P.minTrackedSize * 2 ^ i ≤ p * P.blkSize) →
    (∀ i, mask.getLsbD i = decide (i < P.numTrackedCaches ∧ p < P.trackedBlocks i)) →
    (∀ y : Fin P.numBlocks, y.1 < p → ∀ i,
      (m y).getLsbD i = decide (i < P.numTrackedCaches ∧ y.1 < P.trackedBlocks i)) →
    (∀ i < P.numTrackedCaches, i < j → b i = blkAt P (P.trackedBlocks i - 1)) →
    ∃ m' b', initLoop P fuel { fresh P with inCachesMask := m, boundaries := b } (blkAt P p) (p * P.blkSize)
        (P.minTrackedSize * 2 ^ j) mask j = .ok { fresh P with inCachesMask := m', boundaries := b' } ∧
      (∀ y : Fin P.numBlocks, ∀ i, (m' y).getLsbD i = decide (i < P.numTrackedCaches ∧ y.1 < P.trackedBlocks i)) ∧
      ∀ i < P.numTrackedCaches, b' i = blkAt P (P.trackedBlocks i - 1)
  | 0, p, j, mask, m, b, hfuel, hp, hj, hmask, hm, hb => by omega
  | fuel + 1, p, j, mask, m, b, hfuel, hp, hj, hmask, hm, hb => by
    have hmul : ∀ {i}, i < P.numTrackedCaches → P.trackedBlocks i * P.blkSize = P.minTrackedSize * 2 ^ i :=
      fun hi => FALRUParams.trackedBlocks_mul hal hi
    by_cases hlt : p < P.numBlocks
    · have hblk : blkAt P p = some ⟨p, hlt⟩ := dif_pos hlt
      have hm' : ∀ y : Fin P.numBlocks, y.1 < p + 1 → ∀ i, (update m ⟨p, hlt⟩ mask y).getLsbD i =
          decide (i < P.numTrackedCaches ∧ y.1 < P.trackedBlocks i) := by
        intro y hy i
        by_cases hyp : y = ⟨p, hlt⟩
        · subst hyp
          rw [update_self]
          exact hmask i
        · rw [update_of_ne hyp]
          refine hm y ?_ i
          have : y.1 ≠ p := fun h => hyp (Fin.ext h)
          omega
      have hcurr : p * P.blkSize + P.blkSize = (p + 1) * P.blkSize := (Nat.succ_mul _ _).symm
      by_cases hmatch : (p + 1) * P.blkSize = P.minTrackedSize * 2 ^ j ∧ (⟨p, hlt⟩ : Fin P.numBlocks) ≠ (fresh P).tail
      · -- the block is the last one of the `j`-th cache
        have hpN : p + 1 < P.numBlocks := by
          have : p ≠ P.numBlocks - 1 := fun h => hmatch.2 (Fin.ext h)
          omega
        have hjn : j < P.numTrackedCaches := by
          rw [FALRUParams.lt_numTrackedCaches_iff, ← hmatch.1, P.size_eq]
          exact Nat.mul_lt_mul_of_pos_right hpN P.blkSize_pos
        have htj : P.trackedBlocks j = p + 1 := by
          have := (hmul hjn).trans hmatch.1.symm
          exact Nat.eq_of_mul_eq_mul_right P.blkSize_pos this
        obtain ⟨m', b', hok, hmasks, hbounds⟩ := initLoop_spec hal fuel (p + 1) (j + 1) (mask &&& ~~~bit j)
          (update m ⟨p, hlt⟩ mask) (update b j (some ⟨p, hlt⟩)) (by omega) hpN.le
          (by
            intro i hi
            rw [hmatch.1, Nat.mul_le_mul_left_iff P.minTrackedSize_pos, Nat.pow_le_pow_iff_right (by decide)]
            omega)
          (mask_end hal hjn htj hmask)
          hm'
          (by
            intro i hi hij
            by_cases hne : i = j
            · subst hne
              rw [update_self, htj, Nat.add_sub_cancel, hblk]
            · rw [update_of_ne hne]
              exact hb i hi (by omega))
        refine ⟨m', b', ?_, hmasks, hbounds⟩
        rw [hblk, initLoop, hcurr, if_pos hmatch, if_pos hjn]
        rw [Nat.shiftLeft_eq, Nat.pow_one, Nat.mul_assoc, ← pow_succ]
        exact hok
      · -- no cache ends here
        obtain ⟨m', b', hok, hmasks, hbounds⟩ := initLoop_spec hal fuel (p + 1) j mask
          (update m ⟨p, hlt⟩ mask) b (by omega) hlt
          (fun i hi => by rw [size_le_iff hal hi]; exact (no_end hal hlt hj hmatch hi).2)
          (by
            intro i
            rw [hmask, decide_eq_decide]
            apply and_congr_right
            intro hi
            have := (no_end hal hlt hj hmatch hi).1
            omega)
          hm' hb
        refine ⟨m', b', ?_, hmasks, hbounds⟩
        rw [hblk, initLoop, hcurr, if_neg hmatch]
        exact hok
    · have hpe : p = P.numBlocks := by omega
      refine ⟨m, b, ?_, fun y i => hm y (by omega) i, fun i hi => hb i hi ?_⟩
      · rw [blkAt, dif_neg hlt]
        rfl
      · rw [hj i hi, size_le_iff hal hi, hpe]
        exact (FALRUParams.trackedBlocks_lt hal hi).le

/-- The loop of `init` if no boundary is met. -/
theorem initLoop_unmatched {tracked : Nat} (mask : BitVec 32) (j : Nat) (hne : ∀ q, q * P.blkSize ≠ tracked) :
    ∀ (fuel p : Nat) (m : Fin P.numBlocks → BitVec 32), P.numBlocks - p < fuel →
      ∃ m', initLoop P fuel { fresh P with inCachesMask := m } (blkAt P p) (p * P.blkSize) tracked mask j =
        .ok { fresh P with inCachesMask := m' }
  | 0, p, m, hfuel => by omega
  | fuel + 1, p, m, hfuel => by
    by_cases hlt : p < P.numBlocks
    · have hblk : blkAt P p = some ⟨p, hlt⟩ := dif_pos hlt
      obtain ⟨m', hok⟩ := initLoop_unmatched mask j hne fuel (p + 1) (update m ⟨p, hlt⟩ mask) (by omega)
      refine ⟨m', ?_⟩
      rw [hblk, initLoop, ← Nat.succ_mul, if_neg fun h => hne _ h.1]
      exact hok
    · exact ⟨m, by rw [blkAt, dif_neg hlt]; rfl⟩

/-- **The tracked caches at the start.** -/
theorem tagsInit_tracking (P : FALRUParams) :
    ∃ m b, tagsInit P = .ok { fresh P with inCachesMask := m, boundaries := b } ∧
      (P.Aligned → Masks P { fresh P with inCachesMask := m, boundaries := b } (List.finRange P.numBlocks) ∧
        Bounds P { fresh P with inCachesMask := m, boundaries := b } (List.finRange P.numBlocks)) := by
  have h0 : 0 < P.numBlocks := (by decide : 0 < 2).trans_le P.two_le_numBlocks
  by_cases hn : P.numTrackedCaches = 0
  · refine ⟨fun _ => 0, fun _ => none, ?_, fun _ => ⟨?_, ?_⟩⟩
    · rw [tagsInit, init, if_neg (by simpa using hn)]
      rfl
    · intro p y _ i
      simp [hn]
    · intro i hi
      omega
  · have hstart : tagsInit P = initLoop P (P.numBlocks + 1) (fresh P) (blkAt P 0) (0 * P.blkSize)
        (P.minTrackedSize * 2 ^ 0) P.inAllCachesMask 0 := by
      rw [tagsInit, init, if_pos hn, blkAt, dif_pos h0, Nat.zero_mul, pow_zero, Nat.mul_one]
      rfl
    by_cases hdvd : P.blkSize ∣ P.minTrackedSize
    · obtain ⟨m, b, hok, hm, hb⟩ := initLoop_spec (P := P) (.inr hdvd) (P.numBlocks + 1) 0 0
        P.inAllCachesMask (fresh P).inCachesMask (fresh P).boundaries (by omega) (Nat.zero_le _)
        (by
          intro i hi
          have : 0 < P.minTrackedSize * 2 ^ i := Nat.mul_pos P.minTrackedSize_pos (Nat.two_pow_pos i)
          omega)
        (by
          intro i
          rw [getLsbD_inAllCachesMask, decide_eq_decide]
          exact ⟨fun hi => ⟨hi, FALRUParams.trackedBlocks_pos (.inr hdvd) hi⟩, And.left⟩)
        (by simp) (by simp)
      refine ⟨m, b, hstart.trans hok, fun _ => ⟨?_, ?_⟩⟩
      · intro p y hp i
        rw [getElem?_finRange, blkAt] at hp
        split at hp
        · cases hp
          exact hm _ i
        · cases hp
      · intro i hi
        rw [getElem?_finRange]
        exact hb i hi
    · have hne : ∀ q, q * P.blkSize ≠ P.minTrackedSize * 2 ^ 0 := by
        rintro q hq
        exact hdvd ⟨q, by rw [Nat.mul_comm, hq, pow_zero, Nat.mul_one]⟩
      obtain ⟨m, hok⟩ := initLoop_unmatched P.inAllCachesMask 0 hne (P.numBlocks + 1) 0
        (fresh P).inCachesMask (by omega)
      refine ⟨m, (fresh P).boundaries, hstart.trans hok, fun hal => ?_⟩
      rcases hal with hal | hal
      · exact absurd hal hn
      · exact absurd hal hdvd

end Start

end FALRU

end Salam.Cache
