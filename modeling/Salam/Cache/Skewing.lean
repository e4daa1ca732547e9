import Mathlib.Data.Fintype.EquivFin
import Salam.Cache.Indexing

/-!
# The sets of a way

For a tag and a way, `SkewedAssociative` goes from the set of a conventional cache to another one: no two sets go to
one, so that every set is used.

* `skewedSet_extract`: the set of an address is that of its tag and its conventional set.
* `skewedSet_bijective`: the sets are permuted.
* `skewing_invertible`: this, and that the address of an entry is regenerated.
-/

namespace Salam.Cache.IndexingParams

open Base (Addr)

variable (I : IndexingParams)

/-- The first address of the entry that has this tag and, in a conventional cache, this set. -/
def blockAddr (tag : Addr) (set : Fin I.numSets) : Addr := (tag <<< I.tagShift) ||| (BitVec.ofNat 64 set <<< I.setShift)

/-- The set of a conventional cache. -/
def conventionalSet (addr : Addr) : Fin I.numSets := ⟨(I.extractSet .setAssociative addr 0).toNat, extractSet_lt⟩

/-- The set in a way. -/
def skewedSet (tag : Addr) (way : Nat) (set : Fin I.numSets) : Fin I.numSets :=
  ⟨(I.extractSet .skewedAssociative (I.blockAddr tag set) way).toNat, extractSet_lt⟩

variable {I} {addr tag : Addr} {way i : Nat} {set : Fin I.numSets}

theorem getLsbD_set (set : Fin I.numSets) (hi : I.setBits ≤ i) : (BitVec.ofNat 64 set).getLsbD i = false := by
  have hlt : set.val < 2 ^ I.setBits := Nat.lt_of_lt_of_eq set.isLt numSets_eq
  rw [BitVec.getLsbD_ofNat, Nat.testBit_lt_two_pow (Nat.lt_of_lt_of_le hlt (Nat.pow_le_pow_right (by decide) hi)),
    Bool.and_false]

/-- The tag of such an address, as far as it fits. -/
theorem extractTag_blockAddr (tag : Addr) (set : Fin I.numSets) :
    I.extractTag (I.blockAddr tag set) = (tag <<< I.tagShift) >>> I.tagShift := by
  apply BitVec.eq_of_getLsbD_eq
  intro i _
  rw [extractTag, blockAddr, BitVec.getLsbD_ushiftRight, BitVec.getLsbD_or, BitVec.getLsbD_ushiftRight,
    BitVec.getLsbD_shiftLeft (x := BitVec.ofNat 64 set), getLsbD_set set (by unfold tagShift; omega), Bool.and_false,
    Bool.or_false]

theorem getLsbD_blockAddr (tag : Addr) (set : Fin I.numSets) (hi : i < I.setBits) (hfit : I.tagShift ≤ 64) :
    (I.blockAddr tag set >>> I.setShift).getLsbD i = (BitVec.ofNat 64 set).getLsbD i := by
  have hlow : I.setShift + i < I.tagShift := by
    unfold tagShift
    omega
  rw [BitVec.getLsbD_ushiftRight, blockAddr, BitVec.getLsbD_or, BitVec.getLsbD_shiftLeft, BitVec.getLsbD_shiftLeft,
    Nat.add_sub_cancel_left, decide_eq_true hlow, decide_eq_true (show I.setShift + i < 64 by omega),
    decide_eq_false (show ¬ I.setShift + i < I.setShift by omega)]
  rfl

theorem getLsbD_blockAddr_tag (tag : Addr) (set : Fin I.numSets) (hi : I.setBits ≤ i) :
    (I.blockAddr tag set >>> I.setShift).getLsbD i = (decide (I.setShift + i < 64) && tag.getLsbD (i - I.setBits)) := by
  have hhigh : I.setShift + i - I.tagShift = i - I.setBits := by
    unfold tagShift
    omega
  have hge : ¬ I.setShift + i < I.tagShift := by
    unfold tagShift
    omega
  rw [BitVec.getLsbD_ushiftRight, blockAddr, BitVec.getLsbD_or, BitVec.getLsbD_shiftLeft,
    BitVec.getLsbD_shiftLeft (x := BitVec.ofNat 64 set), Nat.add_sub_cancel_left, getLsbD_set set hi, Bool.and_false,
    Bool.or_false, hhigh, decide_eq_false hge, Bool.not_false, Bool.and_true]

section

variable (h : I.Accepts .skewedAssociative)
include h

theorem Accepts.tagShift_le : I.tagShift ≤ 64 := by
  have h2 := h.2
  rw [h.msbShift_succ] at h2
  unfold tagShift
  omega

/-- **The set of an address** in a way is that of its tag and its conventional set. -/
theorem skewedSet_extract (addr : Addr) (way : Nat) :
    (I.skewedSet (I.extractTag addr) way (I.conventionalSet addr)).val =
      (I.extractSet .skewedAssociative addr way).toNat := by
  have hblock : I.blockAddr (I.extractTag addr) (I.conventionalSet addr) >>> I.setShift = addr >>> I.setShift := by
    have hset : BitVec.ofNat 64 (I.conventionalSet addr) = I.extractSet .setAssociative addr 0 := by
      rw [conventionalSet, BitVec.ofNat_toNat, BitVec.setWidth_eq]
    apply BitVec.eq_of_getLsbD_eq
    intro i _
    by_cases hi : i < I.setBits
    · rw [getLsbD_blockAddr _ _ hi h.tagShift_le, hset, extractSet, BitVec.getLsbD_and, getLsbD_setMask,
        decide_eq_true hi, Bool.and_true]
    · have heq : I.tagShift + (i - I.setBits) = I.setShift + i := by
        unfold tagShift
        omega
      rw [getLsbD_blockAddr_tag _ _ (by omega), extractTag, BitVec.getLsbD_ushiftRight, BitVec.getLsbD_ushiftRight, heq]
      by_cases h64 : I.setShift + i < 64
      · rw [decide_eq_true h64, Bool.true_and]
      · rw [BitVec.getLsbD_of_ge _ _ (by omega), Bool.and_false]
  rw [skewedSet]
  exact congrArg BitVec.toNat (extract_congr .skewedAssociative way hblock).2

/-- **The sets are permuted.** -/
theorem skewedSet_bijective (tag : Addr) (way : Nat) : Function.Bijective (I.skewedSet tag way) := by
  refine Finite.injective_iff_bijective.mp fun s t hst => ?_
  have htag : I.extractTag (I.blockAddr tag s) = I.extractTag (I.blockAddr tag t) := by
    rw [extractTag_blockAddr, extractTag_blockAddr]
  have hset : I.extractSet .skewedAssociative (I.blockAddr tag s) way =
      I.extractSet .skewedAssociative (I.blockAddr tag t) way := BitVec.eq_of_toNat_eq (Fin.mk.inj hst)
  have hblock := extractSet_inj h htag hset
  have hbits : BitVec.ofNat 64 s = BitVec.ofNat 64 t := by
    apply BitVec.eq_of_getLsbD_eq
    intro i _
    by_cases hi : i < I.setBits
    · rw [← getLsbD_blockAddr tag s hi h.tagShift_le, ← getLsbD_blockAddr tag t hi h.tagShift_le, hblock]
    · rw [getLsbD_set s (by omega), getLsbD_set t (by omega)]
  have hlt : ∀ u : Fin I.numSets, (BitVec.ofNat 64 u).toNat = u.val := by
    intro u
    have hsets := I.numSets_lt
    exact Nat.mod_eq_of_lt (by omega)
  have hval := congrArg BitVec.toNat hbits
  rw [hlt, hlt] at hval
  exact Fin.ext hval

end

/-- **Skewing is invertible**: the address of an entry is regenerated from its tag and its position, up to the offset in
the entry, and the sets of a tag are permuted in every way. -/
theorem skewing_invertible (h : I.Accepts .skewedAssociative) (way : Nat) :
    (∀ addr, I.regenerateAddr .skewedAssociative (I.extractTag addr)
      ((I.extractSet .skewedAssociative addr way).setWidth 32) way = (addr >>> I.setShift) <<< I.setShift) ∧
    (∀ tag, Function.Bijective (I.skewedSet tag way)) ∧
    ∀ addr, (I.skewedSet (I.extractTag addr) way (I.conventionalSet addr)).val =
      (I.extractSet .skewedAssociative addr way).toNat :=
  ⟨fun _ => regenerateAddr_extract h (fun hpolicy => (by cases hpolicy)), fun tag => skewedSet_bijective h tag way,
    fun addr => skewedSet_extract h addr way⟩

theorem blockSize_pos : 0 < 64 := by decide

/-- A cache of 16 KiB with blocks of 64 bytes and 16 ways. -/
def sixteenWays : IndexingParams where
  entry_size := 64
  assoc := 16
  numSets := 16
  entry_size_pos := blockSize_pos
  entry_size_lt := by decide
  assoc_pos := by decide
  numSets_pow := ⟨4, rfl⟩
  numSets_lt := by decide

/-- The last of its ways, where the hashes are piled up. -/
theorem skewing_invertible_sixteen : sixteenWays.Accepts .skewedAssociative ∧
    sixteenWays.regenerateAddr .skewedAssociative (sixteenWays.extractTag 0x12345)
      ((sixteenWays.extractSet .skewedAssociative 0x12345 15).setWidth 32) 15 = 0x12340 ∧
    Function.Bijective (sixteenWays.skewedSet 0x48 15) :=
  have haccepts : sixteenWays.Accepts .skewedAssociative := by decide
  have h := skewing_invertible haccepts 15
  ⟨haccepts, (h.1 0x12345).trans (by decide), h.2.1 0x48⟩

end Salam.Cache.IndexingParams
