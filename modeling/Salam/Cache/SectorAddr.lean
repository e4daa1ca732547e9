import Mathlib.Data.List.FinRange
import Salam.Cache.Indexing

/-!
# The addresses of sectors

An address is the one of a sector, the offset of a block in it and the offset in the block; the tag and the possible
entries are those of the sector.

* `sectorOf_inj`: a sector is known from its tag and its entry in one way.
* `blkAlign_eq`, `blkAlign_inj`: a block is known from its sector and its offset.
-/

namespace Salam.Cache

open Base (Addr)

/-- The parameters, as the constructors check them. The size is the one of `numSets * assoc` sectors. -/
structure SectorParams where
  blkSize : Nat
  numBlocksPerSector : Nat
  assoc : Nat
  numSets : Nat
  policy : IndexingPolicy
  blkSize_pow : ∃ k, blkSize = 2 ^ k
  four_le : 4 ≤ blkSize
  numBlocksPerSector_pow : ∃ k, numBlocksPerSector = 2 ^ k
  entry_size_lt : blkSize * numBlocksPerSector < 2 ^ 31
  assoc_pos : 0 < assoc
  numSets_pow : ∃ k, numSets = 2 ^ k
  numSets_lt : numSets < 2 ^ 32
  /-- The checks of `SkewedAssociative`. -/
  skewed : policy = .skewedAssociative →
    2 < numSets ∧ Nat.log 2 (blkSize * numBlocksPerSector) + 2 * (Nat.log 2 numSets - 1 + 1) ≤ 64

namespace SectorParams

variable (P : SectorParams)

theorem blkSize_pos : 0 < P.blkSize := (by decide : 0 < 4).trans_le P.four_le

theorem numBlocksPerSector_pos : 0 < P.numBlocksPerSector := by
  obtain ⟨k, hk⟩ := P.numBlocksPerSector_pow
  rw [hk]
  exact Nat.two_pow_pos k

/-- An entry is a sector. -/
def indexing : IndexingParams where
  entry_size := P.blkSize * P.numBlocksPerSector
  assoc := P.assoc
  numSets := P.numSets
  entry_size_pos := Nat.mul_pos P.blkSize_pos P.numBlocksPerSector_pos
  entry_size_lt := P.entry_size_lt
  assoc_pos := P.assoc_pos
  numSets_pow := P.numSets_pow
  numSets_lt := P.numSets_lt

theorem accepts : P.indexing.Accepts P.policy := by
  cases hp : P.policy with
  | setAssociative => trivial
  | skewedAssociative => exact P.skewed hp

def sectorShift : Nat := Nat.log 2 P.blkSize

def sectorMask : Addr := BitVec.ofNat 64 (P.numBlocksPerSector - 1)

/-- The number of the bits of the offset in the sector. -/
def offsetBits : Nat := Nat.log 2 P.numBlocksPerSector

def blkAlign (addr : Addr) : Addr := addr &&& ~~~BitVec.ofNat 64 (P.blkSize - 1)

def extractTag (addr : Addr) : Addr := P.indexing.extractTag addr

variable {P} {addr addr' : Addr}

theorem blkSize_eq : P.blkSize = 2 ^ P.sectorShift := by
  obtain ⟨k, hk⟩ := P.blkSize_pow
  rw [sectorShift, hk, Nat.log_pow (by decide)]

theorem numBlocksPerSector_eq : P.numBlocksPerSector = 2 ^ P.offsetBits := by
  obtain ⟨k, hk⟩ := P.numBlocksPerSector_pow
  rw [offsetBits, hk, Nat.log_pow (by decide)]

theorem setShift_eq : P.indexing.setShift = P.sectorShift + P.offsetBits := by
  have : P.indexing.entry_size = P.blkSize * P.numBlocksPerSector := rfl
  rw [IndexingParams.setShift, this, blkSize_eq, numBlocksPerSector_eq, ← pow_add, Nat.log_pow (by decide)]

theorem shifts_lt : P.sectorShift + P.offsetBits < 31 := by
  rw [← setShift_eq]
  exact IndexingParams.setShift_lt

theorem getLsbD_ones {n i : Nat} (hn : n < 64) : (BitVec.ofNat 64 (2 ^ n - 1)).getLsbD i = decide (i < n) := by
  rw [BitVec.getLsbD_ofNat, Nat.testBit_two_pow_sub_one]
  by_cases hi : i < n
  · simp [hi, hi.trans hn]
  · simp [hi]

theorem getLsbD_blkAlign {i : Nat} : (P.blkAlign addr).getLsbD i = (decide (P.sectorShift ≤ i) && addr.getLsbD i) := by
  have hlt := shifts_lt (P := P)
  rw [blkAlign, BitVec.getLsbD_and, BitVec.getLsbD_not, blkSize_eq, getLsbD_ones (by omega)]
  by_cases hi : i < 64
  · by_cases hs : P.sectorShift ≤ i
    · simp [hi, hs]
    · simp [hi, hs, Nat.lt_of_not_le hs]
  · simp [BitVec.getLsbD_of_ge addr i (by omega)]

theorem getLsbD_offset {i : Nat} : ((addr >>> P.sectorShift) &&& P.sectorMask).getLsbD i =
    (decide (i < P.offsetBits) && addr.getLsbD (P.sectorShift + i)) := by
  have hlt := shifts_lt (P := P)
  rw [BitVec.getLsbD_and, BitVec.getLsbD_ushiftRight, sectorMask, numBlocksPerSector_eq, getLsbD_ones (by omega),
    Bool.and_comm]

theorem offset_lt : ((addr >>> P.sectorShift) &&& P.sectorMask).toNat < P.numBlocksPerSector := by
  rw [numBlocksPerSector_eq]
  apply Nat.lt_pow_two_of_testBit
  intro i hi
  change BitVec.getLsbD _ i = false
  rw [getLsbD_offset, decide_eq_false (by omega), Bool.false_and]

/-- The position of a sector. -/
abbrev Entry (P : SectorParams) : Type := Fin P.numSets × Fin P.assoc

/-- The position of a block. -/
abbrev Loc (P : SectorParams) : Type := P.Entry × Fin P.numBlocksPerSector

def extractSectorOffset (P : SectorParams) (addr : Addr) : Fin P.numBlocksPerSector :=
  ⟨((addr >>> P.sectorShift) &&& P.sectorMask).toNat, offset_lt⟩

/-- The entry of an address in a way. -/
def entryOf (P : SectorParams) (addr : Addr) (way : Fin P.assoc) : P.Entry :=
  (⟨(P.indexing.extractSet P.policy addr way.1).toNat, IndexingParams.extractSet_lt⟩, way)

def getPossibleEntries (P : SectorParams) (addr : Addr) : List P.Entry := (List.finRange P.assoc).map (P.entryOf addr)

/-- The address of the sector. -/
def sectorOf (P : SectorParams) (addr : Addr) : Addr := addr >>> P.indexing.setShift

/-- With `SetAssociative`, the address of the set fits in an `uint32_t`. -/
def Fits (P : SectorParams) (addr : Addr) : Prop :=
  P.policy = .setAssociative → (P.indexing.extractSet P.policy addr 0).toNat * 2 ^ P.indexing.setShift < 2 ^ 32

instance (addr : Addr) : Decidable (P.Fits addr) := inferInstanceAs (Decidable (_ → _))

theorem mem_getPossibleEntries {e : P.Entry} : e ∈ P.getPossibleEntries addr ↔ P.entryOf addr e.2 = e := by
  rw [getPossibleEntries, List.mem_map]
  constructor
  · rintro ⟨way, -, rfl⟩
    rfl
  · intro h
    exact ⟨e.2, List.mem_finRange _, h⟩

theorem blkAlign_shift {n : Nat} (hn : P.sectorShift ≤ n) : P.blkAlign addr >>> n = addr >>> n := by
  apply BitVec.eq_of_getLsbD_eq
  intro i _
  rw [BitVec.getLsbD_ushiftRight, BitVec.getLsbD_ushiftRight, getLsbD_blkAlign, decide_eq_true (by omega),
    Bool.true_and]

theorem sectorOf_blkAlign : P.sectorOf (P.blkAlign addr) = P.sectorOf addr :=
  blkAlign_shift (by rw [setShift_eq]; exact Nat.le_add_right _ _)

theorem offset_blkAlign : P.extractSectorOffset (P.blkAlign addr) = P.extractSectorOffset addr := by
  simp only [extractSectorOffset, @blkAlign_shift P addr _ le_rfl]

theorem blkAlign_idem : P.blkAlign (P.blkAlign addr) = P.blkAlign addr := by
  rw [blkAlign, blkAlign, BitVec.and_assoc, BitVec.and_self]

section

variable (h : P.sectorOf addr = P.sectorOf addr')
include h

theorem extractTag_congr : P.extractTag addr = P.extractTag addr' :=
  (IndexingParams.extract_congr P.policy 0 h).1

theorem entryOf_congr (way : Fin P.assoc) : P.entryOf addr way = P.entryOf addr' way := by
  have hset := (IndexingParams.extract_congr P.policy way.1 h).2
  simp only [entryOf, hset]

theorem fits_congr (hfits : P.Fits addr) : P.Fits addr' := by
  intro hp
  rw [← (IndexingParams.extract_congr P.policy 0 h).2]
  exact hfits hp

end

theorem sectorOf_inj {way : Fin P.assoc} (htag : P.extractTag addr = P.extractTag addr')
    (hentry : P.entryOf addr way = P.entryOf addr' way) : P.sectorOf addr = P.sectorOf addr' :=
  IndexingParams.extractSet_inj P.accepts htag (BitVec.eq_of_toNat_eq (congrArg (fun e => e.1.1) hentry))

/-- An address is made of the sector, the offset of the block and the offset in the block. -/
theorem blkAlign_eq : (P.sectorOf addr <<< P.indexing.setShift) |||
    (((addr >>> P.sectorShift) &&& P.sectorMask) <<< P.sectorShift) =
    P.blkAlign addr := by
  apply BitVec.eq_of_getLsbD_eq
  intro i hi
  rw [BitVec.getLsbD_or, BitVec.getLsbD_shiftLeft, BitVec.getLsbD_shiftLeft, sectorOf, BitVec.getLsbD_ushiftRight,
    getLsbD_offset, getLsbD_blkAlign, setShift_eq, decide_eq_true hi]
  by_cases h1 : i < P.sectorShift
  · have h2 : i < P.sectorShift + P.offsetBits := Nat.lt_add_right _ h1
    have h3 : ¬ P.sectorShift ≤ i := by omega
    simp [h1, h2, h3]
  · have h3 : P.sectorShift ≤ i := by omega
    by_cases h2 : i < P.sectorShift + P.offsetBits
    · have h4 : i - P.sectorShift < P.offsetBits := by omega
      simp [h1, h2, h3, h4]
    · have h4 : ¬ i - P.sectorShift < P.offsetBits := by omega
      have h5 : P.sectorShift + P.offsetBits + (i - (P.sectorShift + P.offsetBits)) = i := by omega
      simp [h1, h2, h3, h4, h5]

/-- Two blocks at the same offset of the same sector are one. -/
theorem blkAlign_inj (h : P.sectorOf addr = P.sectorOf addr')
    (hoff : P.extractSectorOffset addr = P.extractSectorOffset addr') :
    P.blkAlign addr = P.blkAlign addr' := by
  have hbits : (addr >>> P.sectorShift) &&& P.sectorMask = (addr' >>> P.sectorShift) &&& P.sectorMask :=
    BitVec.eq_of_toNat_eq (Fin.mk.inj hoff)
  rw [← blkAlign_eq, h, hbits, blkAlign_eq]

end SectorParams

end Salam.Cache
