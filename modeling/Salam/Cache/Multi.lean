import Mathlib.Data.Nat.Log
import Salam.Lib.Heap

/-!
# `MultiCompressor`

Every sub-compressor compresses the line, and a priority queue ranks what they give by the compression factor and, for
equal factors, by the latency of decompression. The factor is kept in eight bits, and so is the index of the first in
the ranking.

* `toNat_alignToPowerOfTwo`: the next power of two.
* `top_firstLast`: what the queue puts first.
* `picksBest_iff`: when that is the best one.
-/

namespace Salam.Cache

open Heap

/-! ## `alignToPowerOfTwo` -/

/-- `val |= val >> s` -/
def orShifted (val : BitVec 64) (s : Nat) : BitVec 64 := val ||| val >>> s

def alignToPowerOfTwo (val : BitVec 64) : BitVec 64 :=
  let val := val - 1#64
  let val := orShifted val 1
  let val := orShifted val 2
  let val := orShifted val 4
  let val := orShifted val 8
  let val := orShifted val 16
  let val := orShifted val 32
  val + 1#64

section Align

variable {s : Nat} {v w : BitVec 64}

/-- A bit of `w` says whether one of `s` bits of `v` from its place on is set. -/
def Smeared (s : Nat) (v w : BitVec 64) : Prop :=
  ∀ i, w.getLsbD i = true ↔ ∃ j, i ≤ j ∧ j < i + s ∧ v.getLsbD j = true

theorem Smeared.refl (v : BitVec 64) : Smeared 1 v v := by
  intro i
  constructor
  · exact fun h => ⟨i, Nat.le_refl i, Nat.lt_succ_self i, h⟩
  · rintro ⟨j, hle, hlt, h⟩
    rwa [show i = j by omega]

theorem Smeared.step (h : Smeared s v w) : Smeared (s + s) v (orShifted w s) := by
  intro i
  rw [orShifted, BitVec.getLsbD_or, BitVec.getLsbD_ushiftRight, Bool.or_eq_true, h i, h (s + i)]
  constructor
  · rintro (⟨j, hle, hlt, hj⟩ | ⟨j, hle, hlt, hj⟩)
    · exact ⟨j, hle, by omega, hj⟩
    · exact ⟨j, by omega, by omega, hj⟩
  · rintro ⟨j, hle, hlt, hj⟩
    by_cases hs : j < i + s
    · exact .inl ⟨j, hle, hs, hj⟩
    · exact .inr ⟨j, by omega, by omega, hj⟩

theorem Smeared.toNat (h : Smeared 64 v w) : w.toNat = 2 ^ Nat.clog 2 (v.toNat + 1) - 1 := by
  refine Nat.eq_of_testBit_eq fun i => ?_
  rw [Nat.testBit_two_pow_sub_one, BitVec.testBit_toNat, Bool.eq_iff_iff, h i, decide_eq_true_iff,
    Nat.lt_clog_iff_pow_lt (by decide), Nat.lt_succ_iff]
  constructor
  · rintro ⟨j, hle, -, hj⟩
    exact Nat.le_trans (Nat.pow_le_pow_right (by decide) hle) (Nat.ge_two_pow_of_testBit hj)
  · intro hle
    obtain ⟨j, hij, hj⟩ := Nat.exists_ge_and_testBit_of_ge_two_pow hle
    exact ⟨j, hij, by have := BitVec.lt_of_getLsbD hj; omega, hj⟩

/-- **The next power of two.** -/
theorem toNat_alignToPowerOfTwo {val : BitVec 64} (hpos : 1 ≤ val.toNat) (hle : val.toNat ≤ 2 ^ 63) :
    (alignToPowerOfTwo val).toNat = 2 ^ Nat.clog 2 val.toNat := by
  have hbits := (Smeared.refl (val - 1#64)).step.step.step.step.step.step.toNat
  have hpred : (val - 1#64).toNat + 1 = val.toNat := by
    rw [BitVec.toNat_sub_of_le (by rw [BitVec.le_def]; exact hpos)]
    exact Nat.sub_add_cancel hpos
  have hpow : 0 < 2 ^ Nat.clog 2 val.toNat := Nat.two_pow_pos _
  have hlog : 2 ^ Nat.clog 2 val.toNat ≤ 2 ^ 63 := Nat.pow_le_pow_right (by decide) (Nat.clog_le_of_le_pow hle)
  rw [hpred] at hbits
  rw [alignToPowerOfTwo, BitVec.toNat_add, hbits, BitVec.toNat_ofNat]
  rw [Nat.mod_eq_of_lt (show 1 < 2 ^ 64 by decide), Nat.sub_add_cancel hpow, Nat.mod_eq_of_lt (by omega)]

end Align

/-! ## The compressor -/

structure CompressionData (δ : Type) where
  size : Nat
  data : δ

/-- The size in bytes. -/
def CompressionData.getSize {δ : Type} (comp : CompressionData δ) : Nat := comp.size / 8

/-- The virtual functions of a compressor; `compress` gives the latencies of compression and of decompression too. -/
structure SubCompressor (δ : Type) where
  compress : List (BitVec 64) → CompressionData δ × Nat × Nat
  decompress : CompressionData δ → List (BitVec 64)

namespace MultiCompressor

variable {δ : Type}

structure Results (δ : Type) where
  index : Nat
  compData : CompressionData δ
  decompLat : Nat
  compressionFactor : BitVec 8

/-- What `compressionFactor` is set to, before it is cut to eight bits. -/
def factor (blk_size size : Nat) : BitVec 64 :=
  if size > blk_size then 1 else alignToPowerOfTwo (BitVec.ofNat 64 (blk_size / size))

/-- The constructor of `Results`. -/
def Results.new (index : Nat) (comp_data : CompressionData δ) (decomp_lat blk_size : Nat) : Results δ :=
  ⟨index, comp_data, decomp_lat, (factor blk_size comp_data.getSize).setWidth 8⟩

/-- `ResultsComparator` -/
def comparator (lhs rhs : Results δ) : Bool :=
  if lhs.compressionFactor = rhs.compressionFactor then lhs.decompLat < rhs.decompLat
  else lhs.compressionFactor.toNat < rhs.compressionFactor.toNat

structure MultiCompData (δ : Type) where
  index : BitVec 8
  compData : CompressionData δ
  size : Nat

section

variable (compressors : List (SubCompressor δ)) (blkSize : Nat) (cache_line : List (BitVec 64))

/-- What is pushed to the queue. -/
def results : List (Results δ) := compressors.zipIdx.map fun c =>
  let (comp_data, _, decomp_lat) := c.1.compress cache_line
  Results.new c.2 comp_data decomp_lat blkSize

/-- `results.top()` -/
def top : Option (Results δ) := (pushAll comparator (results compressors blkSize cache_line) #[])[0]?

/-- `compress`, with the latencies of compression and of decompression; there is at least one sub-compressor. -/
def compress : Option (MultiCompData δ × Nat × Nat) := do
  let best ← top compressors blkSize cache_line
  let max_comp_lat := compressors.foldl (fun lat c => max lat (c.compress cache_line).2.1) 0
  return (⟨BitVec.ofNat 8 best.index, best.compData, best.compData.size⟩, max_comp_lat + 1, best.decompLat)

/-- `decompress`; there is a sub-compressor for the index. -/
def decompress (comp_data : MultiCompData δ) : Option (List (BitVec 64)) :=
  compressors[comp_data.index.toNat]?.map fun c => c.decompress comp_data.compData

end

/-! ## The ranking -/

theorem comparator_iff {a b : Results δ} : comparator a b = true ↔
    a.compressionFactor.toNat < b.compressionFactor.toNat ∨
      a.compressionFactor.toNat = b.compressionFactor.toNat ∧ a.decompLat < b.decompLat := by
  by_cases heq : a.compressionFactor = b.compressionFactor
  · rw [comparator, if_pos heq, heq, decide_eq_true_iff]
    omega
  · rw [comparator, if_neg heq, decide_eq_true_iff]
    rw [← BitVec.toNat_inj] at heq
    omega

theorem comparator_weak : Weak (comparator (δ := δ)) := by
  constructor
  · intro a b h
    rw [comparator_iff] at h
    rw [← Bool.not_eq_true, comparator_iff]
    omega
  · intro a b c hab hbc
    rw [← Bool.not_eq_true, comparator_iff] at hab hbc ⊢
    omega

section

variable {compressors : List (SubCompressor δ)} {blkSize : Nat} {cache_line : List (BitVec 64)}
  {r c : Results δ} {i : Nat}

theorem getElem?_results (i : Nat) : (results compressors blkSize cache_line)[i]? = compressors[i]?.map fun s =>
    Results.new i (s.compress cache_line).1 (s.compress cache_line).2.2 blkSize := by
  rw [results, List.getElem?_map, List.getElem?_zipIdx, Option.map_map]
  simp only [Function.comp_def, Nat.zero_add]

theorem exists_of_results (h : (results compressors blkSize cache_line)[i]? = some r) :
    ∃ s ∈ compressors, compressors[i]? = some s ∧
      r = Results.new i (s.compress cache_line).1 (s.compress cache_line).2.2 blkSize := by
  rw [getElem?_results, Option.map_eq_some_iff] at h
  obtain ⟨s, hs, hr⟩ := h
  exact ⟨s, List.mem_of_getElem? hs, hs, hr.symm⟩

/-- The queue puts the first of those results first that come before no other one. -/
theorem top_firstLast (h : compressors ≠ []) : ∃ c, top compressors blkSize cache_line = some c ∧
    FirstLast comparator (results compressors blkSize cache_line) c.index c := by
  have hne : results compressors blkSize cache_line ≠ [] := by simpa [results] using h
  obtain ⟨i, c, htop, hfirst⟩ := front_pushAll (comparator_weak (δ := δ)) hne
  obtain ⟨s, -, -, hc⟩ := exists_of_results hfirst.at_i
  have hindex : c.index = i := by rw [hc]; rfl
  exact ⟨c, htop, hindex.symm ▸ hfirst⟩

end

/-! ## The factor -/

section Factor

variable {blkSize : Nat} {r c : Results δ} {F : Nat}

/-- The compression factor of a result. -/
def factorOf (blkSize : Nat) (r : Results δ) : Nat := (factor blkSize r.compData.getSize).toNat

theorem factor_pow {blkSize size : Nat} (hblk : blkSize < 2 ^ 31) (hsize : 0 < size) :
    ∃ k, (factor blkSize size).toNat = 2 ^ k := by
  unfold factor
  split
  · exact ⟨0, rfl⟩
  · have hpos : 0 < blkSize / size := Nat.div_pos (by omega) hsize
    have hle : blkSize / size ≤ blkSize := Nat.div_le_self _ _
    have hval : (BitVec.ofNat 64 (blkSize / size)).toNat = blkSize / size := by
      exact Nat.mod_eq_of_lt (by omega)
    exact ⟨_, toNat_alignToPowerOfTwo (by omega) (by omega)⟩

/-- A power of two is cut to itself or to zero. -/
theorem pow_mod_256 (k : Nat) : 2 ^ k % 256 = if 2 ^ k < 256 then 2 ^ k else 0 := by
  split
  · rename_i hlt
    exact Nat.mod_eq_of_lt hlt
  · rename_i hge
    have hk : 8 ≤ k := by
      by_contra hk
      exact hge (Nat.pow_lt_pow_right (by decide) (show k < 8 by omega))
    exact Nat.mod_eq_zero_of_dvd (Nat.pow_dvd_pow 2 hk)

/-- The field of a result holds its factor as long as that is below 256, and zero from then on. -/
structure Cut (blkSize : Nat) (r : Results δ) : Prop where
  pos : 0 < factorOf blkSize r
  field : r.compressionFactor.toNat = if factorOf blkSize r < 256 then factorOf blkSize r else 0

theorem cut_new (hblk : blkSize < 2 ^ 31) {comp_data : CompressionData δ} (hsize : 0 < comp_data.getSize)
    (index decomp_lat : Nat) : Cut blkSize (Results.new index comp_data decomp_lat blkSize) := by
  obtain ⟨k, hk⟩ := factor_pow hblk hsize
  have hfactor : factorOf blkSize (Results.new index comp_data decomp_lat blkSize) = 2 ^ k := hk
  constructor
  · rw [hfactor]
    exact Nat.two_pow_pos k
  · rw [hfactor, ← pow_mod_256, ← hk]
    exact BitVec.toNat_setWidth _ _

/-- No result is of a larger factor, and none of the same factor has a smaller latency. -/
structure Best (blkSize : Nat) (rs : List (Results δ)) (c : Results δ) : Prop where
  factor_le : ∀ r ∈ rs, factorOf blkSize r ≤ factorOf blkSize c
  lat_le : ∀ r ∈ rs, factorOf blkSize r = factorOf blkSize c → c.decompLat ≤ r.decompLat

/-- The results of the largest factor have one latency. Result `i`, whose index fits into eight bits, is the first of
them; if every factor is cut to zero, it is the first of the largest latency. -/
structure Decided (blkSize : Nat) (rs : List (Results δ)) (i : Nat) (c : Results δ) : Prop where
  at_i : rs[i]? = some c
  recorded : i < 256
  factor_le : ∀ r ∈ rs, factorOf blkSize r ≤ factorOf blkSize c
  lat_eq : ∀ r ∈ rs, factorOf blkSize r = factorOf blkSize c → r.decompLat = c.decompLat
  first : (factorOf blkSize c < 256 ∧ ∀ j < i, ∀ r, rs[j]? = some r → factorOf blkSize r < factorOf blkSize c) ∨
    (∀ r ∈ rs, 256 ≤ factorOf blkSize r ∧ r.decompLat ≤ c.decompLat) ∧
      ∀ j < i, ∀ r, rs[j]? = some r → r.decompLat < c.decompLat

/-- What the queue puts first is the best one and recorded if the result is decided. -/
theorem decided_iff {rs : List (Results δ)} (hrs : ∀ r ∈ rs, Cut blkSize r) {i : Nat} :
    Decided blkSize rs i c ↔ FirstLast comparator rs i c ∧ Best blkSize rs c ∧ i < 256 := by
  constructor
  · intro h
    have hc := hrs c (List.mem_of_getElem? h.at_i)
    have hfield := hc.field
    refine ⟨⟨h.at_i, fun r hr => ?_, fun j hj r hr => ?_⟩,
      ⟨h.factor_le, fun r hr heq => (h.lat_eq r hr heq).ge⟩, h.recorded⟩
    · have hle := h.factor_le r hr
      have heq := h.lat_eq r hr
      have hr' := (hrs r hr).field
      rw [← Bool.not_eq_true, comparator_iff]
      rcases h.first with ⟨hlt, -⟩ | ⟨hall, -⟩
      · rw [if_pos hlt] at hfield
        rw [if_pos (by omega)] at hr'
        omega
      · rw [if_neg (by have := (hall c (List.mem_of_getElem? h.at_i)).1; omega)] at hfield
        have hlat := hall r hr
        rw [if_neg (by omega)] at hr'
        omega
    · have hmem := List.mem_of_getElem? hr
      have hr' := (hrs r hmem).field
      rw [comparator_iff]
      rcases h.first with ⟨hlt, hbefore⟩ | ⟨hall, hbefore⟩
      · have hless := hbefore j hj r hr
        rw [if_pos hlt] at hfield
        rw [if_pos (by omega)] at hr'
        omega
      · have hless := hbefore j hj r hr
        rw [if_neg (by have := (hall r hmem).1; omega)] at hr'
        omega
  · rintro ⟨hfirst, hbest, hi⟩
    have hmem := List.mem_of_getElem? hfirst.at_i
    have hfield := (hrs c hmem).field
    have hlast : ∀ r ∈ rs, ¬ (c.compressionFactor.toNat < r.compressionFactor.toNat ∨
        c.compressionFactor.toNat = r.compressionFactor.toNat ∧ c.decompLat < r.decompLat) := by
      intro r hr
      rw [← comparator_iff, Bool.not_eq_true]
      exact hfirst.last r hr
    have hsame : ∀ r ∈ rs, factorOf blkSize r = factorOf blkSize c →
        r.compressionFactor.toNat = c.compressionFactor.toNat := by
      intro r hr heq
      rw [(hrs r hr).field, hfield, heq]
    refine ⟨hfirst.at_i, hi, hbest.factor_le, fun r hr heq => ?_, ?_⟩
    · have hle := hbest.lat_le r hr heq
      have hge := hlast r hr
      have hcf := hsame r hr heq
      omega
    · by_cases hlt : factorOf blkSize c < 256
      · refine .inl ⟨hlt, fun j hj r hr => ?_⟩
        have hrmem := List.mem_of_getElem? hr
        have hbefore := hfirst.first j hj r hr
        rw [comparator_iff] at hbefore
        have hle := hbest.factor_le r hrmem
        have hlat := hbest.lat_le r hrmem
        have hcf := hsame r hrmem
        omega
      · rw [if_neg hlt] at hfield
        refine .inr ⟨fun r hr => ?_, fun j hj r hr => ?_⟩
        · have hge := hlast r hr
          have hpos := (hrs r hr).pos
          have hr' := (hrs r hr).field
          by_cases hrlt : factorOf blkSize r < 256
          · rw [if_pos hrlt] at hr'
            omega
          · rw [if_neg hrlt] at hr'
            omega
        · have hbefore := hfirst.first j hj r hr
          rw [comparator_iff] at hbefore
          omega

end Factor

/-! ## The choice -/

section Choice

variable (compressors : List (SubCompressor δ)) (blkSize : Nat) (cache_line : List (BitVec 64))

/-- The result that is chosen is the best one, its latency, index and size are those given, and decompression is that of
its sub-compressor. -/
def PicksBest : Prop :=
  ∃ c, top compressors blkSize cache_line = some c ∧ Best blkSize (results compressors blkSize cache_line) c ∧
    ∃ out comp_lat decomp_lat, compress compressors blkSize cache_line = some (out, comp_lat, decomp_lat) ∧
      decomp_lat = c.decompLat ∧ out.index.toNat = c.index ∧ out.size = c.compData.size ∧
      decompress compressors out = compressors[c.index]?.map fun s => s.decompress c.compData

variable {compressors blkSize cache_line}

theorem picksBest_of_top {c : Results δ} (h : top compressors blkSize cache_line = some c) :
    PicksBest compressors blkSize cache_line ↔ Best blkSize (results compressors blkSize cache_line) c ∧
    c.index < 256 := by
  have hout : compress compressors blkSize cache_line = some (⟨BitVec.ofNat 8 c.index, c.compData, c.compData.size⟩,
      compressors.foldl (fun lat s => max lat (s.compress cache_line).2.1) 0 + 1, c.decompLat) := by
    rw [compress, h]
    rfl
  constructor
  · rintro ⟨c', htop, hbest, out, comp_lat, decomp_lat, hcomp, -, hindex, -⟩
    rw [h] at htop
    cases htop
    rw [hout] at hcomp
    cases hcomp
    refine ⟨hbest, ?_⟩
    rw [← hindex]
    exact (BitVec.ofNat 8 c.index).isLt
  · rintro ⟨hbest, hi⟩
    have hindex : (BitVec.ofNat 8 c.index).toNat = c.index := by
      exact Nat.mod_eq_of_lt hi
    exact ⟨c, h, hbest, _, _, _, hout, rfl, hindex, rfl, by rw [decompress, hindex]⟩

/-- **When the best one is chosen**: ties are decided for the larger latency, and factors and indices are cut to eight
bits. -/
theorem picksBest_iff (hne : compressors ≠ []) (hblk : blkSize < 2 ^ 31)
    (hsize : ∀ s ∈ compressors, 0 < (s.compress cache_line).1.getSize) :
    PicksBest compressors blkSize cache_line ↔ ∃ i c, Decided blkSize (results compressors blkSize cache_line) i c := by
  have hrs : ∀ r ∈ results compressors blkSize cache_line, Cut blkSize r := by
    intro r hr
    obtain ⟨i, hi⟩ := List.mem_iff_getElem?.mp hr
    obtain ⟨s, hs, -, rfl⟩ := exists_of_results hi
    exact cut_new hblk (hsize s hs) i _
  obtain ⟨c, htop, hfirst⟩ : ∃ c, top compressors blkSize cache_line = some c ∧
      FirstLast comparator (results compressors blkSize cache_line) c.index c := top_firstLast hne
  rw [picksBest_of_top htop]
  constructor
  · rintro ⟨hbest, hi⟩
    exact ⟨c.index, c, (decided_iff hrs).mpr ⟨hfirst, hbest, hi⟩⟩
  · rintro ⟨i, c', h⟩
    obtain ⟨hfirst', hbest, hi⟩ := (decided_iff hrs).mp h
    obtain ⟨rfl, rfl⟩ := hfirst'.unique hfirst
    exact ⟨hbest, hi⟩

end Choice

/-! ### `PerfectCompressor` -/

/-- A compressor of a given ratio, which keeps the words. -/
def perfect (blkSize max_compression_ratio compression_latency decompression_latency : Nat) :
    SubCompressor (List (BitVec 64)) where
  compress cache_line := (⟨8 * blkSize / max_compression_ratio, cache_line⟩, compression_latency, decompression_latency)
  decompress comp_data := comp_data.data

theorem mem_pair {α : Type} {a b x : α} : x ∈ [a, b] ↔ x = a ∨ x = b := by
  simp

/-- The second one has the larger ratio. -/
theorem picksBest_perfect : PicksBest [perfect 64 2 1 9, perfect 64 4 1 1] 64 (List.replicate 8 0) := by
  refine (picksBest_iff (by simp) (by decide) ?_).mpr ⟨1, _, rfl, by decide, ?_, ?_, .inl ⟨by decide, ?_⟩⟩
  · intro s hs
    rcases mem_pair.mp hs with rfl | rfl <;> decide
  · intro r hr
    rcases mem_pair.mp hr with rfl | rfl <;> decide
  · intro r hr heq
    rcases mem_pair.mp hr with rfl | rfl
    · exact absurd heq (by decide)
    · rfl
  · intro j hj r hr
    obtain rfl : j = 0 := by omega
    cases hr
    decide

/-- Two compressors of one ratio: the one that takes nine cycles to decompress is chosen. -/
theorem slower_chosen : ¬ PicksBest [perfect 64 2 1 1, perfect 64 2 1 9] 64 (List.replicate 8 0) := by
  rintro ⟨c, htop, hbest, -⟩
  obtain ⟨c', htop', hfirst⟩ : ∃ c, top [perfect 64 2 1 1, perfect 64 2 1 9] 64 (List.replicate 8 0) = some c ∧
      FirstLast comparator (results [perfect 64 2 1 1, perfect 64 2 1 9] 64 (List.replicate 8 0)) c.index c :=
    top_firstLast (by simp)
  rw [htop] at htop'
  cases htop'
  have hmem := List.mem_of_getElem? hfirst.at_i
  rcases mem_pair.mp hmem with rfl | rfl
  · exact absurd (hfirst.last _ (mem_pair.mpr (.inr rfl))) (by decide)
  · exact absurd (hbest.lat_le _ (mem_pair.mpr (.inl rfl)) (by decide)) (by decide)

end MultiCompressor

end Salam.Cache
