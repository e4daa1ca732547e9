import Mathlib.Data.Nat.Log
import Salam.Cache.Dictionary
import Salam.Lib.System

/-!
# The dictionary compressors

`CPack`, `FPCD`, `ZeroCompressor`, `RepeatedQwordsCompressor` and `BaseDelta`: the patterns of each in the order in
which they are tried, how it adds to its dictionary, and what its `compress` does with the size of the result. The
numbers of the patterns are those of their places in the enumeration of the compressor.

* `push_allocates`, `FPCD.allocates`: the two ways to add to the dictionary.
* `compressors_lossless`: what any of them compresses is decompressed again.
-/

namespace Salam.Cache

open Dictionary (Err)

/-- What `compress(data, comp_lat, decomp_lat)` gives. -/
structure Compression (n : Nat) where
  comp_data : CompData n
  comp_lat : Nat
  decomp_lat : Nat

def CompData.setSizeBits {n : Nat} (comp : CompData n) (size : Nat) : CompData n := { comp with size := size }

/-- `addToDictionary` of all compressors but `FPCD`. -/
def Dictionary.push {n size : Nat} (d : Dictionary n size) (data : DictionaryEntry n) :
    Except Err (Dictionary n size) :=
  if h : d.numEntries < size then
    .ok ⟨d.dictionary.set d.numEntries data, d.numEntries + 1, by rw [List.length_set, d.length_eq], h⟩
  else .error .assertion

/-! ## `CPack` -/

namespace CPack

inductive PatternNumber
  | ZZZZ
  | XXXX
  | MMMM
  | MMXX
  | ZZZX
  | MMMX

open PatternNumber

def PatternZZZZ : PatternDecl 4 := ⟨.maskedValue 0 0xFFFFFFFF, ZZZZ.ctorIdx, 0x0, 2⟩

def PatternXXXX : PatternDecl 4 := ⟨.uncompressed, XXXX.ctorIdx, 0x1, 2⟩

def PatternMMMM : PatternDecl 4 := ⟨.masked 0xFFFFFFFF true, MMMM.ctorIdx, 0x2, 6⟩

def PatternMMXX : PatternDecl 4 := ⟨.masked 0xFFFF0000 true, MMXX.ctorIdx, 0xC, 8⟩

def PatternZZZX : PatternDecl 4 := ⟨.maskedValue 0 0xFFFFFF00, ZZZX.ctorIdx, 0xD, 4⟩

def PatternMMMX : PatternDecl 4 := ⟨.masked 0xFFFFFF00 true, MMMX.ctorIdx, 0xE, 8⟩

def PatternFactory : Factory 4 :=
  ⟨[PatternZZZZ, PatternMMMM, PatternZZZX, PatternMMMX, PatternMMXX], PatternXXXX, rfl⟩

def compressor (dictionarySize : Nat) : Compressor 4 dictionarySize :=
  ⟨PatternFactory, Dictionary.push, fun d => .ok d.reset⟩

def compress {dictionarySize : Nat} (blkSize : Nat) (d : Dictionary 4 dictionarySize) (data : List (BitVec 64)) :
    Except Err (Compression 4 × Dictionary 4 dictionarySize) := do
  let (comp_data, d) ← (compressor dictionarySize).compress d data
  return (⟨comp_data, blkSize / 8 + 5, blkSize / 8⟩, d)

end CPack

/-! ## `FPCD` -/

namespace FPCD

inductive PatternNumber
  | ZZZZ
  | FFFF
  | MMMMPenultimate
  | MMMMPrevious
  | ZZZX
  | XZZZ
  | RRRR
  | MMMXPenultimate
  | MMMXPrevious
  | ZZXX
  | ZXZX
  | FFXX
  | XXZZ
  | MMXXPenultimate
  | MMXXPrevious
  | XXXX

open PatternNumber

def prefixSize : Nat := 4

def previousIndex : Nat := 1

def penultimateIndex : Nat := 0

def PatternZZZZ : PatternDecl 4 := ⟨.maskedValue 0 0xFFFFFFFF true, ZZZZ.ctorIdx, 0x0, prefixSize⟩

def PatternFFFF : PatternDecl 4 := ⟨.maskedValue 0xFFFFFFFF 0xFFFFFFFF true, FFFF.ctorIdx, 0x1, prefixSize⟩

def PatternMMMMPrevious : PatternDecl 4 :=
  ⟨.locatedMasked 0xFFFFFFFF previousIndex, MMMMPrevious.ctorIdx, 0x2, prefixSize⟩

def PatternMMMMPenultimate : PatternDecl 4 :=
  ⟨.locatedMasked 0xFFFFFFFF penultimateIndex, MMMMPenultimate.ctorIdx, 0x3, prefixSize⟩

def PatternZZZX : PatternDecl 4 := ⟨.maskedValue 0 0xFFFFFF00 true, ZZZX.ctorIdx, 0x4, prefixSize⟩

def PatternXZZZ : PatternDecl 4 := ⟨.maskedValue 0 0x00FFFFFF true, XZZZ.ctorIdx, 0x5, prefixSize⟩

def PatternRRRR : PatternDecl 4 :=
  ⟨.repeatedValue 1 (by decide) (by decide) true, RRRR.ctorIdx, 0x6, prefixSize⟩

def PatternMMMXPrevious : PatternDecl 4 :=
  ⟨.locatedMasked 0xFFFFFF00 previousIndex, MMMXPrevious.ctorIdx, 0x7, prefixSize⟩

def PatternMMMXPenultimate : PatternDecl 4 :=
  ⟨.locatedMasked 0xFFFFFF00 penultimateIndex, MMMXPenultimate.ctorIdx, 0x8, prefixSize⟩

def PatternZZXX : PatternDecl 4 := ⟨.maskedValue 0 0xFFFF0000 true, ZZXX.ctorIdx, 0x9, prefixSize⟩

def PatternZXZX : PatternDecl 4 := ⟨.maskedValue 0 0xFF00FF00 true, ZXZX.ctorIdx, 0xA, prefixSize⟩

def PatternFFXX : PatternDecl 4 := ⟨.maskedValue 0xFFFFFFFF 0xFFFF0000 true, FFXX.ctorIdx, 0xB, prefixSize⟩

def PatternXXZZ : PatternDecl 4 := ⟨.maskedValue 0 0x0000FFFF true, XXZZ.ctorIdx, 0xC, prefixSize⟩

def PatternMMXXPrevious : PatternDecl 4 :=
  ⟨.locatedMasked 0xFFFF0000 previousIndex, MMXXPrevious.ctorIdx, 0xD, prefixSize⟩

def PatternMMXXPenultimate : PatternDecl 4 :=
  ⟨.locatedMasked 0xFFFF0000 penultimateIndex, MMXXPenultimate.ctorIdx, 0xE, prefixSize⟩

def PatternXXXX : PatternDecl 4 := ⟨.uncompressed, XXXX.ctorIdx, 0xF, prefixSize⟩

def PatternFactory : Factory 4 :=
  ⟨[PatternZZZZ, PatternFFFF, PatternMMMMPrevious, PatternMMMMPenultimate, PatternZZZX, PatternXZZZ, PatternRRRR,
      PatternMMMXPrevious, PatternMMMXPenultimate, PatternZZXX, PatternZXZX, PatternFFXX, PatternXXZZ,
      PatternMMXXPrevious, PatternMMXXPenultimate], PatternXXXX, rfl⟩

/-- The dictionary is a table of two entries, of which the older one is replaced. -/
def addToDictionary (d : Dictionary 4 2) (data : DictionaryEntry 4) : Except Err (Dictionary 4 2) :=
  if h : d.numEntries = 2 then
    .ok ⟨(d.dictionary.set penultimateIndex (d.dictionary.getD previousIndex data)).set previousIndex data,
      d.numEntries, by rw [List.length_set, List.length_set, d.length_eq], d.numEntries_le⟩
  else
    .ok ⟨d.dictionary.set d.numEntries data, d.numEntries + 1, by rw [List.length_set, d.length_eq],
      lt_of_le_of_ne d.numEntries_le h⟩

def compressor : Compressor 4 2 := ⟨PatternFactory, addToDictionary, fun d => .ok d.reset⟩

def compress (blkSize : Nat) (d : Dictionary 4 2) (data : List (BitVec 64)) :
    Except Err (Compression 4 × Dictionary 4 2) := do
  let (comp_data, d) ← compressor.compress d data
  return (⟨comp_data, blkSize / 2, 4⟩, d)

end FPCD

/-! ## `ZeroCompressor` -/

namespace ZeroCompressor

inductive PatternNumber
  | X
  | Z

open PatternNumber

def PatternX : PatternDecl 8 := ⟨.uncompressed, X.ctorIdx, 0, 1⟩

def PatternZ : PatternDecl 8 := ⟨.maskedValue 0 0xFFFFFFFFFFFFFFFF, Z.ctorIdx, 1, 1⟩

def PatternFactory : Factory 8 := ⟨[PatternZ], PatternX, rfl⟩

def compressor (dictionarySize : Nat) : Compressor 8 dictionarySize :=
  ⟨PatternFactory, Dictionary.push, fun d => .ok d.reset⟩

/-- `compress`, which fails if a word is not zero. -/
def compress {dictionarySize : Nat} (blkSize : Nat) (d : Dictionary 8 dictionarySize) (data : List (BitVec 64)) :
    Except Err (Compression 8 × Dictionary 8 dictionarySize) := do
  let (comp_data, d) ← (compressor dictionarySize).compress d data
  return (⟨if 0 < d.numEntries then comp_data.setSizeBits (blkSize * 8) else comp_data, 1, 1⟩, d)

end ZeroCompressor

/-! ## `RepeatedQwordsCompressor` -/

namespace RepeatedQwordsCompressor

inductive PatternNumber
  | X
  | M

open PatternNumber

def PatternX : PatternDecl 8 := ⟨.uncompressed, X.ctorIdx, 0, 0⟩

def PatternM : PatternDecl 8 := ⟨.locatedMasked 0xFFFFFFFFFFFFFFFF 0, M.ctorIdx, 1, 0⟩

def PatternFactory : Factory 8 := ⟨[PatternM], PatternX, rfl⟩

def compressor (dictionarySize : Nat) : Compressor 8 dictionarySize :=
  ⟨PatternFactory, Dictionary.push, fun d => .ok d.reset⟩

/-- `compress`, which fails if there is more than one entry. -/
def compress {dictionarySize : Nat} (blkSize : Nat) (d : Dictionary 8 dictionarySize) (data : List (BitVec 64)) :
    Except Err (Compression 8 × Dictionary 8 dictionarySize) := do
  let (comp_data, d) ← (compressor dictionarySize).compress d data
  if d.numEntries < 1 then .error .assertion
  else return (⟨if 1 < d.numEntries then comp_data.setSizeBits (blkSize * 8) else comp_data, 1, 1⟩, d)

theorem allocates : ∀ p ∈ PatternFactory.last :: PatternFactory.heads, p.template.shouldAllocate = true := by decide

end RepeatedQwordsCompressor

/-! ## `BaseDelta` -/

namespace BaseDelta

inductive PatternNumber
  | X
  | M

open PatternNumber

def DEFAULT_MAX_NUM_BASES : Nat := 2

/-- The bits that say which base a value is a delta to. -/
def baseBits : Nat := Nat.clog 2 DEFAULT_MAX_NUM_BASES

section

variable (n deltaSizeBits : Nat)

def PatternX : PatternDecl n := ⟨.uncompressed, X.ctorIdx, 0, baseBits + deltaSizeBits⟩

def PatternM : PatternDecl n := ⟨.delta deltaSizeBits, M.ctorIdx, 1, baseBits⟩

def PatternFactory : Factory n := ⟨[PatternM n deltaSizeBits], PatternX n deltaSizeBits, rfl⟩

/-- `resetDictionary`, which adds a base for the immediate values. -/
def resetDictionary {n dictionarySize : Nat} (d : Dictionary n dictionarySize) :
    Except Err (Dictionary n dictionarySize) :=
  d.reset.push (toDictionaryEntry 0)

def compressor (dictionarySize : Nat) : Compressor n dictionarySize :=
  ⟨PatternFactory n deltaSizeBits, Dictionary.push, resetDictionary⟩

/-- `compress`, which fails if there are too many bases, and accounts for those that are not used. -/
def compress {dictionarySize : Nat} (blkSize : Nat) (d : Dictionary n dictionarySize) (data : List (BitVec 64)) :
    Except Err (Compression n × Dictionary n dictionarySize) := do
  let (comp_data, d) ← (compressor n deltaSizeBits dictionarySize).compress d data
  let diff : Int := DEFAULT_MAX_NUM_BASES - d.numEntries
  let comp_data :=
    if diff < 0 then comp_data.setSizeBits (blkSize * 8)
    else if 0 < diff then comp_data.setSizeBits (comp_data.size + 8 * n * diff.toNat)
    else comp_data
  return (⟨comp_data, 1 + blkSize / n, 1⟩, d)

end

end BaseDelta

/-! ## Room in the dictionary -/

section Room

variable {n size : Nat}

/-- There is room as long as there are as many entries as values, and eight bits name an entry if that matters. -/
theorem push_allocates {C : Compressor n size} (hadd : C.addToDictionary = Dictionary.push) :
    C.Allocates fun d k => d.numEntries + k ≤ size ∧ (d.numEntries + k ≤ 257 ∨ C.factory.Independent) := by
  constructor
  · rintro d k bytes ⟨hsize, hloc⟩
    have hlt : d.numEntries < size := by omega
    refine ⟨_, by rw [hadd, Dictionary.push, dif_pos hlt], by simp only; omega, hloc.imp_left fun h => ?_⟩
    simp only
    omega
  · rintro d k ⟨hsize, hloc⟩
    exact ⟨by omega, hloc.imp_left fun h => by omega⟩
  · rintro d k ⟨-, hloc⟩
    exact hloc.imp_left fun h => by omega

theorem FPCD.allocates : FPCD.compressor.Allocates fun _ _ => True := by
  constructor
  · intro d k bytes _
    simp only [FPCD.compressor, FPCD.addToDictionary]
    split <;> exact ⟨_, rfl, trivial⟩
  · intros
    trivial
  · intro d _ _
    exact .inl (d.numEntries_le.trans (by decide))

/-- If every pattern allocates, there are as many new entries as values. -/
theorem compressValues_numEntries {C : Compressor n size} (hadd : C.addToDictionary = Dictionary.push)
    (hall : ∀ head ∈ C.factory.last :: C.factory.heads, head.template.shouldAllocate = true) :
    ∀ {values : List (Value n)} {d d' : Dictionary n size} {comp comp' : CompData n},
      C.compressValues comp d values = .ok (comp', d') → d'.numEntries = d.numEntries + values.length
  | [], d, d', comp, comp', h => by
    cases h
    rfl
  | value :: values, d, d', comp, comp', h => by
    obtain ⟨⟨p, d₁⟩, hvalue, h⟩ := ok_of_bind h
    have ih := compressValues_numEntries hadd hall h
    have hlen : d₁.numEntries = d.numEntries + 1 := by
      rw [Compressor.compressValue_eq, Compressor.allocated,
        if_pos (C.bestPattern_allocate hall d (toDictionaryEntry value)), hadd, Dictionary.push] at hvalue
      split at hvalue
      · cases hvalue
        rfl
      · cases hvalue
    rw [ih, hlen, List.length_cons]
    omega

end Room

/-! ## What is compressed -/

/-- A line of a block comes back from its compression, whatever the dictionary holds before either. No assertion
fails. -/
def Lossless {n size : Nat} (C : Compressor n size) (blkSize : Nat)
    (compress : Dictionary n size → List (BitVec 64) → Except Err (Compression n × Dictionary n size)) : Prop :=
  ∀ d line, line.length = blkSize / 8 → ∃ out d', compress d line = .ok (out, d') ∧
    ∀ d₁ stray, ∃ d₂, C.decompress blkSize d₁ out.comp_data stray = .ok (line, d₂)

section Lossless

variable {blkSize : Nat}

theorem CPack.lossless (hmax : blkSize ≤ 1024) :
    Lossless (CPack.compressor blkSize) blkSize (CPack.compress blkSize) := by
  intro d line hline
  have hroom : line.length * (8 / 4) ≤ blkSize ∧ line.length * (8 / 4) ≤ 257 := by omega
  obtain ⟨comp, d', hcomp, -, hdecomp⟩ :=
    Compressor.decompress_compress (push_allocates (C := CPack.compressor blkSize) rfl)
    (by decide) (fun _ => rfl) hline (by simpa [Dictionary.reset] using ⟨hroom.1, .inl hroom.2⟩) d
  refine ⟨_, d', by rw [CPack.compress, hcomp]; rfl, fun d₁ stray => ⟨d', hdecomp _ _ rfl d₁ stray⟩⟩

theorem FPCD.lossless : Lossless FPCD.compressor blkSize (FPCD.compress blkSize) := by
  intro d line hline
  obtain ⟨comp, d', hcomp, -, hdecomp⟩ := Compressor.decompress_compress FPCD.allocates (by decide) (fun _ => rfl) hline
    trivial d
  exact ⟨_, d', by rw [FPCD.compress, hcomp]; rfl, fun d₁ stray => ⟨d', hdecomp _ _ rfl d₁ stray⟩⟩

theorem ZeroCompressor.lossless : Lossless (ZeroCompressor.compressor blkSize) blkSize
    (ZeroCompressor.compress blkSize) := by
  intro d line hline
  have hroom : line.length ≤ blkSize := by omega
  have hind : ZeroCompressor.PatternFactory.Independent := by
    intro head hhead
    cases List.mem_singleton.mp hhead
    rfl
  obtain ⟨comp, d', hcomp, -, hdecomp⟩ := Compressor.decompress_compress
    (push_allocates (C := ZeroCompressor.compressor blkSize) rfl) (by decide) (fun _ => rfl) hline
    (by simpa [Dictionary.reset] using ⟨hroom, .inr hind⟩) d
  refine ⟨_, d', by rw [ZeroCompressor.compress, hcomp]; rfl, fun d₁ stray => ⟨d', hdecomp _ _ ?_ d₁ stray⟩⟩
  split <;> rfl

theorem RepeatedQwordsCompressor.lossless (h8 : 8 ≤ blkSize) (hmax : blkSize ≤ 1024) :
    Lossless (RepeatedQwordsCompressor.compressor blkSize) blkSize (RepeatedQwordsCompressor.compress blkSize) := by
  intro d line hline
  have hroom : line.length ≤ blkSize ∧ line.length ≤ 257 := by omega
  obtain ⟨comp, d', hcomp, hvalues, hdecomp⟩ := Compressor.decompress_compress
    (push_allocates (C := RepeatedQwordsCompressor.compressor blkSize) rfl) (by decide) (fun _ => rfl) hline
    (by simpa [Dictionary.reset] using ⟨hroom.1, .inl hroom.2⟩) d
  -- the first word is an entry of the dictionary
  have hpos : ¬ d'.numEntries < 1 := by
    rw [compressValues_numEntries (C := RepeatedQwordsCompressor.compressor blkSize) rfl allocates hvalues,
      Compressor.length_values]
    omega
  have hout : RepeatedQwordsCompressor.compress blkSize d line =
      .ok (⟨if 1 < d'.numEntries then comp.setSizeBits (blkSize * 8) else comp, 1, 1⟩, d') := by
    rw [RepeatedQwordsCompressor.compress, hcomp]
    simp only [bind, Except.bind, if_neg hpos]
    rfl
  have hentries : (if 1 < d'.numEntries then comp.setSizeBits (blkSize * 8) else comp).entries = comp.entries := by
    split <;> rfl
  exact ⟨_, d', hout, fun d₁ stray => ⟨d', hdecomp _ _ hentries d₁ stray⟩⟩

theorem BaseDelta.lossless {n : Nat} (hn : n ∣ 8) (h2 : 2 ≤ n) (deltaSizeBits : Nat) (h8 : 8 ≤ blkSize) :
    Lossless (BaseDelta.compressor n deltaSizeBits blkSize) blkSize (BaseDelta.compress n deltaSizeBits blkSize) := by
  intro d line hline
  -- there are at most half as many values as bytes, and the base for the immediate values
  have hroom : 1 + line.length * (8 / n) ≤ blkSize := by
    have hle : 8 / n ≤ 4 := Nat.div_le_of_le_mul (by omega)
    have := Nat.mul_le_mul_left line.length hle
    omega
  have hind : (BaseDelta.PatternFactory n deltaSizeBits).Independent := by
    intro head hhead
    cases List.mem_singleton.mp hhead
    rfl
  have hreset : ∀ d : Dictionary n blkSize, (BaseDelta.compressor n deltaSizeBits blkSize).resetDictionary d = .ok
      ⟨(List.replicate blkSize (toDictionaryEntry 0)).set 0 (toDictionaryEntry 0), 1, by simp, by omega⟩ := by
    intro d
    have hlt : d.reset.numEntries < blkSize := by
      simp only [Dictionary.reset]
      omega
    exact dif_pos hlt
  obtain ⟨comp, d', hcomp, -, hdecomp⟩ := Compressor.decompress_compress
    (push_allocates (C := BaseDelta.compressor n deltaSizeBits blkSize) rfl) hn hreset hline
    ⟨hroom, .inr hind⟩ d
  refine ⟨_, d', by rw [BaseDelta.compress, hcomp]; rfl, fun d₁ stray => ⟨d', hdecomp _ _ ?_ d₁ stray⟩⟩
  split
  · rfl
  · split <;> rfl

/-- **Compression is lossless**, for each compressor and its default dictionary, and blocks of up to 1024 bytes; the
bases of `BaseDelta` are integers of two, four or eight bytes. -/
theorem compressors_lossless (h8 : 8 ∣ blkSize) (hpos : 0 < blkSize) (hmax : blkSize ≤ 1024) :
    Lossless (CPack.compressor blkSize) blkSize (CPack.compress blkSize) ∧
    Lossless FPCD.compressor blkSize (FPCD.compress blkSize) ∧
    Lossless (ZeroCompressor.compressor blkSize) blkSize (ZeroCompressor.compress blkSize) ∧
    Lossless (RepeatedQwordsCompressor.compressor blkSize) blkSize (RepeatedQwordsCompressor.compress blkSize) ∧
    ∀ n deltaSizeBits, n = 2 ∨ n = 4 ∨ n = 8 → Lossless (BaseDelta.compressor n deltaSizeBits blkSize) blkSize
      (BaseDelta.compress n deltaSizeBits blkSize) := by
  have hle : 8 ≤ blkSize := Nat.le_of_dvd hpos h8
  refine ⟨CPack.lossless hmax, FPCD.lossless, ZeroCompressor.lossless, RepeatedQwordsCompressor.lossless hle hmax, ?_⟩
  rintro n deltaSizeBits (rfl | rfl | rfl) <;>
    exact BaseDelta.lossless (by decide) (by decide) deltaSizeBits hle

/-- Blocks of 64 bytes. -/
theorem compressors_lossless_64 :
    Lossless (CPack.compressor 64) 64 (CPack.compress 64) ∧
    Lossless (BaseDelta.compressor 8 8 64) 64 (BaseDelta.compress 8 8 64) :=
  have h := compressors_lossless (show 8 ∣ 64 by decide) (by decide) (by decide)
  ⟨h.1, h.2.2.2.2 8 8 (.inr (.inr rfl))⟩

end Lossless

end Salam.Cache
