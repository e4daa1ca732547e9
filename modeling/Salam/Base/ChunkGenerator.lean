import Mathlib.Data.BitVec
import Salam.Base.AddrRange
import Salam.Mem.StackDistCalc

/-!
# `ChunkGenerator`

A region of memory is cut at the multiples of `chunkSize`, a power of two, or not at all if `chunkSize` is zero.
Addresses wrap at `2 ^ 64`; the sizes are `unsigned`.

* `chunks_tile`: the chunks follow each other through the whole region, and none is empty.
* `visits_cut`: the loop ends, no chunk crosses a multiple of `chunkSize`, and `last()` tells the final one.
-/

namespace Salam.Base

open Mem (isPowerOf2 isPowerOf2_iff)

def roundUp (val : Addr) (align : Nat) : Addr := (val + BitVec.ofNat 64 (align - 1)) &&& ~~~BitVec.ofNat 64 (align - 1)

theorem and_not_eq_sub (x m : Addr) : x &&& ~~~m = x - (x &&& m) := by
  have hdisjoint : x &&& ~~~m &&& (x &&& m) = 0 := by
    ext i
    cases hm : m[i] <;> simp [hm]
  have hor : x &&& ~~~m ||| x &&& m = x := by
    ext i
    cases hx : x[i] <;> cases hm : m[i] <;> simp [hx, hm]
  have hsum := BitVec.add_eq_or_of_and_eq_zero _ _ hdisjoint
  rw [hor] at hsum
  exact eq_sub_of_add_eq hsum

/-- The next multiple of the alignment is less than one alignment away. -/
theorem toNat_roundUp_sub_lt (val : Addr) {k : Nat} (hk : k ≤ 64) : (roundUp val (2 ^ k) - val).toNat < 2 ^ k := by
  have hpos := Nat.two_pow_pos k
  have hle : 2 ^ k ≤ 2 ^ 64 := Nat.pow_le_pow_right (by decide) hk
  have hm : (BitVec.ofNat 64 (2 ^ k - 1)).toNat = 2 ^ k - 1 := by
    rw [BitVec.toNat_ofNat, Nat.mod_eq_of_lt (by omega)]
  have hr : (val + BitVec.ofNat 64 (2 ^ k - 1) &&& BitVec.ofNat 64 (2 ^ k - 1)).toNat ≤ 2 ^ k - 1 := by
    rw [BitVec.toNat_and, hm]
    exact Nat.and_le_right
  rw [roundUp, and_not_eq_sub, add_sub_assoc, add_sub_cancel_left, BitVec.toNat_sub_of_le, hm]
  · omega
  · rw [BitVec.le_def, hm]
    exact hr

structure ChunkGenerator where
  curAddr : Addr
  nextAddr : Addr
  curSize : Nat
  sizeLeft : Nat
  startAddr : Addr
  chunkSize : Nat
  deriving DecidableEq

/-- A chunk, and the number of bytes before it. -/
structure Chunk where
  addr : Addr
  size : Nat
  complete : Nat
  deriving DecidableEq

namespace ChunkGenerator

/-- The end of the first chunk. -/
def firstNext (startAddr : Addr) (totalSize chunkSize : Nat) : Addr :=
  if chunkSize = 0 then startAddr + BitVec.ofNat 64 totalSize
  else
    let next := roundUp startAddr chunkSize
    if startAddr = next then next + BitVec.ofNat 64 chunkSize else next

/-- The constructor; nothing if its assertion fails. -/
def start (startAddr : Addr) (totalSize chunkSize : Nat) : Option ChunkGenerator :=
  if chunkSize = 0 ∨ isPowerOf2 chunkSize = true then
    let nextAddr := firstNext startAddr totalSize chunkSize
    let left_in_chunk := (nextAddr - startAddr).toNat % 2 ^ 32
    some {
      curAddr := startAddr
      nextAddr := nextAddr
      curSize := min totalSize left_in_chunk
      sizeLeft := totalSize - min totalSize left_in_chunk
      startAddr := startAddr
      chunkSize := chunkSize }
  else none

def addr (g : ChunkGenerator) : Addr := g.curAddr

def size (g : ChunkGenerator) : Nat := g.curSize

def complete (g : ChunkGenerator) : Nat := (g.curAddr - g.startAddr).toNat % 2 ^ 32

def done (g : ChunkGenerator) : Bool := g.curSize = 0

def next (g : ChunkGenerator) : ChunkGenerator :=
  if g.sizeLeft = 0 then { g with curSize := 0 }
  else
    { g with
      curAddr := g.nextAddr
      curSize := min g.sizeLeft g.chunkSize
      sizeLeft := g.sizeLeft - min g.sizeLeft g.chunkSize
      nextAddr := g.nextAddr + BitVec.ofNat 64 (min g.sizeLeft g.chunkSize) }

/-- `for (; !gen.done(); gen.next())`. Every turn takes at least one byte, so that `fuel` bytes are enough. -/
def chunks : Nat → ChunkGenerator → List Chunk
  | 0, _ => []
  | fuel + 1, g => if g.done then [] else ⟨g.addr, g.size, g.complete⟩ :: chunks fuel g.next

end ChunkGenerator

/-- The chunks of a region. -/
def chunks (addr : Addr) (size chunkSize : Nat) : Option (List Chunk) :=
  (ChunkGenerator.start addr size chunkSize).map fun gen => gen.chunks size

/-- Chunks that follow each other from the address on, the first of them after `k` bytes. -/
def Tiles : Addr → Nat → List Chunk → Prop
  | _, _, [] => True
  | a, k, c :: cs => c.addr = a ∧ c.complete = k ∧ 0 < c.size ∧ Tiles (a + BitVec.ofNat 64 c.size) (k + c.size) cs

/-- The bytes of the chunks. -/
def chunkBytes (cs : List Chunk) : Nat := (cs.map (·.size)).sum

namespace ChunkGenerator

/-- The generator has passed `k` bytes and has come to a chunk. -/
structure At (k : Nat) (g : ChunkGenerator) : Prop where
  curAddr : g.curAddr = g.startAddr + BitVec.ofNat 64 k
  curSize : 0 < g.curSize
  left : 0 < g.sizeLeft → g.nextAddr = g.curAddr + BitVec.ofNat 64 g.curSize ∧ 0 < g.chunkSize
  bounded : k + g.curSize + g.sizeLeft < 2 ^ 32

variable {g : ChunkGenerator}

theorem At.complete {k : Nat} (h : g.At k) : g.complete = k := by
  have hb := h.bounded
  rw [ChunkGenerator.complete, h.curAddr, add_sub_cancel_left, BitVec.toNat_ofNat]
  omega

theorem At.next {k : Nat} (h : g.At k) (hleft : 0 < g.sizeLeft) : g.next.At (k + g.curSize) := by
  obtain ⟨hnext, hchunk⟩ := h.left hleft
  have hb := h.bounded
  have hsize : g.next = { g with
      curAddr := g.nextAddr
      curSize := min g.sizeLeft g.chunkSize
      sizeLeft := g.sizeLeft - min g.sizeLeft g.chunkSize
      nextAddr := g.nextAddr + BitVec.ofNat 64 (min g.sizeLeft g.chunkSize) } := if_neg (by omega)
  rw [hsize]
  refine ⟨?_, ?_, fun _ => ⟨rfl, hchunk⟩, ?_⟩
  · show g.nextAddr = g.startAddr + BitVec.ofNat 64 (k + g.curSize)
    rw [hnext, h.curAddr, BitVec.ofNat_add, BitVec.add_assoc]
  · show 0 < min g.sizeLeft g.chunkSize
    omega
  · show k + g.curSize + min g.sizeLeft g.chunkSize + (g.sizeLeft - min g.sizeLeft g.chunkSize) < 2 ^ 32
    omega

/-- The chunks from here on, with enough fuel. -/
theorem At.chunks : ∀ (fuel : Nat) {k : Nat} {g : ChunkGenerator}, g.At k → g.curSize + g.sizeLeft ≤ fuel →
    Tiles g.curAddr k (g.chunks fuel) ∧ chunkBytes (g.chunks fuel) = g.curSize + g.sizeLeft
  | 0, k, g, h, hfuel => by
    have := h.curSize
    omega
  | fuel + 1, k, g, h, hfuel => by
    have hpos := h.curSize
    have hdone : g.done = false := decide_eq_false (by omega)
    rw [ChunkGenerator.chunks, hdone, if_neg (by decide), h.complete]
    by_cases hleft : 0 < g.sizeLeft
    · have hat := h.next hleft
      have hnext := (h.left hleft).1
      have hsize : g.next.curAddr = g.nextAddr ∧ g.next.curSize + g.next.sizeLeft = g.sizeLeft := by
        rw [ChunkGenerator.next, if_neg (by omega)]
        exact ⟨rfl, by simp only; omega⟩
      obtain ⟨htiles, hbytes⟩ := At.chunks fuel hat (by omega)
      refine ⟨⟨rfl, rfl, hpos, ?_⟩, ?_⟩
      · rw [hsize.1, hnext] at htiles
        exact htiles
      · show g.curSize + chunkBytes (g.next.chunks fuel) = _
        rw [hbytes, hsize.2]
    · have hnil : g.next.chunks fuel = [] := by
        rw [ChunkGenerator.next, if_pos (by omega)]
        cases fuel <;> rfl
      rw [hnil]
      refine ⟨⟨rfl, rfl, hpos, trivial⟩, ?_⟩
      show g.curSize + 0 = _
      omega

/-- The first chunk is not empty, and no longer than a block. -/
theorem firstNext_sub (startAddr : Addr) {totalSize chunkSize : Nat} (hsize : 0 < totalSize) (hlt : totalSize < 2 ^ 32)
    (hchunk : chunkSize < 2 ^ 32) (hpow : chunkSize = 0 ∨ isPowerOf2 chunkSize = true) :
    0 < (firstNext startAddr totalSize chunkSize - startAddr).toNat ∧
      (firstNext startAddr totalSize chunkSize - startAddr).toNat < 2 ^ 32 ∧
      (chunkSize = 0 → (firstNext startAddr totalSize chunkSize - startAddr).toNat = totalSize) ∧
      (chunkSize ≠ 0 → (firstNext startAddr totalSize chunkSize - startAddr).toNat ≤ chunkSize) := by
  rw [firstNext]
  by_cases h₀ : chunkSize = 0
  · rw [if_pos h₀, add_sub_cancel_left, BitVec.toNat_ofNat, Nat.mod_eq_of_lt (by omega)]
    exact ⟨hsize, hlt, fun _ => rfl, fun h => absurd h₀ h⟩
  · obtain ⟨j, rfl⟩ := (isPowerOf2_iff (by omega)).mp (hpow.resolve_left h₀)
    have hj : j < 32 := (Nat.pow_lt_pow_iff_right (by decide)).mp hchunk
    have hup := toNat_roundUp_sub_lt startAddr (k := j) (by omega)
    rw [if_neg h₀]
    dsimp only
    split
    · rename_i heq
      rw [← heq, add_sub_cancel_left, BitVec.toNat_ofNat, Nat.mod_eq_of_lt (by omega)]
      exact ⟨Nat.two_pow_pos j, hchunk, fun h => absurd h h₀, fun _ => le_refl _⟩
    · rename_i hne
      refine ⟨?_, by omega, fun h => absurd h h₀, fun _ => by omega⟩
      rw [Nat.pos_iff_ne_zero]
      intro hzero
      exact hne (sub_eq_zero.mp (BitVec.eq_of_toNat_eq (y := 0) hzero)).symm

/-- The first chunk is not empty and, if it is not the last one, ends where the next one starts. -/
theorem start_at {startAddr : Addr} {totalSize chunkSize : Nat} (hsize : 0 < totalSize) (hlt : totalSize < 2 ^ 32)
    (hchunk : chunkSize < 2 ^ 32) (h : start startAddr totalSize chunkSize = some g) :
    g.At 0 ∧ g.curAddr = startAddr ∧ g.curSize + g.sizeLeft = totalSize := by
  simp only [start, Option.ite_none_right_eq_some, Option.some.injEq] at h
  obtain ⟨hpow, rfl⟩ := h
  obtain ⟨hpos, hbound, hzero, -⟩ := firstNext_sub startAddr hsize hlt hchunk hpow
  refine ⟨⟨?_, ?_, ?_, ?_⟩, rfl, ?_⟩
  · simp
  · show 0 < min totalSize ((firstNext startAddr totalSize chunkSize - startAddr).toNat % 2 ^ 32)
    omega
  · simp only [Nat.mod_eq_of_lt hbound]
    intro hleft
    refine ⟨?_, by omega⟩
    rw [Nat.min_eq_right (by omega), BitVec.ofNat_toNat, BitVec.setWidth_eq, add_sub_cancel]
  · show 0 + min totalSize _ + (totalSize - min totalSize _) < 2 ^ 32
    omega
  · show min totalSize _ + (totalSize - min totalSize _) = totalSize
    omega

end ChunkGenerator

/-- **The chunks of a region** follow each other through all of it. -/
theorem chunks_tile {addr : Addr} {size chunkSize : Nat} {cs : List Chunk} (hsize : 0 < size) (hlt : size < 2 ^ 32)
    (hchunk : chunkSize < 2 ^ 32) (h : chunks addr size chunkSize = some cs) :
      Tiles addr 0 cs ∧ chunkBytes cs = size := by
  obtain ⟨g, hg, rfl⟩ := Option.map_eq_some_iff.mp h
  obtain ⟨hat, haddr, hbytes⟩ := ChunkGenerator.start_at hsize hlt hchunk hg
  have hchunks := ChunkGenerator.At.chunks size hat (by omega)
  rw [haddr, hbytes] at hchunks
  exact hchunks

theorem Tiles.pos : ∀ {cs : List Chunk} {a : Addr} {k : Nat}, Tiles a k cs → ∀ c ∈ cs, 0 < c.size
  | c :: cs, _, _, h, x, hx => by
    rcases List.mem_cons.mp hx with rfl | hx
    · exact h.2.2.1
    · exact h.2.2.2.pos x hx

example : chunks 0x30 0x60 0x40 = some [⟨0x30, 0x10, 0⟩, ⟨0x40, 0x40, 0x10⟩, ⟨0x80, 0x10, 0x50⟩] := by decide

/-- A turn of the loop: the chunk, `last()`, and what `next()` returns. -/
structure Visit extends Chunk where
  last : Bool
  advanced : Bool
  deriving DecidableEq

namespace ChunkGenerator

def last (g : ChunkGenerator) : Bool := g.sizeLeft = 0

/-- What `next()` returns. -/
def nextSucceeds (g : ChunkGenerator) : Bool := if g.sizeLeft = 0 then false else true

def visit (g : ChunkGenerator) : Visit := ⟨⟨g.addr, g.size, g.complete⟩, g.last, g.nextSucceeds⟩

/-- `for (; !gen.done(); gen.next())`; nothing if the loop has not ended after `fuel` turns. -/
def visits : Nat → ChunkGenerator → Option (List Visit)
  | 0, g => if g.done then some [] else none
  | fuel + 1, g => if g.done then some [] else (visits fuel g.next).map fun vs => g.visit :: vs

end ChunkGenerator

/-- The visits cut the region from `a` to `e`, of which `k` bytes are already passed. -/
def Cuts (chunkSize e : Nat) : Nat → Nat → List Visit → Prop
  | a, _, [] => a = e
  | a, k, v :: vs =>
    v.addr.toNat = a ∧ v.complete = k ∧ 0 < v.size ∧
      (chunkSize ≠ 0 → a % chunkSize + v.size ≤ chunkSize ∧ (k ≠ 0 → chunkSize ∣ a)) ∧
      (v.last = true ↔ vs = []) ∧ (v.advanced = false ↔ vs = []) ∧ Cuts chunkSize e (a + v.size) (k + v.size) vs

namespace ChunkGenerator

/-- The rest of the region ends at `e`; the chunk stays inside its block, and the next one starts a block. -/
structure Inside (e : Nat) (g : ChunkGenerator) : Prop where
  region : g.curAddr.toNat + g.curSize + g.sizeLeft = e
  block : g.chunkSize ≠ 0 → g.curAddr.toNat % g.chunkSize + g.curSize ≤ g.chunkSize
  boundary : 0 < g.sizeLeft → g.chunkSize ∣ g.curAddr.toNat + g.curSize

theorem Inside.next {e k : Nat} {g : ChunkGenerator} (h : g.Inside e) (hat : g.At k) (he : e ≤ 2 ^ 64)
    (hleft : 0 < g.sizeLeft) : g.next.Inside e ∧ g.next.curAddr.toNat = g.curAddr.toNat + g.curSize := by
  obtain ⟨hnext, hchunk⟩ := hat.left hleft
  have hregion := h.region
  have haddr : g.nextAddr.toNat = g.curAddr.toNat + g.curSize := by
    rw [hnext, BitVec.toNat_add, BitVec.toNat_ofNat, Nat.mod_eq_of_lt (show g.curSize < 2 ^ 64 by omega),
      Nat.mod_eq_of_lt (by omega)]
  have hdvd := h.boundary hleft
  rw [ChunkGenerator.next, if_neg (by omega)]
  refine ⟨⟨?_, fun _ => ?_, fun hmore => ?_⟩, haddr⟩
  · simp only [haddr]
    omega
  · simp only [haddr, Nat.mod_eq_zero_of_dvd hdvd]
    omega
  · have hall : min g.sizeLeft g.chunkSize = g.chunkSize := by
      simp only at hmore
      omega
    simp only [haddr, hall]
    exact Nat.dvd_add hdvd (dvd_refl _)

theorem Inside.visits {e : Nat} (he : e ≤ 2 ^ 64) : ∀ (fuel : Nat) {k : Nat} {g : ChunkGenerator}, g.Inside e → g.At k →
    (g.chunkSize ≠ 0 → k ≠ 0 → g.chunkSize ∣ g.curAddr.toNat) → g.curSize + g.sizeLeft ≤ fuel →
    ∃ vs, g.visits fuel = some vs ∧ vs ≠ [] ∧ Cuts g.chunkSize e g.curAddr.toNat k vs
  | 0, k, g, _, hat, _, hfuel => by
    have := hat.curSize
    omega
  | fuel + 1, k, g, h, hat, hstart, hfuel => by
    have hpos := hat.curSize
    have hdone : g.done = false := decide_eq_false (by omega)
    have hblock : g.chunkSize ≠ 0 → g.curAddr.toNat % g.chunkSize + g.curSize ≤ g.chunkSize ∧
        (k ≠ 0 → g.chunkSize ∣ g.curAddr.toNat) := fun hne => ⟨h.block hne, hstart hne⟩
    rw [ChunkGenerator.visits, hdone, if_neg (by decide)]
    by_cases hleft : 0 < g.sizeLeft
    · obtain ⟨hinside, haddr⟩ := h.next hat he hleft
      have hkeep : g.next.chunkSize = g.chunkSize ∧ g.next.curSize + g.next.sizeLeft = g.sizeLeft := by
        rw [ChunkGenerator.next, if_neg (by omega)]
        exact ⟨rfl, by simp only; omega⟩
      obtain ⟨vs, hvs, hne, hcuts⟩ := Inside.visits he fuel hinside (hat.next hleft)
        (fun _ _ => by rw [haddr, hkeep.1]; exact h.boundary hleft) (by omega)
      rw [haddr, hkeep.1] at hcuts
      refine ⟨g.visit :: vs, by rw [hvs]; rfl, by simp, rfl, hat.complete, hpos, hblock, ?_, ?_, hcuts⟩
      · simpa [visit, last, hne] using Nat.pos_iff_ne_zero.mp hleft
      · simpa [visit, nextSucceeds, hne] using Nat.pos_iff_ne_zero.mp hleft
    · have hzero : g.sizeLeft = 0 := by omega
      have hend : g.next.visits fuel = some [] := by
        rw [ChunkGenerator.next, if_pos hzero]
        cases fuel <;> rfl
      refine ⟨[g.visit], by rw [hend]; rfl, by simp, rfl, hat.complete, hpos, hblock, ?_, ?_, ?_⟩
      · simp [visit, last, hzero]
      · simp [visit, nextSucceeds, hzero]
      · have hregion := h.region
        show g.curAddr.toNat + g.curSize = e
        omega

theorem dvd_firstNext (startAddr : Addr) (totalSize : Nat) {j : Nat} (hj : j ≤ 63) :
    2 ^ j ∣ startAddr.toNat + (firstNext startAddr totalSize (2 ^ j) - startAddr).toNat := by
  have hpow : 2 ^ j ∣ 2 ^ 64 := Nat.pow_dvd_pow 2 (by omega)
  have hlt : 2 ^ j < 2 ^ 64 := Nat.pow_lt_pow_right (by decide) (by omega)
  have hm : (BitVec.ofNat 64 (2 ^ j - 1)).toNat = 2 ^ j - 1 := by
    rw [BitVec.toNat_ofNat, Nat.mod_eq_of_lt (by omega)]
  have hup : 2 ^ j ∣ (roundUp startAddr (2 ^ j)).toNat := by
    rw [roundUp, and_not_eq_sub, BitVec.toNat_sub_of_le, BitVec.toNat_and, hm, Nat.and_two_pow_sub_one_eq_mod]
    · exact Nat.dvd_sub_mod _
    · rw [BitVec.le_def, BitVec.toNat_and]
      exact Nat.and_le_left
  have hnext : 2 ^ j ∣ (firstNext startAddr totalSize (2 ^ j)).toNat := by
    rw [firstNext, if_neg (by omega)]
    dsimp only
    split
    · rw [BitVec.toNat_add, BitVec.toNat_ofNat, Nat.mod_eq_of_lt hlt]
      exact (Nat.dvd_mod_iff hpow).mpr (Nat.dvd_add hup (dvd_refl _))
    · exact hup
  have hsum : (startAddr + (firstNext startAddr totalSize (2 ^ j) - startAddr)).toNat
      = (firstNext startAddr totalSize (2 ^ j)).toNat := by
    rw [add_sub_cancel]
  rw [← hsum] at hnext
  exact (Nat.dvd_mod_iff hpow).mp hnext

theorem start_inside {startAddr : Addr} {totalSize chunkSize : Nat} {g : ChunkGenerator} (hsize : 0 < totalSize)
    (hlt : totalSize < 2 ^ 32) (hchunk : chunkSize < 2 ^ 32) (h : start startAddr totalSize chunkSize = some g) :
    g.Inside (startAddr.toNat + totalSize) := by
  simp only [start, Option.ite_none_right_eq_some, Option.some.injEq] at h
  obtain ⟨hpow, rfl⟩ := h
  obtain ⟨hpos, hbound, hzero, hle⟩ := firstNext_sub startAddr hsize hlt hchunk hpow
  rw [Nat.mod_eq_of_lt hbound]
  have hdvd : chunkSize ≠ 0 →
      chunkSize ∣ startAddr.toNat + (firstNext startAddr totalSize chunkSize - startAddr).toNat := by
    intro hne
    obtain ⟨j, rfl⟩ := (isPowerOf2_iff (by omega)).mp (hpow.resolve_left hne)
    have hj : j < 32 := (Nat.pow_lt_pow_iff_right (by decide)).mp hchunk
    exact dvd_firstNext startAddr totalSize (by omega)
  generalize (firstNext startAddr totalSize chunkSize - startAddr).toNat = d at hpos hbound hzero hle hdvd ⊢
  refine ⟨?_, fun hne => ?_, fun hleft => ?_⟩
  · show startAddr.toNat + min totalSize d + (totalSize - min totalSize d) = _
    omega
  · -- the place in the block and the way to the boundary are less than two blocks
    show startAddr.toNat % chunkSize + min totalSize d ≤ chunkSize
    have hlt := Nat.mod_lt startAddr.toNat (Nat.pos_of_ne_zero hne)
    have hplace : chunkSize ∣ startAddr.toNat % chunkSize + d := by
      have hsum := hdvd hne
      rwa [← Nat.div_add_mod startAddr.toNat chunkSize, Nat.add_assoc, Nat.dvd_add_right (dvd_mul_right _ _)] at hsum
    obtain ⟨q, hq⟩ := hplace
    have hone : q < 2 := by
      refine Nat.lt_of_mul_lt_mul_left (a := chunkSize) ?_
      rw [← hq]
      show startAddr.toNat % chunkSize + d < chunkSize * 2
      simp only at hlt
      omega
    have : chunkSize * q ≤ chunkSize * 1 := Nat.mul_le_mul_left _ (by omega)
    omega
  · have hmin : min totalSize d = d := by
      simp only at hleft
      omega
    show chunkSize ∣ startAddr.toNat + min totalSize d
    rw [hmin]
    refine hdvd fun h₀ => ?_
    simp only at hleft
    omega

end ChunkGenerator

/-- **The generator cuts the region** at the multiples of the chunk size: the loop ends, its chunks follow each other
through the whole region, and `last()` holds at the last one only. -/
theorem visits_cut {addr : Addr} {size chunkSize : Nat} (hsize : size < 2 ^ 32) (hchunk : chunkSize < 2 ^ 32)
    (hpow : chunkSize = 0 ∨ ∃ j, chunkSize = 2 ^ j) (hfit : addr.toNat + size ≤ 2 ^ 64) :
    ∃ g vs, ChunkGenerator.start addr size chunkSize = some g ∧ g.visits size = some vs ∧
      Cuts chunkSize (addr.toNat + size) addr.toNat 0 vs := by
  have hassert : chunkSize = 0 ∨ isPowerOf2 chunkSize = true := hpow.imp_right (isPowerOf2_iff (by omega)).mpr
  obtain ⟨g, h, hsame⟩ : ∃ g, ChunkGenerator.start addr size chunkSize = some g ∧ g.chunkSize = chunkSize :=
    ⟨_, if_pos hassert, rfl⟩
  rcases Nat.eq_zero_or_pos size with rfl | hpos
  · have hnone : g.curSize = 0 := by
      simp only [ChunkGenerator.start, Option.ite_none_right_eq_some, Option.some.injEq] at h
      rw [← h.2]
      exact Nat.zero_min _
    exact ⟨g, [], h, if_pos (decide_eq_true hnone), rfl⟩
  · obtain ⟨hat, haddr, hbytes⟩ := ChunkGenerator.start_at hpos hsize hchunk h
    have hinside := ChunkGenerator.start_inside hpos hsize hchunk h
    obtain ⟨vs, hvs, -, hcuts⟩ := hinside.visits hfit size hat (fun _ hk => absurd rfl hk) (by omega)
    rw [haddr, hsame] at hcuts
    exact ⟨g, vs, h, hvs, hcuts⟩

/-- A region of three chunks. -/
theorem visits_cut_three : ∃ g vs, ChunkGenerator.start 0x30 0x60 0x40 = some g ∧ g.visits 0x60 = some vs ∧
    Cuts 0x40 0x90 0x30 0 vs :=
  visits_cut (by decide) (by decide) (.inr ⟨6, rfl⟩) (by decide)

end Salam.Base
