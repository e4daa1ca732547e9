import Mathlib.Data.List.FinRange
import Mathlib.Data.Nat.Log
import Salam.Base.AddrRange
import Salam.Lib.LinkedList
import Salam.Lib.System

/-!
# `FALRU`

The fully associative tag store: the blocks in a doubly linked list from the most to the least recently used one, with
the invalid ones at its end, and a hash table of the valid ones. `CacheTracking` keeps statistics for smaller caches of
sizes that double from `minTrackedSize` on: which blocks each of them would hold is a prefix of the list, the end of
which is its boundary. The fields of the blocks are functions of the block.
-/

namespace Salam.Cache

open Base (Addr)

/-- The parameters, as the constructors check them. -/
structure FALRUParams where
  blkSize : Nat
  size : Nat
  minTrackedSize : Nat
  blkSize_pow : ∃ k, blkSize = 2 ^ k
  size_pow : ∃ k, size = 2 ^ k
  two_blocks : 2 * blkSize ≤ size
  size_lt : size < 2 ^ 32
  minTrackedSize_pos : 0 < minTrackedSize

namespace FALRUParams

variable (P : FALRUParams)

def numBlocks : Nat := P.size / P.blkSize

def numTrackedCaches : Nat :=
  if P.minTrackedSize < P.size then Nat.log 2 P.size - Nat.log 2 P.minTrackedSize else 0

def inAllCachesMask : BitVec 32 := BitVec.ofNat 32 (2 ^ P.numTrackedCaches - 1)

/-- `blkAlign` -/
def extractTag (addr : Addr) : Addr := addr &&& ~~~BitVec.ofNat 64 (P.blkSize - 1)

theorem blkSize_pos : 0 < P.blkSize := by
  obtain ⟨k, hk⟩ := P.blkSize_pow
  rw [hk]
  exact Nat.two_pow_pos k

theorem two_le_numBlocks : 2 ≤ P.numBlocks := (Nat.le_div_iff_mul_le P.blkSize_pos).mpr P.two_blocks

end FALRUParams

structure FALRU (N : Nat) where
  tag : Fin N → Addr
  secure : Fin N → Bool
  valid : Fin N → Bool
  prev : Fin N → Option (Fin N)
  next : Fin N → Option (Fin N)
  inCachesMask : Fin N → BitVec 32
  head : Fin N
  tail : Fin N
  tagHash : Addr × Bool → Option (Fin N)
  boundaries : Nat → Option (Fin N)
  hits : Nat → Nat
  misses : Nat → Nat
  accesses : Nat

namespace FALRU

inductive Err
  | assertion
  /-- A null pointer is followed. -/
  | null
  /-- An element outside of a vector is written. -/
  | range
  deriving DecidableEq

/-- A pointer is followed. -/
def deref {α : Type} : Option α → Except Err α
  | some x => .ok x
  | none => .error .null

/-- `for (int i = 0; i < n; i++)` -/
def loop {σ : Type} (f : Nat → σ → Except Err σ) : Nat → σ → Except Err σ
  | 0, s => .ok s
  | n + 1, s => (loop f n s).bind (f n)

/-- `1U << i` -/
def bit (i : Nat) : BitVec 32 := BitVec.twoPow 32 i

variable (P : FALRUParams) {N : Nat}

/-! ## `CacheTracking` -/

/-- The loop of `CacheTracking::init`, with fuel. -/
def initLoop : Nat → FALRU N → Option (Fin N) → Nat → Nat → BitVec 32 → Nat → Except Err (FALRU N)
  | 0, _, some _, _, _, _, _ => .error .range
  | _, s, none, _, _, _, _ => .ok s
  | fuel + 1, s, some blk, curr_size, tracked_cache_size, in_caches_mask, j =>
    let s := { s with inCachesMask := Function.update s.inCachesMask blk in_caches_mask }
    let curr_size := curr_size + P.blkSize
    if curr_size = tracked_cache_size ∧ blk ≠ s.tail then
      if j < P.numTrackedCaches then
        initLoop fuel { s with boundaries := Function.update s.boundaries j (some blk) } (s.next blk) curr_size
          (tracked_cache_size <<< 1) (in_caches_mask &&& ~~~bit j) (j + 1)
      else .error .range
    else initLoop fuel s (s.next blk) curr_size tracked_cache_size in_caches_mask j

/-- `CacheTracking::init` -/
def init (s : FALRU N) : Except Err (FALRU N) :=
  initLoop P (N + 1) s (if P.numTrackedCaches ≠ 0 then some s.head else none) 0 P.minTrackedSize P.inAllCachesMask 0

/-- The body of the loop of `moveBlockToHead`. -/
def trackToHead (blk : Fin N) (update_caches_mask : BitVec 32) (i : Nat) (s : FALRU N) : Except Err (FALRU N) :=
  let current_cache_mask := bit i
  if current_cache_mask &&& update_caches_mask ≠ 0 then do
    let b ← deref (s.boundaries i)
    return { s with
      inCachesMask := Function.update s.inCachesMask b (s.inCachesMask b &&& ~~~current_cache_mask),
      boundaries := Function.update s.boundaries i (s.prev b) }
  else if s.boundaries i = some blk then
    .ok { s with boundaries := Function.update s.boundaries i (s.prev blk) }
  else .ok s

/-- `CacheTracking::moveBlockToHead` -/
def moveBlockToHead (s : FALRU N) (blk : Fin N) : Except Err (FALRU N) := do
  let s ← loop (trackToHead blk (P.inAllCachesMask ^^^ s.inCachesMask blk)) P.numTrackedCaches s
  return { s with inCachesMask := Function.update s.inCachesMask blk P.inAllCachesMask }

/-- The body of the loop of `moveBlockToTail`. -/
def trackToTail (blk : Fin N) (update_caches_mask : BitVec 32) (i : Nat) (s : FALRU N) : Except Err (FALRU N) :=
  let current_cache_mask := bit i
  if current_cache_mask &&& update_caches_mask ≠ 0 then do
    let b ← deref (s.boundaries i)
    let next := if s.next b = some blk then s.next blk else s.next b
    let b ← deref next
    return { s with
      inCachesMask := Function.update s.inCachesMask b (s.inCachesMask b ||| current_cache_mask),
      boundaries := Function.update s.boundaries i next }
  else .ok s

/-- `CacheTracking::moveBlockToTail` -/
def moveBlockToTail (s : FALRU N) (blk : Fin N) : Except Err (FALRU N) := do
  let s ← loop (trackToTail blk (s.inCachesMask blk)) P.numTrackedCaches s
  return { s with inCachesMask := Function.update s.inCachesMask blk 0 }

/-- One more. -/
def count (f : Nat → Nat) (i : Nat) : Nat → Nat := Function.update f i (f i + 1)

/-- The body of the loop of `recordAccess`. -/
def recordTracked (blk : Option (Fin N)) (i : Nat) (s : FALRU N) : FALRU N :=
  if blk.any fun b => bit i &&& s.inCachesMask b ≠ 0 then { s with hits := count s.hits i }
  else { s with misses := count s.misses i }

/-- `CacheTracking::recordAccess` -/
def recordAccess (s : FALRU N) (blk : Option (Fin N)) : FALRU N :=
  let s := (List.range P.numTrackedCaches).foldl (fun s i => recordTracked blk i s) s
  let s :=
    if blk.any s.valid then { s with hits := count s.hits P.numTrackedCaches }
    else { s with misses := count s.misses P.numTrackedCaches }
  { s with accesses := s.accesses + 1 }

/-! ## The list -/

def setPrev (s : FALRU N) (b : Fin N) (v : Option (Fin N)) : FALRU N := { s with prev := Function.update s.prev b v }

def setNext (s : FALRU N) (b : Fin N) (v : Option (Fin N)) : FALRU N := { s with next := Function.update s.next b v }

/-- The block is taken out from between its neighbours. -/
def unlink (s : FALRU N) (blk : Fin N) : Except Err (FALRU N) := do
  let p ← deref (s.prev blk)
  let s := s.setNext p (s.next blk)
  let n ← deref (s.next blk)
  return s.setPrev n (s.prev blk)

/-- The block before the tail is the new tail. -/
def unlinkTail (s : FALRU N) (blk : Fin N) : Except Err (FALRU N) :=
  if s.next blk ≠ none then .error .assertion
  else do
    let t ← deref (s.prev blk)
    return { s with tail := t }.setNext t none

/-- The block after the head is the new head. -/
def unlinkHead (s : FALRU N) (blk : Fin N) : Except Err (FALRU N) :=
  if s.prev blk ≠ none then .error .assertion
  else do
    let h ← deref (s.next blk)
    return { s with head := h }.setPrev h none

def moveToHead (s : FALRU N) (blk : Fin N) : Except Err (FALRU N) :=
  if blk ≠ s.head then do
    let s ← s.moveBlockToHead P blk
    let s ← if blk = s.tail then s.unlinkTail blk else s.unlink blk
    let s := (s.setNext blk (some s.head)).setPrev blk none
    return { s.setPrev s.head (some blk) with head := blk }
  else .ok s

def moveToTail (s : FALRU N) (blk : Fin N) : Except Err (FALRU N) :=
  if blk ≠ s.tail then do
    let s ← s.moveBlockToTail P blk
    let s ← if blk = s.head then s.unlinkHead blk else s.unlink blk
    let s := (s.setPrev blk (some s.tail)).setNext blk none
    return { s.setNext s.tail (some blk) with tail := blk }
  else .ok s

/-! ## The tag store -/

/-- The blocks as the constructor and the loop of `tagsInit` leave them. -/
def fresh : FALRU P.numBlocks where
  tag _ := BitVec.allOnes 64
  secure _ := false
  valid _ := false
  prev b := if b.1 = 0 then none else some ⟨b.1 - 1, (Nat.sub_le _ _).trans_lt b.2⟩
  next b := if h : b.1 + 1 < P.numBlocks then some ⟨b.1 + 1, h⟩ else none
  inCachesMask _ := 0
  head := ⟨0, (by decide : 0 < 2).trans_le P.two_le_numBlocks⟩
  tail := ⟨P.numBlocks - 1, Nat.sub_lt ((by decide : 0 < 2).trans_le P.two_le_numBlocks) (by decide)⟩
  tagHash _ := none
  boundaries _ := none
  hits _ := 0
  misses _ := 0
  accesses := 0

def tagsInit : Except Err (FALRU P.numBlocks) := (fresh P).init P

def findBlock (s : FALRU N) (addr : Addr) (is_secure : Bool) : Except Err (Option (Fin N)) :=
  let tag := P.extractTag addr
  match s.tagHash (tag, is_secure) with
  | some blk =>
    if s.valid blk && !(s.tag blk = tag && s.secure blk = is_secure) then .error .assertion else .ok (some blk)
  | none => .ok none

/-- `accessBlock`, with the block and `in_caches_mask`. -/
def accessBlock (s : FALRU N) (addr : Addr) (is_secure : Bool) :
    Except Err (FALRU N × Option (Fin N) × BitVec 32) := do
  let blk ← s.findBlock P addr is_secure
  match blk with
  | some b =>
    if s.valid b then
      let mask := s.inCachesMask b
      let s ← s.moveToHead P b
      return (s.recordAccess P blk, blk, mask)
    else return (s.recordAccess P blk, blk, 0)
  | none => return (s.recordAccess P blk, blk, 0)

/-- `BaseTags::invalidate` -/
def invalidateBlk (s : FALRU N) (blk : Fin N) : Except Err (FALRU N) :=
  if s.valid blk then
    .ok { s with tag := Function.update s.tag blk (BitVec.allOnes 64), secure := Function.update s.secure blk false,
                 valid := Function.update s.valid blk false }
  else .error .assertion

def invalidate (s : FALRU N) (blk : Fin N) : Except Err (FALRU N) :=
  if s.tagHash (s.tag blk, s.secure blk) = none then .error .assertion
  else do
    let s := { s with tagHash := Function.update s.tagHash (s.tag blk, s.secure blk) none }
    let s ← s.invalidateBlk blk
    s.moveToTail P blk

def findVictim (s : FALRU N) : Fin N := s.tail

/-- `BaseTags::insertBlock`; the status of a block that is not valid is 0 if it is not secure. -/
def insertBlk (s : FALRU N) (addr : Addr) (is_secure : Bool) (blk : Fin N) : Except Err (FALRU N) :=
  if s.valid blk || s.secure blk then .error .assertion
  else
    .ok { s with tag := Function.update s.tag blk (P.extractTag addr), secure := Function.update s.secure blk is_secure,
                 valid := Function.update s.valid blk true }

def insertBlock (s : FALRU N) (addr : Addr) (is_secure : Bool) (blk : Fin N) : Except Err (FALRU N) :=
  if s.inCachesMask blk ≠ 0 then .error .assertion
  else do
    let s ← s.insertBlk P addr is_secure blk
    let s ← s.moveToHead P blk
    return { s with tagHash := Function.update s.tagHash (s.tag blk, s.secure blk) (some blk) }

/-- A miss is filled: the victim is invalidated if it is valid, and the block of the address is put in its place. -/
def fill (s : FALRU N) (addr : Addr) (is_secure : Bool) : Except Err (FALRU N) := do
  let victim := s.findVictim
  let s ← if s.valid victim then s.invalidate P victim else .ok s
  s.insertBlock P addr is_secure victim

end FALRU

end Salam.Cache
