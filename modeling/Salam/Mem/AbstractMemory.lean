import Mathlib.Data.List.Nodup
import Salam.Base.AddrRange
import Salam.Lib.System
import Salam.Mem.Command

/-!
# `AbstractMemory`

The memory that answers reads, writes, swaps and atomic operations, and keeps a lock record for each context that has
done a load-locked: the granule of 16 bytes it was to. A store-conditional succeeds if its context has a record of its
granule, and a write that is let through takes the records of the granule of its address away.

`log` is not in the source, and no function reads it: the accesses, the youngest first.

* `reserved_iff`: what the log says of a context's lock record.
* `Locks`: the lock records are those of the log.
* `store_conditional`: when a store-conditional succeeds.
-/

namespace Salam.Mem

open Salam.Base

abbrev Byte := BitVec 8

inductive MemErr
  | assertion
  /-- `Invalid size for conditional read/write`, `Swap only works if there is real memory`, `Unexpected packet`. -/
  | panic
  deriving DecidableEq

/-- The fields of a packet and its request that `access` reads; the size is that of `data`. -/
structure MemPacket where
  cmd : MemCmd
  addr : Addr
  data : List Byte
  /-- `req->getByteEnable()`, empty if the request is not masked. -/
  byteEnable : List Bool
  cacheResponding : Bool
  contextId : Option Nat
  extraData : BitVec 64
  isCondSwap : Bool
  /-- `req->getAtomicOpFunctor()`. -/
  atomicOp : Option (List Byte → List Byte)
  isInstFetch : Bool

structure LockedAddr where
  addr : Addr
  contextId : Nat
  deriving DecidableEq

/-- `range` is the range of the memory; `pmem` says whether there is memory behind it. -/
structure MemParams where
  range : AddrRange
  pmem : Bool

structure AbstractMemory where
  bytes : Addr → Byte
  lockedAddrList : List LockedAddr

namespace LockedAddr

/-- The first address of the granule. -/
def mask (paddr : Addr) : Addr := paddr &&& ~~~0xf

def matchesContext (l : LockedAddr) (pkt : MemPacket) : Except MemErr Bool :=
  match pkt.contextId with
  | some c => .ok (l.contextId = c)
  | none => .error .assertion

end LockedAddr

open LockedAddr (mask)

namespace MemPacket

def isMaskedWrite (pkt : MemPacket) : Bool := pkt.cmd = .WriteReq && !pkt.byteEnable.isEmpty

/-- `makeResponse`, for a packet that needs a response. -/
def makeResponse (pkt : MemPacket) : Except MemErr MemPacket :=
  if pkt.cmd.isRequest then .ok { pkt with cmd := pkt.cmd.responseCommand } else .error .assertion

end MemPacket

namespace AbstractMemory

/-! ## Data -/

/-- The bytes from the address on. -/
def readBytes (bytes : Addr → Byte) (a : Addr) (n : Nat) : List Byte :=
    (List.range n).map fun i => bytes (a + BitVec.ofNat 64 i)

/-- The memory with the bytes from the address on that `enabled` holds of. -/
def putBytes (bytes : Addr → Byte) (a : Addr) (data : List Byte) (enabled : Nat → Bool) : Addr → Byte := fun x =>
  let i := (x - a).toNat
  match data[i]? with
  | some b => if enabled i then b else bytes x
  | none => bytes x

def writeData (bytes : Addr → Byte) (pkt : MemPacket) : Except MemErr (Addr → Byte) :=
  if !pkt.isMaskedWrite then .ok (putBytes bytes pkt.addr pkt.data fun _ => true)
  else if pkt.byteEnable.length = pkt.data.length then
    .ok (putBytes bytes pkt.addr pkt.data fun i => pkt.byteEnable.getD i false)
  else .error .assertion

/-! ## Locks -/

/-- The loop of `trackLoadLocked`: the record of the context gets the new address. -/
def updateLock (pkt : MemPacket) (paddr : Addr) : List LockedAddr → Except MemErr (Option (List LockedAddr))
  | [] => .ok none
  | l :: ls => do
    if ← l.matchesContext pkt then .ok (some ({ l with addr := paddr } :: ls))
    else .ok ((← updateLock pkt paddr ls).map (l :: ·))

def trackLoadLocked (m : AbstractMemory) (pkt : MemPacket) : Except MemErr AbstractMemory := do
  let paddr := mask pkt.addr
  match ← updateLock pkt paddr m.lockedAddrList with
  | some ls => .ok { m with lockedAddrList := ls }
  | none =>
    match pkt.contextId with
    | some c => .ok { m with lockedAddrList := ⟨paddr, c⟩ :: m.lockedAddrList }
    | none => .error .assertion

/-- The first loop of `checkLockedAddrList`. -/
def findLock (pkt : MemPacket) (paddr : Addr) : List LockedAddr → Except MemErr Bool
  | [] => .ok false
  | l :: ls =>
    if l.addr = paddr then do
      if ← l.matchesContext pkt then .ok true else findLock pkt paddr ls
    else findLock pkt paddr ls

/-- `checkLockedAddrList`, with whether the store is allowed and the packet with its new `extraData`. The second loop
also clears the exclusive monitors of the contexts whose records it erases, which are not part of the memory. -/
def checkLockedAddrList (m : AbstractMemory) (pkt : MemPacket) : Except MemErr (AbstractMemory × MemPacket × Bool) := do
  let paddr := mask pkt.addr
  let isLLSC := pkt.cmd.isLLSC
  let allowStore ← if isLLSC then findLock pkt paddr m.lockedAddrList else .ok true
  let pkt := if isLLSC then { pkt with extraData := if allowStore then 1 else 0 } else pkt
  let m := if allowStore then { m with lockedAddrList := m.lockedAddrList.filter (·.addr ≠ paddr) } else m
  .ok (m, pkt, allowStore)

def writeOK (m : AbstractMemory) (pkt : MemPacket) : Except MemErr (AbstractMemory × MemPacket × Bool) :=
  if m.lockedAddrList.isEmpty then
    let isLLSC := pkt.cmd.isLLSC
    .ok (m, if isLLSC then { pkt with extraData := 0 } else pkt, !isLLSC)
  else m.checkLockedAddrList pkt

/-! ## `access` -/

/-- The low `n` bytes of the word, as they are in memory. -/
def wordBytes (w : BitVec 64) (n : Nat) : List Byte := (List.range n).map fun i => (w >>> (8 * i)).setWidth 8

/-- `overwrite_mem` of a swap. -/
def overwriteMem (m : AbstractMemory) (pkt : MemPacket) : Except MemErr Bool :=
  if pkt.isCondSwap then
    if pkt.data.length = 8 ∨ pkt.data.length = 4 then
      .ok (wordBytes pkt.extraData pkt.data.length = readBytes m.bytes pkt.addr pkt.data.length)
    else .error .panic
  else .ok true

def accessSwap (cfg : MemParams) (m : AbstractMemory) (pkt : MemPacket) : Except MemErr (AbstractMemory × MemPacket) :=
  let old := readBytes m.bytes pkt.addr pkt.data.length
  match pkt.atomicOp with
  | some op =>
    if cfg.pmem then
      .ok ({ m with bytes := putBytes m.bytes pkt.addr (op old) fun i => i < pkt.data.length },
        { pkt with data := old })
    else .ok (m, pkt)
  | none =>
    if cfg.pmem then do
      let overwrite ← m.overwriteMem pkt
      if pkt.isInstFetch then .error .assertion
      else
        .ok (if overwrite then { m with bytes := putBytes m.bytes pkt.addr pkt.data fun _ => true } else m,
          { pkt with data := old })
    else .error .panic

def accessRead (cfg : MemParams) (m : AbstractMemory) (pkt : MemPacket) :
    Except MemErr (AbstractMemory × MemPacket) := do
  if pkt.cmd.isWrite then .error .assertion
  else
    let m ← if pkt.cmd.isLLSC then (if pkt.cmd.fromCache then .error .assertion else m.trackLoadLocked pkt) else .ok m
    .ok (m, if cfg.pmem then { pkt with data := readBytes m.bytes pkt.addr pkt.data.length } else pkt)

def accessWrite (cfg : MemParams) (m : AbstractMemory) (pkt : MemPacket) :
    Except MemErr (AbstractMemory × MemPacket) := do
  let (m, pkt, ok) ← m.writeOK pkt
  if ok then
    let bytes ← if cfg.pmem then writeData m.bytes pkt else .ok m.bytes
    if pkt.isInstFetch then .error .assertion else .ok ({ m with bytes := bytes }, pkt)
  else .ok (m, pkt)

/-- The branches of `access`. -/
def serve (cfg : MemParams) (m : AbstractMemory) (pkt : MemPacket) : Except MemErr (AbstractMemory × MemPacket) :=
  if pkt.cmd = .SwapReq then m.accessSwap cfg pkt
  else if pkt.cmd.isRead then m.accessRead cfg pkt
  else if pkt.cmd.isInvalidate || pkt.cmd.isClean then (if pkt.cmd.isWrite then .error .assertion else .ok (m, pkt))
  else if pkt.cmd.isWrite then m.accessWrite cfg pkt
  else .error .panic

/-- The packets that `access` leaves alone. -/
def ignores (pkt : MemPacket) : Bool := pkt.cacheResponding || pkt.cmd = .CleanEvict || pkt.cmd = .WritebackClean

def access (cfg : MemParams) (m : AbstractMemory) (pkt : MemPacket) : Except MemErr (AbstractMemory × MemPacket) :=
  if ignores pkt then .ok (m, pkt)
  else if (rangeSize pkt.addr (BitVec.ofNat 64 pkt.data.length)).isSubset cfg.range = .ok true then do
    let (m, pkt) ← m.serve cfg pkt
    if pkt.cmd.needsResponse then .ok (m, ← pkt.makeResponse) else .ok (m, pkt)
  else .error .assertion

/-! ## Runs -/

/-- A load-locked, a store-conditional. -/
def isLoadLocked (pkt : MemPacket) : Bool := !ignores pkt && pkt.cmd.isRead && pkt.cmd.isLLSC

def isStoreCond (pkt : MemPacket) : Bool := !ignores pkt && pkt.cmd.isWrite && pkt.cmd.isLLSC

/-- Whether the access writes memory. -/
def writes (m : AbstractMemory) (pkt : MemPacket) : Bool :=
  if ignores pkt then false
  else if pkt.cmd = .SwapReq then pkt.atomicOp.isSome || (m.overwriteMem pkt).toOption.getD false
  else if pkt.cmd.isRead || pkt.cmd.isInvalidate || pkt.cmd.isClean then false
  else pkt.cmd.isWrite && ((m.writeOK pkt).toOption.map (·.2.2)).getD false

end AbstractMemory

open AbstractMemory (isLoadLocked isStoreCond)

/-- An access, and whether it wrote memory. -/
structure Access where
  pkt : MemPacket
  wrote : Bool

/-- The memory and its accesses. -/
structure LockSt where
  mem : AbstractMemory
  log : List Access

namespace LockSt

def step (cfg : MemParams) (s : LockSt) (pkt : MemPacket) : Option LockSt :=
  (s.mem.access cfg pkt).toOption.map fun out => ⟨out.1, ⟨pkt, s.mem.writes pkt⟩ :: s.log⟩

end LockSt

/-- The accesses to a memory in any order. -/
def memory (cfg : MemParams) : System LockSt MemPacket where
  init s := s.mem.lockedAddrList = [] ∧ s.log = []
  step := LockSt.step cfg

/-- The granule of the latest load-locked of the context, and the accesses since. -/
def sinceLoadLocked (c : Nat) : List Access → Option (Addr × List Access)
  | [] => none
  | a :: as =>
    if isLoadLocked a.pkt = true ∧ a.pkt.contextId = some c then some (mask a.pkt.addr, [])
    else (sinceLoadLocked c as).map fun out => (out.1, a :: out.2)

/-- The access wrote a byte of the granule. -/
def Access.Writes (a : Access) (g : Addr) : Prop :=
  a.wrote = true ∧ (mask a.pkt.addr = g ∨ ∃ i < a.pkt.data.length, mask (a.pkt.addr + BitVec.ofNat 64 i) = g)

/-- The access is a write, other than a swap or an atomic operation, of an address of the granule. -/
def Access.Direct (a : Access) (g : Addr) : Prop := a.pkt.cmd ≠ .SwapReq ∧ mask a.pkt.addr = g

/-- The access is a store-conditional of the context that failed. -/
def Access.failed (a : Access) (c : Nat) : Bool := isStoreCond a.pkt && a.pkt.contextId = some c && !a.wrote

namespace AbstractMemory

/-! ## One access -/

section Access

variable {cfg : MemParams} {m m' : AbstractMemory} {pkt pkt' : MemPacket} {c : Nat}

/-- A record of the context gets the new address. -/
theorem updateLock_spec (hc : pkt.contextId = some c) (paddr : Addr) : ∀ {ls : List LockedAddr},
    (ls.map (·.contextId)).Nodup →
    (updateLock pkt paddr ls = .ok none ∧ ∀ l ∈ ls, l.contextId ≠ c) ∨
    ∃ ls', updateLock pkt paddr ls = .ok (some ls') ∧ ls'.map (·.contextId) = ls.map (·.contextId) ∧
      ∀ l, l ∈ ls' ↔ l = ⟨paddr, c⟩ ∨ l ∈ ls ∧ l.contextId ≠ c
  | [], _ => .inl ⟨rfl, by simp⟩
  | l :: ls, hnodup => by
    rw [List.map_cons, List.nodup_cons] at hnodup
    by_cases hl : l.contextId = c
    · refine .inr ⟨{ l with addr := paddr } :: ls, ?_, rfl, fun x => ?_⟩
      · simp [updateLock, LockedAddr.matchesContext, hc, hl, bind, Except.bind]
      · have hne : ∀ y ∈ ls, y.contextId ≠ c := by
          rintro y hy rfl
          exact hnodup.1 (hl ▸ List.mem_map_of_mem hy)
        rw [List.mem_cons, List.mem_cons]
        constructor
        · rintro (rfl | hx)
          · exact .inl (by rw [hl])
          · exact .inr ⟨.inr hx, hne x hx⟩
        · rintro (rfl | ⟨rfl | hx, hxc⟩)
          · exact .inl (by rw [hl])
          · exact absurd hl hxc
          · exact .inr hx
    · rcases updateLock_spec hc paddr hnodup.2 with ⟨heq, hnone⟩ | ⟨ls', heq, hids, hmem⟩
      · refine .inl ⟨?_, ?_⟩
        · simp [updateLock, LockedAddr.matchesContext, hc, hl, heq, bind, Except.bind]
        · intro x hx
          rcases List.mem_cons.mp hx with rfl | hx
          · exact hl
          · exact hnone x hx
      · refine .inr ⟨l :: ls', ?_, by rw [List.map_cons, List.map_cons, hids], fun x => ?_⟩
        · simp [updateLock, LockedAddr.matchesContext, hc, hl, heq, bind, Except.bind]
        · rw [List.mem_cons, hmem, List.mem_cons]
          constructor
          · rintro (rfl | h | ⟨hx, hxc⟩)
            · exact .inr ⟨.inl rfl, hl⟩
            · exact .inl h
            · exact .inr ⟨.inr hx, hxc⟩
          · rintro (h | ⟨h | hx, hxc⟩)
            · exact .inr (.inl h)
            · exact .inl h
            · exact .inr (.inr ⟨hx, hxc⟩)

theorem updateLock_none (hc : pkt.contextId = none) {paddr : Addr} {ls ls' : List LockedAddr} :
    updateLock pkt paddr ls ≠ .ok (some ls') := by
  cases ls with
  | nil => simp [updateLock]
  | cons l ls => simp [updateLock, LockedAddr.matchesContext, hc, bind, Except.bind]

theorem trackLoadLocked_spec (h : m.trackLoadLocked pkt = .ok m')
    (hnodup : (m.lockedAddrList.map (·.contextId)).Nodup) :
    ∃ c, pkt.contextId = some c ∧ (m'.lockedAddrList.map (·.contextId)).Nodup ∧
      ∀ l, l ∈ m'.lockedAddrList ↔ l = ⟨mask pkt.addr, c⟩ ∨ l ∈ m.lockedAddrList ∧ l.contextId ≠ c := by
  unfold trackLoadLocked at h
  simp only [bind, Except.bind] at h
  cases hc : pkt.contextId with
  | none =>
    split at h
    · cases h
    · split at h
      · rename_i hup
        exact absurd hup (updateLock_none hc)
      · simp [hc] at h
  | some c =>
    refine ⟨c, rfl, ?_⟩
    rcases updateLock_spec hc (mask pkt.addr) hnodup with ⟨heq, hnone⟩ | ⟨ls', heq, hids, hmem⟩
    · simp only [heq, hc] at h
      cases h
      constructor
      · rw [List.map_cons, List.nodup_cons]
        refine ⟨fun hmem => ?_, hnodup⟩
        obtain ⟨l, hl, hlc⟩ := List.mem_map.mp hmem
        exact hnone l hl hlc
      · intro l
        rw [List.mem_cons]
        exact or_congr_right ⟨fun hl => ⟨hl, hnone l hl⟩, And.left⟩
    · simp only [heq] at h
      cases h
      exact ⟨hids ▸ hnodup, hmem⟩

/-- A record of the context is found exactly if there is one. -/
theorem findLock_spec (hc : pkt.contextId = some c) (paddr : Addr) : ∀ ls : List LockedAddr,
    findLock pkt paddr ls = .ok (decide (⟨paddr, c⟩ ∈ ls))
  | [] => by simp [findLock]
  | l :: ls => by
    have ih := findLock_spec hc paddr ls
    obtain ⟨addr, id⟩ := l
    by_cases ha : addr = paddr
    · by_cases hi : id = c
      · simp [findLock, LockedAddr.matchesContext, hc, ha, hi, bind, Except.bind]
      · simp [findLock, LockedAddr.matchesContext, hc, ha, hi, ih, bind, Except.bind, Ne.symm hi]
    · simp [findLock, ha, ih, Ne.symm ha]

/-- What `writeOK` does: it lets a store-conditional through if its context has the record, and then takes the records
of the granule away. -/
theorem writeOK_cases {ok : Bool} (h : m.writeOK pkt = .ok (m', pkt', ok)) :
    m'.bytes = m.bytes ∧ pkt' = { pkt with extraData := pkt'.extraData } ∧
      m'.lockedAddrList = (if ok then m.lockedAddrList.filter (·.addr ≠ mask pkt.addr) else m.lockedAddrList) ∧
      (pkt.cmd.isLLSC = true → pkt'.extraData = (if ok then 1 else 0)) ∧
      (pkt.cmd.isLLSC = true → ∀ c, pkt.contextId = some c → (ok = true ↔ ⟨mask pkt.addr, c⟩ ∈ m.lockedAddrList)) := by
  unfold writeOK at h
  split at h
  · rename_i hempty
    rw [List.isEmpty_iff] at hempty
    cases h
    cases hll : pkt.cmd.isLLSC <;> simp [hempty]
  · unfold checkLockedAddrList at h
    simp only [bind, Except.bind] at h
    cases hll : pkt.cmd.isLLSC with
    | false =>
      simp only [hll, Bool.false_eq_true, if_false, if_true] at h
      cases h
      simp
    | true =>
      simp only [hll, if_true] at h
      split at h
      · cases h
      · rename_i found hfound
        cases h
        refine ⟨by split <;> rfl, rfl, by split <;> rfl, fun _ => rfl, fun _ c hc => ?_⟩
        rw [findLock_spec hc] at hfound
        cases hfound
        simp

theorem accessWrite_cases (h : m.accessWrite cfg pkt = .ok (m', pkt')) :
    ∃ m₁ ok, m.writeOK pkt = .ok (m₁, pkt', ok) ∧ m'.lockedAddrList = m₁.lockedAddrList := by
  unfold accessWrite at h
  simp only [bind, Except.bind] at h
  split at h
  · cases h
  · rename_i out hok
    obtain ⟨m₁, pkt₁, ok⟩ := out
    cases ok with
    | false =>
      simp only [Bool.false_eq_true, if_false] at h
      cases h
      exact ⟨m', false, hok, rfl⟩
    | true =>
      simp only [if_true] at h
      split at h
      · split at h
        · cases h
        · split at h
          · cases h
          · cases h
            exact ⟨m₁, true, hok, rfl⟩
      · split at h
        · cases h
        · cases h
          exact ⟨m₁, true, hok, rfl⟩

/-- The records after an access that is served: a load-locked adds one, a write that is let through takes those of its
granule away, and nothing else changes them. -/
theorem serve_locks (hi : ignores pkt = false) (h : m.serve cfg pkt = .ok (m', pkt')) :
    (isLoadLocked pkt = true ∧ m.writes pkt = false ∧ ∃ m₁, m.trackLoadLocked pkt = .ok m₁ ∧
      m'.lockedAddrList = m₁.lockedAddrList) ∨
    isLoadLocked pkt = false ∧ m'.lockedAddrList =
      if m.writes pkt = true ∧ pkt.cmd ≠ .SwapReq then m.lockedAddrList.filter (·.addr ≠ mask pkt.addr)
      else m.lockedAddrList := by
  unfold serve at h
  split at h
  · -- a swap
    rename_i hswap
    refine .inr ⟨by rw [isLoadLocked, hswap]; simp [MemCmd.isLLSC, MemCmd.testCmdAttrib, MemCmd.commandInfo], ?_⟩
    rw [if_neg (fun hw => hw.2 hswap)]
    unfold accessSwap at h
    simp only [bind, Except.bind] at h
    split at h
    · split at h <;> cases h <;> rfl
    · split at h
      · split at h
        · cases h
        · split at h
          · cases h
          · cases h
            split <;> rfl
      · cases h
  · rename_i hswap
    split at h
    · -- a read
      rename_i hread
      have hw : m.writes pkt = false := by simp [writes, hi, hswap, hread]
      unfold accessRead at h
      simp only [bind, Except.bind] at h
      split at h
      · cases h
      · cases hll : pkt.cmd.isLLSC with
        | true =>
          simp only [hll, if_true] at h
          split at h
          · cases h
          · rename_i m₁ htrack
            split at htrack
            · cases htrack
            · cases h
              exact .inl ⟨by simp [isLoadLocked, hi, hread, hll], hw, m', htrack, rfl⟩
        | false =>
          simp only [hll, Bool.false_eq_true, if_false] at h
          cases h
          exact .inr ⟨by simp [isLoadLocked, hll], by simp [hw]⟩
    · rename_i hread
      have hll : isLoadLocked pkt = false := by simp [isLoadLocked, hread]
      split at h
      · rename_i hclean
        split at h
        · cases h
        · cases h
          have hw : m.writes pkt = false := by
            have : pkt.cmd.isInvalidate = true ∨ pkt.cmd.isClean = true := by simpa using hclean
            rcases this with h' | h' <;> simp [writes, hi, hswap, h']
          exact .inr ⟨hll, by simp [hw]⟩
      · rename_i hclean
        split at h
        · -- a write
          rename_i hwrite
          have hno : pkt.cmd.isInvalidate = false ∧ pkt.cmd.isClean = false := by simpa using hclean
          refine .inr ⟨hll, ?_⟩
          obtain ⟨m₁, ok, hok, hsame⟩ := accessWrite_cases h
          have hwr : m.writes pkt = ok := by
            simp [writes, hi, hswap, hread, hno.1, hno.2, hwrite, hok, Except.toOption]
          obtain ⟨-, -, hlocks, -⟩ := writeOK_cases hok
          rw [hwr, hsame, hlocks]
          cases ok with
          | true => simp [hswap]
          | false => simp
        · cases h

theorem serve_storeCond (hsc : isStoreCond pkt = true) (h : m.serve cfg pkt = .ok (m', pkt'))
    (hc : pkt.contextId = some c) :
    (pkt'.extraData = 1 ↔ ⟨mask pkt.addr, c⟩ ∈ m.lockedAddrList) ∧ (pkt'.extraData = 1 ↔ m.writes pkt = true) := by
  simp only [isStoreCond, Bool.and_eq_true, Bool.not_eq_true'] at hsc
  obtain ⟨⟨hi, hwrite⟩, hll⟩ := hsc
  have hcmd : pkt.cmd = .StoreCondReq ∨ pkt.cmd = .StoreCondFailReq ∨ pkt.cmd = .StoreCondResp := by
    revert hwrite hll
    cases pkt.cmd <;> decide
  have hno : pkt.cmd ≠ .SwapReq ∧ pkt.cmd.isRead = false ∧ pkt.cmd.isInvalidate = false ∧ pkt.cmd.isClean = false := by
    rcases hcmd with h | h | h <;> rw [h] <;> decide
  obtain ⟨hswap, hread, hinv, hclean⟩ := hno
  rw [serve, if_neg hswap, if_neg (by simp [hread]), if_neg (by simp [hinv, hclean]), if_pos hwrite] at h
  obtain ⟨m₁, ok, hok, -⟩ := accessWrite_cases h
  have hwr : m.writes pkt = ok := by
    simp [writes, hi, hswap, hread, hinv, hclean, hwrite, hok, Except.toOption]
  obtain ⟨-, -, -, hextra, hfound⟩ := writeOK_cases hok
  rw [hwr, hextra hll, ← hfound hll c hc]
  cases ok <;> simp

theorem access_cases (h : m.access cfg pkt = .ok (m', pkt')) :
    ignores pkt = true ∧ m' = m ∧ pkt' = pkt ∨
      ignores pkt = false ∧ ∃ pkt₁, m.serve cfg pkt = .ok (m', pkt₁) ∧ pkt'.extraData = pkt₁.extraData := by
  unfold access at h
  split at h
  · rename_i hi
    cases h
    exact .inl ⟨hi, rfl, rfl⟩
  · rename_i hi
    refine .inr ⟨by simpa using hi, ?_⟩
    split at h
    · simp only [bind, Except.bind] at h
      split at h
      · cases h
      · rename_i out hserve
        obtain ⟨m₁, pkt₁⟩ := out
        split at h
        · split at h
          · cases h
          · rename_i pkt₂ hresp
            cases h
            refine ⟨pkt₁, hserve, ?_⟩
            unfold MemPacket.makeResponse at hresp
            split at hresp
            · cases hresp
              rfl
            · cases hresp
        · cases h
          exact ⟨_, hserve, rfl⟩
    · cases h

/-- A packet that is served keeps its command and its address. -/
theorem serve_keeps (h : m.serve cfg pkt = .ok (m', pkt')) : pkt'.cmd = pkt.cmd ∧ pkt'.addr = pkt.addr := by
  unfold serve at h
  split at h
  · unfold accessSwap at h
    simp only [bind, Except.bind] at h
    repeat' split at h
    all_goals cases h
    all_goals exact ⟨rfl, rfl⟩
  · split at h
    · unfold accessRead at h
      simp only [bind, Except.bind] at h
      repeat' split at h
      all_goals cases h
      all_goals exact ⟨rfl, rfl⟩
    · split at h
      · split at h <;> cases h
        exact ⟨rfl, rfl⟩
      · split at h
        · obtain ⟨m₁, ok, hok, -⟩ := accessWrite_cases h
          rw [(writeOK_cases hok).2.1]
          exact ⟨rfl, rfl⟩
        · cases h

/-- **A packet that needs a response is turned around**, unless it is one that `access` leaves alone. -/
theorem access_answers (h : m.access cfg pkt = .ok (m', pkt')) (hi : ignores pkt = false)
    (hneeds : pkt.cmd.needsResponse = true) : pkt'.cmd = pkt.cmd.responseCommand ∧ pkt'.addr = pkt.addr := by
  rw [access, hi, if_neg (by decide)] at h
  split at h
  · obtain ⟨⟨m₁, pkt₁⟩, hserve, h⟩ := ok_of_bind h
    obtain ⟨hcmd, haddr⟩ := serve_keeps hserve
    rw [← hcmd] at hneeds
    simp only [hneeds, if_true] at h
    obtain ⟨pkt₂, hresp, h⟩ := ok_of_bind h
    cases h
    unfold MemPacket.makeResponse at hresp
    split at hresp
    · cases hresp
      exact ⟨by rw [← hcmd], haddr⟩
    · cases hresp
  · cases h

end Access

end AbstractMemory

open AbstractMemory

/-! ## The lock records and the log -/

section Locks

variable {cfg : MemParams} {s s' : LockSt} {pkt : MemPacket}

/-- The latest load-locked of the context was to the granule, and no write of an address of the granule has been let
through since. -/
def Reserved (log : List Access) (c : Nat) (g : Addr) : Prop :=
  ∃ later, sinceLoadLocked c log = some (g, later) ∧ ∀ a ∈ later, ¬ (a.wrote = true ∧ a.Direct g)

/-- There is one lock record for a context at most, and it is that of the log. -/
structure LockSt.Locks (s : LockSt) : Prop where
  nodup : (s.mem.lockedAddrList.map (·.contextId)).Nodup
  reserved : ∀ c g, ⟨g, c⟩ ∈ s.mem.lockedAddrList ↔ Reserved s.log c g

theorem reserved_loadLocked {log : List Access} {a : Access} {c : Nat} (ha : isLoadLocked a.pkt = true)
    (hc : a.pkt.contextId = some c) (g : Addr) : Reserved (a :: log) c g ↔ g = mask a.pkt.addr := by
  simp only [Reserved, sinceLoadLocked, if_pos (And.intro ha hc), Option.some.injEq, Prod.mk.injEq]
  constructor
  · rintro ⟨later, ⟨h, -⟩, -⟩
    exact h.symm
  · rintro rfl
    exact ⟨[], ⟨rfl, rfl⟩, by simp⟩

theorem reserved_other {log : List Access} {a : Access} {c : Nat}
    (ha : ¬ (isLoadLocked a.pkt = true ∧ a.pkt.contextId = some c)) (g : Addr) :
    Reserved (a :: log) c g ↔ Reserved log c g ∧ ¬ (a.wrote = true ∧ a.Direct g) := by
  simp only [Reserved, sinceLoadLocked, if_neg ha, Option.map_eq_some_iff]
  constructor
  · rintro ⟨_, ⟨⟨g', later⟩, hsince, heq⟩, hall⟩
    obtain ⟨rfl, rfl⟩ := Prod.mk.inj heq
    rw [List.forall_mem_cons] at hall
    exact ⟨⟨later, hsince, hall.2⟩, hall.1⟩
  · rintro ⟨⟨later, hsince, hall⟩, hno⟩
    exact ⟨a :: later, ⟨(g, later), hsince, rfl⟩, List.forall_mem_cons.mpr ⟨hno, hall⟩⟩

theorem LockSt.Locks.other (h : s.Locks) {m' : AbstractMemory} {w : Bool} (hll : isLoadLocked pkt = false)
    (hlist : m'.lockedAddrList = if w = true ∧ pkt.cmd ≠ .SwapReq then
      s.mem.lockedAddrList.filter (·.addr ≠ mask pkt.addr) else s.mem.lockedAddrList) :
    LockSt.Locks ⟨m', ⟨pkt, w⟩ :: s.log⟩ := by
  constructor
  · show (m'.lockedAddrList.map (·.contextId)).Nodup
    rw [hlist]
    split
    · exact h.nodup.sublist (List.filter_sublist.map _)
    · exact h.nodup
  · intro c g
    rw [reserved_other (by simp [hll]) g, ← h.reserved c g]
    show ⟨g, c⟩ ∈ m'.lockedAddrList ↔ _
    rw [hlist]
    by_cases hw : w = true ∧ pkt.cmd ≠ .SwapReq
    · rw [if_pos hw, List.mem_filter, decide_eq_true_iff]
      refine and_congr_right fun _ => ?_
      simp only [Access.Direct, hw.1, hw.2, true_and, ne_eq, not_false_eq_true]
      exact not_congr eq_comm
    · rw [if_neg hw]
      refine ⟨fun hmem => ⟨hmem, fun hd => hw ⟨hd.1, hd.2.1⟩⟩, And.left⟩

theorem LockSt.Locks.loadLocked (h : s.Locks) {m₁ m' : AbstractMemory} {w : Bool} (hll : isLoadLocked pkt = true)
    (hw : w = false) (htrack : s.mem.trackLoadLocked pkt = .ok m₁) (hlist : m'.lockedAddrList = m₁.lockedAddrList) :
    LockSt.Locks ⟨m', ⟨pkt, w⟩ :: s.log⟩ := by
  obtain ⟨c₀, hc₀, hnodup, hmem⟩ := trackLoadLocked_spec htrack h.nodup
  constructor
  · show (m'.lockedAddrList.map (·.contextId)).Nodup
    rw [hlist]
    exact hnodup
  · intro c g
    show ⟨g, c⟩ ∈ m'.lockedAddrList ↔ _
    rw [hlist, hmem]
    by_cases hc : c = c₀
    · subst hc
      rw [reserved_loadLocked hll hc₀]
      simp
    · rw [reserved_other (by simp [hc₀, Ne.symm hc]), ← h.reserved c g]
      simp [hc, hw]

theorem LockSt.Locks.step (h : s.Locks) (hs : s.step cfg pkt = some s') : s'.Locks := by
  obtain ⟨⟨m', pkt'⟩, hacc, rfl⟩ := Option.map_eq_some_iff.mp hs
  replace hacc := ok_of_toOption hacc
  rcases access_cases hacc with ⟨hi, rfl, -⟩ | ⟨hi, pkt₁, hserve, -⟩
  · have hw : s.mem.writes pkt = false := by simp [writes, hi]
    apply h.other
    · simp [isLoadLocked, hi]
    · rw [if_neg (by simp [hw])]
  · rcases serve_locks hi hserve with ⟨hll, hw, m₁, htrack, hlist⟩ | ⟨hll, hlist⟩
    · exact h.loadLocked hll hw htrack hlist
    · exact h.other hll hlist

theorem locks_of_reachable (h : (memory cfg).Reachable s) : s.Locks := by
  apply System.invariantWhen (I := LockSt.Locks) _ _ h
  · rintro s ⟨hlist, hlog⟩
    constructor
    · rw [hlist]
      exact List.nodup_nil
    · intro c g
      rw [hlist, hlog]
      simp [Reserved, sinceLoadLocked]
  · intro s pkt s' _ hl _ hs
    exact hl.step hs

/-- In every run there is at most one lock record for a context, and a store-conditional of a context `c` succeeds, and
writes memory, exactly if the latest load-locked of `c` was to the same granule and nothing has written a byte of the
granule since. What it does after swaps, atomic operations and writes that start outside the granule have written a byte
of it is left open. -/
theorem store_conditional (cfg : MemParams) {s : LockSt} (h : (memory cfg).Reachable s) :
    (s.mem.lockedAddrList.map (·.contextId)).Nodup ∧
      ∀ pkt c m' pkt', isStoreCond pkt = true → pkt.contextId = some c → s.mem.access cfg pkt = .ok (m', pkt') →
        (∀ g later, sinceLoadLocked c s.log = some (g, later) → ∀ a ∈ later, a.Writes (mask pkt.addr) →
          a.Direct (mask pkt.addr)) →
        (pkt'.extraData = 1 ↔ s.mem.writes pkt = true) ∧
        (pkt'.extraData = 1 ↔ ∃ later, sinceLoadLocked c s.log = some (mask pkt.addr, later) ∧
          ∀ a ∈ later, ¬ a.Writes (mask pkt.addr)) := by
  have hl := locks_of_reachable h
  refine ⟨hl.nodup, fun pkt c m' pkt' hsc hc hacc hdirect => ?_⟩
  rcases access_cases hacc with ⟨hi, -⟩ | ⟨-, pkt₁, hserve, hextra⟩
  · simp [isStoreCond, hi] at hsc
  · obtain ⟨hiff, hwrites⟩ := serve_storeCond hsc hserve hc
    rw [hextra]
    refine ⟨hwrites, ?_⟩
    rw [hiff, hl.reserved]
    refine exists_congr fun later => and_congr_right fun hsince => forall₂_congr fun a ha => not_congr ?_
    constructor
    · rintro ⟨hw, hd⟩
      exact ⟨hw, .inl hd.2⟩
    · intro hw
      exact ⟨hw.1, hdirect _ later hsince a ha hw⟩

/-- A packet of four bytes of the context `0`. -/
def lockPacket (cmd : MemCmd) (addr : Addr) : MemPacket where
  cmd := cmd
  addr := addr
  data := [1, 2, 3, 4]
  byteEnable := []
  cacheResponding := false
  contextId := some 0
  extraData := 0
  isCondSwap := false
  atomicOp := none
  isInstFetch := false

def lockParams : MemParams := ⟨rangeEx 0 0x1000, true⟩

def lockStart : LockSt := ⟨⟨fun _ => 0, []⟩, []⟩

theorem lockStart_init : (memory lockParams).init lockStart := ⟨rfl, rfl⟩

/-- A load-locked and a write of another granule, and the store-conditional succeeds. -/
theorem store_conditional_other_write : ∃ s m' pkt', (memory lockParams).Reachable s ∧
    s.mem.access lockParams (lockPacket .StoreCondReq 8) = .ok (m', pkt') ∧ pkt'.extraData = 1 := by
  obtain ⟨s, hs, hp⟩ := System.reachable_of_replay lockStart_init
    [lockPacket .LoadLockedReq 0, lockPacket .WriteReq 0x10]
    (fun s => ((s.mem.access lockParams (lockPacket .StoreCondReq 8)).toOption.isSome &&
      ((sinceLoadLocked 0 s.log).any fun out => out.1 = 0 && out.2.all fun a =>
        !a.wrote || a.pkt.addr = 0x10 && a.pkt.data.length = 4)) = true) (by decide +kernel)
  rw [Bool.and_eq_true, Option.any_eq_true] at hp
  obtain ⟨hok, ⟨g, later⟩, hsince, hlater⟩ := hp
  obtain ⟨⟨m', pkt'⟩, hacc⟩ := Option.isSome_iff_exists.mp hok
  replace hacc := ok_of_toOption hacc
  rw [Bool.and_eq_true, decide_eq_true_iff] at hlater
  have hno : ∀ a ∈ later, ¬ a.Writes (mask (lockPacket .StoreCondReq 8).addr) := by
    intro a ha hw
    have hor := List.all_eq_true.mp hlater.2 a ha
    rw [hw.1, Bool.not_true, Bool.false_or, Bool.and_eq_true, decide_eq_true_iff, decide_eq_true_iff] at hor
    have h0 : ∀ i < 4, mask (0x10 + BitVec.ofNat 64 i) ≠ mask 8 := by decide
    rcases hw.2 with h | ⟨i, hi, h⟩
    · rw [hor.1] at h
      exact absurd h (by decide)
    · rw [hor.1] at h
      exact h0 i (hor.2 ▸ hi) h
  have hsc := (store_conditional lockParams hs).2 (lockPacket .StoreCondReq 8) 0 m' pkt' (by decide) rfl hacc
    (fun g' later' hs' a ha hw => by
      rw [hsince] at hs'
      obtain ⟨-, rfl⟩ := Prod.mk.inj (Option.some.inj hs')
      exact absurd hw (hno a ha))
  refine ⟨s, m', pkt', hs, hacc, hsc.2.mpr ⟨later, ?_, hno⟩⟩
  have hg : g = 0 := hlater.1
  rw [hsince, hg]
  rfl

/-- A store-conditional to another granule fails, and the next one of the same context succeeds. -/
theorem succeeds_after_failed : ∃ s m' pkt', (memory lockParams).Reachable s ∧
    (∃ later, sinceLoadLocked 0 s.log = some (0, later) ∧ ∃ a ∈ later, a.failed 0 = true) ∧
    s.mem.access lockParams (lockPacket .StoreCondReq 0) = .ok (m', pkt') ∧ pkt'.extraData = 1 := by
  obtain ⟨s, hs, hp⟩ := System.reachable_of_replay lockStart_init
    [lockPacket .LoadLockedReq 0, lockPacket .StoreCondReq 0x10]
    (fun s => ((s.mem.access lockParams (lockPacket .StoreCondReq 0)).toOption.any (fun out => out.2.extraData = 1) &&
      ((sinceLoadLocked 0 s.log).any fun out => out.1 = 0 && out.2.any fun a => a.failed 0)) = true) (by decide +kernel)
  rw [Bool.and_eq_true, Option.any_eq_true, Option.any_eq_true] at hp
  obtain ⟨⟨⟨m', pkt'⟩, hacc, hextra⟩, ⟨g, later⟩, hsince, hlater⟩ := hp
  rw [Bool.and_eq_true, decide_eq_true_iff, List.any_eq_true] at hlater
  refine ⟨s, m', pkt', hs, ⟨later, ?_, hlater.2⟩, ok_of_toOption hacc, of_decide_eq_true hextra⟩
  have hg : g = 0 := hlater.1
  rw [hsince, hg]

end Locks

end Salam.Mem
