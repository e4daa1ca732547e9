import Mathlib.Logic.Function.Basic
import Salam.Base.Bitfield
import Salam.Lib.System

/-!
# Page tables

`EmulationPageTable`, a map from virtual pages, and `MultiLevelPageTable`, which keeps the same pages a second time, in
tables in memory: an entry of a table has the address of the next table, an entry of the last one that of the page
(`LongModePTE`).
The pages are those of x86, of 4096 bytes, and the memory is a function from the addresses of the entries to their
words.

`System::allocPhysPages` is a parameter (`PhysPages`): what it returns depends on what it has returned so far, and is
none of it.
The loops over the pages of a region are folds over the offsets of the pages.
-/

namespace Salam.Mem

open Base (Addr)
open Base.Bitfield (mask bits insertBits)

abbrev PageShift : Nat := 12

abbrev pageSize : Nat := 2 ^ PageShift

namespace PageTable

inductive Err
  | assertion
  /-- `already mapped`. -/
  | panic
  /-- `Page fault while walking the page table`, `not mapped`, `Out of memory`. -/
  | fatal
  deriving DecidableEq

/-- `for (int64_t offset = 0; offset < size; offset += pageSize)` -/
def offsets (size : Int) : List Nat := (List.range ((size + (pageSize - 1)) / pageSize).toNat).map (· * pageSize)

end PageTable

open PageTable (Err offsets)

/-! ## `EmulationPageTable` -/

namespace EmulationPageTable

/-- `MappingFlags` -/
def Clobber : Addr := 1

def Uncacheable : Addr := 4

def ReadOnly : Addr := 8

structure Entry where
  paddr : Addr
  flags : Addr
  deriving DecidableEq

end EmulationPageTable

/-- `pTable` -/
abbrev EmulationPageTable := Addr → Option EmulationPageTable.Entry

namespace EmulationPageTable

def offsetMask : Addr := mask PageShift

def pageAlign (a : Addr) : Addr := a &&& ~~~offsetMask

def pageOffset (a : Addr) : Addr := a &&& offsetMask

def mapPage (t : EmulationPageTable) (vaddr paddr flags : Addr) : Except Err EmulationPageTable :=
  match t vaddr with
  | some _ => if flags &&& Clobber = 0 then .error .panic else .ok (Function.update t vaddr (some ⟨paddr, flags⟩))
  | none => .ok (Function.update t vaddr (some ⟨paddr, flags⟩))

def map (t : EmulationPageTable) (vaddr paddr : Addr) (size : Int) (flags : Addr) : Except Err EmulationPageTable :=
  if pageOffset vaddr ≠ 0 then .error .assertion
  else
    (offsets size).foldlM (fun t offset =>
      mapPage t (vaddr + BitVec.ofNat 64 offset) (paddr + BitVec.ofNat 64 offset) flags) t

def remapPage (t : EmulationPageTable) (vaddr new_vaddr : Addr) : Except Err EmulationPageTable :=
  match t vaddr, t new_vaddr with
  | some entry, none => .ok (Function.update (Function.update t new_vaddr (some entry)) vaddr none)
  | _, _ => .error .assertion

def remap (t : EmulationPageTable) (vaddr : Addr) (size : Int) (new_vaddr : Addr) : Except Err EmulationPageTable :=
  if pageOffset vaddr ≠ 0 ∨ pageOffset new_vaddr ≠ 0 then .error .assertion
  else
    (offsets size).foldlM (fun t offset =>
      remapPage t (vaddr + BitVec.ofNat 64 offset) (new_vaddr + BitVec.ofNat 64 offset)) t

def unmapPage (t : EmulationPageTable) (vaddr : Addr) : Except Err EmulationPageTable :=
  match t vaddr with
  | some _ => .ok (Function.update t vaddr none)
  | none => .error .assertion

def unmap (t : EmulationPageTable) (vaddr : Addr) (size : Int) : Except Err EmulationPageTable :=
  if pageOffset vaddr ≠ 0 then .error .assertion
  else (offsets size).foldlM (fun t offset => unmapPage t (vaddr + BitVec.ofNat 64 offset)) t

def lookup (t : EmulationPageTable) (vaddr : Addr) : Option Entry := t (pageAlign vaddr)

end EmulationPageTable

/-! ## `LongModePTE` -/

/-- The template arguments `first` and `last` of `LongModePTE`. -/
structure Level where
  first : Nat
  last : Nat
  width : first = last + 8
  first_lt : first < 64

/-- A `PageTableEntry` and its address. -/
structure LongModePTE where
  pte : Addr
  entryAddr : Addr
  deriving DecidableEq

namespace LongModePTE

def paddr (e : LongModePTE) : Addr := bits e.pte 51 12 <<< PageShift

def setPaddr (e : LongModePTE) (addr : Addr) : LongModePTE :=
    { e with pte := insertBits e.pte 51 12 (addr >>> PageShift) }

def present (e : LongModePTE) : Bool := bits e.pte 0 0 ≠ 0

def setPresent (e : LongModePTE) (p : Bool) : LongModePTE := { e with pte := insertBits e.pte 0 0 (if p then 1 else 0) }

def uncacheable (e : LongModePTE) : Bool := bits e.pte 4 4 ≠ 0

def setUncacheable (e : LongModePTE) (u : Bool) : LongModePTE :=
    { e with pte := insertBits e.pte 4 4 (if u then 1 else 0) }

def readonly (e : LongModePTE) : Bool := bits e.pte 1 1 = 0

def setReadonly (e : LongModePTE) (r : Bool) : LongModePTE :=
    { e with pte := insertBits e.pte 1 1 (if r then 0 else 1) }

def read (l : Level) (p : Addr → Addr) (table vaddr : Addr) : LongModePTE :=
  let entryAddr := table + bits vaddr l.first l.last * 8
  ⟨p entryAddr, entryAddr⟩

def reset (e : LongModePTE) (paddr : Addr) (present uncacheable readonly : Bool) : LongModePTE :=
  (((LongModePTE.mk (insertBits 0 2 2 1) e.entryAddr).setPaddr paddr).setPresent present |>.setUncacheable uncacheable)
    |>.setReadonly readonly

def tableSize (l : Level) : Nat := 1 <<< (l.first - l.last + 4 - PageShift)

end LongModePTE

/-! ## `MultiLevelPageTable` -/

/-- `allocPhysPages`, from the pages that it has returned so far; `none` if there is no memory left. -/
structure PhysPages where
  allocPhysPages : List Addr → Option Addr
  fresh : ∀ {pages addr}, allocPhysPages pages = some addr → addr ∉ pages
  aligned : ∀ {pages addr}, allocPhysPages pages = some addr → addr.toNat % pageSize = 0
  lt : ∀ {pages addr}, allocPhysPages pages = some addr → addr.toNat < 2 ^ 52

/-- The table, the memory and the pages that have been allocated. -/
structure MultiLevelPageTable where
  pTable : EmulationPageTable
  physProxy : Addr → Addr
  basePtr : Addr
  pages : List Addr

namespace MultiLevelPageTable

/-- `memsetBlob(addr, 0, size)` -/
def clear (p : Addr → Addr) (addr : Addr) (size : Nat) : Addr → Addr :=
  fun a => if addr.toNat ≤ a.toNat ∧ a.toNat < addr.toNat + size then 0 else p a

/-- `entry.write(system->physProxy)` -/
def write (s : MultiLevelPageTable) (e : LongModePTE) : MultiLevelPageTable :=
  { s with physProxy := Function.update s.physProxy e.entryAddr e.pte }

variable (A : PhysPages)

def prepTopTable (l : Level) (s : MultiLevelPageTable) : Except Err (Addr × MultiLevelPageTable) :=
  match A.allocPhysPages s.pages with
  | none => .error .fatal
  | some addr =>
    .ok (addr, { s with physProxy := clear s.physProxy addr (LongModePTE.tableSize l * pageSize), pages :=
      addr :: s.pages })

/-- `WalkWrapper::walk`, from the table of the level `first`. -/
def walkFrom (first : Level) : List Level → Addr → Addr → Bool → MultiLevelPageTable →
    Except Err (LongModePTE × MultiLevelPageTable)
  | [], table, vaddr, _, s => .ok (LongModePTE.read first s.physProxy table vaddr, s)
  | second :: rest, table, vaddr, allocate, s => do
    let entry := LongModePTE.read first s.physProxy table vaddr
    if entry.present then walkFrom second rest entry.paddr vaddr allocate s
    else if allocate then do
      let (next, s) ← prepTopTable A second s
      walkFrom second rest next vaddr allocate (s.write (entry.reset next true false false))
    else throw .fatal

/-- `LongModePTE<47, 39>` -/
def top : Level := ⟨47, 39, rfl, by decide⟩

/-- `LongModePTE<38, 30>`, `LongModePTE<29, 21>`, `LongModePTE<20, 12>` -/
def lower : List Level := [⟨38, 30, rfl, by decide⟩, ⟨29, 21, rfl, by decide⟩, ⟨20, 12, rfl, by decide⟩]

def walk (s : MultiLevelPageTable) (vaddr : Addr) (allocate : Bool) : Except Err (LongModePTE × MultiLevelPageTable) :=
  walkFrom A top lower s.basePtr vaddr allocate s

def initState (s : MultiLevelPageTable) : Except Err MultiLevelPageTable := do
  let (addr, s) ← prepTopTable A top s
  return { s with basePtr := addr }

open EmulationPageTable (Uncacheable ReadOnly)

def mapPage (s : MultiLevelPageTable) (vaddr paddr flags : Addr) : Except Err MultiLevelPageTable := do
  let (entry, s) ← s.walk A vaddr true
  return s.write (entry.reset paddr true (flags &&& Uncacheable ≠ 0) (flags &&& ReadOnly ≠ 0))

def map (s : MultiLevelPageTable) (vaddr paddr : Addr) (size : Int) (flags : Addr) :
    Except Err MultiLevelPageTable := do
  let pTable ← s.pTable.map vaddr paddr size flags
  (offsets size).foldlM (fun s offset => s.mapPage A (vaddr + BitVec.ofNat 64 offset)
    (paddr + BitVec.ofNat 64 offset) flags)
    { s with pTable := pTable }

def remapPage (s : MultiLevelPageTable) (vaddr new_vaddr : Addr) : Except Err MultiLevelPageTable := do
  let (old_entry, s) ← s.walk A vaddr false
  let old_entry := old_entry.setPresent false
  let s := s.write old_entry
  let (new_entry, s) ← s.walk A new_vaddr true
  return s.write (new_entry.reset old_entry.paddr true old_entry.uncacheable old_entry.readonly)

def remap (s : MultiLevelPageTable) (vaddr : Addr) (size : Int) (new_vaddr : Addr) :
    Except Err MultiLevelPageTable := do
  let pTable ← s.pTable.remap vaddr size new_vaddr
  (offsets size).foldlM (fun s offset => s.remapPage A (vaddr + BitVec.ofNat 64 offset)
    (new_vaddr + BitVec.ofNat 64 offset))
    { s with pTable := pTable }

def unmapPage (s : MultiLevelPageTable) (vaddr : Addr) : Except Err MultiLevelPageTable := do
  let (entry, s) ← s.walk A vaddr false
  if !entry.present then throw .fatal
  return s.write (entry.setPresent false)

def unmap (s : MultiLevelPageTable) (vaddr : Addr) (size : Int) : Except Err MultiLevelPageTable := do
  let pTable ← s.pTable.unmap vaddr size
  (offsets size).foldlM (fun s offset => s.unmapPage A (vaddr + BitVec.ofNat 64 offset)) { s with pTable := pTable }

/-! ## Runs -/

inductive Op
  | map (vaddr paddr : Addr) (size : Int) (flags : Addr)
  | remap (vaddr : Addr) (size : Int) (new_vaddr : Addr)
  | unmap (vaddr : Addr) (size : Int)

def exec (s : MultiLevelPageTable) : Op → Except Err MultiLevelPageTable
  | .map vaddr paddr size flags => s.map A vaddr paddr size flags
  | .remap vaddr size new_vaddr => s.remap A vaddr size new_vaddr
  | .unmap vaddr size => s.unmap A vaddr size

/-- The virtual addresses of the pages are below `2 ^ 48`, the physical ones below `2 ^ 52`. -/
def Op.InRange : Op → Prop
  | .map vaddr paddr size _ => ∀ offset ∈ offsets size, vaddr.toNat + offset < 2 ^ 48 ∧ paddr.toNat + offset < 2 ^ 52
  | .remap vaddr size new_vaddr => ∀ offset ∈ offsets size, vaddr.toNat + offset < 2 ^ 48 ∧
      new_vaddr.toNat + offset < 2 ^ 48
  | .unmap vaddr size => ∀ offset ∈ offsets size, vaddr.toNat + offset < 2 ^ 48

instance : DecidablePred Op.InRange
  | .map _ _ _ _ => inferInstanceAs (Decidable (∀ _ ∈ _, _))
  | .remap _ _ _ => inferInstanceAs (Decidable (∀ _ ∈ _, _))
  | .unmap _ _ => inferInstanceAs (Decidable (∀ _ ∈ _, _))

/-- The calls that end well; at the start nothing is mapped, and there is memory that has been allocated before. -/
def system : System MultiLevelPageTable Op where
  init s := ∃ s₀ : MultiLevelPageTable, (∀ vaddr, s₀.pTable vaddr = none) ∧ s₀.initState A = .ok s
  step s op := if op.InRange then (s.exec A op).toOption else none

end MultiLevelPageTable

end Salam.Mem
