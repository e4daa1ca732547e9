import Mathlib.Data.List.Perm.Basic
import Mathlib.Logic.Function.Basic
import Salam.Lib.System

/-!
# Register renaming of the O3 CPU

`SimpleRenameMap::rename` with the free lists, and what `DefaultRename` does with them: `renameDestRegs` takes a free
register for each destination and records the one that it replaces, `doSquash` undoes the renames of the squashed
instructions and switches the vector mode, and `removeFromHistory` frees the registers that the committed ones replaced.

The CPU has one thread. A free list and a rename map are kept for each class of registers; a map whose entries are all
null pointers is the empty list. What the registers hold is no part of this.
-/

namespace Salam.O3

namespace Rename

/-- An `assert` or a `panic` that fails, or an entry that is past the end of a vector or a null pointer. -/
inductive Err
  | assertion
  | panic
  | outOfBounds
  deriving DecidableEq

end Rename

open Rename (Err)

/-! ## Registers -/

inductive RegClass
  | IntRegClass
  | FloatRegClass
  | VecRegClass
  | VecElemClass
  | VecPredRegClass
  | CCRegClass
  | MiscRegClass
  deriving DecidableEq

/-- `RegId`. Only a register of `VecElemClass` has an `elemIndex`. -/
structure RegId where
  classValue : RegClass
  index : Nat
  elemIndex : Nat
  numPinnedWrites : Int
  deriving DecidableEq

/-- `operator==`, which does not look at the pinned writes. -/
def RegId.eq (a b : RegId) : Bool :=
  a.classValue = b.classValue && a.index = b.index && a.elemIndex = b.elemIndex

/-- A `PhysRegIdPtr`: the register file has one object for each class, index and element. -/
structure PhysRegId where
  classValue : RegClass
  index : Nat
  elemIndex : Nat
  deriving DecidableEq

inductive VecMode
  | Full
  | Elem
  deriving DecidableEq

/-- The ISA and the sizes of the register file, as the constructor of `FullO3CPU` asserts them for one thread. -/
structure Params where
  alpha : Bool
  NumIntRegs : Nat
  NumFloatRegs : Nat
  NumVecRegs : Nat
  NumVecElemPerVecReg : Nat
  NumVecPredRegs : Nat
  NumCCRegs : Nat
  NumMiscRegs : Nat
  ZeroReg : Nat
  numPhysicalIntRegs : Nat
  numPhysicalFloatRegs : Nat
  numPhysicalVecRegs : Nat
  numPhysicalVecPredRegs : Nat
  numPhysicalCCRegs : Nat
  /-- What `RenameMode<ISA>::init` gives. -/
  vecMode : VecMode
  intRegs : NumIntRegs ≤ numPhysicalIntRegs
  floatRegs : NumFloatRegs ≤ numPhysicalFloatRegs
  vecRegs : NumVecRegs ≤ numPhysicalVecRegs
  vecPredRegs : NumVecPredRegs ≤ numPhysicalVecPredRegs
  ccRegs : NumCCRegs ≤ numPhysicalCCRegs

namespace Params

variable (p : Params)

/-- `RegId::flatIndex` -/
def flatIndex (arch_reg : RegId) : Nat :=
  match arch_reg.classValue with
  | .VecElemClass => p.NumVecElemPerVecReg * arch_reg.index + arch_reg.elemIndex
  | _ => arch_reg.index

/-- `PhysRegId::isZeroReg` -/
def isZeroReg (phys_reg : PhysRegId) : Bool :=
  (phys_reg.classValue = .IntRegClass && phys_reg.index = p.ZeroReg) ||
    (p.alpha && phys_reg.classValue = .FloatRegClass && phys_reg.index = p.ZeroReg)

/-- The index that `UnifiedRenameMap::init` gives the map of a class as its zero register: `fpZeroReg` that of the
floating-point map, and `(RegIndex)-1` those of the maps after it. -/
def zeroIndex : RegClass → Nat
  | .IntRegClass => p.ZeroReg
  | .FloatRegClass => if p.alpha then p.ZeroReg else p.NumFloatRegs + 1
  | _ => 65535

/-- `SimpleRenameMap::zeroReg`: an integer register in the map of every class. -/
def zeroReg (cls : RegClass) : RegId := ⟨.IntRegClass, p.zeroIndex cls, 0, 0⟩

/-- The number of entries that the rename map of a class has in a vector mode. -/
def numRegs (vecMode : VecMode) : RegClass → Nat
  | .IntRegClass => p.NumIntRegs
  | .FloatRegClass => p.NumFloatRegs
  | .VecRegClass => if vecMode = .Full then p.NumVecRegs else 0
  | .VecElemClass => if vecMode = .Elem then p.NumVecRegs * p.NumVecElemPerVecReg else 0
  | .VecPredRegClass => p.NumVecPredRegs
  | .CCRegClass => p.NumCCRegs
  | .MiscRegClass => 0

/-- The number of registers of a class that an instruction can write. -/
def archRegs (vecMode : VecMode) : RegClass → Nat
  | .MiscRegClass => p.NumMiscRegs
  | cls => p.numRegs vecMode cls

/-- `PhysRegFile::getRegElemIds` -/
def getRegElemIds (reg : PhysRegId) : List PhysRegId :=
  (List.range p.NumVecElemPerVecReg).map (⟨.VecElemClass, reg.index, ·⟩)

def vecRegIds : List PhysRegId := (List.range p.numPhysicalVecRegs).map (⟨.VecRegClass, ·, 0⟩)

/-- The registers that `PhysRegFile::initFreeList` puts on the free list of a class (`intRegIds`, `floatRegIds`, …). -/
def regIds (vecMode : VecMode) (cls : RegClass) : List PhysRegId :=
  match cls with
  | .IntRegClass => (List.range p.numPhysicalIntRegs).map (⟨cls, ·, 0⟩)
  | .FloatRegClass => (List.range p.numPhysicalFloatRegs).map (⟨cls, ·, 0⟩)
  | .VecRegClass => if vecMode = .Full then p.vecRegIds else []
  | .VecElemClass => if vecMode = .Elem then p.vecRegIds.flatMap p.getRegElemIds else []
  | .VecPredRegClass => (List.range p.numPhysicalVecPredRegs).map (⟨cls, ·, 0⟩)
  | .CCRegClass => (List.range p.numPhysicalCCRegs).map (⟨cls, ·, 0⟩)
  | .MiscRegClass => []

end Params

/-! ## The map of one class -/

/-- `SimpleFreeList::getReg` -/
def SimpleFreeList.getReg : List PhysRegId → Except Err (PhysRegId × List PhysRegId)
  | [] => .error .assertion
  | free_reg :: freeRegs => .ok (free_reg, freeRegs)

/-- What `SimpleRenameMap::rename` reads and writes: the map, its free list and the pinned writes of the registers. -/
structure SimpleRenameMap where
  map : List PhysRegId
  freeList : List PhysRegId
  numPinnedWrites : PhysRegId → Int

/-- `RenameInfo`: the new and the previous physical register. -/
abbrev RenameInfo := PhysRegId × PhysRegId

namespace SimpleRenameMap

variable (p : Params) (m : SimpleRenameMap)

/-- `map[i]` -/
def entry (i : Nat) : Except Err PhysRegId :=
  match m.map[i]? with
  | some phys_reg => .ok phys_reg
  | none => .error .outOfBounds

def setEntry (arch_reg : RegId) (phys_reg : PhysRegId) : Except Err SimpleRenameMap :=
  if m.map.length < p.flatIndex arch_reg then .error .assertion
  else if m.map.length = p.flatIndex arch_reg then .error .outOfBounds
  else .ok { m with map := m.map.set (p.flatIndex arch_reg) phys_reg }

/-- `SimpleRenameMap::rename`, of the map of the class of the register. -/
def rename (arch_reg : RegId) : Except Err (RenameInfo × SimpleRenameMap) := do
  let prev_reg ← m.entry (p.flatIndex arch_reg)
  if arch_reg.eq (p.zeroReg arch_reg.classValue) then
    if p.isZeroReg prev_reg then .ok ((prev_reg, prev_reg), m) else .error .assertion
  else if 0 < m.numPinnedWrites prev_reg then
    -- a pinned register keeps its mapping, and has one write less to come
    if arch_reg.numPinnedWrites = 0 then
      .ok ((prev_reg, prev_reg),
        { m with numPinnedWrites := Function.update m.numPinnedWrites prev_reg (m.numPinnedWrites prev_reg - 1) })
    else .error .assertion
  else
    let (renamed_reg, freeRegs) ← SimpleFreeList.getReg m.freeList
    .ok ((renamed_reg, prev_reg),
      { map := m.map.set (p.flatIndex arch_reg) renamed_reg
        freeList := freeRegs
        numPinnedWrites := Function.update m.numPinnedWrites renamed_reg arch_reg.numPinnedWrites })

end SimpleRenameMap

/-! ## The rename stage -/

structure RenameHistory where
  instSeqNum : Nat
  archReg : RegId
  newPhysReg : PhysRegId
  prevPhysReg : PhysRegId
  deriving DecidableEq

/-- An instruction, as renaming sees it. -/
structure DynInst where
  seqNum : Nat
  destRegs : List RegId

/-- `numIntDestRegs`, `numFPDestRegs`, … -/
def DynInst.numDestRegs (inst : DynInst) (cls : RegClass) : Nat := inst.destRegs.countP fun r => r.classValue = cls

/-- The vector mode of the CPU and its maps, the rename map (`UnifiedRenameMap`), the free list (`UnifiedFreeList`) and
the history buffer, newest first. -/
structure DefaultRename (p : Params) where
  vecMode : VecMode
  renameMap : RegClass → List PhysRegId
  freeList : RegClass → List PhysRegId
  numPinnedWrites : PhysRegId → Int
  historyBuffer : List RenameHistory

namespace DefaultRename

variable {p : Params} (s : DefaultRename p)

/-- `intMap`, `floatMap`, … -/
def classMap (cls : RegClass) : SimpleRenameMap := ⟨s.renameMap cls, s.freeList cls, s.numPinnedWrites⟩

/-- The state with the map of a class changed. -/
def setClassMap (cls : RegClass) (m : SimpleRenameMap) : DefaultRename p :=
  { s with
    renameMap := Function.update s.renameMap cls m.map
    freeList := Function.update s.freeList cls m.freeList
    numPinnedWrites := m.numPinnedWrites }

/-- The assertion on the vector mode. -/
def modeOk (vecMode : VecMode) : RegClass → Bool
  | .VecRegClass => vecMode = .Full
  | .VecElemClass => vecMode = .Elem
  | _ => true

/-- `PhysRegFile::getMiscRegId` -/
def getMiscRegId (p : Params) (reg_idx : Nat) : Except Err PhysRegId :=
  if reg_idx < p.NumMiscRegs then .ok ⟨.MiscRegClass, reg_idx, 0⟩ else .error .outOfBounds

/-- `UnifiedRenameMap::rename` -/
def rename (arch_reg : RegId) : Except Err (RenameInfo × DefaultRename p) :=
  if arch_reg.classValue = .MiscRegClass then do
    let phys_reg ← getMiscRegId p (p.flatIndex arch_reg)
    .ok ((phys_reg, phys_reg), s)
  else if ¬ modeOk s.vecMode arch_reg.classValue then .error .assertion
  else do
    let (info, m) ← (s.classMap arch_reg.classValue).rename p arch_reg
    .ok (info, s.setClassMap arch_reg.classValue m)

/-- `UnifiedRenameMap::setEntry` -/
def setEntry (arch_reg : RegId) (phys_reg : PhysRegId) : Except Err (DefaultRename p) :=
  if arch_reg.classValue = .MiscRegClass then do
    let lookup ← getMiscRegId p (p.flatIndex arch_reg)
    if phys_reg = lookup then .ok s else .error .assertion
  else if phys_reg.classValue ≠ arch_reg.classValue then .error .assertion
  else if ¬ modeOk s.vecMode arch_reg.classValue then .error .assertion
  else do
    let m ← (s.classMap arch_reg.classValue).setEntry p arch_reg phys_reg
    .ok (s.setClassMap arch_reg.classValue m)

/-- `UnifiedFreeList::addReg` -/
def addReg (freed_reg : PhysRegId) : Except Err (DefaultRename p) :=
  if freed_reg.classValue = .MiscRegClass then .error .panic
  else .ok { s with
    freeList := Function.update s.freeList freed_reg.classValue (s.freeList freed_reg.classValue ++ [freed_reg]) }

/-- `UnifiedRenameMap::canRename` -/
def canRename (inst : DynInst) : Bool :=
  inst.numDestRegs .IntRegClass ≤ (s.freeList .IntRegClass).length &&
    inst.numDestRegs .FloatRegClass ≤ (s.freeList .FloatRegClass).length &&
    inst.numDestRegs .VecRegClass ≤ (s.freeList .VecRegClass).length &&
    inst.numDestRegs .VecElemClass ≤ (s.freeList .VecElemClass).length &&
    inst.numDestRegs .VecPredRegClass ≤ (s.freeList .VecPredRegClass).length &&
    inst.numDestRegs .CCRegClass ≤ (s.freeList .CCRegClass).length

/-- One turn of the loop of `renameDestRegs`: `flattenRegId` is that of the thread context. -/
def renameDestReg (flattenRegId : RegId → RegId) (seqNum : Nat) (dest_reg : RegId) : Except Err (DefaultRename p) := do
  let flat_dest_regid := { flattenRegId dest_reg with numPinnedWrites := dest_reg.numPinnedWrites }
  let (rename_result, s') ← s.rename flat_dest_regid
  .ok { s' with historyBuffer := ⟨seqNum, flat_dest_regid, rename_result.1, rename_result.2⟩ :: s'.historyBuffer }

/-- `DefaultRename::renameDestRegs` -/
def renameDestRegs (flattenRegId : RegId → RegId) (inst : DynInst) : Except Err (DefaultRename p) :=
  inst.destRegs.foldlM (fun s dest_reg => s.renameDestReg flattenRegId inst.seqNum dest_reg) s

/-- One turn of the loop of `doSquash`, for the newest entry `hb_it`. -/
def undo (hb_it : RenameHistory) : Except Err (DefaultRename p) :=
  if hb_it.newPhysReg ≠ hb_it.prevPhysReg then do
    let s ← s.setEntry hb_it.archReg hb_it.prevPhysReg
    s.addReg hb_it.newPhysReg
  else .ok s

/-- The loop of `doSquash` over the history buffer. -/
def squashLoop (squashed_seq_num : Nat) : List RenameHistory → DefaultRename p → Except Err (DefaultRename p)
  | [], s => .ok s
  | hb_it :: hb, s =>
    if squashed_seq_num < hb_it.instSeqNum then do
      let s ← s.undo hb_it
      squashLoop squashed_seq_num hb { s with historyBuffer := hb }
    else .ok s

/-- `UnifiedRenameMap::switchMode`. The switch to `Elem` splits the mapping of each vector register; the one to `Full`
moves what the elements hold to the first registers of the file and leaves the map of the vector registers as it is. -/
def switchMode (newVecMode : VecMode) : Except Err (DefaultRename p) :=
  match newVecMode, s.vecMode with
  | .Elem, .Full =>
    let vecMap := s.renameMap .VecRegClass
    if vecMap.length < p.NumVecRegs then .error .outOfBounds
    else
      let renameMap := Function.update s.renameMap .VecElemClass (vecMap.flatMap p.getRegElemIds)
      .ok { s with vecMode := .Elem, renameMap := renameMap }
  | .Full, .Elem => .ok { s with vecMode := .Full }
  | _, _ => .ok s

/-- `UnifiedRenameMap::switchFreeList` -/
def switchFreeList : Except Err (DefaultRename p) :=
  let vecs := s.freeList .VecRegClass
  let elems := s.freeList .VecElemClass
  match s.vecMode with
  | .Elem =>
    if elems ≠ [] ∨ vecs.length ≠ p.numPhysicalVecRegs - p.NumVecRegs then .error .panic
    else
      let freeList := Function.update s.freeList .VecRegClass []
      .ok { s with freeList := Function.update freeList .VecElemClass (vecs.flatMap p.getRegElemIds) }
  | .Full =>
    if vecs ≠ [] ∨ elems.length ≠
        p.numPhysicalVecRegs * p.NumVecElemPerVecReg - p.NumVecRegs * p.NumVecElemPerVecReg then .error .panic
    else
      let freeList := Function.update s.freeList .VecElemClass []
      .ok { s with freeList := Function.update freeList .VecRegClass (p.vecRegIds.drop p.NumVecRegs) }

/-- `FullO3CPU::switchRenameMode`: `new_mode` is that of the program counter of the thread. -/
def switchRenameMode (new_mode : VecMode) : Except Err (DefaultRename p) :=
  if new_mode ≠ s.vecMode then do
    let s ← s.switchMode new_mode
    s.switchFreeList
  else .ok s

/-- `DefaultRename::doSquash` -/
def doSquash (squashed_seq_num : Nat) (new_mode : VecMode) : Except Err (DefaultRename p) := do
  let s ← squashLoop squashed_seq_num s.historyBuffer s
  s.switchRenameMode new_mode

/-- One turn of the loop of `removeFromHistory`, for the oldest entry `hb_it`. -/
def free (hb_it : RenameHistory) : Except Err (DefaultRename p) :=
  if hb_it.newPhysReg ≠ hb_it.prevPhysReg then s.addReg hb_it.prevPhysReg else .ok s

/-- The loop of `removeFromHistory` over the history buffer, from its end. -/
def commitLoop (inst_seq_num : Nat) : List RenameHistory → DefaultRename p → Except Err (DefaultRename p)
  | [], s => .ok s
  | hb_it :: hb, s =>
    if hb_it.instSeqNum ≤ inst_seq_num then do
      let s ← s.free hb_it
      commitLoop inst_seq_num hb { s with historyBuffer := hb.reverse }
    else .ok s

/-- `DefaultRename::removeFromHistory` -/
def removeFromHistory (inst_seq_num : Nat) : Except Err (DefaultRename p) :=
  commitLoop inst_seq_num s.historyBuffer.reverse s

/-- The loop of the constructor of `FullO3CPU` for one class: the entries of the map, in order, get the first free
registers. -/
def initMap : Nat → List PhysRegId → Except Err (List PhysRegId × List PhysRegId)
  | 0, freeRegs => .ok ([], freeRegs)
  | size + 1, freeRegs => do
    let (phys_reg, freeRegs) ← SimpleFreeList.getReg freeRegs
    let (map, freeRegs) ← initMap size freeRegs
    .ok (phys_reg :: map, freeRegs)

/-- The state is the one that the constructor of `FullO3CPU` leaves. -/
def Init (s : DefaultRename p) : Prop :=
  s.vecMode = p.vecMode ∧
    (∀ cls, initMap (p.numRegs p.vecMode cls) (p.regIds p.vecMode cls) = .ok (s.renameMap cls, s.freeList cls)) ∧
    s.numPinnedWrites = (fun _ => 0) ∧ s.historyBuffer = []

end DefaultRename

/-! ## Runs -/

/-- An instruction that was renamed: its entries of the history buffer, newest first, and the map right after it. -/
structure Renamed where
  seqNum : Nat
  entries : List RenameHistory
  after : RegClass → List PhysRegId

/-- The rename stage with its past: the instructions that are renamed and not squashed (newest first), the youngest one
that is committed, and the map before all of them. -/
structure Run (p : Params) where
  rename : DefaultRename p
  insts : List Renamed
  committed : Nat
  first : RegClass → List PhysRegId

inductive Event
  | rename (flattenRegId : RegId → RegId) (inst : DynInst)
  /-- `new_mode` is the vector mode of the program counter at the end of the squash. -/
  | squash (squashed_seq_num : Nat) (new_mode : VecMode)
  | commit (inst_seq_num : Nat)

namespace Run

variable {p : Params} (s : Run p)

/-- A register of the ISA, with an entry in the map of its class, and without pinned writes. -/
def Valid (p : Params) (vecMode : VecMode) (flattenRegId : RegId → RegId) (r : RegId) : Prop :=
  r.numPinnedWrites = 0 ∧ (flattenRegId r).classValue = r.classValue ∧
    p.flatIndex (flattenRegId r) < p.archRegs vecMode r.classValue ∧
    (r.classValue ≠ .VecElemClass → (flattenRegId r).elemIndex = 0)

instance (vecMode : VecMode) (flattenRegId : RegId → RegId) (r : RegId) : Decidable (Valid p vecMode flattenRegId r) :=
  inferInstanceAs (Decidable (_ ∧ _))

/-- Instructions are renamed in their order and when enough registers are free; what is committed is not squashed. -/
def Ok : Event → Prop
  | .rename flattenRegId inst =>
    (∀ i ∈ s.insts, i.seqNum < inst.seqNum) ∧ s.committed < inst.seqNum ∧
      (∀ r ∈ inst.destRegs, Valid p s.rename.vecMode flattenRegId r) ∧ s.rename.canRename inst = true
  | .squash squashed_seq_num _ => s.committed ≤ squashed_seq_num
  | .commit _ => True

instance (e : Event) : Decidable (s.Ok e) :=
  match e with
  | .rename _ _ => inferInstanceAs (Decidable (_ ∧ _))
  | .squash _ _ => inferInstanceAs (Decidable (_ ≤ _))
  | .commit _ => inferInstanceAs (Decidable True)

/-- The map right after the youngest instruction whose sequence number is at most `n`. -/
def mapAfter (n : Nat) : RegClass → List PhysRegId :=
  ((s.insts.find? fun i => i.seqNum ≤ n).map Renamed.after).getD s.first

def apply : Event → Except Err (Run p)
  | .rename flattenRegId inst => do
    let rename ← s.rename.renameDestRegs flattenRegId inst
    let entries := rename.historyBuffer.take (rename.historyBuffer.length - s.rename.historyBuffer.length)
    .ok { s with rename := rename, insts := ⟨inst.seqNum, entries, rename.renameMap⟩ :: s.insts }
  | .squash squashed_seq_num new_mode => do
    let rename ← s.rename.doSquash squashed_seq_num new_mode
    .ok { s with rename := rename, insts := s.insts.filter fun i => i.seqNum ≤ squashed_seq_num }
  | .commit inst_seq_num => do
    let rename ← s.rename.removeFromHistory inst_seq_num
    .ok { s with rename := rename, committed := max s.committed inst_seq_num }

/-- The run before the first instruction. -/
def start (p : Params) : Run p :=
  let renameMap := fun cls => (p.regIds p.vecMode cls).take (p.numRegs p.vecMode cls)
  ⟨⟨p.vecMode, renameMap, fun cls => (p.regIds p.vecMode cls).drop (p.numRegs p.vecMode cls), fun _ => 0, []⟩, [], 0,
    renameMap⟩

/-- The runs of renames, squashes and commits. -/
def system (p : Params) : System (Run p) Event where
  init s := s.rename.Init ∧ s.insts = [] ∧ s.committed = 0 ∧ s.first = s.rename.renameMap
  step s e := if s.Ok e then (s.apply e).toOption else none

/-- Squashes keep the vector mode. -/
def ModeKept (s : Run p) : Event → Prop
  | .squash _ new_mode => new_mode = s.rename.vecMode
  | _ => True

instance (s : Run p) (e : Event) : Decidable (s.ModeKept e) :=
  match e with
  | .squash _ _ => inferInstanceAs (Decidable (_ = _))
  | .rename _ _ | .commit _ => inferInstanceAs (Decidable True)

end Run

end Salam.O3
