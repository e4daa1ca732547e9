import Mathlib.Logic.Function.Basic
import Mathlib.Tactic.Simps.Basic
import Salam.Engine.Instruction
import Salam.Lib.System

/-!
# Dynamic instances, queues and registers

The part of `LLVMInterface` that the dependence mechanism works on: the clones that `scheduleBB` makes of the nodes
of a block, the lists `reservation`, `computeQueue`, `readQueue` and `writeQueue` of pointers to them, and the
register values. Clones are numbered in the order in which they are made, which is program order, and the number
stands for the pointer.

`log` records what happened, for the statements about runs only; no operation reads it.

`Act` lists what `tick()`, `readCommit()` and `writeCommit()` do to this part, one instance at a time, and `step`
performs one of them. `core P` is the system in which nodes of the program `P` are scheduled in any order and
everything else happens in any order its guards allow; the runs of `tick()` are among its runs (`Refine.lean`).
-/

namespace Salam.Engine

/-- What happens in a run. `commit` carries the register contents that the commit leaves, `request` the address and
length handed to `CommInterface`. -/
inductive Event
  | scheduleBB (bb : Label)
  | register (parent child : Nat)
  | signal (parent child : Nat)
  | launch (id : Nat)
  | request (id : Nat) (addr : Word) (len : Nat)
  | commit (id : Nat) (value : Option Word)
  | branch (id : Nat) (dest : Label)
  | finish
  deriving DecidableEq

/-- A clone of a node, with the fields that change at run time. -/
structure Inst where
  node : Node
  ops : List Word
  activeParents : Int
  parents : List Nat
  children : List Nat
  currCycle : Nat
  finalResult : Word
  activePtr : Word
  prevBB : Label

/-- `createClone` of a node of a block: the static node has no links and never ran. -/
def Inst.clone (n : Node) : Inst where
  node := n
  ops := n.dependencies.map fun _ => 0
  activeParents := n.baseParents
  parents := []
  children := []
  currCycle := 0
  finalResult := 0
  activePtr := match n.body with | .gep _ _ _ _ junk _ => junk | _ => 0
  prevBB := ""

/-- `fetchDependency(Register *)`: the operands held in `r` take its value, unless the instance itself writes `r`. -/
def Inst.fetch (x : Inst) (r : Reg) (v : Word) : Inst :=
  { x with
    ops := if x.node.returnRegister = some r then x.ops
      else List.zipWith (fun d o => if d = some r then v else o) x.node.dependencies x.ops
    activeParents := x.activeParents - 1 }

/-- The value that `compute()` hands to `setResult()`. -/
def Inst.result (x : Inst) (regs : Reg → Word) : Except Err Word :=
  match x.node.body with
  | .compute _ _ _ _ eval => .ok (eval x.ops)
  | .gep _ _ _ _ _ eval => .ok (eval x.activePtr x.ops)
  | .phi _ _ type incoming junk => phiCompute regs type x.prevBB junk incoming
  | _ => .ok x.finalResult

/-- The address of the request of a load or a store. -/
def Inst.addr (x : Inst) : Word := x.ops.headD 0

/-- The length of the request of a load or a store. -/
def Inst.len (x : Inst) : Nat :=
  match x.node.body with
  | .load _ k _ => k
  | .store _ (.reg _ k) | .store _ (.imm _ k) => k
  | _ => 0

/-- `_Dest` after `Br::compute` or `LLVMSwitch::compute`: a branch reads its condition register, a switch the
captured operand. -/
def Inst.dest (x : Inst) (regs : Reg → Word) : Option Label :=
  match x.node.body with
  | .br d => some d
  | .condBr c t f => some (if regs c = 0 then f else t)
  | .switch _ d cases => some (switchDest (x.ops.headD 0) d cases)
  | _ => none

structure Core where
  heap : Nat → Inst
  next : Nat
  reservation : List Nat
  computeQueue : List Nat
  readQueue : List Nat
  writeQueue : List Nat
  /-- The register values that `constructBBList` sets up. -/
  init : Reg → Word
  regs : Reg → Word
  log : List Event

namespace Core

def node (c : Core) (id : Nat) : Node := (c.heap id).node

/-- The instances that have not left the lists. -/
def live (c : Core) : List Nat := c.reservation ++ c.computeQueue ++ c.readQueue ++ c.writeQueue

@[simps -fullyApplied next reservation computeQueue readQueue writeQueue init regs log]
def modify (c : Core) (id : Nat) (f : Inst → Inst) : Core :=
  { c with heap := Function.update c.heap id (f (c.heap id)) }

@[simps -fullyApplied]
def emit (c : Core) (e : Event) : Core := { c with log := c.log ++ [e] }

/-! ## Searching for a parent -/

/-- The last element that satisfies `p`, as the backward loops find it. -/
def lastWhere (p : Nat → Bool) (l : List Nat) : Option Nat := l.reverse.find? p

/-- The two overloads of `findParent`: the reservation table without its last entry, which is the node being
scheduled, then the compute queue, then the read queue. -/
def findParent (c : Core) (p : Node → Bool) : Option Nat :=
  let q := fun id => p (c.node id)
  (lastWhere q c.reservation.dropLast).or ((lastWhere q c.computeQueue).or (lastWhere q c.readQueue))

def findParentReg (c : Core) (r : Reg) : Option Nat := c.findParent fun n => n.returnRegister = some r

def findParentLine (c : Core) (line : String) : Option Nat := c.findParent fun n => n.line = line

/-- `detectRAW`: a store through the same pointer register, in the reservation table and then in the write queue. -/
def detectRAW (c : Core) (r : Reg) : Option Nat :=
  (lastWhere (fun id => (c.node id).isStore && (c.node id).rawCheck = some r) c.reservation.dropLast).or
    (lastWhere (fun id => (c.node id).rawCheck = some r) c.writeQueue)

/-- `registerParent` and `registerChild`. -/
def link (c : Core) (child parent : Nat) : Core :=
  ((c.modify child fun x => { x with parents := x.parents ++ [parent], activeParents := x.activeParents + 1 }).modify
    parent fun x => { x with children := x.children ++ [child] }).emit (.register parent child)

def linkOpt (c : Core) (child : Nat) : Option Nat → Core
  | some p => c.link child p
  | none => c

/-! ## `scheduleBB`, one node -/

/-- `reservation.push_back(createClone(node))`. -/
def push (c : Core) (n : Node) : Core :=
  { c with
    heap := Function.update c.heap c.next (Inst.clone n)
    next := c.next + 1
    reservation := c.reservation ++ [c.next] }

/-- Search for other instances of the same instruction. -/
def linkLine (c : Core) (n : Node) (id : Nat) : Core :=
  if n.returnRegister.isSome then c.linkOpt id (c.findParentLine n.line) else c

/-- The store a load has to wait for. -/
def linkRAW (c : Core) (n : Node) (id : Nat) : Core :=
  match n.body with
  | .load _ _ p => c.linkOpt id (c.detectRAW p)
  | _ => c

/-- The base register of a getelementptr: a parent if its writer is in flight, else its value in `_ActivePtr`. -/
def linkBase (c : Core) (n : Node) (id : Nat) : Core :=
  match n.body with
  | .gep _ _ p .. =>
    match c.findParentReg p with
    | some q => c.link id q
    | none => c.modify id fun x => { x with activePtr := c.regs p }
  | _ => c

/-- `fetchDependency(int)`: `_Ops.at(j) = _Dependencies.at(j)->getValue()`. -/
def fetchIdx (c : Core) (id : Nat) (j : Nat) : Core :=
  c.modify id fun x =>
    match x.node.dependencies[j]? with
    | some (some r) => { x with ops := x.ops.set j (c.regs r) }
    | _ => x

/-- One entry of the list of runtime dependencies. -/
def linkDep (id : Nat) (c : Core) (d : Option Reg × Nat) : Core :=
  match d.1 with
  | none => c
  | some r =>
    match c.findParentReg r with
    | some p => c.link id p
    | none => c.fetchIdx id d.2

/-- The loop body of `scheduleBB` for the node `n`, `prev` being the name of the previous block. -/
def scheduleNode (c : Core) (prev : Label) (n : Node) : Core :=
  let id := c.next
  let c := c.push n
  let c := c.linkLine n id
  let c := c.linkRAW n id
  let c := c.linkBase n id
  let c := if n.isPhi then c.modify id fun x => { x with prevBB := prev } else c
  (n.runtimeDependencies prev).zipIdx.foldl (linkDep id) c

/-! ## `compute`, `commit` and the removal from a list -/

def signalChildren (c : Core) (id : Nat) : Core :=
  match (c.node id).returnRegister with
  | some r => (c.heap id).children.foldl (fun c k => (c.modify k fun x => x.fetch r (c.regs r)).emit (.signal id k)) c
  | none => (c.heap id).children.foldl
      (fun c k => (c.modify k fun x => { x with activeParents := x.activeParents - 1 }).emit (.signal id k)) c

def removeParents (c : Core) (id : Nat) : Core := c.modify id fun x => { x with parents := [], children := [] }

/-- `_ReturnRegister->setValue(&_FinalResult)`. -/
def writeBack (c : Core) (id : Nat) : Core :=
  match (c.node id).returnRegister with
  | some r =>
    let v := memcpy (c.node id).returnSize (c.regs r) (c.heap id).finalResult
    { c with regs := Function.update c.regs r v, log := c.log ++ [.commit id (some v)] }
  | none => c.emit (.commit id none)

/-- `InstructionBase::commit()` and whether it returns true. -/
def commit (c : Core) (id : Nat) : Core × Bool :=
  if (c.node id).returnRegister.isSome then
    if (c.heap id).currCycle ≥ (c.node id).maxCycle then ((c.writeBack id).signalChildren id, true)
    else (c.modify id fun x => { x with currCycle := x.currCycle + 1 }, false)
  else ((c.writeBack id).signalChildren id, false)

/-- `setResult(Data)`. -/
def setResult (c : Core) (id : Nat) (v : Word) : Core :=
  c.modify id fun x => { x with finalResult := memcpy x.node.returnSize x.finalResult v }

/-- `compute()` of an instance on a functional unit. -/
def compute (c : Core) (id : Nat) : Except Err Core :=
  match (c.heap id).result c.regs with
  | .ok v => .ok ((c.setResult id v).emit (.launch id))
  | .error e => .error e

/-- `compute()` of a load or a store: the request goes to `CommInterface`. -/
def computeMem (c : Core) (id : Nat) : Core :=
  (c.emit (.launch id)).emit (.request id (c.heap id).addr (c.heap id).len)

end Core

/-! ## The steps -/

/-- What the engine does to the instances. -/
inductive Act
  | enterBB (bb : Label)
  | schedule (prev : Label) (n : Node)
  | launch (id : Nat)
  | bump (id : Nat)
  | commit (id : Nat)
  | launchLoad (id : Nat)
  | launchStore (id : Nat)
  | readCommit (id : Nat) (data : Word)
  | writeCommit (id : Nat)
  | branch (id : Nat)
  | finish (id : Nat)

namespace Core

/-- An instance of the reservation table that `tick()` may launch. -/
def ready (c : Core) (id : Nat) : Bool := id ∈ c.reservation && (c.heap id).activeParents = 0

/-- The load `id` leaves the read queue: `readCommit()`. -/
def readCommit (c : Core) (id : Nat) (data : Word) : Core :=
  let c := (((c.setResult id data).commit id).1).removeParents id
  { c with readQueue := c.readQueue.erase id }

/-- The store `id` leaves the write queue: `writeCommit()`. -/
def writeCommit (c : Core) (id : Nat) : Core :=
  let c := ((c.commit id).1).removeParents id
  { c with writeQueue := c.writeQueue.erase id }

/-- One act, when its guard holds. -/
def step (c : Core) : Act → Option Core
  | .enterBB bb => some (c.emit (.scheduleBB bb))
  | .schedule prev n => some (c.scheduleNode prev n)
  | .launch id =>
    if c.ready id && (c.node id).onUnit then
      match c.compute id with
      | .ok c => some { c with reservation := c.reservation.erase id, computeQueue := c.computeQueue ++ [id] }
      | .error _ => none
    else none
  | .bump id =>
    if id ∈ c.computeQueue ∧ (c.heap id).currCycle < (c.node id).maxCycle then
      some (c.modify id fun x => { x with currCycle := x.currCycle + 1 })
    else none
  | .commit id =>
    if id ∈ c.computeQueue ∧ (c.node id).maxCycle ≤ (c.heap id).currCycle then
      let c := ((c.writeBack id).signalChildren id).removeParents id
      some { c with computeQueue := c.computeQueue.erase id }
    else none
  | .launchLoad id =>
    if c.ready id && (c.node id).isLoad then
      let c := c.computeMem id
      some { c with reservation := c.reservation.erase id, readQueue := c.readQueue ++ [id] }
    else none
  | .launchStore id =>
    if c.ready id && (c.node id).isStore then
      let c := c.computeMem id
      some { c with reservation := c.reservation.erase id, writeQueue := c.writeQueue ++ [id] }
    else none
  | .readCommit id data => if id ∈ c.readQueue then some (c.readCommit id data) else none
  | .writeCommit id => if id ∈ c.writeQueue then some (c.writeCommit id) else none
  | .branch id =>
    if c.ready id then
      match (c.heap id).dest c.regs with
      | some d =>
        let c := (c.emit (.launch id)).emit (.branch id d)
        some { c with reservation := c.reservation.erase id }
      | none => none
    else none
  | .finish id =>
    if id ∈ c.reservation && (c.node id).isRet then
      let c := c.emit .finish
      some { c with reservation := c.reservation.erase id }
    else none

/-- The state before anything is scheduled. -/
def start (init : Reg → Word) : Core where
  heap := fun _ => Inst.clone ⟨"", 0, .ret⟩
  next := 0
  reservation := []
  computeQueue := []
  readQueue := []
  writeQueue := []
  init := init
  regs := init
  log := []

end Core

/-- Instances of the nodes of `P` under every interleaving of the acts. -/
def core : System Core Act where
  init c := ∃ init, c = Core.start init
  step := Core.step

/-- Only nodes of `P` are scheduled. -/
def ofProgram (P : Program) (_ : Core) : Act → Prop
  | .schedule _ n => n ∈ P.nodes
  | _ => True

end Salam.Engine
