import Salam.Engine.Core

/-!
# `LLVMInterface::tick()`

`tick()` with its two loops, one iteration at a time. `Pc` says where in `tick()` the engine is: in the pass over the
compute queue at index `i`, inside `scheduleBB` with the nodes still to add, before the lockstep test, in the scan of
the reservation table at index `i`, or outside `tick()`. `tickStep` is one iteration, or the end of a loop; the
memory answers only outside `tick()`.

`pipelined` does not occur: its two branches in the pass over the compute queue are the same text.
-/

namespace Salam.Engine

/-- The parameters of `LLVMInterface` that `tick()` reads. A limit is `-1` for no limit. -/
structure Config where
  lockstep : Bool
  schedulingThreshold : Nat
  limit : FunctionalUnit → Int

/-- The default parameters, without lockstep. -/
def Config.unlimited : Config := ⟨false, 10000, fun _ => -1⟩

/-- `unlimitedMode()`: every limit is `-1`; `conversion` is not among those tested. -/
def Config.unlimitedMode (cfg : Config) : Bool :=
  [.counter, .intAdder, .intMulti, .intShifter, .intBitwise, .fpSpAdder, .fpDpAdder, .fpSpMulti, .fpSpDivid,
    .fpDpMulti, .fpDpDivid, .compare, .getElementPtr].all fun u => cfg.limit u = -1

/-- The counters of `_FunctionalUnits`. -/
abbrev Units := FunctionalUnit → Nat

/-- One more unit of class `u` in use. -/
def Units.use (k : Units) (u : FunctionalUnit) : Units := Function.update k u (k u + 1)

/-- The classes that `limitedFU` and `updateFU` have a case for. -/
def FunctionalUnit.counted : FunctionalUnit → Bool
  | .fpSpDivid | .fpDpDivid | .other => false
  | _ => true

def updateFU (k : Units) (u : FunctionalUnit) : Units := k.use (if u.counted then u else .other)

/-- `limitedFU`: a unit of class `u` is taken if there is one left. -/
def limitedFU (cfg : Config) (k : Units) (u : FunctionalUnit) : Units × Bool :=
  if u.counted then
    if cfg.limit u = -1 ∨ (k u : Int) < cfg.limit u then (k.use u, true) else (k, false)
  else (k, true)

/-- `unlimitedFU ? updateFU(u) : limitedFU(u)`: what an instance has to get through to use a unit of class `u`. -/
def takeUnit (cfg : Config) (k : Units) (u : FunctionalUnit) : Units × Bool :=
  if cfg.unlimitedMode then (updateFU k u, true) else limitedFU cfg k u

/-- The counters that `finalize()` reports and those that `tick()` keeps for them. -/
structure Stats where
  cycle : Nat
  stalls : Nat
  execnodes : Int
  loadOnly : Nat
  storeOnly : Nat
  compOnly : Nat
  loadStore : Nat
  loadComp : Nat
  loadStoreComp : Nat
  storeComp : Nat
  loadOnlyStall : Nat
  storeOnlyStall : Nat
  compOnlyStall : Nat
  loadStoreStall : Nat
  loadCompStall : Nat
  loadStoreCompStall : Nat
  storeCompStall : Nat
  memoryLoads : Nat
  memoryStores : Nat
  maxFU : Units
  sumFU : Units

/-- What this tick has launched so far and what was in flight when it began. -/
structure Flags where
  loadOpScheduled : Bool
  storeOpScheduled : Bool
  compOpScheduled : Bool
  loadInFlight : Nat
  storeInFlight : Nat
  compInFlight : Nat

/-- `occupancy()`. -/
def Stats.occupancy (t : Stats) (f : Flags) : Stats :=
  match f.loadOpScheduled, f.storeOpScheduled, f.compOpScheduled with
  | true, true, true => { t with loadStoreComp := t.loadStoreComp + 1 }
  | true, true, false => { t with loadStore := t.loadStore + 1 }
  | true, false, true => { t with loadComp := t.loadComp + 1 }
  | true, false, false => { t with loadOnly := t.loadOnly + 1 }
  | false, true, true => { t with storeComp := t.storeComp + 1 }
  | false, true, false => { t with storeOnly := t.storeOnly + 1 }
  | false, false, true => { t with compOnly := t.compOnly + 1 }
  | false, false, false =>
    let t := { t with stalls := t.stalls + 1 }
    match decide (0 < f.loadInFlight), decide (0 < f.storeInFlight), decide (0 < f.compInFlight) with
    | true, true, true => { t with loadStoreCompStall := t.loadStoreCompStall + 1 }
    | true, true, false => { t with loadStoreStall := t.loadStoreStall + 1 }
    | true, false, true => { t with loadCompStall := t.loadCompStall + 1 }
    | true, false, false => { t with loadOnlyStall := t.loadOnlyStall + 1 }
    | false, true, true => { t with storeCompStall := t.storeCompStall + 1 }
    | false, true, false => { t with storeOnlyStall := t.storeOnlyStall + 1 }
    | false, false, true => { t with compOnlyStall := t.compOnlyStall + 1 }
    | false, false, false => t

/-- Where the engine is. After `scheduleBB` the scan goes on at an index, or the lockstep test follows. -/
inductive Pc
  | idle
  | compute (i : Nat)
  | sched (nodes : List Node) (scanAt : Option Nat)
  | lockstep
  | scan (i : Nat)

structure St where
  core : Core
  pc : Pc
  currBB : BasicBlock
  prevBB : BasicBlock
  running : Bool
  units : Units
  flags : Flags
  stats : Stats

namespace St

/-- The head of `tick()`, with `clearFU()`. -/
def tickBegin (s : St) : St :=
  { s with
    pc := .compute 0
    units := fun _ => 0
    flags := ⟨false, false, false, s.core.readQueue.length, s.core.writeQueue.length, s.core.computeQueue.length⟩
    stats := { s.stats with
      cycle := s.stats.cycle + 1
      maxFU := fun u => max (s.stats.maxFU u) (s.units u)
      sumFU := fun u => s.stats.sumFU u + s.units u } }

/-- The tail of `tick()`: `occupancy()`; the next tick is scheduled as long as `running` holds. -/
def tickEnd (s : St) : St := { s with pc := .idle, stats := s.stats.occupancy s.flags }

/-- The call `scheduleBB(bb)`. -/
def scheduleBB (s : St) (bb : BasicBlock) (scanAt : Option Nat) : St :=
  { s with core := s.core.emit (.scheduleBB bb.name), pc := .sched bb.nodes scanAt }

/-- `if (unlimitedFU) updateFU(FU)`. -/
def charge (s : St) (cfg : Config) (u : FunctionalUnit) : St :=
  if cfg.unlimitedMode then { s with units := updateFU s.units u } else s

/-- One iteration of the loop over the compute queue. The unit is looked up in the reservation table. -/
def computePass (s : St) (cfg : Config) (i : Nat) : Except Err St :=
  match s.core.computeQueue[i]? with
  | none => .ok (if s.core.reservation.isEmpty then s.scheduleBB s.currBB none else { s with pc := .lockstep })
  | some id =>
    match s.core.reservation[i]? with
    | none => .error .outOfRange
    | some r =>
      let k := takeUnit cfg s.units (s.core.node r).functionalUnit
      if k.2 then
        let c := s.core.commit id
        if c.2 then
          let c := c.1.removeParents id
          .ok { s with core := { c with computeQueue := c.computeQueue.eraseIdx i }, units := k.1, pc := .compute i }
        else .ok { s with core := c.1, units := k.1, pc := .compute (i + 1) }
      else .ok { s with units := k.1, pc := .compute (i + 1) }

/-- A load goes to the read queue. -/
def launchLoad (s : St) (cfg : Config) (id : Nat) (i : Nat) : St :=
  let c := s.core.computeMem id
  let s := { s with
    core := { c with readQueue := c.readQueue ++ [id], reservation := c.reservation.eraseIdx i }
    flags := { s.flags with loadOpScheduled := true }
    stats := { s.stats with memoryLoads := s.stats.memoryLoads + 1 }
    pc := .scan i }
  s.charge cfg (s.core.node id).functionalUnit

/-- A store goes to the write queue. -/
def launchStore (s : St) (cfg : Config) (id : Nat) (i : Nat) : St :=
  let c := s.core.computeMem id
  let s := { s with
    core := { c with writeQueue := c.writeQueue ++ [id], reservation := c.reservation.eraseIdx i }
    flags := { s.flags with storeOpScheduled := true }
    stats := { s.stats with memoryStores := s.stats.memoryStores + 1 }
    pc := .scan i }
  s.charge cfg (s.core.node id).functionalUnit

/-- An instance of latency 0 computes and commits at once. -/
def launchZero (s : St) (cfg : Config) (id : Nat) (i : Nat) : Except Err St :=
  match s.core.compute id with
  | .error e => .error e
  | .ok c =>
    let c := (c.commit id).1.removeParents id
    let s := { s with
      core := { c with reservation := c.reservation.eraseIdx i }
      flags := { s.flags with compOpScheduled := true }
      pc := .scan i }
    .ok (s.charge cfg (s.core.node id).functionalUnit)

/-- An instance goes to the compute queue, if it gets a unit. -/
def launchUnit (s : St) (cfg : Config) (id : Nat) (i : Nat) : Except Err St :=
  let k := takeUnit cfg s.units (s.core.node id).functionalUnit
  if k.2 then
    match s.core.compute id with
    | .error e => .error e
    | .ok c =>
      let c := (({ c with computeQueue := c.computeQueue ++ [id] } : Core).commit id).1
      .ok { s with
        core := { c with reservation := c.reservation.eraseIdx i }
        units := k.1
        flags := { s.flags with compOpScheduled := true }
        pc := .scan i }
  else .ok { s with pc := .scan (i + 1) }

/-- A br or switch is taken: the next block is added at the end of the reservation table. -/
def takeBranch (s : St) (P : Program) (cfg : Config) (id : Nat) (i : Nat) : Except Err St :=
  match ((s.core.heap id).dest s.core.regs).bind fun d => (P.findBB d).map fun bb => (d, bb) with
  | none => .error .nullBB
  | some (d, bb) =>
    let c := (s.core.emit (.launch id)).emit (.branch id d)
    let s := (s.charge cfg (s.core.node id).functionalUnit)
    let s := { s with
      core := { c with reservation := c.reservation.eraseIdx i }
      prevBB := s.currBB
      currBB := bb }
    .ok (s.scheduleBB bb (some i))

/-- The ret leaves the table: `finalize()` and `comm->finish()`. -/
def finish (s : St) (i : Nat) : St :=
  let c := s.core.emit .finish
  { s with
    core := { c with reservation := c.reservation.eraseIdx i }
    running := false
    stats := { s.stats with execnodes := (s.stats.cycle : Int) - s.stats.stalls - 1 }
    pc := .scan (i + 1) }

/-- One iteration of the scan of the reservation table. -/
def scanPass (s : St) (P : Program) (cfg : Config) (i : Nat) : Except Err St :=
  match s.core.reservation[i]? with
  | none => .ok s.tickEnd
  | some id =>
    let n := s.core.node id
    if (s.core.heap id).activeParents = 0 then
      if !n.terminator then
        if n.isLoad then .ok (s.launchLoad cfg id i)
        else if n.isStore then .ok (s.launchStore cfg id i)
        else if n.maxCycle = 0 then s.launchZero cfg id i
        else s.launchUnit cfg id i
      else if !n.isRet then
        if s.core.reservation.length < cfg.schedulingThreshold then s.takeBranch P cfg id i
        else .ok { s with pc := .scan (i + 1) }
      -- a ret without active parents would be looked at again for ever
      else .ok s
    else if n.isRet && i == 0 && s.core.computeQueue.isEmpty && s.core.readQueue.isEmpty
        && s.core.writeQueue.isEmpty then .ok (s.finish i)
    else .ok { s with pc := .scan (i + 1) }

/-- One iteration of `tick()`. -/
def tickStep (s : St) (P : Program) (cfg : Config) : Except Err St :=
  match s.pc with
  | .idle => .ok s
  | .compute i => s.computePass cfg i
  | .sched (n :: rest) k =>
    .ok { s with core := s.core.scheduleNode s.prevBB.name n, pc := .sched rest k }
  | .sched [] none => .ok { s with pc := .lockstep }
  | .sched [] (some i) => .ok { s with pc := .scan i }
  | .lockstep =>
    if cfg.lockstep && !(s.core.computeQueue.isEmpty && s.core.readQueue.isEmpty && s.core.writeQueue.isEmpty) then
      .ok s.tickEnd
    else .ok { s with pc := .scan 0 }
  | .scan i => s.scanPass P cfg i

/-- `initialize()`: fresh registers with the values `init`, the entry block as current and previous block, the
counters of the run at zero; then the first `tick()`. The lists are left as they are. -/
def initializeRun (s : St) (entry : BasicBlock) (init : Reg → Word) : St :=
  let z := s.stats
  tickBegin { s with
    core := { Core.start init with
      reservation := s.core.reservation
      computeQueue := s.core.computeQueue
      readQueue := s.core.readQueue
      writeQueue := s.core.writeQueue }
    currBB := entry
    prevBB := entry
    running := true
    units := fun _ => 0
    stats := ⟨0, 0, 0, 0, 0, 0, 0, 0, 0, 0, 0, 0, 0, 0, 0, 0, 0, z.memoryLoads, z.memoryStores, fun _ => 0,
      fun _ => 0⟩ }

/-- The first call of `initialize()`. -/
def boot (entry : BasicBlock) (init : Reg → Word) : St :=
  initializeRun {
    core := Core.start init
    pc := .idle
    currBB := entry
    prevBB := entry
    running := false
    units := fun _ => 0
    flags := ⟨false, false, false, 0, 0, 0⟩
    stats := ⟨0, 0, 0, 0, 0, 0, 0, 0, 0, 0, 0, 0, 0, 0, 0, 0, 0, 0, 0, fun _ => 0, fun _ => 0⟩ } entry init

end St

/-- What drives the engine: its own tick event, the iterations of `tick()`, and the answers of the memory. -/
inductive Ev
  | tick
  | iter
  | readCommit (id : Nat) (data : Word)
  | writeCommit (id : Nat)
  deriving DecidableEq

/-- One event. -/
def St.step (P : Program) (cfg : Config) (s : St) : Ev → Option St
  | .tick => match s.pc with
    | .idle => if s.running then some s.tickBegin else none
    | _ => none
  | .iter => match s.pc with
    | .idle => none
    | _ => (s.tickStep P cfg).toOption
  | .readCommit id data => match s.pc with
    | .idle => if id ∈ s.core.readQueue then some { s with core := s.core.readCommit id data } else none
    | _ => none
  | .writeCommit id => match s.pc with
    | .idle => if id ∈ s.core.writeQueue then some { s with core := s.core.writeCommit id } else none
    | _ => none

/-- No instance is left from an earlier run. -/
def St.Quiet (s : St) : Prop :=
  s.core.reservation = [] ∧ s.core.computeQueue = [] ∧ s.core.readQueue = [] ∧ s.core.writeQueue = []

/-- The runs of the engine on `P`, from a call of `initialize()` that finds empty lists. -/
def engine (P : Program) (cfg : Config) : System St Ev where
  init s := ∃ s₀ entry init, St.Quiet s₀ ∧ P.findEntryBB = some entry ∧ s = s₀.initializeRun entry init
  step := St.step P cfg

theorem engine_boot (P : Program) (cfg : Config) {entry : BasicBlock} (h : P.findEntryBB = some entry)
    (init : Reg → Word) : (engine P cfg).init (St.boot entry init) :=
  ⟨_, entry, init, ⟨rfl, rfl, rfl, rfl⟩, h, rfl⟩

end Salam.Engine
