import Mathlib.Data.Rat.Defs
import Salam.Engine.Control

/-!
# One run after another

`initialize()` sets up a run on an `LLVMInterface` that may have carried out others. It reads the file again, makes new
registers and blocks, and sets the counters of the run to zero, all but `memory_loads` and `memory_stores`, which only
the constructor does. Nothing reads these two but `finalize()`, so a later run goes exactly as the first run of a fresh
interface would, and only its report differs: it counts the requests of all runs so far.

* `plus_replay`: the two counters are carried along and change nothing.
* `rerun`: after any number of completed runs.

`dma_loads` and `dma_stores` are always zero: they count the accesses through a register with `_Global` set, and the one
call of `Register::setGlobal` is made for a register whose base has it set already.
-/

namespace Salam.Engine

/-! ## The report -/

/-- What `finalize()` reports of a run, with the averages of `AverageOccupancy` as exact quotients. -/
structure Report where
  cycle : Nat
  stalls : Nat
  execnodes : Int
  busy : List Nat
  stalled : List Nat
  maxFU : Units
  averageFU : FunctionalUnit → ℚ
  memory_loads : Nat
  memory_stores : Nat
  dma_loads : Nat
  dma_stores : Nat

def Stats.report (t : Stats) : Report where
  cycle := t.cycle
  stalls := t.stalls
  execnodes := t.execnodes
  busy := [t.loadOnly, t.storeOnly, t.compOnly, t.loadStore, t.loadComp, t.loadStoreComp, t.storeComp]
  stalled := [t.loadOnlyStall, t.storeOnlyStall, t.compOnlyStall, t.loadStoreStall, t.loadCompStall,
    t.loadStoreCompStall, t.storeCompStall]
  maxFU := t.maxFU
  averageFU := fun u => if t.sumFU u ≠ 0 then (t.sumFU u / t.maxFU u : ℚ) / t.cycle else 0
  memory_loads := t.memoryLoads
  memory_stores := t.memoryStores
  dma_loads := 0
  dma_stores := 0

/-! ## The counters that are carried along -/

/-- `l` loads and `w` stores more. -/
def Stats.plus (t : Stats) (l w : Nat) : Stats :=
  { t with memoryLoads := t.memoryLoads + l, memoryStores := t.memoryStores + w }

theorem Stats.report_plus_eq_iff (t : Stats) (l w : Nat) : (t.plus l w).report = t.report ↔ l = 0 ∧ w = 0 := by
  constructor
  · intro h
    have hl : t.memoryLoads + l = t.memoryLoads := congrArg Report.memory_loads h
    have hw : t.memoryStores + w = t.memoryStores := congrArg Report.memory_stores h
    omega
  · rintro ⟨rfl, rfl⟩
    rfl

theorem Stats.occupancy_plus (t : Stats) (l w : Nat) (f : Flags) :
    (t.plus l w).occupancy f = (t.occupancy f).plus l w := by
  unfold Stats.occupancy
  cases f.loadOpScheduled <;> cases f.storeOpScheduled <;> cases f.compOpScheduled <;> try rfl
  cases decide (0 < f.loadInFlight) <;> cases decide (0 < f.storeInFlight) <;>
    cases decide (0 < f.compInFlight) <;> rfl

namespace St

def plus (s : St) (l w : Nat) : St := { s with stats := s.stats.plus l w }

section Plus

variable {P : Program} {cfg : Config} (s : St) (l w : Nat)

theorem plus_core : (s.plus l w).core = s.core := rfl
theorem plus_pc : (s.plus l w).pc = s.pc := rfl
theorem plus_running : (s.plus l w).running = s.running := rfl

theorem tickBegin_plus : (s.plus l w).tickBegin = s.tickBegin.plus l w := rfl

theorem tickEnd_plus : (s.plus l w).tickEnd = s.tickEnd.plus l w := by
  simp only [tickEnd, plus, Stats.occupancy_plus]

theorem charge_plus (u : FunctionalUnit) : (s.plus l w).charge cfg u = (s.charge cfg u).plus l w := by
  unfold charge
  split <;> rfl

theorem computePass_plus (i : Nat) : (s.plus l w).computePass cfg i = (s.computePass cfg i).map (·.plus l w) := by
  cases hq : s.core.computeQueue[i]? with
  | none =>
    cases hr : s.core.reservation.isEmpty <;>
    · simp only [computePass, plus, hq, hr, Bool.false_eq_true, if_false, if_true]
      rfl
  | some id =>
    cases hr : s.core.reservation[i]? with
    | none =>
      simp only [computePass, plus, hq, hr]
      rfl
    | some r =>
      cases hk : (takeUnit cfg s.units (s.core.node r).functionalUnit).2 <;> cases hc : (s.core.commit id).2 <;>
      · simp only [computePass, plus, hq, hr, hk, hc, Bool.false_eq_true, if_false, if_true]
        rfl

theorem launchLoad_plus (id i : Nat) : (s.plus l w).launchLoad cfg id i = (s.launchLoad cfg id i).plus l w := by
  simp only [launchLoad]
  rw [← charge_plus]
  simp only [plus, Stats.plus, Nat.add_right_comm]

theorem launchStore_plus (id i : Nat) : (s.plus l w).launchStore cfg id i = (s.launchStore cfg id i).plus l w := by
  simp only [launchStore]
  rw [← charge_plus]
  simp only [plus, Stats.plus, Nat.add_right_comm]

theorem launchZero_plus (id i : Nat) : (s.plus l w).launchZero cfg id i = (s.launchZero cfg id i).map (·.plus l w) := by
  cases hc : s.core.compute id with
  | error e =>
    simp only [launchZero, plus, hc]
    rfl
  | ok c =>
    simp only [launchZero, plus, hc, Except.map, Except.ok.injEq]
    exact charge_plus { s with
      core := { (c.commit id).1.removeParents id with
        reservation := ((c.commit id).1.removeParents id).reservation.eraseIdx i }
      flags := { s.flags with compOpScheduled := true }
      pc := .scan i } l w _

theorem launchUnit_plus (id i : Nat) : (s.plus l w).launchUnit cfg id i = (s.launchUnit cfg id i).map (·.plus l w) := by
  cases hk : (takeUnit cfg s.units (s.core.node id).functionalUnit).2 <;> cases hc : s.core.compute id <;>
  · simp only [launchUnit, plus, hk, hc, Bool.false_eq_true, if_false, if_true]
    rfl

theorem takeBranch_plus (id i : Nat) : (s.plus l w).takeBranch P cfg id i =
    (s.takeBranch P cfg id i).map (·.plus l w) := by
  simp only [takeBranch]
  cases hd : ((s.core.heap id).dest s.core.regs).bind fun d => (P.findBB d).map fun bb => (d, bb) with
  | none =>
    simp only [plus, hd]
    rfl
  | some x =>
    rw [charge_plus]
    simp only [plus, hd]
    rfl

theorem scanPass_plus (i : Nat) : (s.plus l w).scanPass P cfg i = (s.scanPass P cfg i).map (·.plus l w) := by
  cases hr : s.core.reservation[i]? with
  | none =>
    simp only [scanPass, hr, tickEnd_plus]
    simp only [plus, hr]
    rfl
  | some id =>
    simp only [scanPass, plus_core, hr, launchLoad_plus, launchStore_plus, launchZero_plus, launchUnit_plus,
      takeBranch_plus, apply_ite (Except.map fun s : St => s.plus l w)]
    rfl

theorem tickStep_plus : (s.plus l w).tickStep P cfg = (s.tickStep P cfg).map (·.plus l w) := by
  unfold tickStep
  rw [plus_pc]
  cases s.pc with
  | idle => rfl
  | compute i => exact computePass_plus s l w i
  | sched nodes k => cases nodes <;> cases k <;> rfl
  | lockstep =>
    simp only [tickEnd_plus, plus_core, apply_ite (Except.map fun s : St => s.plus l w)]
    rfl
  | scan i => exact scanPass_plus s l w i

theorem step_plus (e : Ev) : (s.plus l w).step P cfg e = (s.step P cfg e).map (·.plus l w) := by
  cases e <;> simp only [step, plus_pc, plus_core, plus_running, tickStep_plus, tickBegin_plus]
  case tick =>
    by_cases h : s.running = true
    · simp only [h, if_true]
      cases s.pc <;> rfl
    · simp only [h]
      cases s.pc <;> rfl
  case iter => cases s.pc <;> cases s.tickStep P cfg <;> rfl
  case readCommit id data =>
    by_cases h : id ∈ s.core.readQueue
    · simp only [h, if_true]
      cases s.pc <;> rfl
    · simp only [h, if_false]
      cases s.pc <;> rfl
  case writeCommit id =>
    by_cases h : id ∈ s.core.writeQueue
    · simp only [h, if_true]
      cases s.pc <;> rfl
    · simp only [h, if_false]
      cases s.pc <;> rfl

/-- The runs with and without the carried counters go on together. -/
theorem plus_replay (es : List Ev) : (engine P cfg).replay (fun _ _ => true) (s.plus l w) es =
    ((engine P cfg).replay (fun _ _ => true) s es).map (·.plus l w) := by
  induction es generalizing s with
  | nil => rfl
  | cons e es ih =>
    show ((s.plus l w).step P cfg e).bind _ = ((s.step P cfg e).bind _).map _
    rw [step_plus]
    cases s.step P cfg e with
    | none => rfl
    | some s' => exact ih s'

end Plus

end St

/-! ## What the counters have counted -/

def Event.isRequest : Event → Bool
  | .request .. => true
  | _ => false

/-- How many requests the run handed to `CommInterface`. -/
def requests (log : List Event) : Nat := log.countP Event.isRequest

/-- An act that launches a load or a store. -/
def Act.isMem : Act → Bool
  | .launchLoad _ | .launchStore _ => true
  | _ => false

/-- The instance that an act launches. -/
def Act.starts : Act → Option Nat
  | .launch id | .launchLoad id | .launchStore id | .branch id => some id
  | _ => none

theorem events_retire (c : Core) (id : Nat) :
    ∃ es, (c.retire id).log = c.log ++ es ∧ (∀ k, .launch k ∉ es) ∧ requests es = 0 :=
  ⟨_, Core.retire_log c id, by simp, List.countP_eq_zero.mpr (by simp [Event.isRequest])⟩

theorem events_commit (c : Core) (id : Nat) : ∃ es, (c.commit id).1.log = c.log ++ es ∧ (∀ k, .launch k ∉ es) ∧
    requests es = 0 := by
  unfold Core.commit
  split
  · split
    · exact events_retire c id
    · exact ⟨[], (List.append_nil _).symm, by simp, rfl⟩
  · exact events_retire c id

/-- The events of an act: which instance is launched, and how many requests there are. -/
theorem events_of_step {c c' : Core} {a : Act} (hL : c.Lists) (h : c.step a = some c') :
    ∃ es, c'.log = c.log ++ es ∧ (∀ k, .launch k ∈ es ↔ a.starts = some k) ∧
    requests es = if a.isMem then 1 else 0 := by
  cases a with
  | enterBB bb =>
    cases h
    exact ⟨[.scheduleBB bb], rfl, by simp [Act.starts], rfl⟩
  | schedule prev n =>
    simp only [Core.step, Core.scheduleNode_eq hL.lt_next, Option.some.injEq] at h
    subst h
    exact ⟨_, Core.withNew_log .., by simp [Act.starts], List.countP_eq_zero.mpr (by simp [Event.isRequest])⟩
  | launch id =>
    simp only [Core.step, Option.ite_none_right_eq_some] at h
    obtain ⟨-, h⟩ := h
    split at h
    · rename_i c₁ hc
      cases h
      obtain ⟨v, rfl⟩ := Core.compute_eq hc
      exact ⟨[.launch id], rfl, by simp [Act.starts, eq_comm], rfl⟩
    · cases h
  | bump id =>
    simp only [Core.step, Option.ite_none_right_eq_some, Option.some.injEq] at h
    obtain ⟨-, rfl⟩ := h
    exact ⟨[], (List.append_nil _).symm, by simp [Act.starts], rfl⟩
  | commit id =>
    simp only [Core.step, Option.ite_none_right_eq_some, Option.some.injEq] at h
    obtain ⟨-, rfl⟩ := h
    obtain ⟨es, hes, hno, hzero⟩ := events_retire c id
    exact ⟨es, hes, by simp [hno, Act.starts], hzero⟩
  | launchLoad id =>
    simp only [Core.step, Option.ite_none_right_eq_some, Option.some.injEq] at h
    obtain ⟨-, rfl⟩ := h
    exact ⟨[.launch id, .request id (c.heap id).addr (c.heap id).len], by simp [Core.computeMem],
      by simp [Act.starts, eq_comm], rfl⟩
  | launchStore id =>
    simp only [Core.step, Option.ite_none_right_eq_some, Option.some.injEq] at h
    obtain ⟨-, rfl⟩ := h
    exact ⟨[.launch id, .request id (c.heap id).addr (c.heap id).len], by simp [Core.computeMem],
      by simp [Act.starts, eq_comm], rfl⟩
  | readCommit id data =>
    simp only [Core.step, Option.ite_none_right_eq_some, Option.some.injEq] at h
    obtain ⟨-, rfl⟩ := h
    obtain ⟨es, hes, hno, hzero⟩ := events_commit (c.setResult id data) id
    exact ⟨es, hes, by simp [hno, Act.starts], hzero⟩
  | writeCommit id =>
    simp only [Core.step, Option.ite_none_right_eq_some, Option.some.injEq] at h
    obtain ⟨-, rfl⟩ := h
    obtain ⟨es, hes, hno, hzero⟩ := events_commit c id
    exact ⟨es, hes, by simp [hno, Act.starts], hzero⟩
  | branch id =>
    simp only [Core.step, Option.ite_none_right_eq_some] at h
    obtain ⟨-, h⟩ := h
    split at h
    · rename_i d hd
      cases h
      exact ⟨[.launch id, .branch id d], by simp, by simp [Act.starts, eq_comm], rfl⟩
    · cases h
  | finish id =>
    simp only [Core.step, Option.ite_none_right_eq_some, Option.some.injEq] at h
    obtain ⟨-, rfl⟩ := h
    exact ⟨[.finish], rfl, by simp [Act.starts], rfl⟩

theorem requests_of_log {l l' es : List Event} (h : l' = l ++ es) : requests l' = requests l + requests es := by
  rw [h, requests, List.countP_append]
  rfl

theorem requests_commit (c : Core) (id : Nat) : requests (c.commit id).1.log = requests c.log := by
  obtain ⟨es, hlog, -, hzero⟩ := events_commit c id
  rw [requests_of_log hlog, hzero]
  rfl

theorem requests_of_step {c c' : Core} {a : Act} (hL : c.Lists) (h : c.step a = some c') :
    requests c'.log = requests c.log + if a.isMem then 1 else 0 := by
  obtain ⟨es, hlog, -, hes⟩ := events_of_step hL h
  rw [requests_of_log hlog, hes]

/-- The loads and stores counted so far, over all runs. -/
def Stats.memory (t : Stats) : Nat := t.memoryLoads + t.memoryStores

theorem Stats.memory_occupancy (t : Stats) (f : Flags) : (t.occupancy f).memory = t.memory := by
  unfold Stats.occupancy
  cases f.loadOpScheduled <;> cases f.storeOpScheduled <;> cases f.compOpScheduled <;> try rfl
  cases decide (0 < f.loadInFlight) <;> cases decide (0 < f.storeInFlight) <;>
    cases decide (0 < f.compInFlight) <;> rfl

namespace St

variable {P : Program} {cfg : Config} {s s' : St}

/-- What an iteration adds to the counters it adds to the log. -/
theorem Iter.memory (hL : s.core.Lists) (h : Iter P cfg s s') :
    s'.stats.memory + requests s.core.log = s.stats.memory + requests s'.core.log := by
  have one : ∀ {a : Act} {c : Core}, s.core.step a = some c → a.isMem = false → requests c.log = requests s.core.log :=
    fun hc ha => by simpa [ha] using requests_of_step hL hc
  have two : ∀ {a b : Act} {c c' : Core}, s.core.step a = some c → c.step b = some c' → a.isMem = false →
      b.isMem = false → requests c'.log = requests s.core.log := fun hc hc' ha hb => by
    have := requests_of_step (hL.effect (Core.effect_of_step hL hc)) hc'
    rw [this, one hc ha]
    simp [hb]
  cases h with
  | commit hpc hid hr hk hc => simp only [one hc rfl]
  | bump hpc hid hr hk hc => simp only [one hc rfl]
  | noUnit hpc hid hr hk => rfl
  | computeEnd hpc hi hr => rfl
  | nextBB hpc hi hr =>
    have hc : s.core.step (.enterBB s.currBB.name) = some (s.scheduleBB s.currBB none).core := rfl
    rw [one hc rfl]
    rfl
  | @schedule n rest k hpc =>
    have hc : s.core.step (.schedule s.prevBB.name n) = some (s.core.scheduleNode s.prevBB.name n) := rfl
    simp only [one hc rfl]
  | schedEnd hpc => rfl
  | lockstep hpc => simp only [tickEnd, Stats.memory_occupancy]
  | scanBegin hpc => rfl
  | scanEnd hpc hi => simp only [tickEnd, Stats.memory_occupancy]
  | load hpc hid hc =>
    have := requests_of_step hL hc
    simp only [charge_stats, charge_core, Stats.memory, this, Act.isMem, if_true]
    omega
  | store hpc hid hc =>
    have := requests_of_step hL hc
    simp only [charge_stats, charge_core, Stats.memory, this, Act.isMem, if_true]
    omega
  | zero hpc hid hz hc hc' => simp only [charge_stats, charge_core, two hc hc' rfl rfl]
  | unit hpc hid hz hk hc hc' => simp only [two hc hc' rfl rfl]
  | @branch i id c d bb hpc hid hlt hd hbb hc =>
    have hc' : c.step (.enterBB bb.name) = some (c.emit (.scheduleBB bb.name)) := rfl
    simp only [scheduleBB, charge_stats, two hc hc' rfl rfl]
  | finish hpc hid ha hq hl hw hc => simp only [Stats.memory, one hc rfl]
  | skip hpc hid => rfl
  | spin hpc hid hn ha => rfl

theorem Move.memory {e : Ev} (hL : s.core.Lists) (h : Move P cfg s e s') :
    s'.stats.memory + requests s.core.log = s.stats.memory + requests s'.core.log := by
  cases h with
  | tick hpc hr => rfl
  | iter hpc h => exact h.memory hL
  | @readCommit id data hpc hid =>
    have hc : requests (s.core.readCommit id data).log = requests s.core.log :=
      requests_commit (s.core.setResult id data) id
    simp only [hc]
  | @writeCommit id hpc hid =>
    have hc : requests (s.core.writeCommit id).log = requests s.core.log := requests_commit s.core id
    simp only [hc]

/-- A run adds its requests to the counters. -/
theorem memory_of_run {C : St → Ev → Prop} {s₀ : St} (h₀ : (engine P cfg).init s₀) (h : (engine P cfg).Run C s₀ s) :
    s.stats.memory = s₀.stats.memory + requests s.core.log := by
  induction h with
  | refl =>
    obtain ⟨s₁, entry, init, -, -, rfl⟩ := h₀
    rfl
  | tail hr hC hs ih =>
    have hreach : (engine P cfg).ReachableWhen C _ := ⟨s₀, h₀, hr⟩
    have hm := (move_of_reachable hreach hs).memory (lists_of_reachable (core_of_reachable hreach))
    omega

/-! ## Runs one after another -/

/-- The state of an `LLVMInterface` outside its runs, with the logs of the runs it has completed, from `initialize()`
to the end of the tick that calls `comm->finish()`. The constructor leaves the lists empty and the counters at zero. -/
inductive Completed (P : Program) (cfg : Config) : List (List Event) → St → Prop
  | fresh {s : St} (hq : s.Quiet) (hs : s.stats.memoryLoads = 0 ∧ s.stats.memoryStores = 0) : Completed P cfg [] s
  | run {logs : List (List Event)} {s s' : St} {entry : BasicBlock} {init : Reg → Word} (h : Completed P cfg logs s)
      (he : P.findEntryBB = some entry)
      (hr : (engine P cfg).Run (fun _ _ => True) (s.initializeRun entry init) s') (hs : s'.running = false)
      (hpc : s'.pc = .idle) : Completed P cfg (logs ++ [s'.core.log]) s'

/-- A completed run leaves nothing in the lists. -/
theorem Completed.quiet (hT : P.Terminated) {logs : List (List Event)} (h : Completed P cfg logs s) : s.Quiet := by
  induction h with
  | fresh hq hs => exact hq
  | run h he hr hs hpc ih =>
    obtain ⟨es, bs, hc⟩ := control_of_reachable hT ⟨_, ⟨_, _, _, ih, he, rfl⟩, hr⟩
    exact (hc.stopped hs).1

/-- The counters hold the requests of all completed runs. -/
theorem Completed.memory (hT : P.Terminated) {logs : List (List Event)} (h : Completed P cfg logs s) :
    s.stats.memory = (logs.map requests).sum := by
  induction h with
  | fresh hq hs => simp [Stats.memory, hs.1, hs.2]
  | @run logs s s' entry init h he hr hs hpc ih =>
    have hm := memory_of_run ⟨s, entry, init, h.quiet hT, he, rfl⟩ hr
    have h₀ : (s.initializeRun entry init).stats.memory = s.stats.memory := rfl
    simp [hm, h₀, ih]

/-- `initialize()` after other runs and on a fresh interface differ in the two counters alone. -/
theorem initializeRun_eq (hq : s.Quiet) (entry : BasicBlock) (init : Reg → Word) : s.initializeRun entry init =
    (boot entry init).plus s.stats.memoryLoads s.stats.memoryStores := by
  obtain ⟨h₁, h₂, h₃, h₄⟩ := hq
  simp only [boot, initializeRun, tickBegin, plus, Stats.plus, h₁, h₂, h₃, h₄, Core.start, Nat.zero_add]

/-- The same moment of two runs, but for the counters of loads and stores. -/
structure Same (t t' : St) : Prop where
  core : t'.core = t.core
  pc : t'.pc = t.pc
  currBB : t'.currBB = t.currBB
  prevBB : t'.prevBB = t.prevBB
  running : t'.running = t.running
  units : t'.units = t.units
  flags : t'.flags = t.flags
  stats : { t'.stats with memoryLoads := t.stats.memoryLoads, memoryStores := t.stats.memoryStores } = t.stats

theorem same_plus (t : St) (l w : Nat) : t.Same (t.plus l w) := ⟨rfl, rfl, rfl, rfl, rfl, rfl, rfl, rfl⟩

/-- The run from `entry` that the events `es` make up, after the completed runs that led to `s`, is related by `R`, all
along, to the same run as the first one of a fresh interface. -/
def Along (P : Program) (cfg : Config) (s : St) (entry : BasicBlock) (init : Reg → Word) (R : St → St → Prop) : Prop :=
  ∀ es : List Ev, Option.Rel R ((engine P cfg).replay (fun _ _ => true) (boot entry init) es)
    ((engine P cfg).replay (fun _ _ => true) (s.initializeRun entry init) es)

theorem Along.mono {entry : BasicBlock} {init : Reg → Word} {R R' : St → St → Prop} (h : Along P cfg s entry init R)
    (hR : ∀ t t', R t t' → R' t t') : Along P cfg s entry init R' := by
  intro es
  have hes := h es
  revert hes
  generalize (engine P cfg).replay (fun _ _ => true) (boot entry init) es = x
  generalize (engine P cfg).replay (fun _ _ => true) (s.initializeRun entry init) es = y
  rintro (h | _)
  · exact .some (hR _ _ h)
  · exact .none

/-- **A later run goes as the first one would, and what `finalize()` reports in any state of it is the same exactly
when no earlier run had a load or a store.** -/
theorem rerun (hT : P.Terminated) {logs : List (List Event)} (h : Completed P cfg logs s) (entry : BasicBlock)
    (init : Reg → Word) : Along P cfg s entry init fun t t' =>
      t.Same t' ∧ (t'.stats.report = t.stats.report ↔ ∀ log ∈ logs, ∀ e ∈ log, e.isRequest = false) := by
  intro es
  rw [initializeRun_eq (h.quiet hT), plus_replay]
  cases hr : (engine P cfg).replay (fun _ _ => true) (boot entry init) es with
  | none => exact .none
  | some t =>
    refine .some ⟨same_plus t _ _, ?_⟩
    have hm := h.memory hT
    calc (t.stats.plus _ _).report = t.stats.report
        ↔ s.stats.memoryLoads = 0 ∧ s.stats.memoryStores = 0 := t.stats.report_plus_eq_iff _ _
      _ ↔ (logs.map requests).sum = 0 := by
        rw [← hm, Stats.memory, Nat.add_eq_zero_iff]
      _ ↔ ∀ log ∈ logs, ∀ e ∈ log, e.isRequest = false := by
        simp [List.sum_eq_zero_iff_forall_eq_nat, requests, List.countP_eq_zero]

/-! ## A program with one load -/

/-- `%1 = load *%0` and a ret. -/
def loadBB : BasicBlock where
  name := "entry"
  nodes := [⟨"%1 = load i64, i64* %0", 0, .load 1 8 0⟩, ⟨"ret void", 1, .ret⟩]

def loadRet : Program := ⟨[loadBB], by decide⟩

theorem loadRet_terminated : loadRet.Terminated := by
  intro b hb
  simp only [loadRet, List.mem_singleton] at hb
  subst hb
  exact ⟨[_], _, rfl, rfl, by simp [Node.terminator]⟩

/-- A run of it: the load goes out in the first tick and the ret leaves in the second. -/
def loadEvents : List Ev := List.replicate 8 .iter ++ [.readCommit 0 5, .tick] ++ List.replicate 4 .iter

/-- The state in which the constructor leaves an interface. -/
def constructed : St where
  core := Core.start fun _ => 0
  pc := .idle
  currBB := loadBB
  prevBB := loadBB
  running := false
  units := fun _ => 0
  flags := ⟨false, false, false, 0, 0, 0⟩
  stats := ⟨0, 0, 0, 0, 0, 0, 0, 0, 0, 0, 0, 0, 0, 0, 0, 0, 0, 0, 0, fun _ => 0, fun _ => 0⟩

theorem completed_loadRet : ∃ s, Completed loadRet .unlimited [s.core.log] s ∧ s.stats.memoryLoads = 1 ∧
    s.stats.memoryStores = 0 ∧ .request 0 64 8 ∈ s.core.log := by
  have hend : (((engine loadRet .unlimited).replay (fun _ _ => true) (constructed.initializeRun loadBB fun _ => 64)
      loadEvents).any fun s => s.running = false ∧ s.pc.ctorIdx = 0 ∧
        s.stats.memoryLoads = 1 ∧ s.stats.memoryStores = 0 ∧ .request 0 64 8 ∈ s.core.log) = true := by
    decide
  obtain ⟨s, hr, hs⟩ := (Option.any_eq_true _ _).mp hend
  obtain ⟨hrun, hpc, hl, hw, hreq⟩ := of_decide_eq_true hs
  have hidle : s.pc = .idle := by
    cases hp : s.pc with
    | idle => rfl
    | _ =>
      rw [hp] at hpc
      cases hpc
  have h₀ : Completed loadRet .unlimited [] constructed := .fresh ⟨rfl, rfl, rfl, rfl⟩ ⟨rfl, rfl⟩
  have hc := h₀.run rfl ((System.run_of_replay hr).mono fun _ _ _ => trivial) hrun hidle
  exact ⟨s, hc, hl, hw, hreq⟩

/-- The second run of the program goes as the first. -/
theorem rerun_loadRet : ∃ s, Completed loadRet .unlimited [s.core.log] s ∧
    Along loadRet .unlimited s loadBB (fun _ => 64) fun t t' => t.Same t' ∧ t'.stats.report ≠ t.stats.report := by
  obtain ⟨s, hc, -, -, hreq⟩ := completed_loadRet
  refine ⟨s, hc, (rerun loadRet_terminated hc loadBB fun _ => 64).mono fun t t' h => ⟨h.1, fun hrep => ?_⟩⟩
  have := h.2.mp hrep _ (List.mem_singleton_self _) _ hreq
  cases this

/-- Its report does not: it counts two loads. -/
theorem not_rerun_report : ¬ ∀ (P : Program) (cfg : Config) (logs : List (List Event)) (s : St) (entry : BasicBlock)
    (init : Reg → Word), P.Terminated → P.findEntryBB = some entry → Completed P cfg logs s →
      Along P cfg s entry init fun t t' => t.Same t' ∧ (t'.running = false → t'.stats.report = t.stats.report) := by
  intro h
  obtain ⟨s, hc, hl, hw, -⟩ := completed_loadRet
  have hrun := h loadRet .unlimited _ s loadBB (fun _ => 64) loadRet_terminated rfl hc loadEvents
  rw [initializeRun_eq (hc.quiet loadRet_terminated), plus_replay, hl, hw] at hrun
  have hend : (((engine loadRet .unlimited).replay (fun _ _ => true) (boot loadBB fun _ => 64) loadEvents).any
      fun s => s.running = false) = true := by
    decide
  obtain ⟨t, ht, hs⟩ := (Option.any_eq_true _ _).mp hend
  rw [ht] at hrun
  cases hrun with
  | some h =>
    have := (t.stats.report_plus_eq_iff 1 0).mp (h.2 (of_decide_eq_true hs))
    omega

end St

end Salam.Engine
