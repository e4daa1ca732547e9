import Salam.Engine.Accounting
import Salam.Engine.Tick

/-!
# The ticks of the engine are runs of the core

Each event of the engine is a run of `core` in which only nodes of the program are scheduled: an iteration of the scan
that launches an instance of latency 0 is a launch and a commit, one that sends an instance to a functional unit a
launch and the first cycle. So what holds in every reachable state of `core` holds of the engine.

* `core_of_reachable`: the core of a reachable state of the engine is reachable.
-/

namespace Salam.Engine

/-! ## Instances in the reservation table have not run -/

/-- `_CurrCycle` of the instances that have not been launched. -/
theorem fresh_of_reachable {C : Core → Act → Prop} {c : Core} (h : core.ReachableWhen C c) :
    ∀ id ∈ c.reservation, (c.heap id).currCycle = 0 := by
  refine System.invariantWhen (I := fun c => ∀ id ∈ c.reservation, (c.heap id).currCycle = 0) ?_ ?_ h
  · rintro c ⟨init, rfl⟩
    simp [Core.start]
  · intro c a c' hr hI _ hs id hid
    have hL := lists_of_reachable hr
    cases Core.effect_of_step hL hs with
    | enter bb => exact hI id hid
    | schedule prev n =>
      rw [Core.withNew_reservation, List.mem_append, List.mem_singleton] at hid
      by_cases hk : id = c.next
      · simp [Core.withNew, hk, Inst.clone]
      · simpa [Core.withNew, hk] using hI id (hid.resolve_right hk)
    | launchUnit hr hn hv => simpa [Core.setFinal_heap] using hI id (List.mem_of_mem_erase hid)
    | launchMem ha hr hn => exact hI id (List.mem_of_mem_erase hid)
    | branch hr hd => exact hI id (List.mem_of_mem_erase hid)
    | @bump k hk hc =>
      have hne : id ≠ k := fun he => (hL.disjoint.1 id hid).1 (he ▸ hk)
      simpa [Core.modify_heap, hne] using hI id hid
    | @retire _ k v ha hk hv =>
      have := hI id (by simpa [Core.setFinal] using List.mem_of_mem_erase hid)
      simpa [Core.retire_heap, Core.setFinal_heap] using this
    | @lose _ k v ha hk hc =>
      have hne : id ≠ k := fun he => (hL.disjoint.1 id (List.mem_of_mem_erase hid)).2.1 (he ▸ hk)
      simpa [Core.modify_heap, hne] using hI id (List.mem_of_mem_erase hid)
    | finish hk hn => exact hI id (List.mem_of_mem_erase hid)

/-! ## The pieces of `tick()` as acts -/

theorem eraseIdx_eq_erase {l : List Nat} {i id : Nat} (hn : l.Nodup) (h : l[i]? = some id) :
    l.eraseIdx i = l.erase id := by
  obtain ⟨hi, rfl⟩ := List.getElem?_eq_some_iff.mp h
  exact (hn.erase_getElem i hi).symm

namespace Core

section Acts

variable {c : Core} {i id : Nat} {c' : Core}

theorem Lists.computeQueue_lt (h : c.Lists) : ∀ k ∈ c.computeQueue, k < c.next := fun k hk =>
  h.lt_next k (mem_live.mpr (.inr (.inl hk)))

theorem Lists.computeQueue_nodup (h : c.Lists) : c.computeQueue.Nodup := by
  have hn := h.nodup
  simp only [live, List.nodup_append] at hn
  exact hn.1.1.2.1

theorem Lists.reservation_nodup (h : c.Lists) : c.reservation.Nodup := h.sorted.imp fun hlt => Nat.ne_of_lt hlt

theorem retire_with (r q : List Nat) : ({ c with reservation := r, computeQueue := q } : Core).retire id =
    { c.retire id with reservation := r, computeQueue := q } := by
  rw [retire_eq, retire_eq]
  rfl

/-- `commit()` in the pass over the compute queue, when the instance is done. -/
theorem step_commit (h : c.Lists) (hid : c.computeQueue[i]? = some id)
    (hc : (c.node id).maxCycle ≤ (c.heap id).currCycle) : (c.commit id).2 = true ∧
      c.step (.commit id) = some { (c.commit id).1.removeParents id with
        computeQueue := ((c.commit id).1.removeParents id).computeQueue.eraseIdx i } := by
  have hm := List.mem_of_getElem? hid
  have hs := Node.returnRegister_of_onUnit (h.onUnit id hm)
  have hq : (c.commit id).1.removeParents id = c.retire id := commit_retire fun _ => hc
  refine ⟨by simp [commit, hs, hc], ?_⟩
  rw [hq, retire_computeQueue, eraseIdx_eq_erase h.computeQueue_nodup hid]
  simp only [step, hm, hc, and_self, if_true]
  rw [← retire, retire_computeQueue]

theorem commit_bump (hs : (c.node id).returnRegister.isSome = true)
    (hc : (c.heap id).currCycle < (c.node id).maxCycle) :
    (c.commit id).1 = c.modify id fun x => { x with currCycle := x.currCycle + 1 } := by
  simp [commit, hs, Nat.not_le.mpr hc]

/-- `commit()` in the pass over the compute queue, when it is not. -/
theorem step_bump (h : c.Lists) (hid : c.computeQueue[i]? = some id)
    (hc : ¬ (c.node id).maxCycle ≤ (c.heap id).currCycle) : (c.commit id).2 = false ∧
      c.step (.bump id) = some (c.commit id).1 := by
  have hm := List.mem_of_getElem? hid
  have hs := Node.returnRegister_of_onUnit (h.onUnit id hm)
  have hlt : (c.heap id).currCycle < (c.node id).maxCycle := by omega
  exact ⟨by simp [commit, hs, hc], by simp [step, hm, hlt, commit, hs, hc]⟩

theorem compute_eq (h : c.compute id = .ok c') : ∃ v, c' = (c.setFinal id v).emit (.launch id) := by
  unfold compute at h
  split at h
  · exact ⟨_, (Except.ok.inj h).symm⟩
  · cases h

theorem step_launch (hr : c.ready id = true) (hn : (c.node id).onUnit = true) (h : c.compute id = .ok c') :
    c.step (.launch id) = some { c' with reservation := c'.reservation.erase id, computeQueue :=
    c'.computeQueue ++ [id] } := by
  simp [step, hr, hn, h]

/-- An instance of latency 0 is launched and commits. -/
theorem step_zero (h : c.Lists) (hid : c.reservation[i]? = some id) (hr : c.ready id = true)
    (hn : (c.node id).onUnit = true)
    (hz : (c.node id).maxCycle = 0) (hc : c.compute id = .ok c') :
    ∃ c₁, c.step (.launch id) = some c₁ ∧ c₁.step (.commit id) = some { (c'.commit id).1.removeParents id with
      reservation := ((c'.commit id).1.removeParents id).reservation.eraseIdx i } := by
  refine ⟨_, step_launch hr hn hc, ?_⟩
  obtain ⟨v, rfl⟩ := compute_eq hc
  have hq : (((c.setFinal id v).emit (.launch id)).commit id).1.removeParents id =
      ((c.setFinal id v).emit (.launch id)).retire id := commit_retire fun _ => by simp [hz]
  have hz' : ∀ r q, (({ (c.setFinal id v).emit (.launch id) with reservation := r, computeQueue := q } : Core).node
      id).maxCycle = 0 := fun r q => by simpa [node, setFinal_heap] using hz
  have hnot : id ∉ c.computeQueue := (h.disjoint.1 id (mem_of_ready hr)).1
  have hcq : (c.computeQueue ++ [id]).erase id = c.computeQueue := by simp [List.erase_append_right, hnot]
  rw [hq, retire_reservation]
  simp only [step, hz', List.mem_append, List.mem_singleton, or_true, Nat.zero_le, and_self, if_true]
  rw [← retire, retire_with, Option.some.injEq]
  simp only [emit_computeQueue, emit_reservation, setFinal_computeQueue, setFinal_reservation, hcq,
    eraseIdx_eq_erase h.reservation_nodup hid, retire_computeQueue]

/-- An instance goes to a functional unit for its first cycle. -/
theorem step_unit (h : c.Lists) (hid : c.reservation[i]? = some id) (hr : c.ready id = true)
    (hn : (c.node id).onUnit = true)
    (hz : (c.heap id).currCycle < (c.node id).maxCycle) (hc : c.compute id = .ok c') :
      ∃ c₁, c.step (.launch id) = some c₁ ∧
      c₁.step (.bump id) = some { (({ c' with computeQueue := c'.computeQueue ++ [id] } : Core).commit id).1 with
        reservation :=
          (({ c' with computeQueue := c'.computeQueue ++ [id] } : Core).commit id).1.reservation.eraseIdx i } := by
  refine ⟨_, step_launch hr hn hc, ?_⟩
  obtain ⟨v, rfl⟩ := compute_eq hc
  have hs := Node.returnRegister_of_onUnit hn
  have hn' : ∀ r q, ({ (c.setFinal id v).emit (.launch id) with reservation := r, computeQueue := q } : Core).node id =
      c.node id := fun r q => node_setFinal v id
  have hy : (((c.setFinal id v).emit (.launch id)).heap id).currCycle = (c.heap id).currCycle := by simp [setFinal_heap]
  rw [commit_bump ((hn' _ _).symm ▸ hs) (by rw [hn']; exact hy ▸ hz), modify_reservation]
  simp only [step, hn', hy, hz, List.mem_append, List.mem_singleton, or_true, and_self, if_true, emit_reservation,
    setFinal_reservation, eraseIdx_eq_erase h.reservation_nodup hid, Option.some.injEq]
  rfl

end Acts

end Core

/-! ## One iteration of `tick()` -/

namespace St

section Charge

variable (s : St) (cfg : Config) (u : FunctionalUnit)

@[simp] theorem charge_core : (s.charge cfg u).core = s.core := by unfold charge; split <;> rfl
@[simp] theorem charge_pc : (s.charge cfg u).pc = s.pc := by unfold charge; split <;> rfl
@[simp] theorem charge_currBB : (s.charge cfg u).currBB = s.currBB := by unfold charge; split <;> rfl
@[simp] theorem charge_running : (s.charge cfg u).running = s.running := by unfold charge; split <;> rfl
@[simp] theorem charge_flags : (s.charge cfg u).flags = s.flags := by unfold charge; split <;> rfl
@[simp] theorem charge_stats : (s.charge cfg u).stats = s.stats := by unfold charge; split <;> rfl

end Charge

/-- What an iteration of `tick()` does, in terms of the acts of the core. -/
inductive Iter (P : Program) (cfg : Config) (s : St) : St → Prop
  | commit {i id r : Nat} {c : Core} (hpc : s.pc = .compute i) (hid : s.core.computeQueue[i]? = some id)
      (hr : s.core.reservation[i]? = some r)
      (hk : (takeUnit cfg s.units (s.core.node r).functionalUnit).2 = true) (hc : s.core.step (.commit id) = some c) :
      Iter P cfg s
        { s with core := c, units := (takeUnit cfg s.units (s.core.node r).functionalUnit).1, pc := .compute i }
  | bump {i id r : Nat} {c : Core} (hpc : s.pc = .compute i) (hid : s.core.computeQueue[i]? = some id)
      (hr : s.core.reservation[i]? = some r)
      (hk : (takeUnit cfg s.units (s.core.node r).functionalUnit).2 = true) (hc : s.core.step (.bump id) = some c) :
      Iter P cfg s
        { s with core := c, units := (takeUnit cfg s.units (s.core.node r).functionalUnit).1, pc := .compute (i + 1) }
  | noUnit {i id r : Nat} (hpc : s.pc = .compute i) (hid : s.core.computeQueue[i]? = some id)
      (hr : s.core.reservation[i]? = some r)
      (hk : (takeUnit cfg s.units (s.core.node r).functionalUnit).2 = false) :
      Iter P cfg s
        { s with units := (takeUnit cfg s.units (s.core.node r).functionalUnit).1, pc := .compute (i + 1) }
  | computeEnd {i : Nat} (hpc : s.pc = .compute i) (hi : s.core.computeQueue[i]? = none)
      (hr : s.core.reservation ≠ []) : Iter P cfg s { s with pc := .lockstep }
  | nextBB {i : Nat} (hpc : s.pc = .compute i) (hi : s.core.computeQueue[i]? = none) (hr : s.core.reservation = []) :
      Iter P cfg s (s.scheduleBB s.currBB none)
  | schedule {n : Node} {rest : List Node} {k : Option Nat} (hpc : s.pc = .sched (n :: rest) k) :
      Iter P cfg s { s with core := s.core.scheduleNode s.prevBB.name n, pc := .sched rest k }
  | schedEnd {k : Option Nat} (hpc : s.pc = .sched [] k) :
      Iter P cfg s { s with pc := match k with | some i => .scan i | none => .lockstep }
  | lockstep (hpc : s.pc = .lockstep) : Iter P cfg s s.tickEnd
  | scanBegin (hpc : s.pc = .lockstep) : Iter P cfg s { s with pc := .scan 0 }
  | scanEnd {i : Nat} (hpc : s.pc = .scan i) (hi : s.core.reservation[i]? = none) : Iter P cfg s s.tickEnd
  | load {i id : Nat} {c : Core} (hpc : s.pc = .scan i) (hid : s.core.reservation[i]? = some id)
      (hc : s.core.step (.launchLoad id) = some c) :
      Iter P cfg s (({ s with
        core := c
        flags := { s.flags with loadOpScheduled := true }
        stats := { s.stats with memoryLoads := s.stats.memoryLoads + 1 }
        pc := .scan i } : St).charge cfg (s.core.node id).functionalUnit)
  | store {i id : Nat} {c : Core} (hpc : s.pc = .scan i) (hid : s.core.reservation[i]? = some id)
      (hc : s.core.step (.launchStore id) = some c) :
      Iter P cfg s (({ s with
        core := c
        flags := { s.flags with storeOpScheduled := true }
        stats := { s.stats with memoryStores := s.stats.memoryStores + 1 }
        pc := .scan i } : St).charge cfg (s.core.node id).functionalUnit)
  | zero {i id : Nat} {c c' : Core} (hpc : s.pc = .scan i) (hid : s.core.reservation[i]? = some id)
      (hz : (s.core.node id).maxCycle = 0) (hc : s.core.step (.launch id) = some c)
      (hc' : c.step (.commit id) = some c') :
      Iter P cfg s (({ s with
        core := c'
        flags := { s.flags with compOpScheduled := true }
        pc := .scan i } : St).charge cfg (s.core.node id).functionalUnit)
  | unit {i id : Nat} {c c' : Core} (hpc : s.pc = .scan i) (hid : s.core.reservation[i]? = some id)
      (hz : (s.core.node id).maxCycle ≠ 0) (hk : (takeUnit cfg s.units (s.core.node id).functionalUnit).2 = true)
      (hc : s.core.step (.launch id) = some c) (hc' : c.step (.bump id) = some c') :
      Iter P cfg s { s with
        core := c'
        units := (takeUnit cfg s.units (s.core.node id).functionalUnit).1
        flags := { s.flags with compOpScheduled := true }
        pc := .scan i }
  | branch {i id : Nat} {c : Core} {d : Label} {bb : BasicBlock} (hpc : s.pc = .scan i)
      (hid : s.core.reservation[i]? = some id) (hlt : s.core.reservation.length < cfg.schedulingThreshold)
      (hd : (s.core.heap id).dest s.core.regs = some d) (hbb : P.findBB d = some bb)
      (hc : s.core.step (.branch id) = some c) :
      Iter P cfg s (({ s.charge cfg (s.core.node id).functionalUnit with
        core := c
        prevBB := s.currBB
        currBB := bb } : St).scheduleBB bb (some i))
  | finish {id : Nat} {c : Core} (hpc : s.pc = .scan 0) (hid : s.core.reservation[0]? = some id)
      (ha : (s.core.heap id).activeParents ≠ 0) (hq : s.core.computeQueue = []) (hl : s.core.readQueue = [])
      (hw : s.core.writeQueue = []) (hc : s.core.step (.finish id) = some c) :
      Iter P cfg s { s with
        core := c
        running := false
        stats := { s.stats with execnodes := (s.stats.cycle : Int) - s.stats.stalls - 1 }
        pc := .scan 1 }
  | skip {i id : Nat} (hpc : s.pc = .scan i) (hid : s.core.reservation[i]? = some id) :
      Iter P cfg s { s with pc := .scan (i + 1) }
  | spin {i id : Nat} (hpc : s.pc = .scan i) (hid : s.core.reservation[i]? = some id)
      (hn : (s.core.node id).isRet = true) (ha : (s.core.heap id).activeParents = 0) : Iter P cfg s s

section Inversion

variable {P : Program} {cfg : Config} {s s' : St}

theorem iter_computePass {i : Nat} (hL : s.core.Lists) (hpc : s.pc = .compute i) (h : s.computePass cfg i = .ok s') :
    Iter P cfg s s' := by
  unfold computePass at h
  split at h
  · rename_i hi
    split at h
    · rename_i hr
      cases h
      exact .nextBB hpc hi (by simpa using hr)
    · rename_i hr
      cases h
      exact .computeEnd hpc hi (by simpa using hr)
  · rename_i id hid
    split at h
    · cases h
    · rename_i r hr
      dsimp only at h
      split at h
      · rename_i hk
        by_cases hc : (s.core.node id).maxCycle ≤ (s.core.heap id).currCycle
        · obtain ⟨h₁, h₂⟩ := Core.step_commit hL hid hc
          simp only [h₁, if_true] at h
          cases h
          exact .commit hpc hid hr hk h₂
        · obtain ⟨h₁, h₂⟩ := Core.step_bump hL hid hc
          simp only [h₁, Bool.false_eq_true, if_false] at h
          cases h
          exact .bump hpc hid hr hk h₂
      · rename_i hk
        cases h
        exact .noUnit hpc hid hr (by simpa using hk)

section Scan

variable {i id : Nat} (hL : s.core.Lists) (hpc : s.pc = .scan i) (hid : s.core.reservation[i]? = some id)
include hL hpc hid

section

variable (hr : s.core.ready id = true)
include hr

theorem iter_launchLoad (hn : (s.core.node id).isLoad = true) : Iter P cfg s (s.launchLoad cfg id i) := by
  have hee := eraseIdx_eq_erase hL.reservation_nodup hid
  have hc : s.core.step (.launchLoad id) = some { s.core.computeMem id with
      readQueue := (s.core.computeMem id).readQueue ++ [id]
      reservation := (s.core.computeMem id).reservation.eraseIdx i } := by
    simp [Core.step, hr, hn, Core.computeMem, hee]
  exact .load hpc hid hc

theorem iter_launchStore (hn : (s.core.node id).isStore = true) : Iter P cfg s (s.launchStore cfg id i) := by
  have hee := eraseIdx_eq_erase hL.reservation_nodup hid
  have hc : s.core.step (.launchStore id) = some { s.core.computeMem id with
      writeQueue := (s.core.computeMem id).writeQueue ++ [id]
      reservation := (s.core.computeMem id).reservation.eraseIdx i } := by
    simp [Core.step, hr, hn, Core.computeMem, hee]
  exact .store hpc hid hc

theorem iter_launchZero (hn : (s.core.node id).onUnit = true) (hz : (s.core.node id).maxCycle = 0)
    (h : s.launchZero cfg id i = .ok s') : Iter P cfg s s' := by
  unfold launchZero at h
  split at h
  · cases h
  · rename_i c hc
    cases h
    obtain ⟨c₁, h₁, h₂⟩ := Core.step_zero hL hid hr hn hz hc
    have hfu : ((c.commit id).1.removeParents id).node id = s.core.node id := by
      obtain ⟨v, rfl⟩ := Core.compute_eq hc
      rw [Core.commit_retire fun _ => by simp [hz], Core.retire_node]
      simp
    have hi : Iter P cfg s _ := .zero hpc hid hz h₁ h₂
    rw [← hfu] at hi
    exact hi

theorem iter_launchUnit (hn : (s.core.node id).onUnit = true)
    (hz : (s.core.heap id).currCycle < (s.core.node id).maxCycle)
    (h : s.launchUnit cfg id i = .ok s') : Iter P cfg s s' := by
  unfold launchUnit at h
  dsimp only at h
  split at h
  · rename_i hk
    split at h
    · cases h
    · rename_i c hc
      cases h
      obtain ⟨c₁, h₁, h₂⟩ := Core.step_unit hL hid hr hn hz hc
      exact .unit hpc hid (by omega) hk h₁ h₂
  · cases h
    exact .skip hpc hid

theorem iter_takeBranch (hlt : s.core.reservation.length < cfg.schedulingThreshold)
    (h : s.takeBranch P cfg id i = .ok s') :
    Iter P cfg s s' := by
  have hee := eraseIdx_eq_erase hL.reservation_nodup hid
  unfold takeBranch at h
  split at h
  · cases h
  · rename_i d bb hd
    cases h
    simp only [Option.bind_eq_some_iff, Option.map_eq_some_iff, Prod.mk.injEq] at hd
    obtain ⟨d', hd, bb', hbb, rfl, rfl⟩ := hd
    have hc : s.core.step (.branch id) = some { (s.core.emit (.launch id)).emit (.branch id d') with
        reservation := ((s.core.emit (.launch id)).emit (.branch id d')).reservation.eraseIdx i } := by
      simp [Core.step, hr, hd, hee]
    simpa only [charge_currBB] using Iter.branch (P := P) hpc hid hlt hd hbb hc

end

theorem iter_scanPass (hf : ∀ id ∈ s.core.reservation, (s.core.heap id).currCycle = 0)
    (h : s.scanPass P cfg i = .ok s') : Iter P cfg s s' := by
  have hm := List.mem_of_getElem? hid
  have hee := eraseIdx_eq_erase hL.reservation_nodup hid
  unfold scanPass at h
  simp only [hid] at h
  split at h
  · rename_i ha
    have hr : s.core.ready id = true := by simp [Core.ready, hm, ha]
    split at h
    · rename_i hterm
      split at h
      · rename_i hn
        cases h
        exact iter_launchLoad hL hpc hid hr hn
      · rename_i hl
        split at h
        · rename_i hn
          cases h
          exact iter_launchStore hL hpc hid hr hn
        · rename_i hs
          have hn : (s.core.node id).onUnit = true := Node.onUnit_of_not (by simpa using hterm) (by simpa using hl)
            (by simpa using hs)
          split at h
          · rename_i hz
            exact iter_launchZero hL hpc hid hr hn hz h
          · rename_i hz
            exact iter_launchUnit hL hpc hid hr hn (by rw [hf id hm]; omega) h
    · split at h
      · split at h
        · rename_i hlt
          exact iter_takeBranch hL hpc hid hr hlt h
        · cases h
          exact .skip hpc hid
      · rename_i hret
        cases h
        exact .spin hpc hid (by simpa using hret) ha
  · rename_i ha
    split at h
    · rename_i hfin
      cases h
      simp only [Bool.and_eq_true, beq_iff_eq, List.isEmpty_iff] at hfin
      obtain ⟨⟨⟨⟨hret, rfl⟩, hq⟩, hl⟩, hw⟩ := hfin
      have hc : s.core.step (.finish id) = some { s.core.emit .finish with
          reservation := (s.core.emit .finish).reservation.eraseIdx 0 } := by
        simp [Core.step, hm, hret, hee]
      exact .finish hpc hid ha hq hl hw hc
    · cases h
      exact .skip hpc hid

end Scan

/-- **Every iteration is one of those listed.** -/
theorem iter_of_tickStep (hL : s.core.Lists) (hf : ∀ id ∈ s.core.reservation, (s.core.heap id).currCycle = 0)
    (hpc : s.pc ≠ .idle) (h : s.tickStep P cfg = .ok s') : Iter P cfg s s' := by
  unfold tickStep at h
  split at h
  · contradiction
  · rename_i i hpc
    exact iter_computePass hL hpc h
  · rename_i n rest k hpc
    cases h
    exact .schedule hpc
  · rename_i hpc
    cases h
    exact .schedEnd hpc
  · rename_i i hpc
    cases h
    exact .schedEnd hpc
  · rename_i hpc
    split at h
    · cases h
      exact .lockstep hpc
    · cases h
      exact .scanBegin hpc
  · rename_i i hpc
    cases hid : s.core.reservation[i]? with
    | none =>
      simp only [scanPass, hid] at h
      cases h
      exact .scanEnd hpc hid
    | some id => exact iter_scanPass hL hpc hid hf h

end Inversion

/-! ## The refinement -/

/-- The blocks that the engine holds are blocks of the program. -/
structure InProgram (P : Program) (s : St) : Prop where
  currBB : s.currBB ∈ P.bbList
  sched : ∀ ns k, s.pc = .sched ns k → ∀ n ∈ ns, n ∈ P.nodes

theorem mem_nodes_of_mem {P : Program} {b : BasicBlock} (hb : b ∈ P.bbList) {n : Node} (hn : n ∈ b.nodes) :
    n ∈ P.nodes := List.mem_flatMap.mpr ⟨b, hb, hn⟩

theorem InProgram.scheduleBB {P : Program} {s : St} {bb : BasicBlock} {k : Option Nat} (hc : s.currBB ∈ P.bbList)
    (hb : bb ∈ P.bbList) : InProgram P (s.scheduleBB bb k) := by
  refine ⟨hc, fun ns k' he n hn => ?_⟩
  simp only [St.scheduleBB, Pc.sched.injEq] at he
  exact mem_nodes_of_mem hb (he.1 ▸ hn)

end St

/-- The acts whose conditions nothing later restricts. -/
def Act.free : Act → Bool
  | .schedule .. | .launch .. => false
  | _ => true

/-- The instance that the next iteration sends to a functional unit, or computes at once. -/
def St.launching (s : St) (cfg : Config) : Option Nat :=
  match s.pc with
  | .scan i => s.core.reservation[i]?.filter fun id => s.core.ready id && (s.core.node id).onUnit &&
      ((s.core.node id).maxCycle == 0 || (takeUnit cfg s.units (s.core.node id).functionalUnit).2)
  | _ => none

/-- What `C` says of the events of the engine on `P` gives `D` for the acts of the core. -/
structure Gives (P : Program) (cfg : Config) (C : St → Ev → Prop) (D : Core → Act → Prop) : Prop where
  free : ∀ c a, a.free = true → D c a
  schedule : ∀ s n rest k, C s .iter → s.pc = .sched (n :: rest) k → n ∈ P.nodes →
    D s.core (.schedule s.prevBB.name n)
  launch : ∀ s id, C s .iter → s.launching cfg = some id → D s.core (.launch id)

namespace St

section Refines

variable {P : Program} {cfg : Config} {C : St → Ev → Prop} {D : Core → Act → Prop} {s s' : St} {e : Ev}

theorem launching_eq {i id : Nat} {c : Core} (hpc : s.pc = .scan i) (hid : s.core.reservation[i]? = some id)
    (hc : s.core.step (.launch id) = some c)
    (hk : (s.core.node id).maxCycle = 0 ∨ (takeUnit cfg s.units (s.core.node id).functionalUnit).2 = true) :
    s.launching cfg = some id := by
  have hr : s.core.ready id = true ∧ (s.core.node id).onUnit = true := by
    simp only [Core.step, Option.ite_none_right_eq_some, Bool.and_eq_true] at hc
    exact hc.1
  simp [launching, hpc, hid, Option.filter, hr, hk]

/-- An iteration stays in the program and is a run of the core. -/
theorem Iter.refines (hg : Gives P cfg C D) (hC : C s .iter) (hP : InProgram P s) (h : Iter P cfg s s') :
    InProgram P s' ∧ Engine.core.Run D s.core s'.core := by
  have free : ∀ {c c' : Core} {a : Act}, c.step a = some c' → a.free = true → Engine.core.Run D c c' :=
    fun h ha => .single (hg.free _ _ ha) h
  cases h with
  | commit hpc hid hr hk hc => exact ⟨⟨hP.currBB, by simp⟩, free hc rfl⟩
  | bump hpc hid hr hk hc => exact ⟨⟨hP.currBB, by simp⟩, free hc rfl⟩
  | noUnit hpc hid hr hk => exact ⟨⟨hP.currBB, by simp⟩, .refl _⟩
  | computeEnd hpc hi hr => exact ⟨⟨hP.currBB, by simp⟩, .refl _⟩
  | nextBB hpc hi hr => exact ⟨.scheduleBB hP.currBB hP.currBB, free (a := .enterBB s.currBB.name) rfl rfl⟩
  | @schedule n rest k hpc =>
    have hn : n ∈ P.nodes := hP.sched _ _ hpc n List.mem_cons_self
    refine ⟨⟨hP.currBB, fun ns k' he m hm => ?_⟩,
      .single (a := .schedule s.prevBB.name n) (hg.schedule s n rest k hC hpc hn) rfl⟩
    simp only [Pc.sched.injEq] at he
    exact hP.sched _ _ hpc m (List.mem_cons_of_mem _ (he.1 ▸ hm))
  | @schedEnd k hpc => exact ⟨⟨hP.currBB, by cases k <;> simp⟩, .refl _⟩
  | lockstep hpc => exact ⟨⟨hP.currBB, by simp [tickEnd]⟩, .refl _⟩
  | scanBegin hpc => exact ⟨⟨hP.currBB, by simp⟩, .refl _⟩
  | scanEnd hpc hi => exact ⟨⟨hP.currBB, by simp [tickEnd]⟩, .refl _⟩
  | load hpc hid hc => exact ⟨⟨by simpa using hP.currBB, by simp⟩, by simpa using free hc rfl⟩
  | store hpc hid hc => exact ⟨⟨by simpa using hP.currBB, by simp⟩, by simpa using free hc rfl⟩
  | @zero i id c c' hpc hid hz hc hc' =>
    have hl : Engine.core.Run D s.core c := .single (hg.launch s id hC (launching_eq hpc hid hc (.inl hz))) hc
    exact ⟨⟨by simpa using hP.currBB, by simp⟩, by simpa using hl.trans (free hc' rfl)⟩
  | @unit i id c c' hpc hid hz hk hc hc' =>
    have hl : Engine.core.Run D s.core c := .single (hg.launch s id hC (launching_eq hpc hid hc (.inr hk))) hc
    exact ⟨⟨hP.currBB, by simp⟩, hl.trans (free hc' rfl)⟩
  | @branch i id c d bb hpc hid hlt hd hbb hc =>
    have hb : bb ∈ P.bbList := List.mem_of_find?_eq_some hbb
    exact ⟨.scheduleBB hb hb, (free hc rfl).trans (free (a := .enterBB bb.name) rfl rfl)⟩
  | finish hpc hid ha hq hl hw hc => exact ⟨⟨hP.currBB, by simp⟩, free hc rfl⟩
  | skip hpc hid => exact ⟨⟨hP.currBB, by simp⟩, .refl _⟩
  | spin hpc hid hn ha => exact ⟨hP, .refl _⟩

end Refines

/-- What an event does. -/
inductive Move (P : Program) (cfg : Config) (s : St) : Ev → St → Prop
  | tick (hpc : s.pc = .idle) (hr : s.running = true) : Move P cfg s .tick s.tickBegin
  | iter {s' : St} (hpc : s.pc ≠ .idle) (h : Iter P cfg s s') : Move P cfg s .iter s'
  | readCommit {id : Nat} {data : Word} (hpc : s.pc = .idle) (hid : id ∈ s.core.readQueue) :
      Move P cfg s (.readCommit id data) { s with core := s.core.readCommit id data }
  | writeCommit {id : Nat} (hpc : s.pc = .idle) (hid : id ∈ s.core.writeQueue) :
      Move P cfg s (.writeCommit id) { s with core := s.core.writeCommit id }

theorem move_of_step {P : Program} {cfg : Config} {s s' : St} {e : Ev} (hL : s.core.Lists)
    (hf : ∀ id ∈ s.core.reservation, (s.core.heap id).currCycle = 0) (h : s.step P cfg e = some s') :
      Move P cfg s e s' := by
  cases e with
  | tick =>
    simp only [step] at h
    split at h
    · rename_i hpc
      simp only [Option.ite_none_right_eq_some, Option.some.injEq] at h
      obtain ⟨hr, rfl⟩ := h
      exact .tick hpc hr
    · cases h
  | iter =>
    have hpc : s.pc ≠ .idle := fun hpc => by simp [step, hpc] at h
    simp only [step] at h
    cases ht : s.tickStep P cfg with
    | error e => simp [ht, Except.toOption] at h
    | ok t =>
      simp only [ht, Except.toOption, Option.some.injEq] at h
      exact .iter hpc (iter_of_tickStep hL hf hpc (h ▸ ht))
  | readCommit id data =>
    simp only [step] at h
    split at h
    · rename_i hpc
      simp only [Option.ite_none_right_eq_some, Option.some.injEq] at h
      obtain ⟨hid, rfl⟩ := h
      exact .readCommit hpc hid
    · cases h
  | writeCommit id =>
    simp only [step] at h
    split at h
    · rename_i hpc
      simp only [Option.ite_none_right_eq_some, Option.some.injEq] at h
      obtain ⟨hid, rfl⟩ := h
      exact .writeCommit hpc hid
    · cases h

theorem Move.refines {P : Program} {cfg : Config} {C : St → Ev → Prop} {D : Core → Act → Prop} {s s' : St} {e : Ev}
    (hg : Gives P cfg C D) (hC : C s e) (hP : InProgram P s) (h : Move P cfg s e s') :
    InProgram P s' ∧ Engine.core.Run D s.core s'.core := by
  cases h with
  | tick hpc hr => exact ⟨⟨hP.currBB, by simp [tickBegin]⟩, .refl _⟩
  | iter hpc h => exact h.refines hg hC hP
  | @readCommit id data hpc hid =>
    have hs : s.core.step (.readCommit id data) = some (s.core.readCommit id data) := by simp [Core.step, hid]
    exact ⟨⟨hP.currBB, by simp [hpc]⟩, .single (a := .readCommit id data) (hg.free _ _ rfl) hs⟩
  | @writeCommit id hpc hid =>
    have hs : s.core.step (.writeCommit id) = some (s.core.writeCommit id) := by simp [Core.step, hid]
    exact ⟨⟨hP.currBB, by simp [hpc]⟩, .single (a := .writeCommit id) (hg.free _ _ rfl) hs⟩

end St

section Reachable

variable {P : Program} {cfg : Config} {C : St → Ev → Prop} {D : Core → Act → Prop} {s s' : St} {e : Ev}

theorem refines_of_reachable (hg : Gives P cfg C D) (h : (engine P cfg).ReachableWhen C s) :
    St.InProgram P s ∧ core.ReachableWhen D s.core := by
  refine System.invariantWhen (I := fun s => St.InProgram P s ∧ core.ReachableWhen D s.core) ?_ ?_ h
  · rintro s ⟨s₀, entry, init, ⟨h₁, h₂, h₃, h₄⟩, he, rfl⟩
    refine ⟨⟨List.mem_of_find?_eq_some he, by simp [St.initializeRun, St.tickBegin]⟩, .init ⟨init, ?_⟩⟩
    simp [St.initializeRun, St.tickBegin, h₁, h₂, h₃, h₄, Core.start]
  · rintro s e s' hr ⟨hP, hcore⟩ hC hs
    have hm := St.move_of_step (lists_of_reachable hcore) (fresh_of_reachable hcore) hs
    exact ⟨(hm.refines hg hC hP).1, hcore.run (hm.refines hg hC hP).2⟩

/-- Whatever is said of its events, the engine only schedules nodes of the program. -/
theorem gives_ofProgram (P : Program) (cfg : Config) (C : St → Ev → Prop) : Gives P cfg C (ofProgram P) where
  free c a ha := by cases a <;> trivial
  schedule s n rest k _ _ hn := hn
  launch s id _ _ := trivial

section

variable (h : (engine P cfg).ReachableWhen C s)
include h

/-- **The engine refines the core.** -/
theorem core_of_reachable : core.ReachableWhen (ofProgram P) s.core :=
  (refines_of_reachable (gives_ofProgram P cfg C) h).2

theorem inProgram_of_reachable : St.InProgram P s :=
  (refines_of_reachable (gives_ofProgram P cfg C) h).1

theorem move_of_reachable (hs : (engine P cfg).step s e = some s') : St.Move P cfg s e s' :=
  St.move_of_step (lists_of_reachable (core_of_reachable h)) (fresh_of_reachable (core_of_reachable h)) hs

/-- A run of the engine is a run of the core. -/
theorem core_of_run (hr : (engine P cfg).Run C s s') : core.Run (ofProgram P) s.core s'.core := by
  induction hr with
  | refl => exact .refl _
  | tail hr hC hs ih =>
    have hreach := h.run hr
    exact ih.trans ((move_of_reachable hreach hs).refines (gives_ofProgram P cfg C) hC
      (inProgram_of_reachable hreach)).2

end

end Reachable

end Salam.Engine
