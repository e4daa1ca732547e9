import Salam.Engine.Dependence
import Salam.Engine.ComputePass

/-!
# The latency of the compute queue

Without unit limits, the pass over the compute queue calls `commit()` once for each instance of the queue, and a launch
calls it once more: an instance of latency `m` that is launched in tick `t` commits in tick `t + m`. The ticks are told
by `cycle`; `clocked` is the engine with a record of what happens in which tick.

* `Core.Steady`: what everything else leaves of the compute queue.
* `timed_of_reachable`: the cycles that an instance has had, at any time.
* `compute_latency`: one call in each tick, and the tick of the commit.
-/

namespace Salam.Engine

open List (append_nil mem_append mem_append_left mem_map mem_singleton)
open Option (ite_none_right_eq_some)

/-! ## The engine with a clock -/

/-- The instance whose `commit()` is called. -/
def St.commitCall (cfg : Config) (s : St) : Ev → Option Nat
  | .tick => none
  | .iter =>
    match s.pc with
    | .compute i =>
      match s.core.computeQueue[i]?, s.core.reservation[i]? with
      | some id, some r => if (takeUnit cfg s.units (s.core.node r).functionalUnit).2 then some id else none
      | _, _ => none
    | .scan _ => s.launching cfg
    | _ => none
  | .readCommit id _ => some id
  | .writeCommit id => some id

/-- A state, what has happened until then and in which tick, the calls of `commit()`, and the compute queue at the start
of the tick. -/
structure Clocked where
  st : St
  log : List (Nat × Event)
  calls : List (Nat × Nat)
  queued : List Nat

/-- The record after an event that leads to `s'`. -/
def Clocked.after (cfg : Config) (x : Clocked) (e : Ev) (s' : St) : Clocked where
  st := s'
  log := x.log ++ (s'.core.log.drop x.st.core.log.length).map (s'.stats.cycle, ·)
  calls := x.calls ++ (x.st.commitCall cfg e).toList.map (x.st.stats.cycle, ·)
  queued := match e with
    | .tick => x.st.core.computeQueue
    | _ => x.queued

/-- The engine with a clock. -/
def clocked (P : Program) (cfg : Config) : System Clocked Ev where
  init x := (engine P cfg).init x.st ∧ x.log = [] ∧ x.calls = [] ∧ x.queued = []
  step x e := ((engine P cfg).step x.st e).map (x.after cfg e)

variable {cfg : Config} {P : Program}

theorem clocked_step {x x' : Clocked} {e : Ev} (h : (clocked P cfg).step x e = some x') :
    ∃ s', (engine P cfg).step x.st e = some s' ∧ x' = x.after cfg e s' := by
  obtain ⟨s', hs, hx⟩ := Option.map_eq_some_iff.mp h
  exact ⟨s', hs, hx.symm⟩

theorem engine_of_clocked {x : Clocked} (h : (clocked P cfg).Reachable x) : (engine P cfg).Reachable x.st := by
  obtain ⟨x₀, h₀, hr⟩ := h
  refine ⟨x₀.st, h₀.1, ?_⟩
  induction hr with
  | refl => exact .refl _
  | tail _ _ hs ih =>
    obtain ⟨s', hs', hx⟩ := clocked_step hs
    rw [hx]
    exact .tail ih trivial hs'

/-! ## What leaves the compute queue alone -/

/-- The instance that an event tells about. -/
def Event.actor : Event → Option Nat
  | .launch id | .commit id _ | .signal id _ => some id
  | _ => none

namespace Core

/-- An instance that goes through the compute queue. -/
def slow (c : Core) (id : Nat) : Prop := (c.node id).onUnit = true ∧ (c.node id).maxCycle ≠ 0

/-- The events `es` happen. -/
structure Turn (c c' : Core) (es : List Event) : Prop where
  log : c'.log = c.log ++ es
  next : c.next ≤ c'.next
  node : ∀ k < c.next, c'.node k = c.node k

/-- The compute queue and the cycles of its instances stay as they are, and nothing is said of an instance that goes
through it. -/
structure Steady (c c' : Core) (es : List Event) : Prop extends Turn c c' es where
  queue : c'.computeQueue = c.computeQueue
  cycles : ∀ k ∈ c.computeQueue, (c'.heap k).currCycle = (c.heap k).currCycle
  quick : ∀ e ∈ es, ∀ k, e.actor = some k → k < c'.next ∧ ¬c'.slow k

variable {c c' c'' : Core} {es es' : List Event} {id : Nat}

theorem Steady.refl (c : Core) : c.Steady c [] :=
  ⟨⟨(append_nil _).symm, Nat.le_refl _, fun _ _ => rfl⟩, rfl, fun _ _ => rfl, by simp⟩

theorem Steady.trans (h : c.Steady c' es) (h' : c'.Steady c'' es') : c.Steady c'' (es ++ es') where
  log := by rw [h'.log, h.log, List.append_assoc]
  next := Nat.le_trans h.next h'.next
  node k hk := (h'.node k (Nat.lt_of_lt_of_le hk h.next)).trans (h.node k hk)
  queue := h'.queue.trans h.queue
  cycles k hk := (h'.cycles k (h.queue ▸ hk)).trans (h.cycles k hk)
  quick e he k hk := by
    rcases mem_append.mp he with he | he
    · obtain ⟨hlt, hslow⟩ := h.quick e he k hk
      refine ⟨Nat.lt_of_lt_of_le hlt h'.next, ?_⟩
      rw [slow, h'.node k hlt]
      exact hslow
    · exact h'.quick e he k hk

/-- Events, and changes of the lists other than the compute queue. -/
theorem Steady.of_heap (hlog : c'.log = c.log ++ es) (hheap : c'.heap = c.heap) (hnext : c'.next = c.next)
    (hqueue : c'.computeQueue = c.computeQueue) (hquick : ∀ e ∈ es, ∀ k, e.actor = some k → k < c.next ∧ ¬c.slow k) :
    c.Steady c' es := by
  refine ⟨⟨hlog, by rw [hnext], fun k _ => by rw [Core.node, Core.node, hheap]⟩, hqueue, fun k _ => by rw [hheap], ?_⟩
  intro e he k hk
  rw [hnext, slow, Core.node, hheap]
  exact hquick e he k hk

theorem Steady.emit {e : Event} (he : e.actor = none) : c.Steady (c.emit e) [e] := by
  refine Steady.of_heap rfl rfl rfl rfl fun e' he' k hk => ?_
  rw [mem_singleton.mp he', he] at hk
  cases hk

theorem node_tick (id k : Nat) : (c.modify id fun x => { x with currCycle := x.currCycle + 1 }).node k = c.node k :=
  node_modify rfl k

theorem steady_schedule (hL : c.Lists) (prev : Label) (n : Node) : ∃ es, c.Steady (c.scheduleNode prev n) es := by
  have hlt := hL.lt_next
  rw [scheduleNode_eq hlt]
  refine ⟨_, ⟨⟨rfl, Nat.le_succ _, fun k hk => withNew_node (Nat.ne_of_lt hk)⟩, rfl, fun k hk => ?_, ?_⟩⟩
  · have hne : k ≠ c.next := Nat.ne_of_lt (hlt k (mem_live.mpr (.inr (.inl hk))))
    simp [withNew, hne]
  · intro e he k hk
    obtain ⟨p, -, rfl⟩ := mem_map.mp he
    cases hk

theorem quick_of_actor (hlt : id < c.next) (hslow : ¬c.slow id) (h : ∀ e ∈ es, ∀ k, e.actor = some k → k = id) :
    ∀ e ∈ es, ∀ k, e.actor = some k → k < c.next ∧ ¬c.slow k := by
  intro e he k hk
  rw [h e he k hk]
  exact ⟨hlt, hslow⟩

theorem not_slow_of_load (h : (c.node id).isLoad = true) : ¬c.slow id := fun hs => by
  rw [slow, Node.onUnit_of_isLoad h] at hs
  exact absurd hs.1 (by simp)

theorem not_slow_of_store (h : (c.node id).isStore = true) : ¬c.slow id := fun hs => by
  rw [slow, Node.onUnit_of_isStore h] at hs
  exact absurd hs.1 (by simp)

theorem not_slow_of_queued (h : (c.node id).queued = false) : ¬c.slow id := fun hs => by
  simp [Node.queued, hs.1] at h

/-- An instance that does not go through the queue starts, and does one thing more. -/
theorem steady_launch (hL : c.Lists) (hr : c.ready id = true) (hslow : ¬c.slow id) (e : Event) (he : e.actor = none)
    (hlog : c'.log = c.log ++ [.launch id, e]) (hheap : c'.heap = c.heap) (hnext : c'.next = c.next)
    (hqueue : c'.computeQueue = c.computeQueue) : ∃ es, c.Steady c' es := by
  have hlt := hL.lt_next id (mem_live.mpr (.inl (mem_of_ready hr)))
  refine ⟨_, Steady.of_heap hlog hheap hnext hqueue (quick_of_actor hlt hslow fun e' he' k hk => ?_)⟩
  simp only [List.mem_cons, List.not_mem_nil, or_false] at he'
  rcases he' with rfl | rfl
  · exact (Option.some.inj hk).symm
  · rw [he] at hk
    cases hk

theorem steady_launchLoad (hL : c.Lists) (h : c.step (.launchLoad id) = some c') : ∃ es, c.Steady c' es := by
  simp only [step, ite_none_right_eq_some, Bool.and_eq_true, Option.some.injEq] at h
  obtain ⟨⟨hr, hn⟩, rfl⟩ := h
  exact steady_launch hL hr (not_slow_of_load hn) (.request id (c.heap id).addr (c.heap id).len) rfl
    (by simp [computeMem]) rfl rfl rfl

theorem steady_launchStore (hL : c.Lists) (h : c.step (.launchStore id) = some c') : ∃ es, c.Steady c' es := by
  simp only [step, ite_none_right_eq_some, Bool.and_eq_true, Option.some.injEq] at h
  obtain ⟨⟨hr, hn⟩, rfl⟩ := h
  exact steady_launch hL hr (not_slow_of_store hn) (.request id (c.heap id).addr (c.heap id).len) rfl
    (by simp [computeMem]) rfl rfl rfl

theorem steady_branch (hL : c.Lists) (h : c.step (.branch id) = some c') : ∃ es, c.Steady c' es := by
  simp only [step, ite_none_right_eq_some] at h
  obtain ⟨hr, h⟩ := h
  split at h
  · rename_i d hd
    cases h
    exact steady_launch hL hr (not_slow_of_queued (queued_of_dest hd)) (.branch id d) rfl (by simp) rfl rfl rfl
  · cases h

theorem steady_finish (h : c.step (.finish id) = some c') : ∃ es, c.Steady c' es := by
  simp only [step, ite_none_right_eq_some, Option.some.injEq] at h
  obtain ⟨-, rfl⟩ := h
  refine ⟨[.finish], Steady.of_heap rfl rfl rfl rfl fun e he k hk => ?_⟩
  rw [mem_singleton.mp he] at hk
  cases hk

theorem actor_of_retire {v : Option Word} {ks : List Nat} :
    ∀ e ∈ Event.commit id v :: ks.map (Event.signal id), ∀ k, e.actor = some k → k = id := by
  intro e he k hk
  rcases List.mem_cons.mp he with rfl | he
  · exact (Option.some.inj hk).symm
  · obtain ⟨_, -, rfl⟩ := mem_map.mp he
    exact (Option.some.inj hk).symm

/-- An instance that does not go through the queue commits. -/
theorem steady_retire (hlt : id < c.next) (hslow : ¬c.slow id) : c.Steady (c.retire id)
    (.commit id (c.outcome id) :: (c.heap id).children.map (Event.signal id)) where
  log := retire_log c id
  next := Nat.le_of_eq (retire_next c id).symm
  node k _ := retire_node k
  queue := retire_computeQueue c id
  cycles k _ := by rw [retire_heap]
  quick e he k hk := by
    obtain ⟨hk', hslow'⟩ := quick_of_actor hlt hslow actor_of_retire e he k hk
    rw [retire_next, slow, retire_node]
    exact ⟨hk', hslow'⟩

theorem Steady.setFinal (v : Word) : c.Steady (c.setFinal id v) [] := by
  refine ⟨⟨(append_nil _).symm, Nat.le_refl _, fun k _ => node_setFinal v k⟩, rfl, fun k _ => ?_, by simp⟩
  rw [setFinal_heap]

theorem Steady.modify {f : Inst → Inst} (hf : ∀ x, (f x).node = x.node) (hid : id ∉ c.computeQueue) :
    c.Steady (c.modify id f) [] := by
  refine ⟨⟨(append_nil _).symm, Nat.le_refl _, fun k _ => node_modify (hf _) k⟩, rfl, fun k hk => ?_, by simp⟩
  have hne : k ≠ id := fun he => hid (he ▸ hk)
  rw [modify_heap, if_neg hne]

theorem Steady.lists {r p q w : List Nat} (h : c.Steady c' es) (hp : p = c.computeQueue) :
    c.Steady { c' with reservation := r, computeQueue := p, readQueue := q, writeQueue := w } es :=
  ⟨⟨h.log, h.next, h.node⟩, hp, h.cycles, h.quick⟩

/-- An instance of latency 0 is launched and commits. -/
theorem steady_zero (hL : c.Lists) (hz : (c.node id).maxCycle = 0) (h : c.step (.launch id) = some c')
    (h' : c'.step (.commit id) = some c'') : ∃ es, c.Steady c'' es := by
  simp only [step, ite_none_right_eq_some] at h
  obtain ⟨hr, h⟩ := h
  rw [Bool.and_eq_true] at hr
  have hmem := mem_of_ready hr.1
  have hlt := hL.lt_next id (mem_live.mpr (.inl hmem))
  have hslow : ¬c.slow id := fun hs => hs.2 hz
  split at h
  · rename_i c₁ hc
    cases h
    obtain ⟨v, rfl⟩ := compute_eq hc
    simp only [step, ite_none_right_eq_some, Option.some.injEq] at h'
    obtain ⟨-, h'⟩ := h'
    rw [← retire, retire_with] at h'
    have hlaunch : c.Steady ((c.setFinal id v).emit (.launch id)) ([] ++ [.launch id]) := by
      refine (Steady.setFinal v).trans (Steady.of_heap rfl rfl rfl rfl ?_)
      refine quick_of_actor hlt (by rw [slow, node_setFinal]; exact hslow) fun e he k hk => ?_
      rw [mem_singleton.mp he] at hk
      exact (Option.some.inj hk).symm
    have hslow' : ¬((c.setFinal id v).emit (.launch id)).slow id := by
      rw [slow, hlaunch.node id hlt]
      exact hslow
    have hretire := hlaunch.trans (steady_retire hlt hslow')
    have hnot : id ∉ c.computeQueue := (hL.disjoint.1 id hmem).1
    have hback : (c.computeQueue ++ [id]).erase id = c.computeQueue := by simp [List.erase_append_right, hnot]
    rw [← h']
    exact ⟨_, hretire.lists hback⟩
  · cases h

theorem steady_readCommit (hL : c.Lists) (hid : id ∈ c.readQueue) (data : Word) :
    ∃ es, c.Steady (c.readCommit id data) es := by
  have hn := hL.isLoad id hid
  have hlt := hL.lt_next id (mem_live.mpr (.inr (.inr (.inl hid))))
  have hset : c.Steady (c.setResult id data) [] := by
    exact Steady.setFinal _
  have hnot : id ∉ c.computeQueue := fun hq => (hL.disjoint.2.1 id hq).1 hid
  by_cases hc : (c.node id).maxCycle ≤ (c.heap id).currCycle
  · have hcommit : ((c.setResult id data).commit id).1.removeParents id = (c.setResult id data).retire id := by
      refine commit_retire fun _ => ?_
      rw [setResult_eq, node_setFinal, setFinal_heap]
      exact hc
    have hslow : ¬(c.setResult id data).slow id := by
      rw [slow, hset.node id hlt]
      exact not_slow_of_load hn
    have hretire := hset.trans (steady_retire hlt hslow)
    rw [readCommit, hcommit]
    exact ⟨_, hretire.lists (retire_computeQueue _ id)⟩
  · rw [readCommit, commit_lose hn (Nat.lt_of_not_le hc)]
    refine ⟨[], Steady.lists (Steady.modify ?_ hnot) rfl⟩
    exact fun _ => rfl

theorem steady_writeCommit (hL : c.Lists) (hid : id ∈ c.writeQueue) : ∃ es, c.Steady (c.writeCommit id) es := by
  have hn := hL.isStore id hid
  have hlt := hL.lt_next id (mem_live.mpr (.inr (.inr (.inr hid))))
  have hcommit : (c.commit id).1.removeParents id = c.retire id := commit_retire fun hr => by
    rw [Node.returnRegister_of_isStore hn] at hr
    cases hr
  have hretire := steady_retire hlt (not_slow_of_store hn)
  rw [writeCommit, hcommit]
  exact ⟨_, hretire.lists (retire_computeQueue c id)⟩

end Core

/-! ## One event -/

namespace St

/-- The instances whose `commit()` the pass has yet to call. -/
def toCall (s : St) : List Nat :=
  match s.pc with
  | .compute i => s.core.computeQueue.drop i
  | _ => []

/-- What an event does to the compute queue. -/
inductive Beat (cfg : Config) (s : St) : Ev → St → Prop
  | tick (hpc : s.pc = .idle) : Beat cfg s .tick s.tickBegin
  | steady {e : Ev} {s' : St} {es : List Event} (he : e ≠ .tick) (hcore : s.core.Steady s'.core es)
      (hcycle : s'.stats.cycle = s.stats.cycle) (hcall : s'.toCall = s.toCall)
      (hquick : ∀ k ∈ s.commitCall cfg e, ¬s.core.slow k) : Beat cfg s e s'
  | commit {i id : Nat} {v : Word} {ks : List Nat} {s' : St} (hpc : s.pc = .compute i)
      (hid : s.core.computeQueue[i]? = some id)
      (hdone : (s.core.node id).maxCycle ≤ (s.core.heap id).currCycle)
      (hcore : s.core.Turn s'.core (.commit id (some v) :: ks.map (Event.signal id)))
      (hqueue : s'.core.computeQueue = s.core.computeQueue.erase id)
      (hran : ∀ k, (s'.core.heap k).currCycle = (s.core.heap k).currCycle) (hpc' : s'.pc = .compute i)
      (hcycle : s'.stats.cycle = s.stats.cycle) (hcall : s.commitCall cfg .iter = some id) : Beat cfg s .iter s'
  | bump {i id : Nat} {s' : St} (hpc : s.pc = .compute i) (hid : s.core.computeQueue[i]? = some id)
      (hrun : (s.core.heap id).currCycle < (s.core.node id).maxCycle)
      (hcore : s.core.Turn s'.core []) (hqueue : s'.core.computeQueue = s.core.computeQueue)
      (hran : ∀ k, (s'.core.heap k).currCycle = (s.core.heap k).currCycle + if k = id then 1 else 0)
      (hpc' : s'.pc = .compute (i + 1))
      (hcycle : s'.stats.cycle = s.stats.cycle) (hcall : s.commitCall cfg .iter = some id) : Beat cfg s .iter s'
  | launch {i id : Nat} {s' : St} (hpc : s.pc = .scan i) (hid : id ∈ s.core.reservation) (hslow : s.core.slow id)
      (hcore : s.core.Turn s'.core [.launch id]) (hqueue : s'.core.computeQueue = s.core.computeQueue ++ [id])
      (hran : ∀ k, (s'.core.heap k).currCycle = (s.core.heap k).currCycle + if k = id then 1 else 0)
      (hpc' : s'.pc = .scan i) (hcycle : s'.stats.cycle = s.stats.cycle) (hcall : s.commitCall cfg .iter = some id) :
      Beat cfg s .iter s'

section Beat

variable {P : Program} {cfg : Config} {s s' : St} {e : Ev}

theorem takeUnit_unlimited (hm : cfg.unlimitedMode = true) (k : Units) (u : FunctionalUnit) :
    (takeUnit cfg k u).2 = true := by
  rw [takeUnit, if_pos hm]

theorem occupancy_cycle (t : Stats) (f : Flags) : (t.occupancy f).cycle = t.cycle := by
  unfold Stats.occupancy
  split <;> try rfl
  split <;> rfl

theorem tickEnd_cycle : s.tickEnd.stats.cycle = s.stats.cycle := occupancy_cycle _ _

theorem commitCall_pass (hm : cfg.unlimitedMode = true) {i id r : Nat} (hpc : s.pc = .compute i)
    (hid : s.core.computeQueue[i]? = some id) (hr : s.core.reservation[i]? = some r) :
      s.commitCall cfg .iter = some id := by
  simp only [commitCall, hpc, hid, hr, takeUnit_unlimited hm, if_true]

theorem terminator_of_onUnit {n : Node} (h : n.onUnit = true) : n.terminator = false := by
  unfold Node.onUnit Node.terminator at *
  split at h <;> simp_all

/-- The launch of an instance that goes through the compute queue. -/
theorem beat_launch (hm : cfg.unlimitedMode = true) {i id : Nat} (hpc : s.pc = .scan i) (hl : s.launching cfg = some id)
    (hz : (s.core.node id).maxCycle ≠ 0) (hfresh : ∀ id ∈ s.core.reservation, (s.core.heap id).currCycle = 0)
    (h : s.tickStep P cfg = .ok s') : Beat cfg s .iter s' := by
  have hcall : s.commitCall cfg .iter = some id := by
    simp only [commitCall, hpc]
    exact hl
  simp only [launching, hpc, Option.filter_eq_some_iff, Bool.and_eq_true] at hl
  obtain ⟨hid, ⟨hr, hn⟩, -⟩ := hl
  have hmem := List.mem_of_getElem? hid
  have hparents := Core.activeParents_of_ready hr
  have hload := Node.isLoad_of_onUnit hn
  have hstore := Node.isStore_of_onUnit hn
  have hterm : (s.core.node id).terminator = false := terminator_of_onUnit hn
  have hunit : s.launchUnit cfg id i = .ok s' := by
    simpa only [tickStep, hpc, scanPass, hid, hparents, hterm, hload, hstore, hz, Bool.not_false, Bool.false_eq_true,
      if_true, if_false] using h
  simp only [launchUnit, takeUnit_unlimited hm, if_true] at hunit
  split at hunit
  · cases hunit
  · rename_i c hc
    obtain ⟨v, rfl⟩ := Core.compute_eq hc
    cases hunit
    have hlt : (s.core.heap id).currCycle < (s.core.node id).maxCycle := by
      rw [hfresh id hmem]
      exact Nat.pos_of_ne_zero hz
    have hret := Node.returnRegister_of_onUnit hn
    have hnode : ({ (s.core.setFinal id v).emit (.launch id) with
        computeQueue := ((s.core.setFinal id v).emit (.launch id)).computeQueue ++ [id] } : Core).node id =
          s.core.node id :=
      Core.node_setFinal v id
    have hbump : (({ (s.core.setFinal id v).emit (.launch id) with
        computeQueue := ((s.core.setFinal id v).emit (.launch id)).computeQueue ++ [id] } : Core).commit id).1 =
        ({ (s.core.setFinal id v).emit (.launch id) with
          computeQueue := ((s.core.setFinal id v).emit (.launch id)).computeQueue ++ [id] } : Core).modify id fun x =>
            { x with currCycle := x.currCycle + 1 } := by
      refine Core.commit_bump (by rw [hnode]; exact hret) ?_
      rw [hnode]
      simpa [Core.setFinal_heap] using hlt
    refine .launch hpc hmem ⟨hn, hz⟩ ⟨?_, ?_, fun k _ => ?_⟩ ?_ (fun k => ?_) rfl rfl hcall
    all_goals simp only [hbump]
    · rfl
    · exact Nat.le_refl _
    · exact (Core.node_tick id k).trans (Core.node_setFinal v k)
    · rfl
    · by_cases hk : k = id <;> simp [Core.modify_heap, Core.setFinal_heap, hk]

/-- Outside the pass and without such a launch, an iteration leaves the compute queue alone. -/
theorem beat_steady {es : List Event} (hcore : s.core.Steady s'.core es) (hcycle : s'.stats.cycle = s.stats.cycle)
    (hcall : s.toCall = []) (hcall' : s'.toCall = []) (hpc : ∀ i, s.pc ≠ .compute i)
    (hlaunch : ∀ k, s.launching cfg = some k → (s.core.node k).maxCycle = 0) : Beat cfg s .iter s' := by
  refine .steady (by simp) hcore hcycle (by rw [hcall, hcall']) fun k hk hslow => ?_
  simp only [commitCall] at hk
  split at hk
  · rename_i i hi
    exact hpc i hi
  · exact hslow.2 (hlaunch k hk)
  · cases hk

theorem beat_of_iter (hm : cfg.unlimitedMode = true) (hL : s.core.Lists)
    (hfresh : ∀ id ∈ s.core.reservation, (s.core.heap id).currCycle = 0) (hpc : s.pc ≠ .idle)
    (ht : s.tickStep P cfg = .ok s') : Beat cfg s .iter s' := by
  by_cases hslow : ∃ i id, s.pc = .scan i ∧ s.launching cfg = some id ∧ (s.core.node id).maxCycle ≠ 0
  · obtain ⟨i, id, hscan, hl, hz⟩ := hslow
    exact beat_launch hm hscan hl hz hfresh ht
  have hquick : ∀ k, s.launching cfg = some k → (s.core.node k).maxCycle = 0 := by
    intro k hk
    by_contra hz
    cases hp : s.pc with
    | scan i => exact hslow ⟨i, k, hp, hk, hz⟩
    | _ => simp [launching, hp] at hk
  cases iter_of_tickStep hL hfresh hpc ht with
  | @commit i id r c hpc hid hr hk hc =>
    simp only [Core.step, ite_none_right_eq_some, Option.some.injEq] at hc
    obtain ⟨⟨-, hdone⟩, rfl⟩ := hc
    obtain ⟨r', hr'⟩ := Option.isSome_iff_exists.mp
      (Node.returnRegister_of_onUnit (hL.onUnit id (List.mem_of_getElem? hid)))
    have hlog : (s.core.retire id).log = s.core.log ++
        .commit id (some (memcpy (s.core.node id).returnSize (s.core.regs r') (s.core.heap id).finalResult)) ::
          (s.core.heap id).children.map (Event.signal id) := by
      rw [Core.retire_log, Core.outcome, hr', Option.map_some]
    refine .commit hpc hid hdone ⟨hlog, Nat.le_of_eq (Core.retire_next _ id).symm, fun k _ => Core.retire_node k⟩
      (congrArg (·.erase id) (Core.retire_computeQueue _ id)) (fun k => ?_) rfl rfl (commitCall_pass hm hpc hid hr)
    show ((s.core.retire id).heap k).currCycle = _
    rw [Core.retire_heap]
  | @bump i id r c hpc hid hr hk hc =>
    simp only [Core.step, ite_none_right_eq_some, Option.some.injEq] at hc
    obtain ⟨⟨-, hrun⟩, rfl⟩ := hc
    refine .bump hpc hid hrun ⟨(append_nil _).symm, Nat.le_refl _, fun k _ => Core.node_tick id k⟩ rfl
      (fun k => ?_) rfl rfl
      (commitCall_pass hm hpc hid hr)
    by_cases hk : k = id <;> simp [Core.modify_heap, hk]
  | noUnit hpc hid hr hk => rw [takeUnit_unlimited hm] at hk; cases hk
  | @computeEnd i hpc hi hr =>
    have hempty : s.toCall = [] := by
      simp only [toCall, hpc]
      exact List.drop_of_length_le (List.getElem?_eq_none_iff.mp hi)
    refine .steady (by simp) (Core.Steady.refl _) rfl hempty.symm fun k hk => ?_
    simp [commitCall, hpc, hi] at hk
  | @nextBB i hpc hi hr =>
    have hempty : s.toCall = [] := by
      simp only [toCall, hpc]
      exact List.drop_of_length_le (List.getElem?_eq_none_iff.mp hi)
    refine .steady (by simp) (Core.Steady.emit (e := .scheduleBB s.currBB.name) rfl) rfl hempty.symm fun k hk => ?_
    simp [commitCall, hpc, hi] at hk
  | @schedule n rest k hpc =>
    obtain ⟨es, hes⟩ := Core.steady_schedule hL s.prevBB.name n
    exact beat_steady hes rfl (by simp [toCall, hpc]) rfl (by simp [hpc]) hquick
  | @schedEnd k hpc =>
    refine beat_steady (Core.Steady.refl _) rfl (by simp [toCall, hpc]) ?_ (by simp [hpc]) hquick
    cases k <;> rfl
  | lockstep hpc =>
    exact beat_steady (Core.Steady.refl _) tickEnd_cycle (by simp [toCall, hpc]) rfl (by simp [hpc]) hquick
  | scanBegin hpc => exact beat_steady (Core.Steady.refl _) rfl (by simp [toCall, hpc]) rfl (by simp [hpc]) hquick
  | scanEnd hpc hi =>
    exact beat_steady (Core.Steady.refl _) tickEnd_cycle (by simp [toCall, hpc]) rfl (by simp [hpc]) hquick
  | @load i id c hpc hid hc =>
    obtain ⟨es, hes⟩ := Core.steady_launchLoad hL hc
    exact beat_steady (by rw [charge_core]; exact hes) (by rw [charge_stats]) (by simp [toCall, hpc]) (by simp [toCall])
      (by simp [hpc]) hquick
  | @store i id c hpc hid hc =>
    obtain ⟨es, hes⟩ := Core.steady_launchStore hL hc
    exact beat_steady (by rw [charge_core]; exact hes) (by rw [charge_stats]) (by simp [toCall, hpc]) (by simp [toCall])
      (by simp [hpc]) hquick
  | @zero i id c c' hpc hid hz hc hc' =>
    obtain ⟨es, hes⟩ := Core.steady_zero hL hz hc hc'
    exact beat_steady (by rw [charge_core]; exact hes) (by rw [charge_stats]) (by simp [toCall, hpc]) (by simp [toCall])
      (by simp [hpc]) hquick
  | @unit i id c c' hpc hid hz hk hc hc' =>
    exact absurd (hquick id (launching_eq hpc hid hc (.inr hk))) hz
  | @branch i id c d bb hpc hid hlt hd hbb hc =>
    obtain ⟨es, hes⟩ := Core.steady_branch hL hc
    exact beat_steady (hes.trans (Core.Steady.emit (e := .scheduleBB bb.name) rfl)) (by simp [scheduleBB, charge_stats])
      (by simp [toCall, hpc]) (by simp [toCall, scheduleBB]) (by simp [hpc]) hquick
  | @finish id c hpc hid ha hq hl hw hc =>
    obtain ⟨es, hes⟩ := Core.steady_finish hc
    exact beat_steady hes rfl (by simp [toCall, hpc]) rfl (by simp [hpc]) hquick
  | skip hpc hid => exact beat_steady (Core.Steady.refl _) rfl (by simp [toCall, hpc]) rfl (by simp [hpc]) hquick
  | spin hpc hid hn ha =>
    exact beat_steady (Core.Steady.refl _) rfl (by simp [toCall, hpc]) (by simp [toCall, hpc]) (by simp [hpc]) hquick

theorem beat_of_step (hm : cfg.unlimitedMode = true) (h : (engine P cfg).Reachable s)
    (hs : (engine P cfg).step s e = some s') :
    Beat cfg s e s' := by
  have hcore := core_of_reachable h
  have hL := lists_of_reachable hcore
  cases move_of_reachable h hs with
  | tick hpc hr => exact .tick hpc
  | iter hpc hi =>
    refine beat_of_iter (P := P) hm hL (fresh_of_reachable hcore) hpc (ok_of_toOption ?_)
    simp only [engine, step] at hs
    exact hs
  | @readCommit id data hpc hid =>
    obtain ⟨es, hes⟩ := Core.steady_readCommit hL hid data
    refine .steady (by simp) hes rfl (by simp [toCall, hpc]) fun k hk => ?_
    cases hk
    exact Core.not_slow_of_load (hL.isLoad id hid)
  | @writeCommit id hpc hid =>
    obtain ⟨es, hes⟩ := Core.steady_writeCommit hL hid
    refine .steady (by simp) hes rfl (by simp [toCall, hpc]) fun k hk => ?_
    cases hk
    exact Core.not_slow_of_store (hL.isStore id hid)

end Beat

end St

/-! ## The invariant -/

/-- The commit and the signals of `id`. -/
def Event.output (id : Nat) : Event → Prop
  | .commit k _ | .signal k _ => k = id
  | _ => False

/-- How often `commit()` has been called in this tick for an instance that was in the queue when it began. -/
def St.called (s : St) (id : Nat) : Nat := if id ∈ s.toCall then 0 else 1

/-- The cycles of the instances in the compute queue, and the ticks of the others' commits. -/
structure Timed (x : Clocked) : Prop where
  log : x.log.map Prod.snd = x.st.core.log
  log_le : ∀ p ∈ x.log, p.1 ≤ x.st.stats.cycle
  calls_le : ∀ p ∈ x.calls, p.1 ≤ x.st.stats.cycle
  slow : ∀ id ∈ x.st.core.computeQueue, x.st.core.slow id
  cycles : ∀ id ∈ x.st.core.computeQueue, (x.st.core.heap id).currCycle ≤ (x.st.core.node id).maxCycle ∧
    ∃ t, (t, .launch id) ∈ x.log ∧ (x.st.core.heap id).currCycle + t = x.st.stats.cycle + x.st.called id
  outputs : ∀ t id, (t, .launch id) ∈ x.log → x.st.core.slow id → id ∉ x.st.core.computeQueue →
    (∃ v, (t + (x.st.core.node id).maxCycle, .commit id (some v)) ∈ x.log) ∧
      ∀ p ∈ x.log, p.2.output id → p.1 = t + (x.st.core.node id).maxCycle
  queued : ∀ id ∈ x.queued, x.st.core.slow id ∧ .launch id ∈ x.st.core.log
  calls : ∀ id ∈ x.queued, x.calls.count (x.st.stats.cycle, id) = x.st.called id
  toCall : ∀ id ∈ x.st.toCall, id ∈ x.queued

section Timed

variable {P : Program} {cfg : Config} {x : Clocked} {s' : St} {e : Ev} {es : List Event} {id : Nat}

/-- What happens is written down with the tick. -/
theorem Clocked.after_log (hcore : x.st.core.Turn s'.core es) (hcycle : s'.stats.cycle = x.st.stats.cycle) :
    (x.after cfg e s').log = x.log ++ es.map (x.st.stats.cycle, ·) := by
  have hdrop : s'.core.log.drop x.st.core.log.length = es := by rw [hcore.log, List.drop_left]
  show x.log ++ (s'.core.log.drop x.st.core.log.length).map (s'.stats.cycle, ·) = _
  rw [hdrop, hcycle]

theorem Timed.log_turn (h : Timed x) (cfg : Config) (e : Ev) (hcore : x.st.core.Turn s'.core es)
    (hcycle : s'.stats.cycle = x.st.stats.cycle) : (x.after cfg e s').log.map Prod.snd = s'.core.log ∧
      ∀ p ∈ (x.after cfg e s').log, p.1 ≤ s'.stats.cycle := by
  rw [Clocked.after_log hcore hcycle]
  refine ⟨?_, fun p hp => ?_⟩
  · rw [List.map_append, h.log, List.map_map, hcore.log]
    congr 1
    exact List.map_id _
  · rw [hcycle]
    rcases mem_append.mp hp with hp | hp
    · exact h.log_le p hp
    · obtain ⟨_, -, rfl⟩ := mem_map.mp hp
      exact Nat.le_refl _

theorem Timed.calls_turn (h : Timed x) (hcycle : s'.stats.cycle = x.st.stats.cycle) :
    ∀ p ∈ (x.after cfg e s').calls, p.1 ≤ s'.stats.cycle := by
  intro p hp
  rw [hcycle]
  rcases mem_append.mp hp with hp | hp
  · exact h.calls_le p hp
  · obtain ⟨_, -, rfl⟩ := mem_map.mp hp
    exact Nat.le_refl _

theorem Timed.launched_lt (h : Timed x) (hA : x.st.core.Accounts) {t id : Nat} (hl : (t, .launch id) ∈ x.log) :
    id < x.st.core.next := by
  refine (hA.launch_gone id ?_).2
  rw [← h.log]
  exact List.mem_map_of_mem hl

theorem slow_turn {c c' : Core} (hcore : c.Turn c' es) (hid : id < c.next) : c'.slow id ↔ c.slow id := by
  rw [Core.slow, Core.slow, hcore.node id hid]

theorem actor_of_output {e : Event} (h : e.output id) : e.actor = some id := by
  unfold Event.output at h
  split at h
  · exact congrArg some h
  · exact congrArg some h
  · exact h.elim

theorem Timed.launch_unique (h : Timed x) (hA : x.st.core.Accounts) {t t' id : Nat} (hl : (t, .launch id) ∈ x.log)
    (hl' : (t', .launch id) ∈ x.log) : t = t' := by
  have hone : x.st.core.log.count (.launch id) ≤ 1 := launch_le_one hA.ordered
  rw [← h.log, List.count, List.countP_map] at hone
  have hp : ∀ u, (u, Event.launch id) ∈ x.log →
    (u, Event.launch id) ∈ x.log.filter ((· == Event.launch id) ∘ Prod.snd) :=
    fun u hu => List.mem_filter.mpr ⟨hu, by simp⟩
  rw [List.countP_eq_length_filter] at hone
  have h₁ := hp t hl
  have h₂ := hp t' hl'
  match hf : x.log.filter ((· == Event.launch id) ∘ Prod.snd) with
  | [] => rw [hf] at h₁; cases h₁
  | [a] =>
    rw [hf, mem_singleton] at h₁ h₂
    exact congrArg Prod.fst (h₁.trans h₂.symm)
  | _ :: _ :: _ =>
    rw [hf] at hone
    simp at hone

theorem no_output {c : Core} (hA : c.Accounts) (hlive : id ∈ c.live) : ∀ e ∈ c.log, ¬e.output id := by
  intro e he hout
  have hnot : committed c.log id = false := by
    rw [Bool.eq_false_iff]
    exact fun hc => (hA.committed_gone id hc).1 hlive
  cases e with
  | commit k v =>
    obtain rfl : k = id := hout
    exact absurd (committed_iff.mpr ⟨v, he⟩) (by rw [hnot]; exact Bool.false_ne_true)
  | signal k j =>
    obtain rfl : k = id := hout
    have hcount := hA.signalled k j
    rw [hnot] at hcount
    exact absurd he (List.count_eq_zero.mp hcount)
  | _ => exact hout

/-- The outputs of an instance that is not in the queue, when more happens to others. -/
theorem Timed.outputs_turn (h : Timed x) (hA : x.st.core.Accounts) (hcore : x.st.core.Turn s'.core es)
    (hcycle : s'.stats.cycle = x.st.stats.cycle) {t id : Nat} (hl : (t, .launch id) ∈ x.log) (hs : s'.core.slow id)
    (hq : id ∉ x.st.core.computeQueue) (hother : ∀ e ∈ es, ¬e.output id) :
    (∃ v, (t + (s'.core.node id).maxCycle, .commit id (some v)) ∈ (x.after cfg e s').log) ∧
      ∀ p ∈ (x.after cfg e s').log, p.2.output id → p.1 = t + (s'.core.node id).maxCycle := by
  have hlt := h.launched_lt hA hl
  obtain ⟨⟨v, hv⟩, hout⟩ := h.outputs t id hl ((slow_turn hcore hlt).mp hs) hq
  rw [Clocked.after_log hcore hcycle, hcore.node id hlt]
  refine ⟨⟨v, mem_append_left _ hv⟩, fun p hp hpo => ?_⟩
  rcases mem_append.mp hp with hp | hp
  · exact hout p hp hpo
  · obtain ⟨e, he, rfl⟩ := mem_map.mp hp
    exact absurd hpo (hother e he)

theorem iter_ne_tick : Ev.iter ≠ .tick := by simp

/-- The queue at the start of the tick stays what it was. -/
theorem Timed.queued_turn (h : Timed x) (cfg : Config) (hA : x.st.core.Accounts) (hcore : x.st.core.Turn s'.core es)
    (he : e ≠ .tick) : (x.after cfg e s').queued = x.queued ∧ ∀ id ∈ x.queued, s'.core.slow id ∧
      .launch id ∈ s'.core.log := by
  refine ⟨by cases e <;> first | rfl | contradiction, fun id hid => ?_⟩
  obtain ⟨hs, hl⟩ := h.queued id hid
  rw [hcore.log]
  exact ⟨(slow_turn hcore (hA.launch_gone id hl).2).mpr hs, mem_append_left _ hl⟩

theorem Timed.steady (h : Timed x) (hA : x.st.core.Accounts) (hL : x.st.core.Lists) (he : e ≠ .tick)
    (hcore : x.st.core.Steady s'.core es) (hcycle : s'.stats.cycle = x.st.stats.cycle) (hcall : s'.toCall = x.st.toCall)
    (hquick : ∀ k ∈ x.st.commitCall cfg e, ¬x.st.core.slow k) : Timed (x.after cfg e s') := by
  obtain ⟨hlog, hle⟩ := h.log_turn cfg e hcore.toTurn hcycle
  obtain ⟨hqueued, hslow⟩ := h.queued_turn cfg hA hcore.toTurn he
  have hlt : ∀ id ∈ x.st.core.computeQueue, id < x.st.core.next := fun id hid =>
    hL.lt_next id (Core.mem_live.mpr (.inr (.inl hid)))
  have hcalled : ∀ id, s'.called id = x.st.called id := fun id => by rw [St.called, St.called, hcall]
  refine ⟨hlog, hle, h.calls_turn hcycle, ?_, ?_, ?_, ?_, ?_, ?_⟩
  · intro id hid
    have hid' : id ∈ x.st.core.computeQueue := hcore.queue ▸ hid
    exact (slow_turn hcore.toTurn (hlt id hid')).mpr (h.slow id hid')
  · intro id hid
    have hid' : id ∈ x.st.core.computeQueue := hcore.queue ▸ hid
    obtain ⟨hm, t, ht, hcyc⟩ := h.cycles id hid'
    show (s'.core.heap id).currCycle ≤ (s'.core.node id).maxCycle ∧
      ∃ t, (t, .launch id) ∈ (x.after cfg e s').log ∧ (s'.core.heap id).currCycle + t = s'.stats.cycle + s'.called id
    rw [hcore.cycles id hid', hcore.node id (hlt id hid'), hcycle, hcalled, Clocked.after_log hcore.toTurn hcycle]
    exact ⟨hm, t, mem_append_left _ ht, hcyc⟩
  · intro t id hl hs hq
    have hquiet : ∀ e ∈ es, ¬e.output id := fun e he hout => (hcore.quick e he id (actor_of_output hout)).2 hs
    rw [Clocked.after_log hcore.toTurn hcycle] at hl
    rcases mem_append.mp hl with hl | hl
    · exact h.outputs_turn hA hcore.toTurn hcycle hl hs (fun hq' => hq (hcore.queue ▸ hq')) hquiet
    · obtain ⟨e, he, heq⟩ := mem_map.mp hl
      obtain rfl : e = .launch id := congrArg Prod.snd heq
      exact absurd hs (hcore.quick _ he id rfl).2
  · rw [hqueued]
    exact hslow
  · rw [hqueued]
    intro id hid
    show (x.calls ++ (x.st.commitCall cfg e).toList.map (x.st.stats.cycle, ·)).count (s'.stats.cycle, id) = s'.called id
    rw [List.count_append, hcycle, h.calls id hid, hcalled, Nat.add_eq_left, List.count_eq_zero]
    intro hmem
    obtain ⟨k, hk, heq⟩ := mem_map.mp hmem
    obtain rfl : k = id := congrArg Prod.snd heq
    exact hquick k (by simpa using hk) (h.queued k hid).1
  · rw [hqueued]
    show ∀ id ∈ s'.toCall, id ∈ x.queued
    rw [hcall]
    exact h.toCall

theorem toCall_cons {s : St} {i id : Nat} (hpc : s.pc = .compute i) (hid : s.core.computeQueue[i]? = some id) :
    s.toCall = id :: s.core.computeQueue.drop (i + 1) := by
  obtain ⟨hlt, hget⟩ := List.getElem?_eq_some_iff.mp hid
  simp only [St.toCall, hpc]
  rw [List.drop_eq_getElem_cons hlt, hget]

/-- After the call of `commit()` for `id` in the pass. -/
theorem called_pass {s : St} {i id : Nat} (hpc : s.pc = .compute i) (hid : s.core.computeQueue[i]? = some id)
    (hn : s.core.computeQueue.Nodup) (hrest : s'.toCall = s.core.computeQueue.drop (i + 1)) (k : Nat) :
    s'.called k = s.called k + if k = id then 1 else 0 := by
  have hcons := toCall_cons hpc hid
  have hnodup : (id :: s.core.computeQueue.drop (i + 1)).Nodup := by
    rw [← hcons]
    simp only [St.toCall, hpc]
    exact hn.sublist (List.drop_sublist _ _)
  rw [St.called, St.called, hcons, hrest]
  by_cases hk : k = id
  · subst hk
    simp [(List.nodup_cons.mp hnodup).1]
  · simp [hk]

theorem Timed.toCall_pass (h : Timed x) {i : Nat} (hpc : x.st.pc = .compute i)
    (hid : x.st.core.computeQueue[i]? = some id) (hrest : s'.toCall = x.st.core.computeQueue.drop (i + 1)) :
    ∀ k ∈ s'.toCall, k ∈ x.queued := by
  intro k hk
  refine h.toCall k ?_
  rw [toCall_cons hpc hid]
  exact List.mem_cons_of_mem _ (hrest ▸ hk)

theorem Timed.calls_pass (h : Timed x) (hcycle : s'.stats.cycle = x.st.stats.cycle)
    (hcall : x.st.commitCall cfg e = some id)
    (hcalled : ∀ k, s'.called k = x.st.called k + if k = id then 1 else 0) :
    ∀ k ∈ x.queued, (x.after cfg e s').calls.count (s'.stats.cycle, k) = s'.called k := by
  intro k hk
  show (x.calls ++ (x.st.commitCall cfg e).toList.map (x.st.stats.cycle, ·)).count (s'.stats.cycle, k) = s'.called k
  rw [List.count_append, hcycle, h.calls k hk, hcall, hcalled]
  by_cases hki : k = id
  · subst hki
    simp
  · simp [hki, Ne.symm hki]

theorem Timed.commit (h : Timed x) (hA : x.st.core.Accounts) (hL : x.st.core.Lists) {i id : Nat} {v : Word}
    {ks : List Nat} (hpc : x.st.pc = .compute i) (hid : x.st.core.computeQueue[i]? = some id)
    (hdone : (x.st.core.node id).maxCycle ≤ (x.st.core.heap id).currCycle)
    (hcore : x.st.core.Turn s'.core (.commit id (some v) :: ks.map (Event.signal id)))
    (hqueue : s'.core.computeQueue = x.st.core.computeQueue.erase id)
    (hran : ∀ k, (s'.core.heap k).currCycle = (x.st.core.heap k).currCycle) (hpc' : s'.pc = .compute i)
    (hcycle : s'.stats.cycle = x.st.stats.cycle) (hcall : x.st.commitCall cfg .iter = some id) :
    Timed (x.after cfg .iter s') := by
  obtain ⟨hlog, hle⟩ := h.log_turn cfg .iter hcore hcycle
  obtain ⟨hqueued, hslow⟩ := h.queued_turn cfg hA hcore iter_ne_tick
  have hmem := List.mem_of_getElem? hid
  have hlt := hL.computeQueue_lt
  have hrest : s'.toCall = x.st.core.computeQueue.drop (i + 1) := by
    simp only [St.toCall, hpc', hqueue]
    have hi := (List.getElem?_eq_some_iff.mp hid).1
    rw [← eraseIdx_eq_erase hL.computeQueue_nodup hid, List.eraseIdx_eq_take_drop_succ,
      List.drop_left' (List.length_take_of_le (Nat.le_of_lt hi))]
  have hcalled := called_pass hpc hid hL.computeQueue_nodup hrest
  have hin : ∀ k, k ∈ x.st.core.computeQueue.erase id ↔ k ≠ id ∧ k ∈ x.st.core.computeQueue := fun k =>
    hL.computeQueue_nodup.mem_erase_iff
  refine ⟨hlog, hle, h.calls_turn hcycle, ?_, ?_, ?_, ?_, ?_, ?_⟩
  · intro k hk
    have hk' := ((hin k).mp (hqueue ▸ hk)).2
    exact (slow_turn hcore (hlt k hk')).mpr (h.slow k hk')
  · intro k hk
    obtain ⟨hne, hk'⟩ := (hin k).mp (hqueue ▸ hk)
    obtain ⟨hm, t, ht, hcyc⟩ := h.cycles k hk'
    show (s'.core.heap k).currCycle ≤ (s'.core.node k).maxCycle ∧
      ∃ t, (t, .launch k) ∈ (x.after cfg .iter s').log ∧ (s'.core.heap k).currCycle + t = s'.stats.cycle + s'.called k
    rw [hran, hcore.node k (hlt k hk'), hcycle, hcalled, if_neg hne, Clocked.after_log hcore hcycle]
    exact ⟨hm, t, mem_append_left _ ht, hcyc⟩
  · intro t k hl hs hq
    rw [Clocked.after_log hcore hcycle] at hl
    have hold : (t, Event.launch k) ∈ x.log := by
      rcases mem_append.mp hl with hl | hl
      · exact hl
      · simp at hl
    by_cases hk : k = id
    · subst hk
      obtain ⟨hm, t', ht', hcyc⟩ := h.cycles k hmem
      have htick : x.st.stats.cycle = t + (x.st.core.node k).maxCycle := by
        have hsame := h.launch_unique hA hold ht'
        rw [St.called, toCall_cons hpc hid, if_pos List.mem_cons_self] at hcyc
        omega
      show (∃ v, (t + (s'.core.node k).maxCycle, .commit k (some v)) ∈ (x.after cfg .iter s').log) ∧
        ∀ p ∈ (x.after cfg .iter s').log, p.2.output k → p.1 = t + (s'.core.node k).maxCycle
      rw [hcore.node k (hlt k hmem), Clocked.after_log hcore hcycle, ← htick]
      refine ⟨⟨v, List.mem_append_right _ (by simp)⟩, fun p hp hpo => ?_⟩
      · rcases mem_append.mp hp with hp | hp
        · refine absurd hpo (no_output hA (Core.mem_live.mpr (.inr (.inl hmem))) p.2 ?_)
          rw [← h.log]
          exact List.mem_map_of_mem hp
        · obtain ⟨_, -, rfl⟩ := mem_map.mp hp
          rfl
    · refine h.outputs_turn hA hcore hcycle hold hs (fun hq' => hq (hqueue ▸ (hin k).mpr ⟨hk, hq'⟩)) fun e he hout => ?_
      exact hk (Core.actor_of_retire e he k (actor_of_output hout))
  · rw [hqueued]
    exact hslow
  · rw [hqueued]
    exact h.calls_pass hcycle hcall hcalled
  · rw [hqueued]
    exact h.toCall_pass hpc hid hrest

theorem Timed.bump (h : Timed x) (hA : x.st.core.Accounts) (hL : x.st.core.Lists) {i id : Nat}
    (hpc : x.st.pc = .compute i)
    (hid : x.st.core.computeQueue[i]? = some id) (hrun : (x.st.core.heap id).currCycle < (x.st.core.node id).maxCycle)
    (hcore : x.st.core.Turn s'.core []) (hqueue : s'.core.computeQueue = x.st.core.computeQueue)
    (hran : ∀ k, (s'.core.heap k).currCycle = (x.st.core.heap k).currCycle + if k = id then 1 else 0)
    (hpc' : s'.pc = .compute (i + 1)) (hcycle : s'.stats.cycle = x.st.stats.cycle)
    (hcall : x.st.commitCall cfg .iter = some id) : Timed (x.after cfg .iter s') := by
  obtain ⟨hlog, hle⟩ := h.log_turn cfg .iter hcore hcycle
  obtain ⟨hqueued, hslow⟩ := h.queued_turn cfg hA hcore iter_ne_tick
  have hlt := hL.computeQueue_lt
  have hrest : s'.toCall = x.st.core.computeQueue.drop (i + 1) := by simp only [St.toCall, hpc', hqueue]
  have hcalled := called_pass hpc hid hL.computeQueue_nodup hrest
  refine ⟨hlog, hle, h.calls_turn hcycle, ?_, ?_, ?_, ?_, ?_, ?_⟩
  · intro k hk
    have hk' : k ∈ x.st.core.computeQueue := hqueue ▸ hk
    exact (slow_turn hcore (hlt k hk')).mpr (h.slow k hk')
  · intro k hk
    have hk' : k ∈ x.st.core.computeQueue := hqueue ▸ hk
    obtain ⟨hm, t, ht, hcyc⟩ := h.cycles k hk'
    show (s'.core.heap k).currCycle ≤ (s'.core.node k).maxCycle ∧
      ∃ t, (t, .launch k) ∈ (x.after cfg .iter s').log ∧ (s'.core.heap k).currCycle + t = s'.stats.cycle + s'.called k
    rw [hran, hcore.node k (hlt k hk'), hcycle, hcalled, Clocked.after_log hcore hcycle]
    refine ⟨?_, t, mem_append_left _ ht, by omega⟩
    by_cases hk : k = id
    · rw [if_pos hk, hk]
      exact hrun
    · rw [if_neg hk]
      exact hm
  · intro t k hl hs hq
    rw [Clocked.after_log hcore hcycle, List.map_nil, append_nil] at hl
    exact h.outputs_turn hA hcore hcycle hl hs (fun hq' => hq (hqueue ▸ hq')) (by simp)
  · rw [hqueued]
    exact hslow
  · rw [hqueued]
    exact h.calls_pass hcycle hcall hcalled
  · rw [hqueued]
    exact h.toCall_pass hpc hid hrest

theorem Timed.launch (h : Timed x) (hA : x.st.core.Accounts) (hL : x.st.core.Lists) {i id : Nat}
    (hpc : x.st.pc = .scan i)
    (hid : id ∈ x.st.core.reservation) (hfresh : (x.st.core.heap id).currCycle = 0) (hs : x.st.core.slow id)
    (hcore : x.st.core.Turn s'.core [.launch id]) (hqueue : s'.core.computeQueue = x.st.core.computeQueue ++ [id])
    (hran : ∀ k, (s'.core.heap k).currCycle = (x.st.core.heap k).currCycle + if k = id then 1 else 0)
    (hpc' : s'.pc = .scan i) (hcycle : s'.stats.cycle = x.st.stats.cycle)
    (hcall : x.st.commitCall cfg .iter = some id) : Timed (x.after cfg .iter s') := by
  obtain ⟨hlog, hle⟩ := h.log_turn cfg .iter hcore hcycle
  obtain ⟨hqueued, hslow⟩ := h.queued_turn cfg hA hcore iter_ne_tick
  have hlt := hL.computeQueue_lt
  have hidlt := hL.lt_next id (Core.mem_live.mpr (.inl hid))
  have hnotq : id ∉ x.st.core.computeQueue := (hL.disjoint.1 id hid).1
  have hcalled : ∀ k, s'.called k = 1 := fun k => by simp [St.called, St.toCall, hpc']
  have hcalled' : ∀ k, x.st.called k = 1 := fun k => by simp [St.called, St.toCall, hpc]
  refine ⟨hlog, hle, h.calls_turn hcycle, ?_, ?_, ?_, ?_, ?_, ?_⟩
  · intro k hk
    rcases mem_append.mp (hqueue ▸ hk : k ∈ x.st.core.computeQueue ++ [id]) with hk | hk
    · exact (slow_turn hcore (hlt k hk)).mpr (h.slow k hk)
    · rw [mem_singleton.mp hk]
      exact (slow_turn hcore hidlt).mpr hs
  · intro k hk
    show (s'.core.heap k).currCycle ≤ (s'.core.node k).maxCycle ∧
      ∃ t, (t, .launch k) ∈ (x.after cfg .iter s').log ∧ (s'.core.heap k).currCycle + t = s'.stats.cycle + s'.called k
    rw [hran, hcycle, hcalled, Clocked.after_log hcore hcycle]
    rcases mem_append.mp (hqueue ▸ hk : k ∈ x.st.core.computeQueue ++ [id]) with hk | hk
    · obtain ⟨hm, t, ht, hcyc⟩ := h.cycles k hk
      have hne : k ≠ id := fun he => hnotq (he ▸ hk)
      rw [if_neg hne, hcore.node k (hlt k hk), ← hcalled' k]
      exact ⟨hm, t, mem_append_left _ ht, hcyc⟩
    · rw [mem_singleton.mp hk, if_pos rfl, hfresh, hcore.node id hidlt]
      exact ⟨Nat.pos_of_ne_zero hs.2, x.st.stats.cycle, List.mem_append_right _ (by simp), by omega⟩
  · intro t k hl hs hq
    rw [Clocked.after_log hcore hcycle] at hl
    have hne : k ≠ id := by
      rintro rfl
      exact hq (hqueue ▸ List.mem_append_right _ List.mem_cons_self)
    have hold : (t, Event.launch k) ∈ x.log := by
      rcases mem_append.mp hl with hl | hl
      · exact hl
      · simp only [List.map_cons, List.map_nil, mem_singleton, Prod.mk.injEq, Event.launch.injEq] at hl
        exact absurd hl.2 hne
    refine h.outputs_turn hA hcore hcycle hold hs (fun hq' => hq (hqueue ▸ mem_append_left _ hq')) fun e he hout => ?_
    rw [mem_singleton.mp he] at hout
    exact hout
  · rw [hqueued]
    exact hslow
  · rw [hqueued]
    intro k hk
    have hne : k ≠ id := by
      rintro rfl
      exact (hA.launch_gone k (h.queued k hk).2).1 hid
    show (x.calls ++ (x.st.commitCall cfg .iter).toList.map (x.st.stats.cycle, ·)).count
      (s'.stats.cycle, k) = s'.called k
    rw [List.count_append, hcycle, h.calls k hk, hcall, hcalled, hcalled']
    simp [Ne.symm hne]
  · rw [hqueued]
    show ∀ k ∈ s'.toCall, k ∈ x.queued
    simp [St.toCall, hpc']

theorem Timed.tick (h : Timed x) (hpc : x.st.pc = .idle) : Timed (x.after cfg .tick x.st.tickBegin) := by
  have hlog : (x.after cfg .tick x.st.tickBegin).log = x.log := by
    show x.log ++ (x.st.core.log.drop x.st.core.log.length).map _ = x.log
    rw [List.drop_length, List.map_nil, append_nil]
  have hcalls : (x.after cfg .tick x.st.tickBegin).calls = x.calls := append_nil _
  have hcall : x.st.tickBegin.toCall = x.st.core.computeQueue := rfl
  refine ⟨hlog ▸ h.log, ?_, ?_, h.slow, ?_, ?_, ?_, ?_, ?_⟩
  · rw [hlog]
    exact fun p hp => Nat.le_succ_of_le (h.log_le p hp)
  · rw [hcalls]
    exact fun p hp => Nat.le_succ_of_le (h.calls_le p hp)
  · intro id hid
    obtain ⟨hm, t, ht, hcyc⟩ := h.cycles id hid
    refine ⟨hm, t, hlog.symm ▸ ht, ?_⟩
    show (x.st.core.heap id).currCycle + t = x.st.stats.cycle + 1 + x.st.tickBegin.called id
    have hafter : x.st.tickBegin.called id = 0 := by
      exact if_pos hid
    have hbefore : x.st.called id = 1 := by simp [St.called, St.toCall, hpc]
    omega
  · rw [hlog]
    exact h.outputs
  · intro id hid
    obtain ⟨-, t, ht, -⟩ := h.cycles id hid
    refine ⟨h.slow id hid, ?_⟩
    show Event.launch id ∈ x.st.core.log
    rw [← h.log]
    exact List.mem_map_of_mem ht
  · intro id hid
    show (x.after cfg .tick x.st.tickBegin).calls.count (x.st.stats.cycle + 1, id) = x.st.tickBegin.called id
    rw [hcalls, St.called, hcall, if_pos (show id ∈ x.st.core.computeQueue from hid), List.count_eq_zero]
    intro hmem
    exact absurd (h.calls_le _ hmem) (Nat.not_succ_le_self _)
  · exact fun id hid => hid

end Timed

/-- **The cycles are counted in every state that the engine reaches.** -/
theorem timed_of_reachable {x : Clocked} (hm : cfg.unlimitedMode = true) (h : (clocked P cfg).Reachable x) :
    Timed x := by
  refine System.invariantWhen (I := Timed) ?_ ?_ h
  · rintro ⟨s, log, calls, queued⟩ ⟨⟨s₀, entry, init, ⟨h₁, h₂, h₃, h₄⟩, he, rfl⟩, rfl, rfl, rfl⟩
    constructor <;> simp [St.initializeRun, St.tickBegin, St.toCall, Core.start, h₂]
  · intro x e x' hr hI _ hs
    obtain ⟨s', hs', rfl⟩ := clocked_step hs
    have hreach := engine_of_clocked hr
    have hcore := core_of_reachable hreach
    have hL := lists_of_reachable hcore
    have hA := accounts_of_reachable hcore
    cases St.beat_of_step hm hreach hs' with
    | tick hpc => exact hI.tick hpc
    | steady he hst hcycle hcall hquick => exact hI.steady hA hL he hst hcycle hcall hquick
    | commit hpc hid hdone hturn hqueue hran hpc' hcycle hcall =>
      exact hI.commit hA hL hpc hid hdone hturn hqueue hran hpc' hcycle hcall
    | bump hpc hid hrun hturn hqueue hran hpc' hcycle hcall =>
      exact hI.bump hA hL hpc hid hrun hturn hqueue hran hpc' hcycle hcall
    | launch hpc hid hslow hturn hqueue hran hpc' hcycle hcall =>
      exact hI.launch hA hL hpc hid (fresh_of_reachable hcore _ hid) hslow hturn hqueue hran hpc' hcycle hcall

theorem count_pair {l : List (Nat × Event)} {t : Nat} {e : Event} (h : ∀ p ∈ l, p.2 = e → p.1 = t) :
    l.count (t, e) = (l.map Prod.snd).count e := by
  rw [List.count, List.count, List.countP_map]
  refine List.countP_congr fun p hp => ?_
  simp only [beq_iff_eq, Function.comp_apply]
  exact ⟨fun he => by rw [he], fun he => Prod.ext (h p hp he) he⟩

/-- **The latency of the compute queue.** Without unit limits, in every run: when the pass of a tick is over, `commit()`
has been called in it once for each instance that was in the compute queue when the tick began; and an instance of
latency `m` that is launched in tick `t` commits and signals in tick `t + m` only, and has done so, once and for all its
children, when the pass of that tick is over. -/
theorem compute_latency {P : Program} {cfg : Config} {x : Clocked} (hm : cfg.unlimitedMode = true)
    (h : (clocked P cfg).Reachable x) :
    ((∀ i, x.st.pc ≠ .compute i) → ∀ id ∈ x.queued, x.calls.count (x.st.stats.cycle, id) = 1) ∧
    ∀ t id, (t, .launch id) ∈ x.log → x.st.core.slow id →
      (∀ p ∈ x.log, p.2.output id → p.1 = t + (x.st.core.node id).maxCycle) ∧
      ((t + (x.st.core.node id).maxCycle < x.st.stats.cycle ∨
          t + (x.st.core.node id).maxCycle = x.st.stats.cycle ∧ ∀ i, x.st.pc ≠ .compute i) →
        (∃ v, (t + (x.st.core.node id).maxCycle, .commit id (some v)) ∈ x.log) ∧
        x.log.countP (fun p => p.2.commits id) = 1 ∧
        ∀ k, x.log.count (t + (x.st.core.node id).maxCycle, .signal id k) = x.st.core.log.count (.register id k)) := by
  have hI := timed_of_reachable hm h
  have hcore := core_of_reachable (engine_of_clocked h)
  have hA := accounts_of_reachable hcore
  have hover : (∀ i, x.st.pc ≠ .compute i) → ∀ id, x.st.called id = 1 := by
    intro hpc id
    have hnil : x.st.toCall = [] := by
      unfold St.toCall
      split
      · rename_i i hi
        exact absurd hi (hpc i)
      · rfl
    rw [St.called, hnil]
    exact if_neg List.not_mem_nil
  refine ⟨fun hpc id hid => by rw [hI.calls id hid, hover hpc], fun t id hl hs => ?_⟩
  -- in the queue the instance still has cycles to go
  have hgo : id ∈ x.st.core.computeQueue → ¬(t + (x.st.core.node id).maxCycle < x.st.stats.cycle ∨
      t + (x.st.core.node id).maxCycle = x.st.stats.cycle ∧ ∀ i, x.st.pc ≠ .compute i) := by
    intro hq
    obtain ⟨hle, t', ht', hcyc⟩ := hI.cycles id hq
    obtain rfl := hI.launch_unique hA hl ht'
    rintro (hlt | ⟨heq, hpc⟩)
    · omega
    · have hone := hover hpc id
      omega
  by_cases hq : id ∈ x.st.core.computeQueue
  · refine ⟨fun p hp hpo => ?_, fun hpast => absurd hpast (hgo hq)⟩
    refine absurd hpo (no_output hA (Core.mem_live.mpr (.inr (.inl hq))) p.2 ?_)
    rw [← hI.log]
    exact List.mem_map_of_mem hp
  · obtain ⟨⟨v, hv⟩, hout⟩ := hI.outputs t id hl hs hq
    have hcommit : committed x.st.core.log id = true := by
      refine committed_iff.mpr ⟨some v, ?_⟩
      rw [← hI.log]
      exact List.mem_map_of_mem hv
    refine ⟨hout, fun _ => ⟨⟨v, hv⟩, ?_, fun k => ?_⟩⟩
    · have hone : x.st.core.log.countP (Event.commits id) ≤ 1 := commit_le_one hA.ordered
      rw [← hI.log, List.countP_map] at hone
      have hpos : 0 < x.log.countP (fun p => p.2.commits id) :=
        List.countP_pos_iff.mpr ⟨_, hv, by simp [Event.commits]⟩
      exact Nat.le_antisymm hone hpos
    · rw [count_pair fun p hp he => hout p hp (by rw [he]; rfl), hI.log, hA.signalled, hcommit, if_pos rfl]

/-- The second operation is launched in tick 1 and commits in tick 2. -/
theorem compute_latency_twoOps : ∃ x, (clocked (twoOps .intAdder 1) .unlimited).Reachable x ∧
    (1, .launch 1) ∈ x.log ∧ ∃ v, (2, .commit 1 (some v)) ∈ x.log := by
  have hinit : (clocked (twoOps .intAdder 1) .unlimited).init ⟨_, [], [], []⟩ :=
    ⟨engine_boot (twoOps .intAdder 1) .unlimited rfl fun _ => 0, rfl, rfl, rfl⟩
  obtain ⟨x, hx, ⟨hcycle, hpc⟩, hlog, hunit, hmax⟩ := System.reachable_of_replay hinit
    (List.replicate 10 .iter ++ [.tick, .iter, .iter, .iter])
    (fun x => (x.st.stats.cycle = 2 ∧ (match x.st.pc with | .compute _ => false | _ => true) = true) ∧
      (1, Event.launch 1) ∈ x.log ∧ (x.st.core.node 1).onUnit = true ∧ (x.st.core.node 1).maxCycle = 1) (by decide)
  obtain ⟨-, hlat⟩ := compute_latency rfl hx
  obtain ⟨-, hdone⟩ := hlat 1 1 hlog ⟨hunit, by rw [hmax]; exact Nat.one_ne_zero⟩
  obtain ⟨hv, -, -⟩ := hdone (.inr ⟨by rw [hmax, hcycle], fun i hi => by simp [hi] at hpc⟩)
  rw [hmax] at hv
  exact ⟨x, hx, hlog, hv⟩

end Salam.Engine
