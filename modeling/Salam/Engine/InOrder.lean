import Salam.Engine.Phi

/-!
# The engine and execution in program order

`inOrder` executes the scheduled instances one after the other: an arithmetic instance reads its operands in the
registers and writes its result, and a load, a phi or a getelementptr writes what it left in the engine. In whatever
order the engine launches and commits them, the registers come to hold the same values.

* `computeValues_of_reachable`: an arithmetic instance leaves the result of its operands in program order.
* `registers_in_order`: the values before an instance, and the registers, are those of the execution in program order.
* `writers_serialised`: the instances of one writer go through the queues one at a time.
* `oldest_ready`: the dependences never block the oldest instance.
-/

namespace Salam.Engine

namespace Core

/-- The registers before the instance `id`, when all before it are executed in program order. -/
def inOrder (c : Core) : Nat → Reg → Word
  | 0 => c.init
  | id + 1 =>
    match (c.node id).returnRegister with
    | none => c.inOrder id
    | some r => Function.update (c.inOrder id) r (match (c.node id).body with
      | .compute _ size deps _ eval => memcpy size (c.inOrder id r) (eval (deps.map (c.inOrder id)))
      | _ => (produced c.log id).getD 0)

/-- An arithmetic instance that is launched has the result of its operands in program order, and leaves it in the bytes
of its type when it commits. -/
def ComputeValues (c : Core) : Prop :=
  ∀ id ret size deps unit eval, id < c.next → (c.node id).body = .compute ret size deps unit eval → .launch id ∈ c.log →
    ∃ ops, deps.map (fun r => c.valueBefore r id) = ops.map some ∧
      (committed c.log id = false → ∃ old, (c.heap id).finalResult = memcpy size old (eval ops)) ∧
      (committed c.log id = true → ∃ w, c.valueBefore ret id = some w ∧
        produced c.log id = some (memcpy size w (eval ops)))

end Core

section InOrder

variable {P : Program} {c c' : Core} {a : Act} {id : Nat} {r : Reg}

/-- What an instance that writes a register leaves. -/
theorem produced_of_committed {C : Core → Act → Prop} (h : core.ReachableWhen C c) : ∀ id, committed c.log id = true →
    (c.node id).returnRegister = some r → ∃ v, produced c.log id = some v := by
  refine System.invariantWhen (I := fun c => ∀ id, committed c.log id = true → (c.node id).returnRegister = some r →
    ∃ v, produced c.log id = some v) ?_ ?_ h
  · rintro c ⟨init, rfl⟩ id hc
    cases hc
  · intro c a c' hreach hI _ hs id hc hr
    have hA := accounts_of_reachable hreach
    cases kind_of_reachable hreach hs with
    | schedule h =>
      subst h
      rw [Core.committed_withNew] at hc
      rw [Core.withNew_node (Nat.ne_of_lt (hA.committed_gone id hc).2)] at hr
      rw [Core.produced_withNew]
      exact hI id hc hr
    | quiet h =>
      rw [h.committed] at hc
      rw [h.produced]
      exact hI id hc (h.node id ▸ hr)
    | @retire _ q v hv h =>
      rw [h.node] at hr
      rw [h.produced hA, Core.outcome_setFinal]
      by_cases hq : q = id
      · subst hq
        rw [if_pos rfl, hr]
        exact ⟨_, rfl⟩
      · rw [h.committed, Bool.or_eq_true, decide_eq_true_eq] at hc
        rw [if_neg hq]
        exact hI id (hc.resolve_right hq) hr

/-- When an instance commits, the register that it writes holds the value before it. -/
theorem valueBefore_of_retired (hw : P.OneWriter) (hz : P.MemoryLatencyZero) (h : core.ReachableWhen (ofProgram P) c)
    {v : Word} (hq : c.Retired id v c') (hr : (c.node id).returnRegister = some r) :
      c.valueBefore r id = some (c.regs r) := by
  have hA := accounts_of_reachable h
  have hid := (lists_of_reachable h).lt_next id hq.live
  have hord := (serial_of_reachable hw hz h).ordered r
  have hc := hq.not_committed hA
  refine regFile_of_reachable hw hz h r id (Nat.le_of_lt hid) (fun k hk hkr => ?_) (fun k hk hkn hkr => ?_)
  · exact hord k id hk hid (decide_eq_true hkr) (decide_eq_true hr) hq.reservation
  · -- a younger one would have been launched after `id` has committed
    rw [Bool.eq_false_iff]
    intro hkc
    rcases Nat.eq_or_lt_of_le hk with rfl | hlt
    · rw [hc] at hkc
      cases hkc
    · have hres : k ∉ c.reservation := fun hm => (hA.committed_gone k hkc).1 (Core.mem_live.mpr (.inl hm))
      have := hord id k hlt hkn (decide_eq_true hr) (decide_eq_true hkr) hres
      rw [hc] at this
      cases this

section

variable (hw : P.OneWriter) (hself : P.NoSelfRead) (hz : P.MemoryLatencyZero) (h : core.ReachableWhen (ofProgram P) c)
include hw hself hz h

/-- The operands that an arithmetic instance is launched with. -/
theorem operands_of_ready (hr : c.ready id = true) {ret : Reg} {size : Nat} {deps : List Reg} {unit : FunctionalUnit}
    {eval : List Word → Word} (hb : (c.node id).body = .compute ret size deps unit eval) :
    deps.map (fun r => c.valueBefore r id) = (c.heap id).ops.map some := by
  have hid := (lists_of_reachable h).lt_next id (Core.mem_live.mpr (.inl (Core.mem_of_ready hr)))
  have hdeps : (c.node id).dependencies = deps.map some := by simp only [Node.dependencies, hb]
  have hphi : (c.node id).isPhi = false := by simp only [Node.isPhi, hb]
  have hret : (c.node id).returnRegister = some ret := by simp only [Node.returnRegister, hb]
  have hlen : (c.heap id).ops.length = deps.length := by
    rw [ops_length_of_reachable h id hid, hdeps, List.length_map]
  refine List.ext_getElem? fun j => ?_
  rw [List.getElem?_map, List.getElem?_map]
  cases hj : deps[j]? with
  | none =>
    rw [List.getElem?_eq_none (hlen.trans_le (List.getElem?_eq_none_iff.mp hj))]
    rfl
  | some r =>
    have hdep : (c.node id).dependencies[j]? = some (some r) := by
      rw [hdeps, List.getElem?_map, hj]
      rfl
    have hne : (c.node id).returnRegister ≠ some r := fun he =>
      hself _ (node_mem_of_reachable h id hid) hphi _ he (List.mem_of_getElem? hdep)
    obtain ⟨v, hops, hval⟩ := ops_of_ready hw hz h hr hphi hne hdep
    rw [hops, Option.map_some, Option.map_some, hval]

/-- **Every arithmetic instance** computes with its operands in program order. -/
theorem computeValues_of_reachable : c.ComputeValues := by
  refine System.invariantWhen (I := Core.ComputeValues) ?_ ?_ h
  · rintro c ⟨init, rfl⟩ id ret size deps unit eval hid
    cases hid
  · intro c a c' hreach hI hC hs id ret size deps unit eval hid hb hl
    have hA := accounts_of_reachable hreach
    have hL := lists_of_reachable hreach
    have he := Core.effect_of_step hL hs
    have hkind := kind_of_reachable hreach hs
    have hidc := hkind.launched_lt hA hid hl
    have hn := hkind.node hidc
    rw [hn] at hb
    have hunit : (c.node id).onUnit = true := by simp only [Node.onUnit, hb]
    have hload := Node.isLoad_of_onUnit hunit
    have hret : (c.node id).returnRegister = some ret := by simp only [Node.returnRegister, hb]
    have hsize : (c.node id).returnSize = size := by simp only [Node.returnSize, hb]
    have hkept : ∀ r w, c.valueBefore r id = some w → c'.valueBefore r id = some w := fun r w hw =>
      valueBefore_kept hreach hkind (Nat.le_of_lt hidc) hw
    have hops : ∀ ops : List Word, deps.map (fun r => c.valueBefore r id) = ops.map some →
        deps.map (fun r => c'.valueBefore r id) = ops.map some := by
      intro ops ho
      rw [← ho]
      refine List.map_congr_left fun r hr => ?_
      obtain ⟨w, -, hw⟩ := List.mem_map.mp (ho ▸ List.mem_map_of_mem (f := fun r => c.valueBefore r id) hr)
      rw [← hw, hkept r w hw.symm]
    by_cases ha : a = .launch id
    · subst ha
      cases he with
      | @launchUnit _ v hready _ hv =>
        have hnot : committed c.log id = false := Bool.eq_false_iff.mpr fun hc =>
          (hA.committed_gone id hc).1 (Core.mem_live.mpr (.inl (Core.mem_of_ready hready)))
        have hres : v = eval (c.heap id).ops := by
          have hb' : (c.heap id).node.body = .compute ret size deps unit eval := hb
          simp only [Inst.result, hb', Except.ok.injEq] at hv
          exact hv.symm
        refine ⟨_, hops _ (operands_of_ready hw hself hz hreach hready hb),
          fun _ => ⟨(c.heap id).finalResult, ?_⟩, fun hc => ?_⟩
        · simp [Core.setFinal_heap, hsize, hres]
        · rw [Core.park_log, Core.emit_log, Core.setFinal_log, committed_append, hnot] at hc
          simp [committed, Event.commits] at hc
      | launchMem ha => exact absurd rfl (ha id)
      | retire ha => exact absurd rfl (ha id)
      | lose ha => exact absurd rfl (ha id)
    · obtain ⟨ops, ho, hfin, hcom⟩ := hI id ret size deps unit eval hidc hb
        ((launch_of_effect he hunit hl).resolve_right ha)
      have hcom' := fun hc => (hcom hc).imp fun w hw => And.intro (hkept _ _ hw.1) hw.2
      refine ⟨ops, hops ops ho, ?_⟩
      rw [finalResult_of_effect hL he hidc hload ha]
      cases hkind with
      | schedule h =>
        subst h
        rw [Core.committed_withNew, Core.produced_withNew]
        exact ⟨hfin, hcom'⟩
      | quiet h =>
        rw [h.committed, h.produced]
        exact ⟨hfin, hcom'⟩
      | @retire _ q v hv h =>
        rw [h.committed, h.produced hA]
        by_cases hq : q = id
        · subst hq
          obtain ⟨old, hold⟩ := hfin (h.not_committed hA)
          have hval := valueBefore_of_retired hw hz hreach h hret
          refine ⟨fun hc => by simp at hc, fun _ => ⟨_, hkept _ _ hval, ?_⟩⟩
          rw [if_pos rfl, Core.outcome_setFinal, hret, hv hload, hold, hsize, Option.map_some, memcpy_memcpy]
        · simp only [hq, decide_false, Bool.or_false, if_false]
          exact ⟨hfin, hcom'⟩

/-- The value before an instance, once all instances before it that write a register have committed. -/
theorem valueBefore_inOrder : ∀ id ≤ c.next,
      (∀ k < id, (c.node k).returnRegister.isSome = true → committed c.log k = true) →
        ∀ r, c.valueBefore r id = some (c.inOrder id r) := by
  intro id
  induction id with
  | zero =>
    intro _ _ r
    have hnone : c.latest r 0 = none := rfl
    rw [Core.valueBefore, hnone]
    rfl
  | succ id ih =>
    intro hid hdone r
    have hbefore := ih (by omega) fun k hk => hdone k (by omega)
    have hskip : (c.node id).returnRegister ≠ some r → c.valueBefore r (id + 1) = some (c.inOrder id r) := by
      intro hne
      rw [← hbefore r, Core.valueBefore, Core.valueBefore, latest_succ hne]
    rw [Core.inOrder]
    cases hret : (c.node id).returnRegister with
    | none => exact hskip (by rw [hret]; exact fun he => by cases he)
    | some ret =>
      by_cases hr : ret = r
      · subst hr
        have hc := hdone id (by omega) (by rw [hret]; rfl)
        obtain ⟨v, hv⟩ := produced_of_committed h id hc hret
        have hlatest : c.latest ret (id + 1) = some id := latest_of (by omega) hret fun m _ _ => by omega
        rw [Core.valueBefore, hlatest]
        simp only [Function.update_self]
        cases hb : (c.node id).body with
        | compute ret' size deps unit eval =>
          have hlaunch : .launch id ∈ c.log := by
            obtain ⟨v, hm⟩ := committed_iff.mp hc
            obtain ⟨l₁, l₂, hl⟩ := List.append_of_mem hm
            rw [hl, List.mem_append]
            exact .inl ((accounts_of_reachable h).ordered l₁ _ l₂ hl).2
          obtain ⟨ops, ho, -, hcom⟩ := computeValues_of_reachable hw hself hz h id _ _ _ _ _ (by omega) hb hlaunch
          obtain ⟨w, hval, hp⟩ := hcom hc
          have hret' : ret' = ret := by simpa only [Node.returnRegister, hb, Option.some.injEq] using hret
          have hops : ops = deps.map (c.inOrder id) := by
            have hsome : (deps.map (c.inOrder id)).map some = ops.map some := by
              rw [← ho, List.map_map]
              exact List.map_congr_left fun r _ => (hbefore r).symm
            exact (List.map_injective_iff.mpr (Option.some_injective _) hsome).symm
          subst hret'
          rw [hp, ← Option.some.inj (hval.symm.trans (hbefore ret')), hops]
        | _ =>
          rw [hv]
          rfl
      · simp only [Function.update_of_ne (Ne.symm hr)]
        exact hskip (by rw [hret]; exact fun he => hr (Option.some.inj he))

end

end InOrder

/-- **Execution in program order.** For a program with one writer for each register, in which no instruction reads its
own, and at any time of any run: once the instances before `id` that write a register have committed, every register has
the value before `id` that executing them one after the other gives; once all have, so has the register file. -/
theorem registers_in_order {P : Program} {cfg : Config} {s : St} (h : (engine P cfg).Reachable s) (hw : P.OneWriter)
    (hself : P.NoSelfRead) (hz : P.MemoryLatencyZero) {id : Nat} (hid : id ≤ s.core.next)
    (hdone : ∀ k < id, (s.core.node k).returnRegister.isSome = true → committed s.core.log k = true) :
    (∀ r, s.core.valueBefore r id = some (s.core.inOrder id r)) ∧
    (id = s.core.next → s.core.regs = s.core.inOrder id) := by
  have hcore := core_of_reachable h
  have hval := valueBefore_inOrder hw hself hz hcore id hid hdone
  refine ⟨hval, ?_⟩
  rintro rfl
  funext r
  refine Option.some.inj (((regFile_of_reachable hw hz hcore r s.core.next le_rfl) ?_ ?_).symm.trans (hval r))
  · exact fun k hk hr => hdone k hk (by rw [hr]; rfl)
  · exact fun k hk hkn _ => absurd hk (by omega)

/-- Both adds have committed. -/
theorem registers_in_order_chain : ∃ s, (engine chain .unlimited).Reachable s ∧
    s.core.regs = s.core.inOrder s.core.next ∧ s.core.regs 2 = 28 := by
  obtain ⟨s, hs, hdone, hval⟩ := System.reachable_of_replay
    (engine_boot chain .unlimited rfl fun _ => 7)
      (List.replicate 10 .iter ++ .tick :: List.replicate 6 .iter ++ [.tick, .iter])
    (fun s => (∀ k ∈ List.range s.core.next, committed s.core.log k = true ∨ (s.core.node k).returnRegister = none) ∧
      s.core.regs 2 = 28) (by decide)
  refine ⟨s, hs, (registers_in_order hs (by decide) (by decide) (by decide) le_rfl fun k hk hr => ?_).2 rfl, hval⟩
  exact (hdone k (List.mem_range.mpr hk)).resolve_right (Option.isSome_iff_ne_none.mp hr)

/-- **One instance of a writer in the queues.** When an instance has left the reservation table, all earlier ones that
return to its register have committed and are in no list. -/
theorem writers_serialised {P : Program} {cfg : Config} {s : St} (h : (engine P cfg).Reachable s) (hw : P.OneWriter)
    (hz : P.MemoryLatencyZero) {k k' : Nat} {r : Reg} (hlt : k < k') (hk' : k' < s.core.next)
    (hr : (s.core.node k).returnRegister = some r) (hr' : (s.core.node k').returnRegister = some r)
    (hres : k' ∉ s.core.reservation) : committed s.core.log k = true ∧ k ∉ s.core.live := by
  have hcore := core_of_reachable h
  have hc := (serial_of_reachable hw hz hcore).ordered r k k' hlt hk' (decide_eq_true hr) (decide_eq_true hr') hres
  exact ⟨hc, ((accounts_of_reachable hcore).committed_gone k hc).1⟩

/-- The phi of the second round of the loop is launched. -/
theorem writers_serialised_phiLoop : ∃ s, (engine phiLoop ⟨false, 3, fun _ => -1⟩).Reachable s ∧
    4 ∈ s.core.computeQueue ∧ committed s.core.log 1 = true ∧ 1 ∉ s.core.live := by
  obtain ⟨s, hs, hq, hn, hr, hr', hres⟩ := System.reachable_of_replay
    (engine_boot phiLoop ⟨false, 3, fun _ => -1⟩ rfl fun _ => 64)
    (List.replicate 20 .iter ++ [.readCommit 2 11, .tick] ++ List.replicate 4 .iter)
    (fun s => 4 ∈ s.core.computeQueue ∧ 4 < s.core.next ∧ (s.core.node 1).returnRegister = some 1 ∧
      (s.core.node 4).returnRegister = some 1 ∧ 4 ∉ s.core.reservation) (by decide)
  exact ⟨s, hs, hq, writers_serialised hs (by decide) (by decide) (by decide) hn hr hr' hres⟩

/-- **No deadlock of dependences.** As long as there are instances in the lists, the oldest is in a queue, may be
launched, or is the ret. -/
theorem oldest_ready {P : Program} {cfg : Config} {s : St} (h : (engine P cfg).Reachable s) (hz : P.MemoryLatencyZero)
    (hlive : s.core.live ≠ []) : ∃ id ∈ s.core.live, (∀ k ∈ s.core.live, id ≤ k) ∧
      (id ∉ s.core.reservation ∨ s.core.ready id = true ∨ (s.core.node id).isRet = true) := by
  have hcore := core_of_reachable h
  have hA := accounts_of_reachable hcore
  obtain ⟨id, hid, hold⟩ : ∃ id ∈ s.core.live, ∀ k ∈ s.core.live, id ≤ k :=
    ⟨s.core.live.min hlive, List.min_mem hlive, fun k hk => List.min_le_of_mem hk⟩
  refine ⟨id, hid, hold, ?_⟩
  by_cases hres : id ∈ s.core.reservation
  · right
    cases hret : (s.core.node id).isRet with
    | true => exact .inr rfl
    | false =>
      -- a parent is older, so it has left the lists
      have hzero : pending s.core.log id = 0 := List.countP_eq_zero.mpr fun e he => by
        cases e with
        | register p k =>
          simp only [Event.waits, Bool.and_eq_true, decide_eq_true_eq, Bool.not_eq_true', not_and, Bool.not_eq_false]
          rintro rfl
          have hlt := hA.register_lt p k he
          rcases settled_of_reachable hz hcore p (by omega) (queued_of_register hcore p k he) with hp | hp
          · exact absurd hlt.1 (Nat.not_lt.mpr (hold p hp))
          · exact hp
        | _ => simp [Event.waits]
      have hactive := hA.active id ((lists_of_reachable hcore).lt_next id hid)
      rw [hzero, Node.baseParents, hret] at hactive
      left
      simpa [Core.ready, hres] using hactive
  · exact .inl hres

/-- The second add waits for the first, which is in the compute queue. -/
theorem oldest_ready_chain : ∃ s, (engine chain .unlimited).Reachable s ∧ s.core.reservation = [1, 2] ∧
    ∃ id ∈ s.core.live, (∀ k ∈ s.core.live, id ≤ k) ∧
      (id ∉ s.core.reservation ∨ s.core.ready id = true ∨ (s.core.node id).isRet = true) := by
  obtain ⟨s, hs, hres, hlive⟩ := System.reachable_of_replay
    (engine_boot chain .unlimited rfl fun _ => 7) (List.replicate 10 .iter)
    (fun s => s.core.reservation = [1, 2] ∧ s.core.live ≠ []) (by decide)
  exact ⟨s, hs, hres, oldest_ready hs (by decide) hlive⟩

end Salam.Engine
