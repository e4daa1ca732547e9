import Salam.Engine.Dataflow

/-!
# The value of a phi

A phi waits for the writer of the operand of the taken edge like any other instance, but `Phi::compute` reads the
register itself when the phi is launched, not an operand captured before. By then a younger instance of the writer may
have committed.

* `phi_value`: as long as no phi is launched after a younger instance of the writer of its operand has committed, what
  a phi commits is the operand of the taken edge in program order.
* `phi_value_late`: with a limit on compare units, a phi reads the value of the next iteration.
-/

namespace Salam.Engine

/-- The first entry of a phi for the block that control came from. -/
def Inst.taken (x : Inst) : Option PhiVal :=
  match x.node.body with
  | .phi _ _ _ incoming _ => (incoming.find? fun e => e.1 = x.prevBB).map (·.2)
  | _ => none

/-- A phi of a type that starts with `i`. -/
def Node.intPhi (n : Node) : Bool :=
  match n.body with
  | .phi _ _ type _ _ => type.toList.head? = some 'i'
  | _ => false

namespace Core

/-- The operand of the taken edge in program order: the value of the register before the phi, or the literal. -/
def incomingValue (c : Core) (id : Nat) : Option Word :=
  match (c.heap id).taken with
  | some (.reg r) => c.valueBefore r id
  | some (.imm text) => (stoi text).map (BitVec.ofInt 64)
  | none => none

/-- The operand of the phi `id` is a register to which no younger instance has committed, or an integer literal. -/
def operandCurrent (c : Core) (id : Nat) : Bool :=
  match (c.heap id).taken with
  | some (.reg r) => (List.range c.next).all fun k =>
      decide (id < k → (c.node k).returnRegister = some r → committed c.log k = false)
  | some (.imm _) => (c.node id).intPhi
  | none => true

end Core

/-- The next iteration launches a phi whose operand is not current. -/
def St.phiLate (s : St) (cfg : Config) : Bool :=
  match s.launching cfg with
  | some id => (s.core.node id).isPhi && !s.core.operandCurrent id
  | none => false

theorem phiCompute_reg {regs : Reg → Word} {type : String} {prev : Label} {junk v : Word} {r : Reg} :
    ∀ {incoming : List (Label × PhiVal)}, phiCompute regs type prev junk incoming = .ok v →
      (incoming.find? fun e => e.1 = prev).map (·.2) = some (.reg r) → v = regs r
  | [], _, h => by simp at h
  | (l, w) :: rest, hv, h => by
    by_cases hl : l = prev
    · simp only [List.find?_cons, hl, decide_true, Option.map_some, Option.some.injEq] at h
      subst h
      simp only [phiCompute, hl, if_true, Except.ok.injEq] at hv
      exact hv.symm
    · simp only [phiCompute, hl, if_false] at hv
      exact phiCompute_reg hv (by simpa [List.find?_cons, hl] using h)

theorem phiCompute_imm {regs : Reg → Word} {type : String} {prev : Label} {junk v : Word} {text : String}
    (ht : type.toList.head? = some 'i') : ∀ {incoming : List (Label × PhiVal)},
      phiCompute regs type prev junk incoming = .ok v →
      (incoming.find? fun e => e.1 = prev).map (·.2) = some (.imm text) → (stoi text).map (BitVec.ofInt 64) = some v
  | [], _, h => by simp at h
  | (l, w) :: rest, hv, h => by
    by_cases hl : l = prev
    · simp only [List.find?_cons, hl, decide_true, Option.map_some, Option.some.injEq] at h
      subst h
      simp only [phiCompute, hl, if_true, ht] at hv
      cases hz : stoi text with
      | none => simp [hz] at hv
      | some z => simpa [hz] using hv
    · simp only [phiCompute, hl, if_false] at hv
      exact phiCompute_imm ht hv (by simpa [List.find?_cons, hl] using h)

section Phi

variable {P : Program} {c c' : Core} {a : Act} {id : Nat}

/-! ## The writer of the operand is a parent -/

theorem taken_mem_runtimeDependencies {x : Inst} {r : Reg} (h : x.taken = some (.reg r)) :
    some r ∈ x.node.runtimeDependencies x.prevBB := by
  unfold Inst.taken at h
  split at h
  · rename_i hb
    obtain ⟨e, he, hr⟩ := Option.map_eq_some_iff.mp h
    have hl : e.1 = x.prevBB := by simpa using List.find?_some he
    simp only [Node.runtimeDependencies, hb, List.mem_filterMap]
    exact ⟨e, List.mem_of_find?_eq_some he, by simp [hr, hl]⟩
  · cases h

/-- The latest earlier instance of the writer of the operand has committed or is a registered parent. -/
theorem phi_linked_of_reachable (hw : P.OneWriter) (hz : P.MemoryLatencyZero)
    (h : core.ReachableWhen (ofProgram P) c) : ∀ id r k, id < c.next → (c.heap id).taken = some (.reg r) →
      c.latest r id = some k → committed c.log k = false → .register k id ∈ c.log := by
  refine System.invariantWhen (I := fun c => ∀ id r k, id < c.next → (c.heap id).taken = some (.reg r) →
    c.latest r id = some k → committed c.log k = false → .register k id ∈ c.log) ?_ ?_ h
  · rintro c ⟨init, rfl⟩ id r k hid
    simp [Core.start] at hid
  · intro c a c' hreach hI hC hs id r k hid ht hk hc
    cases kind_of_reachable hreach hs with
    | @schedule prev n h =>
      subst h
      rw [Core.withNew_next] at hid
      rw [latest_congr fun m hm => Core.withNew_node (by omega)] at hk
      rw [Core.committed_withNew] at hc
      rw [Core.withNew_log, List.mem_append]
      by_cases hidn : id = c.next
      · subst hidn
        have hmem := taken_mem_runtimeDependencies ht
        have hphi : n.isPhi = true := by
          simp only [Core.withNew, if_true, Inst.taken, Inst.clone] at ht
          unfold Node.isPhi
          split at ht <;> simp_all
        simp only [Core.withNew, if_true, Inst.clone, hphi] at hmem
        have hspec := writerOf_spec hz hreach (serial_of_reachable hw hz hreach) r
        obtain ⟨hlt, hkr, hmax⟩ := latest_eq_some hk
        cases hwr : c.writerOf r with
        | none =>
          rw [hwr] at hspec
          rw [hspec k hlt hkr] at hc
          cases hc
        | some m =>
          rw [hwr] at hspec
          obtain ⟨hm, hmr, -, hlast⟩ := hspec
          obtain rfl : m = k := Option.some.inj ((latest_of hm hmr hlast).symm.trans hk)
          have hd : m ∈ c.depParents prev n := List.mem_filterMap.mpr ⟨some r, hmem, hwr⟩
          exact .inr (List.mem_map_of_mem (by simp [Core.parentsOf, hd]))
      · refine .inl (hI id r k (by omega) ?_ hk hc)
        simpa [Core.withNew, hidn, Inst.taken] using ht
    | quiet h =>
      rw [h.next] at hid
      rw [latest_congr fun m _ => h.node m] at hk
      rw [h.committed] at hc
      rw [h.register]
      refine hI id r k hid ?_ hk hc
      have hn : (c'.heap id).node = (c.heap id).node := h.node id
      simpa [Inst.taken, hn, h.prevBB id] using ht
    | retire hv h =>
      rw [h.next] at hid
      rw [latest_congr fun m _ => h.node m] at hk
      rw [h.committed, Bool.or_eq_false_iff] at hc
      rw [h.register]
      refine hI id r k hid ?_ hk hc.1
      have hn : (c'.heap id).node = (c.heap id).node := h.node id
      simpa [Inst.taken, hn, h.prevBB id] using ht

/-! ## What the launch reads -/

/-- **A phi with a current operand reads it in program order.** -/
theorem incomingValue_of_launch (hw : P.OneWriter) (hz : P.MemoryLatencyZero)
    (h : core.ReachableWhen (ofProgram P) c) (hr : c.ready id = true) {pv : PhiVal} (ht : (c.heap id).taken = some pv)
    (hcur : c.operandCurrent id = true) {v : Word} (hv : (c.heap id).result c.regs = .ok v) :
      c.incomingValue id = some v := by
  have hA := accounts_of_reachable h
  have hL := lists_of_reachable h
  have hlive := Core.mem_live.mpr (.inl (Core.mem_of_ready hr))
  simp only [Core.operandCurrent, ht] at hcur
  simp only [Core.incomingValue, ht]
  unfold Inst.taken at ht
  split at ht
  · rename_i ret size type incoming junk hb
    simp only [Inst.result, hb] at hv
    cases pv with
    | reg r =>
      rw [phiCompute_reg hv ht]
      have htaken : (c.heap id).taken = some (.reg r) := by simpa [Inst.taken, hb] using ht
      refine regFile_of_reachable hw hz h r id (Nat.le_of_lt (hL.lt_next id hlive)) ?_ ?_
      · -- the latest earlier writer was a parent, and those before it committed before it
        intro k hk hkr
        refine committed_of_latest hw hz h (Nat.le_of_lt (hL.lt_next id hlive)) (fun m hm => ?_) hk hkr
        by_contra hc
        rw [Bool.not_eq_true] at hc
        have hreg := phi_linked_of_reachable hw hz h id r m (hL.lt_next id hlive) htaken hm hc
        rw [(hA.allowed_launch hL hr).2 m hreg] at hc
        cases hc
      · intro k hk hkn hkr
        rcases Nat.lt_or_eq_of_le hk with hlt | rfl
        · simp only [List.all_eq_true, List.mem_range, decide_eq_true_eq] at hcur
          exact hcur k hkn hlt hkr
        · rw [Bool.eq_false_iff]
          exact fun hc => (hA.committed_gone id hc).1 hlive
    | imm text =>
      have hint : type.toList.head? = some 'i' := by simpa [Node.intPhi, Core.node, hb] using hcur
      exact phiCompute_imm hint hv ht
  · cases ht

/-! ## From the launch to the commit -/

/-- Nodes of the program are scheduled, and phis launched while their operand is current. -/
def operandsCurrent (P : Program) (c : Core) (a : Act) : Prop :=
  ofProgram P c a ∧ ∀ id, a = .launch id → (c.node id).isPhi = true → c.operandCurrent id = true

theorem gives_operandsCurrent (P : Program) (cfg : Config) :
    Gives P cfg (fun s _ => s.phiLate cfg = false) (operandsCurrent P) where
  free c a ha := ⟨(gives_ofProgram P cfg fun _ _ => True).free c a ha, fun id he => by subst he; cases ha⟩
  schedule s n rest k _ _ hn := ⟨hn, fun id he => by cases he⟩
  launch s id hC hl := by
    refine ⟨trivial, fun k he hphi => ?_⟩
    cases he
    simpa [St.phiLate, hl, hphi] using hC

/-- The result of a launched phi, and what its commit leaves, are in their low bytes the operand of the taken edge. -/
def Core.PhiValues (c : Core) : Prop :=
  ∀ id pv, id < c.next → (c.heap id).taken = some pv → .launch id ∈ c.log →
    ∃ w, c.incomingValue id = some w ∧
      (committed c.log id = false →
        lowBytes (c.node id).returnSize (c.heap id).finalResult = lowBytes (c.node id).returnSize w) ∧
      ∀ v, produced c.log id = some v → lowBytes (c.node id).returnSize v = lowBytes (c.node id).returnSize w

theorem launch_of_effect (he : c.Effect a c') (hunit : (c.node id).onUnit = true) (hl : .launch id ∈ c'.log) :
    .launch id ∈ c.log ∨ a = .launch id := by
  have hnot : (c.node id).isLoad = false ∧ (c.node id).isStore = false ∧ (c.heap id).dest c.regs = none := by
    unfold Core.node Node.onUnit at hunit
    unfold Core.node Node.isLoad Node.isStore Inst.dest
    split at hunit <;> simp_all
  cases he with
  | enter bb => exact .inl (by simpa using hl)
  | schedule prev n => exact .inl (by simpa using hl)
  | @launchUnit k v hr hn hv =>
    by_cases hk : id = k
    · exact .inr (by rw [hk])
    · exact .inl (by simpa [hk] using hl)
  | @launchMem _ k ha hr hn =>
    have hk : id ≠ k := by rintro rfl; simp [hnot] at hn
    exact .inl (by simpa [hk] using hl)
  | @branch k d hr hd =>
    have hk : id ≠ k := by rintro rfl; simp [hnot] at hd
    exact .inl (by simpa [hk] using hl)
  | bump hid hc => exact .inl hl
  | retire ha hid hv => exact .inl (by simpa [Core.retire_log] using hl)
  | lose ha hid hc => exact .inl hl
  | finish hid hn => exact .inl (by simpa using hl)

/-- `_FinalResult` of an instance that is not a load changes when it is launched. -/
theorem finalResult_of_effect (hL : c.Lists) (he : c.Effect a c') (hid : id < c.next)
    (hload : (c.node id).isLoad = false)
    (hna : a ≠ .launch id) : (c'.heap id).finalResult = (c.heap id).finalResult := by
  cases he with
  | enter bb => rfl
  | schedule prev n => simp [Core.withNew, Nat.ne_of_lt hid]
  | @launchUnit k v hr hn hv =>
    have hk : id ≠ k := fun hk => hna (by rw [hk])
    simp [Core.setFinal_heap, hk]
  | launchMem ha hr hn => rfl
  | branch hr hd => rfl
  | @bump k hk hc => by_cases hik : id = k <;> simp [Core.modify_heap, hik]
  | @retire _ k v ha hk hv =>
    by_cases hik : id = k
    · subst hik; simp [Core.retire_heap, Core.setFinal_heap, hv hload]
    · simp [Core.retire_heap, Core.setFinal_heap, hik]
  | @lose _ k v ha hk hc =>
    have hik : id ≠ k := by rintro rfl; simp [hL.isLoad id hk] at hload
    simp [Core.modify_heap, hik]
  | finish hk hn => rfl

theorem incomingValue_congr (hn : c'.node id = c.node id) (hb : (c'.heap id).prevBB = (c.heap id).prevBB) {w : Word}
    (hv : ∀ r, c.valueBefore r id = some w → c'.valueBefore r id = some w) (h : c.incomingValue id = some w) :
    (c'.heap id).taken = (c.heap id).taken ∧ c'.incomingValue id = some w := by
  have hn' : (c'.heap id).node = (c.heap id).node := hn
  have ht : (c'.heap id).taken = (c.heap id).taken := by simp only [Inst.taken, hn', hb]
  refine ⟨ht, ?_⟩
  simp only [Core.incomingValue, ht] at h ⊢
  cases htk : (c.heap id).taken with
  | none => simp [htk] at h
  | some pv =>
    cases pv with
    | reg r => exact hv r (by simpa [htk] using h)
    | imm text => simpa [htk] using h

/-- What a step leaves of an instance that was there before. -/
theorem phi_frame (hreach : core.ReachableWhen (ofProgram P) c) (hk : Core.Kind c c' a) (hid : id < c.next)
    (hload : (c.node id).isLoad = false) :
    c'.node id = c.node id ∧ (c'.heap id).prevBB = (c.heap id).prevBB ∧
    (∀ r w, c.valueBefore r id = some w → c'.valueBefore r id = some w) ∧
    (committed c'.log id = false → committed c.log id = false) ∧
    ∀ v, produced c'.log id = some v → produced c.log id = some v ∨ committed c.log id = false ∧
      lowBytes (c.node id).returnSize v = lowBytes (c.node id).returnSize (c.heap id).finalResult := by
  have hA := accounts_of_reachable hreach
  have hne : id ≠ c.next := Nat.ne_of_lt hid
  have hval : ∀ r w, c.valueBefore r id = some w → c'.valueBefore r id = some w := fun r w hw =>
    valueBefore_kept hreach hk (Nat.le_of_lt hid) hw
  cases hk with
  | @schedule prev n h =>
    subst h
    refine ⟨Core.withNew_node hne, by simp [Core.withNew, hne], hval, fun hc => ?_, fun v hv => .inl ?_⟩
    · rwa [Core.committed_withNew] at hc
    · rwa [Core.produced_withNew] at hv
  | quiet h =>
    refine ⟨h.node id, h.prevBB id, hval, fun hc => ?_, fun v hv => .inl ?_⟩
    · rwa [h.committed] at hc
    · rwa [h.produced] at hv
  | @retire _ q v hv h =>
    refine ⟨h.node id, h.prevBB id, hval, fun hc => ?_, fun x hx => ?_⟩
    · rw [h.committed, Bool.or_eq_false_iff] at hc
      exact hc.1
    · rw [h.produced hA] at hx
      by_cases hq : q = id
      · subst hq
        rw [if_pos rfl, Core.outcome_setFinal, hv hload] at hx
        obtain ⟨r, -, rfl⟩ := Option.map_eq_some_iff.mp hx
        exact .inr ⟨h.not_committed hA, lowBytes_memcpy _ _ _⟩
      · rw [if_neg hq] at hx
        exact .inl hx

/-- **Every phi takes the operand of its edge**, when it is launched in time. -/
theorem phiValues_of_reachable (hw : P.OneWriter) (hz : P.MemoryLatencyZero)
    (h : core.ReachableWhen (operandsCurrent P) c) : c.PhiValues := by
  refine System.invariantWhen (I := Core.PhiValues) ?_ ?_ h
  · rintro c ⟨init, rfl⟩ id pv hid
    simp [Core.start] at hid
  · intro c a c' hr hI hC hs id pv hid ht hl
    have hreach : core.ReachableWhen (ofProgram P) c := hr.mono fun _ _ h => h.1
    have hA := accounts_of_reachable hreach
    have hL := lists_of_reachable hreach
    have he := Core.effect_of_step hL hs
    have hkind := kind_of_reachable hreach hs
    have hidc := hkind.launched_lt hA hid hl
    have hphi : (c.node id).isPhi = true := by
      rw [← hkind.node hidc]
      unfold Inst.taken at ht
      unfold Core.node Node.isPhi
      split at ht <;> simp_all
    have hload := Node.isLoad_of_isPhi hphi
    obtain ⟨hn, hb, hval, hcom, hprod⟩ := phi_frame hreach hkind hidc hload
    have hn' : (c'.heap id).node = (c.heap id).node := hn
    have ht' : (c.heap id).taken = some pv := by simpa only [Inst.taken, hn', hb] using ht
    rw [hn]
    by_cases ha : a = .launch id
    · subst ha
      cases he with
      | @launchUnit _ v hready hunit hv =>
        have hin := incomingValue_of_launch hw hz hreach hready ht' (hC.2 id rfl hphi) hv
        have hlive := Core.mem_live.mpr (.inl (Core.mem_of_ready hready))
        refine ⟨v, (incomingValue_congr hn hb (fun r => hval r v) hin).2, fun _ => ?_, fun x hx => ?_⟩
        · simp [Core.setFinal_heap, lowBytes_memcpy]
        · have hc : committed c.log id = false := by
            rw [Bool.eq_false_iff]
            exact fun hc => (hA.committed_gone id hc).1 hlive
          have hnone : produced (c.log ++ [.launch id]) id = none := by
            rw [produced_append, produced_of_not_committed hc]
            rfl
          rw [Core.park_log, Core.emit_log, Core.setFinal_log, hnone] at hx
          cases hx
      | launchMem ha => exact absurd rfl (ha id)
      | retire ha => exact absurd rfl (ha id)
      | lose ha => exact absurd rfl (ha id)
    · obtain ⟨w, hw, hfin, hpro⟩ := hI id pv hidc ht'
        ((launch_of_effect he (Node.onUnit_of_isPhi hphi) hl).resolve_right ha)
      refine ⟨w, (incomingValue_congr hn hb (fun r => hval r w) hw).2, fun hc => ?_, fun v hv => ?_⟩
      · rw [finalResult_of_effect hL he hidc hload ha]
        exact hfin (hcom hc)
      · rcases hprod v hv with hv | ⟨hc, hv⟩
        · exact hpro v hv
        · rw [hv]
          exact hfin hc

end Phi

/-- **Phi values.** In every run that launches a phi only while no younger instance of the writer of its operand has
committed, and with a literal operand only for an integer type, what a phi commits is, in the bytes of its type, the
operand of the edge taken into its block as program order has it. -/
theorem phi_value {P : Program} {cfg : Config} {s : St} (hw : P.OneWriter) (hz : P.MemoryLatencyZero)
    (h : (engine P cfg).ReachableWhen (fun s _ => s.phiLate cfg = false) s) {id : Nat} {pv : PhiVal} {v : Word}
    (ht : (s.core.heap id).taken = some pv) (hv : produced s.core.log id = some v) :
    ∃ w, s.core.incomingValue id = some w ∧
      lowBytes (s.core.node id).returnSize v = lowBytes (s.core.node id).returnSize w := by
  have hcore := (refines_of_reachable (gives_operandsCurrent P cfg) h).2
  have hA := accounts_of_reachable hcore
  have hc : committed s.core.log id = true := by
    by_contra hc
    rw [produced_of_not_committed (Bool.not_eq_true _ ▸ hc)] at hv
    cases hv
  obtain ⟨w, hw⟩ := committed_iff.mp hc
  obtain ⟨l₁, l₂, hl⟩ := List.append_of_mem hw
  have hlaunch : .launch id ∈ s.core.log := by
    rw [hl, List.mem_append]
    exact .inl (hA.ordered l₁ _ l₂ hl).2
  obtain ⟨w, hin, -, hpro⟩ := phiValues_of_reachable ‹_› hz hcore id pv (hA.committed_gone id hc).2 ht hlaunch
  exact ⟨w, hin, hpro v hv⟩

def phiEntryBB : BasicBlock where
  name := "entry"
  nodes := [⟨"br label %loop", 0, .br "loop"⟩]

/-- `%1 = phi [0, entry], [%2, loop]` and `%2 = load *%0` in a loop. -/
def phiLoopBB : BasicBlock where
  name := "loop"
  nodes := [⟨"%1 = phi i64 [ 0, %entry ], [ %2, %loop ]", 1, .phi 1 8 "i64" [("entry", .imm "0"), ("loop", .reg 2)] 0⟩,
    ⟨"%2 = load i64, i64* %0", 0, .load 2 8 0⟩, ⟨"br label %loop", 0, .br "loop"⟩]

def phiLoop : Program := ⟨[phiEntryBB, phiLoopBB], by decide⟩

theorem phi_value_phiLoop : ∃ s,
    (engine phiLoop { Config.unlimited with schedulingThreshold := 3 }).ReachableWhen
      (fun s _ => s.phiLate { Config.unlimited with schedulingThreshold := 3 } = false) s ∧
    (s.core.heap 4).taken = some (.reg 2) ∧ produced s.core.log 4 = some 11 ∧
    ∃ w, s.core.incomingValue 4 = some w ∧
      lowBytes (s.core.node 4).returnSize 11 = lowBytes (s.core.node 4).returnSize w := by
  obtain ⟨s, hs, ht, hv⟩ := System.reachableWhen_of_replay
    (C := fun s _ => !s.phiLate { Config.unlimited with schedulingThreshold := 3 })
    (engine_boot phiLoop { Config.unlimited with schedulingThreshold := 3 } rfl fun _ => 64)
    (List.replicate 20 .iter ++ [.readCommit 2 11, .tick] ++ List.replicate 14 .iter ++ [.tick, .iter])
    (fun s => (s.core.heap 4).taken = some (.reg 2) ∧ produced s.core.log 4 = some 11) (by decide)
  have hs' := hs.mono (D := fun s _ => s.phiLate { Config.unlimited with schedulingThreshold := 3 } = false)
    fun s _ h => by simpa using h
  exact ⟨s, hs', ht, hv, phi_value (by decide) (by decide) hs' ht hv⟩

/-- With one compare unit, which the first phi holds on to in the tick of its commit, the second phi starts a tick
after the second load, and commits the value of that load. -/
theorem phi_value_late : ¬ ∀ (P : Program) (cfg : Config) (s : St), (engine P cfg).Reachable s → P.OneWriter →
    P.NoSelfRead → P.MemoryLatencyZero → ∀ (id : Nat) (pv : PhiVal) (v : Word), (s.core.heap id).taken = some pv →
      produced s.core.log id = some v → ∃ w, s.core.incomingValue id = some w ∧
        lowBytes (s.core.node id).returnSize v = lowBytes (s.core.node id).returnSize w := by
  intro h
  obtain ⟨s, hs, ht, hv, hin, hsize⟩ := System.reachable_of_replay
    (engine_boot phiLoop ⟨false, 3, fun u => if u = .compare then 1 else -1⟩ rfl fun _ => 64)
    (List.replicate 20 .iter ++ [.readCommit 2 11, .tick] ++ List.replicate 14 .iter ++ [.readCommit 5 22, .tick] ++
      List.replicate 14 .iter ++ [.tick, .iter])
    (fun s => (s.core.heap 4).taken = some (.reg 2) ∧ produced s.core.log 4 = some 22 ∧
      s.core.incomingValue 4 = some 11 ∧ (s.core.node 4).returnSize = 8) (by decide +kernel)
  obtain ⟨w, hw, hlow⟩ := h phiLoop _ s hs (by decide) (by decide) (by decide) 4 _ _ ht hv
  obtain rfl : (11 : Word) = w := Option.some.inj (hin.symm.trans hw)
  rw [hsize] at hlow
  exact absurd hlow (by decide)

end Salam.Engine
