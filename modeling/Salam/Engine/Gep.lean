import Salam.Engine.Dataflow

/-!
# The base pointer of a getelementptr

The base register `_PtrVal` is not among the `_Dependencies`. When its writer has committed, `scheduleBB` copies the
register to `_ActivePtr`; when it is in flight, `scheduleBB` only registers it as a parent, and its commit
(`fetchDependency`) goes over `_Dependencies` alone.

* `gep_base_captured`: as long as no getelementptr is scheduled while a writer of its base is in flight, `_ActivePtr`
  is the value of the base register in program order.
* `gep_base_not_captured`: of two chained getelementptr, the second one computes from an indeterminate base.
-/

namespace Salam.Engine

/-- The next iteration schedules a getelementptr for whose base register `findParent` finds a writer. -/
def St.baseInFlight (s : St) : Bool :=
  match s.pc with
  | .sched (n :: _) _ => (n.ptrVal.bind s.core.writerOf).isSome
  | _ => false

section Base

variable {P : Program} {c : Core}

/-- A getelementptr is only scheduled when no writer of its base register is in flight. -/
def baseSettled (P : Program) (c : Core) (a : Act) : Prop :=
  ofProgram P c a ∧ ∀ prev n p, a = .schedule prev n → n.ptrVal = some p → c.writerOf p = none

theorem gives_baseSettled (P : Program) (cfg : Config) :
    Gives P cfg (fun s _ => s.baseInFlight = false) (baseSettled P) where
  free c a ha := ⟨(gives_ofProgram P cfg fun _ _ => True).free c a ha, fun prev n p he => by subst he; cases ha⟩
  schedule s n rest k hC hpc hn := by
    refine ⟨hn, fun prev m p he hp => ?_⟩
    cases he
    simpa [St.baseInFlight, hpc, hp] using hC
  launch s id _ _ := ⟨trivial, fun prev n p he => by cases he⟩

theorem base_of_reachable (hw : P.OneWriter) (hz : P.MemoryLatencyZero) (h : core.ReachableWhen (baseSettled P) c) :
    ∀ id p, id < c.next → (c.node id).ptrVal = some p → c.valueBefore p id = some (c.heap id).activePtr := by
  refine System.invariantWhen (I := fun c => ∀ id p, id < c.next → (c.node id).ptrVal = some p →
    c.valueBefore p id = some (c.heap id).activePtr) ?_ ?_ h
  · rintro c ⟨init, rfl⟩ id p hid
    simp [Core.start] at hid
  · intro c a c' hr hI hC hs id p hid hp
    have hreach : core.ReachableWhen (ofProgram P) c := hr.mono fun _ _ h => h.1
    cases kind_of_reachable hreach hs with
    | @schedule prev n h =>
      subst h
      rw [Core.withNew_next] at hid
      rw [Core.valueBefore_withNew (by omega)]
      by_cases hidn : id = c.next
      · -- the register file holds what the committed writer left
        subst hidn
        have hn : n.ptrVal = some p := by simpa [Core.withNew, Core.node, Inst.clone] using hp
        have hnone := hC.2 prev n p rfl hn
        have hspec := writerOf_spec hz hreach (serial_of_reachable hw hz hreach) p
        rw [hnone] at hspec
        rw [regFile_of_reachable hw hz hreach p c.next (Nat.le_refl _) hspec fun k hk hkn => by omega]
        have hptr : c.capturedPtr n = c.regs p := by
          unfold Node.ptrVal at hn
          split at hn
          · rename_i hb
            cases hn
            simp [Core.capturedPtr, hb, hnone]
          · cases hn
        simp [Core.withNew, hptr]
      · rw [Core.withNew_node hidn] at hp
        simpa [Core.withNew, hidn] using hI id p (by omega) hp
    | quiet h =>
      rw [h.next] at hid
      rw [h.node] at hp
      rw [h.valueBefore, h.activePtr]
      exact hI id p hid hp
    | @retire _ q v hv h =>
      rw [h.next] at hid
      rw [h.node] at hp
      rw [h.activePtr]
      exact h.valueBefore_some (accounts_of_reachable hreach) (hI id p hid hp)

end Base

/-- **Base capture.** In every run that schedules a getelementptr only while no writer of its base register is in
flight, `_ActivePtr` of every getelementptr is the value of the base register in program order. -/
theorem gep_base_captured {P : Program} {cfg : Config} {s : St} (hw : P.OneWriter) (hz : P.MemoryLatencyZero)
    (h : (engine P cfg).ReachableWhen (fun s _ => s.baseInFlight = false) s) {id : Nat} {p : Reg}
    (hid : id < s.core.next) (hp : (s.core.node id).ptrVal = some p) :
    s.core.valueBefore p id = some (s.core.heap id).activePtr :=
  base_of_reachable hw hz (refines_of_reachable (gives_baseSettled P cfg) h).2 id p hid hp

/-- `%1 = getelementptr %0, 1` of latency 0, and in the next block `%2 = getelementptr %1, 1`. -/
def twoGepsBB : BasicBlock where
  name := "entry"
  nodes := [⟨"%1 = getelementptr inbounds i64, i64* %0, i64 1", 0, .gep 1 8 0 [none] 0 fun base _ => base + 8⟩,
    ⟨"br label %next", 0, .br "next"⟩]

def twoGepsNextBB : BasicBlock where
  name := "next"
  nodes := [⟨"%2 = getelementptr inbounds i64, i64* %1, i64 1", 1, .gep 2 8 1 [none] 0 fun base _ => base + 8⟩,
    ⟨"ret void", 1, .ret⟩]

def twoGeps : Program := ⟨[twoGepsBB, twoGepsNextBB], by decide⟩

theorem gep_base_captured_twoGeps : ∃ s, (engine twoGeps .unlimited).ReachableWhen
    (fun s _ => s.baseInFlight = false) s ∧ .launch 2 ∈ s.core.log ∧
      s.core.valueBefore 1 2 = some (s.core.heap 2).activePtr := by
  obtain ⟨s, hs, hid, hp, hl⟩ := System.reachableWhen_of_replay (C := fun s _ => !s.baseInFlight)
    (engine_boot twoGeps .unlimited rfl fun _ => 0x1000) (List.replicate 11 .iter)
    (fun s => 2 < s.core.next ∧ (s.core.node 2).ptrVal = some 1 ∧ .launch 2 ∈ s.core.log) (by decide)
  have hs' : (engine twoGeps .unlimited).ReachableWhen (fun s _ => s.baseInFlight = false) s :=
    hs.mono fun s _ h => by simpa using h
  exact ⟨s, hs', hl, gep_base_captured (by decide) (by decide) hs' hid hp⟩

/-- `%1 = getelementptr %0, 1` and `%2 = getelementptr %1, 1`. -/
def chainedGepsBB : BasicBlock where
  name := "entry"
  nodes := [⟨"%1 = getelementptr inbounds i64, i64* %0, i64 1", 1, .gep 1 8 0 [none] 0 fun base _ => base + 8⟩,
    ⟨"%2 = getelementptr inbounds i64, i64* %1, i64 1", 1, .gep 2 8 1 [none] 0 fun base _ => base + 8⟩,
    ⟨"ret void", 1, .ret⟩]

def chainedGeps : Program := ⟨[chainedGepsBB], by decide⟩

/-- Of two chained getelementptr, the second one computes from an indeterminate base. -/
theorem gep_base_not_captured : ¬ ∀ (P : Program) (cfg : Config) (s : St), (engine P cfg).Reachable s →
    P.OneWriter → P.NoSelfRead → P.MemoryLatencyZero → ∀ (id : Nat) (p : Reg), .launch id ∈ s.core.log →
      (s.core.node id).ptrVal = some p → s.core.valueBefore p id = some (s.core.heap id).activePtr := by
  intro h
  obtain ⟨s, hs, hl, hp, hne⟩ := System.reachable_of_replay
    (engine_boot chainedGeps .unlimited rfl fun _ => 0x1000)
    (List.replicate 10 .iter ++ .tick :: List.replicate 4 .iter)
    (fun s => .launch 1 ∈ s.core.log ∧ (s.core.node 1).ptrVal = some 1 ∧
      s.core.valueBefore 1 1 ≠ some (s.core.heap 1).activePtr) (by decide)
  exact hne (h chainedGeps _ s hs (by decide) (by decide) (by decide) 1 1 hl hp)

end Salam.Engine
