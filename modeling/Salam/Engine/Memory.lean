import Salam.Engine.Dependence

/-!
# Memory dependences

`scheduleBB` looks for a store that a new load has to wait for: the last one through the same pointer register in the
reservation table, else the last one in the write queue. Addresses are not known at that time and are never compared.

* `load_waits_for_store`: the request of the load is handed over after that store has committed.
* `memory_not_ordered`: no other order is kept between accesses to the same bytes.
-/

namespace Salam.Engine

/-- Nothing is taken back from the log of the core. -/
theorem Core.log_prefix {C : Core → Act → Prop} {c c' : Core} (h : core.ReachableWhen C c) (hr : core.Run C c c') :
    c.log <+: c'.log := by
  induction hr with
  | refl => exact List.prefix_refl _
  | tail hr hC hs ih =>
    refine ih.trans ?_
    cases kind_of_reachable (h.run hr) hs with
    | schedule h => rw [h]; exact List.prefix_append _ _
    | quiet h => obtain ⟨es, hlog, -⟩ := h.log; rw [hlog]; exact List.prefix_append _ _
    | retire hv h => rw [h.log]; exact List.prefix_append _ _

/-- The pointer register of the load that is scheduled next, and the store that it is going to wait for. -/
def St.loadNext (s : St) : Option (Reg × Option Nat) :=
  match s.pc with
  | .sched (n :: _) _ =>
    match n.body with
    | .load _ _ p => some (p, s.core.rawStore p)
    | _ => none
  | _ => none

theorem St.loadNext_eq {s : St} {p : Reg} {o : Option Nat} (h : s.loadNext = some (p, o)) : ∃ n rest k ret size,
    s.pc = .sched (n :: rest) k ∧ n.body = .load ret size p ∧ s.core.rawStore p = o := by
  unfold St.loadNext at h
  split at h
  · rename_i n rest k hpc
    split at h
    · rename_i ret size p' hn
      obtain ⟨rfl, ho⟩ := Prod.mk.inj (Option.some.inj h)
      exact ⟨n, rest, k, ret, size, hpc, hn, ho⟩
    · cases h
  · cases h

/-- **A load waits for the store that `detectRAW` finds**: the last store through the pointer register of the load in
the reservation table or, if there is none, in the write queue. Whatever happens after the load is scheduled, its
request is not handed over before that store has committed. -/
theorem load_waits_for_store {P : Program} {cfg : Config} {s s₁ s₂ : St} {p : Reg} {A : Nat}
    (h : (engine P cfg).Reachable s) (hload : s.loadNext = some (p, some A))
    (hs : (engine P cfg).step s .iter = some s₁) (hrun : (engine P cfg).Run (fun _ _ => True) s₁ s₂) :
    A < s.core.next ∧ (s.core.node A).isStore = true ∧ (s.core.node A).rawCheck = some p ∧
      ∀ l₁ a len l₂, s₂.core.log = l₁ ++ .request s.core.next a len :: l₂ → committed l₁ A = true := by
  obtain ⟨n, rest, k, ret, size, hpc, hn, hA⟩ := St.loadNext_eq hload
  have hcore := core_of_reachable h
  have hL := lists_of_reachable hcore
  have hpar : A ∈ s.core.parentsOf s.prevBB.name n := by simp [Core.parentsOf, Core.rawParent, hn, hA]
  obtain ⟨hst, hraw⟩ := hL.rawStore hA
  refine ⟨hL.lt_next A (Core.parentsOf_live hpar), hst, hraw, fun l₁ a len l₂ hlog => ?_⟩
  have h₁ : (engine P cfg).Reachable s₁ := h.step trivial hs
  have hreg : .register A s.core.next ∈ s₁.core.log := by
    have hs' : s₁.core = s.core.scheduleNode s.prevBB.name n := by
      simp only [engine, St.step, hpc, St.tickStep, Except.toOption, Option.some.injEq] at hs
      rw [← hs]
    rw [hs', Core.scheduleNode_eq hL.lt_next, Core.withNew_log, List.mem_append]
    exact .inr (List.mem_map_of_mem hpar)
  have hreg₂ := (Core.log_prefix (core_of_reachable h₁) (core_of_run h₁ hrun)).subset hreg
  -- the request follows the launch, and the launch the commits of all registered parents
  have hord := (accounts_of_reachable (core_of_reachable (h₁.run hrun))).ordered
  obtain ⟨b, d, hbd⟩ := List.append_of_mem (hord l₁ _ l₂ hlog)
  have hc := (committed_of_launch hord b (d ++ .request s.core.next a len :: l₂) (by simp [hlog, hbd]) hreg₂).2
  rw [hbd, committed_append, hc, Bool.true_or]

/-- `store 1, *%0` and `%1 = load *%0`. -/
def storeLoadBB : BasicBlock where
  name := "entry"
  nodes := [⟨"store i64 1, i64* %0", 0, .store 0 (.imm 1 8)⟩, ⟨"%1 = load i64, i64* %0", 0, .load 1 8 0⟩,
    ⟨"ret void", 1, .ret⟩]

def storeLoad : Program := ⟨[storeLoadBB], by decide⟩

theorem load_waits_for_store_storeLoad : ∃ s, (engine storeLoad .unlimited).Reachable s ∧
    .request 1 64 8 ∈ s.core.log ∧
    ∀ l₁ a len l₂, s.core.log = l₁ ++ .request 1 a len :: l₂ → committed l₁ 0 = true := by
  obtain ⟨s, s₁, s₂, hs, ⟨hnext, hload⟩, hs₁, hrun, hreq⟩ := System.run_through_of_replay
    (engine_boot storeLoad .unlimited rfl fun _ => 64) [.iter, .iter] .iter
    (List.replicate 7 .iter ++ [.writeCommit 0, .tick, .iter, .iter, .iter])
    (fun s => s.core.next = 1 ∧ s.loadNext = some (0, some 0)) (fun s => .request 1 64 8 ∈ s.core.log)
    (by decide) (by decide)
  have h := (load_waits_for_store hs hload hs₁ hrun).2.2.2
  rw [hnext] at h
  exact ⟨s₂, (hs.step trivial hs₁).run hrun, hreq, h⟩

/-! ## What is not ordered -/

/-- Two byte ranges that overlap. -/
def overlap (a : Word) (la : Nat) (b : Word) (lb : Nat) : Prop := a.toNat < b.toNat + lb ∧ b.toNat < a.toNat + la

/-- Of two accesses to overlapping bytes whose instructions are related by `K`, the later one is handed over after the
earlier one has committed, in every run of every program. -/
def MemoryOrdered (K : Node → Node → Prop) : Prop :=
  ∀ (P : Program) (cfg : Config) (s : St), (engine P cfg).Reachable s → ∀ (A B : Nat) (a b : Word) (la lb : Nat),
    A < B → K (s.core.node A) (s.core.node B) → overlap a la b lb → .request A a la ∈ s.core.log →
      ∀ l₁ l₂, s.core.log = l₁ ++ .request B b lb :: l₂ → committed l₁ A = true

/-- `store 1, *%0`, a later store of `%2` through `%0`, loads through `%0` and `%1`, and a store through `%1`. -/
def hazardsBB : BasicBlock where
  name := "entry"
  nodes := [⟨"store i64 1, i64* %0", 0, .store 0 (.imm 1 8)⟩,
    ⟨"%2 = add i64 %3, %3", 1, .compute 2 8 [3, 3] .intAdder List.sum⟩,
    ⟨"store i64 %2, i64* %0", 0, .store 0 (.reg 2 8)⟩, ⟨"%4 = load i64, i64* %0", 0, .load 4 8 0⟩,
    ⟨"%5 = load i64, i64* %1", 0, .load 5 8 1⟩, ⟨"store i64 9, i64* %1", 0, .store 1 (.imm 9 8)⟩, ⟨"ret void", 1, .ret⟩]

def hazards : Program := ⟨[hazardsBB], by decide⟩


theorem not_memoryOrdered {K : Node → Node → Prop} {P : Program} {cfg : Config} {s : St}
    (hs : (engine P cfg).Reachable s) {A B : Nat} {a b : Word} {la lb : Nat} (hAB : A < B)
    (hK : K (s.core.node A) (s.core.node B)) (ho : overlap a la b lb) (hA : .request A a la ∈ s.core.log)
    (hB : .request B b lb ∈ s.core.log) (hc : committed s.core.log A = false) : ¬ MemoryOrdered K := by
  intro h
  obtain ⟨l₁, l₂, hl⟩ := List.append_of_mem hB
  have hc₁ := h P cfg s hs A B a b la lb hAB hK ho hA l₁ l₂ hl
  rw [hl, committed_append, hc₁, Bool.true_or] at hc
  cases hc

/-- Accesses to the same bytes are not kept in order, not for a load and an older store through another register, nor
for two stores, a store and an older load, or a load and a store before the last one, even through one register. -/
theorem memory_not_ordered :
    ¬ MemoryOrdered (fun m n => m.isStore = true ∨ n.isStore = true) ∧
    ¬ MemoryOrdered (fun m n => m.isStore = true ∧ n.isLoad = true ∧ m.rawCheck ≠ n.rawCheck) ∧
    ¬ MemoryOrdered (fun m n => m.isStore = true ∧ n.isStore = true ∧ m.rawCheck = n.rawCheck) ∧
    ¬ MemoryOrdered (fun m n => m.isLoad = true ∧ n.isStore = true ∧ m.rawCheck = n.rawCheck) ∧
    ¬ MemoryOrdered (fun m n => m.isStore = true ∧ n.isLoad = true ∧ m.rawCheck = n.rawCheck) := by
  -- the memory answers the second store through `%0` first, and nothing else
  obtain ⟨s, hs, hreq, hc0, hc4, h0, h2, h3, h4, h5⟩ := System.reachable_of_replay
    (engine_boot hazards .unlimited rfl fun r => if r = 0 ∨ r = 1 then 0x1000 else 3)
    (List.replicate 18 .iter ++ .tick :: List.replicate 7 .iter ++ [.writeCommit 2, .tick, .iter, .iter, .iter])
    (fun s => (∀ id ∈ [0, 2, 3, 4, 5], .request id 0x1000 8 ∈ s.core.log) ∧ committed s.core.log 0 = false ∧
      committed s.core.log 4 = false ∧
      ((s.core.node 0).isStore = true ∧ (s.core.node 0).rawCheck = some 0) ∧
      ((s.core.node 2).isStore = true ∧ (s.core.node 2).rawCheck = some 0) ∧
      ((s.core.node 3).isLoad = true ∧ (s.core.node 3).rawCheck = some 0) ∧
      ((s.core.node 4).isLoad = true ∧ (s.core.node 4).rawCheck = some 1) ∧
      ((s.core.node 5).isStore = true ∧ (s.core.node 5).rawCheck = some 1)) (by decide)
  have ho : overlap 0x1000 8 0x1000 8 := by simp [overlap]
  refine ⟨?_, ?_, ?_, ?_, ?_⟩
  · exact not_memoryOrdered hs (A := 0) (B := 2) (by decide) (.inl h0.1) ho (hreq 0 (by simp)) (hreq 2 (by simp)) hc0
  · exact not_memoryOrdered hs (A := 0) (B := 4) (by decide) ⟨h0.1, h4.1, by simp [h0.2, h4.2]⟩ ho (hreq 0 (by simp))
      (hreq 4 (by simp)) hc0
  · exact not_memoryOrdered hs (A := 0) (B := 2) (by decide) ⟨h0.1, h2.1, by simp [h0.2, h2.2]⟩ ho (hreq 0 (by simp))
      (hreq 2 (by simp)) hc0
  · exact not_memoryOrdered hs (A := 4) (B := 5) (by decide) ⟨h4.1, h5.1, by simp [h4.2, h5.2]⟩ ho (hreq 4 (by simp))
      (hreq 5 (by simp)) hc4
  · exact not_memoryOrdered hs (A := 0) (B := 3) (by decide) ⟨h0.1, h3.1, by simp [h0.2, h3.2]⟩ ho (hreq 0 (by simp))
      (hreq 3 (by simp)) hc0

end Salam.Engine
