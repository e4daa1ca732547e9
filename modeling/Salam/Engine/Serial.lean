import Salam.Engine.Kinds

/-!
# The instances of a writer, in order

Each instance of an instruction waits for the instance of the same line before it. With one static writer for each
register this serialises the writes to a register: they are launched, and commit, in program order, and the backward
search of `findParent` finds the youngest instance in flight.

* `serial_of_reachable`: two instances of one writer, the younger one launched: the older one has committed.
* `writerOf_spec`: what the search for the writer of a register finds.
-/

namespace Salam.Engine

namespace Core

/-- Instances that satisfy `p` leave the reservation table in program order, each after the one before has committed. -/
def InOrder (c : Core) (p : Node → Bool) : Prop :=
  ∀ k k', k < k' → k' < c.next → p (c.node k) = true → p (c.node k') = true → k' ∉ c.reservation →
    committed c.log k = true

variable {c : Core} {p : Node → Bool}

theorem lastWhere_none {q : Nat → Bool} {l : List Nat} (h : lastWhere q l = none) : ∀ k ∈ l, q k = false := by
  intro k hk
  have := List.find?_eq_none.mp h k (List.mem_reverse.mpr hk)
  simpa using this

theorem lastWhere_max {q : Nat → Bool} {l : List Nat} (hs : l.Pairwise (· < ·)) {m : Nat} (h : lastWhere q l = some m) :
    ∀ k ∈ l, q k = true → k ≤ m := by
  obtain ⟨-, as, bs, hl, hno⟩ := List.find?_eq_some_iff_append.mp h
  have hl' : l = bs.reverse ++ m :: as.reverse := by
    have := congrArg List.reverse hl
    simpa using this
  intro k hk hq
  rw [hl', List.mem_append, List.mem_cons] at hk
  rw [hl', List.pairwise_append] at hs
  rcases hk with hk | rfl | hk
  · exact Nat.le_of_lt (hs.2.2 k hk m List.mem_cons_self)
  · exact Nat.le_refl _
  · have := hno k (List.mem_reverse.mp hk)
    simp [hq] at this

/-- **The backward search finds the youngest instance in flight, and none only when all have committed.** -/
theorem youngest_spec (hL : c.Lists) (hA : c.Accounts) (hord : c.InOrder p)
    (hset : ∀ k < c.next, p (c.node k) = true → (k ∈ c.live ∧ k ∉ c.writeQueue) ∨ committed c.log k = true) :
    match c.youngest p with
    | none => ∀ k < c.next, p (c.node k) = true → committed c.log k = true
    | some m => m < c.next ∧ p (c.node m) = true ∧ committed c.log m = false ∧
        ∀ k, m < k → k < c.next → p (c.node k) = false := by
  cases hy : c.youngest p with
  | none =>
    intro k hk hp
    rcases hset k hk hp with ⟨hl, hw⟩ | hc
    · simp only [youngest, Option.or_eq_none_iff] at hy
      obtain ⟨h₁, h₂, h₃⟩ := hy
      rcases mem_live.mp hl with hm | hm | hm | hm
      · exact absurd (lastWhere_none h₁ k hm) (by simp [hp])
      · exact absurd (lastWhere_none h₂ k hm) (by simp [hp])
      · exact absurd (lastWhere_none h₃ k hm) (by simp [hp])
      · exact absurd hm hw
    · exact hc
  | some m =>
    have hm := youngest_live hy
    have hc : committed c.log m = false := by
      rw [Bool.eq_false_iff]
      exact fun hc => (hA.committed_gone m hc).1 hm
    refine ⟨hL.lt_next m hm, (youngest_mem hy).2, hc, fun k hmk hk => ?_⟩
    rw [Bool.eq_false_iff]
    intro hp
    by_cases hkr : k ∈ c.reservation
    · -- the table is searched first and from its end
      simp only [youngest, Option.or_eq_some_iff] at hy
      rcases hy with hy | ⟨hy, -⟩
      · have := lastWhere_max hL.sorted hy k hkr hp
        omega
      · exact absurd (lastWhere_none hy k hkr) (by simp [hp])
    · have := hord m k hmk hk (youngest_mem hy).2 hp hkr
      rw [hc] at this
      cases this

theorem youngest_congr {q : Node → Bool} (h : ∀ k ∈ c.live, p (c.node k) = q (c.node k)) :
    c.youngest p = c.youngest q := by
  simp only [youngest]
  rw [lastWhere_congr (l := c.reservation) fun k hk => h k (mem_live.mpr (.inl hk)),
    lastWhere_congr (l := c.computeQueue) fun k hk => h k (mem_live.mpr (.inr (.inl hk))),
    lastWhere_congr (l := c.readQueue) fun k hk => h k (mem_live.mpr (.inr (.inr (.inl hk))))]

/-- The instances that return to a register are serialised: launched in order, each linked to an earlier one that is
at least as young as any that has not committed. -/
structure Serial (c : Core) : Prop where
  ordered : ∀ r, c.InOrder fun m => m.returnRegister = some r
  linked : ∀ r k k', k < k' → k' < c.next → (c.node k).returnRegister = some r →
    (c.node k').returnRegister = some r → committed c.log k = false →
      ∃ p, .register p k' ∈ c.log ∧ k ≤ p ∧ p < k' ∧ (c.node p).returnRegister = some r

end Core

section Serial

variable {P : Program} {c c' : Core} {a : Act}

/-- What `findParent` finds for a register. -/
theorem writerOf_spec (hz : P.MemoryLatencyZero) (h : core.ReachableWhen (ofProgram P) c) (hS : c.Serial) (r : Reg) :
    match c.writerOf r with
    | none => ∀ k < c.next, (c.node k).returnRegister = some r → committed c.log k = true
    | some m => m < c.next ∧ (c.node m).returnRegister = some r ∧ committed c.log m = false ∧
        ∀ k, m < k → k < c.next → (c.node k).returnRegister ≠ some r := by
  have hL := lists_of_reachable h
  have hspec := Core.youngest_spec hL (accounts_of_reachable h) (hS.ordered r) fun k hk hp => by
    obtain ⟨hq, hs⟩ := Node.queued_of_returnRegister (of_decide_eq_true hp)
    refine (settled_of_reachable hz h k hk hq).imp_left fun hl => ⟨hl, fun hw => ?_⟩
    rw [hL.isStore k hw] at hs
    cases hs
  simpa [Core.writerOf] using hspec

/-- With one writer for each register, the last instance of the same line is the last writer of the register. -/
theorem lineParent_eq_writerOf (hw : P.OneWriter) (h : core.ReachableWhen (ofProgram P) c) {n : Node}
    (hn : n ∈ P.nodes) {r : Reg} (hr : n.returnRegister = some r) : c.lineParent n = c.writerOf r := by
  have hL := lists_of_reachable h
  simp only [Core.lineParent, hr, Option.isSome_some, if_true, Core.writerOf]
  refine Core.youngest_congr fun k hk => ?_
  have hk := node_mem_of_reachable h k (hL.lt_next k hk)
  rw [decide_eq_decide]
  constructor
  · intro hl
    rw [P.returnRegister_of_line hk hn hl, hr]
  · intro hr'
    rw [hw.eq hk hn hr' hr]

/-- A new instance waits for the youngest writer in flight, so for one at least as young as any that has not
committed. -/
theorem linked_to_new (hw : P.OneWriter) (hz : P.MemoryLatencyZero) (h : core.ReachableWhen (ofProgram P) c)
    (hS : c.Serial) (prev : Label) {n : Node} (hn : n ∈ P.nodes) {r : Reg} (hr : n.returnRegister = some r) {k : Nat}
    (hk : k < c.next) (hkr : (c.node k).returnRegister = some r) (hc : committed c.log k = false) :
    ∃ p ∈ c.parentsOf prev n, k ≤ p ∧ p < c.next ∧ (c.node p).returnRegister = some r := by
  have hspec := writerOf_spec hz h hS r
  cases hwr : c.writerOf r with
  | none =>
    rw [hwr] at hspec
    rw [hspec k hk hkr] at hc
    cases hc
  | some m =>
    rw [hwr] at hspec
    obtain ⟨hm, hmr, -, hlast⟩ := hspec
    refine ⟨m, ?_, ?_, hm, hmr⟩
    · simp [Core.parentsOf, lineParent_eq_writerOf hw h hn hr, hwr]
    · by_contra hlt
      exact hlast k (by omega) hk hkr

theorem serial_withNew (hw : P.OneWriter) (hz : P.MemoryLatencyZero) (h : core.ReachableWhen (ofProgram P) c)
    (hS : c.Serial) {prev : Label} {n : Node} (hn : n ∈ P.nodes) (ops : List Word) (ptr : Word) (bb : Label) :
    (c.withNew n (c.parentsOf prev n) ops ptr bb).Serial := by
  constructor
  · intro r k k' hkk hk' hp hp' hres
    rw [Core.withNew_next] at hk'
    rw [Core.withNew_reservation, List.mem_append, List.mem_singleton, not_or] at hres
    rw [Core.withNew_node hres.2] at hp'
    rw [Core.withNew_node (by omega)] at hp
    rw [Core.committed_withNew]
    exact hS.ordered r k k' hkk (by omega) hp hp' hres.1
  · intro r k k' hkk hk' hp hp' hc
    rw [Core.withNew_next] at hk'
    rw [Core.withNew_node (by omega)] at hp
    rw [Core.committed_withNew] at hc
    by_cases hkn : k' = c.next
    · subst hkn
      have hr : n.returnRegister = some r := by simpa [Core.withNew, Core.node, Inst.clone] using hp'
      obtain ⟨p, hpar, h₁, h₂, h₃⟩ := linked_to_new hw hz h hS prev hn hr hkk hp hc
      refine ⟨p, ?_, h₁, h₂, by rw [Core.withNew_node (by omega)]; exact h₃⟩
      rw [Core.withNew_log, List.mem_append]
      exact .inr (List.mem_map_of_mem hpar)
    · rw [Core.withNew_node hkn] at hp'
      obtain ⟨p, hreg, h₁, h₂, h₃⟩ := hS.linked r k k' hkk (by omega) hp hp' hc
      refine ⟨p, ?_, h₁, h₂, by rw [Core.withNew_node (by omega)]; exact h₃⟩
      rw [Core.withNew_log, List.mem_append]
      exact .inl hreg

/-- An instance that can be launched: every older writer of its register has committed. -/
theorem Core.Serial.committed_of_ready (hS : c.Serial) (hA : c.Accounts) (hL : c.Lists) {r : Reg} {k k' : Nat}
    (hkk : k < k') (hk' : k' < c.next) (hp : (c.node k).returnRegister = some r)
    (hp' : (c.node k').returnRegister = some r) (hready : c.ready k' = true) : committed c.log k = true := by
  by_contra hc
  rw [Bool.not_eq_true] at hc
  -- one of the parents of `k'`, all of which have committed, is at least as young as `k`
  obtain ⟨p, hreg, h₁, h₂, h₃⟩ := hS.linked r k k' hkk hk' hp hp' hc
  have hpc := (hA.allowed_launch hL hready).2 p hreg
  rcases Nat.lt_or_eq_of_le h₁ with hlt | rfl
  · have hpr : p ∉ c.reservation := fun hm => (hA.committed_gone p hpc).1 (Core.mem_live.mpr (.inl hm))
    have := hS.ordered r k p hlt (by omega) (by simpa using hp) (by simpa using h₃) hpr
    rw [hc] at this
    cases this
  · rw [hc] at hpc
    cases hpc

theorem Core.Serial.quiet (hS : c.Serial) (hA : c.Accounts) (hL : c.Lists) (h : c.Quiet c') : c'.Serial := by
  constructor
  · intro r k k' hkk hk' hp hp' hres
    rw [h.next] at hk'
    rw [h.node] at hp hp'
    rw [h.committed]
    by_cases hk'r : k' ∈ c.reservation
    · -- `k'` is launched now
      have hready : c.ready k' = true := by
        refine (h.launched k' hk'r hres).resolve_right fun hret => ?_
        have := (Node.queued_of_returnRegister (of_decide_eq_true hp')).1
        rw [Core.queued_of_isRet hret] at this
        cases this
      exact hS.committed_of_ready hA hL hkk hk' (of_decide_eq_true hp) (of_decide_eq_true hp') hready
    · exact hS.ordered r k k' hkk hk' hp hp' hk'r
  · intro r k k' hkk hk' hp hp' hc
    rw [h.next] at hk'
    rw [h.node] at hp hp'
    rw [h.committed] at hc
    obtain ⟨p, hreg, h₁, h₂, h₃⟩ := hS.linked r k k' hkk hk' hp hp' hc
    exact ⟨p, h.register.mpr hreg, h₁, h₂, by rw [h.node]; exact h₃⟩

theorem Core.Serial.retired (hS : c.Serial) {id : Nat} {v : Word} (h : c.Retired id v c') : c'.Serial := by
  constructor
  · intro r k k' hkk hk' hp hp' hres
    rw [h.next] at hk'
    rw [h.node] at hp hp'
    rw [h.mem_reservation] at hres
    rw [h.committed, hS.ordered r k k' hkk hk' hp hp' hres, Bool.true_or]
  · intro r k k' hkk hk' hp hp' hc
    rw [h.next] at hk'
    rw [h.node] at hp hp'
    rw [h.committed, Bool.or_eq_false_iff] at hc
    obtain ⟨p, hreg, h₁, h₂, h₃⟩ := hS.linked r k k' hkk hk' hp hp' hc.1
    exact ⟨p, h.register.mpr hreg, h₁, h₂, by rw [h.node]; exact h₃⟩

/-- **Serialisation**: the instances of a writer are launched, and so commit, in program order. -/
theorem serial_of_reachable (hw : P.OneWriter) (hz : P.MemoryLatencyZero) (h : core.ReachableWhen (ofProgram P) c) :
    c.Serial := by
  refine System.invariantWhen (I := Core.Serial) ?_ ?_ h
  · rintro c ⟨init, rfl⟩
    exact ⟨fun r k k' _ hk => by simp [Core.start] at hk, fun r k k' _ hk => by simp [Core.start] at hk⟩
  · intro c a c' hreach hS hC hs
    cases kind_of_reachable hreach hs with
    | @schedule prev n h =>
      subst h
      exact serial_withNew hw hz hreach hS hC _ _ _
    | quiet h => exact hS.quiet (accounts_of_reachable hreach) (lists_of_reachable hreach) h
    | retire hv h => exact hS.retired h

end Serial

end Salam.Engine
