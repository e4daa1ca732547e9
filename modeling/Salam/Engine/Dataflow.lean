import Salam.Engine.Dependence
import Salam.Engine.Serial

/-!
# Captured operands

The value of a register in program order (`valueBefore`) and where the engine has it: the register file holds the
value of the youngest committed instance (`RegFile`), and an operand is captured either from the register file at
scheduling or at the commit of the latest earlier instance of its writer (`Captured`).

* `captured_of_reachable`: an operand is the value of the latest earlier instance of its writer, or that instance is a
  registered parent that has not committed.
-/

namespace Salam.Engine

/-! ## The value of a register in program order -/

/-- The contents that the commit of `k` left in its return register. -/
def produced (log : List Event) (k : Nat) : Option Word :=
  log.findSome? fun e => match e with
    | .commit id v => if id = k then v else none
    | _ => none

namespace Core

/-- The latest instance before `id` that returns to `r`. -/
def latest (c : Core) (r : Reg) (id : Nat) : Option Nat :=
  lastWhere (fun k => (c.node k).returnRegister = some r) (List.range id)

/-- What `r` holds for `id` in program order: the value produced by the latest instance before `id` that returns to
`r`, or the initial value. It is `none` as long as that instance has not committed. -/
def valueBefore (c : Core) (r : Reg) (id : Nat) : Option Word :=
  match c.latest r id with
  | none => some (c.init r)
  | some k => produced c.log k

end Core

section Value

variable {c c' : Core} {r : Reg} {id k : Nat} {l es : List Event}

theorem produced_append : produced (l ++ es) k = (produced l k).or (produced es k) := List.findSome?_append

theorem produced_neutral (h : ∀ e ∈ es, e.neutral = true) : produced es k = none := by
  refine List.findSome?_eq_none_iff.mpr fun e he => ?_
  have := h e he
  cases e <;> simp_all [Event.neutral]

theorem produced_of_not_committed (h : committed l k = false) : produced l k = none := by
  refine List.findSome?_eq_none_iff.mpr fun e he => ?_
  cases e with
  | commit id v =>
    have hne : id ≠ k := by
      rintro rfl
      rw [committed_iff.mpr ⟨v, he⟩] at h
      cases h
    simp [hne]
  | _ => rfl

theorem latest_eq_some (h : c.latest r id = some k) :
    k < id ∧ (c.node k).returnRegister = some r ∧ ∀ m, k < m → m < id → (c.node m).returnRegister ≠ some r := by
  obtain ⟨hm, hr⟩ := Core.lastWhere_mem h
  refine ⟨List.mem_range.mp hm, of_decide_eq_true hr, fun m hkm hmid hr' => ?_⟩
  have := Core.lastWhere_max List.pairwise_lt_range h m (List.mem_range.mpr hmid) (decide_eq_true hr')
  omega

theorem latest_eq_none (h : c.latest r id = none) : ∀ k < id, (c.node k).returnRegister ≠ some r := by
  intro k hk hr
  have := Core.lastWhere_none h k (List.mem_range.mpr hk)
  simp [hr] at this

theorem latest_of (hk : k < id) (hr : (c.node k).returnRegister = some r)
    (hlast : ∀ m, k < m → m < id → (c.node m).returnRegister ≠ some r) : c.latest r id = some k := by
  cases h : c.latest r id with
  | none => exact absurd hr (latest_eq_none h k hk)
  | some m =>
    obtain ⟨hm, hmr, hmax⟩ := latest_eq_some h
    rcases Nat.lt_trichotomy k m with hlt | rfl | hlt
    · exact absurd hmr (hlast m hlt hm)
    · rfl
    · exact absurd hr (hmax k hlt hk)

theorem latest_congr (h : ∀ k < id, c'.node k = c.node k) : c'.latest r id = c.latest r id :=
  Core.lastWhere_congr fun k hk => by rw [h k (List.mem_range.mp hk)]

theorem latest_succ (h : (c.node id).returnRegister ≠ some r) : c.latest r (id + 1) = c.latest r id := by
  cases hl : c.latest r id with
  | none =>
    cases hs : c.latest r (id + 1) with
    | none => rfl
    | some m =>
      obtain ⟨hm, hmr, -⟩ := latest_eq_some hs
      by_cases he : m = id
      · subst he; exact absurd hmr h
      · exact absurd hmr (latest_eq_none hl m (by omega))
  | some k =>
    obtain ⟨hk, hkr, hmax⟩ := latest_eq_some hl
    refine latest_of (by omega) hkr fun m hkm hm => ?_
    by_cases he : m = id
    · subst he; exact h
    · exact hmax m hkm (by omega)

end Value

namespace Core

variable {c c' : Core} {r : Reg} {id : Nat}

theorem produced_withNew {n : Node} {links : List Nat} {ops : List Word} {ptr : Word} {bb : Label} (k : Nat) :
    produced (c.withNew n links ops ptr bb).log k = produced c.log k := by
  have hnone : produced (links.map fun p => Event.register p c.next) k = none :=
    List.findSome?_eq_none_iff.mpr (by simp)
  rw [withNew_log, produced_append, hnone, Option.or_none]

theorem valueBefore_withNew {n : Node} {links : List Nat} {ops : List Word} {ptr : Word} {bb : Label}
    (hid : id ≤ c.next) : (c.withNew n links ops ptr bb).valueBefore r id = c.valueBefore r id := by
  have hl : (c.withNew n links ops ptr bb).latest r id = c.latest r id :=
    latest_congr fun k hk => withNew_node (by omega)
  simp only [valueBefore, hl, produced_withNew, withNew_init]

theorem Quiet.produced (h : c.Quiet c') (k : Nat) : produced c'.log k = produced c.log k := by
  obtain ⟨es, hlog, hes⟩ := h.log
  rw [hlog, produced_append, produced_neutral hes, Option.or_none]

theorem Quiet.valueBefore (h : c.Quiet c') : c'.valueBefore r id = c.valueBefore r id := by
  have hl : c'.latest r id = c.latest r id := latest_congr fun k _ => h.node k
  simp only [Core.valueBefore, hl, h.produced, h.init]

theorem Retired.produced {q : Nat} {v : Word} (h : c.Retired q v c') (hA : c.Accounts) (k : Nat) :
    produced c'.log k = if q = k then (c.setFinal q v).outcome q else produced c.log k := by
  have hs : Engine.produced ((c.heap q).children.map fun k => Event.signal q k) k = none :=
    List.findSome?_eq_none_iff.mpr (by simp)
  rw [h.log, List.append_cons, produced_append, hs, Option.or_none, produced_append]
  by_cases hqk : q = k
  · subst hqk
    rw [produced_of_not_committed (h.not_committed hA), Option.none_or, if_pos rfl]
    simp [Engine.produced]
  · simp [Engine.produced, hqk]

/-- A commit changes the value before `id` only if it is the commit of the latest instance. -/
theorem Retired.valueBefore {q : Nat} {v : Word} (h : c.Retired q v c') (hA : c.Accounts) :
    c'.valueBefore r id =
      if c.latest r id = some q then some (memcpy (c.node q).returnSize (c.regs r) v) else c.valueBefore r id := by
  have hl : c'.latest r id = c.latest r id := latest_congr fun k _ => h.node k
  simp only [Core.valueBefore, hl]
  cases hk : c.latest r id with
  | none => simp [h.init]
  | some k =>
    simp only [h.produced hA, Option.some.injEq]
    by_cases hqk : k = q
    · subst hqk
      rw [if_pos rfl, if_pos rfl, outcome_setFinal, (latest_eq_some hk).2.1]
      rfl
    · rw [if_neg (Ne.symm hqk), if_neg hqk]

theorem Retired.valueBefore_some {q : Nat} {v w : Word} (h : c.Retired q v c') (hA : c.Accounts)
    (hw : c.valueBefore r id = some w) : c'.valueBefore r id = some w := by
  have hne : c.latest r id ≠ some q := by
    intro hq
    simp only [Core.valueBefore, hq, produced_of_not_committed (h.not_committed hA)] at hw
    cases hw
  rw [h.valueBefore hA, if_neg hne, hw]

/-- **The register file**: when the instances returning to `r` that have committed are exactly those before `id`, the
register holds the value before `id`. -/
def RegFile (c : Core) : Prop :=
  ∀ r id, id ≤ c.next → (∀ k < id, (c.node k).returnRegister = some r → committed c.log k = true) →
    (∀ k, id ≤ k → k < c.next → (c.node k).returnRegister = some r → committed c.log k = false) →
      c.valueBefore r id = some (c.regs r)

/-- A registered parent that returns to `r` is the latest instance before the child that does. -/
def LatestParents (c : Core) : Prop :=
  ∀ p k r, .register p k ∈ c.log → (c.node p).returnRegister = some r → c.latest r k = some p

end Core

section Flow

variable {P : Program} {c : Core}

theorem regFile_of_reachable (hw : P.OneWriter) (hz : P.MemoryLatencyZero) (h : core.ReachableWhen (ofProgram P) c) :
    c.RegFile := by
  refine System.invariantWhen (I := Core.RegFile) ?_ ?_ h
  · rintro c ⟨init, rfl⟩ r id hid _ _
    obtain rfl : id = 0 := by simpa [Core.start] using hid
    rfl
  · intro c a c' hreach hI hC hs r id hid hbefore hafter
    have hA := accounts_of_reachable hreach
    cases kind_of_reachable hreach hs with
    | @schedule prev n h =>
      subst h
      rw [Core.withNew_next] at hid hafter
      simp only [Core.committed_withNew] at hbefore hafter
      have hold : ∀ m ≤ c.next, (∀ k < m, k < id) → (∀ k, m ≤ k → k < c.next → id ≤ k) →
          c.valueBefore r m = some (c.regs r) := by
        intro m hm h₁ h₂
        refine hI r m hm (fun k hk hr => ?_) fun k hk hkn hr => ?_
        · exact hbefore k (h₁ k hk) (by rw [Core.withNew_node (by omega)]; exact hr)
        · exact hafter k (h₂ k hk hkn) (by omega) (by rw [Core.withNew_node (by omega)]; exact hr)
      by_cases hidn : id ≤ c.next
      · rw [Core.valueBefore_withNew hidn]
        exact hold id hidn (fun k hk => hk) fun k hk _ => hk
      · -- the new instance has not committed, so it does not return to `r`
        obtain rfl : id = c.next + 1 := by omega
        have hne : ((c.withNew n (c.parentsOf prev n) (c.capturedOps prev n) (c.capturedPtr n)
            (if n.isPhi then prev else "")).node c.next).returnRegister ≠ some r := by
          intro hr
          have := (hA.committed_gone _ (hbefore c.next (by omega) hr)).2
          omega
        rw [Core.valueBefore, latest_succ hne, ← Core.valueBefore, Core.valueBefore_withNew (Nat.le_refl _)]
        exact hold c.next (Nat.le_refl _) (fun k hk => by omega) fun k hk hkn => by omega
    | quiet h =>
      rw [h.valueBefore, h.regs]
      simp only [h.next, h.node, h.committed] at hid hbefore hafter
      exact hI r id hid hbefore hafter
    | @retire _ q v hv h =>
      rw [h.next] at hid hafter
      simp only [h.node, h.committed, Bool.or_eq_true, decide_eq_true_eq, Bool.or_eq_false_iff, decide_eq_false_iff_not]
        at hbefore hafter
      rw [h.valueBefore hA, h.regs]
      by_cases hqr : (c.node q).returnRegister = some r
      · -- the instance that commits is the latest before `id`: a younger one that has committed was launched after it
        have hq : q < c.next := (lists_of_reachable hreach).lt_next q h.live
        have hqc := h.not_committed hA
        have hqid : q < id := by
          by_contra hle
          exact (hafter q (by omega) hq hqr).2 rfl
        have hlast : c.latest r id = some q := by
          refine latest_of hqid hqr fun m hqm hmid hmr => ?_
          have hmc := (hbefore m hmid hmr).resolve_right (by omega)
          have hres : m ∉ c.reservation := fun hm => (hA.committed_gone m hmc).1 (Core.mem_live.mpr (.inl hm))
          have := (serial_of_reachable hw hz hreach).ordered r q m hqm (by omega) (by simpa using hqr)
            (by simpa using hmr) hres
          rw [hqc] at this
          cases this
        rw [if_pos hlast, if_pos hqr]
      · have hlast : c.latest r id ≠ some q := fun hl => hqr (latest_eq_some hl).2.1
        rw [if_neg hlast, if_neg hqr]
        refine hI r id hid (fun k hk hr => ?_) fun k hk hkn hr => (hafter k hk hkn hr).1
        exact (hbefore k hk hr).resolve_right fun he => hqr (he ▸ hr)

/-- The registrations of a new instance are with writers that the search finds, and with stores. -/
theorem parentsOf_cases (hw : P.OneWriter) (h : core.ReachableWhen (ofProgram P) c) {prev : Label} {n : Node}
    (hn : n ∈ P.nodes) {p : Nat} (hp : p ∈ c.parentsOf prev n) :
      (∃ r, c.writerOf r = some p) ∨ (c.node p).isStore = true := by
  simp only [Core.parentsOf, List.mem_append, Option.mem_toList] at hp
  rcases hp with ((hp | hp) | hp) | hp
  · cases hr : n.returnRegister with
    | none => simp [Core.lineParent, hr] at hp
    | some r => exact .inl ⟨r, by rw [← lineParent_eq_writerOf hw h hn hr]; exact hp⟩
  · exact .inr ((lists_of_reachable h).rawParent hp)
  · obtain ⟨r, -, hp⟩ := Option.bind_eq_some_iff.mp hp
    exact .inl ⟨r, hp⟩
  · obtain ⟨d, -, hp⟩ := List.mem_filterMap.mp hp
    obtain ⟨r, -, hp⟩ := Option.bind_eq_some_iff.mp hp
    exact .inl ⟨r, hp⟩

/-- **A registered parent is the latest instance of its writer.** -/
theorem latestParents_of_reachable (hw : P.OneWriter) (hz : P.MemoryLatencyZero)
    (h : core.ReachableWhen (ofProgram P) c) : c.LatestParents := by
  refine System.invariantWhen (I := Core.LatestParents) ?_ ?_ h
  · rintro c ⟨init, rfl⟩ p k r hp
    simp [Core.start] at hp
  · intro c a c' hreach hI hC hs p k r hp hr
    have hA := accounts_of_reachable hreach
    cases kind_of_reachable hreach hs with
    | @schedule prev n h =>
      subst h
      rw [Core.withNew_log, List.mem_append, List.mem_map] at hp
      rcases hp with hp | ⟨q, hq, he⟩
      · obtain ⟨hpk, hk⟩ := hA.register_lt p k hp
        rw [Core.withNew_node (by omega)] at hr
        rw [latest_congr fun m hm => Core.withNew_node (by omega)]
        exact hI p k r hp hr
      · cases he
        have hlt := (lists_of_reachable hreach).lt_next p (Core.parentsOf_live hq)
        rw [Core.withNew_node (by omega)] at hr
        rw [latest_congr fun m hm => Core.withNew_node (by omega)]
        rcases parentsOf_cases hw hreach hC hq with ⟨r', hr'⟩ | hst
        · have hspec := writerOf_spec hz hreach (serial_of_reachable hw hz hreach) r'
          rw [hr'] at hspec
          obtain ⟨hp, hpr, -, hlast⟩ := hspec
          obtain rfl : r' = r := Option.some.inj (hpr.symm.trans hr)
          exact latest_of hp hr hlast
        · rw [Node.returnRegister_of_isStore hst] at hr
          cases hr
    | quiet h =>
      rw [h.node] at hr
      rw [latest_congr fun m _ => h.node m]
      exact hI p k r (h.register.mp hp) hr
    | retire hv h =>
      rw [h.node] at hr
      rw [latest_congr fun m _ => h.node m]
      exact hI p k r (h.register.mp hp) hr

end Flow

/-! ## Captured operands -/

namespace Core

section Capture

variable {c : Core} {n : Node}

theorem captureFrom_length : ∀ (ds : List (Option Reg)) (ops : List Word) (j : Nat),
    (c.captureFrom n ops ds j).length = ops.length
  | [], ops, j => rfl
  | none :: ds, ops, j => captureFrom_length ds ops (j + 1)
  | some r :: ds, ops, j => by
    simp only [captureFrom]
    split
    · rw [captureFrom_length ds]; simp
    · exact captureFrom_length ds ops (j + 1)

theorem captureFrom_lt : ∀ (ds : List (Option Reg)) (ops : List Word) (j i : Nat), i < j →
    (c.captureFrom n ops ds j)[i]? = ops[i]?
  | [], ops, j, i, _ => rfl
  | none :: ds, ops, j, i, h => captureFrom_lt ds ops (j + 1) i (by omega)
  | some r :: ds, ops, j, i, h => by
    simp only [captureFrom]
    split
    · rw [captureFrom_lt ds _ (j + 1) i (by omega), List.getElem?_set_ne (by omega)]
    · exact captureFrom_lt ds ops (j + 1) i (by omega)

/-- An operand without a writer in flight is read from the register file. -/
theorem captureFrom_getElem? {r : Reg} (hr : c.writerOf r = none) : ∀ (ds : List (Option Reg)) (ops : List Word)
    (j i : Nat), ds[i]? = some (some r) → n.dependencies[j + i]? = some (some r) → j + i < ops.length →
      (c.captureFrom n ops ds j)[j + i]? = some (c.regs r)
  | [], ops, j, i, h, _, _ => by simp at h
  | d :: ds, ops, j, 0, h, hd, hlt => by
    obtain rfl : d = some r := by simpa using h
    simp only [Nat.add_zero] at hd hlt ⊢
    simp only [captureFrom, hr, hd]
    rw [captureFrom_lt ds _ (j + 1) j (by omega), List.getElem?_set_self hlt]
  | none :: ds, ops, j, i + 1, h, hd, hlt => by
    have hj : j + (i + 1) = j + 1 + i := by omega
    rw [hj] at hd hlt ⊢
    exact captureFrom_getElem? hr ds ops (j + 1) i (by simpa using h) hd hlt
  | some r' :: ds, ops, j, i + 1, h, hd, hlt => by
    have hj : j + (i + 1) = j + 1 + i := by omega
    rw [hj] at hd hlt ⊢
    simp only [captureFrom]
    split
    · exact captureFrom_getElem? hr ds _ (j + 1) i (by simpa using h) hd (by simpa using hlt)
    · exact captureFrom_getElem? hr ds ops (j + 1) i (by simpa using h) hd hlt

end Capture

end Core

section NodeCapture

variable {n : Node} {ret : Option Reg} {regs : Reg → Word} {ops : List Word} {j : Nat} {r : Reg}

section

variable (h : ops.length = n.dependencies.length)
include h

theorem Node.capture_length : (n.capture ret regs ops).length = n.dependencies.length := by
  unfold Node.capture
  split
  · split
    · exact h
    · simp [h]
  · exact h

theorem Node.capture_self (hr : n.returnRegister ≠ some r) (hj : n.dependencies[j]? = some (some r)) :
    (n.capture (some r) regs ops)[j]? = some (regs r) := by
  obtain ⟨hlt, -⟩ := List.getElem?_eq_some_iff.mp hj
  have ho : ops[j]? = some ops[j] := List.getElem?_eq_getElem (by omega)
  simp only [Node.capture, hr, if_false, List.getElem?_zipWith, hj, ho, if_true]

theorem Node.capture_other (hr : ret ≠ some r) (hj : n.dependencies[j]? = some (some r)) :
    (n.capture ret regs ops)[j]? = ops[j]? := by
  cases ret with
  | none => rfl
  | some r' =>
    obtain ⟨hlt, -⟩ := List.getElem?_eq_some_iff.mp hj
    have ho : ops[j]? = some ops[j] := List.getElem?_eq_getElem (by omega)
    have hne : r ≠ r' := fun he => hr (by rw [he])
    simp only [Node.capture]
    split
    · rfl
    · simp only [List.getElem?_zipWith, hj, ho, Option.some.injEq, hne, if_false]

end

end NodeCapture

/-- Every operand of an instance other than a phi, held in a register the instance does not write itself: as long as
the latest earlier instance of the writer has not committed it is a registered parent, and from then on the operand is
its value. -/
def Core.Captured (c : Core) : Prop :=
  ∀ (id j : Nat) (r : Reg), id < c.next → (c.node id).isPhi = false → (c.node id).returnRegister ≠ some r →
    (c.node id).dependencies[j]? = some (some r) →
      (∀ k, c.latest r id = some k → committed c.log k = false → .register k id ∈ c.log) ∧
      ((∀ k, c.latest r id = some k → committed c.log k = true) → (c.heap id).ops[j]? = c.valueBefore r id)

theorem Node.runtimeDependencies_eq {n : Node} (h : n.isPhi = false) (prev : Label) :
    n.runtimeDependencies prev = n.dependencies := by
  unfold Node.isPhi at h
  unfold Node.runtimeDependencies
  split at h
  · cases h
  · rfl

section Captured

variable {P : Program} {c : Core}

theorem ops_length_of_reachable {C : Core → Act → Prop} (h : core.ReachableWhen C c) :
    ∀ id < c.next, (c.heap id).ops.length = (c.node id).dependencies.length := by
  refine System.invariantWhen
    (I := fun c => ∀ id < c.next, (c.heap id).ops.length = (c.node id).dependencies.length) ?_ ?_ h
  · rintro c ⟨init, rfl⟩ id hid
    simp [Core.start] at hid
  · intro c a c' hreach hI _ hs id hid
    cases kind_of_reachable hreach hs with
    | @schedule prev n h =>
      subst h
      by_cases hidn : id = c.next
      · subst hidn
        simp [Core.withNew, Core.node, Inst.clone, Core.capturedOps, Core.captureFrom_length]
      · rw [Core.withNew_node hidn]
        simpa [Core.withNew, hidn] using hI id (by rw [Core.withNew_next] at hid; omega)
    | quiet h =>
      rw [h.ops, h.node]
      exact hI id (h.next ▸ hid)
    | retire hv h =>
      rw [h.ops, h.node]
      have hlen := hI id (h.next ▸ hid)
      split
      · exact hlen
      · exact Node.capture_length hlen

theorem captured_new (hw : P.OneWriter) (hz : P.MemoryLatencyZero) (h : core.ReachableWhen (ofProgram P) c)
    (prev : Label) {n : Node} (hphi : n.isPhi = false) {j : Nat} {r : Reg} (hj : n.dependencies[j]? = some (some r)) :
    (∀ k, c.latest r c.next = some k → committed c.log k = false → k ∈ c.parentsOf prev n) ∧
      ((∀ k, c.latest r c.next = some k → committed c.log k = true) →
      (c.capturedOps prev n)[j]? = c.valueBefore r c.next) := by
  have hspec := writerOf_spec hz h (serial_of_reachable hw hz h) r
  cases hwr : c.writerOf r with
  | none =>
    rw [hwr] at hspec
    constructor
    · intro k hk hc
      obtain ⟨hlt, hr, -⟩ := latest_eq_some hk
      rw [hspec k hlt hr] at hc
      cases hc
    · intro _
      have hreg := regFile_of_reachable hw hz h r c.next (Nat.le_refl _) (fun k hk => hspec k hk)
        fun k hk hkn => by omega
      have hcap := Core.captureFrom_getElem? (n := n) hwr (n.runtimeDependencies prev)
        (n.dependencies.map fun _ => 0) 0 j (by rw [Node.runtimeDependencies_eq hphi]; exact hj) (by simpa using hj)
        (by simpa using (List.getElem?_eq_some_iff.mp hj).1)
      rw [hreg]
      simpa [Core.capturedOps] using hcap
  | some m =>
    rw [hwr] at hspec
    obtain ⟨hm, hmr, hmc, hlast⟩ := hspec
    have hl := latest_of hm hmr hlast
    constructor
    · intro k hk _
      obtain rfl : m = k := Option.some.inj (hl.symm.trans hk)
      have hd : m ∈ c.depParents prev n := by
        rw [Core.depParents, Node.runtimeDependencies_eq hphi, List.mem_filterMap]
        exact ⟨some r, List.mem_of_getElem? hj, hwr⟩
      simp [Core.parentsOf, hd]
    · intro hall
      rw [hall m hl] at hmc
      cases hmc

/-- **Every operand is captured from the latest earlier instance of its writer.** -/
theorem captured_of_reachable (hw : P.OneWriter) (hz : P.MemoryLatencyZero)
    (h : core.ReachableWhen (ofProgram P) c) : c.Captured := by
  refine System.invariantWhen (I := Core.Captured) ?_ ?_ h
  · rintro c ⟨init, rfl⟩ id j r hid
    simp [Core.start] at hid
  · intro c a c' hreach hI hC hs id j r hid hphi hret hj
    have hA := accounts_of_reachable hreach
    have hlen := ops_length_of_reachable hreach
    cases kind_of_reachable hreach hs with
    | @schedule prev n h =>
      subst h
      rw [Core.withNew_next] at hid
      rw [latest_congr fun m hm => Core.withNew_node (by omega), Core.valueBefore_withNew (by omega)]
      simp only [Core.committed_withNew]
      rw [Core.withNew_log]
      simp only [List.mem_append]
      by_cases hidn : id = c.next
      · subst hidn
        have hn : (c.withNew n (c.parentsOf prev n) (c.capturedOps prev n) (c.capturedPtr n)
            (if n.isPhi then prev else "")).node c.next = n := by simp [Core.withNew, Core.node, Inst.clone]
        rw [hn] at hphi hj
        obtain ⟨h₁, h₂⟩ := captured_new hw hz hreach prev hphi hj
        refine ⟨fun k hk hc => .inr (List.mem_map_of_mem (h₁ k hk hc)), fun hall => ?_⟩
        simpa [Core.withNew] using h₂ hall
      · rw [Core.withNew_node hidn] at hphi hret hj
        obtain ⟨h₁, h₂⟩ := hI id j r (by omega) hphi hret hj
        refine ⟨fun k hk hc => .inl (h₁ k hk hc), fun hall => ?_⟩
        simpa [Core.withNew, hidn] using h₂ hall
    | quiet h =>
      rw [h.next] at hid
      rw [h.node] at hphi hret hj
      rw [latest_congr fun m _ => h.node m, h.valueBefore, h.ops]
      simp only [h.committed, h.register]
      exact hI id j r hid hphi hret hj
    | @retire _ q v hv h =>
      rw [h.next] at hid
      rw [h.node] at hphi hret hj
      obtain ⟨h₁, h₂⟩ := hI id j r hid hphi hret hj
      rw [latest_congr fun m _ => h.node m]
      simp only [h.committed, h.register, Bool.or_eq_false_iff, Bool.or_eq_true, decide_eq_true_eq]
      refine ⟨fun k hk hc => h₁ k hk hc.1, fun hall => ?_⟩
      have hqc := h.not_committed hA
      rw [h.ops, h.valueBefore hA]
      by_cases hlast : c.latest r id = some q
      · -- the value arrives with the commit of the registered parent
        have hreg := h₁ q hlast hqc
        have hcount : (c.heap q).children.count id ≠ 0 := by
          rw [hA.children q h.live id]
          exact Nat.ne_of_gt (List.count_pos_iff.mpr hreg)
        have hqr := (latest_eq_some hlast).2.1
        rw [if_neg hcount, if_pos hlast, hqr, Node.capture_self (hlen id hid) hret hj, h.regs, if_pos hqr]
      · rw [if_neg hlast, ← h₂ fun k hk => (hall k hk).resolve_right fun he => hlast (he ▸ hk)]
        split
        · rfl
        · -- a parent with another value writes another register
          rename_i hcount
          have hreg : .register q id ∈ c.log := by
            rw [hA.children q h.live id] at hcount
            exact List.count_pos_iff.mp (Nat.pos_of_ne_zero hcount)
          refine Node.capture_other (hlen id hid) (fun hqr => hlast ?_) hj
          exact latestParents_of_reachable hw hz hreach q id r hreg hqr

end Captured

section Reading

variable {P : Program} {c c' : Core} {a : Act} {r : Reg} {id : Nat}

theorem valueBefore_kept (h : core.ReachableWhen (ofProgram P) c) (hk : Core.Kind c c' a) (hid : id ≤ c.next) {w : Word}
    (hw : c.valueBefore r id = some w) : c'.valueBefore r id = some w := by
  cases hk with
  | schedule h => rw [h, Core.valueBefore_withNew hid, hw]
  | quiet h => rw [h.valueBefore, hw]
  | retire hv h' => exact h'.valueBefore_some (accounts_of_reachable h) hw

section

variable (hw : P.OneWriter) (hz : P.MemoryLatencyZero) (h : core.ReachableWhen (ofProgram P) c)
include hw hz h

/-- When the latest of them has committed, all earlier instances returning to `r` have. -/
theorem committed_of_latest (hid : id ≤ c.next) (hc : ∀ m, c.latest r id = some m → committed c.log m = true) {k : Nat}
    (hk : k < id) (hkr : (c.node k).returnRegister = some r) : committed c.log k = true := by
  cases hm : c.latest r id with
  | none => exact absurd hkr (latest_eq_none hm k hk)
  | some m =>
    obtain ⟨hmid, hmr, hmax⟩ := latest_eq_some hm
    have hmc := hc m hm
    rcases Nat.lt_trichotomy k m with hlt | rfl | hlt
    · have hres : m ∉ c.reservation := fun hm =>
        ((accounts_of_reachable h).committed_gone m hmc).1 (Core.mem_live.mpr (.inl hm))
      exact (serial_of_reachable hw hz h).ordered r k m hlt (by omega) (by simpa using hkr) (by simpa using hmr) hres
    · exact hmc
    · exact absurd hkr (hmax k hlt hk)

/-- The latest writers of the operands of an instance that may be launched have committed. -/
theorem latest_committed_of_ready (hr : c.ready id = true) (hphi : (c.node id).isPhi = false)
    (hret : (c.node id).returnRegister ≠ some r) {j : Nat} (hj : (c.node id).dependencies[j]? = some (some r)) {k : Nat}
    (hk : c.latest r id = some k) : committed c.log k = true := by
  have hL := lists_of_reachable h
  have hlt := hL.lt_next id (Core.mem_live.mpr (.inl (Core.mem_of_ready hr)))
  by_contra hc
  rw [Bool.not_eq_true] at hc
  have hreg := (captured_of_reachable hw hz h id j r hlt hphi hret hj).1 k hk hc
  rw [((accounts_of_reachable h).allowed_launch hL hr).2 k hreg] at hc
  cases hc

/-- The operand that an instance holds when it may be launched. -/
theorem ops_of_ready (hr : c.ready id = true) (hphi : (c.node id).isPhi = false)
    (hret : (c.node id).returnRegister ≠ some r)
    {j : Nat} (hj : (c.node id).dependencies[j]? = some (some r)) :
    ∃ v, (c.heap id).ops[j]? = some v ∧ c.valueBefore r id = some v := by
  have hlt := (lists_of_reachable h).lt_next id (Core.mem_live.mpr (.inl (Core.mem_of_ready hr)))
  have hops := (captured_of_reachable hw hz h id j r hlt hphi hret hj).2 fun k hk =>
    latest_committed_of_ready hw hz h hr hphi hret hj hk
  have hjlt := (List.getElem?_eq_some_iff.mp hj).1
  rw [← ops_length_of_reachable h id hlt] at hjlt
  exact ⟨_, List.getElem?_eq_getElem hjlt, by rw [← hops]; exact List.getElem?_eq_getElem hjlt⟩

end

end Reading

/-- **Operand capture.** In every reachable state of the engine, an instance in the reservation table without active
parents has captured, for each operand in a register, the value of the latest earlier instance of the writer of that
register, or the initial value. -/
theorem operand_captured {P : Program} {cfg : Config} {s : St} (h : (engine P cfg).Reachable s) (hw : P.OneWriter)
    (hself : P.NoSelfRead) (hz : P.MemoryLatencyZero) {id : Nat} (hid : id ∈ s.core.reservation)
    (ha : (s.core.heap id).activeParents = 0) (hphi : (s.core.node id).isPhi = false) {j : Nat} {r : Reg}
    (hj : (s.core.node id).dependencies[j]? = some (some r)) :
    ∃ v, (s.core.heap id).ops[j]? = some v ∧ s.core.valueBefore r id = some v := by
  have hcore := core_of_reachable h
  have hlt := (lists_of_reachable hcore).lt_next id (Core.mem_live.mpr (.inl hid))
  have hready : s.core.ready id = true := by simp [Core.ready, hid, ha]
  have hret : (s.core.node id).returnRegister ≠ some r := fun hr =>
    hself _ (node_mem_of_reachable hcore id hlt) hphi r hr (List.mem_of_getElem? hj)
  exact ops_of_ready hw hz hcore hready hphi hret hj

theorem operand_captured_chain : ∃ s, (engine chain .unlimited).Reachable s ∧
    ∃ v, (s.core.heap 1).ops[1]? = some v ∧ s.core.valueBefore 1 1 = some v := by
  -- the first add commits at the head of the second tick
  obtain ⟨s, hs, hid, ha, hphi, hj⟩ := System.reachable_of_replay
    (engine_boot chain .unlimited rfl fun _ => 7) (List.replicate 10 .iter ++ [.tick, .iter])
    (fun s => 1 ∈ s.core.reservation ∧ (s.core.heap 1).activeParents = 0 ∧ (s.core.node 1).isPhi = false ∧
      (s.core.node 1).dependencies[1]? = some (some 1)) (by decide)
  exact ⟨s, hs, operand_captured hs (by decide) (by decide) (by decide) hid ha hphi hj⟩

/-- `%0 = add %0, 1` in a loop of one block. -/
def selfReadBB : BasicBlock where
  name := "loop"
  nodes := [⟨"%0 = add %0, 1", 1, .compute 0 8 [0] .intAdder fun ops => ops.headD 0 + 1⟩,
    ⟨"br label %loop", 0, .br "loop"⟩]

def selfRead : Program := ⟨[selfReadBB], by decide⟩

/-- One static writer for each register is not enough: `fetchDependency` passes over the register that the instance
itself returns to, and the second iteration adds to the operand it was cloned with. -/
theorem operand_not_captured_selfRead : ¬ ∀ (P : Program) (cfg : Config) (s : St), (engine P cfg).Reachable s →
    P.OneWriter → P.MemoryLatencyZero → ∀ id ∈ s.core.reservation, (s.core.heap id).activeParents = 0 →
      (s.core.node id).isPhi = false → ∀ (j : Nat) (r : Reg), (s.core.node id).dependencies[j]? = some (some r) →
        ∃ v, (s.core.heap id).ops[j]? = some v ∧ s.core.valueBefore r id = some v := by
  intro h
  obtain ⟨s, hs, hid, ha, hphi, hj, hne⟩ := System.reachable_of_replay
    (engine_boot selfRead { Config.unlimited with schedulingThreshold := 3 } rfl fun _ => 5)
    (List.replicate 18 .iter ++ [.tick, .iter])
    (fun s => 2 ∈ s.core.reservation ∧ (s.core.heap 2).activeParents = 0 ∧ (s.core.node 2).isPhi = false ∧
      (s.core.node 2).dependencies[0]? = some (some 0) ∧ (s.core.heap 2).ops[0]? ≠ s.core.valueBefore 0 2) (by decide)
  obtain ⟨v, h₁, h₂⟩ := h selfRead _ s hs (by decide) (by decide) 2 hid ha hphi 0 0 hj
  exact hne (h₁.trans h₂.symm)

end Salam.Engine
