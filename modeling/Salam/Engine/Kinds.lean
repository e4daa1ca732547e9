import Salam.Engine.Accounting

/-!
# Three kinds of effects

For the flow of values an effect does one of three things: it schedules a node, it commits an instance (`Retired`), or
it does neither and only moves instances between the lists (`Quiet`).

* `kind_of_reachable`: every step of `core` is of one of these kinds.
* `settled_of_reachable`: an instance of a class that has a queue stays in the lists until it commits.
-/

namespace Salam.Engine

namespace Core

/-! ## Effects that neither schedule nor commit -/

/-- The change from `c` to `c'` is a launch, a cycle on a unit, or an instance leaving without a commit. -/
structure Quiet (c c' : Core) : Prop where
  log : ∃ es, c'.log = c.log ++ es ∧ ∀ e ∈ es, e.neutral = true
  next : c'.next = c.next
  init : c'.init = c.init
  regs : c'.regs = c.regs
  node : ∀ k, c'.node k = c.node k
  ops : ∀ k, (c'.heap k).ops = (c.heap k).ops
  activePtr : ∀ k, (c'.heap k).activePtr = (c.heap k).activePtr
  prevBB : ∀ k, (c'.heap k).prevBB = (c.heap k).prevBB
  reservation : ∀ k ∈ c'.reservation, k ∈ c.reservation
  launched : ∀ k ∈ c.reservation, k ∉ c'.reservation → c.ready k = true ∨ (c.node k).isRet = true
  live : ∀ k ∈ c'.live, k ∈ c.live
  kept : ∀ k ∈ c.live, (c.node k).queued = true → k ∈ c'.live ∨ (c.node k).isLoad = true ∧ 0 < (c.node k).maxCycle

/-- The change from `c` to `c'` is the commit of `id` with the result `v`. -/
structure Retired (c : Core) (id : Nat) (v : Word) (c' : Core) : Prop where
  live : id ∈ c.live
  reservation : id ∉ c.reservation
  log : c'.log = c.log ++ .commit id ((c.setFinal id v).outcome id) :: (c.heap id).children.map fun k => .signal id k
  next : c'.next = c.next
  init : c'.init = c.init
  node : ∀ k, c'.node k = c.node k
  activePtr : ∀ k, (c'.heap k).activePtr = (c.heap k).activePtr
  prevBB : ∀ k, (c'.heap k).prevBB = (c.heap k).prevBB
  mem_reservation : ∀ k, k ∈ c'.reservation ↔ k ∈ c.reservation
  mem_live : ∀ k, k ∈ c'.live ↔ k ∈ c.live ∧ k ≠ id
  regs : ∀ r, c'.regs r = if (c.node id).returnRegister = some r then
    memcpy (c.node id).returnSize (c.regs r) v else c.regs r
  ops : ∀ k, (c'.heap k).ops = if (c.heap id).children.count k = 0 then (c.heap k).ops
    else (c.node k).capture (c.node id).returnRegister c'.regs (c.heap k).ops

theorem outcome_setFinal (c : Core) (id : Nat) (v : Word) : (c.setFinal id v).outcome id =
    (c.node id).returnRegister.map fun r => memcpy (c.node id).returnSize (c.regs r) v := by
  have hn : (c.setFinal id v).node id = c.node id := node_setFinal v id
  simp [outcome, hn, setFinal_heap]

variable {id : Nat}

theorem retired_of_retire {c : Core} (hL : c.Lists) (v : Word) (hid : id ∈ c.live) (hr : id ∉ c.reservation) :
    Retired c id v (((c.setFinal id v).retire id).drop id) := by
  have hL' := (hL.setFinal id v).retire id
  have hn : ∀ k, (c.setFinal id v).node k = c.node k := fun k => node_setFinal v k
  refine ⟨hid, hr, ?_, by simp, by simp, fun k => by simp, fun k => by simp [retire_heap, setFinal_heap],
    fun k => by simp [retire_heap, setFinal_heap], ?_, ?_, ?_, ?_⟩
  · simp [retire_log, setFinal_heap]
  · intro k
    rw [mem_drop_reservation hL', retire_reservation]
    exact ⟨fun h => h.1, fun h => ⟨h, fun he => hr (he ▸ h)⟩⟩
  · intro k
    rw [mem_live_drop hL', retire_live]
    rfl
  · intro r
    rw [drop_regs, retire_regs, regsAfter, outcome_setFinal, hn]
    cases h : (c.node id).returnRegister with
    | none => simp
    | some r' =>
      by_cases hrr : r' = r
      · subst hrr; simp
      · simp [hrr, Function.update_of_ne (Ne.symm hrr)]
  · intro k
    simp only [drop_heap, drop_regs, retire_regs, retire_heap, setFinal_heap, hn]

/-- An effect schedules a node, commits an instance, or does neither. -/
inductive Kind (c c' : Core) : Act → Prop
  | schedule {prev : Label} {n : Node} (h : c' = c.withNew n (c.parentsOf prev n) (c.capturedOps prev n)
      (c.capturedPtr n) (if n.isPhi then prev else "")) : Kind c c' (.schedule prev n)
  | quiet {a : Act} (h : c.Quiet c') : Kind c c' a
  | retire {a : Act} {id : Nat} {v : Word} (hv : (c.node id).isLoad = false → v = (c.heap id).finalResult)
      (h : c.Retired id v c') : Kind c c' a

variable {c c' : Core} {v : Word}

theorem not_reservation (hL : c.Lists) (h : id ∈ c.computeQueue ∨ id ∈ c.readQueue ∨ id ∈ c.writeQueue) :
    id ∉ c.reservation := by
  intro hr
  obtain ⟨h₁, h₂, h₃⟩ := hL.disjoint.1 id hr
  rcases h with h | h | h <;> contradiction

theorem queued_of_dest {d : Label} (h : (c.heap id).dest c.regs = some d) : (c.node id).queued = false := by
  unfold Inst.dest at h
  unfold node Node.queued Node.onUnit Node.isLoad Node.isStore
  split at h <;> simp_all

theorem queued_of_isRet {n : Node} (h : n.isRet = true) : n.queued = false := by
  unfold Node.isRet at h
  unfold Node.queued Node.onUnit Node.isLoad Node.isStore
  split at h <;> simp_all

/-- A launch of a ready instance that goes to a queue. -/
theorem Quiet.park (es : List Event) (hL : c.Lists) (hr : c.ready id = true) (hq : (c.node id).queued = true)
    (hes : ∀ e ∈ es, e.neutral = true) (h : c' = ({ c.setFinal id v with log := c.log ++ es } : Core).park id) :
    c.Quiet c' := by
  subst h
  have hL' : ({ c.setFinal id v with log := c.log ++ es } : Core).Lists :=
    (hL.setFinal id v).congr rfl rfl rfl rfl rfl fun _ => rfl
  have hn : ∀ k, ({ c.setFinal id v with log := c.log ++ es } : Core).node k = c.node k := fun k => node_setFinal v k
  have hid := mem_of_ready hr
  have hlive := live_park_perm (c := { c.setFinal id v with log := c.log ++ es }) hid (by rw [hn]; exact hq)
  refine ⟨⟨es, rfl, hes⟩, rfl, rfl, rfl, hn, ?_, ?_, ?_, ?_, ?_, ?_, ?_⟩
  · exact fun k => by simp [setFinal_heap]
  · exact fun k => by simp [setFinal_heap]
  · exact fun k => by simp [setFinal_heap]
  · exact fun k hk => ((mem_park_reservation hL').mp hk).1
  · intro k hk hk'
    rw [mem_park_reservation hL', not_and, not_not] at hk'
    rw [hk' hk]
    exact .inl hr
  · exact fun k hk => hlive.mem_iff.mp hk
  · exact fun k hk _ => .inl (hlive.mem_iff.mpr hk)

/-- An instance leaves the table for good: a branch or the ret. -/
theorem Quiet.drop (es : List Event) (hL : c.Lists) (hr : c.ready id = true ∨ (c.node id).isRet = true)
    (hq : (c.node id).queued = false) (hes : ∀ e ∈ es, e.neutral = true)
    (h : c' = ({ c with log := c.log ++ es } : Core).drop id) : c.Quiet c' := by
  subst h
  have hL' : ({ c with log := c.log ++ es } : Core).Lists := hL.congr rfl rfl rfl rfl rfl fun _ => rfl
  refine ⟨⟨es, rfl, hes⟩, rfl, rfl, rfl, fun _ => rfl, fun _ => rfl, fun _ => rfl, fun _ => rfl, ?_, ?_, ?_, ?_⟩
  · exact fun k hk => ((mem_drop_reservation hL').mp hk).1
  · intro k hk hk'
    rw [mem_drop_reservation hL', not_and, not_not] at hk'
    rw [hk' hk]
    exact hr
  · exact fun k hk => ((mem_live_drop hL').mp hk).1
  · intro k hk hkq
    refine .inl ((mem_live_drop hL').mpr ⟨hk, fun he => ?_⟩)
    subst he
    rw [hq] at hkq
    cases hkq

/-- An instance in flight changes, or is lost. -/
theorem Quiet.modify {f : Inst → Inst} (hn : (f (c.heap id)).node = (c.heap id).node)
    (ho : (f (c.heap id)).ops = (c.heap id).ops) (hp : (f (c.heap id)).activePtr = (c.heap id).activePtr)
    (hb : (f (c.heap id)).prevBB = (c.heap id).prevBB) : c.Quiet (c.modify id f) := by
  have hh : ∀ k, ((c.modify id f).heap k).ops = (c.heap k).ops ∧
      ((c.modify id f).heap k).activePtr = (c.heap k).activePtr ∧
      ((c.modify id f).heap k).prevBB = (c.heap k).prevBB := by
    intro k
    by_cases hk : k = id
    · subst hk; simpa using ⟨ho, hp, hb⟩
    · simp [modify_heap, hk]
  exact ⟨⟨[], by simp⟩, rfl, rfl, rfl, node_modify hn, fun k => (hh k).1, fun k => (hh k).2.1, fun k => (hh k).2.2,
    fun _ hk => hk,
    fun k hk hk' => absurd hk hk', fun _ hk => hk, fun k hk _ => .inl hk⟩

theorem kind_of_effect (hL : c.Lists) {a : Act} (he : c.Effect a c') : Kind c c' a := by
  cases he with
  | enter bb =>
    exact .quiet ⟨⟨[.scheduleBB bb], rfl, by simp [Event.neutral]⟩, rfl, rfl, rfl, fun _ => rfl, fun _ => rfl,
      fun _ => rfl, fun _ => rfl, fun _ hk => hk, fun k hk hk' => absurd hk hk', fun _ hk => hk, fun k hk _ => .inl hk⟩
  | schedule prev n => exact .schedule rfl
  | @launchUnit id v hr hn hv =>
    refine .quiet (.park [.launch id] hL hr (by simp [Node.queued, hn]) (by simp [Event.neutral]) rfl)
  | @launchMem _ id ha hr hn =>
    have hq : (c.node id).queued = true := by rcases hn with hn | hn <;> simp [Node.queued, hn]
    refine .quiet (.park (v := (c.heap id).finalResult)
      [.launch id, .request id (c.heap id).addr (c.heap id).len] hL hr hq (by simp [Event.neutral]) ?_)
    rw [setFinal_self]
    simp [Core.emit]
  | @branch id d hr hd =>
    refine .quiet (.drop [.launch id, .branch id d] hL (.inl hr) (queued_of_dest hd) (by simp [Event.neutral]) ?_)
    simp [Core.emit]
  | bump hid hc => exact .quiet (.modify rfl rfl rfl rfl)
  | @retire _ id v ha hid hv =>
    exact .retire hv (retired_of_retire hL v (mem_live.mpr (.inr hid)) (not_reservation hL hid))
  | @lose _ id v ha hid hc =>
    have hL' : (c.modify id fun x =>
        { x with finalResult := v, currCycle := x.currCycle + 1, parents := [], children := [] }).Lists := hL.modify rfl
    have hq : c.Quiet (c.modify id fun x =>
        { x with finalResult := v, currCycle := x.currCycle + 1, parents := [], children := [] }) :=
      .modify rfl rfl rfl rfl
    refine .quiet ⟨hq.log, rfl, rfl, rfl, hq.node, hq.ops, hq.activePtr, hq.prevBB, ?_, ?_, ?_, ?_⟩
    · exact fun k hk => ((mem_drop_reservation hL').mp hk).1
    · intro k hk hk'
      rw [mem_drop_reservation hL', not_and, not_not] at hk'
      exact absurd (hk' hk ▸ hk) (not_reservation hL (.inr (.inl hid)))
    · exact fun k hk => ((mem_live_drop hL').mp hk).1
    · intro k hk _
      by_cases hkid : k = id
      · subst hkid
        exact .inr ⟨hL.isLoad k hid, by omega⟩
      · exact .inl ((mem_live_drop hL').mpr ⟨hk, hkid⟩)
  | @finish id hid hn =>
    exact .quiet (.drop [.finish] hL (.inr hn) (queued_of_isRet hn) (by simp [Event.neutral]) rfl)

theorem Kind.node {a : Act} (h : Kind c c' a) {k : Nat} (hk : k < c.next) : c'.node k = c.node k := by
  cases h with
  | schedule h => rw [h, withNew_node (Nat.ne_of_lt hk)]
  | quiet h => exact h.node k
  | retire hv h => exact h.node k

/-- A new instance is not launched in the step that schedules it. -/
theorem Kind.launched_lt {a : Act} (h : Kind c c' a) (hA : c.Accounts) {k : Nat} (hk : k < c'.next)
    (hl : .launch k ∈ c'.log) : k < c.next := by
  cases h with
  | schedule h =>
    subst h
    rw [withNew_log, List.mem_append] at hl
    exact (hA.launch_gone k (hl.resolve_right (by simp))).2
  | quiet h => exact h.next ▸ hk
  | retire hv h => exact h.next ▸ hk

/-! ## Commits and registrations under the three kinds -/

theorem Quiet.committed (h : c.Quiet c') (k : Nat) : committed c'.log k = committed c.log k := by
  obtain ⟨es, hlog, hes⟩ := h.log
  simp [hlog, committed_neutral hes]

theorem Quiet.register (h : c.Quiet c') {p k : Nat} : .register p k ∈ c'.log ↔ .register p k ∈ c.log := by
  obtain ⟨es, hlog, hes⟩ := h.log
  rw [hlog, List.mem_append]
  exact or_iff_left fun hm => by simpa [Event.neutral] using hes _ hm

theorem Retired.committed (h : c.Retired id v c') (k : Nat) :
    committed c'.log k = (committed c.log k || decide (id = k)) := by
  have hs : Engine.committed ((c.heap id).children.map fun k => .signal id k) k = false := committed_eq_false (by simp)
  rw [h.log, List.append_cons, committed_append, hs, committed_append, Bool.or_false]
  simp [Engine.committed, Event.commits]

theorem Retired.not_committed (h : c.Retired id v c') (hA : c.Accounts) : Engine.committed c.log id = false := by
  rw [Bool.eq_false_iff]
  exact fun hc => (hA.committed_gone id hc).1 h.live

theorem Retired.register (h : c.Retired id v c') {p k : Nat} : .register p k ∈ c'.log ↔ .register p k ∈ c.log := by
  rw [h.log, List.mem_append]
  exact or_iff_left (by simp)

theorem committed_withNew {n : Node} {links : List Nat} {ops : List Word} {ptr : Word} {bb : Label} (k : Nat) :
    committed (c.withNew n links ops ptr bb).log k = committed c.log k := by
  rw [withNew_log, committed_append, committed_eq_false (l := links.map _) (by simp), Bool.or_false]

end Core

/-! ## Where an instance is -/

section Settled

variable {C : Core → Act → Prop} {P : Program} {c c' : Core} {a : Act}

theorem kind_of_reachable (h : core.ReachableWhen C c) (hs : core.step c a = some c') : Core.Kind c c' a :=
  Core.kind_of_effect (lists_of_reachable h) (Core.effect_of_step (lists_of_reachable h) hs)

/-- Every instance is a clone of a node of the program. -/
theorem node_mem_of_reachable (h : core.ReachableWhen (ofProgram P) c) : ∀ k < c.next, c.node k ∈ P.nodes := by
  refine System.invariantWhen (I := fun c => ∀ k < c.next, c.node k ∈ P.nodes) ?_ ?_ h
  · rintro c ⟨init, rfl⟩ k hk
    simp [Core.start] at hk
  · intro c a c' hr hI hC hs k hk
    cases kind_of_reachable hr hs with
    | @schedule prev n h =>
      subst h
      by_cases hkn : k = c.next
      · have hn : n ∈ P.nodes := hC
        subst hkn
        simpa [Core.withNew, Core.node, Inst.clone] using hn
      · rw [Core.withNew_node hkn]
        exact hI k (by rw [Core.withNew_next] at hk; omega)
    | quiet h => rw [h.node]; exact hI k (h.next ▸ hk)
    | retire hv h => rw [h.node]; exact hI k (h.next ▸ hk)

/-- With loads of latency 0, an instance that goes to a queue is in a list until it commits. -/
theorem settled_of_reachable (hz : P.MemoryLatencyZero) (h : core.ReachableWhen (ofProgram P) c) :
    ∀ k < c.next, (c.node k).queued = true → k ∈ c.live ∨ committed c.log k = true := by
  refine System.invariantWhen
    (I := fun c => ∀ k < c.next, (c.node k).queued = true → k ∈ c.live ∨ committed c.log k = true) ?_ ?_ h
  · rintro c ⟨init, rfl⟩ k hk
    simp [Core.start] at hk
  · intro c a c' hr hI hC hs k hk hq
    cases kind_of_reachable hr hs with
    | schedule h =>
      subst h
      rw [Core.mem_live_withNew, Core.committed_withNew]
      by_cases hkn : k = c.next
      · exact .inl (.inr hkn)
      · rw [Core.withNew_node hkn] at hq
        rcases hI k (by rw [Core.withNew_next] at hk; omega) hq with h | h
        exacts [.inl (.inl h), .inr h]
    | quiet h =>
      rw [h.next] at hk
      rw [h.node] at hq
      rw [h.committed]
      rcases hI k hk hq with hl | hc
      · rcases h.kept k hl hq with hl | ⟨hl, hpos⟩
        · exact .inl hl
        · have := hz _ (node_mem_of_reachable hr k hk) (.inl hl)
          omega
      · exact .inr hc
    | @retire _ id v hv h =>
      rw [h.node] at hq
      rw [h.mem_live, h.committed, Bool.or_eq_true, decide_eq_true_eq]
      by_cases hkid : id = k
      · exact .inr (.inr hkid)
      · rcases hI k (h.next ▸ hk) hq with hl | hc
        exacts [.inl ⟨hl, Ne.symm hkid⟩, .inr (.inl hc)]

end Settled

end Salam.Engine
