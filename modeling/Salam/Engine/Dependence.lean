import Salam.Engine.Refine
import Salam.Engine.Kinds

/-!
# Dependences of the engine

The accounts of the core, read for the engine, and what they mean for memory accesses.

* `dependence_accounts`: `_ActiveParents` counts the registrations whose parent has not committed, every registration
  is signalled once, at the commit of its parent, and no instance runs twice or before its parents.
-/

namespace Salam.Engine

section Parents

variable {P : Program} {c : Core}

theorem queued_of_writerOf {r : Reg} {p : Nat} (h : c.writerOf r = some p) : (c.node p).queued = true :=
  (Node.queued_of_returnRegister (of_decide_eq_true (Core.youngest_mem h).2)).1

/-- An instance is only linked to instances of the classes that go to a queue and commit. -/
theorem parentsOf_queued (h : core.ReachableWhen (ofProgram P) c) {prev : Label} {n : Node} (hn : n ∈ P.nodes) {p : Nat}
    (hp : p ∈ c.parentsOf prev n) : (c.node p).queued = true := by
  have hL := lists_of_reachable h
  have hmem := node_mem_of_reachable h p (hL.lt_next p (Core.parentsOf_live hp))
  simp only [Core.parentsOf, List.mem_append, Option.mem_toList] at hp
  rcases hp with ((hp | hp) | hp) | hp
  · cases hr : n.returnRegister with
    | none => simp [Core.lineParent, hr] at hp
    | some r =>
      simp only [Core.lineParent, hr, Option.isSome_some, if_true] at hp
      have hline := P.returnRegister_of_line hmem hn (of_decide_eq_true (Core.youngest_mem hp).2)
      exact (Node.queued_of_returnRegister (hline.trans hr)).1
  · have hst := hL.rawParent hp
    simp [Node.queued, hst]
  · obtain ⟨r, -, hp⟩ := Option.bind_eq_some_iff.mp hp
    exact queued_of_writerOf hp
  · obtain ⟨d, -, hp⟩ := List.mem_filterMap.mp hp
    obtain ⟨r, -, hp⟩ := Option.bind_eq_some_iff.mp hp
    exact queued_of_writerOf hp

theorem queued_of_register (h : core.ReachableWhen (ofProgram P) c) :
    ∀ p k, .register p k ∈ c.log → (c.node p).queued = true := by
  refine System.invariantWhen (I := fun c => ∀ p k, .register p k ∈ c.log → (c.node p).queued = true) ?_ ?_ h
  · rintro c ⟨init, rfl⟩ p k hp
    simp [Core.start] at hp
  · intro c a c' hreach hI hC hs p k hp
    have hA := accounts_of_reachable hreach
    cases kind_of_reachable hreach hs with
    | @schedule prev n h =>
      subst h
      rw [Core.withNew_log, List.mem_append, List.mem_map] at hp
      rcases hp with hp | ⟨q, hq, he⟩
      · have := hA.register_lt p k hp
        rw [Core.withNew_node (by omega)]
        exact hI p k hp
      · cases he
        have := (lists_of_reachable hreach).lt_next p (Core.parentsOf_live hq)
        rw [Core.withNew_node (by omega)]
        exact parentsOf_queued hreach hC hq
    | quiet h => rw [h.node]; exact hI p k (h.register.mp hp)
    | retire hv h => rw [h.node]; exact hI p k (h.register.mp hp)

end Parents

section Order

variable {l l₁ l₂ : List Event} {id p : Nat}

section

variable (h : Ordered allowed l)
include h

/-- In an allowed log, the registrations of an instance all come before its launch, with parents that commit before
it. -/
theorem committed_of_launch (l₁ l₂ : List Event) (hl : l = l₁ ++ .launch id :: l₂) (hp : .register p id ∈ l) :
    .register p id ∈ l₁ ∧ committed l₁ p = true := by
  subst hl
  have hm : .register p id ∈ l₁ := by
    rw [List.mem_append, List.mem_cons] at hp
    rcases hp with hp | he | hp
    · exact hp
    · cases he
    · obtain ⟨a, b, rfl⟩ := List.append_of_mem hp
      have ha := (h (l₁ ++ .launch id :: a) (.register p id) b (by simp)).1
      exact absurd (by simp) ha
  exact ⟨hm, (h l₁ (.launch id) l₂ rfl).2 p hm⟩

theorem committed_of_commit {v : Option Word} (hl : l = l₁ ++ .commit id v :: l₂) (hp : .register p id ∈ l) :
    committed l₁ p = true := by
  obtain ⟨a, b, hab⟩ := List.append_of_mem (h l₁ (.commit id v) l₂ hl).2
  have hc := (committed_of_launch h a (b ++ .commit id v :: l₂) (by simp [hl, hab]) hp).2
  rw [hab, committed_append, hc, Bool.true_or]

theorem launch_le_one : l.count (.launch id) ≤ 1 := by
  refine h.countP_le_one fun l a ha hp b hb => ?_
  rw [beq_iff_eq] at hp
  subst hp
  rw [beq_eq_false_iff_ne]
  rintro rfl
  exact ha.1 hb

theorem commit_le_one : l.countP (Event.commits id) ≤ 1 := by
  refine h.countP_le_one fun l a ha hp b hb => ?_
  cases a with
  | commit k v =>
    obtain rfl : k = id := by simpa [Event.commits] using hp
    rw [Bool.eq_false_iff]
    intro hc
    have := ha.1
    rw [committed, List.any_eq_false] at this
    exact this b hb hc
  | _ => simp [Event.commits] at hp

end

end Order

/-- **Dependence accounting.** In every reachable state of the engine, for every instance that was scheduled:
`_ActiveParents` is the number of registrations whose parent has not committed, plus the one a ret is made with; every
registration is signalled at the commit of its parent, once, and as long as loads and stores have latency 0 the parent
is on its way to that commit; the instance is launched and commits at most once, and not before its parents. -/
theorem dependence_accounts {P : Program} {cfg : Config} {s : St} (h : (engine P cfg).Reachable s) {id : Nat}
    (hid : id < s.core.next) :
    ((s.core.node id).isRet = false → (s.core.heap id).activeParents = pending s.core.log id) ∧
    0 ≤ (s.core.heap id).activeParents ∧
    (∀ p, s.core.log.count (.signal p id) = if committed s.core.log p then s.core.log.count (.register p id) else 0) ∧
    (P.MemoryLatencyZero → ∀ p, .register p id ∈ s.core.log → p ∈ s.core.live ∨ committed s.core.log p = true) ∧
    s.core.log.count (.launch id) ≤ 1 ∧ s.core.log.countP (Event.commits id) ≤ 1 ∧
    ∀ l₁ v l₂, s.core.log = l₁ ++ .commit id v :: l₂ → ∀ p, .register p id ∈ s.core.log → committed l₁ p = true := by
  have hcore := core_of_reachable h
  have hA := accounts_of_reachable hcore
  have hact := hA.active id hid
  refine ⟨fun hn => ?_, ?_, fun p => hA.signalled p id, fun hz p hp => ?_, launch_le_one hA.ordered,
    commit_le_one hA.ordered, fun l₁ v l₂ hl p hp => committed_of_commit hA.ordered hl hp⟩
  · simpa [Node.baseParents, hn] using hact
  · rw [hact]
    unfold Node.baseParents
    split <;> omega
  · have hlt := hA.register_lt p id hp
    exact settled_of_reachable hz hcore p (by omega) (queued_of_register hcore p id hp)

/-- `%1 = add %0, %0` and `%2 = add %1, %1`. -/
def chainBB : BasicBlock where
  name := "entry"
  nodes := [⟨"%1 = add %0, %0", 1, .compute 1 8 [0, 0] .intAdder List.sum⟩,
    ⟨"%2 = add %1, %1", 1, .compute 2 8 [1, 1] .intAdder List.sum⟩, ⟨"ret void", 1, .ret⟩]

def chain : Program := ⟨[chainBB], by decide⟩

theorem dependence_accounts_chain : ∃ s, (engine chain .unlimited).Reachable s ∧
    (s.core.heap 1).activeParents = pending s.core.log 1 ∧ pending s.core.log 1 = 2 := by
  obtain ⟨s, hs, hid, hn, hp⟩ := System.reachable_of_replay
    (engine_boot chain .unlimited rfl fun _ => 7) (List.replicate 6 .iter)
    (fun s => 1 < s.core.next ∧ (s.core.node 1).isRet = false ∧ pending s.core.log 1 = 2) (by decide)
  exact ⟨s, hs, (dependence_accounts hs hid).1 hn, hp⟩

end Salam.Engine
