import Mathlib.Data.List.Nodup
import Salam.Engine.Effects

/-!
# The four lists

An instance is in at most one of `reservation`, `computeQueue`, `readQueue` and `writeQueue`, once, and the
reservation table is in program order (`Lists`). With this every act is one of eight effects on the lists, in which
the queues are no longer told apart (`Effect`, `effect_of_step`), and the invariants of the later modules are proved
effect by effect.

* `lists_of_reachable`: `Lists` holds in every state that `core` reaches.
-/

namespace Salam.Engine

namespace Core

/-- What the lists are like in every state. -/
structure Lists (c : Core) : Prop where
  nodup : c.live.Nodup
  lt_next : ∀ id ∈ c.live, id < c.next
  sorted : c.reservation.Pairwise (· < ·)
  onUnit : ∀ id ∈ c.computeQueue, (c.node id).onUnit = true
  isLoad : ∀ id ∈ c.readQueue, (c.node id).isLoad = true
  isStore : ∀ id ∈ c.writeQueue, (c.node id).isStore = true

/-- The instance leaves the list it is in. -/
@[simps -fullyApplied heap next init regs log]
def drop (c : Core) (id : Nat) : Core :=
  { c with
    reservation := c.reservation.erase id
    computeQueue := c.computeQueue.erase id
    readQueue := c.readQueue.erase id
    writeQueue := c.writeQueue.erase id }

/-- The instance goes from the reservation table to the queue of its class. -/
@[simps -fullyApplied heap next init regs log]
def park (c : Core) (id : Nat) : Core :=
  { c with
    reservation := c.reservation.erase id
    computeQueue := if (c.node id).onUnit then c.computeQueue ++ [id] else c.computeQueue
    readQueue := if (c.node id).isLoad then c.readQueue ++ [id] else c.readQueue
    writeQueue := if (c.node id).isStore then c.writeQueue ++ [id] else c.writeQueue }

/-- `_FinalResult` is set. -/
@[simps! -fullyApplied next reservation computeQueue readQueue writeQueue init regs log]
def setFinal (c : Core) (id : Nat) (v : Word) : Core := c.modify id fun x => { x with finalResult := v }

/-- What an act does. In `lose` a load of positive latency leaves the read queue without a commit. -/
inductive Effect (c : Core) : Act → Core → Prop
  | enter (bb : Label) : Effect c (.enterBB bb) (c.emit (.scheduleBB bb))
  | schedule (prev : Label) (n : Node) : Effect c (.schedule prev n) (c.withNew n (c.parentsOf prev n)
      (c.capturedOps prev n) (c.capturedPtr n) (if n.isPhi then prev else ""))
  | launchUnit {id : Nat} {v : Word} (hr : c.ready id = true) (hn : (c.node id).onUnit = true)
      (hv : (c.heap id).result c.regs = .ok v) : Effect c (.launch id)
        (((c.setFinal id (memcpy (c.node id).returnSize (c.heap id).finalResult v)).emit (.launch id)).park id)
  | launchMem {a : Act} {id : Nat} (ha : ∀ k, a ≠ .launch k) (hr : c.ready id = true)
      (hn : (c.node id).isLoad = true ∨ (c.node id).isStore = true) :
      Effect c a (((c.emit (.launch id)).emit (.request id (c.heap id).addr (c.heap id).len)).park id)
  | branch {id : Nat} {d : Label} (hr : c.ready id = true) (hd : (c.heap id).dest c.regs = some d) :
      Effect c (.branch id) (((c.emit (.launch id)).emit (.branch id d)).drop id)
  | bump {id : Nat} (hid : id ∈ c.computeQueue) (hc : (c.heap id).currCycle < (c.node id).maxCycle) :
      Effect c (.bump id) (c.modify id fun x => { x with currCycle := x.currCycle + 1 })
  | retire {a : Act} {id : Nat} {v : Word} (ha : ∀ k, a ≠ .launch k)
      (hid : id ∈ c.computeQueue ∨ id ∈ c.readQueue ∨ id ∈ c.writeQueue)
      (hv : (c.node id).isLoad = false → v = (c.heap id).finalResult) :
        Effect c a (((c.setFinal id v).retire id).drop id)
  | lose {a : Act} {id : Nat} {v : Word} (ha : ∀ k, a ≠ .launch k) (hid : id ∈ c.readQueue)
      (hc : (c.heap id).currCycle < (c.node id).maxCycle) :
      Effect c a ((c.modify id fun x =>
        { x with finalResult := v, currCycle := x.currCycle + 1, parents := [], children := [] }).drop id)
  | finish {id : Nat} (hid : id ∈ c.reservation) (hn : (c.node id).isRet = true) :
      Effect c (.finish id) ((c.emit .finish).drop id)

/-! ## Every act has one of the effects -/

section Effect

variable {c : Core} {id : Nat}

section

variable (h : c.Lists)
include h

theorem Lists.disjoint : (∀ id ∈ c.reservation, id ∉ c.computeQueue ∧ id ∉ c.readQueue ∧ id ∉ c.writeQueue) ∧
      (∀ id ∈ c.computeQueue, id ∉ c.readQueue ∧ id ∉ c.writeQueue) ∧ (∀ id ∈ c.readQueue, id ∉ c.writeQueue) := by
  have hn := h.nodup
  simp only [live, List.nodup_append, List.mem_append] at hn
  grind

theorem Lists.drop_reservation (hid : id ∈ c.reservation) :
    c.drop id = { c with reservation := c.reservation.erase id } := by
  obtain ⟨h₁, h₂, h₃⟩ := h.disjoint.1 id hid
  simp [drop, List.erase_of_not_mem, h₁, h₂, h₃]

theorem Lists.drop_computeQueue (hid : id ∈ c.computeQueue) :
    c.drop id = { c with computeQueue := c.computeQueue.erase id } := by
  have h₁ : id ∉ c.reservation := fun hr => (h.disjoint.1 id hr).1 hid
  obtain ⟨h₂, h₃⟩ := h.disjoint.2.1 id hid
  simp [drop, List.erase_of_not_mem, h₁, h₂, h₃]

theorem Lists.drop_readQueue (hid : id ∈ c.readQueue) : c.drop id = { c with readQueue := c.readQueue.erase id } := by
  have h₁ : id ∉ c.reservation := fun hr => (h.disjoint.1 id hr).2.1 hid
  have h₂ : id ∉ c.computeQueue := fun hr => (h.disjoint.2.1 id hr).1 hid
  simp [drop, List.erase_of_not_mem, h₁, h₂, h.disjoint.2.2 id hid]

theorem Lists.drop_writeQueue (hid : id ∈ c.writeQueue) :
    c.drop id = { c with writeQueue := c.writeQueue.erase id } := by
  have h₁ : id ∉ c.reservation := fun hr => (h.disjoint.1 id hr).2.2 hid
  have h₂ : id ∉ c.computeQueue := fun hr => (h.disjoint.2.1 id hr).2 hid
  have h₃ : id ∉ c.readQueue := fun hr => h.disjoint.2.2 id hr hid
  simp [drop, List.erase_of_not_mem, h₁, h₂, h₃]

/-- Acts on instances and registers leave the lists alone. -/
theorem Lists.congr {c' : Core} (hr : c'.reservation = c.reservation) (hq : c'.computeQueue = c.computeQueue)
    (hl : c'.readQueue = c.readQueue) (hw : c'.writeQueue = c.writeQueue) (hn : c'.next = c.next)
    (hnode : ∀ k, c'.node k = c.node k) : c'.Lists where
  nodup := by simpa only [live, hr, hq, hl, hw] using h.nodup
  lt_next := by simpa only [live, hr, hq, hl, hw, hn] using h.lt_next
  sorted := by simpa only [hr] using h.sorted
  onUnit := by simpa only [hq, hnode] using h.onUnit
  isLoad := by simpa only [hl, hnode] using h.isLoad
  isStore := by simpa only [hw, hnode] using h.isStore

end

@[simp] theorem node_drop (k : Nat) : (c.drop id).node k = c.node k := rfl

@[simp] theorem node_park (k : Nat) : (c.park id).node k = c.node k := rfl

@[simp] theorem node_emit (e : Event) (k : Nat) : (c.emit e).node k = c.node k := rfl

theorem node_modify {f : Inst → Inst} (hf : (f (c.heap id)).node = (c.heap id).node) (k : Nat) :
    (c.modify id f).node k = c.node k := by
  by_cases hk : k = id
  · subst hk; simpa [node] using hf
  · simp [node, modify_heap, hk]

@[simp] theorem node_setFinal (v : Word) (k : Nat) : (c.setFinal id v).node k = c.node k := node_modify rfl k

theorem setFinal_heap (v : Word) (k : Nat) : (c.setFinal id v).heap k =
    { c.heap k with finalResult := if k = id then v else (c.heap k).finalResult } := by
  by_cases hk : k = id <;> simp [setFinal, modify_heap, hk]

@[simp] theorem live_emit (e : Event) : (c.emit e).live = c.live := rfl

@[simp] theorem live_modify (f : Inst → Inst) : (c.modify id f).live = c.live := rfl

@[simp] theorem live_setFinal (v : Word) : (c.setFinal id v).live = c.live := rfl

theorem setResult_eq (v : Word) :
    c.setResult id v = c.setFinal id (memcpy (c.node id).returnSize (c.heap id).finalResult v) := rfl

theorem park_onUnit (h : (c.node id).onUnit = true) : c.park id =
    { c with reservation := c.reservation.erase id, computeQueue := c.computeQueue ++ [id] } := by
  simp [park, h, Node.isLoad_of_onUnit h, Node.isStore_of_onUnit h]

theorem park_isLoad (h : (c.node id).isLoad = true) : c.park id =
    { c with reservation := c.reservation.erase id, readQueue := c.readQueue ++ [id] } := by
  simp [park, h, Node.onUnit_of_isLoad h, Node.isStore_of_isLoad h]

theorem park_isStore (h : (c.node id).isStore = true) : c.park id =
    { c with reservation := c.reservation.erase id, writeQueue := c.writeQueue ++ [id] } := by
  simp [park, h, Node.onUnit_of_isStore h, Node.isLoad_of_isStore h]

theorem Lists.emit (h : c.Lists) (e : Event) : (c.emit e).Lists := h.congr rfl rfl rfl rfl rfl fun _ => rfl

theorem Lists.modify (h : c.Lists) {f : Inst → Inst} (hf : (f (c.heap id)).node = (c.heap id).node) :
    (c.modify id f).Lists := h.congr rfl rfl rfl rfl rfl (node_modify hf)

theorem Lists.setFinal (h : c.Lists) (id : Nat) (v : Word) : (c.setFinal id v).Lists := h.modify rfl

@[simp] theorem retire_node (k : Nat) : (c.retire id).node k = c.node k := by
  simp only [node, retire_heap]

theorem Lists.retire (h : c.Lists) (id : Nat) : (c.retire id).Lists := by
  refine h.congr ?_ ?_ ?_ ?_ ?_ retire_node <;> simp

theorem setFinal_self : c.setFinal id (c.heap id).finalResult = c := by
  have hu : Function.update c.heap id (c.heap id) = c.heap := Function.update_eq_self id c.heap
  exact congrArg (fun h => { c with heap := h }) hu

theorem commit_retire (hc : (c.node id).returnRegister.isSome = true → (c.node id).maxCycle ≤ (c.heap id).currCycle) :
    ((c.commit id).1).removeParents id = c.retire id := by
  unfold commit
  split
  · rename_i hr
    rw [if_pos (hc hr)]
    rfl
  · rfl

theorem modify_modify (f g : Inst → Inst) : (c.modify id f).modify id g = c.modify id fun x => g (f x) := by
  simp [modify]

/-- `readCommit` of a load of positive latency. -/
theorem commit_lose {data : Word} (hl : (c.node id).isLoad = true) (hc : (c.heap id).currCycle < (c.node id).maxCycle) :
    ((c.setResult id data).commit id).1.removeParents id = c.modify id fun x =>
      { x with
        finalResult := memcpy (c.node id).returnSize (c.heap id).finalResult data
        currCycle := x.currCycle + 1, parents := [], children := [] } := by
  have hn : (c.setResult id data).node id = c.node id := node_modify rfl id
  have hy : ((c.setResult id data).heap id).currCycle = (c.heap id).currCycle := by simp [setResult]
  have hq : ((c.setResult id data).commit id).1 =
      (c.setResult id data).modify id fun x => { x with currCycle := x.currCycle + 1 } := by
    simp only [commit, hn, Node.returnRegister_of_isLoad hl, if_true, hy, Nat.not_le.mpr hc, if_false]
  rw [hq, setResult_eq, setFinal, removeParents, modify_modify, modify_modify]

/-- **Every act has one of the effects.** -/
theorem effect_of_step (h : c.Lists) {a : Act} {c' : Core} (hs : c.step a = some c') : c.Effect a c' := by
  cases a with
  | enterBB bb => cases hs; exact .enter bb
  | schedule prev n =>
    cases hs
    rw [scheduleNode_eq h.lt_next]
    exact .schedule prev n
  | launch id =>
    simp only [step, Option.ite_none_right_eq_some, Bool.and_eq_true] at hs
    obtain ⟨⟨hr, hn⟩, hs⟩ := hs
    cases hv : (c.heap id).result c.regs with
    | error e => simp [compute, hv] at hs
    | ok v =>
      simp only [compute, hv, Option.some.injEq] at hs
      subst hs
      exact park_onUnit (c := (c.setFinal id _).emit _) (by simpa using hn) ▸ Effect.launchUnit hr hn hv
  | bump id =>
    simp only [step, Option.ite_none_right_eq_some, Option.some.injEq] at hs
    obtain ⟨⟨hid, hc⟩, rfl⟩ := hs
    exact .bump hid hc
  | commit id =>
    simp only [step, Option.ite_none_right_eq_some, Option.some.injEq] at hs
    obtain ⟨⟨hid, hc⟩, rfl⟩ := hs
    have he : c.Effect (.commit id) _ := .retire (by simp) (.inl hid) fun _ => rfl
    rw [setFinal_self, (h.retire id).drop_computeQueue (by simpa using hid)] at he
    exact he
  | launchLoad id =>
    simp only [step, Option.ite_none_right_eq_some, Bool.and_eq_true, Option.some.injEq] at hs
    obtain ⟨⟨hr, hn⟩, rfl⟩ := hs
    exact park_isLoad (c := (c.emit _).emit _) hn ▸ Effect.launchMem (by simp) hr (.inl hn)
  | launchStore id =>
    simp only [step, Option.ite_none_right_eq_some, Bool.and_eq_true, Option.some.injEq] at hs
    obtain ⟨⟨hr, hn⟩, rfl⟩ := hs
    exact park_isStore (c := (c.emit _).emit _) hn ▸ Effect.launchMem (by simp) hr (.inr hn)
  | readCommit id data =>
    simp only [step, Option.ite_none_right_eq_some, Option.some.injEq] at hs
    obtain ⟨hid, rfl⟩ := hs
    have hL : (c.setResult id data).Lists := h.modify rfl
    let v := memcpy (c.node id).returnSize (c.heap id).finalResult data
    by_cases hc : (c.node id).maxCycle ≤ (c.heap id).currCycle
    · have he : c.Effect (.readCommit id data) _ :=
        .retire (v := v) (by simp) (.inr (.inl hid)) (by simp [h.isLoad id hid])
      rw [← setResult_eq data, (hL.retire id).drop_readQueue (by rw [retire_readQueue]; exact hid)] at he
      have hq : ((c.setResult id data).commit id).1.removeParents id = (c.setResult id data).retire id :=
        commit_retire fun _ => by simpa [setResult, node] using hc
      simpa only [readCommit, hq] using he
    · have he : c.Effect (.readCommit id data) _ := .lose (v := v) (by simp) hid (Nat.lt_of_not_le hc)
      have hM : (c.modify id fun x =>
          { x with finalResult := v, currCycle := x.currCycle + 1, parents := [], children := [] }).Lists :=
            h.modify rfl
      rw [hM.drop_readQueue hid] at he
      have hq : ((c.setResult id data).commit id).1.removeParents id = c.modify id fun x =>
          { x with finalResult := v, currCycle := x.currCycle + 1, parents := [], children := [] } :=
        commit_lose (h.isLoad id hid) (Nat.lt_of_not_le hc)
      simpa only [readCommit, hq] using he
  | writeCommit id =>
    simp only [step, Option.ite_none_right_eq_some, Option.some.injEq] at hs
    obtain ⟨hid, rfl⟩ := hs
    have he : c.Effect (.writeCommit id) _ := .retire (by simp) (.inr (.inr hid)) fun _ => rfl
    rw [setFinal_self, (h.retire id).drop_writeQueue (by simpa using hid)] at he
    have hq : (c.commit id).1.removeParents id = c.retire id :=
      commit_retire fun hr => by simp [Node.returnRegister_of_isStore (h.isStore id hid)] at hr
    simpa only [writeCommit, hq] using he
  | branch id =>
    simp only [step, Option.ite_none_right_eq_some] at hs
    obtain ⟨hr, hs⟩ := hs
    cases hd : (c.heap id).dest c.regs with
    | none => simp [hd] at hs
    | some d =>
      simp only [hd, Option.some.injEq] at hs
      subst hs
      have hid : id ∈ c.reservation := by simp only [ready, Bool.and_eq_true, decide_eq_true_eq] at hr; exact hr.1
      exact ((h.emit _).emit _).drop_reservation hid ▸ Effect.branch hr hd
  | finish id =>
    simp only [step, Option.ite_none_right_eq_some, Bool.and_eq_true, decide_eq_true_eq, Option.some.injEq] at hs
    obtain ⟨⟨hid, hn⟩, rfl⟩ := hs
    exact (h.emit _).drop_reservation hid ▸ Effect.finish hid hn

end Effect

/-! ## Every effect keeps the lists in order -/

section Keep

variable {c : Core} {id : Nat}

theorem Lists.drop (h : c.Lists) (id : Nat) : (c.drop id).Lists := by
  have hsub : (c.drop id).live.Sublist c.live :=
    ((List.erase_sublist.append List.erase_sublist).append List.erase_sublist).append List.erase_sublist
  exact ⟨h.nodup.sublist hsub, fun k hk => h.lt_next k (hsub.subset hk), h.sorted.sublist List.erase_sublist,
    fun k hk => h.onUnit k (List.mem_of_mem_erase hk), fun k hk => h.isLoad k (List.mem_of_mem_erase hk),
    fun k hk => h.isStore k (List.mem_of_mem_erase hk)⟩

theorem mem_drop_reservation (h : c.Lists) {k : Nat} : k ∈ (c.drop id).reservation ↔ k ∈ c.reservation ∧ k ≠ id := by
  have hn : c.reservation.Nodup := h.sorted.imp fun hlt => Nat.ne_of_lt hlt
  rw [and_comm]
  exact hn.mem_erase_iff

theorem mem_live_drop (h : c.Lists) {k : Nat} : k ∈ (c.drop id).live ↔ k ∈ c.live ∧ k ≠ id := by
  have hn := h.nodup
  simp only [live, List.nodup_append] at hn
  obtain ⟨⟨⟨hr, hq, -⟩, hl, -⟩, hw, -⟩ := hn
  simp only [mem_live, Core.drop, hr.mem_erase_iff, hq.mem_erase_iff, hl.mem_erase_iff, hw.mem_erase_iff]
  tauto

/-- Parking moves an instance from one list to another. -/
theorem live_park_perm (hid : id ∈ c.reservation) (hn : (c.node id).queued = true) : (c.park id).live.Perm c.live := by
  have hp := List.perm_cons_erase hid
  have hmove : ∀ q₁ q₂ : List Nat, (c.reservation.erase id ++ q₁ ++ [id] ++ q₂).Perm (c.reservation ++ q₁ ++ q₂) := by
    intro q₁ q₂
    refine .append_right q₂ (.trans ?_ (.append_right q₁ hp.symm))
    exact List.perm_append_singleton id _
  simp only [Node.queued, Bool.or_eq_true] at hn
  rcases hn with (hn | hn) | hn
  · rw [park_onUnit hn]
    have := hmove c.computeQueue (c.readQueue ++ c.writeQueue)
    simpa [live] using this
  · rw [park_isLoad hn]
    have := hmove (c.computeQueue ++ c.readQueue) c.writeQueue
    simpa [live] using this
  · rw [park_isStore hn]
    have := hmove (c.computeQueue ++ c.readQueue ++ c.writeQueue) []
    simpa [live] using this

theorem mem_park_reservation (h : c.Lists) {k : Nat} : k ∈ (c.park id).reservation ↔ k ∈ c.reservation ∧ k ≠ id := by
  have hn : c.reservation.Nodup := h.sorted.imp fun hlt => Nat.ne_of_lt hlt
  rw [and_comm]
  exact hn.mem_erase_iff

theorem Lists.park (h : c.Lists) (hid : id ∈ c.reservation) (hn : (c.node id).queued = true) : (c.park id).Lists := by
  have hp := live_park_perm hid hn
  have hmem : ∀ {b : Bool} {q : List Nat} {k : Nat}, k ∈ (if b then q ++ [id] else q) → k ∈ q ∨ k = id ∧ b = true := by
    intro b q k hk
    cases b <;> simp_all
  refine ⟨hp.nodup_iff.mpr h.nodup, fun k hk => h.lt_next k (hp.mem_iff.mp hk), h.sorted.sublist List.erase_sublist,
    ?_, ?_, ?_⟩
  · intro k hk
    rcases hmem hk with hk | ⟨rfl, hb⟩
    exacts [h.onUnit k hk, hb]
  · intro k hk
    rcases hmem hk with hk | ⟨rfl, hb⟩
    exacts [h.isLoad k hk, hb]
  · intro k hk
    rcases hmem hk with hk | ⟨rfl, hb⟩
    exacts [h.isStore k hk, hb]

section New

variable {n : Node} {links : List Nat} {ops : List Word} {ptr : Word} {bb : Label}

theorem mem_live_withNew {k : Nat} : k ∈ (c.withNew n links ops ptr bb).live ↔ k ∈ c.live ∨ k = c.next := by
  simp only [mem_live, withNew_reservation, withNew_computeQueue, withNew_readQueue, withNew_writeQueue,
    List.mem_append, List.mem_singleton]
  tauto

theorem Lists.withNew (h : c.Lists) : (c.withNew n links ops ptr bb).Lists := by
  have hp : (c.withNew n links ops ptr bb).live.Perm (c.next :: c.live) := by
    simp only [live, withNew_reservation, withNew_computeQueue, withNew_readQueue, withNew_writeQueue,
      List.append_assoc, List.singleton_append]
    exact List.perm_middle
  have hnode : ∀ k ∈ c.live, (c.withNew n links ops ptr bb).node k = c.node k := fun k hk =>
    withNew_node (Nat.ne_of_lt (h.lt_next k hk))
  refine ⟨hp.nodup_iff.mpr (List.nodup_cons.mpr ⟨fun hm => Nat.lt_irrefl _ (h.lt_next _ hm), h.nodup⟩), ?_, ?_, ?_, ?_,
    ?_⟩
  · intro k hk
    rcases mem_live_withNew.mp hk with hk | rfl
    · exact Nat.lt_succ_of_lt (h.lt_next k hk)
    · exact Nat.lt_succ_self _
  · rw [withNew_reservation, List.pairwise_append]
    refine ⟨h.sorted, List.pairwise_singleton _ _, fun a ha b hb => ?_⟩
    rw [List.mem_singleton.mp hb]
    exact h.lt_next a (mem_live.mpr (.inl ha))
  · intro k hk
    rw [hnode k (mem_live.mpr (.inr (.inl hk)))]
    exact h.onUnit k hk
  · intro k hk
    rw [hnode k (mem_live.mpr (.inr (.inr (.inl hk))))]
    exact h.isLoad k hk
  · intro k hk
    rw [hnode k (mem_live.mpr (.inr (.inr (.inr hk))))]
    exact h.isStore k hk

end New

theorem mem_of_ready (h : c.ready id = true) : id ∈ c.reservation := by
  simp only [ready, Bool.and_eq_true, decide_eq_true_eq] at h
  exact h.1

theorem activeParents_of_ready (h : c.ready id = true) : (c.heap id).activeParents = 0 := by
  simp only [ready, Bool.and_eq_true, decide_eq_true_eq] at h
  exact h.2

theorem Lists.rawStore (h : c.Lists) {r : Reg} (hp : c.rawStore r = some id) :
    (c.node id).isStore = true ∧ (c.node id).rawCheck = some r := by
  rcases Option.or_eq_some_iff.mp hp with hp | ⟨-, hp⟩
  · simpa using (lastWhere_mem hp).2
  · exact ⟨h.isStore id (lastWhere_mem hp).1, of_decide_eq_true (lastWhere_mem hp).2⟩

theorem Lists.rawParent (h : c.Lists) {n : Node} (hp : c.rawParent n = some id) : (c.node id).isStore = true := by
  simp only [Core.rawParent] at hp
  split at hp
  · exact (h.rawStore hp).1
  · cases hp

theorem Lists.effect (h : c.Lists) {a : Act} {c' : Core} (he : c.Effect a c') : c'.Lists := by
  cases he with
  | enter bb => exact h.emit _
  | schedule prev n => exact h.withNew
  | launchUnit hr hn hv =>
    have hid := mem_of_ready hr
    refine ((h.setFinal _ _).emit _).park hid ?_
    simp only [node_emit, node_setFinal, Node.queued, hn, Bool.true_or]
  | launchMem ha hr hn =>
    have hid := mem_of_ready hr
    refine ((h.emit _).emit _).park hid ?_
    rcases hn with hn | hn <;> simp [Node.queued, hn]
  | branch hr hd => exact ((h.emit _).emit _).drop _
  | bump hid hc => exact h.modify rfl
  | retire ha hid hv => exact ((h.setFinal _ _).retire _).drop _
  | lose ha hid hc => exact Lists.drop (h.modify rfl) _
  | finish hid hn => exact (h.emit _).drop _

end Keep

end Core

/-- **The lists in every reachable state.** -/
theorem lists_of_reachable {C : Core → Act → Prop} {c : Core} (h : core.ReachableWhen C c) : c.Lists := by
  refine System.invariantWhen (I := Core.Lists) ?_ ?_ h
  · rintro c ⟨init, rfl⟩
    constructor <;> simp [Core.start, Core.live]
  · intro c a c' _ hI _ hs
    exact hI.effect (Core.effect_of_step hI hs)

end Salam.Engine
