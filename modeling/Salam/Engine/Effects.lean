import Mathlib.Logic.Function.Iterate
import Salam.Engine.Core

/-!
# What each act does

Closed forms for the two operations that loop: scheduling a node (`scheduleNode_eq`) and retiring an instance
(`retire_eq`). Everything later is proved from these and does not look into the loops again.

* `parentsOf`, `capturedOps`, `capturedPtr`: what the new instance is linked to and what it captures, as functions of
  the state before.
* `scheduleNode_eq`: scheduling adds exactly one instance, linked to `parentsOf`.
* `retire_eq`: retiring an instance notifies each child once for every time it is registered.
-/

namespace Salam.Engine

namespace Core

/-! ## Projections -/

section Projections

variable (c : Core) (id : Nat) (f : Inst → Inst)

@[simp] theorem modify_heap_self : (c.modify id f).heap id = f (c.heap id) := by simp [modify]

theorem modify_heap (k : Nat) : (c.modify id f).heap k = if k = id then f (c.heap k) else c.heap k := by
  by_cases h : k = id
  · subst h; simp [modify]
  · simp [modify, h]

end Projections

/-! ## Scheduling a node -/

section Schedule

variable (c : Core) (prev : Label) (n : Node)

/-- `findParent` as the new instance sees it: over the whole reservation table of the state before. -/
def youngest (p : Node → Bool) : Option Nat :=
  let q := fun id => p (c.node id)
  (lastWhere q c.reservation).or ((lastWhere q c.computeQueue).or (lastWhere q c.readQueue))

/-- The youngest instance in flight that returns to `r`. -/
def writerOf (r : Reg) : Option Nat := c.youngest fun m => m.returnRegister = some r

/-- The instance of the same line that the new one waits for. -/
def lineParent : Option Nat := if n.returnRegister.isSome then c.youngest fun m => m.line = n.line else none

/-- The store through `r` that a new load waits for. -/
def rawStore (r : Reg) : Option Nat :=
  (lastWhere (fun id => (c.node id).isStore && (c.node id).rawCheck = some r) c.reservation).or
    (lastWhere (fun id => (c.node id).rawCheck = some r) c.writeQueue)

/-- The store that the new instance waits for, if it is a load. -/
def rawParent : Option Nat :=
  match n.body with
  | .load _ _ p => c.rawStore p
  | _ => none

/-- The writer of the base register of a new getelementptr. -/
def baseParent : Option Nat := n.ptrVal.bind c.writerOf

/-- The writers of the runtime dependencies, in their order. -/
def depParents : List Nat := (n.runtimeDependencies prev).filterMap fun d => d.bind c.writerOf

/-- All registrations of the new instance, in their order. -/
def parentsOf : List Nat := (c.lineParent n).toList ++ (c.rawParent n).toList ++ (c.baseParent n).toList ++
    c.depParents prev n

/-- `_Ops` after the loop over the runtime dependencies `ds`, the first of which has index `j`. -/
def captureFrom (ops : List Word) (ds : List (Option Reg)) (j : Nat) : List Word :=
  match ds with
  | [] => ops
  | d :: ds =>
    match d with
    | none => captureFrom ops ds (j + 1)
    | some r =>
      match c.writerOf r, n.dependencies[j]? with
      | none, some (some r') => captureFrom (ops.set j (c.regs r')) ds (j + 1)
      | _, _ => captureFrom ops ds (j + 1)

/-- `_Ops` of the new instance. -/
def capturedOps : List Word :=
  c.captureFrom n (n.dependencies.map fun _ => 0) (n.runtimeDependencies prev) 0

/-- `_ActivePtr` of the new instance. -/
def capturedPtr : Word :=
  match n.body with
  | .gep _ _ p _ junk _ => if c.writerOf p = none then c.regs p else junk
  | _ => 0

/-- The state with a new instance of `n` that has the given links and captured values. -/
@[simps -fullyApplied next reservation computeQueue readQueue writeQueue init regs log]
def withNew (links : List Nat) (ops : List Word) (ptr : Word) (bb : Label) : Core :=
  { c with
    heap := fun k =>
      if k = c.next then
        { Inst.clone n with
          ops := ops
          activeParents := n.baseParents + links.length
          parents := links
          activePtr := ptr
          prevBB := bb }
      else { c.heap k with children := (c.heap k).children ++ List.replicate (links.count k) c.next }
    next := c.next + 1
    reservation := c.reservation ++ [c.next]
    log := c.log ++ links.map fun p => .register p c.next }

section NewInstance

variable {c : Core} {n : Node} {links : List Nat} {ops : List Word} {ptr : Word} {bb : Label} {k : Nat}

theorem push_eq : c.push n = c.withNew n [] (n.dependencies.map fun _ => 0) (Inst.clone n).activePtr "" := by
  have hh : Function.update c.heap c.next (Inst.clone n) = fun k =>
      if k = c.next then { Inst.clone n with activeParents := n.baseParents + ([] : List Nat).length }
      else { c.heap k with children := (c.heap k).children ++ List.replicate (([] : List Nat).count k) c.next } := by
    funext k
    by_cases hk : k = c.next
    · subst hk; simp [Inst.clone]
    · simp [hk]
  simp only [push, withNew, hh, List.map_nil, List.append_nil]
  rfl

theorem withNew_link {p : Nat} (hp : p ≠ c.next) :
    (c.withNew n links ops ptr bb).link c.next p = c.withNew n (links ++ [p]) ops ptr bb := by
  simp only [link, emit, modify, withNew, List.append_assoc, List.map_append, List.map_cons, List.map_nil,
    Core.mk.injEq, and_true]
  funext k
  by_cases hk : k = c.next
  · subst hk; simp [Ne.symm hp]; omega
  · by_cases hkp : k = p
    · subst hkp; simp [hk, List.replicate_add, List.count_append]
    · simp [hk, hkp, List.count_append, Ne.symm hkp]

theorem withNew_linkOpt {o : Option Nat} (ho : ∀ p ∈ o, p ≠ c.next) :
    (c.withNew n links ops ptr bb).linkOpt c.next o = c.withNew n (links ++ o.toList) ops ptr bb := by
  cases o with
  | none => simp [linkOpt]
  | some p => simpa [linkOpt] using withNew_link (ho p rfl)

theorem withNew_node (hk : k ≠ c.next) : (c.withNew n links ops ptr bb).node k = c.node k := by
  simp [node, withNew, hk]

theorem withNew_modify (f : Inst → Inst) (ops' : List Word) (ptr' : Word) (bb' : Label)
    (hf : f { Inst.clone n with
        ops := ops, activeParents := n.baseParents + links.length, parents := links, activePtr := ptr, prevBB := bb } =
      { Inst.clone n with
        ops := ops', activeParents := n.baseParents + links.length, parents := links, activePtr :=
          ptr', prevBB := bb' }) :
    (c.withNew n links ops ptr bb).modify c.next f = c.withNew n links ops' ptr' bb' := by
  simp only [modify, withNew, Core.mk.injEq, and_true]
  funext k
  by_cases hk : k = c.next
  · subst hk; simpa using hf
  · simp [hk]

theorem withNew_ptr (v : Word) : ((c.withNew n links ops ptr bb).modify c.next fun x => { x with activePtr := v }) =
    c.withNew n links ops v bb := withNew_modify _ ops v bb rfl

theorem withNew_bb (l : Label) : ((c.withNew n links ops ptr bb).modify c.next fun x => { x with prevBB := l }) =
    c.withNew n links ops ptr l := withNew_modify _ ops ptr l rfl

theorem withNew_fetchIdx (j : Nat) : (c.withNew n links ops ptr bb).fetchIdx c.next j =
    c.withNew n links (match n.dependencies[j]? with | some (some r) => ops.set j (c.regs r) | _ => ops) ptr bb := by
  refine withNew_modify _ _ ptr bb ?_
  simp only [withNew_regs, Inst.clone]
  rcases n.dependencies[j]? with _ | _ | r <;> rfl

theorem lastWhere_congr {p q : Nat → Bool} {l : List Nat} (h : ∀ k ∈ l, p k = q k) : lastWhere p l = lastWhere q l := by
  unfold lastWhere
  have h' : ∀ k ∈ l.reverse, p k = q k := fun k hk => h k (List.mem_reverse.mp hk)
  generalize l.reverse = m at h'
  induction m with
  | nil => rfl
  | cons a m ih =>
    rw [List.find?_cons, List.find?_cons, h' a List.mem_cons_self, ih fun k hk => h' k (List.mem_cons_of_mem a hk)]

theorem lastWhere_mem {p : Nat → Bool} {l : List Nat} (h : lastWhere p l = some k) : k ∈ l ∧ p k = true :=
  ⟨List.mem_reverse.mp (List.mem_of_find?_eq_some h), List.find?_some h⟩

theorem youngest_mem {p : Node → Bool} (h : c.youngest p = some k) :
    (k ∈ c.reservation ∨ k ∈ c.computeQueue ∨ k ∈ c.readQueue) ∧ p (c.node k) = true := by
  simp only [youngest, Option.or_eq_some_iff] at h
  rcases h with h | ⟨-, h | ⟨-, h⟩⟩
  · exact ⟨.inl (lastWhere_mem h).1, (lastWhere_mem h).2⟩
  · exact ⟨.inr (.inl (lastWhere_mem h).1), (lastWhere_mem h).2⟩
  · exact ⟨.inr (.inr (lastWhere_mem h).1), (lastWhere_mem h).2⟩

theorem mem_live : k ∈ c.live ↔ k ∈ c.reservation ∨ k ∈ c.computeQueue ∨ k ∈ c.readQueue ∨ k ∈ c.writeQueue := by
  simp [live]

theorem youngest_live {p : Node → Bool} (h : c.youngest p = some k) : k ∈ c.live :=
  mem_live.mpr (by rcases (youngest_mem h).1 with h | h | h <;> simp [h])

theorem rawStore_mem {r : Reg} (h : c.rawStore r = some k) : k ∈ c.reservation ∨ k ∈ c.writeQueue := by
  rcases Option.or_eq_some_iff.mp h with h | ⟨-, h⟩
  · exact .inl (lastWhere_mem h).1
  · exact .inr (lastWhere_mem h).1

/-- Every registration of a new instance is with an instance that is in one of the lists. -/
theorem parentsOf_live {prev : Label} (h : k ∈ c.parentsOf prev n) : k ∈ c.live := by
  simp only [parentsOf, List.mem_append, Option.mem_toList] at h
  rcases h with ((h | h) | h) | h
  · simp only [lineParent] at h
    split at h
    · exact youngest_live h
    · cases h
  · simp only [rawParent] at h
    split at h
    · exact mem_live.mpr (by rcases rawStore_mem h with h | h <;> simp [h])
    · cases h
  · obtain ⟨r, -, h⟩ := Option.bind_eq_some_iff.mp h
    exact youngest_live h
  · obtain ⟨d, -, h⟩ := List.mem_filterMap.mp h
    obtain ⟨r, -, h⟩ := Option.bind_eq_some_iff.mp h
    exact youngest_live h

section Search

variable (hlt : ∀ k ∈ c.live, k < c.next)
include hlt

theorem withNew_findParent (p : Node → Bool) : (c.withNew n links ops ptr bb).findParent p = c.youngest p := by
  have hn : ∀ k ∈ c.live, p ((c.withNew n links ops ptr bb).node k) = p (c.node k) := fun k hk => by
    rw [withNew_node (Nat.ne_of_lt (hlt k hk))]
  simp only [findParent, youngest, withNew_reservation, withNew_computeQueue, withNew_readQueue,
    List.dropLast_concat]
  rw [lastWhere_congr (l := c.reservation) fun k hk => hn k (mem_live.mpr (.inl hk))]
  rw [lastWhere_congr (l := c.computeQueue) fun k hk => hn k (mem_live.mpr (.inr (.inl hk)))]
  rw [lastWhere_congr (l := c.readQueue) fun k hk => hn k (mem_live.mpr (.inr (.inr (.inl hk))))]

theorem withNew_detectRAW (r : Reg) : (c.withNew n links ops ptr bb).detectRAW r = c.rawStore r := by
  have hn : ∀ k ∈ c.live, (c.withNew n links ops ptr bb).node k = c.node k := fun k hk =>
    withNew_node (Nat.ne_of_lt (hlt k hk))
  simp only [detectRAW, rawStore, withNew_reservation, withNew_writeQueue, List.dropLast_concat]
  rw [lastWhere_congr (l := c.reservation) fun k hk => by rw [hn k (mem_live.mpr (.inl hk))]]
  rw [lastWhere_congr (l := c.writeQueue) fun k hk => by rw [hn k (mem_live.mpr (.inr (.inr (.inr hk))))]]

theorem withNew_linkLine : (c.withNew n links ops ptr bb).linkLine n c.next =
    c.withNew n (links ++ (c.lineParent n).toList) ops ptr bb := by
  simp only [linkLine, lineParent, findParentLine, withNew_findParent hlt]
  split
  · exact withNew_linkOpt fun p hp => Nat.ne_of_lt (hlt p (youngest_live hp))
  · simp

theorem withNew_linkRAW : (c.withNew n links ops ptr bb).linkRAW n c.next =
    c.withNew n (links ++ (c.rawParent n).toList) ops ptr bb := by
  cases hb : n.body with
  | load r k p =>
    simp only [linkRAW, rawParent, hb, withNew_detectRAW hlt]
    refine withNew_linkOpt fun q hq => Nat.ne_of_lt (hlt q (mem_live.mpr ?_))
    rcases rawStore_mem hq with h | h <;> simp [h]
  | _ => simp [linkRAW, rawParent, hb]

/-- `linkBase` after the links of the same line and of the memory. -/
theorem withNew_linkBase (hptr : ptr = (Inst.clone n).activePtr) : (c.withNew n links ops ptr bb).linkBase n c.next =
    c.withNew n (links ++ (c.baseParent n).toList) ops (c.capturedPtr n) bb := by
  cases hb : n.body with
  | gep r k p idx junk eval =>
    simp only [linkBase, hb, findParentReg, withNew_findParent hlt]
    have hw : (c.youngest fun m => m.returnRegister = some p) = c.writerOf p := rfl
    rw [hw]
    cases hp : c.writerOf p with
    | none => simp [withNew_ptr, baseParent, Node.ptrVal, hb, hp, capturedPtr]
    | some q =>
      have hq : q ≠ c.next := Nat.ne_of_lt (hlt q (youngest_live hp))
      simp [withNew_link hq, baseParent, Node.ptrVal, hb, hp, capturedPtr, hptr, Inst.clone]
  | _ => simp [linkBase, baseParent, Node.ptrVal, capturedPtr, hptr, Inst.clone, hb]

/-- The loop over the runtime dependencies. -/
theorem withNew_deps : ∀ (ds : List (Option Reg)) (j : Nat) (links : List Nat) (ops : List Word),
    (ds.zipIdx j).foldl (linkDep c.next) (c.withNew n links ops ptr bb) =
      c.withNew n (links ++ ds.filterMap fun d => d.bind c.writerOf) (c.captureFrom n ops ds j) ptr bb
  | [], j, links, ops => by simp [captureFrom]
  | d :: ds, j, links, ops => by
    rw [List.zipIdx_cons, List.foldl_cons]
    cases d with
    | none =>
      simp only [linkDep, captureFrom]
      rw [withNew_deps ds (j + 1) links ops]
      simp
    | some r =>
      have hw : (c.withNew n links ops ptr bb).findParentReg r = c.writerOf r := withNew_findParent hlt _
      simp only [linkDep, hw]
      cases hr : c.writerOf r with
      | none =>
        rw [withNew_fetchIdx]
        rcases hd : n.dependencies[j]? with _ | _ | r'
        all_goals
          simp only [captureFrom, hr, hd]
          rw [withNew_deps ds (j + 1)]
          simp [hr]
      | some p =>
        dsimp only
        rw [withNew_link (Nat.ne_of_lt (hlt p (youngest_live hr))), withNew_deps ds (j + 1)]
        simp [captureFrom, hr]

/-- **What scheduling a node does.** -/
theorem scheduleNode_eq (prev : Label) : c.scheduleNode prev n =
    c.withNew n (c.parentsOf prev n) (c.capturedOps prev n) (c.capturedPtr n) (if n.isPhi then prev else "") := by
  simp only [scheduleNode, push_eq]
  rw [withNew_linkLine hlt, withNew_linkRAW hlt, withNew_linkBase hlt rfl]
  by_cases hphi : n.isPhi = true
  · simp only [hphi, if_true, withNew_bb, withNew_deps hlt, List.nil_append]
    rfl
  · simp only [hphi, Bool.false_eq_true, if_false, withNew_deps hlt, List.nil_append]
    rfl

end Search

end NewInstance

end Schedule

/-! ## Retiring an instance -/

end Core

/-- The operands of an instance of `n` after a parent that returns to `ret` has committed. -/
def Node.capture (n : Node) (ret : Option Reg) (regs : Reg → Word) (ops : List Word) : List Word :=
  match ret with
  | some r => if n.returnRegister = some r then ops
    else List.zipWith (fun d o => if d = some r then regs r else o) n.dependencies ops
  | none => ops

theorem Node.capture_idem (n : Node) (ret : Option Reg) (regs : Reg → Word) (ops : List Word) :
    n.capture ret regs (n.capture ret regs ops) = n.capture ret regs ops := by
  have hz : ∀ (r : Reg) (ds : List (Option Reg)) (os : List Word),
      List.zipWith (fun d o => if d = some r then regs r else o) ds
        (List.zipWith (fun d o => if d = some r then regs r else o) ds os) =
      List.zipWith (fun d o => if d = some r then regs r else o) ds os := by
    intro r ds
    induction ds with
    | nil => intro os; simp
    | cons d ds ih =>
      intro os
      cases os with
      | nil => simp
      | cons o os =>
        simp only [List.zipWith_cons_cons, ih os, List.cons.injEq, and_true]
        split <;> rfl
  cases ret with
  | none => rfl
  | some r =>
    simp only [Node.capture]
    split
    · rfl
    · exact hz r _ _

/-- What `signalChildren` does to a child of an instance that returns to `ret`. -/
def Inst.notify (ret : Option Reg) (regs : Reg → Word) (x : Inst) : Inst :=
  match ret with
  | some r => x.fetch r (regs r)
  | none => { x with activeParents := x.activeParents - 1 }

namespace Inst

section Notify

variable (ret : Option Reg) (regs : Reg → Word) (x : Inst)

theorem notify_eq : x.notify ret regs =
    { x with activeParents := x.activeParents - 1, ops := x.node.capture ret regs x.ops } := by
  cases ret <;> rfl

/-- **`m` notifications**: `_ActiveParents` falls by `m`, the operands are captured once. -/
theorem notify_iterate (m : Nat) : (notify ret regs)^[m] x =
    { x with
      activeParents := x.activeParents - m
      ops := if m = 0 then x.ops else x.node.capture ret regs x.ops } := by
  induction m with
  | zero => simp
  | succ m ih =>
    rw [Function.iterate_succ_apply', ih, notify_eq]
    simp only [Nat.succ_ne_zero, if_false, Inst.mk.injEq, true_and, and_true]
    refine ⟨?_, by omega⟩
    split
    · rfl
    · exact Node.capture_idem _ ret regs _

end Notify

end Inst

namespace Core

section Retire

variable (c : Core) (id : Nat)

/-- Commit, signal the children and drop the links. -/
def retire : Core := ((c.writeBack id).signalChildren id).removeParents id

/-- What the commit of `id` leaves in its return register. -/
def outcome : Option Word :=
  (c.node id).returnRegister.map fun r => memcpy (c.node id).returnSize (c.regs r) (c.heap id).finalResult

/-- The registers after the commit of `id`. -/
def regsAfter : Reg → Word :=
  match (c.node id).returnRegister, c.outcome id with
  | some r, some v => Function.update c.regs r v
  | _, _ => c.regs

theorem writeBack_eq : c.writeBack id = { c with regs := c.regsAfter id, log :=
    c.log ++ [.commit id (c.outcome id)] } := by
  cases h : (c.node id).returnRegister <;> simp [writeBack, regsAfter, outcome, h, emit]

/-- The loop of `signalChildren`, for both kinds of parent. -/
def notifyAll (id : Nat) (ret : Option Reg) (c : Core) (ks : List Nat) : Core :=
  ks.foldl (fun c k => (c.modify k (Inst.notify ret c.regs)).emit (.signal id k)) c

theorem signalChildren_eq : c.signalChildren id = c.notifyAll id (c.node id).returnRegister (c.heap id).children := by
  cases h : (c.node id).returnRegister <;> simp only [signalChildren, notifyAll, h] <;> rfl

theorem notifyAll_eq (ret : Option Reg) : ∀ (ks : List Nat) (c : Core), c.notifyAll id ret ks =
    { c with
      heap := fun k => (Inst.notify ret c.regs)^[ks.count k] (c.heap k)
      log := c.log ++ ks.map fun k => .signal id k }
  | [], c => by simp [notifyAll]
  | a :: ks, c => by
    have h := notifyAll_eq ret ks ((c.modify a (Inst.notify ret c.regs)).emit (.signal id a))
    simp only [notifyAll, List.foldl_cons] at h ⊢
    rw [h]
    simp only [emit, modify, List.map_cons, List.append_assoc, List.singleton_append, Core.mk.injEq, and_true]
    funext k
    by_cases hk : k = a
    · subst hk; simp
    · simp [hk, Ne.symm hk]

/-- **What retiring an instance does.** -/
theorem retire_eq : c.retire id =
    { c with
      heap := fun k =>
        let x := (Inst.notify (c.node id).returnRegister (c.regsAfter id))^[(c.heap id).children.count k] (c.heap k)
        if k = id then { x with parents := [], children := [] } else x
      regs := c.regsAfter id
      log := c.log ++ .commit id (c.outcome id) :: (c.heap id).children.map fun k => .signal id k } := by
  simp only [retire, signalChildren_eq, notifyAll_eq, writeBack_eq, removeParents, modify, node, List.append_assoc,
    List.singleton_append, Core.mk.injEq, and_true]
  funext k
  by_cases hk : k = id
  · subst hk; simp
  · simp [hk]

@[simp] theorem retire_next : (c.retire id).next = c.next := by rw [retire_eq]
@[simp] theorem retire_reservation : (c.retire id).reservation = c.reservation := by rw [retire_eq]
@[simp] theorem retire_computeQueue : (c.retire id).computeQueue = c.computeQueue := by rw [retire_eq]
@[simp] theorem retire_readQueue : (c.retire id).readQueue = c.readQueue := by rw [retire_eq]
@[simp] theorem retire_writeQueue : (c.retire id).writeQueue = c.writeQueue := by rw [retire_eq]
@[simp] theorem retire_init : (c.retire id).init = c.init := by rw [retire_eq]
@[simp] theorem retire_regs : (c.retire id).regs = c.regsAfter id := by rw [retire_eq]

@[simp] theorem retire_live : (c.retire id).live = c.live := by simp [live]

theorem retire_log : (c.retire id).log =
    c.log ++ .commit id (c.outcome id) :: (c.heap id).children.map fun k => .signal id k := by rw [retire_eq]

theorem retire_heap (k : Nat) : (c.retire id).heap k =
    { c.heap k with
      activeParents := (c.heap k).activeParents - (c.heap id).children.count k
      ops := if (c.heap id).children.count k = 0 then (c.heap k).ops
        else (c.node k).capture (c.node id).returnRegister (c.regsAfter id) (c.heap k).ops
      parents := if k = id then [] else (c.heap k).parents
      children := if k = id then [] else (c.heap k).children } := by
  rw [retire_eq]
  simp only [Inst.notify_iterate]
  by_cases hk : k = id <;> simp [hk, node]

end Retire

end Core

end Salam.Engine
