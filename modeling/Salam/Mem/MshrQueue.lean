import Mathlib.Data.List.TakeWhile
import Salam.Lib.Iterators
import Salam.Mem.Mshr

/-!
# `MSHRQueue`

The entries are numbered; what the lists hold are pointers to them, and every entry stores the iterators of its
elements.
An iterator that is followed after its element was erased is an error of the model, as are the panics and the
assertions.
What signals that the queue has drained is left out.

* `Represented`: the lists, the counters and the stored iterators agree.
* `queue_represented`: they do in every state reached, and then no iterator that the queue follows dangles.
-/

namespace Salam.Mem

/-- What stops an operation of the queue. -/
inductive QueueErr
  /-- An assertion of the entry. -/
  | mshr (e : MshrErr)
  /-- `assert(!freeList.empty())`. -/
  | noFree
  /-- `assert(mshr->getNumTargets() == 0)`. -/
  | targets
  /-- `assert(mshr->inService)`. -/
  | notInService
  /-- `assert(mshr->hasTargets())`. -/
  | noTargets
  /-- `assert(mshr == *(mshr->readyIter))`. -/
  | readyIter
  /-- `Failed to add to ready list.` -/
  | readyList
  /-- An iterator without an element. -/
  | dangling
  deriving DecidableEq

/-- The error is an assertion on an entry or on the arguments, not one on the lists. -/
def QueueErr.onCall : QueueErr → Bool
  | .mshr _ | .noFree | .targets | .notInService | .noTargets => true
  | .readyIter | .readyList | .dangling => false

/-- The queue; `nextNode` is not in the source, it is the identity of the next element of a list. -/
structure MshrQueue where
  numEntries : Nat
  numReserve : Nat
  entries : Nat → MSHR
  allocIter : Nat → Nat
  readyIter : Nat → Nat
  allocatedList : List (Node Nat)
  readyList : List (Node Nat)
  freeList : List Nat
  numInService : Int
  allocated : Int
  nextNode : Nat

/-- `erase` of a list. -/
def eraseAt (l : List (Node Nat)) (it : Nat) : Except QueueErr (List (Node Nat)) :=
  match Node.erase l it with
  | none => .error .dangling
  | some l => .ok l

namespace MshrQueue

/-- A queue as the constructor makes it. -/
def start (num_entries reserve : Nat) : MshrQueue where
  numEntries := num_entries + reserve
  numReserve := reserve
  entries := fun _ => .start
  allocIter := fun _ => 0
  readyIter := fun _ => 0
  allocatedList := []
  readyList := []
  freeList := List.range (num_entries + reserve)
  numInService := 0
  allocated := 0
  nextNode := 1

def isFull (q : MshrQueue) : Bool := q.numEntries - q.numReserve ≤ q.allocated

/-- An operation of an entry. -/
def update (q : MshrQueue) (mshr : Nat) (m : MSHR) : MshrQueue :=
  { q with entries := Function.update q.entries mshr m }

/-- `addToReadyList`, with the list that has the new element. -/
def addToReadyList (q : MshrQueue) (entry : Nat) : Except QueueErr (List (Node Nat)) :=
  let node : Node Nat := ⟨q.nextNode, entry⟩
  match q.readyList.getLast? with
  | none => .ok (q.readyList ++ [node])
  | some back =>
    if (q.entries back.val).readyTime ≤ (q.entries entry).readyTime then .ok (q.readyList ++ [node])
    else
      match Node.insertBefore (fun i => (q.entries entry).readyTime < (q.entries i.val).readyTime) node q.readyList with
      | none => .error .readyList
      | some l => .ok l

/-- The ready list has a new element, which the entry points at. -/
def setReady (q : MshrQueue) (readyList : List (Node Nat)) (entry : Nat) : MshrQueue :=
  { q with
    readyList := readyList
    readyIter := Function.update q.readyIter entry q.nextNode
    nextNode := q.nextNode + 1 }

/-- `allocate`, once there is a free entry. -/
def allocateEntry (q : MshrQueue) (mshr : Nat) (freeList : List Nat) (m : MSHR) : MshrQueue :=
  { q with
    freeList := freeList
    entries := Function.update q.entries mshr m
    allocatedList := q.allocatedList ++ [⟨q.nextNode, mshr⟩]
    allocIter := Function.update q.allocIter mshr q.nextNode
    nextNode := q.nextNode + 1 }

/-- `allocate`, with the entry. -/
def allocate (q : MshrQueue) (blk_addr : Base.Addr) (blk_size : Nat) (pkt : TargetPacket) (when_ready order : Nat)
    (alloc_on_fill : Bool) : Except QueueErr (MshrQueue × Nat) :=
  match q.freeList with
  | [] => .error .noFree
  | mshr :: freeList =>
    if (q.entries mshr).getNumTargets ≠ 0 then .error .targets
    else
      let q := q.allocateEntry mshr freeList
        ((q.entries mshr).allocate blk_addr blk_size pkt when_ready order alloc_on_fill)
      (q.addToReadyList mshr).map fun l => ({ q.setReady l mshr with allocated := q.allocated + 1 }, mshr)

/-- The counter of the entries in service, or the ready list, when an entry goes. -/
def leave (q : MshrQueue) (entry : Nat) : Except QueueErr MshrQueue :=
  if (q.entries entry).inService then .ok { q with numInService := q.numInService - 1 }
  else (eraseAt q.readyList (q.readyIter entry)).map fun l => { q with readyList := l }

def deallocate (q : MshrQueue) (entry : Nat) : Except QueueErr MshrQueue :=
  (eraseAt q.allocatedList (q.allocIter entry)).bind fun l =>
    ({ q with
        allocatedList := l
        freeList := entry :: q.freeList
        allocated := q.allocated - 1 }.leave entry).bind fun q =>
      ((q.entries entry).deallocate.mapError QueueErr.mshr).map (q.update entry)

def moveToFront (q : MshrQueue) (mshr : Nat) : Except QueueErr MshrQueue :=
  if (q.entries mshr).inService then .ok q
  else
    match Node.deref q.readyList (q.readyIter mshr) with
    | none => .error .dangling
    | some entry =>
      if mshr ≠ entry then .error .readyIter
      else (eraseAt q.readyList (q.readyIter mshr)).map fun l => q.setReady (⟨q.nextNode, mshr⟩ :: l) mshr

/-- `delay`; the search starts at the entry itself. -/
def delay (q : MshrQueue) (curTick : Nat) (mshr delay_ticks : Nat) : Except QueueErr MshrQueue :=
  (((q.entries mshr).delay curTick delay_ticks).mapError QueueErr.mshr).bind fun m =>
    let q := q.update mshr m
    let it := (q.readyList.dropWhile fun i => i.id ≠ q.readyIter mshr).find? fun i =>
      (q.entries i.val).readyTime ≤ (q.entries mshr).readyTime
    match Node.splice q.readyList (it.map (·.id)) (q.readyIter mshr) with
    | none => .error .dangling
    | some l => .ok { q with readyList := l }

def markInService (q : MshrQueue) (mshr : Nat) (pending_modified_resp : Bool) : Except QueueErr MshrQueue :=
  (((q.entries mshr).markInService pending_modified_resp).mapError QueueErr.mshr).bind fun m =>
    (eraseAt q.readyList (q.readyIter mshr)).map fun l =>
      { q.update mshr m with
        readyList := l
        numInService := q.numInService + 1 }

def markPending (q : MshrQueue) (mshr : Nat) : Except QueueErr MshrQueue :=
  if !(q.entries mshr).inService then .error .notInService
  else
    let q := { q.update mshr { q.entries mshr with inService := false } with numInService := q.numInService - 1 }
    (q.addToReadyList mshr).map fun l => q.setReady l mshr

/-- `forceDeallocateTarget`; it tells whether the queue is no longer full. -/
def forceDeallocateTarget (q : MshrQueue) (curTick : Nat) (mshr : Nat) : Except QueueErr (MshrQueue × Bool) :=
  let was_full := q.isFull
  if !(q.entries mshr).hasTargets then .error .noTargets
  else
    ((q.entries mshr).popTarget.mapError QueueErr.mshr).bind fun out =>
      if out.1.hasTargets then .ok (q.update mshr out.1, was_full && !q.isFull)
      else
        ((out.1.promoteDeferredTargets curTick).mapError QueueErr.mshr).bind fun out =>
          let q := q.update mshr out.1
          if out.2 then .ok (q, was_full && !q.isFull)
          else (q.deallocate mshr).map fun q => (q, was_full && !q.isFull)

end MshrQueue

/-! ## Runs -/

/-- What is done to the queue, and to an entry by others than the queue. -/
inductive QueueOp
  | allocate (blk_addr : Base.Addr) (blk_size : Nat) (pkt : TargetPacket) (when_ready order : Nat)
    (alloc_on_fill : Bool)
  | deallocate (mshr : Nat)
  | moveToFront (mshr : Nat)
  | delay (mshr delay_ticks : Nat)
  | markInService (mshr : Nat) (pending_modified_resp : Bool)
  | markPending (mshr : Nat)
  | forceDeallocateTarget (mshr : Nat)
  | edit (mshr : Nat) (op : MshrOp)
  deriving DecidableEq

namespace MshrQueue

/-- The operations of an entry that the queue does not leave to others. -/
def ofQueue : MshrOp → Bool
  | .allocate .. | .markInService _ | .markPending | .deallocate => true
  | _ => false

/-- One operation at a tick. -/
def apply (q : MshrQueue) (curTick : Nat) : QueueOp → Except QueueErr MshrQueue
  | .allocate blk_addr blk_size pkt when_ready order alloc_on_fill =>
    (q.allocate blk_addr blk_size pkt when_ready order alloc_on_fill).map Prod.fst
  | .deallocate mshr => q.deallocate mshr
  | .moveToFront mshr => q.moveToFront mshr
  | .delay mshr delay_ticks => q.delay curTick mshr delay_ticks
  | .markInService mshr pending_modified_resp => q.markInService mshr pending_modified_resp
  | .markPending mshr => q.markPending mshr
  | .forceDeallocateTarget mshr => (q.forceDeallocateTarget curTick mshr).map Prod.fst
  | .edit mshr op =>
    if ofQueue op then .ok q
    else ((Misses.apply (q.entries mshr) curTick op).mapError QueueErr.mshr).map fun out => q.update mshr out.1

/-- The entry of a call is allocated. `delay`, which the cache calls before it sends an entry, is for entries that are
not in service. -/
def onAllocated (q : MshrQueue) : QueueOp → Prop
  | .allocate .. | .edit .. => True
  | .delay mshr _ => mshr ∈ Node.vals q.allocatedList ∧ (q.entries mshr).inService = false
  | .deallocate mshr | .moveToFront mshr | .markInService mshr _ | .markPending mshr | .forceDeallocateTarget mshr =>
    mshr ∈ Node.vals q.allocatedList

end MshrQueue

/-- The runs of the queue. -/
def mshrQueue (num_entries reserve : Nat) : System MshrQueue (Nat × QueueOp) where
  init q := q = .start num_entries reserve
  step q e := (q.apply e.1 e.2).toOption

/-! ## The representation -/

namespace MshrQueue

/-- The lists, the counters and the stored iterators agree; there are `n` entries. -/
structure Represented (n : Nat) (q : MshrQueue) : Prop where
  size : q.numEntries = n
  /-- Every entry is in exactly one of the free list and the allocated list. -/
  perm : (q.freeList ++ Node.vals q.allocatedList).Perm (List.range n)
  alloc : Node.Points q.allocatedList q.allocIter q.nextNode
  ready : Node.Points q.readyList q.readyIter q.nextNode
  mem_ready : ∀ i, i ∈ Node.vals q.readyList ↔ i ∈ Node.vals q.allocatedList ∧ (q.entries i).inService = false
  idle : ∀ i, (q.entries i).inService = true → i ∈ Node.vals q.allocatedList
  allocated : q.allocated = q.allocatedList.length
  numInService : q.numInService = (Node.vals q.allocatedList).countP fun i => (q.entries i).inService

section Steps

variable {q q' : MshrQueue} {n i : Nat} {m : MSHR} {l : List (Node Nat)}

theorem represented_start (num_entries reserve : Nat) :
    Represented (num_entries + reserve) (.start num_entries reserve) where
  size := rfl
  perm := by simp [start, Node.vals]
  alloc := .nil fun _ => Nat.one_pos
  ready := .nil fun _ => Nat.one_pos
  mem_ready i := by simp [start, Node.vals]
  idle i h := absurd h (by simp [start, MSHR.start])
  allocated := rfl
  numInService := rfl

theorem of_eraseAt {l l' : List (Node Nat)} {it : Nat} (h : eraseAt l it = .ok l') : Node.erase l it = some l' := by
  rw [eraseAt] at h
  split at h
  · cases h
  · rename_i hl
    cases h
    exact hl

theorem inService_update (q : MshrQueue) (i : Nat) (m : MSHR) :
    (fun j => ((q.update i m).entries j).inService) =
    Function.update (fun j => (q.entries j).inService) i m.inService :=
  Function.comp_update MSHR.inService q.entries i m

theorem of_inService_update {j : Nat} (hm : m.inService = false)
    (hj : (Function.update q.entries i m j).inService = true) : j ≠ i ∧ (q.entries j).inService = true := by
  have hne : j ≠ i := by
    rintro rfl
    rw [Function.update_self, hm] at hj
    cases hj
  rw [Function.update_of_ne hne] at hj
  exact ⟨hne, hj⟩

/-- An entry changes, but not whether it is in service. -/
theorem Represented.update (h : Represented n q) (hm : m.inService = (q.entries i).inService) :
    Represented n (q.update i m) := by
  have hsame : (fun j => ((q.update i m).entries j).inService) = fun j => (q.entries j).inService := by
    rw [inService_update, hm]
    exact Function.update_eq_self i _
  have hj : ∀ j, ((q.update i m).entries j).inService = (q.entries j).inService := fun j => congrFun hsame j
  refine ⟨h.size, h.perm, h.alloc, h.ready, ?_, ?_, h.allocated, ?_⟩
  · intro j
    rw [hj]
    exact h.mem_ready j
  · intro j hin
    rw [hj] at hin
    exact h.idle j hin
  · rw [hsame]
    exact h.numInService

theorem Represented.idle_update {j : Nat} (h : Represented n q) (hi : i ∈ Node.vals q.allocatedList)
    (hj : (Function.update q.entries i m j).inService = true) : j ∈ Node.vals q.allocatedList := by
  by_cases hji : j = i
  · exact hji ▸ hi
  · rw [Function.update_of_ne hji] at hj
    exact h.idle j hj

/-- The new element is somewhere in the ready list. -/
theorem addToReadyList_perm (h : q.addToReadyList i = .ok l) : l.Perm (⟨q.nextNode, i⟩ :: q.readyList) := by
  rw [addToReadyList] at h
  split at h
  · cases h
    exact List.perm_append_comm
  · split at h
    · cases h
      exact List.perm_append_comm
    · split at h
      · cases h
      · rename_i hins
        cases h
        exact Node.insertBefore_perm hins

/-- There is always a place for it: the last element, at least, is ready later. -/
theorem addToReadyList_ok (q : MshrQueue) (i : Nat) : ∃ l, q.addToReadyList i = .ok l := by
  rw [addToReadyList]
  split
  · exact ⟨_, rfl⟩
  · rename_i back hback
    split
    · exact ⟨_, rfl⟩
    · rename_i hlate
      obtain ⟨l, hl⟩ := Node.insertBefore_of_mem (x := ⟨q.nextNode, i⟩)
        (p := fun j => (q.entries i).readyTime < (q.entries j.val).readyTime)
        (decide_eq_true (Nat.lt_of_not_le hlate)) (List.mem_of_getLast? hback)
      rw [hl]
      exact ⟨l, rfl⟩

theorem Represented.allocate {freeList : List Nat} (h : Represented n q) (hfree : q.freeList = i :: freeList)
    (hm : m.inService = false) (hadd : (q.allocateEntry i freeList m).addToReadyList i = .ok l) :
    Represented n { (q.allocateEntry i freeList m).setReady l i with allocated := q.allocated + 1 } := by
  have hperm : (i :: (freeList ++ Node.vals q.allocatedList)).Perm (List.range n) := by
    rw [← List.cons_append, ← hfree]
    exact h.perm
  have hnot : i ∉ Node.vals q.allocatedList := by
    have hnodup := List.nodup_cons.mp (hperm.nodup_iff.mpr List.nodup_range)
    exact fun hi => hnodup.1 (List.mem_append_right _ hi)
  have hready : i ∉ Node.vals q.readyList := fun hi => hnot ((h.mem_ready i).mp hi).1
  have hl := addToReadyList_perm hadd
  have hvals : Node.vals (q.allocatedList ++ [Node.mk q.nextNode i]) = Node.vals q.allocatedList ++ [i] := by
    simp [Node.vals]
  have hin : (fun j => (Function.update q.entries i m j).inService) =
      Function.update (fun j => (q.entries j).inService) i false := by
    rw [← hm]
    exact inService_update q i m
  constructor
  · exact h.size
  · show (freeList ++ Node.vals (q.allocatedList ++ [Node.mk q.nextNode i])).Perm (List.range n)
    rw [hvals, ← List.append_assoc]
    exact List.perm_append_comm.trans hperm
  · exact (h.alloc.insert hnot List.perm_append_comm).mono (Nat.le_succ _)
  · exact (h.ready.mono (Nat.le_succ _)).insert hready hl
  · intro j
    show j ∈ Node.vals l ↔ j ∈ Node.vals (q.allocatedList ++ [Node.mk q.nextNode i]) ∧ _
    rw [(Node.vals_perm hl).mem_iff, Node.mem_vals_cons, hvals, List.mem_append, List.mem_singleton]
    show j = i ∨ j ∈ Node.vals q.readyList ↔ _ ∧ (Function.update q.entries i m j).inService = false
    by_cases hj : j = i
    · simp [hj, hm]
    · rw [Function.update_of_ne hj, h.mem_ready]
      simp [hj]
  · intro j
    show (Function.update q.entries i m j).inService = true → j ∈ Node.vals (q.allocatedList ++ [Node.mk q.nextNode i])
    intro hj
    rw [hvals]
    exact List.mem_append_left _ (h.idle j (of_inService_update hm hj).2)
  · show q.allocated + 1 = ((q.allocatedList ++ [Node.mk q.nextNode i]).length : Int)
    rw [h.allocated, List.length_append]
    rfl
  · show q.numInService = ((Node.vals (q.allocatedList ++ [Node.mk q.nextNode i])).countP fun j =>
      (Function.update q.entries i m j).inService : Nat)
    rw [hin, hvals, List.countP_append, countP_update_of_not_mem false hnot, h.numInService]
    simp

/-- Whether it is in service or not, the entry is in the ready list no more. -/
theorem leave_ok (h : q.leave i = .ok q') (hready : Node.Points q.readyList q.readyIter q.nextNode)
    (hin : (q.entries i).inService = true → i ∉ Node.vals q.readyList) :
    ∃ l, q' = { q with readyList := l, numInService := q.numInService - ((q.entries i).inService.toNat : Int) } ∧
      Node.Points l q.readyIter q.nextNode ∧ ∀ j, j ∈ Node.vals l ↔ j ∈ Node.vals q.readyList ∧ j ≠ i := by
  rw [leave] at h
  split at h
  · rename_i hi
    cases h
    refine ⟨q.readyList, by rw [hi]; rfl, hready, fun j => ⟨fun hj => ⟨hj, ?_⟩, And.left⟩⟩
    rintro rfl
    exact hin hi hj
  · rename_i hi
    obtain ⟨l, hl, rfl⟩ := ok_of_map h
    have he := of_eraseAt hl
    refine ⟨l, ?_, (hready.erase he).2, (hready.mem_erase he).2⟩
    rw [Bool.not_eq_true] at hi
    rw [hi]
    simp

theorem Represented.deallocate (h : Represented n q) (hd : q.deallocate i = .ok q') : Represented n q' := by
  obtain ⟨l, hl, hd⟩ := ok_of_bind hd
  obtain ⟨q₁, hleave, hd⟩ := ok_of_bind hd
  obtain ⟨m, hm, rfl⟩ := ok_of_map hd
  have he := of_eraseAt hl
  obtain ⟨hperm, halloc⟩ := h.alloc.erase he
  have hmem' := (h.alloc.mem_erase he).2
  have hnot : i ∉ Node.vals l := fun hi => ((hmem' i).mp hi).2 rfl
  have hin : (q.entries i).inService = true → i ∉ Node.vals q.readyList := by
    intro hi hr
    rw [((h.mem_ready i).mp hr).2] at hi
    cases hi
  obtain ⟨r, rfl, hready, hrmem⟩ := leave_ok hleave h.ready hin
  have hm' : m.inService = false := (MSHR.deallocate_ok (ok_of_mapError hm)).1
  have hvals : (Node.vals q.allocatedList).Perm (i :: Node.vals l) := Node.vals_perm hperm
  have hserv : (fun j => (Function.update q.entries i m j).inService) =
      Function.update (fun j => (q.entries j).inService) i false := by
    rw [← hm']
    exact inService_update q i m
  constructor
  · exact h.size
  · show (i :: q.freeList ++ Node.vals l).Perm (List.range n)
    have hmid : (i :: (q.freeList ++ Node.vals l)).Perm (q.freeList ++ i :: Node.vals l) := List.perm_middle.symm
    exact (hmid.trans (hvals.symm.append_left _)).trans h.perm
  · exact halloc
  · exact hready
  · intro j
    show j ∈ Node.vals r ↔ j ∈ Node.vals l ∧ (Function.update q.entries i m j).inService = false
    rw [hrmem, hmem', h.mem_ready]
    by_cases hj : j = i
    · simp [hj]
    · rw [Function.update_of_ne hj]
      tauto
  · intro j
    show (Function.update q.entries i m j).inService = true → j ∈ Node.vals l
    intro hj
    obtain ⟨hne, hold⟩ := of_inService_update hm' hj
    exact (hmem' j).mpr ⟨h.idle j hold, hne⟩
  · show q.allocated - 1 = (l.length : Int)
    rw [h.allocated, hperm.length_eq]
    simp
  · show q.numInService - ((q.entries i).inService.toNat : Int) = ((Node.vals l).countP fun j =>
      (Function.update q.entries i m j).inService : Nat)
    rw [hserv, countP_update_of_not_mem false hnot, h.numInService, hvals.countP_eq, List.countP_cons]
    cases (q.entries i).inService <;> simp

theorem Represented.markInService {b : Bool} (h : Represented n q) (hd : q.markInService i b = .ok q') :
    Represented n q' := by
  obtain ⟨m, hm, hd⟩ := ok_of_bind hd
  obtain ⟨l, hl, rfl⟩ := ok_of_map hd
  have he := of_eraseAt hl
  obtain ⟨hmem, hmem'⟩ := h.ready.mem_erase he
  obtain ⟨hout, hin, -⟩ := MSHR.markInService_ok (ok_of_mapError hm)
  have halloc := ((h.mem_ready i).mp hmem).1
  constructor
  · exact h.size
  · exact h.perm
  · exact h.alloc
  · exact (h.ready.erase he).2
  · intro j
    show j ∈ Node.vals l ↔ j ∈ Node.vals q.allocatedList ∧ (Function.update q.entries i m j).inService = false
    rw [hmem', h.mem_ready]
    by_cases hj : j = i
    · simp [hj, hin]
    · simp [hj]
  · exact fun j hj => h.idle_update halloc hj
  · exact h.allocated
  · show q.numInService + 1 = ((Node.vals q.allocatedList).countP fun j => ((q.update i m).entries j).inService : Nat)
    have hcount := countP_update (f := fun j => (q.entries j).inService) true h.alloc.nodup halloc
    rw [inService_update, hin, h.numInService]
    rw [hout] at hcount
    simp only [Bool.toNat_false, Nat.add_zero, Bool.toNat_true] at hcount
    rw [hcount]
    rfl

theorem Represented.markPending (h : Represented n q) (hd : q.markPending i = .ok q') : Represented n q' := by
  rw [MshrQueue.markPending] at hd
  split at hd
  · cases hd
  · rename_i hin
    obtain ⟨l, hl, rfl⟩ := ok_of_map hd
    have hin : (q.entries i).inService = true := by simpa using hin
    have halloc := h.idle i hin
    have hready : i ∉ Node.vals q.readyList := by
      intro hi
      rw [((h.mem_ready i).mp hi).2] at hin
      cases hin
    have hperm := addToReadyList_perm hl
    constructor
    · exact h.size
    · exact h.perm
    · exact h.alloc.mono (Nat.le_succ _)
    · exact h.ready.insert hready hperm
    · intro j
      show j ∈ Node.vals l ↔ j ∈ Node.vals q.allocatedList ∧
        (Function.update q.entries i { q.entries i with inService := false } j).inService = false
      rw [(Node.vals_perm hperm).mem_iff, Node.mem_vals_cons]
      show j = i ∨ j ∈ Node.vals q.readyList ↔ _
      rw [h.mem_ready]
      by_cases hj : j = i
      · simp [hj, halloc]
      · simp [hj]
    · exact fun j hj => h.idle_update halloc hj
    · exact h.allocated
    · show q.numInService - 1 = ((Node.vals q.allocatedList).countP fun j =>
        ((q.update i { q.entries i with inService := false }).entries j).inService : Nat)
      have hcount := countP_update (f := fun j => (q.entries j).inService) false h.alloc.nodup halloc
      rw [inService_update, h.numInService]
      rw [hin] at hcount
      simp only [Bool.toNat_true, Bool.toNat_false, Nat.add_zero] at hcount
      push_cast
      omega

theorem Represented.moveToFront (h : Represented n q) (hd : q.moveToFront i = .ok q') : Represented n q' := by
  rw [MshrQueue.moveToFront] at hd
  split at hd
  · cases hd
    exact h
  · split at hd
    · cases hd
    · split at hd
      · cases hd
      · obtain ⟨l, hl, rfl⟩ := ok_of_map hd
        have he := of_eraseAt hl
        obtain ⟨hmem, hmem'⟩ := h.ready.mem_erase he
        have hnot : i ∉ Node.vals l := fun hi => ((hmem' i).mp hi).2 rfl
        refine ⟨h.size, h.perm, h.alloc.mono (Nat.le_succ _), (h.ready.erase he).2.insert hnot (.refl _), ?_, h.idle,
          h.allocated, h.numInService⟩
        intro j
        show j ∈ Node.vals (⟨q.nextNode, i⟩ :: l) ↔ j ∈ Node.vals q.allocatedList ∧ (q.entries j).inService = false
        rw [Node.mem_vals_cons, hmem', ← h.mem_ready]
        by_cases hj : j = i
        · simp [hj, hmem]
        · simp [hj]

/-- The search of `delay` finds the entry itself, so the ready list stays as it is. -/
theorem splice_self {iter : Nat → Nat} {next : Nat} {p : Node Nat → Bool} (h : Node.Points l iter next)
    (hi : i ∈ Node.vals l)
    (hp : ∀ n : Node Nat, n.val = i → p n = true) :
    Node.splice l (((l.dropWhile fun n => n.id ≠ iter i).find? p).map (·.id)) (iter i) = some l := by
  have hfind := h.find_of_mem hi
  have hpos : ((l.dropWhile fun n => n.id ≠ iter i).find? p).map (·.id) = some (iter i) := by
    rw [List.find?_eq_head?_dropWhile_not] at hfind
    simp only [decide_not, ne_eq] at hfind ⊢
    obtain ⟨ms, hms⟩ := List.head?_eq_some_iff.mp hfind
    rw [hms, List.find?_cons_of_pos (hp _ rfl), Option.map_some]
  rw [Node.splice, hfind, hpos]
  exact if_pos rfl

/-- **`delay` changes the time of an entry and not its place.** -/
theorem delay_eq {curTick delay_ticks : Nat} (h : Represented n q)
    (hd : q.delay curTick i delay_ticks = .ok q') : i ∈ Node.vals q.readyList ∧ (q.entries i).readyTime ≤ curTick ∧
      q' = q.update i { q.entries i with readyTime := curTick + delay_ticks } := by
  obtain ⟨m, hm, hd⟩ := ok_of_bind hd
  have hm := ok_of_mapError hm
  rw [MSHR.delay] at hm
  split at hm
  · cases hm
  · rename_i htime
    cases hm
    dsimp only at hd
    split at hd
    · cases hd
    · rename_i l hl
      cases hd
      obtain ⟨k, hk, hid⟩ := Node.mem_of_splice hl
      have hi : i ∈ Node.vals q.readyList := h.ready.own i k hk hid.symm ▸ List.mem_map_of_mem hk
      have hself := splice_self h.ready hi fun j hj => (hj ▸ decide_eq_true (Nat.le_refl _) :
        decide (((q.update i { q.entries i with readyTime := curTick + delay_ticks }).entries j.val).readyTime ≤
          ((q.update i { q.entries i with readyTime := curTick + delay_ticks }).entries i).readyTime) = true)
      refine ⟨hi, by omega, ?_⟩
      rw [show l = q.readyList from Option.some.inj (hl.symm.trans hself)]
      rfl

theorem Represented.delay {curTick delay_ticks : Nat} (h : Represented n q)
    (hd : q.delay curTick i delay_ticks = .ok q') : Represented n q' := by
  obtain ⟨-, -, rfl⟩ := delay_eq h hd
  exact h.update rfl

end Steps

/-! ### What leaves an entry in service -/

section InService

variable {m m' : MSHR} {curTick : Nat}

/-- Only the queue puts an entry in service, or takes it out. -/
theorem inService_apply {op : MshrOp} {ready : List Target} (hop : ofQueue op = false)
    (h : Misses.apply m curTick op = .ok (m', ready)) : m'.inService = m.inService := by
  cases op with
  | allocate | markInService | markPending | deallocate => exact absurd hop (by simp [ofQueue])
  | allocateTarget pkt whenReady order alloc_on_fill =>
    obtain ⟨m₁, hm, heq⟩ := ok_of_map h
    cases heq
    exact (MSHR.allocateTarget_ok hm).1
  | handleSnoop pkt order =>
    obtain ⟨⟨m₁, pkt', b⟩, hm, heq⟩ := ok_of_map h
    cases heq
    exact (MSHR.handleSnoop_ok hm).1
  | extractServiceableTargets cmd =>
    obtain ⟨⟨m₁, ready'⟩, hm, heq⟩ := ok_of_map h
    cases heq
    exact (MSHR.extractServiceableTargets_ok hm).1
  | promoteDeferredTargets =>
    obtain ⟨⟨m₁, b⟩, hm, heq⟩ := ok_of_map h
    cases heq
    exact (MSHR.promoteDeferredTargets_ok hm).1
  | promoteReadable =>
    obtain ⟨m₁, hm, heq⟩ := ok_of_map h
    cases heq
    exact (MSHR.promoteReadable_ok hm).1
  | promoteWritable =>
    obtain ⟨m₁, hm, heq⟩ := ok_of_map h
    cases heq
    exact (MSHR.promoteWritable_ok hm).1
  | popTarget =>
    obtain ⟨⟨m₁, t⟩, hm, heq⟩ := ok_of_map h
    cases heq
    exact (MSHR.popTarget_ok hm).1
  | downstreamPending =>
    simp only [Misses.apply] at h
    split at h
    · cases h
    · cases h
      rfl
  | clearDownstreamPending =>
    obtain ⟨m₁, hm, heq⟩ := ok_of_map h
    cases heq
    exact (MSHR.clearDownstreamPending_ok hm).1
  | forward isForward =>
    cases h
    rfl

end InService

/-! ### Every operation -/

section Apply

variable {q q' : MshrQueue} {n i curTick : Nat}

theorem Represented.forceDeallocateTarget {b : Bool} (h : Represented n q)
    (hd : q.forceDeallocateTarget curTick i = .ok (q', b)) : Represented n q' := by
  rw [MshrQueue.forceDeallocateTarget] at hd
  split at hd
  · cases hd
  · obtain ⟨⟨m, t⟩, hpop, hd⟩ := ok_of_bind hd
    have hm := (MSHR.popTarget_ok (ok_of_mapError hpop)).1
    split at hd
    · cases hd
      exact h.update hm
    · obtain ⟨⟨m', promoted⟩, hpromote, hd⟩ := ok_of_bind hd
      have hm' := (MSHR.promoteDeferredTargets_ok (ok_of_mapError hpromote)).1.trans hm
      split at hd
      · cases hd
        exact h.update hm'
      · obtain ⟨q₁, hq₁, heq⟩ := ok_of_map hd
        cases heq
        exact (h.update hm').deallocate hq₁

theorem Represented.allocateOk {blk_addr : Base.Addr} {blk_size : Nat} {pkt : TargetPacket} {when_ready order : Nat}
    {alloc_on_fill : Bool} (h : Represented n q)
    (hd : q.allocate blk_addr blk_size pkt when_ready order alloc_on_fill = .ok (q', i)) : Represented n q' := by
  rw [MshrQueue.allocate] at hd
  split at hd
  · cases hd
  · rename_i mshr freeList hfree
    split at hd
    · cases hd
    · obtain ⟨l, hl, heq⟩ := ok_of_map hd
      cases heq
      exact h.allocate hfree rfl hl

/-- **The step**: every operation keeps the representation. -/
theorem Represented.apply {op : QueueOp} (h : Represented n q) (hd : q.apply curTick op = .ok q') :
    Represented n q' := by
  cases op with
  | allocate blk_addr blk_size pkt when_ready order alloc_on_fill =>
    obtain ⟨⟨q₁, mshr⟩, hq₁, rfl⟩ := ok_of_map hd
    exact h.allocateOk hq₁
  | deallocate mshr => exact h.deallocate hd
  | moveToFront mshr => exact h.moveToFront hd
  | delay mshr delay_ticks => exact h.delay hd
  | markInService mshr pending_modified_resp => exact h.markInService hd
  | markPending mshr => exact h.markPending hd
  | forceDeallocateTarget mshr =>
    obtain ⟨⟨q₁, b⟩, hq₁, rfl⟩ := ok_of_map hd
    exact h.forceDeallocateTarget hq₁
  | edit mshr op =>
    rw [MshrQueue.apply] at hd
    split at hd
    · cases hd
      exact h
    · rename_i hop
      obtain ⟨⟨m, ready⟩, hm, rfl⟩ := ok_of_map hd
      exact h.update (inService_apply (Bool.eq_false_iff.mpr hop) (ok_of_mapError hm))

end Apply

/-! ### What stops an operation -/

section Errors

variable {α β : Type*} {x : Except QueueErr α} {q : MshrQueue} {n i curTick : Nat}

/-- A call can only fail an assertion on an entry or on its arguments. -/
def Safe (x : Except QueueErr α) : Prop := ∀ e, x = .error e → e.onCall = true

theorem safe_ok (a : α) : Safe (.ok a) := fun _ h => by cases h

theorem safe_error {e : QueueErr} (h : e.onCall = true) : Safe (.error e : Except QueueErr α) := by
  intro e' he
  cases he
  exact h

theorem safe_mapError (x : Except MshrErr α) : Safe (x.mapError QueueErr.mshr) := by
  cases x with
  | error e => exact safe_error rfl
  | ok a => exact safe_ok a

theorem Safe.bind {f : α → Except QueueErr β} (hx : Safe x) (hf : ∀ a, x = .ok a → Safe (f a)) : Safe (x.bind f) := by
  cases x with
  | error e => exact fun e' h => hx e' (congrArg _ (Except.error.inj h))
  | ok a => exact hf a rfl

theorem Safe.map {f : α → β} (hx : Safe x) : Safe (x.map f) := by
  cases x with
  | error e => exact fun e' h => hx e' (congrArg _ (Except.error.inj h))
  | ok a => exact safe_ok (f a)

theorem safe_eraseAt {l : List (Node Nat)} {iter : Nat → Nat} {next : Nat} (h : Node.Points l iter next)
    (hi : i ∈ Node.vals l) : Safe (eraseAt l (iter i)) := by
  obtain ⟨l', hl'⟩ := h.erase_of_mem hi
  rw [eraseAt, hl']
  exact safe_ok l'

theorem safe_addToReadyList (q : MshrQueue) (i : Nat) : Safe (q.addToReadyList i) := by
  obtain ⟨l, hl⟩ := addToReadyList_ok q i
  rw [hl]
  exact safe_ok l

section

variable (h : Represented n q) (hi : i ∈ Node.vals q.allocatedList)
include h hi

theorem Represented.ready_of_alloc (hin : (q.entries i).inService = false) :
    i ∈ Node.vals q.readyList := (h.mem_ready i).mpr ⟨hi, hin⟩

theorem Represented.safe_deallocate : Safe (q.deallocate i) := by
  apply Safe.bind (safe_eraseAt h.alloc hi)
  intro l hl
  apply Safe.bind
  · unfold leave
    split
    · exact safe_ok _
    · rename_i hin
      exact (safe_eraseAt h.ready (h.ready_of_alloc hi (Bool.eq_false_iff.mpr hin))).map
  · exact fun q _ => (safe_mapError _).map

theorem Represented.safe_moveToFront : Safe (q.moveToFront i) := by
  unfold MshrQueue.moveToFront
  split
  · exact safe_ok q
  · rename_i hin
    have hready := h.ready_of_alloc hi (Bool.eq_false_iff.mpr hin)
    rw [h.ready.deref_of_mem hready]
    dsimp only
    rw [if_neg (not_not.mpr rfl)]
    exact (safe_eraseAt h.ready hready).map

end

theorem Represented.safe_delay {delay_ticks : Nat} (h : Represented n q) (hi : i ∈ Node.vals q.readyList) :
    Safe (q.delay curTick i delay_ticks) := by
  apply Safe.bind (safe_mapError _)
  intro m hm
  have hself := splice_self h.ready hi fun j hj => (hj ▸ decide_eq_true (Nat.le_refl _) :
    decide (((q.update i m).entries j.val).readyTime ≤ ((q.update i m).entries i).readyTime) = true)
  dsimp only
  split
  · rename_i hnone
    cases hself.symm.trans hnone
  · exact safe_ok _

theorem Represented.safe_markInService {b : Bool} (h : Represented n q) (hi : i ∈ Node.vals q.allocatedList) :
    Safe (q.markInService i b) := by
  apply Safe.bind (safe_mapError _)
  intro m hm
  have hin := (MSHR.markInService_ok (ok_of_mapError hm)).1
  exact (safe_eraseAt h.ready (h.ready_of_alloc hi hin)).map

theorem safe_markPending (q : MshrQueue) (i : Nat) : Safe (q.markPending i) := by
  unfold MshrQueue.markPending
  split
  · exact safe_error rfl
  · exact (safe_addToReadyList _ i).map

theorem Represented.safe_forceDeallocateTarget (h : Represented n q) (hi : i ∈ Node.vals q.allocatedList) :
    Safe (q.forceDeallocateTarget curTick i) := by
  unfold MshrQueue.forceDeallocateTarget
  split
  · exact safe_error rfl
  · apply Safe.bind (safe_mapError _)
    rintro ⟨m, t⟩ hpop
    have hm := (MSHR.popTarget_ok (ok_of_mapError hpop)).1
    split
    · exact safe_ok _
    · apply Safe.bind (safe_mapError _)
      rintro ⟨m', promoted⟩ hpromote
      have hm' := (MSHR.promoteDeferredTargets_ok (ok_of_mapError hpromote)).1.trans hm
      split
      · exact safe_ok _
      · exact ((h.update hm').safe_deallocate hi).map

theorem safe_allocate (q : MshrQueue) (blk_addr : Base.Addr) (blk_size : Nat) (pkt : TargetPacket)
    (when_ready order : Nat) (alloc_on_fill : Bool) :
    Safe (q.allocate blk_addr blk_size pkt when_ready order alloc_on_fill) := by
  unfold MshrQueue.allocate
  split
  · exact safe_error rfl
  · split
    · exact safe_error rfl
    · exact (safe_addToReadyList _ _).map

/-- On an allocated entry, no operation follows an iterator that dangles, and the new place in the ready list is
found. -/
theorem Represented.safe {op : QueueOp} (h : Represented n q) (hop : q.onAllocated op) : Safe (q.apply curTick op) := by
  cases op with
  | allocate blk_addr blk_size pkt when_ready order alloc_on_fill =>
    exact Safe.map (safe_allocate q blk_addr blk_size pkt when_ready order alloc_on_fill)
  | deallocate mshr => exact h.safe_deallocate hop
  | moveToFront mshr => exact h.safe_moveToFront hop
  | delay mshr delay_ticks => exact h.safe_delay (h.ready_of_alloc hop.1 hop.2)
  | markInService mshr pending_modified_resp => exact h.safe_markInService hop
  | markPending mshr => exact safe_markPending q mshr
  | forceDeallocateTarget mshr => exact (h.safe_forceDeallocateTarget hop).map
  | edit mshr op =>
    rw [MshrQueue.apply]
    split
    · exact safe_ok q
    · exact (safe_mapError _).map

end Errors

/-! ### Every run -/

theorem represented_reachable {num_entries reserve : Nat} {q : MshrQueue}
    (h : (mshrQueue num_entries reserve).Reachable q) : Represented (num_entries + reserve) q := by
  refine System.invariantWhen (I := Represented (num_entries + reserve)) ?_ ?_ h
  · rintro q rfl
    exact represented_start num_entries reserve
  · intro q e q' _ hq _ hstep
    exact hq.apply (ok_of_toOption hstep)

/-- A queue that is not full has a free entry, whatever the reserve. -/
theorem Represented.free_of_not_full {n : Nat} {q : MshrQueue} (h : Represented n q) (hfull : q.isFull = false) :
    q.freeList ≠ [] := by
  intro hnil
  have hlen := h.perm.length_eq
  rw [hnil, List.nil_append, List.length_range, Node.vals, List.length_map] at hlen
  have hroom := of_decide_eq_false hfull
  have hsize := h.size
  have halloc := h.allocated
  omega

/-- **The representation of the queue**: every entry is in one of the free list and the allocated list, and once; the
ready list holds, once, every allocated entry that is not in service; the two counters are right; the stored iterators
point at their entries. So, for entries that are allocated, no operation follows an iterator that dangles. -/
theorem queue_represented {num_entries reserve : Nat} {q : MshrQueue}
    (h : (mshrQueue num_entries reserve).Reachable q) :
    (q.freeList ++ Node.vals q.allocatedList).Perm (List.range (num_entries + reserve)) ∧
      ((Node.vals q.readyList).Nodup ∧
        ∀ i, i ∈ Node.vals q.readyList ↔ i ∈ Node.vals q.allocatedList ∧ (q.entries i).inService = false) ∧
      q.allocated = q.allocatedList.length ∧
      q.numInService = (Node.vals q.allocatedList).countP (fun i => (q.entries i).inService) ∧
      (∀ i ∈ Node.vals q.allocatedList, Node.deref q.allocatedList (q.allocIter i) = some i) ∧
      (∀ i ∈ Node.vals q.readyList, Node.deref q.readyList (q.readyIter i) = some i) ∧
      (q.isFull = false → q.freeList ≠ []) ∧
      ∀ curTick op e, q.onAllocated op → q.apply curTick op = .error e → e.onCall = true := by
  have hrep := represented_reachable h
  refine ⟨hrep.perm, ⟨hrep.ready.nodup, hrep.mem_ready⟩, hrep.allocated, hrep.numInService, ?_, ?_,
    hrep.free_of_not_full, ?_⟩
  · exact fun i hi => hrep.alloc.deref_of_mem hi
  · exact fun i hi => hrep.ready.deref_of_mem hi
  · exact fun curTick op e hop herr => hrep.safe hop e herr

/-- Three misses are allocated; one is sent and marked as pending again, one goes. -/
theorem queue_represented_three : ∃ q, (mshrQueue 2 1).Reachable q ∧ q.freeList = [1] ∧
    Node.vals q.readyList = [0, 2] ∧ (q.freeList ++ Node.vals q.allocatedList).Perm (List.range 3) := by
  obtain ⟨q, hq, hfree, hready⟩ := System.reachable_of_replay (S := mshrQueue 2 1)
    (show (mshrQueue 2 1).init (start 2 1) from rfl)
    [(0, .allocate 0 64 (Misses.missPacket 1 .ReadReq) 5 0 true),
      (1, .allocate 64 64 (Misses.missPacket 2 .HardPFReq) 3 1 true),
      (2, .allocate 128 64 (Misses.missPacket 3 .WriteReq) 4 2 true),
      (5, .markInService 0 false), (6, .moveToFront 2), (7, .delay 2 4), (8, .forceDeallocateTarget 1),
      (9, .markPending 0)]
    (fun q => q.freeList = [1] ∧ Node.vals q.readyList = [0, 2]) (by decide +kernel)
  exact ⟨q, hq, hfree, hready, (queue_represented hq).1⟩

end MshrQueue

end Salam.Mem
