import Mathlib.Algebra.Order.Ring.Int
import Salam.Lib.Heap
import Salam.Lib.System

/-!
# The message buffer of Ruby

`MessageBuffer`: a binary heap of messages, the first one to arrive at its front, and the lists of the stalled messages
of each line. `areNSlotsAvailable` goes by the sizes that were sampled before the first pop of the tick, so that a pop
makes room from the next tick on only.

A message is its `Message` object, which one buffer holds at a time. A failed assertion ends the simulation, and so does
an `int` that overflows here. Ticks and `m_msg_counter` are 64-bit numbers that do not run out.
-/

namespace Salam.Ruby

namespace MessageBuffer

/-- The assertions and the `panic` of the buffer, and an overflow of `m_stall_map_size`. -/
inductive Err
  | delta
  | arrivalTime
  | fifoViolated
  | dequeuedEarly
  | notReady
  | offset
  | notStalled
  | stallMapSize
  | requeue
  | overflow
  deriving DecidableEq

end MessageBuffer

open MessageBuffer (Err)

/-! ## Messages -/

structure Message where
  m_time : Nat
  m_LastEnqueueTime : Nat
  m_DelayedTicks : Nat
  m_msg_counter : Nat
  deriving DecidableEq

namespace Message

def updateDelayedTicks (m : Message) (curTime : Nat) : Message :=
  { m with m_DelayedTicks := m.m_DelayedTicks + (curTime - m.m_LastEnqueueTime) }

/-- `setLastEnqueueTime` -/
def arrivingAt (m : Message) (time : Nat) : Message := { m with m_LastEnqueueTime := time }

/-- `operator>` -/
def gt (l r : Message) : Bool :=
  if l.m_LastEnqueueTime = r.m_LastEnqueueTime then r.m_msg_counter < l.m_msg_counter
  else r.m_LastEnqueueTime < l.m_LastEnqueueTime

theorem gt_eq_false {l r : Message} : l.gt r = false ↔
    l.m_LastEnqueueTime < r.m_LastEnqueueTime ∨
      l.m_LastEnqueueTime = r.m_LastEnqueueTime ∧ l.m_msg_counter ≤ r.m_msg_counter := by
  rw [gt]
  split
  · rw [decide_eq_false_iff_not]
    omega
  · rw [decide_eq_false_iff_not]
    omega

theorem gt_eq_true {l r : Message} : l.gt r = true ↔
    r.m_LastEnqueueTime < l.m_LastEnqueueTime ∨
      l.m_LastEnqueueTime = r.m_LastEnqueueTime ∧ r.m_msg_counter < l.m_msg_counter := by
  rw [← Bool.not_eq_false, gt_eq_false]
  omega

theorem weak_gt : Heap.Weak gt where
  asymm h := by
    rw [gt_eq_true] at h
    rw [gt_eq_false]
    omega
  trans h₁ h₂ := by
    rw [gt_eq_false] at h₁ h₂ ⊢
    omega

end Message

/-! ## The buffer -/

/-- The parameters of a buffer, and those of the `RubySystem` that it looks at. -/
structure Params where
  m_max_size : Nat
  m_strict_fifo : Bool
  m_randomization : Bool
  getRandomization : Bool
  getBlockSizeBits : Nat
  max_lt : m_max_size < 2 ^ 32

structure MessageBuffer where
  m_prio_heap : Array Message
  /-- The `std::map` in the order of its keys. -/
  m_stall_msg_map : List (Nat × List Message)
  m_stall_map_size : Int
  m_time_last_time_enqueue : Nat
  m_time_last_time_pop : Nat
  m_last_arrival_time : Nat
  m_size_at_cycle_start : Nat
  m_stalled_at_cycle_start : Nat
  m_msgs_this_cycle : Nat
  m_msg_counter : Nat
  deriving DecidableEq

/-- The draws of `random_time`: `random(0, 3)`, whether `random(0, 7)` is zero and `random(1, 15)`. -/
structure Draws where
  first : Fin 4
  long : Bool
  second : Fin 15
  deriving DecidableEq

def random_time (draws : Draws) : Nat :=
  1 + draws.first + if draws.long then 100 + (draws.second + 1) else 0

/-- `getOffset`, of a 64-bit address: `bitSelect` of the bits up to `getBlockSizeBits() - 1`, an `unsigned` number. -/
def getOffset (p : Params) (addr : Nat) : Nat :=
  if p.getBlockSizeBits = 0 ∨ 64 ≤ p.getBlockSizeBits then addr else addr % 2 ^ p.getBlockSizeBits

namespace MessageBuffer

variable (p : Params) (b : MessageBuffer)

/-- The constructor. -/
def empty : MessageBuffer :=
  { m_prio_heap := #[]
    m_stall_msg_map := []
    m_stall_map_size := 0
    m_time_last_time_enqueue := 0
    m_time_last_time_pop := 0
    m_last_arrival_time := 0
    m_size_at_cycle_start := 0
    m_stalled_at_cycle_start := 0
    m_msgs_this_cycle := 0
    m_msg_counter := 0 }

/-- `m_stall_map_size`, as an `unsigned int`. -/
def stallMapSize : Nat := (b.m_stall_map_size % 2 ^ 32).toNat

/-- `current_size` of `areNSlotsAvailable`. -/
def currentSize (current_time : Nat) : Nat :=
  if b.m_time_last_time_pop < current_time then b.m_prio_heap.size % 2 ^ 32
  else if b.m_time_last_time_enqueue < current_time then b.m_size_at_cycle_start
  else (b.m_size_at_cycle_start + b.m_msgs_this_cycle) % 2 ^ 32

/-- `current_stall_size` of `areNSlotsAvailable`. -/
def currentStallSize (current_time : Nat) : Nat :=
  if b.m_time_last_time_pop < current_time then b.stallMapSize else b.m_stalled_at_cycle_start

def areNSlotsAvailable (n : UInt32) (current_time : Nat) : Bool :=
  p.m_max_size = 0 || (b.currentSize current_time + b.currentStallSize current_time + n.toNat) % 2 ^ 32 ≤ p.m_max_size

/-- `m_last_arrival_time`, as the random delays of a strict FIFO move it. -/
def lastArrivalTime (current_time : Nat) : Nat :=
  if (p.getRandomization || p.m_randomization) && p.m_strict_fifo then max b.m_last_arrival_time current_time
  else b.m_last_arrival_time

/-- `arrival_time` of `enqueue`. -/
def arrivalTime (current_time delta : Nat) (draws : Draws) : Nat :=
  if !p.getRandomization && !p.m_randomization then current_time + delta
  else if p.m_strict_fifo then b.lastArrivalTime p current_time + random_time draws
  else current_time + random_time draws

/-- The message, at the end of `enqueue`. -/
def entered (message : Message) (current_time arrival_time : Nat) : Message :=
  { (message.updateDelayedTicks current_time).arrivingAt arrival_time with m_msg_counter := b.m_msg_counter + 1 }

/-- The buffer, at the end of `enqueue`. `warmup` is `RubySystem::getWarmupEnabled()`. -/
def enqueued (message : Message) (current_time arrival_time : Nat) (warmup : Bool) : MessageBuffer :=
  { b with
    m_prio_heap := Heap.pushHeap Message.gt (b.m_prio_heap.push (b.entered message current_time arrival_time))
    m_time_last_time_enqueue := max b.m_time_last_time_enqueue current_time
    m_last_arrival_time := if !warmup then arrival_time else b.lastArrivalTime p current_time
    m_msgs_this_cycle := ((if b.m_time_last_time_enqueue < current_time then 0 else b.m_msgs_this_cycle) + 1) % 2 ^ 32
    m_msg_counter := b.m_msg_counter + 1 }

def enqueue (message : Message) (current_time delta : Nat) (draws : Draws) (warmup : Bool) : Except Err MessageBuffer :=
  if ¬ 0 < delta then .error .delta
  else if ¬ current_time < b.arrivalTime p current_time delta draws then .error .arrivalTime
  else if p.m_strict_fifo = true ∧ b.arrivalTime p current_time delta draws < b.lastArrivalTime p current_time then
    .error .fifoViolated
  else if ¬ message.m_LastEnqueueTime ≤ current_time then .error .dequeuedEarly
  else .ok (b.enqueued p message current_time (b.arrivalTime p current_time delta draws) warmup)

def isReady (current_time : Nat) : Bool := b.m_prio_heap[0]?.any fun m => m.m_LastEnqueueTime ≤ current_time

/-- The sizes before the first pop of a tick. -/
def sampled (current_time : Nat) : MessageBuffer :=
  if b.m_time_last_time_pop < current_time then
    { b with
      m_size_at_cycle_start := b.m_prio_heap.size % 2 ^ 32
      m_stalled_at_cycle_start := b.stallMapSize
      m_time_last_time_pop := current_time }
  else b

/-- The buffer without its front message. -/
def popped : MessageBuffer := { b with m_prio_heap := (Heap.popHeap Message.gt b.m_prio_heap).pop }

/-- The front message, with the delay that is returned, and the buffer without it. -/
def dequeue (current_time : Nat) : Except Err (Message × MessageBuffer) :=
  match b.m_prio_heap[0]? with
  | some message =>
    if b.isReady current_time then .ok (message.updateDelayedTicks current_time, (b.sampled current_time).popped)
    else .error .notReady
  | none => .error .notReady

def recycle (current_time recycle_latency : Nat) : Except Err MessageBuffer :=
  match b.m_prio_heap[0]? with
  | some node =>
    if b.isReady current_time then
      .ok { b with
        m_prio_heap := Heap.pushHeap Message.gt
          (b.popped.m_prio_heap.push (node.arrivingAt (current_time + recycle_latency))) }
    else .error .notReady
  | none => .error .notReady

/-- `m_stall_msg_map[addr].push_back(message)` -/
def pushStalled (addr : Nat) (message : Message) : List (Nat × List Message) → List (Nat × List Message)
  | [] => [(addr, [message])]
  | (a, lt) :: map =>
    if addr = a then (a, lt ++ [message]) :: map
    else if addr < a then (addr, [message]) :: (a, lt) :: map
    else (a, lt) :: pushStalled addr message map

def stallMessage (addr current_time : Nat) : Except Err (Message × MessageBuffer) :=
  if ¬ b.isReady current_time then .error .notReady
  else if ¬ getOffset p addr = 0 then .error .offset
  else (b.dequeue current_time).bind fun r =>
    if ¬ r.2.m_stall_map_size < 2 ^ 31 - 1 then .error .overflow
    else .ok (r.1, { r.2 with
      m_stall_msg_map := pushStalled addr r.1 r.2.m_stall_msg_map
      m_stall_map_size := r.2.m_stall_map_size + 1 })

def reanalyzeList (schdTick : Nat) : Array Message → List Message → Except Err (Array Message)
  | heap, [] => .ok heap
  | heap, m :: lt =>
    if ¬ m.m_LastEnqueueTime ≤ schdTick then .error .requeue
    else reanalyzeList schdTick (Heap.pushHeap Message.gt (heap.push m)) lt

/-- What `reanalyzeMessages` and each round of `reanalyzeAllMessages` do with a list of the stall map. -/
def reanalyze (current_time : Nat) (b : MessageBuffer) (lt : List Message) : Except Err MessageBuffer :=
  if b.m_stall_map_size - lt.length < 0 then .error .stallMapSize
  else (reanalyzeList current_time b.m_prio_heap lt).map fun heap =>
    { b with m_prio_heap := heap, m_stall_map_size := b.m_stall_map_size - lt.length }

def reanalyzeMessages (addr current_time : Nat) : Except Err MessageBuffer :=
  match b.m_stall_msg_map.find? fun e => e.1 = addr with
  | none => .error .notStalled
  | some e => (b.reanalyze current_time e.2).map fun b =>
    { b with m_stall_msg_map := b.m_stall_msg_map.eraseP fun e => e.1 = addr }

def reanalyzeAllMessages (current_time : Nat) : Except Err MessageBuffer :=
  (b.m_stall_msg_map.foldlM (fun b e => reanalyze current_time b e.2) b).map fun b => { b with m_stall_msg_map := [] }

/-- The messages of the stall map. -/
def stalled : List Message := b.m_stall_msg_map.flatMap (·.2)

/-- The messages that the buffer holds. -/
def size : Nat := b.m_prio_heap.size + b.stalled.length

/-! ## What the operations do -/

variable {p b} {b' : MessageBuffer} {message m : Message} {t delta addr latency : Nat} {draws : Draws} {warmup : Bool}
  {lt : List Message}

theorem enqueue_spec (h : b.enqueue p message t delta draws warmup = .ok b') : t < b.arrivalTime p t delta draws ∧
    (p.m_strict_fifo = true → b.lastArrivalTime p t ≤ b.arrivalTime p t delta draws) ∧
    b' = b.enqueued p message t (b.arrivalTime p t delta draws) warmup := by
  obtain ⟨-, h⟩ := ok_of_guard h
  obtain ⟨harrival, h⟩ := ok_of_guard h
  obtain ⟨hfifo, h⟩ := ok_of_guard h
  obtain ⟨-, h⟩ := ok_of_guard h
  exact ⟨not_not.mp harrival, fun hs => not_lt.mp fun hlt => hfifo ⟨hs, hlt⟩, (Except.ok.inj h).symm⟩

theorem enqueued_perm {arrival : Nat} (h : b' = b.enqueued p message t arrival warmup) :
    b'.m_prio_heap.toList.Perm (b.entered message t arrival :: b.m_prio_heap.toList) := by
  rw [h]
  exact Heap.push_perm _ _

/-- The front message is ready, and no message of the heap comes before it. -/
structure Front (b : MessageBuffer) (t : Nat) (m : Message) : Prop where
  ready : m.m_LastEnqueueTime ≤ t
  perm : (m :: b.popped.m_prio_heap.toList).Perm b.m_prio_heap.toList
  first : Heap.IsHeap Message.gt b.m_prio_heap → ∀ m' ∈ b.m_prio_heap.toList, m.gt m' = false

theorem front_of_isReady (hm : b.m_prio_heap[0]? = some m) (hr : b.isReady t = true) : Front b t m := by
  obtain ⟨h0, rfl⟩ := Array.getElem?_eq_some_iff.mp hm
  rw [isReady, hm] at hr
  refine ⟨of_decide_eq_true hr, Heap.pop_perm h0, fun hh m' hm' => ?_⟩
  obtain ⟨i, hi, rfl⟩ := Array.getElem_of_mem (Array.mem_def.mpr hm')
  exact hh.front_max Message.weak_gt h0 i hi

theorem dequeue_spec (h : b.dequeue t = .ok (message, b')) :
    ∃ m, Front b t m ∧ message = m.updateDelayedTicks t ∧ b' = (b.sampled t).popped := by
  rw [dequeue] at h
  split at h
  · rename_i m hm
    split at h
    · rename_i hr
      obtain ⟨rfl, rfl⟩ := Prod.mk.inj (Except.ok.inj h)
      exact ⟨m, front_of_isReady hm hr, rfl, rfl⟩
    · cases h
  · cases h

theorem recycle_spec (h : b.recycle t latency = .ok b') : ∃ m, Front b t m ∧
    b' = { b with
      m_prio_heap := Heap.pushHeap Message.gt
        (b.popped.m_prio_heap.push (m.arrivingAt (t + latency))) } := by
  rw [recycle] at h
  split at h
  · rename_i m hm
    split at h
    · rename_i hr
      exact ⟨m, front_of_isReady hm hr, (Except.ok.inj h).symm⟩
    · cases h
  · cases h

theorem recycled_perm (h : b' = { b with m_prio_heap := Heap.pushHeap Message.gt (b.popped.m_prio_heap.push m) }) :
    b'.m_prio_heap.toList.Perm (m :: b.popped.m_prio_heap.toList) := by
  rw [h]
  exact Heap.push_perm _ _

theorem stallMessage_spec (h : b.stallMessage p addr t = .ok (message, b')) :
    ∃ m, Front b t m ∧ message = m.updateDelayedTicks t ∧
      b' = { (b.sampled t).popped with
        m_stall_msg_map := pushStalled addr message (b.sampled t).m_stall_msg_map
        m_stall_map_size := (b.sampled t).m_stall_map_size + 1 } := by
  obtain ⟨-, h⟩ := ok_of_guard h
  obtain ⟨-, h⟩ := ok_of_guard h
  obtain ⟨⟨message', b''⟩, hdeq, h⟩ := ok_of_bind h
  obtain ⟨m, hfront, rfl, rfl⟩ := dequeue_spec hdeq
  obtain ⟨-, h⟩ := ok_of_guard h
  obtain ⟨rfl, rfl⟩ := Prod.mk.inj (Except.ok.inj h)
  exact ⟨m, hfront, rfl, rfl⟩

theorem pushStalled_perm (map : List (Nat × List Message)) :
    ((pushStalled addr m map).flatMap (·.2)).Perm (m :: map.flatMap (·.2)) := by
  induction map with
  | nil => exact .refl _
  | cons e map ih =>
    obtain ⟨a, lt⟩ := e
    rw [pushStalled]
    split
    · simp only [List.flatMap_cons, List.append_assoc]
      exact List.perm_middle
    · split
      · exact .refl _
      · simp only [List.flatMap_cons]
        exact (ih.append_left lt).trans List.perm_middle

/-! ### The reanalysed messages -/

/-- Some stalled messages are back in the heap. -/
structure Requeued (t : Nat) (b b' : MessageBuffer) (moved : List Message) : Prop where
  same : b' = { b with
    m_prio_heap := b'.m_prio_heap, m_stall_msg_map := b'.m_stall_msg_map, m_stall_map_size := b'.m_stall_map_size }
  count : b'.m_stall_map_size = b.m_stall_map_size - moved.length
  heap : b'.m_prio_heap.toList.Perm (moved ++ b.m_prio_heap.toList)
  stalled : b.stalled.Perm (moved ++ b'.stalled)
  isHeap : Heap.IsHeap Message.gt b.m_prio_heap → Heap.IsHeap Message.gt b'.m_prio_heap
  early : ∀ m ∈ moved, m.m_LastEnqueueTime ≤ t

theorem reanalyzeList_spec : ∀ {heap heap' : Array Message}, reanalyzeList t heap lt = .ok heap' →
    heap'.toList.Perm (lt ++ heap.toList) ∧ (Heap.IsHeap Message.gt heap → Heap.IsHeap Message.gt heap') ∧
      ∀ m ∈ lt, m.m_LastEnqueueTime ≤ t := by
  induction lt with
  | nil =>
    intro heap heap' h
    obtain rfl := Except.ok.inj h
    exact ⟨.refl _, id, by simp⟩
  | cons m lt ih =>
    intro heap heap' h
    obtain ⟨hm, h⟩ := ok_of_guard h
    obtain ⟨hperm, hheap, hearly⟩ := ih h
    refine ⟨?_, fun hh => hheap (Heap.isHeap_push Message.weak_gt hh m),
      List.forall_mem_cons.mpr ⟨not_not.mp hm, hearly⟩⟩
    exact (hperm.trans ((Heap.push_perm heap m).append_left lt)).trans List.perm_middle

theorem reanalyze_spec (h : reanalyze t b lt = .ok b') :
    b' = { b with m_prio_heap := b'.m_prio_heap, m_stall_map_size := b.m_stall_map_size - lt.length } ∧
      b'.m_prio_heap.toList.Perm (lt ++ b.m_prio_heap.toList) ∧
      (Heap.IsHeap Message.gt b.m_prio_heap → Heap.IsHeap Message.gt b'.m_prio_heap) ∧
      ∀ m ∈ lt, m.m_LastEnqueueTime ≤ t := by
  obtain ⟨-, h⟩ := ok_of_guard h
  obtain ⟨heap, hlist, rfl⟩ := ok_of_map h
  exact ⟨rfl, reanalyzeList_spec hlist⟩

theorem reanalyzeMessages_spec (h : b.reanalyzeMessages addr t = .ok b') : ∃ moved, Requeued t b b' moved := by
  rw [reanalyzeMessages] at h
  split at h
  · cases h
  · rename_i e he
    obtain ⟨b₁, h₁, rfl⟩ := ok_of_map h
    obtain ⟨hsame, hperm, hheap, hearly⟩ := reanalyze_spec h₁
    refine ⟨e.2, ⟨?_, ?_, hperm, ?_, hheap, hearly⟩⟩
    · rw [hsame]
    · rw [hsame]
    · obtain ⟨he, l₁, l₂, hl, hnone⟩ := List.find?_eq_some_iff_append.mp he
      have hmap : b₁.m_stall_msg_map = b.m_stall_msg_map := by rw [hsame]
      rw [stalled, stalled, hmap, hl, List.eraseP_append_right _ (fun a ha => by simpa using hnone a ha),
        List.eraseP_cons_of_pos (by simpa using he)]
      simp only [List.flatMap_append, List.flatMap_cons]
      rw [← List.append_assoc, ← List.append_assoc]
      exact List.perm_append_comm.append_right _

theorem reanalyze_rounds {map : List (Nat × List Message)} : ∀ {b : MessageBuffer},
    map.foldlM (fun b e => reanalyze t b e.2) b = .ok b' →
    b' = { b with
      m_prio_heap := b'.m_prio_heap
      m_stall_map_size := b.m_stall_map_size - (map.flatMap (·.2)).length } ∧
      b'.m_prio_heap.toList.Perm (map.flatMap (·.2) ++ b.m_prio_heap.toList) ∧
      (Heap.IsHeap Message.gt b.m_prio_heap → Heap.IsHeap Message.gt b'.m_prio_heap) ∧
      ∀ m ∈ map.flatMap (·.2), m.m_LastEnqueueTime ≤ t := by
  induction map with
  | nil =>
    intro b h
    obtain rfl := Except.ok.inj h
    refine ⟨?_, .refl _, id, by simp⟩
    rw [List.flatMap_nil, List.length_nil, Int.natCast_zero, Int.sub_zero]
  | cons e map ih =>
    intro b h
    obtain ⟨b₁, h₁, h⟩ := ok_of_bind h
    obtain ⟨hsame₁, hperm₁, hheap₁, hearly₁⟩ := reanalyze_spec h₁
    obtain ⟨hsame, hperm, hheap, hearly⟩ := ih h
    simp only [List.flatMap_cons, List.length_append]
    refine ⟨?_, ?_, hheap ∘ hheap₁, ?_⟩
    · rw [hsame, hsame₁, Int.sub_sub, Int.natCast_add]
    · refine (hperm.trans (hperm₁.append_left _)).trans ?_
      rw [← List.append_assoc]
      exact List.perm_append_comm.append_right _
    · exact fun m hm => (List.mem_append.mp hm).elim (hearly₁ m) (hearly m)

theorem reanalyzeAllMessages_spec (h : b.reanalyzeAllMessages t = .ok b') : ∃ moved, Requeued t b b' moved := by
  obtain ⟨b₁, h₁, rfl⟩ := ok_of_map h
  obtain ⟨hsame, hperm, hheap, hearly⟩ := reanalyze_rounds h₁
  refine ⟨b.stalled, ⟨?_, ?_, hperm, ?_, hheap, hearly⟩⟩
  · rw [hsame]
  · rw [hsame]
    rfl
  · exact .of_eq (List.append_nil _).symm

/-! ### When the assertion of `reanalyzeList` fails -/

theorem reanalyzeList_requeue : ∀ {heap : Array Message}, reanalyzeList t heap lt = .error .requeue →
    ∃ m ∈ lt, t < m.m_LastEnqueueTime := by
  induction lt with
  | nil =>
    intro heap h
    cases h
  | cons m lt ih =>
    intro heap h
    rw [reanalyzeList] at h
    split at h
    · rename_i hm
      exact ⟨m, List.mem_cons_self, not_le.mp hm⟩
    · obtain ⟨m', hm', hlt⟩ := ih h
      exact ⟨m', List.mem_cons_of_mem _ hm', hlt⟩

theorem reanalyze_requeue (h : reanalyze t b lt = .error .requeue) : ∃ m ∈ lt, t < m.m_LastEnqueueTime := by
  rw [reanalyze] at h
  split at h
  · cases h
  · exact reanalyzeList_requeue (error_of_map h)

theorem reanalyzeMessages_requeue (h : b.reanalyzeMessages addr t = .error .requeue) :
    ∃ m ∈ b.stalled, t < m.m_LastEnqueueTime := by
  rw [reanalyzeMessages] at h
  split at h
  · cases h
  · rename_i e he
    obtain ⟨m, hm, hlt⟩ := reanalyze_requeue (error_of_map h)
    exact ⟨m, List.mem_flatMap.mpr ⟨e, List.mem_of_find?_eq_some he, hm⟩, hlt⟩

theorem reanalyzeAllMessages_requeue (h : b.reanalyzeAllMessages t = .error .requeue) :
    ∃ m ∈ b.stalled, t < m.m_LastEnqueueTime := by
  have hrounds : ∀ {map : List (Nat × List Message)} {b : MessageBuffer},
      map.foldlM (fun b e => reanalyze t b e.2) b = .error .requeue →
      ∃ m ∈ map.flatMap (·.2), t < m.m_LastEnqueueTime := by
    intro map
    induction map with
    | nil =>
      intro b h
      cases h
    | cons e map ih =>
      intro b h
      obtain h | ⟨b₁, -, h⟩ := error_of_bind h
      · obtain ⟨m, hm, hlt⟩ := reanalyze_requeue h
        exact ⟨m, List.mem_append_left _ hm, hlt⟩
      · obtain ⟨m, hm, hlt⟩ := ih h
        exact ⟨m, List.mem_append_right _ hm, hlt⟩
  exact hrounds (error_of_map h)

end MessageBuffer

end Salam.Ruby
