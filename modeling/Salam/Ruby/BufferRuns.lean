import Mathlib.Data.List.Range
import Salam.Ruby.MessageBuffer

/-!
# Runs of a message buffer

A run is any sequence of operations at any ticks; what is asked of the ticks and of the operations is the condition
under which a state is reached. A run remembers what was enqueued, what left the heap, and how many enqueues the answers
of `areNSlotsAvailable` in the current tick still allow.

* `Kept`, `kept_of_reachable`: every message that was enqueued is in one place, and `m_stall_map_size` is the number of
  those that are stalled.
-/

namespace Salam.Ruby

inductive Op
  | areNSlotsAvailable (n : UInt32)
  | enqueue (message : Message) (delta : Nat) (draws : Draws) (warmup : Bool)
  | dequeue
  | recycle (recycle_latency : Nat)
  | stallMessage (addr : Nat)
  | reanalyzeMessages (addr : Nat)
  | reanalyzeAllMessages
  deriving DecidableEq

structure Event where
  tick : Nat
  op : Op
  deriving DecidableEq

/-- A message that left the heap, dequeued or stalled. -/
structure Departure where
  message : Message
  stalls : Bool
  deriving DecidableEq

/-- Which message it is: its number in the order of the enqueues, and when it was made. -/
def Message.tag (m : Message) : Nat × Nat := (m.m_msg_counter, m.m_time)

structure Run where
  buf : MessageBuffer
  now : Nat
  /-- The enqueues that are left of the slots found available in this tick. -/
  granted : Nat
  enqueued : List (Nat × Nat)
  departures : List Departure
  deriving DecidableEq

namespace Run

def start : Run := ⟨.empty, 0, 0, [], []⟩

variable (p : Params) (r : Run)

/-- The messages that were dequeued, in that order. -/
def dequeued : List Message := (r.departures.filter fun d => !d.stalls).map (·.message)

/-- The messages that were ever stalled. -/
def everStalled : List Message := (r.departures.filter (·.stalls)).map (·.message)

/-- The messages in the heap, in the stall map and those that were dequeued. -/
def contents : List Message := r.buf.m_prio_heap.toList ++ r.buf.stalled ++ r.dequeued

/-- What is left of the available slots at a tick. -/
def grantedAt (tick : Nat) : Nat := if tick = r.now then r.granted else 0

/-- The run goes on with a buffer, at a tick. -/
def goOn (tick : Nat) (buf : MessageBuffer) : Run := { r with buf := buf, now := tick, granted := r.grantedAt tick }

/-- A message leaves the heap. -/
def depart (tick : Nat) (stalls : Bool) (m : Message × MessageBuffer) : Run :=
  { r.goOn tick m.2 with departures := r.departures ++ [⟨m.1, stalls⟩] }

def exec (e : Event) : Except MessageBuffer.Err Run :=
  match e.op with
  | .areNSlotsAvailable n =>
    .ok { r.goOn e.tick r.buf with
      granted := if r.buf.areNSlotsAvailable p n e.tick then max (r.grantedAt e.tick) n.toNat else r.grantedAt e.tick }
  | .enqueue message delta draws warmup => (r.buf.enqueue p message e.tick delta draws warmup).map fun buf =>
    { r.goOn e.tick buf with
      granted := r.grantedAt e.tick - 1
      enqueued := r.enqueued ++ [(buf.m_msg_counter, message.m_time)] }
  | .dequeue => (r.buf.dequeue e.tick).map (r.depart e.tick false)
  | .recycle recycle_latency => (r.buf.recycle e.tick recycle_latency).map (r.goOn e.tick)
  | .stallMessage addr => (r.buf.stallMessage p addr e.tick).map (r.depart e.tick true)
  | .reanalyzeMessages addr => (r.buf.reanalyzeMessages addr e.tick).map (r.goOn e.tick)
  | .reanalyzeAllMessages => (r.buf.reanalyzeAllMessages e.tick).map (r.goOn e.tick)

end Run

/-- The runs of a buffer. -/
def bufferSystem (p : Params) : System Run Event where
  init r := r = .start
  step r e := (r.exec p e).toOption

/-- Time does not go back. -/
def forward (r : Run) (e : Event) : Bool := r.now ≤ e.tick

/-- A strict FIFO for some messages, of lines of 64 bytes. -/
def smallBuffer (m_max_size : Nat) (h : m_max_size < 2 ^ 32) : Params where
  m_max_size := m_max_size
  m_strict_fifo := true
  m_randomization := false
  getRandomization := false
  getBlockSizeBits := 6
  max_lt := h

/-- A message that is enqueued to arrive in the next tick. -/
def Op.soon (m_time : Nat) : Op := .enqueue ⟨m_time, m_time, 0, 0⟩ 1
    ⟨⟨0, Nat.succ_pos 3⟩, false, ⟨0, Nat.succ_pos 14⟩⟩ false

/-! ## What a step does -/

variable {p : Params} {r r' : Run} {e : Event} {t : Nat} {m : Message}

namespace MessageBuffer

variable {b : MessageBuffer}

@[simp]
theorem sampled_heap : (b.sampled t).m_prio_heap = b.m_prio_heap := by
  rw [sampled]
  split <;> rfl

@[simp]
theorem sampled_popped_heap : (b.sampled t).popped.m_prio_heap = b.popped.m_prio_heap := by
  rw [popped, popped, sampled_heap]

@[simp]
theorem sampled_stall_map : (b.sampled t).m_stall_msg_map = b.m_stall_msg_map := by
  rw [sampled]
  split <;> rfl

@[simp]
theorem sampled_stall_map_size : (b.sampled t).m_stall_map_size = b.m_stall_map_size := by
  rw [sampled]
  split <;> rfl

@[simp]
theorem sampled_msg_counter : (b.sampled t).m_msg_counter = b.m_msg_counter := by
  rw [sampled]
  split <;> rfl

@[simp]
theorem sampled_last_arrival_time : (b.sampled t).m_last_arrival_time = b.m_last_arrival_time := by
  rw [sampled]
  split <;> rfl

@[simp]
theorem sampled_time_enqueue : (b.sampled t).m_time_last_time_enqueue = b.m_time_last_time_enqueue := by
  rw [sampled]
  split <;> rfl

@[simp]
theorem sampled_msgs_this_cycle : (b.sampled t).m_msgs_this_cycle = b.m_msgs_this_cycle := by
  rw [sampled]
  split <;> rfl

variable {b' : MessageBuffer} {m : Message} {addr : Nat}

theorem Front.size_eq (h : Front b t m) : b.popped.m_prio_heap.size + 1 = b.m_prio_heap.size := h.perm.length_eq

theorem dequeue_places (h : b' = (b.sampled t).popped) :
    b'.m_prio_heap = b.popped.m_prio_heap ∧ b'.stalled = b.stalled := by
  refine ⟨by rw [h, sampled_popped_heap], ?_⟩
  rw [stalled, stalled, h, popped, sampled_stall_map]

theorem stall_places (h : b' = { (b.sampled t).popped with
    m_stall_msg_map := pushStalled addr m (b.sampled t).m_stall_msg_map
    m_stall_map_size := (b.sampled t).m_stall_map_size + 1 }) :
    b'.m_prio_heap = b.popped.m_prio_heap ∧ b'.stalled.Perm (m :: b.stalled) := by
  refine ⟨by rw [h, sampled_popped_heap], ?_⟩
  rw [h, stalled, stalled]
  simpa only [sampled_stall_map] using pushStalled_perm b.m_stall_msg_map

end MessageBuffer

open MessageBuffer

/-- The next state, by what the step does with the messages. -/
inductive Moves (p : Params) (r r' : Run) (e : Event) : Prop
  | check (n : UInt32) (op : e.op = .areNSlotsAvailable n) (buf : r'.buf = r.buf) (enqueued : r'.enqueued = r.enqueued)
      (departures : r'.departures = r.departures)
      (granted : r'.granted =
        if r.buf.areNSlotsAvailable p n e.tick then max (r.grantedAt e.tick) n.toNat else r.grantedAt e.tick)
  | enter (message : Message) (delta : Nat) (draws : Draws) (warmup : Bool)
      (op : e.op = .enqueue message delta draws warmup)
      (arrival : e.tick < r.buf.arrivalTime p e.tick delta draws)
      (fifo : p.m_strict_fifo = true → r.buf.lastArrivalTime p e.tick ≤ r.buf.arrivalTime p e.tick delta draws)
      (buf : r'.buf = r.buf.enqueued p message e.tick (r.buf.arrivalTime p e.tick delta draws) warmup)
      (enqueued : r'.enqueued = r.enqueued ++ [(r.buf.m_msg_counter + 1, message.m_time)])
      (departures : r'.departures = r.departures) (granted : r'.granted = r.grantedAt e.tick - 1)
  | leave (m : Message) (op : e.op = .dequeue) (front : Front r.buf e.tick m)
      (buf : r'.buf = (r.buf.sampled e.tick).popped)
      (enqueued : r'.enqueued = r.enqueued)
        (departures : r'.departures = r.departures ++ [⟨m.updateDelayedTicks e.tick, false⟩])
      (granted : r'.granted = r.grantedAt e.tick)
  | again (m : Message) (recycle_latency : Nat) (op : e.op = .recycle recycle_latency) (front : Front r.buf e.tick m)
      (buf : r'.buf = { r.buf with
        m_prio_heap := Heap.pushHeap Message.gt
          (r.buf.popped.m_prio_heap.push (m.arrivingAt (e.tick + recycle_latency))) })
      (enqueued : r'.enqueued = r.enqueued) (departures : r'.departures = r.departures)
      (granted : r'.granted = r.grantedAt e.tick)
  | stall (m : Message) (addr : Nat) (op : e.op = .stallMessage addr) (front : Front r.buf e.tick m)
      (buf : r'.buf = { (r.buf.sampled e.tick).popped with
        m_stall_msg_map := pushStalled addr (m.updateDelayedTicks e.tick) (r.buf.sampled e.tick).m_stall_msg_map
        m_stall_map_size := (r.buf.sampled e.tick).m_stall_map_size + 1 })
      (enqueued : r'.enqueued = r.enqueued)
        (departures : r'.departures = r.departures ++ [⟨m.updateDelayedTicks e.tick, true⟩])
      (granted : r'.granted = r.grantedAt e.tick)
  | requeue (moved : List Message) (op : (∃ addr, e.op = .reanalyzeMessages addr) ∨ e.op = .reanalyzeAllMessages)
      (buf : Requeued e.tick r.buf r'.buf moved) (enqueued : r'.enqueued = r.enqueued)
      (departures : r'.departures = r.departures) (granted : r'.granted = r.grantedAt e.tick)

theorem moves_of_exec (h : r.exec p e = .ok r') : Moves p r r' e := by
  obtain ⟨tick, op⟩ := e
  cases op with
  | areNSlotsAvailable n =>
    obtain rfl := Except.ok.inj h
    exact .check n rfl rfl rfl rfl rfl
  | enqueue message delta draws warmup =>
    obtain ⟨buf, henq, rfl⟩ := ok_of_map h
    obtain ⟨harrival, hfifo, rfl⟩ := enqueue_spec henq
    exact .enter message delta draws warmup rfl harrival hfifo rfl rfl rfl rfl
  | dequeue =>
    obtain ⟨⟨message, buf⟩, hdeq, rfl⟩ := ok_of_map h
    obtain ⟨m, hfront, rfl, rfl⟩ := dequeue_spec hdeq
    exact .leave m rfl hfront rfl rfl rfl rfl
  | recycle recycle_latency =>
    obtain ⟨buf, hrec, rfl⟩ := ok_of_map h
    obtain ⟨m, hfront, rfl⟩ := recycle_spec hrec
    exact .again m recycle_latency rfl hfront rfl rfl rfl rfl
  | stallMessage addr =>
    obtain ⟨⟨message, buf⟩, hstall, rfl⟩ := ok_of_map h
    obtain ⟨m, hfront, rfl, rfl⟩ := stallMessage_spec hstall
    exact .stall m addr rfl hfront rfl rfl rfl rfl
  | reanalyzeMessages addr =>
    obtain ⟨buf, hre, rfl⟩ := ok_of_map h
    obtain ⟨moved, hmoved⟩ := reanalyzeMessages_spec hre
    exact .requeue moved (.inl ⟨addr, rfl⟩) hmoved rfl rfl rfl
  | reanalyzeAllMessages =>
    obtain ⟨buf, hre, rfl⟩ := ok_of_map h
    obtain ⟨moved, hmoved⟩ := reanalyzeAllMessages_spec hre
    exact .requeue moved (.inr rfl) hmoved rfl rfl rfl

theorem moves_of_step (h : (bufferSystem p).step r e = some r') : Moves p r r' e := moves_of_exec (ok_of_toOption h)

theorem exec_now (h : r.exec p e = .ok r') : r'.now = e.tick := by
  obtain ⟨tick, op⟩ := e
  cases op with
  | areNSlotsAvailable n =>
    obtain rfl := Except.ok.inj h
    rfl
  | _ =>
    obtain ⟨_, -, rfl⟩ := ok_of_map h
    rfl

/-! ## Every message is in one place -/

/-- What every step keeps, at whatever ticks. -/
structure Kept (r : Run) : Prop where
  isHeap : Heap.IsHeap Message.gt r.buf.m_prio_heap
  stallMapSize : r.buf.m_stall_map_size = r.buf.stalled.length
  perm : (r.contents.map Message.tag).Perm r.enqueued
  counters : r.enqueued.map Prod.fst = List.range' 1 r.buf.m_msg_counter

theorem kept_start : Kept .start := ⟨Heap.isHeap_empty, rfl, .refl _, rfl⟩

theorem isHeap_popped {b : MessageBuffer} (h : Heap.IsHeap Message.gt b.m_prio_heap) (hfront : Front b t m) :
    Heap.IsHeap Message.gt b.popped.m_prio_heap := by
  refine Heap.isHeap_pop Message.weak_gt h ?_
  have hsize := hfront.size_eq
  omega

theorem dequeued_congr (h : r'.departures = r.departures) : r'.dequeued = r.dequeued := by
  rw [Run.dequeued, h, Run.dequeued]

theorem dequeued_of_leave (h : r'.departures = r.departures ++ [⟨m, false⟩]) : r'.dequeued = r.dequeued ++ [m] := by
  rw [Run.dequeued, h, List.filter_append, List.map_append]
  rfl

theorem dequeued_of_stall (h : r'.departures = r.departures ++ [⟨m, true⟩]) : r'.dequeued = r.dequeued := by
  rw [Run.dequeued, h, List.filter_append, List.map_append]
  exact List.append_nil _

/-- How often a message is in a list. -/
def occurs (x : Nat × Nat) (l : List Message) : Nat := (l.map Message.tag).count x

theorem occurs_append (x : Nat × Nat) (l l' : List Message) : occurs x (l ++ l') = occurs x l + occurs x l' := by
  rw [occurs, List.map_append, List.count_append]
  rfl

theorem occurs_cons (x : Nat × Nat) (m : Message) (l : List Message) : occurs x (m :: l) = occurs x [m] + occurs x l :=
  occurs_append x [m] l

theorem occurs_perm (x : Nat × Nat) {l l' : List Message} (h : l.Perm l') : occurs x l = occurs x l' :=
  (h.map _).count_eq x

theorem occurs_tag (x : Nat × Nat) {m m' : Message} (h : m.tag = m'.tag) : occurs x [m] = occurs x [m'] := by
  rw [occurs, occurs, List.map_singleton, List.map_singleton, h]

theorem places_of_perm (h : (r.contents.map Message.tag).Perm r.enqueued) (x : Nat × Nat) :
    occurs x r.buf.m_prio_heap.toList + occurs x r.buf.stalled + occurs x r.dequeued = r.enqueued.count x := by
  rw [← occurs_append, ← occurs_append]
  exact h.count_eq x

theorem perm_of_places (h : ∀ x, occurs x r.buf.m_prio_heap.toList + occurs x r.buf.stalled + occurs x r.dequeued =
    r.enqueued.count x) : (r.contents.map Message.tag).Perm r.enqueued := by
  refine List.perm_iff_count.mpr fun x => ?_
  rw [← h x, ← occurs_append, ← occurs_append]
  rfl

theorem kept_step (h : Kept r) (hstep : Moves p r r' e) : Kept r' := by
  have hplaces := places_of_perm h.perm
  cases hstep with
  | check n _ hbuf henq hdep _ =>
    refine ⟨hbuf ▸ h.isHeap, hbuf ▸ h.stallMapSize, perm_of_places fun x => ?_, ?_⟩
    · rw [hbuf, dequeued_congr hdep, henq, hplaces]
    · rw [hbuf, henq, h.counters]
  | enter message delta draws warmup _ _ _ hbuf henq hdep _ =>
    have hstalled : r'.buf.stalled = r.buf.stalled := by rw [hbuf]; rfl
    have hcounter : r'.buf.m_msg_counter = r.buf.m_msg_counter + 1 := by rw [hbuf]; rfl
    refine ⟨?_, ?_, perm_of_places fun x => ?_, ?_⟩
    · rw [hbuf]
      exact Heap.isHeap_push Message.weak_gt h.isHeap _
    · rw [hstalled, hbuf]
      exact h.stallMapSize
    · have hheap := occurs_perm x (enqueued_perm hbuf)
      have hnew : occurs x [r.buf.entered message e.tick (r.buf.arrivalTime p e.tick delta draws)] =
          [(r.buf.m_msg_counter + 1, message.m_time)].count x := rfl
      rw [occurs_cons] at hheap
      have hx := hplaces x
      rw [hheap, hstalled, dequeued_congr hdep, henq, List.count_append, ← hnew]
      omega
    · rw [hcounter, henq, List.map_append, h.counters, List.range'_1_concat, Nat.add_comm 1]
      rfl
  | leave m _ hfront hbuf henq hdep _ =>
    obtain ⟨hheap', hstalled⟩ := dequeue_places hbuf
    have hcounter : r'.buf.m_msg_counter = r.buf.m_msg_counter := by rw [hbuf]; exact sampled_msg_counter
    refine ⟨?_, ?_, perm_of_places fun x => ?_, ?_⟩
    · rw [hheap']
      exact isHeap_popped h.isHeap hfront
    · rw [hstalled, hbuf, ← h.stallMapSize]
      exact sampled_stall_map_size
    · have hheap := occurs_perm x hfront.perm
      have hout : occurs x [m.updateDelayedTicks e.tick] = occurs x [m] := occurs_tag x rfl
      rw [occurs_cons] at hheap
      have hx := hplaces x
      rw [hheap', hstalled, dequeued_of_leave hdep, occurs_append, henq, hout]
      omega
    · rw [hcounter, henq, h.counters]
  | again m recycle_latency _ hfront hbuf henq hdep _ =>
    have hstalled : r'.buf.stalled = r.buf.stalled := by rw [hbuf]; rfl
    refine ⟨?_, ?_, perm_of_places fun x => ?_, ?_⟩
    · rw [hbuf]
      exact Heap.isHeap_push Message.weak_gt (isHeap_popped h.isHeap hfront) _
    · rw [hstalled, hbuf]
      exact h.stallMapSize
    · have hheap := occurs_perm x hfront.perm
      have hback := occurs_perm x (recycled_perm hbuf)
      have hsame : occurs x [m.arrivingAt (e.tick + recycle_latency)] = occurs x [m] := occurs_tag x rfl
      rw [occurs_cons] at hheap hback
      have hx := hplaces x
      rw [hstalled, dequeued_congr hdep, henq]
      omega
    · rw [henq, hbuf, h.counters]
  | stall m addr _ hfront hbuf henq hdep _ =>
    obtain ⟨hheap', hstalled⟩ := stall_places hbuf
    have hcounter : r'.buf.m_msg_counter = r.buf.m_msg_counter := by rw [hbuf]; exact sampled_msg_counter
    refine ⟨?_, ?_, perm_of_places fun x => ?_, ?_⟩
    · rw [hheap']
      exact isHeap_popped h.isHeap hfront
    · rw [hstalled.length_eq, hbuf, List.length_cons, Int.natCast_succ, ← h.stallMapSize]
      exact congrArg (· + 1) sampled_stall_map_size
    · have hheap := occurs_perm x hfront.perm
      have hin := occurs_perm x hstalled
      have hout : occurs x [m.updateDelayedTicks e.tick] = occurs x [m] := occurs_tag x rfl
      rw [occurs_cons] at hheap hin
      have hx := hplaces x
      rw [hheap', dequeued_of_stall hdep, henq]
      omega
    · rw [hcounter, henq, h.counters]
  | requeue moved _ hbuf henq hdep _ =>
    refine ⟨hbuf.isHeap h.isHeap, ?_, perm_of_places fun x => ?_, ?_⟩
    · have hlen := hbuf.stalled.length_eq
      rw [List.length_append] at hlen
      rw [hbuf.count, h.stallMapSize]
      omega
    · have hheap := occurs_perm x hbuf.heap
      have hstalled := occurs_perm x hbuf.stalled
      rw [occurs_append] at hheap hstalled
      have hx := hplaces x
      rw [dequeued_congr hdep, henq]
      omega
    · rw [henq, h.counters, hbuf.same]

theorem kept_of_reachable (h : (bufferSystem p).Reachable r) : Kept r :=
  System.invariantWhen (fun _ h => h ▸ kept_start) (fun _ _ _ _ hI _ hs => kept_step hI (moves_of_step hs)) h

end Salam.Ruby
