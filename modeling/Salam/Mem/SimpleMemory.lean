import Mathlib.Data.List.DropRight
import Mathlib.Data.List.Perm.Basic
import Salam.Mem.AbstractMemory

/-!
# `SimpleMemory`

A memory that answers requests after a latency. A response waits in `packetQueue` until `dequeueEvent` sends it; after a
request the memory is busy until `releaseEvent`. `dequeue` is cut in two at the call of `sendTimingResp`, so that the
peer can send requests while it takes a response. `sendRetryReq` is the last that `release` does.

* `emplace`: a response may pass others, but not the first one, and none to its own address.
* `SimpleMemory.Books`: what the queue, the flags and the events have to do with each other.
* `simpleMemory_responses`: one response for each request that needs one, in order for an address, and none is stuck.
-/

namespace Salam.Mem

namespace SimpleMemory

/-- A packet with the fields that the memory reads beside those of `access`. -/
structure Packet extends MemPacket where
  isSecure : Bool
  headerDelay : Nat
  payloadDelay : Nat

def Packet.matchAddr (p pkt : Packet) : Bool := Mem.matchAddr p.addr p.isSecure pkt.addr pkt.isSecure

structure DeferredPacket where
  pkt : Packet
  tick : Nat

inductive Err
  | assertion
  /-- `Should not see packets where cache is responding`, `Should only see read and writes at memory controller`. -/
  | panic
  /-- A check of `AbstractMemory::access`. -/
  | access (e : MemErr)
  deriving DecidableEq

structure Params where
  abstractMem : MemParams
  latency : Nat
  latencyVar : Nat
  /-- The size of a packet times the floating-point `bandwidth`, as a tick. -/
  duration : Nat → Nat

/-- `getLatency`, with the number that `random_mt` gives. -/
def Params.getLatency (C : Params) (random : Nat) : Nat := C.latency + if C.latencyVar ≠ 0 then random else 0

/-- What the loop of `recvTimingReq` goes past. -/
def passes (d i : DeferredPacket) : Bool := d.tick < i.tick && !i.pkt.matchAddr d.pkt

/-- The loop of `recvTimingReq` from the last packet on, which stops at the first one, and `packetQueue.emplace`. -/
def emplace (d : DeferredPacket) : List DeferredPacket → List DeferredPacket
  | [] => [d]
  | x :: xs => x :: (xs.rdropWhile (passes d) ++ d :: xs.rtakeWhile (passes d))

/-- `schedule`, which asserts that the event is not scheduled and that the tick is not past. -/
def schedule (event : Option Nat) (curTick when : Nat) : Except Err (Option Nat) :=
  if event.isSome ∨ when < curTick then .error .assertion else .ok (some when)

end SimpleMemory

open SimpleMemory in
structure SimpleMemory where
  mem : AbstractMemory
  packetQueue : List SimpleMemory.DeferredPacket
  isBusy : Bool
  retryReq : Bool
  retryResp : Bool
  releaseEvent : Option Nat
  dequeueEvent : Option Nat
  curTick : Nat
  /-- The packet that `sendTimingResp` was called with and has not returned for, and whether a request has come in
  it. -/
  sending : Option SimpleMemory.DeferredPacket
  calledBack : Bool
  /-- The peer has refused a response and not yet asked for it again; it waits to be asked for a request again. -/
  owesRetry : Bool
  awaitsRetry : Bool
  /-- The requests accepted, with what was put into the queue, and the responses the peer has taken, with the tick. -/
  accepted : List (Packet × Option SimpleMemory.DeferredPacket)
  sent : List (SimpleMemory.DeferredPacket × Nat)

namespace SimpleMemory

/-! ## Requests -/

/-- `recvAtomic`; its latency is not used here. -/
def recvAtomic (C : Params) (s : SimpleMemory) (pkt : Packet) : Except Err (SimpleMemory × Packet) :=
  if pkt.cacheResponding then .error .panic
  else
    match s.mem.access C.abstractMem pkt.toMemPacket with
    | .ok (m, p) => .ok ({ s with mem := m }, { pkt with toMemPacket := p })
    | .error e => .error (.access e)

/-- The memory is busy for the time that the packet takes, if it takes any. -/
def startBusy (s : SimpleMemory) (duration : Nat) : Except Err SimpleMemory :=
  if duration ≠ 0 then do
    let e ← schedule s.releaseEvent s.curTick (s.curTick + duration)
    return { s with releaseEvent := e, isBusy := true }
  else .ok s

/-- `recvTimingReq` from the `emplace` on. -/
def queueResponse (s : SimpleMemory) (d : DeferredPacket) : Except Err SimpleMemory := do
  let s := { s with packetQueue := emplace d s.packetQueue }
  if !s.retryResp && s.dequeueEvent.isNone then
    match s.packetQueue.getLast? with
    | some back => return { s with dequeueEvent := ← schedule s.dequeueEvent s.curTick back.tick }
    | none => throw .assertion
  else return s

/-- `recvTimingReq`, and its answer, with the number that `random_mt` gives. -/
def recvTimingReq (C : Params) (s : SimpleMemory) (pkt : Packet) (random : Nat) : Except Err (SimpleMemory × Bool) :=
  if pkt.cacheResponding then .error .panic
  else if !(pkt.cmd.isRead || pkt.cmd.isWrite) then .error .panic
  else if s.retryReq then .ok (s, false)
  else if s.isBusy then .ok ({ s with retryReq := true }, false)
  else do
    let s ← s.startBusy (C.duration pkt.data.length)
    let (s, resp) ← s.recvAtomic C { pkt with headerDelay := 0, payloadDelay := 0 }
    if pkt.cmd.needsResponse then
      if resp.cmd.isResponse then
        let d := ⟨resp, s.curTick + (pkt.headerDelay + pkt.payloadDelay) + C.getLatency random⟩
        let s ← s.queueResponse d
        return ({ s with accepted := s.accepted ++ [(pkt, some d)] }, true)
      else throw .assertion
    else return ({ s with accepted := s.accepted ++ [(pkt, none)] }, true)

def sendRetryReq (s : SimpleMemory) : SimpleMemory := { s with awaitsRetry := false }

def release (s : SimpleMemory) : Except Err SimpleMemory :=
  if s.isBusy then
    let s := { s with isBusy := false }
    .ok (if s.retryReq then { s with retryReq := false }.sendRetryReq else s)
  else .error .assertion

/-! ## Responses -/

/-- `dequeue` up to the call of `sendTimingResp`. -/
def dequeue (s : SimpleMemory) : Except Err SimpleMemory :=
  match s.packetQueue with
  | [] => .error .assertion
  | d :: _ => .ok { s with sending := some d }

/-- The rest of `dequeue`, when the peer has refused the response. -/
def respRefused (s : SimpleMemory) : SimpleMemory :=
  { s with retryResp := true, sending := none, calledBack := false, owesRetry := true }

/-- `reschedule`, which asserts that the tick is not past. -/
def reschedule (s : SimpleMemory) (when : Nat) : Except Err SimpleMemory :=
  if when < s.curTick then .error .assertion else .ok { s with dequeueEvent := some when }

/-- The rest of `dequeue`, when the peer has taken the response. -/
def respTaken (s : SimpleMemory) : Except Err SimpleMemory :=
  let s := { s with retryResp := false, packetQueue := s.packetQueue.tail, sending := none, calledBack := false,
                    sent := s.sent ++ (s.sending.map fun d => (d, s.curTick)).toList }
  match s.packetQueue with
  | [] => .ok s
  | d :: _ => s.reschedule (max d.tick s.curTick)

def recvRespRetry (s : SimpleMemory) : Except Err SimpleMemory :=
  if s.retryResp then s.dequeue else .error .assertion

/-! ## Runs -/

/-- What can happen. -/
inductive Op
  | recvTimingReq (pkt : Packet) (random : Nat)
  | release
  | dequeue
  | respTaken
  | respRefused
  | recvRespRetry
  | advance (t : Nat)

/-- The peer does not send a request from inside a call of `sendTimingResp` that it then refuses, and it asks again
after it has refused. Events run one after the other, not inside a call, and in the order of time. -/
def Allowed (C : Params) (s : SimpleMemory) : Op → Prop
  | .recvTimingReq _ random => random ≤ C.latencyVar
  | .release => s.releaseEvent = some s.curTick ∧ s.sending.isNone = true
  | .dequeue => s.dequeueEvent = some s.curTick ∧ s.sending.isNone = true
  | .respTaken => s.sending.isSome = true
  | .respRefused => s.sending.isSome = true ∧ s.calledBack = false
  | .recvRespRetry => s.owesRetry = true
  | .advance t =>
    s.curTick < t ∧ (∀ e ∈ s.releaseEvent, t ≤ e) ∧ (∀ e ∈ s.dequeueEvent, t ≤ e) ∧ s.sending.isNone = true

instance (C : Params) (s : SimpleMemory) (op : Op) : Decidable (s.Allowed C op) := by
  cases op <;> unfold Allowed <;> infer_instance

/-- One call, answer or event. -/
def exec (C : Params) (s : SimpleMemory) : Op → Except Err SimpleMemory
  | .recvTimingReq pkt random =>
    (recvTimingReq C { s with calledBack := s.sending.isSome } pkt random).map fun r =>
      if r.2 then r.1 else { r.1 with awaitsRetry := true }
  | .release => release { s with releaseEvent := none }
  | .dequeue => dequeue { s with dequeueEvent := none }
  | .respTaken => s.respTaken
  | .respRefused => .ok s.respRefused
  | .recvRespRetry => recvRespRetry { s with owesRetry := false }
  | .advance t => .ok { s with curTick := t }

/-- A memory made by the constructor. -/
def Fresh (s : SimpleMemory) : Prop :=
  s.packetQueue.isEmpty ∧ s.isBusy = false ∧ s.retryReq = false ∧ s.retryResp = false ∧ s.releaseEvent = none ∧
    s.dequeueEvent = none ∧ s.sending.isNone ∧ s.calledBack = false ∧ s.owesRetry = false ∧ s.awaitsRetry = false ∧
    s.accepted.isEmpty ∧ s.sent.isEmpty

/-- Every interleaving of calls, answers and events. -/
def system (C : Params) : System SimpleMemory Op where
  init := Fresh
  step s op := if s.Allowed C op then (s.exec C op).toOption else none

/-- The responses put into the queue, in the order in which their requests were accepted. -/
def responses (s : SimpleMemory) : List DeferredPacket := s.accepted.filterMap (·.2)

/-- The responses taken by the peer and those that wait, in their order. -/
def delivery (s : SimpleMemory) : List DeferredPacket := s.sent.map (·.1) ++ s.packetQueue

/-- A request got the response that it needs: the packet turned around. -/
def Answered (r : Packet × Option DeferredPacket) : Prop :=
  r.2.isSome = r.1.cmd.needsResponse ∧
    ∀ d ∈ r.2, d.pkt.cmd = r.1.cmd.responseCommand ∧ d.pkt.addr = r.1.addr ∧ d.pkt.isSecure = r.1.isSecure

/-- A check that a request does not pass: it is not one for a memory, or `access` reports it. -/
def Rejected (C : Params) (s : SimpleMemory) (pkt : Packet) : Prop :=
  pkt.cacheResponding = true ∨ (pkt.cmd.isRead || pkt.cmd.isWrite) = false ∨
    ∃ e, s.mem.access C.abstractMem pkt.toMemPacket = .error e

/-! ## Placing a response -/

section Emplace

variable {d : DeferredPacket} {q : List DeferredPacket}

/-- Where a response is put: behind the first one, and in front of those it passes. -/
theorem emplace_split (d : DeferredPacket) (q : List DeferredPacket) :
    ∃ front back, q = front ++ back ∧ emplace d q = front ++ d :: back ∧ (q ≠ [] → front ≠ []) ∧
      ∀ i ∈ back, passes d i = true := by
  cases q with
  | nil => exact ⟨[], [], rfl, rfl, by simp, by simp⟩
  | cons x xs =>
    refine ⟨x :: xs.rdropWhile (passes d), xs.rtakeWhile (passes d), ?_, rfl, by simp, ?_⟩
    · rw [List.cons_append, List.rdropWhile_append_rtakeWhile]
    · intro i hi
      exact List.mem_rtakeWhile_imp hi

theorem emplace_perm (d : DeferredPacket) (q : List DeferredPacket) : (emplace d q).Perm (q ++ [d]) := by
  obtain ⟨front, back, rfl, heq, -, -⟩ := emplace_split d q
  rw [heq, List.append_assoc]
  exact List.perm_append_singleton d back |>.symm.append_left front

theorem emplace_head (hq : q ≠ []) : (emplace d q).head? = q.head? := by
  obtain ⟨front, back, rfl, heq, hne, -⟩ := emplace_split d q
  rw [heq, List.head?_append_of_ne_nil _ (hne hq), List.head?_append_of_ne_nil _ (hne hq)]

/-- **The responses to one address keep their order.** -/
theorem emplace_filter (d : DeferredPacket) (q : List DeferredPacket) (pkt : Packet) :
    (emplace d q).filter (·.pkt.matchAddr pkt) = (q ++ [d]).filter (·.pkt.matchAddr pkt) := by
  obtain ⟨front, back, rfl, heq, -, hpass⟩ := emplace_split d q
  rw [heq, List.append_assoc, List.filter_append, List.filter_append front]
  congr 1
  by_cases hd : d.pkt.matchAddr pkt = true
  · have hback : back.filter (·.pkt.matchAddr pkt) = [] := by
      rw [List.filter_eq_nil_iff]
      intro i hi hmatch
      have := hpass i hi
      simp only [passes, Packet.matchAddr, Mem.matchAddr, Bool.and_eq_true, decide_eq_true_eq, Bool.not_eq_true',
        Bool.and_eq_false_iff, decide_eq_false_iff_not] at this hmatch hd
      rcases this.2 with h | h
      · exact h (hmatch.1.trans hd.1.symm)
      · exact h (hmatch.2.trans hd.2.symm)
    simp [hd, hback]
  · simp [hd]

/-- The last response is not due before the new one. -/
theorem emplace_last (d : DeferredPacket) (q : List DeferredPacket) :
    ∃ back, (emplace d q).getLast? = some back ∧ d.tick ≤ back.tick := by
  obtain ⟨front, back, -, heq, -, hpass⟩ := emplace_split d q
  cases hb : back.getLast? with
  | none =>
    rw [List.getLast?_eq_none_iff] at hb
    exact ⟨d, by simp [heq, hb], le_rfl⟩
  | some i =>
    refine ⟨i, by simp [heq, List.getLast?_append, List.getLast?_cons, hb], ?_⟩
    have := hpass i (List.mem_of_getLast? hb)
    simp only [passes, Bool.and_eq_true, decide_eq_true_eq] at this
    exact this.1.le

end Emplace

/-! ## What the flags say -/

/-- A busy memory will be released, and a retry that it owes is sent then. -/
structure RequestSide (s : SimpleMemory) : Prop where
  busy : s.isBusy = s.releaseEvent.isSome
  event : ∀ e ∈ s.releaseEvent, s.curTick ≤ e
  retry : s.retryReq = true → s.isBusy = true
  owed : s.awaitsRetry = s.retryReq

/-- A queue that is not empty waits for one thing: its event, the answer of the peer, or the peer's retry. Its first
response is due when it is sent, and stays the first until the peer has taken it. -/
structure ResponseSide (s : SimpleMemory) : Prop where
  empty : s.packetQueue = [] → s.dequeueEvent = none ∧ s.sending = none ∧ s.owesRetry = false
  waits : s.sending = none → s.packetQueue ≠ [] → s.dequeueEvent.isSome.toNat + s.owesRetry.toNat = 1
  resp : s.sending = none → s.retryResp = s.owesRetry
  offered : ∀ d ∈ s.sending, s.packetQueue.head? = some d ∧ s.owesRetry = false ∧
    (s.dequeueEvent.isSome = true → s.calledBack = true ∧ 2 ≤ s.packetQueue.length)
  event : ∀ e ∈ s.dequeueEvent, s.curTick ≤ e ∧ ∀ d ∈ s.packetQueue.head?, d.tick ≤ e
  ready : s.sending.isSome = true ∨ s.owesRetry = true → ∀ d ∈ s.packetQueue.head?, d.tick ≤ s.curTick

/-- The responses taken and those that wait are those put into the queue, in order for each address; none is early. -/
structure Delivers (s : SimpleMemory) : Prop where
  perm : s.responses.Perm s.delivery
  order : ∀ pkt, s.responses.filter (·.pkt.matchAddr pkt) = s.delivery.filter (·.pkt.matchAddr pkt)
  early : ∀ p ∈ s.sent, p.1.tick ≤ p.2
  answered : ∀ r ∈ s.accepted, Answered r

structure Books (s : SimpleMemory) : Prop where
  requests : s.RequestSide
  queue : s.ResponseSide
  delivers : s.Delivers

section Books

variable {C : Params} {s : SimpleMemory}

/-! ## A request -/

/-- The response goes into the queue, and the event is scheduled if nothing else is awaited. -/
theorem queueResponse_ok (h : s.ResponseSide) (hcalled : s.sending.isSome = true → s.calledBack = true)
    {d : DeferredPacket} (hd : s.curTick ≤ d.tick) :
    ∃ e, s.queueResponse d = .ok { s with packetQueue := emplace d s.packetQueue, dequeueEvent := e } ∧
      ResponseSide { s with packetQueue := emplace d s.packetQueue, dequeueEvent := e } := by
  have hlen : (emplace d s.packetQueue).length = s.packetQueue.length + 1 := by
    rw [(emplace_perm d s.packetQueue).length_eq, List.length_append, List.length_singleton]
  have hne : emplace d s.packetQueue ≠ [] := by
    rw [← List.length_pos_iff, hlen]
    omega
  obtain ⟨back, hback, htick⟩ := emplace_last d s.packetQueue
  have hhead : s.packetQueue ≠ [] → (emplace d s.packetQueue).head? = s.packetQueue.head? := emplace_head
  by_cases hcond : s.retryResp = false ∧ s.dequeueEvent = none
  · obtain ⟨hresp, hev⟩ := hcond
    refine ⟨some back.tick, ?_, ?_⟩
    · simp only [queueResponse, hresp, hev, hback, schedule]
      rw [if_pos (by simp), if_neg (by simp; omega)]
      rfl
    · constructor
      · intro hnil
        exact absurd hnil hne
      · intro hs _
        have ho : s.owesRetry = false := (h.resp hs).symm.trans hresp
        simp [ho]
      · exact h.resp
      · intro x hx
        obtain ⟨hfirst, ho, -⟩ := h.offered x hx
        have hq : s.packetQueue ≠ [] := by
          rintro hnil
          simp [hnil] at hfirst
        refine ⟨(hhead hq).trans hfirst, ho, fun _ => ⟨hcalled (Option.isSome_of_mem hx), ?_⟩⟩
        have := List.length_pos_iff.mpr hq
        simp only [hlen]
        omega
      · rintro e ⟨⟩
        refine ⟨hd.trans htick, fun x hx => ?_⟩
        by_cases hq : s.packetQueue = []
        · simp only [hq, emplace, List.head?_cons, Option.mem_some_iff] at hx
          exact hx ▸ htick
        · simp only [hhead hq] at hx
          cases hs : s.sending with
          | none =>
            have := h.waits hs hq
            simp [hev, ← h.resp hs, hresp] at this
          | some y =>
            exact (h.ready (.inl (by simp [hs])) x hx).trans (hd.trans htick)
      · intro hs x hx
        have hq : s.packetQueue ≠ [] := by
          intro hq
          obtain ⟨-, hnone, hno⟩ := h.empty hq
          simp [hnone, hno] at hs
        simp only [hhead hq] at hx
        exact h.ready hs x hx
  · have hq : s.packetQueue ≠ [] := by
      intro hq
      obtain ⟨hev, hs, ho⟩ := h.empty hq
      exact hcond ⟨(h.resp hs).trans ho, hev⟩
    refine ⟨s.dequeueEvent, ?_, ?_⟩
    · simp only [queueResponse]
      rw [if_neg (by simpa using hcond)]
      rfl
    · constructor
      · intro hnil
        exact absurd hnil hne
      · intro hs _
        exact h.waits hs hq
      · exact h.resp
      · intro x hx
        obtain ⟨hfirst, ho, hev⟩ := h.offered x hx
        refine ⟨(hhead hq).trans hfirst, ho, fun he => ⟨(hev he).1, ?_⟩⟩
        have := (hev he).2
        simp only [hlen]
        omega
      · simp only [hhead hq]
        exact h.event
      · simp only [hhead hq]
        exact h.ready

theorem responseCommand_isResponse {cmd : MemCmd} (h : cmd.needsResponse = true) :
    cmd.responseCommand.isResponse = true := by
  revert h
  cases cmd <;> decide

theorem startBusy_ok (h : s.RequestSide) (hb : s.isBusy = false) (duration : Nat) :
    ∃ e b, s.startBusy duration = .ok { s with releaseEvent := e, isBusy := b } ∧
      RequestSide { s with releaseEvent := e, isBusy := b } := by
  have hnone : s.releaseEvent = none := by
    have := h.busy
    rw [hb] at this
    simpa using this.symm
  by_cases hd : duration = 0
  · exact ⟨s.releaseEvent, s.isBusy, by rw [startBusy, if_neg (by simpa using hd)], h⟩
  · refine ⟨some (s.curTick + duration), true, ?_, ?_⟩
    · rw [startBusy, if_pos hd, schedule, hnone, if_neg (by simp)]
      rfl
    · exact ⟨rfl, by rintro _ ⟨⟩; exact Nat.le_add_right _ _, fun _ => rfl, h.owed⟩

/-- The packet is not one that `access` leaves alone. -/
theorem not_ignores {pkt : MemPacket} (hc : pkt.cacheResponding = false) (hneeds : pkt.cmd.needsResponse = true) :
    AbstractMemory.ignores pkt = false := by
  rw [AbstractMemory.ignores, hc, Bool.false_or, Bool.or_eq_false_iff]
  constructor <;>
  · rw [decide_eq_false_iff_not]
    intro hcmd
    rw [hcmd] at hneeds
    exact absurd hneeds (by decide)

/-- A request that passes the checks is accepted if the memory is free. -/
theorem accept_books (h : Books s) (hcalled : s.sending.isSome = true → s.calledBack = true) {pkt : Packet}
    (random : Nat)
    (hc : pkt.cacheResponding = false) (hrw : (pkt.cmd.isRead || pkt.cmd.isWrite) = true) (hr : s.retryReq = false)
    (hb : s.isBusy = false) {m : AbstractMemory} {p : MemPacket}
    (hacc : s.mem.access C.abstractMem pkt.toMemPacket = .ok (m, p)) :
    ∃ s', s.recvTimingReq C pkt random = .ok (s', true) ∧ Books s' := by
  obtain ⟨hreq, hqueue, hdel⟩ := h
  obtain ⟨e, b, hbusy, hreq'⟩ := startBusy_ok hreq hb (C.duration pkt.data.length)
  have hatomic : recvAtomic C { s with releaseEvent := e, isBusy := b }
    { pkt with headerDelay := 0, payloadDelay := 0 } =
      .ok ({ s with mem := m, releaseEvent := e, isBusy := b },
        { pkt with toMemPacket := p, headerDelay := 0, payloadDelay := 0 }) := by
    rw [recvAtomic, if_neg (by simp [hc])]
    simp only [hacc]
  have hstart : s.recvTimingReq C pkt random =
      (s.startBusy (C.duration pkt.data.length)).bind fun s =>
        (s.recvAtomic C { pkt with headerDelay := 0, payloadDelay := 0 }).bind fun r =>
          if pkt.cmd.needsResponse then
            if r.2.cmd.isResponse then
              (r.1.queueResponse ⟨r.2, r.1.curTick + (pkt.headerDelay + pkt.payloadDelay) + C.getLatency random⟩).bind
                fun s =>
                .ok ({ s with accepted := s.accepted ++ [(pkt, some
                  ⟨r.2, r.1.curTick + (pkt.headerDelay + pkt.payloadDelay) + C.getLatency random⟩)] }, true)
            else .error .assertion
          else .ok ({ r.1 with accepted := r.1.accepted ++ [(pkt, none)] }, true) := by
    rw [recvTimingReq, if_neg (by simp [hc]), if_neg (by simp [hrw]), if_neg (by simp [hr]), if_neg (by simp [hb])]
    rfl
  rw [hstart, hbusy, Except.bind, hatomic, Except.bind]
  by_cases hneeds : pkt.cmd.needsResponse = true
  · obtain ⟨hcmd, haddr⟩ := AbstractMemory.access_answers hacc (not_ignores hc hneeds) hneeds
    have hresp : p.cmd.isResponse = true := by
      rw [hcmd]
      exact responseCommand_isResponse hneeds
    have hqueue' : ResponseSide { s with mem := m, releaseEvent := e, isBusy := b } :=
      ⟨hqueue.empty, hqueue.waits, hqueue.resp, hqueue.offered, hqueue.event, hqueue.ready⟩
    obtain ⟨f, hput, hside⟩ := queueResponse_ok hqueue' hcalled
      (d := ⟨{ pkt with toMemPacket := p, headerDelay := 0, payloadDelay := 0 },
        s.curTick + (pkt.headerDelay + pkt.payloadDelay) + C.getLatency random⟩) (by simp only; omega)
    rw [if_pos hneeds, if_pos hresp, hput, Except.bind]
    refine ⟨_, rfl, ⟨hreq'.busy, hreq'.event, hreq'.retry, hreq'.owed⟩,
      ⟨hside.empty, hside.waits, hside.resp, hside.offered, hside.event, hside.ready⟩, ?_, ?_, hdel.early, ?_⟩
    · simp only [responses, delivery, List.filterMap_append, List.filterMap_cons, List.filterMap_nil]
      refine (hdel.perm.append_right _).trans ?_
      rw [delivery, List.append_assoc]
      exact (emplace_perm _ _).symm.append_left _
    · intro pkt'
      have ho := hdel.order pkt'
      simp only [responses, delivery, List.filterMap_append, List.filterMap_cons, List.filterMap_nil,
        List.filter_append, emplace_filter] at ho ⊢
      rw [ho, List.append_assoc]
    · intro r hr'
      rcases List.mem_append.mp hr' with hr' | hr'
      · exact hdel.answered r hr'
      · cases List.mem_singleton.mp hr'
        refine ⟨hneeds.symm, ?_⟩
        rintro d ⟨⟩
        exact ⟨hcmd, haddr, rfl⟩
  · rw [if_neg hneeds]
    refine ⟨_, rfl, ⟨hreq'.busy, hreq'.event, hreq'.retry, hreq'.owed⟩,
      ⟨hqueue.empty, hqueue.waits, hqueue.resp, hqueue.offered, hqueue.event, hqueue.ready⟩, ?_, ?_, hdel.early, ?_⟩
    · simp only [responses, List.filterMap_append, List.filterMap_cons, List.filterMap_nil, List.append_nil]
      exact hdel.perm
    · intro pkt'
      simp only [responses, List.filterMap_append, List.filterMap_cons, List.filterMap_nil, List.append_nil]
      exact hdel.order pkt'
    · intro r hr'
      rcases List.mem_append.mp hr' with hr' | hr'
      · exact hdel.answered r hr'
      · cases List.mem_singleton.mp hr'
        exact ⟨(Bool.eq_false_iff.mpr hneeds).symm, by rintro d ⟨⟩⟩

theorem recvTimingReq_books (h : Books s) (pkt : Packet) (random : Nat) :
    (∃ s', s.exec C (.recvTimingReq pkt random) = .ok s' ∧ Books s') ∨
      Rejected C s pkt ∧ ∃ e, s.exec C (.recvTimingReq pkt random) = .error e ∧ e ≠ .assertion := by
  obtain ⟨hreq, hqueue, hdel⟩ := h
  have hbooks : Books { s with calledBack := s.sending.isSome } := by
    refine ⟨⟨hreq.busy, hreq.event, hreq.retry, hreq.owed⟩, ⟨hqueue.empty, hqueue.waits, hqueue.resp, ?_, hqueue.event,
      hqueue.ready⟩, ⟨hdel.perm, hdel.order, hdel.early, hdel.answered⟩⟩
    intro d hd
    obtain ⟨hfirst, ho, hev⟩ := hqueue.offered d hd
    exact ⟨hfirst, ho, fun he => ⟨Option.isSome_of_mem hd, (hev he).2⟩⟩
  -- a request is refused, and the retry for it is owed
  have hrefused : s.isBusy = true → Books
    { s with calledBack := s.sending.isSome, retryReq := true, awaitsRetry := true } := by
    intro hb
    obtain ⟨hreq, hqueue, hdel⟩ := hbooks
    exact ⟨⟨hreq.busy, hreq.event, fun _ => hb, rfl⟩,
      ⟨hqueue.empty, hqueue.waits, hqueue.resp, hqueue.offered, hqueue.event,
      hqueue.ready⟩, ⟨hdel.perm, hdel.order, hdel.early, hdel.answered⟩⟩
  by_cases hc : pkt.cacheResponding = true
  · refine .inr ⟨.inl hc, .panic, ?_, by simp⟩
    rw [exec, recvTimingReq, if_pos hc]
    rfl
  by_cases hrw : (pkt.cmd.isRead || pkt.cmd.isWrite) = true
  swap
  · rw [Bool.not_eq_true] at hrw
    refine .inr ⟨.inr (.inl hrw), .panic, ?_, by simp⟩
    rw [exec, recvTimingReq, if_neg hc, if_pos (by simp [hrw])]
    rfl
  by_cases hr : s.retryReq = true
  · refine .inl ⟨_, ?_, hrefused (hreq.retry hr)⟩
    rw [exec, recvTimingReq, if_neg hc, if_neg (by simp [hrw]), if_pos hr]
    simp only [Except.map, Bool.false_eq_true, if_false, hr]
  by_cases hb : s.isBusy = true
  · refine .inl ⟨_, ?_, hrefused hb⟩
    rw [exec, recvTimingReq, if_neg hc, if_neg (by simp [hrw]), if_neg hr, if_pos hb]
    rfl
  cases hacc : s.mem.access C.abstractMem pkt.toMemPacket with
  | error e =>
    refine .inr ⟨.inr (.inr ⟨e, hacc⟩), .access e, ?_, by simp⟩
    obtain ⟨f, b, hbusy, -⟩ := startBusy_ok (s := { s with calledBack := s.sending.isSome })
      ⟨hreq.busy, hreq.event, hreq.retry, hreq.owed⟩ (by simpa using hb) (C.duration pkt.data.length)
    rw [exec, recvTimingReq, if_neg hc, if_neg (by simp [hrw]), if_neg hr, if_neg hb, hbusy]
    simp only [bind, Except.bind, recvAtomic, hacc, if_neg hc, Except.map]
  | ok r =>
    obtain ⟨s', hs', hb'⟩ := accept_books (C := C) hbooks id random (by simpa using hc) hrw (by simpa using hr)
      (by simpa using hb) hacc
    exact .inl ⟨s', by rw [exec, hs']; rfl, hb'⟩

/-! ## The other calls and the events -/

theorem release_books (h : Books s) (hev : s.releaseEvent = some s.curTick) :
    ∃ s', s.exec C .release = .ok s' ∧ Books s' := by
  obtain ⟨hreq, hqueue, hdel⟩ := h
  have hb : s.isBusy = true := by rw [hreq.busy, hev]; rfl
  have hbooks : ∀ a, a = false → Books { s with releaseEvent := none, isBusy := false, retryReq := false, awaitsRetry :=
    a } := by
    rintro a rfl
    exact ⟨⟨rfl, by simp, by simp, rfl⟩, ⟨hqueue.empty, hqueue.waits, hqueue.resp, hqueue.offered, hqueue.event,
      hqueue.ready⟩, ⟨hdel.perm, hdel.order, hdel.early, hdel.answered⟩⟩
  cases hr : s.retryReq with
  | true =>
    refine ⟨_, ?_, hbooks false rfl⟩
    simp only [exec, release, hb, if_true, hr, sendRetryReq]
  | false =>
    refine ⟨_, ?_, hbooks s.awaitsRetry (hreq.owed.trans hr)⟩
    simp only [exec, release, hb, if_true, hr, Bool.false_eq_true, if_false]

/-- What the calls of `dequeue` do, once nothing else is awaited. -/
theorem dequeue_ok (hne : s.packetQueue ≠ []) (hready : ∀ d ∈ s.packetQueue.head?, d.tick ≤ s.curTick)
    (hev : s.dequeueEvent = none) (ho : s.owesRetry = false) :
    ∃ d, s.dequeue = .ok { s with sending := some d } ∧ ResponseSide { s with sending := some d } := by
  obtain ⟨d, ds, hl⟩ := List.exists_cons_of_ne_nil hne
  refine ⟨d, by simp only [dequeue, hl], ?_⟩
  constructor
  · intro hnil
    exact absurd hnil hne
  · simp
  · simp
  · rintro _ ⟨⟩
    simp [hl, ho, hev]
  · simp [hev]
  · exact fun _ => hready

section

variable (h : Books s)
include h

theorem dequeue_books (hev : s.dequeueEvent = some s.curTick) (hs : s.sending = none) :
    ∃ s', s.exec C .dequeue = .ok s' ∧ Books s' := by
  obtain ⟨hreq, hqueue, hdel⟩ := h
  have hne : s.packetQueue ≠ [] := by
    intro hnil
    rw [(hqueue.empty hnil).1] at hev
    cases hev
  have ho : s.owesRetry = false := by
    have := hqueue.waits hs hne
    cases ho : s.owesRetry with
    | false => rfl
    | true => simp [hev, ho] at this
  obtain ⟨d, hd, hside⟩ := dequeue_ok (s := { s with dequeueEvent := none }) hne (hqueue.event _ hev).2 rfl ho
  exact ⟨_, hd, ⟨hreq.busy, hreq.event, hreq.retry, hreq.owed⟩, hside,
    ⟨hdel.perm, hdel.order, hdel.early, hdel.answered⟩⟩

theorem recvRespRetry_books (ho : s.owesRetry = true) : ∃ s', s.exec C .recvRespRetry = .ok s' ∧ Books s' := by
  obtain ⟨hreq, hqueue, hdel⟩ := h
  have hne : s.packetQueue ≠ [] := by
    intro hnil
    rw [(hqueue.empty hnil).2.2] at ho
    cases ho
  have hs : s.sending = none := by
    cases hs : s.sending with
    | none => rfl
    | some d => exact absurd ho (by simp [(hqueue.offered d hs).2.1])
  have hev : s.dequeueEvent = none := by
    have := hqueue.waits hs hne
    cases hev : s.dequeueEvent with
    | none => rfl
    | some e => simp [hev, ho] at this
  obtain ⟨d, hd, hside⟩ := dequeue_ok (s := { s with owesRetry := false }) hne (hqueue.ready (.inr ho)) hev rfl
  refine ⟨{ s with owesRetry := false, sending := some d }, ?_, ⟨hreq.busy, hreq.event, hreq.retry, hreq.owed⟩, hside,
    ⟨hdel.perm, hdel.order, hdel.early, hdel.answered⟩⟩
  rw [exec, recvRespRetry, if_pos ((hqueue.resp hs).trans ho)]
  exact hd

theorem respRefused_books (hs : s.sending.isSome = true) (hcalled : s.calledBack = false) : Books s.respRefused := by
  obtain ⟨hreq, hqueue, hdel⟩ := h
  obtain ⟨d, hd⟩ := Option.isSome_iff_exists.mp hs
  obtain ⟨hfirst, -, hev⟩ := hqueue.offered d hd
  have hnone : s.dequeueEvent = none := by
    cases he : s.dequeueEvent with
    | none => rfl
    | some e => exact absurd (hev (by simp [he])).1 (by simp [hcalled])
  refine ⟨⟨hreq.busy, hreq.event, hreq.retry, hreq.owed⟩, ?_, ⟨hdel.perm, hdel.order, hdel.early, hdel.answered⟩⟩
  constructor
  · intro hnil
    simp only [respRefused] at hnil
    simp [hnil] at hfirst
  · intro _ _
    simp [respRefused, hnone]
  · simp [respRefused]
  · simp [respRefused]
  · exact hqueue.event
  · exact fun _ => hqueue.ready (.inl hs)

/-- The response that is with the peer is taken, and the next one waits for its event. -/
theorem respTaken_books (hs : s.sending.isSome = true) : ∃ s', s.exec C .respTaken = .ok s' ∧ Books s' := by
  obtain ⟨hreq, hqueue, hdel⟩ := h
  obtain ⟨d, hd⟩ := Option.isSome_iff_exists.mp hs
  obtain ⟨hfirst, ho, hev⟩ := hqueue.offered d hd
  obtain ⟨ds, hl⟩ : ∃ ds, s.packetQueue = d :: ds := by
    cases hq : s.packetQueue with
    | nil => simp [hq] at hfirst
    | cons x xs =>
      rw [hq, List.head?_cons, Option.some.injEq] at hfirst
      exact ⟨xs, by rw [hfirst]⟩
  have hdue : d.tick ≤ s.curTick := hqueue.ready (.inl hs) d (by simp [hl])
  have hdel' : ∀ e, Delivers { s with retryResp := false, packetQueue := ds, sending := none, calledBack := false,
                                      sent := s.sent ++ [(d, s.curTick)], dequeueEvent := e } := by
    intro e
    have hsame : s.delivery = (s.sent ++ [(d, s.curTick)]).map (·.1) ++ ds := by
      simp [delivery, hl]
    refine ⟨?_, ?_, ?_, hdel.answered⟩
    · simp only [responses, delivery, ← hsame]
      exact hdel.perm
    · simp only [responses, delivery, ← hsame]
      exact hdel.order
    · intro p hp
      rcases List.mem_append.mp hp with hp | hp
      · exact hdel.early p hp
      · cases List.mem_singleton.mp hp
        exact hdue
  cases ds with
  | nil =>
    have hnone : s.dequeueEvent = none := by
      cases he : s.dequeueEvent with
      | none => rfl
      | some e =>
        have := (hev (by simp [he])).2
        simp [hl] at this
    refine ⟨{ s with retryResp := false, packetQueue := [], sending := none, calledBack := false,
                     sent := s.sent ++ [(d, s.curTick)], dequeueEvent := s.dequeueEvent }, ?_,
      ⟨hreq.busy, hreq.event, hreq.retry, hreq.owed⟩, ?_, hdel' _⟩
    · simp [exec, respTaken, hl, hd]
    · constructor <;> simp [hnone, ho]
  | cons x xs =>
    refine ⟨{ s with retryResp := false, packetQueue := x :: xs, sending := none, calledBack := false,
                     sent := s.sent ++ [(d, s.curTick)], dequeueEvent := some (max x.tick s.curTick) }, ?_,
      ⟨hreq.busy, hreq.event, hreq.retry, hreq.owed⟩, ?_, hdel' _⟩
    · simp only [exec, respTaken, hl, hd, List.tail_cons, reschedule]
      rw [if_neg (by omega)]
      rfl
    · constructor <;> simp [ho]

theorem advance_books {t : Nat} (ht : s.curTick < t) (hr : ∀ e ∈ s.releaseEvent, t ≤ e)
    (hd : ∀ e ∈ s.dequeueEvent, t ≤ e) :
    Books { s with curTick := t } := by
  obtain ⟨hreq, hqueue, hdel⟩ := h
  refine ⟨⟨hreq.busy, hr, hreq.retry, hreq.owed⟩, ⟨hqueue.empty, hqueue.waits, hqueue.resp, hqueue.offered, ?_, ?_⟩,
    ⟨hdel.perm, hdel.order, hdel.early, hdel.answered⟩⟩
  · intro e he
    exact ⟨hd e he, (hqueue.event e he).2⟩
  · intro hs d hd'
    exact (hqueue.ready hs d hd').trans ht.le

/-- **No assertion fails, and the books stay right**; a packet that is not for a memory is reported. -/
theorem exec_books {op : Op} (hop : s.Allowed C op) : (∃ s', s.exec C op = .ok s' ∧ Books s') ∨
      ∃ pkt random e, op = .recvTimingReq pkt random ∧ Rejected C s pkt ∧ s.exec C op = .error e ∧ e ≠ .assertion := by
  cases op with
  | recvTimingReq pkt random =>
    rcases recvTimingReq_books h pkt random with hok | ⟨hrej, e, he, hne⟩
    · exact .inl hok
    · exact .inr ⟨pkt, random, e, rfl, hrej, he, hne⟩
  | release => exact .inl (release_books h hop.1)
  | dequeue => exact .inl (dequeue_books h hop.1 (Option.isNone_iff_eq_none.mp hop.2))
  | respTaken => exact .inl (respTaken_books h hop)
  | respRefused => exact .inl ⟨_, rfl, respRefused_books h hop.1 hop.2⟩
  | recvRespRetry => exact .inl (recvRespRetry_books h hop)
  | advance t => exact .inl ⟨_, rfl, advance_books h hop.1 hop.2.1 hop.2.2.1⟩

end

theorem books_init (h : Fresh s) : Books s := by
  obtain ⟨hq, hb, hr, hp, hre, hde, hs, hc, ho, ha, hacc, hsent⟩ := h
  rw [List.isEmpty_iff] at hq hacc hsent
  rw [Option.isNone_iff_eq_none] at hs
  refine ⟨⟨?_, ?_, ?_, ?_⟩, ⟨?_, ?_, ?_, ?_, ?_, ?_⟩, ⟨?_, ?_, ?_, ?_⟩⟩ <;>
    simp [hq, hb, hr, hp, hre, hde, hs, ho, ha, hacc, hsent, responses, delivery]

theorem books_reachable (h : (system C).Reachable s) : Books s := by
  refine System.invariantWhen (I := Books) (fun _ => books_init) ?_ h
  intro s op s' _ hs _ hstep
  simp only [system, Option.ite_none_right_eq_some] at hstep
  obtain ⟨hop, hok⟩ := hstep
  rcases exec_books hs hop with ⟨s₁, h₁, hb⟩ | ⟨-, -, e, -, -, he, -⟩
  · cases (ok_of_toOption hok).symm.trans h₁
    exact hb
  · cases (ok_of_toOption hok).symm.trans he

/-- **The responses of a memory**, in every state of every run: each accepted request that needs a response has exactly
one, taken by the peer or waiting; none is taken before its tick; those to one address are in the order of their
requests; a queue that waits for no answer of the peer waits for its event or for the peer's retry; and whatever happens
next, no assertion fails. -/
theorem simpleMemory_responses (h : (system C).Reachable s) :
    ((∀ r ∈ s.accepted, Answered r) ∧ s.responses.Perm (s.sent.map (·.1) ++ s.packetQueue)) ∧
    (∀ p ∈ s.sent, p.1.tick ≤ p.2) ∧
    (∀ pkt, s.responses.filter (·.pkt.matchAddr pkt) =
      (s.sent.map (·.1) ++ s.packetQueue).filter (·.pkt.matchAddr pkt)) ∧
    (s.packetQueue ≠ [] → s.sending = none → s.dequeueEvent.isSome = true ∨ s.retryResp = true ∧ s.owesRetry = true) ∧
    (∀ op, s.Allowed C op → (∃ s', s.exec C op = .ok s') ∨
      ∃ pkt random e, op = .recvTimingReq pkt random ∧ Rejected C s pkt ∧ s.exec C op = .error e ∧ e ≠ .assertion) := by
  have hbooks := books_reachable h
  have hqueue := hbooks.queue
  have hdel := hbooks.delivers
  refine ⟨⟨hdel.answered, hdel.perm⟩, hdel.early, hdel.order, ?_, fun op hop => ?_⟩
  · intro hne hs
    have hw := hqueue.waits hs hne
    cases ho : s.owesRetry with
    | true => exact .inr ⟨(hqueue.resp hs).trans ho, rfl⟩
    | false =>
      rw [ho, Bool.toNat_false, Nat.add_zero, Bool.toNat_eq_one] at hw
      exact .inl hw
  · rcases exec_books hbooks hop with ⟨s', hs', -⟩ | hrej
    · exact .inl ⟨s', hs'⟩
    · exact .inr hrej

end Books

/-- Three reads, the latencies of which differ: the third overtakes the second but not the first, which has its address
and is refused once. -/
theorem simpleMemory_responses_three_reads :
    ∃ (C : Params) (s : SimpleMemory), ((system C).Reachable s ∧ s.sent.map (fun p => (p.1.pkt.addr, p.1.tick, p.2)) =
      [(0x40, 12, 12), (0x40, 10, 12)] ∧ s.packetQueue.map (fun d => (d.pkt.addr, d.tick)) = [(0x80, 15)]) ∧
      s.responses.Perm (s.sent.map (·.1) ++ s.packetQueue) := by
  let C : Params := ⟨⟨Base.rangeSize 0 0x1000, false⟩, 10, 5, fun _ => 0⟩
  let read (a : Base.Addr) : Packet := ⟨⟨.ReadReq, a, [0], [], false, none, 0, false, none, false⟩, false, 0, 0⟩
  let s₀ : SimpleMemory := ⟨⟨fun _ => 0, []⟩, [], false, false, false, none, none, 0, none, false, false, false, [], []⟩
  have h₀ : (system C).init s₀ := by simp [system, Fresh, s₀]
  obtain ⟨s, hs, hsent, hqueue⟩ := System.reachable_of_replay h₀
    [.recvTimingReq (read 0x40) 2, .recvTimingReq (read 0x80) 5, .recvTimingReq (read 0x40) 0, .advance 12, .dequeue,
      .respRefused, .recvRespRetry, .respTaken, .dequeue, .respTaken]
    (fun s => s.sent.map (fun p => (p.1.pkt.addr, p.1.tick, p.2)) = [(0x40, 12, 12), (0x40, 10, 12)] ∧
      s.packetQueue.map (fun d => (d.pkt.addr, d.tick)) = [(0x80, 15)]) (by decide)
  exact ⟨C, s, ⟨hs, hsent, hqueue⟩, (simpleMemory_responses hs).1.2⟩

end SimpleMemory

end Salam.Mem
