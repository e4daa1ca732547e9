import Mathlib.Data.List.Perm.Subperm
import Salam.Lib.System
import Salam.Mem.Clocked

/-!
# `Bridge`

A bridge takes requests on its slave port and sends them on through its master port; responses come back the other way.
Both ports send in the same way (`SendSide`): the packets wait in a list, and `sendEvent` is scheduled for the first of
them. `trySendTiming` is cut in two at the call of `sendTimingReq` or `sendTimingResp`, so that the peers can call the
bridge while they take a packet. `sendRetryReq` is the last that a call does, and what the peer sends from inside it
comes right after.

* `SendSide.Ok`: a list that is not empty has its event scheduled, or its first packet with the peer, or a retry coming.
* `Bridge.Books`: what the limits, the counter and the flag have to do with the packets.
* `bridge_flow_control`: it holds in every run, no assertion fails, and a retry that is owed is sent.
-/

namespace Salam.Mem

namespace Bridge

structure DeferredPacket (P : Type) where
  pkt : P
  tick : Nat
  deriving DecidableEq

inductive Err
  | assertion
  deriving DecidableEq

/-- The sending half of a port. -/
structure SendSide (P : Type) where
  transmitList : List (DeferredPacket P)
  /-- When `sendEvent` is scheduled. -/
  sendEvent : Option Nat
  /-- The first packet is with the peer, which has not answered. -/
  sending : Bool
  /-- The peer has refused the first packet and not yet asked for it again. -/
  owesRetry : Bool

namespace SendSide

variable {P : Type} (q : SendSide P)

/-- `schedule`, which asserts that the event is not scheduled and that the tick is not past. -/
def schedule (curTick when : Nat) : Except Err (SendSide P) :=
  if q.sendEvent.isSome ∨ when < curTick then .error .assertion else .ok { q with sendEvent := some when }

/-- Schedule the event for a packet that is about to be the first. -/
def startSend (curTick when : Nat) : Except Err (SendSide P) :=
  if q.transmitList.isEmpty then q.schedule curTick when else .ok q

/-- `transmitList.emplace_back` -/
def enqueue (d : DeferredPacket P) : SendSide P := { q with transmitList := q.transmitList ++ [d] }

/-- `trySendTiming` up to the call of the peer. -/
def trySendTiming (curTick : Nat) : Except Err (SendSide P) :=
  match q.transmitList with
  | [] => .error .assertion
  | d :: _ => if d.tick ≤ curTick then .ok { q with sending := true } else .error .assertion

/-- `transmitList.pop_front`, after the peer has taken the packet. -/
def popFront : SendSide P := { q with transmitList := q.transmitList.tail, sending := false }

/-- Schedule the event for the packet that is the first now. -/
def scheduleNext (curTick edge : Nat) : Except Err (SendSide P) :=
  match q.transmitList with
  | [] => .ok q
  | d :: _ => q.schedule curTick (max d.tick edge)

/-- The peer has refused the packet. -/
def refused : SendSide P := { q with sending := false, owesRetry := true }

/-- The packet that is with the peer. -/
def offered : List P := if q.sending then (q.transmitList.head?.map (·.pkt)).toList else []

end SendSide

/-- The parameters of a bridge, and what it reads of a packet. -/
structure Params (P : Type) where
  needsResponse : P → Bool
  delay : Nat
  reqQueueLimit : Nat
  respQueueLimit : Nat
  clock : Clock

/-- What the peer on the slave side sees. -/
inductive Note
  | refused
  | retry
  deriving DecidableEq

end Bridge

open Bridge in
/-- The two ports of a bridge: `master` sends the requests, `slave` the responses. -/
structure Bridge (P : Type) where
  master : SendSide P
  slave : SendSide P
  outstandingResponses : Nat
  retryReq : Bool
  curTick : Nat
  /-- The requests accepted and sent on, the responses that have come and have been delivered. -/
  accepted : List P
  forwarded : List P
  arrived : List P
  delivered : List P
  log : List Note

namespace Bridge

variable {P : Type}

def respQueueFull (C : Params P) (s : Bridge P) : Bool := s.outstandingResponses = C.respQueueLimit

def reqQueueFull (C : Params P) (s : Bridge P) : Bool := s.master.transmitList.length = C.reqQueueLimit

def schedTimingReq (C : Params P) (s : Bridge P) (pkt : P) (when : Nat) : Except Err (Bridge P) := do
  let q ← s.master.startSend s.curTick when
  if q.transmitList.length = C.reqQueueLimit then throw .assertion
  return { s with master := q.enqueue ⟨pkt, when⟩ }

def schedTimingResp (s : Bridge P) (pkt : P) (when : Nat) : Except Err (Bridge P) := do
  let q ← s.slave.startSend s.curTick when
  return { s with slave := q.enqueue ⟨pkt, when⟩ }

/-- `recvTimingReq`, and its answer; the delays of the packet are those it comes with. No cache responds to the packet:
at the start the source panics if `cacheResponding` is set. -/
def recvTimingReq (C : Params P) (s : Bridge P) (pkt : P) (headerDelay payloadDelay : Nat) :
    Except Err (Bridge P × Bool) :=
  if s.retryReq then .ok (s, false)
  else if s.reqQueueFull C then .ok ({ s with retryReq := true }, false)
  else do
    let s ←
      if C.needsResponse pkt then
        if s.respQueueFull C then pure { s with retryReq := true }
        else if s.outstandingResponses = C.respQueueLimit then throw .assertion
        else pure { s with outstandingResponses := s.outstandingResponses + 1 }
      else pure s
    let s ←
      if s.retryReq = false then
        s.schedTimingReq C pkt (C.clock.clockEdge s.curTick C.delay + (headerDelay + payloadDelay))
      else pure s
    return (s, !s.retryReq)

def recvTimingResp (C : Params P) (s : Bridge P) (pkt : P) (headerDelay payloadDelay : Nat) : Except Err (Bridge P) :=
  s.schedTimingResp pkt (C.clock.clockEdge s.curTick C.delay + (headerDelay + payloadDelay))

def sendRetryReq (s : Bridge P) : Bridge P := { s with log := s.log ++ [.retry] }

def retryStalledReq (s : Bridge P) : Bridge P :=
  if s.retryReq then { s with retryReq := false }.sendRetryReq else s

/-- The rest of `BridgeMasterPort::trySendTiming`, when the peer has taken the request. -/
def requestSent (C : Params P) (s : Bridge P) : Except Err (Bridge P) := do
  let q ← s.master.popFront.scheduleNext s.curTick (C.clock.clockEdge s.curTick 0)
  return { s with master := q }.retryStalledReq

/-- The rest of `BridgeSlavePort::trySendTiming`, when the peer has taken the response. -/
def responseSent (C : Params P) (s : Bridge P) : Except Err (Bridge P) := do
  let q := s.slave.popFront
  if s.outstandingResponses = 0 then throw .assertion
  let q ← q.scheduleNext s.curTick (C.clock.clockEdge s.curTick 0)
  let s := { s with slave := q, outstandingResponses := s.outstandingResponses - 1 }
  return if !s.reqQueueFull C && s.retryReq then { s with retryReq := false }.sendRetryReq else s

/-- What can happen. -/
inductive Op (P : Type)
  | recvTimingReq (pkt : P) (headerDelay payloadDelay : Nat)
  | recvTimingResp (pkt : P) (headerDelay payloadDelay : Nat)
  /-- `sendEvent` of the master port, the answers to `sendTimingReq`, and the retry of a refused request. -/
  | sendRequest
  | requestTaken
  | requestRefused
  | recvReqRetry
  /-- `sendEvent` of the slave port, the answers to `sendTimingResp`, and the retry of a refused response. -/
  | sendResponse
  | responseTaken
  | responseRefused
  | recvRespRetry
  | advance (t : Nat)
  deriving DecidableEq

section Exec

variable [DecidableEq P]

/-- The peers: a response comes once for each request that needs one and has been sent, a request that is answered is
not refused, and a retry follows a refusal. Events run one after the other, not inside a call, and in the order of
time. -/
def Allowed (C : Params P) (s : Bridge P) : Op P → Prop
  | .recvTimingReq _ _ _ => True
  | .recvTimingResp pkt _ _ =>
    C.needsResponse pkt = true ∧ s.arrived.count pkt < (s.forwarded ++ s.master.offered).count pkt
  | .sendRequest => s.master.sendEvent = some s.curTick ∧ s.master.sending = false ∧ s.slave.sending = false
  | .requestTaken => s.master.sending = true
  | .requestRefused => s.master.sending = true ∧ ∀ p ∈ s.master.offered, s.arrived.count p ≤ s.forwarded.count p
  | .recvReqRetry => s.master.owesRetry = true
  | .sendResponse => s.slave.sendEvent = some s.curTick ∧ s.master.sending = false ∧ s.slave.sending = false
  | .responseTaken => s.slave.sending = true
  | .responseRefused => s.slave.sending = true
  | .recvRespRetry => s.slave.owesRetry = true
  | .advance t =>
    s.curTick < t ∧ (∀ e ∈ s.master.sendEvent, t ≤ e) ∧ (∀ e ∈ s.slave.sendEvent, t ≤ e) ∧ s.master.sending = false ∧
      s.slave.sending = false

instance (C : Params P) (s : Bridge P) (op : Op P) : Decidable (s.Allowed C op) := by
  cases op <;> unfold Allowed <;> infer_instance

end Exec

/-- One call, answer or event. -/
def exec (C : Params P) (s : Bridge P) : Op P → Except Err (Bridge P)
  | .recvTimingReq pkt headerDelay payloadDelay =>
    (s.recvTimingReq C pkt headerDelay payloadDelay).map fun r =>
      if r.2 then { r.1 with accepted := s.accepted ++ [pkt] } else { r.1 with log := s.log ++ [.refused] }
  | .recvTimingResp pkt headerDelay payloadDelay =>
    (s.recvTimingResp C pkt headerDelay payloadDelay).map fun s' => { s' with arrived := s.arrived ++ [pkt] }
  | .sendRequest =>
    ({ s.master with sendEvent := none }.trySendTiming s.curTick).map fun q => { s with master := q }
  | .requestTaken =>
    (s.requestSent C).map fun s' => { s' with forwarded := s.forwarded ++ s.master.offered }
  | .requestRefused => .ok { s with master := s.master.refused }
  | .recvReqRetry =>
    ({ s.master with owesRetry := false }.trySendTiming s.curTick).map fun q => { s with master := q }
  | .sendResponse =>
    ({ s.slave with sendEvent := none }.trySendTiming s.curTick).map fun q => { s with slave := q }
  | .responseTaken =>
    (s.responseSent C).map fun s' => { s' with delivered := s.delivered ++ s.slave.offered }
  | .responseRefused => .ok { s with slave := s.slave.refused }
  | .recvRespRetry =>
    ({ s.slave with owesRetry := false }.trySendTiming s.curTick).map fun q => { s with slave := q }
  | .advance t => .ok { s with curTick := t }

/-- A bridge made by the constructor. -/
def Fresh (s : Bridge P) : Prop :=
  s.master = ⟨[], none, false, false⟩ ∧ s.slave = ⟨[], none, false, false⟩ ∧ s.outstandingResponses = 0 ∧
    s.retryReq = false ∧ s.accepted = [] ∧ s.forwarded = [] ∧ s.arrived = [] ∧ s.delivered = [] ∧ s.log = []

/-- Every interleaving of calls, answers and events. -/
def system [DecidableEq P] (C : Params P) : System (Bridge P) (Op P) where
  init := Fresh
  step s op := if s.Allowed C op then (s.exec C op).toOption else none

/-! ## The sending half of a port -/

namespace SendSide

/-- A list that is not empty waits for one thing; the first packet is due when it is sent. -/
structure Ok (q : SendSide P) (t : Nat) : Prop where
  empty : q.transmitList = [] → q.sendEvent = none ∧ q.sending = false ∧ q.owesRetry = false
  waits : q.transmitList ≠ [] → q.sendEvent.isSome.toNat + q.sending.toNat + q.owesRetry.toNat = 1
  event : ∀ e ∈ q.sendEvent, t ≤ e ∧ ∀ d ∈ q.transmitList.head?, d.tick ≤ e
  ready : q.sending = true ∨ q.owesRetry = true → ∀ d ∈ q.transmitList.head?, d.tick ≤ t

variable {q : SendSide P} {t : Nat}

section

variable (h : q.Ok t)
include h

theorem enqueue_ok {d : DeferredPacket P} (hd : t ≤ d.tick) :
    ∃ q', q.startSend t d.tick = .ok q' ∧ q'.transmitList = q.transmitList ∧ q'.sending = q.sending ∧
    (q'.enqueue d).Ok t := by
  cases hl : q.transmitList with
  | nil =>
    obtain ⟨hev, hs, ho⟩ := h.empty hl
    refine ⟨{ q with sendEvent := some d.tick }, ?_, hl, rfl, ?_⟩
    · simp only [startSend, hl, List.isEmpty_nil, if_true, schedule, hev, Option.isSome_none, Bool.false_eq_true,
        false_or]
      rw [if_neg (by omega)]
    · constructor
      · simp [enqueue]
      · simp [enqueue, hs, ho]
      · intro e he
        cases he
        exact ⟨hd, by simp [enqueue, hl]⟩
      · simp [enqueue, hs, ho]
  | cons x xs =>
    refine ⟨q, by simp [startSend, hl], hl, rfl, ?_⟩
    have hne : q.transmitList ≠ [] := by simp [hl]
    have hhead : (q.transmitList ++ [d]).head? = q.transmitList.head? := by simp [hl]
    constructor
    · simp [enqueue]
    · intro _
      exact h.waits hne
    · intro e he
      simp only [enqueue, hhead]
      exact h.event e he
    · simp only [enqueue, hhead]
      exact h.ready

theorem trySend_event (hev : q.sendEvent = some t) :
    { q with sendEvent := none }.trySendTiming t = .ok { q with sendEvent := none, sending := true } ∧
      ({ q with sendEvent := none, sending := true } : SendSide P).Ok t := by
  cases hl : q.transmitList with
  | nil =>
    rw [(h.empty hl).1] at hev
    cases hev
  | cons d ds =>
    have hd : d.tick ≤ t := (h.event t hev).2 d (by simp [hl])
    have hw := h.waits (by simp [hl])
    have hs : q.owesRetry = false := by
      cases ho : q.owesRetry with
      | false => rfl
      | true => simp [hev, ho] at hw
    refine ⟨by simp [trySendTiming, hd], ?_, ?_, ?_, ?_⟩
    · simp
    · simp [hs]
    · simp
    · simp [hd]

theorem trySend_retry (ho : q.owesRetry = true) :
    { q with owesRetry := false }.trySendTiming t = .ok { q with owesRetry := false, sending := true } ∧
      ({ q with owesRetry := false, sending := true } : SendSide P).Ok t := by
  cases hl : q.transmitList with
  | nil =>
    rw [(h.empty hl).2.2] at ho
    cases ho
  | cons d ds =>
    have hd : d.tick ≤ t := h.ready (.inr ho) d (by simp [hl])
    have hw := h.waits (by simp [hl])
    have hev : q.sendEvent = none := by
      cases hev : q.sendEvent with
      | none => rfl
      | some e => simp [hev, ho] at hw
    refine ⟨by simp [trySendTiming, hd], ?_, ?_, ?_, ?_⟩
    · simp
    · simp [hev]
    · simp [hev]
    · simp [hd]

/-- The packet that is with the peer is the first of the list. -/
theorem Ok.offered (hs : q.sending = true) :
    ∃ d ds, q.transmitList = d :: ds ∧ q.offered = [d.pkt] ∧ q.sendEvent = none ∧ q.owesRetry = false := by
  cases hl : q.transmitList with
  | nil =>
    rw [(h.empty hl).2.1] at hs
    cases hs
  | cons d ds =>
    have hw := h.waits (by simp [hl])
    refine ⟨d, ds, rfl, by simp [SendSide.offered, hs, hl], ?_, ?_⟩
    · cases hev : q.sendEvent with
      | none => rfl
      | some e =>
        simp [hev, hs] at hw
        omega
    · cases ho : q.owesRetry with
      | false => rfl
      | true => simp [ho, hs] at hw

theorem taken_ok (hs : q.sending = true) {edge : Nat} (hedge : t ≤ edge) :
    ∃ q', q.popFront.scheduleNext t edge = .ok q' ∧ q'.transmitList = q.transmitList.tail ∧
    q'.sending = false ∧ q'.Ok t := by
  obtain ⟨d, ds, hl, -, hev, ho⟩ := h.offered hs
  cases ds with
  | nil =>
    refine ⟨q.popFront, by simp [scheduleNext, popFront, hl], by simp [popFront], rfl, ?_⟩
    constructor <;> simp [popFront, hl, hev, ho]
  | cons x xs =>
    have hle : t ≤ max x.tick edge := hedge.trans (Nat.le_max_right _ _)
    refine ⟨{ q.popFront with sendEvent := some (max x.tick edge) }, ?_, by simp [popFront], rfl, ?_⟩
    · simp only [scheduleNext, popFront, hl, List.tail_cons, schedule, hev, Option.isSome_none, Bool.false_eq_true,
        false_or]
      rw [if_neg (by omega)]
    · constructor
      · simp [popFront, hl]
      · simp [popFront, ho]
      · intro e he
        cases he
        exact ⟨hle, by simp [popFront, hl]⟩
      · simp [popFront, ho]

theorem refused_ok (hs : q.sending = true) : q.refused.Ok t := by
  obtain ⟨d, ds, hl, -, hev, ho⟩ := h.offered hs
  constructor
  · simp [refused, hl]
  · simp [refused, hev]
  · simp [refused, hev]
  · intro _
    exact h.ready (.inl hs)

theorem advance_ok {t' : Nat} (ht : t < t') (hev : ∀ e ∈ q.sendEvent, t' ≤ e) : q.Ok t' := by
  constructor
  · exact h.empty
  · exact h.waits
  · intro e he
    exact ⟨hev e he, (h.event e he).2⟩
  · intro hr d hd
    exact (h.ready hr d hd).trans ht.le

end

end SendSide

/-! ## The books of a bridge -/

section Books

variable [DecidableEq P] {C : Params P} {s s' : Bridge P} {q : SendSide P}

/-- What the limits, the counter and the flag have to do with the packets. -/
structure Books (C : Params P) (s : Bridge P) : Prop where
  master : s.master.Ok s.curTick
  slave : s.slave.Ok s.curTick
  reqLimit : s.master.transmitList.length ≤ C.reqQueueLimit
  respLimit : s.outstandingResponses ≤ C.respQueueLimit
  /-- The requests that were accepted are those that were sent on, in order, and those that wait. -/
  requests : s.accepted = s.forwarded ++ s.master.transmitList.map (·.pkt)
  /-- The responses that have come are those that were delivered, in order, and those that wait. -/
  responses : s.arrived = s.delivered ++ s.slave.transmitList.map (·.pkt)
  /-- The counter is the number of requests whose response has not been delivered. -/
  outstanding : s.outstandingResponses + s.delivered.length = s.accepted.countP C.needsResponse
  answered : ∀ p, s.arrived.count p ≤ if C.needsResponse p then (s.forwarded ++ s.master.offered).count p else 0
  /-- A retry is owed only while something is under way that will trigger it. -/
  retry : s.retryReq = true → s.master.transmitList ≠ [] ∨ 0 < s.outstandingResponses
  /-- A retry is owed as long as a refused request has not been sent one. -/
  owed : s.retryReq = true ↔ s.log.getLast? = some .refused

/-- The responses that wait are for requests that are counted. -/
theorem Books.waiting_le (h : Books C s) : s.slave.transmitList.length ≤ s.outstandingResponses := by
  have hsub : s.arrived.Subperm (s.accepted.filter C.needsResponse) := by
    apply List.subperm_ext_iff.mpr
    intro p _
    refine (h.answered p).trans ?_
    split
    · rename_i hn
      rw [List.count_filter hn, h.requests, List.count_append, List.count_append]
      refine Nat.add_le_add_left ?_ _
      unfold SendSide.offered
      split
      · cases s.master.transmitList with
        | nil => simp
        | cons d ds =>
          exact List.Sublist.count_le p (List.cons_sublist_cons.mpr (List.nil_sublist _))
      · simp
    · exact Nat.zero_le _
  have hlen := hsub.length_le
  rw [← List.countP_eq_length_filter, ← h.outstanding, h.responses, List.length_append, List.length_map] at hlen
  omega

/-- A request that is refused sets the flag. -/
theorem books_refuse (h : Books C s) (hcause :
    s.retryReq = true ∨ s.master.transmitList ≠ [] ∨ 0 < s.outstandingResponses) :
    Books C { s with retryReq := true, log := s.log ++ [.refused] } := by
  refine ⟨h.master, h.slave, h.reqLimit, h.respLimit, h.requests, h.responses, h.outstanding, h.answered, ?_, ?_⟩
  · intro _
    rcases hcause with hr | hc
    · exact h.retry hr
    · exact hc
  · simp

theorem books_accept (pkt : P) (h : Books C s) (hr : s.retryReq = false)
    (hfull : s.master.transmitList.length < C.reqQueueLimit) {n : Nat}
      (hn : n = s.outstandingResponses + if C.needsResponse pkt then 1 else 0)
    (hlimit : n ≤ C.respQueueLimit) {when : Nat} (hwhen : s.curTick ≤ when) :
    ∃ s', ({ s with outstandingResponses := n } : Bridge P).schedTimingReq C pkt when = .ok s' ∧ s'.retryReq = false ∧
      Books C { s' with accepted := s.accepted ++ [pkt] } := by
  obtain ⟨q, hq, hlist, hsend, hok⟩ := SendSide.enqueue_ok h.master (d := ⟨pkt, when⟩) hwhen
  have hne : ¬ q.transmitList.length = C.reqQueueLimit := by
    rw [hlist]
    omega
  refine ⟨{ s with outstandingResponses := n, master := q.enqueue ⟨pkt, when⟩ }, ?_, hr, ?_⟩
  · simp only [schedTimingReq, hq, bind, Except.bind, if_neg hne]
    rfl
  · refine ⟨hok, h.slave, ?_, hlimit, ?_, h.responses, ?_, ?_, ?_, ?_⟩
    · simp only [SendSide.enqueue, hlist, List.length_append, List.length_singleton]
      omega
    · simp only [SendSide.enqueue, hlist, List.map_append, h.requests, List.append_assoc]
      rfl
    · simp only [List.countP_append, List.countP_singleton, ← h.outstanding, hn]
      omega
    · intro p
      refine (h.answered p).trans ?_
      split
      · rw [List.count_append, List.count_append]
        refine Nat.add_le_add_left ?_ _
        have hmaster : s.master.offered = (q.enqueue ⟨pkt, when⟩).offered ∨ s.master.offered = [] := by
          unfold SendSide.offered SendSide.enqueue
          simp only [hsend, hlist]
          cases s.master.transmitList <;> simp
        rcases hmaster with heq | heq
        · exact le_of_eq (by rw [heq])
        · rw [heq]
          exact Nat.zero_le _
      · exact Nat.zero_le _
    · intro hr'
      rw [hr] at hr'
      cases hr'
    · exact h.owed

theorem recvTimingReq_books (hreq : 1 ≤ C.reqQueueLimit) (hresp : 1 ≤ C.respQueueLimit) (h : Books C s) (pkt : P)
    (headerDelay payloadDelay : Nat) : ∃ s', s.exec C (.recvTimingReq pkt headerDelay payloadDelay) = .ok s' ∧
      Books C s' := by
  have hwhen : s.curTick ≤ C.clock.clockEdge s.curTick C.delay + (headerDelay + payloadDelay) :=
    (C.clock.le_clockEdge _ _).trans (Nat.le_add_right _ _)
  cases hr : s.retryReq with
  | true =>
    refine ⟨{ s with retryReq := true, log := s.log ++ [.refused] }, ?_, books_refuse h (.inl hr)⟩
    simp [exec, recvTimingReq, hr, Except.map]
  | false =>
    by_cases hfull : s.reqQueueFull C = true
    · refine ⟨{ s with retryReq := true, log := s.log ++ [.refused] }, ?_, books_refuse h (.inr (.inl ?_))⟩
      · simp [exec, recvTimingReq, hr, hfull, Except.map]
      have hlen : s.master.transmitList.length = C.reqQueueLimit := of_decide_eq_true hfull
      intro hnil
      rw [hnil] at hlen
      simp at hlen
      omega
    · have hlt : s.master.transmitList.length < C.reqQueueLimit := by
        have hne : ¬ s.master.transmitList.length = C.reqQueueLimit := fun he => hfull (decide_eq_true he)
        have := h.reqLimit
        omega
      simp only [exec, recvTimingReq, hr, Bool.false_eq_true, if_false, if_neg hfull]
      cases hneeds : C.needsResponse pkt with
      | false =>
        obtain ⟨s', hs', hr', hb⟩ := books_accept pkt h hr hlt (n := s.outstandingResponses) (by simp [hneeds])
          h.respLimit hwhen
        refine ⟨{ s' with accepted := s.accepted ++ [pkt] }, ?_, hb⟩
        have hs' : s.schedTimingReq C pkt _ = .ok s' := hs'
        simp [bind, Except.bind, pure, Except.pure, hr, hs', hr', Except.map]
      | true =>
        by_cases hrfull : s.respQueueFull C = true
        · refine ⟨{ s with retryReq := true, log := s.log ++ [.refused] }, ?_, books_refuse h (.inr (.inr ?_))⟩
          · simp [bind, Except.bind, pure, Except.pure, hrfull, Except.map]
          · have : s.outstandingResponses = C.respQueueLimit := of_decide_eq_true hrfull
            omega
        · have hne : ¬ s.outstandingResponses = C.respQueueLimit := fun he => hrfull (decide_eq_true he)
          obtain ⟨s', hs', hr', hb⟩ := books_accept pkt h hr hlt (n := s.outstandingResponses + 1)
            (by simp [hneeds]) (by have := h.respLimit; omega) hwhen
          refine ⟨{ s' with accepted := s.accepted ++ [pkt] }, ?_, hb⟩
          rw [hr] at hs'
          simp [bind, Except.bind, pure, Except.pure, hrfull, hne, hs', hr', Except.map]

section

variable (h : Books C s)
include h

/-- Requests that have been sent on still count as sent on when the packet with the peer changes. -/
theorem answered_mono {f : List P}
    (hf : ∀ p, C.needsResponse p = true → s.arrived.count p ≤ (s.forwarded ++ s.master.offered).count p →
      s.arrived.count p ≤ (f ++ q.offered).count p)
    (p : P) : s.arrived.count p ≤ if C.needsResponse p then (f ++ q.offered).count p else 0 := by
  have hp := h.answered p
  split
  · rename_i hn
    rw [if_pos hn] at hp
    exact hf p hn hp
  · rename_i hn
    rwa [if_neg hn] at hp

theorem recvTimingResp_books {pkt : P} (headerDelay payloadDelay : Nat) (hneeds : C.needsResponse pkt = true)
    (hlt : s.arrived.count pkt < (s.forwarded ++ s.master.offered).count pkt) :
    ∃ s', s.exec C (.recvTimingResp pkt headerDelay payloadDelay) = .ok s' ∧ Books C s' := by
  have hwhen : s.curTick ≤ C.clock.clockEdge s.curTick C.delay + (headerDelay + payloadDelay) :=
    (C.clock.le_clockEdge _ _).trans (Nat.le_add_right _ _)
  obtain ⟨q, hq, hlist, -, hok⟩ := SendSide.enqueue_ok h.slave
    (d := ⟨pkt, C.clock.clockEdge s.curTick C.delay + (headerDelay + payloadDelay)⟩) hwhen
  refine ⟨_, by simp only [exec, recvTimingResp, schedTimingResp, hq, bind, Except.bind]; rfl, ?_⟩
  refine ⟨h.master, hok, h.reqLimit, h.respLimit, h.requests, ?_, h.outstanding, ?_, h.retry, h.owed⟩
  · simp only [SendSide.enqueue, hlist, List.map_append, h.responses, List.append_assoc]
    rfl
  · intro p
    have hp := h.answered p
    simp only [List.count_append, List.count_singleton, beq_iff_eq] at hp ⊢
    by_cases hpk : pkt = p
    · subst hpk
      rw [List.count_append] at hlt
      rw [if_pos rfl, if_pos hneeds]
      omega
    · rw [if_neg hpk]
      exact hp

theorem books_offer (hok : q.Ok s.curTick) (hlist : q.transmitList = s.master.transmitList) (hs : q.sending = true) :
    Books C { s with master := q } := by
  refine ⟨hok, h.slave, by rw [hlist]; exact h.reqLimit, h.respLimit, by rw [hlist]; exact h.requests, h.responses,
    h.outstanding, ?_, by rw [hlist]; exact h.retry, h.owed⟩
  apply answered_mono h
  intro p _ hp
  refine hp.trans ?_
  rw [List.count_append, List.count_append]
  refine Nat.add_le_add_left ?_ _
  unfold SendSide.offered
  rw [hs, if_pos rfl, hlist]
  split
  · exact Nat.le_refl _
  · exact Nat.zero_le _

theorem books_offerResponse (hok : q.Ok s.curTick) (hlist : q.transmitList = s.slave.transmitList) :
    Books C { s with slave := q } :=
  ⟨h.master, hok, h.reqLimit, h.respLimit, h.requests, by rw [hlist]; exact h.responses, h.outstanding,
    h.answered, h.retry, h.owed⟩

theorem requestRefused_books (hs : s.master.sending = true)
    (hanswered : ∀ p ∈ s.master.offered, s.arrived.count p ≤ s.forwarded.count p) :
    Books C { s with master := s.master.refused } := by
  obtain ⟨d, ds, -, hoff, -, -⟩ := h.master.offered hs
  refine ⟨SendSide.refused_ok h.master hs, h.slave, h.reqLimit, h.respLimit, h.requests, h.responses,
    h.outstanding, ?_, h.retry, h.owed⟩
  apply answered_mono h
  intro p _ hp
  simp only [hoff, List.count_append, List.count_singleton, beq_iff_eq] at hp
  rw [List.count_append]
  refine Nat.le_trans ?_ (Nat.le_add_right _ _)
  by_cases hdp : d.pkt = p
  · exact hanswered p (by rw [hoff, hdp]; exact List.mem_singleton_self p)
  · rwa [if_neg hdp] at hp

/-- The request that is with the peer is taken: a retry that is owed is sent. -/
theorem requestTaken_books (hs : s.master.sending = true) : ∃ s', s.exec C .requestTaken = .ok s' ∧ Books C s' ∧
      (s.retryReq = true → s'.retryReq = false ∧ s'.log = s.log ++ [.retry]) := by
  obtain ⟨d, ds, hl, hoff, -, -⟩ := h.master.offered hs
  obtain ⟨q, hq, hlist, hsend, hok⟩ := SendSide.taken_ok h.master hs (C.clock.le_clockEdge s.curTick 0)
  have hqoff : q.offered = [] := by
    unfold SendSide.offered
    rw [hsend]
    rfl
  -- the books but for the flag, as the queue may be empty now
  have hbooks : ∀ r log, (r = true → q.transmitList ≠ [] ∨ 0 < s.outstandingResponses) →
      (r = true ↔ log.getLast? = some .refused) →
      Books C { s with master := q, forwarded := s.forwarded ++ s.master.offered, retryReq := r, log := log } := by
    intro r log hr hlog
    refine ⟨hok, h.slave, ?_, h.respLimit, ?_, h.responses, h.outstanding, ?_, hr, hlog⟩
    · rw [hlist, List.length_tail]
      have := h.reqLimit
      omega
    · rw [hlist, hoff, h.requests, hl]
      simp
    · apply answered_mono h
      intro p _ hp
      rwa [hqoff, List.append_nil]
  cases hr : s.retryReq with
  | true =>
    refine ⟨_, by
      simp only [exec, requestSent, hq, bind, Except.bind, retryStalledReq, hr, if_true]
      rfl, hbooks false (s.log ++ [.retry]) (by simp) (by simp), fun _ => ⟨rfl, rfl⟩⟩
  | false =>
    refine ⟨_, by
      simp only [exec, requestSent, hq, bind, Except.bind, retryStalledReq, hr, Bool.false_eq_true, if_false]
      rfl, ?_, by simp⟩
    exact hbooks false s.log (by simp) (by rw [← hr]; exact h.owed)

end

/-- The response that is with the peer is taken: a retry that is owed is sent if there is room for the request. -/
theorem responseTaken_books (hreq : 1 ≤ C.reqQueueLimit) (h : Books C s) (hs : s.slave.sending = true) :
    ∃ s', s.exec C .responseTaken = .ok s' ∧ Books C s' ∧
      (s.retryReq = true → s.reqQueueFull C = false → s'.retryReq = false ∧ s'.log = s.log ++ [.retry]) := by
  obtain ⟨d, ds, hl, hoff, -, -⟩ := h.slave.offered hs
  obtain ⟨q, hq, hlist, hsend, hok⟩ := SendSide.taken_ok h.slave hs (C.clock.le_clockEdge s.curTick 0)
  have hpos : 0 < s.outstandingResponses := by
    have := h.waiting_le
    rw [hl, List.length_cons] at this
    omega
  have hbooks : ∀ r log, (r = true → s.master.transmitList ≠ [] ∨ 0 < s.outstandingResponses - 1) →
      (r = true ↔ log.getLast? = some .refused) →
      Books C { s with slave := q, outstandingResponses := s.outstandingResponses - 1,
                       delivered := s.delivered ++ s.slave.offered, retryReq := r, log := log } := by
    intro r log hr hlog
    refine ⟨h.master, hok, h.reqLimit, (Nat.sub_le _ _).trans h.respLimit, h.requests, ?_, ?_, h.answered, hr, hlog⟩
    · rw [hlist, hoff, h.responses, hl]
      simp
    · have hout := h.outstanding
      simp only [hoff, List.length_append, List.length_singleton]
      omega
  have hsent : s.responseSent C = .ok
      (if !s.reqQueueFull C && s.retryReq then
        { s with slave := q, outstandingResponses := s.outstandingResponses - 1, retryReq := false }.sendRetryReq
      else { s with slave := q, outstandingResponses := s.outstandingResponses - 1 }) := by
    simp only [responseSent, if_neg hpos.ne', hq, bind, Except.bind]
    rfl
  by_cases hcond : s.reqQueueFull C = false ∧ s.retryReq = true
  · rw [if_pos (by simp [hcond])] at hsent
    exact ⟨_, by simp only [exec, hsent]; rfl, hbooks false (s.log ++ [.retry]) (by simp) (by simp),
      fun _ _ => ⟨rfl, rfl⟩⟩
  · rw [if_neg (by simpa using hcond)] at hsent
    refine ⟨_, by simp only [exec, hsent]; rfl,
      hbooks s.retryReq s.log (fun hr => .inl fun hnil => hcond ⟨?_, hr⟩) h.owed, fun hr hf => absurd ⟨hf, hr⟩ hcond⟩
    simp only [reqQueueFull, hnil, List.length_nil, decide_eq_false_iff_not]
    omega

theorem advance_books (h : Books C s) {t : Nat} (ht : s.curTick < t) (hm : ∀ e ∈ s.master.sendEvent, t ≤ e)
    (hs : ∀ e ∈ s.slave.sendEvent, t ≤ e) : Books C { s with curTick := t } :=
  ⟨SendSide.advance_ok h.master ht hm, SendSide.advance_ok h.slave ht hs, h.reqLimit, h.respLimit, h.requests,
    h.responses, h.outstanding, h.answered, h.retry, h.owed⟩

/-- **No assertion fails, and the books stay right.** -/
theorem exec_books (hreq : 1 ≤ C.reqQueueLimit) (hresp : 1 ≤ C.respQueueLimit) (h : Books C s) {op : Op P}
    (hop : s.Allowed C op) : ∃ s', s.exec C op = .ok s' ∧ Books C s' := by
  cases op with
  | recvTimingReq pkt headerDelay payloadDelay => exact recvTimingReq_books hreq hresp h pkt headerDelay payloadDelay
  | recvTimingResp pkt headerDelay payloadDelay =>
    exact recvTimingResp_books h headerDelay payloadDelay hop.1 hop.2
  | sendRequest =>
    obtain ⟨hev, -, -⟩ := hop
    obtain ⟨hq, hok⟩ := SendSide.trySend_event h.master hev
    exact ⟨_, by simp only [exec, hq]; rfl, books_offer h hok rfl rfl⟩
  | requestTaken =>
    obtain ⟨s', hs', hb, -⟩ := requestTaken_books h hop
    exact ⟨s', hs', hb⟩
  | requestRefused => exact ⟨_, rfl, requestRefused_books h hop.1 hop.2⟩
  | recvReqRetry =>
    obtain ⟨hq, hok⟩ := SendSide.trySend_retry h.master hop
    exact ⟨_, by simp only [exec, hq]; rfl, books_offer h hok rfl rfl⟩
  | sendResponse =>
    obtain ⟨hev, -, -⟩ := hop
    obtain ⟨hq, hok⟩ := SendSide.trySend_event h.slave hev
    exact ⟨_, by simp only [exec, hq]; rfl, books_offerResponse h hok rfl⟩
  | responseTaken =>
    obtain ⟨s', hs', hb, -⟩ := responseTaken_books hreq h hop
    exact ⟨s', hs', hb⟩
  | responseRefused => exact ⟨_, rfl, books_offerResponse h (SendSide.refused_ok h.slave hop) rfl⟩
  | recvRespRetry =>
    obtain ⟨hq, hok⟩ := SendSide.trySend_retry h.slave hop
    exact ⟨_, by simp only [exec, hq]; rfl, books_offerResponse h hok rfl⟩
  | advance t => exact ⟨_, rfl, advance_books h hop.1 hop.2.1 hop.2.2.1⟩

theorem books_init (h : Fresh s) : Books C s := by
  obtain ⟨hm, hs, ho, hr, ha, hf, hv, hd, hl⟩ := h
  refine ⟨?_, ?_, by simp [hm], by simp [ho], by simp [hm, ha, hf], by simp [hs, hv, hd], by simp
    [ho, hd, ha], by simp [hv], by simp [hr], by simp [hr, hl]⟩
  · rw [hm]
    constructor <;> simp
  · rw [hs]
    constructor <;> simp

/-- **Flow control of a bridge**: the books are right in every state of every run, whatever happens next, no assertion
fails, and a retry that is owed is sent when a request is taken, or a response while there is room for a request. -/
theorem bridge_flow_control (hreq : 1 ≤ C.reqQueueLimit) (hresp : 1 ≤ C.respQueueLimit)
    (h : (system C).Reachable s) :
    Books C s ∧ (∀ op, s.Allowed C op → ∃ s', s.exec C op = .ok s') ∧
      (s.retryReq = true → ∀ op, s.Allowed C op → op = .requestTaken ∨ op = .responseTaken ∧ s.reqQueueFull C = false →
        ∃ s', s.exec C op = .ok s' ∧ s'.retryReq = false ∧ s'.log = s.log ++ [.retry]) := by
  have hbooks : Books C s := by
    refine System.invariantWhen (I := Books C) (fun _ => books_init) ?_ h
    intro s op s' _ hs _ hstep
    simp only [system, Option.ite_none_right_eq_some] at hstep
    obtain ⟨hop, hok⟩ := hstep
    obtain ⟨s₁, h₁, hb⟩ := exec_books hreq hresp hs hop
    cases (ok_of_toOption hok).symm.trans h₁
    exact hb
  refine ⟨hbooks, fun op hop => ?_, ?_⟩
  · obtain ⟨s', hs', -⟩ := exec_books hreq hresp hbooks hop
    exact ⟨s', hs'⟩
  · rintro hr op hop (rfl | ⟨rfl, hfull⟩)
    · obtain ⟨s', hs', -, hsent⟩ := requestTaken_books hbooks hop
      exact ⟨s', hs', hsent hr⟩
    · obtain ⟨s', hs', -, hsent⟩ := responseTaken_books hreq hbooks hop
      exact ⟨s', hs', hsent hr hfull⟩

end Books

/-- Limits of one: the second request waits for the queue, then for the response of the first. -/
theorem bridge_flow_control_limits_one :
    ∃ (C : Params Nat) (s : Bridge Nat), ((1 ≤ C.reqQueueLimit ∧ 1 ≤ C.respQueueLimit) ∧ (system C).Reachable s ∧
      s.retryReq = true ∧ s.delivered = [7]) ∧ Books C s := by
  let C : Params Nat := ⟨fun _ => true, 1, 1, 1, .ofPeriod 1 (by decide)⟩
  let s₀ : Bridge Nat := ⟨⟨[], none, false, false⟩, ⟨[], none, false, false⟩, 0, false, 0, [], [], [], [], []⟩
  have h₀ : (system C).init s₀ := ⟨rfl, rfl, rfl, rfl, rfl, rfl, rfl, rfl, rfl⟩
  obtain ⟨s, hs, hr, hd⟩ := System.reachable_of_replay h₀
    [.recvTimingReq 7 0 0, .recvTimingReq 8 0 0, .advance 1, .sendRequest, .requestRefused, .recvReqRetry,
      .requestTaken,
      .recvTimingReq 8 0 0, .recvTimingResp 7 0 0, .advance 2, .sendResponse, .responseTaken, .recvTimingReq 8 0 0,
      .recvTimingReq 9 0 0]
    (fun s => s.retryReq = true ∧ s.delivered = [7]) (by decide)
  exact ⟨C, s, ⟨⟨by decide, by decide⟩, hs, hr, hd⟩, (bridge_flow_control (by decide) (by decide) hs).1⟩

end Bridge

end Salam.Mem
