import Mathlib.Data.List.Perm.Basic
import Mathlib.Algebra.BigOperators.Group.List.Basic
import Salam.Base.ChunkGenerator
import Salam.Lib.System

/-!
# `DmaPort`

`dmaAction` cuts an action into packets, one for each chunk, which share the `DmaReqState` of the action. The packets
wait in `transmitList`: the front one is offered to the peer, which accepts or refuses it; after a packet that was
accepted `sendEvent` sends the next one, and after one that was refused the port waits for the retry. Responses come in
any order.
The one that completes the bytes of an action schedules its completion event and deletes the state.

The system is in timing mode. That a response never brings a block in Modified state, which `recvTimingResp` asserts, is
left to the peer, and that a completion event is not scheduled already, which `schedule` asserts, to the device whose
event it is. `pendingCount` is a natural number, the number of packets that are queued and in flight (`dma_accounting`);
the `uint32_t` of the source has it as long as these are fewer than `2 ^ 32`.

* `Flow`: what the list, `sendEvent` and the retry have to do with each other.
* `Accounts`: what the states of the actions say of the packets that are outstanding.
* `dma_accounting`: they hold in every run, and no assertion fails.
-/

namespace Salam.Dma

open Base
open Mem (isPowerOf2)

structure PortConfig where
  cacheLineSize : Nat
  valid : cacheLineSize = 0 ∨ isPowerOf2 cacheLineSize = true
  bounded : cacheLineSize < 2 ^ 32

inductive PortErr
  /-- `assert(transmitList.size())`, and the front of an empty list. -/
  | emptyList
  /-- `schedule` of an event that is scheduled. -/
  | scheduled
  /-- `assert(pendingCount != 0)`. -/
  | notPending
  /-- A `DmaReqState` that is not there any more. -/
  | deleted
  /-- `assert(state->totBytes >= state->numBytes)`. -/
  | tooManyBytes
  /-- The assertion of `ChunkGenerator`. -/
  | chunkSize
  deriving DecidableEq

/-- The state of an action; `deleted` is not in the source. -/
structure DmaReqState where
  completionEvent : Option Nat
  totBytes : Nat
  numBytes : Nat
  delay : Nat
  deleted : Bool
  deriving DecidableEq

/-- A packet of an action, and where its data is in the data of the action. -/
structure DmaPacket where
  action : Nat
  addr : Addr
  size : Nat
  offset : Nat
  deriving DecidableEq

/-- A completion event that was scheduled, with the delay. -/
structure Completion where
  action : Nat
  event : Nat
  delay : Nat
  deriving DecidableEq

/-- The port. The states of all actions are kept, an action is its place in `reqStates`. The last three are not in the
source: the packets that the peer has accepted and not answered, whether it owes a retry, and the completion events that
were scheduled. -/
structure DmaPort where
  transmitList : List DmaPacket
  sendEvent : Bool
  pendingCount : Nat
  inRetry : Bool
  reqStates : List DmaReqState
  inFlight : List DmaPacket
  refused : Bool
  completions : List Completion
  deriving DecidableEq

namespace DmaPort

def start : DmaPort where
  transmitList := []
  sendEvent := false
  pendingCount := 0
  inRetry := false
  reqStates := []
  inFlight := []
  refused := false
  completions := []

/-- `device->schedule(sendEvent, ..)`. -/
def scheduleSend (s : DmaPort) : Except PortErr DmaPort :=
  if s.sendEvent then .error .scheduled else .ok { s with sendEvent := true }

/-- `trySendTimingReq`; the peer accepts the packet or not. -/
def trySendTimingReq (s : DmaPort) (accepted : Bool) : Except PortErr DmaPort :=
  match s.transmitList with
  | [] => .error .emptyList
  | pkt :: rest =>
    if accepted then
      let s := { s with inRetry := false, transmitList := rest, inFlight := s.inFlight ++ [pkt] }
      if rest.isEmpty then .ok s else s.scheduleSend
    else .ok { s with inRetry := true, refused := true }

def sendDma (s : DmaPort) (accepted : Bool) : Except PortErr DmaPort :=
  if s.transmitList.isEmpty then .error .emptyList
  else if s.inRetry || s.sendEvent then .ok s
  else s.trySendTimingReq accepted

def recvReqRetry (s : DmaPort) (accepted : Bool) : Except PortErr DmaPort :=
  if s.transmitList.isEmpty then .error .emptyList else s.trySendTimingReq accepted

def queueDma (s : DmaPort) (pkt : DmaPacket) : DmaPort :=
  { s with transmitList := s.transmitList ++ [pkt], pendingCount := s.pendingCount + 1 }

def dmaAction (cfg : PortConfig) (s : DmaPort) (addr : Addr) (size : Nat) (event : Option Nat) (delay : Nat)
    (accepted : Bool) : Except PortErr DmaPort :=
  match chunks addr size cfg.cacheLineSize with
  | none => .error .chunkSize
  | some cs =>
    let pkts := cs.map fun c => DmaPacket.mk s.reqStates.length c.addr c.size c.complete
    let s := { s with reqStates := s.reqStates ++ [⟨event, size, 0, delay, false⟩] }
    (pkts.foldl queueDma s).sendDma accepted

/-- `handleResp`; an action without a completion event schedules nothing. -/
def handleResp (s : DmaPort) (pkt : DmaPacket) (delay : Nat) : Except PortErr DmaPort :=
  if s.pendingCount = 0 then .error .notPending
  else
    match s.reqStates[pkt.action]? with
    | none => .error .deleted
    | some st =>
      let numBytes := st.numBytes + pkt.size
      if st.deleted then .error .deleted
      else if st.totBytes < numBytes then .error .tooManyBytes
      else
        let s := { s with pendingCount := s.pendingCount - 1 }
        if st.totBytes = numBytes then
          .ok { s with
            reqStates := s.reqStates.set pkt.action { st with numBytes := numBytes, deleted := true }
            completions := s.completions ++
              (st.completionEvent.map fun event => Completion.mk pkt.action event (delay + st.delay)).toList }
        else .ok { s with reqStates := s.reqStates.set pkt.action { st with numBytes := numBytes } }

end DmaPort

/-! ## Runs -/

/-- What the device, the event queue and the peer do; `accepted` is the peer's answer to a packet that it is offered. -/
inductive PortEv
  | dmaAction (addr : Addr) (size : Nat) (event : Option Nat) (delay : Nat) (accepted : Bool)
  | sendEvent (accepted : Bool)
  | retry (accepted : Bool)
  | response (i : Nat)
  deriving DecidableEq

namespace DmaPort

/-- The sizes are positive and of type `int`; the event fires if it is scheduled, the peer retries if it owes it, and
answers a packet that it has. -/
def enabled (s : DmaPort) : PortEv → Bool
  | .dmaAction _ size .. => 0 < size && size < 2 ^ 31
  | .sendEvent _ => s.sendEvent
  | .retry _ => s.refused
  | .response i => i < s.inFlight.length

def call (cfg : PortConfig) (s : DmaPort) : PortEv → Except PortErr DmaPort
  | .dmaAction addr size event delay accepted => s.dmaAction cfg addr size event delay accepted
  | .sendEvent accepted => { s with sendEvent := false }.sendDma accepted
  | .retry accepted => { s with refused := false }.recvReqRetry accepted
  | .response i =>
    match s.inFlight[i]? with
    | none => .ok s
    | some pkt => { s with inFlight := s.inFlight.eraseIdx i }.handleResp pkt 0

def step (cfg : PortConfig) (s : DmaPort) (e : PortEv) : Option DmaPort :=
  if s.enabled e then (s.call cfg e).toOption else none

end DmaPort

/-- The runs of a `DmaPort`. -/
def dmaPort (cfg : PortConfig) : System DmaPort PortEv where
  init s := s = .start
  step := DmaPort.step cfg

/-! ## Outstanding bytes -/

/-- The bytes of the packets of an action. -/
def bytesOf (id : Nat) (pkts : List DmaPacket) : Nat := ((pkts.filter fun p => p.action = id).map (·.size)).sum

section Bytes

variable {id : Nat} {pkts pkts' : List DmaPacket}

theorem bytesOf_perm (h : pkts.Perm pkts') : bytesOf id pkts = bytesOf id pkts' :=
  ((h.filter _).map _).sum_eq

theorem bytesOf_append : bytesOf id (pkts ++ pkts') = bytesOf id pkts + bytesOf id pkts' := by
  simp [bytesOf]

theorem bytesOf_cons_self (pkts : List DmaPacket) (p : DmaPacket) :
    bytesOf p.action (p :: pkts) = p.size + bytesOf p.action pkts := by
  simp [bytesOf]

theorem bytesOf_cons_of_ne {p : DmaPacket} (h : p.action ≠ id) : bytesOf id (p :: pkts) = bytesOf id pkts := by
  simp [bytesOf, h]

theorem bytesOf_of_forall_ne (h : ∀ p ∈ pkts, p.action ≠ id) : bytesOf id pkts = 0 := by
  rw [bytesOf, List.filter_eq_nil_iff.mpr fun p hp => by simp [h p hp]]
  rfl

/-- As no packet is empty, an action without outstanding bytes has no outstanding packet. -/
theorem bytesOf_eq_zero_iff (hpos : ∀ p ∈ pkts, 0 < p.size) : bytesOf id pkts = 0 ↔ ∀ p ∈ pkts, p.action ≠ id := by
  refine ⟨fun h p hp heq => ?_, bytesOf_of_forall_ne⟩
  have hmem : p.size ∈ (pkts.filter fun p => p.action = id).map (·.size) :=
    List.mem_map_of_mem (List.mem_filter.mpr ⟨hp, decide_eq_true heq⟩)
  have hzero := List.sum_eq_zero_iff_forall_eq_nat.mp h _ hmem
  have := hpos p hp
  omega

theorem bytesOf_chunks (id : Nat) (cs : List Chunk) :
    bytesOf id (cs.map fun c => DmaPacket.mk id c.addr c.size c.complete) = chunkBytes cs := by
  induction cs with
  | nil => rfl
  | cons c cs ih =>
    have hcons := bytesOf_cons_self (cs.map fun c => DmaPacket.mk id c.addr c.size c.complete)
      (DmaPacket.mk id c.addr c.size c.complete)
    rw [List.map_cons, hcons, ih, chunkBytes, chunkBytes, List.map_cons, List.sum_cons]

end Bytes

/-- The states of the actions count the bytes of the packets in `out`, those that have not been answered; the completion
event of an action has been scheduled, once, if all its packets have been answered. -/
structure Accounts (out : List DmaPacket) (states : List DmaReqState) (completions : List Completion) : Prop where
  size : ∀ p ∈ out, 0 < p.size
  owned : ∀ p ∈ out, p.action < states.length
  bytes : ∀ id st, states[id]? = some st → st.numBytes + bytesOf id out = st.totBytes
  deleted : ∀ id st, states[id]? = some st → (st.deleted = true ↔ bytesOf id out = 0)
  nodup : (completions.map (·.action)).Nodup
  scheduled : ∀ id st e, states[id]? = some st → st.completionEvent = some e →
    (st.deleted = true ↔ Completion.mk id e st.delay ∈ completions)
  known : ∀ c ∈ completions, ∃ st, states[c.action]? = some st ∧ st.deleted = true ∧ st.completionEvent = some c.event

section Accounting

variable {out out' : List DmaPacket} {states : List DmaReqState} {completions : List Completion}

theorem Accounts.perm (h : Accounts out states completions) (hp : out.Perm out') :
    Accounts out' states completions := by
  refine ⟨fun p hp' => h.size p (hp.mem_iff.mpr hp'), fun p hp' => h.owned p (hp.mem_iff.mpr hp'), ?_, ?_, h.nodup,
    h.scheduled, h.known⟩
  · intro id st hst
    rw [← bytesOf_perm hp]
    exact h.bytes id st hst
  · intro id st hst
    rw [← bytesOf_perm hp]
    exact h.deleted id st hst

/-- A new action, with the packets of its chunks. -/
theorem Accounts.action {cs : List Chunk} {size : Nat} (event : Option Nat) (delay : Nat)
    (h : Accounts out states completions) (hpos : ∀ c ∈ cs, 0 < c.size) (hbytes : chunkBytes cs = size)
      (hsize : 0 < size) :
    Accounts (out ++ cs.map fun c => DmaPacket.mk states.length c.addr c.size c.complete)
      (states ++ [⟨event, size, 0, delay, false⟩]) completions := by
  have hnew := bytesOf_chunks states.length cs
  have hold : bytesOf states.length out = 0 := bytesOf_of_forall_ne fun p hp => Nat.ne_of_lt (h.owned p hp)
  have hother : ∀ id < states.length,
      bytesOf id (cs.map fun c => DmaPacket.mk states.length c.addr c.size c.complete) = 0 := fun id hid =>
    bytesOf_of_forall_ne fun p hp => by
      obtain ⟨c, -, rfl⟩ := List.mem_map.mp hp
      exact Nat.ne_of_gt hid
  have hstate : ∀ {id : Nat} {st : DmaReqState}, (states ++ [⟨event, size, 0, delay, false⟩])[id]? = some st →
      states[id]? = some st ∧ id < states.length ∨ id = states.length ∧ st = ⟨event, size, 0, delay, false⟩ := by
    intro id st hst
    by_cases hid : id < states.length
    · rw [List.getElem?_append_left hid] at hst
      exact .inl ⟨hst, hid⟩
    · obtain ⟨hlt, heq⟩ := List.getElem?_eq_some_iff.mp hst
      rw [List.length_append, List.length_singleton] at hlt
      obtain rfl : id = states.length := by omega
      exact .inr ⟨rfl, by simpa using heq.symm⟩
  refine ⟨?_, ?_, ?_, ?_, h.nodup, ?_, ?_⟩
  · intro p hp
    rcases List.mem_append.mp hp with hp | hp
    · exact h.size p hp
    · obtain ⟨c, hc, rfl⟩ := List.mem_map.mp hp
      exact hpos c hc
  · intro p hp
    rw [List.length_append, List.length_singleton]
    rcases List.mem_append.mp hp with hp | hp
    · exact Nat.lt_succ_of_lt (h.owned p hp)
    · obtain ⟨c, -, rfl⟩ := List.mem_map.mp hp
      exact Nat.lt_succ_self _
  · intro id st hst
    rw [bytesOf_append]
    rcases hstate hst with ⟨hst, hid⟩ | ⟨rfl, rfl⟩
    · rw [hother id hid]
      exact h.bytes id st hst
    · rw [hold, hnew]
      show 0 + (0 + chunkBytes cs) = size
      omega
  · intro id st hst
    rw [bytesOf_append]
    rcases hstate hst with ⟨hst, hid⟩ | ⟨rfl, rfl⟩
    · rw [hother id hid]
      exact h.deleted id st hst
    · rw [hold, hnew]
      refine ⟨fun hd => ?_, fun h₀ => ?_⟩
      · cases hd
      · omega
  · intro id st e hst hevent
    rcases hstate hst with ⟨hst, hid⟩ | ⟨rfl, rfl⟩
    · exact h.scheduled id st e hst hevent
    · refine ⟨fun hd => ?_, fun hc => ?_⟩
      · cases hd
      · obtain ⟨st', hst', -⟩ := h.known _ hc
        have hlt := (List.getElem?_eq_some_iff.mp hst').1
        exact absurd hlt (Nat.lt_irrefl _)
  · intro c hc
    obtain ⟨st, hst, hrest⟩ := h.known c hc
    exact ⟨st, by rw [List.getElem?_append_left (List.getElem?_eq_some_iff.mp hst).1]; exact hst, hrest⟩

/-- A packet that is answered belongs to an action that waits for its bytes. -/
theorem Accounts.waits {p : DmaPacket} (h : Accounts (p :: out) states completions) :
    ∃ st, states[p.action]? = some st ∧ st.deleted = false ∧
    st.numBytes + p.size + bytesOf p.action out = st.totBytes := by
  have hlt := h.owned p (List.mem_cons_self ..)
  have hst : states[p.action]? = some states[p.action] := List.getElem?_eq_getElem hlt
  have hbytes := h.bytes _ _ hst
  have hdeleted := h.deleted _ _ hst
  have hpos := h.size p (List.mem_cons_self ..)
  rw [bytesOf_cons_self] at hbytes hdeleted
  refine ⟨_, hst, ?_, by omega⟩
  rw [← Bool.not_eq_true, hdeleted]
  omega

/-- What the state of the action of the packet `p` becomes, and the completion event if it was the last one. -/
theorem Accounts.response {p : DmaPacket} {st : DmaReqState} (fin : Bool) (h : Accounts (p :: out) states completions)
    (hst : states[p.action]? = some st) (hdel : st.deleted = false) (hfin : fin = true ↔ bytesOf p.action out = 0) :
    Accounts out (states.set p.action { st with numBytes := st.numBytes + p.size, deleted := fin })
      (completions ++
        if fin then (st.completionEvent.map fun e => Completion.mk p.action e st.delay).toList else []) := by
  have hlt := (List.getElem?_eq_some_iff.mp hst).1
  have hbytes := h.bytes _ _ hst
  rw [bytesOf_cons_self] at hbytes
  have hstate : ∀ {id : Nat} {st' : DmaReqState},
      (states.set p.action { st with numBytes := st.numBytes + p.size, deleted := fin })[id]? = some st' →
      id ≠ p.action ∧ states[id]? = some st' ∨
        id = p.action ∧ st' = { st with numBytes := st.numBytes + p.size, deleted := fin } := by
    intro id st' hst'
    by_cases hid : id = p.action
    · rw [hid, List.getElem?_set_self hlt] at hst'
      exact .inr ⟨hid, (Option.some.inj hst').symm⟩
    · rw [List.getElem?_set_ne (Ne.symm hid)] at hst'
      exact .inl ⟨hid, hst'⟩
  have hnew : ∀ c ∈ (if fin then (st.completionEvent.map fun e => Completion.mk p.action e st.delay).toList else []),
      fin = true ∧ c.action = p.action ∧ st.completionEvent = some c.event := by
    intro c hc
    cases fin with
    | false => cases hc
    | true =>
      simp only [if_true, Option.mem_toList, Option.map_eq_some_iff] at hc
      obtain ⟨e, he, rfl⟩ := hc
      exact ⟨rfl, rfl, he⟩
  have hfresh : ∀ c ∈ completions, c.action ≠ p.action := by
    intro c hc heq
    obtain ⟨st', hst', hd, -⟩ := h.known c hc
    rw [heq, hst] at hst'
    cases hst'
    rw [hdel] at hd
    cases hd
  refine ⟨fun q hq => h.size q (List.mem_cons_of_mem _ hq), ?_, ?_, ?_, ?_, ?_, ?_⟩
  · intro q hq
    rw [List.length_set]
    exact h.owned q (List.mem_cons_of_mem _ hq)
  · intro id st' hst'
    rcases hstate hst' with ⟨hid, hst'⟩ | ⟨rfl, rfl⟩
    · have := h.bytes id st' hst'
      rwa [bytesOf_cons_of_ne (Ne.symm hid)] at this
    · show st.numBytes + p.size + bytesOf p.action out = st.totBytes
      omega
  · intro id st' hst'
    rcases hstate hst' with ⟨hid, hst'⟩ | ⟨rfl, rfl⟩
    · have := h.deleted id st' hst'
      rwa [bytesOf_cons_of_ne (Ne.symm hid)] at this
    · exact hfin
  · rw [List.map_append]
    refine List.nodup_append.mpr ⟨h.nodup, ?_, ?_⟩
    · cases fin with
      | false => exact List.nodup_nil
      | true => cases st.completionEvent <;> simp
    · intro a ha b hb
      obtain ⟨c, hc, rfl⟩ := List.mem_map.mp ha
      obtain ⟨d, hd, rfl⟩ := List.mem_map.mp hb
      rw [(hnew d hd).2.1]
      exact hfresh c hc
  · intro id st' e hst' hevent
    rcases hstate hst' with ⟨hid, hst'⟩ | ⟨rfl, rfl⟩
    · rw [h.scheduled id st' e hst' hevent, List.mem_append]
      exact ⟨.inl, fun hc => hc.resolve_right fun hc => hid (hnew _ hc).2.1⟩
    · show fin = true ↔ _
      rw [List.mem_append]
      refine ⟨fun hf => .inr ?_, fun hc => ?_⟩
      · rw [hf, if_pos rfl, show st.completionEvent = some e from hevent]
        exact List.mem_singleton_self _
      · rcases hc with hc | hc
        · exact absurd rfl (hfresh _ hc)
        · exact (hnew _ hc).1
  · intro c hc
    rcases List.mem_append.mp hc with hc | hc
    · obtain ⟨st', hst', hrest⟩ := h.known c hc
      exact ⟨st', by rw [List.getElem?_set_ne (Ne.symm (hfresh c hc))]; exact hst', hrest⟩
    · obtain ⟨hf, haction, hevent⟩ := hnew c hc
      refine ⟨{ st with numBytes := st.numBytes + p.size, deleted := fin }, ?_, hf, hevent⟩
      rw [haction, List.getElem?_set_self hlt]

end Accounting

/-! ## The invariant -/

namespace DmaPort

/-- The packets that have not been answered. -/
def outstanding (s : DmaPort) : List DmaPacket := s.transmitList ++ s.inFlight

/-- The send event and the retry exclude each other, and one of them waits for the packets in the list. -/
structure Flow (s : DmaPort) : Prop where
  pendingCount : s.pendingCount = s.outstanding.length
  sendEvent : s.sendEvent = true → s.inRetry = false ∧ s.transmitList ≠ []
  refused : s.refused = s.inRetry
  inRetry : s.inRetry = true → s.transmitList ≠ []
  waits : s.transmitList ≠ [] → s.sendEvent = true ∨ s.inRetry = true

structure Inv (s : DmaPort) : Prop where
  flow : s.Flow
  accounts : Accounts s.outstanding s.reqStates s.completions

section Steps

variable {cfg : PortConfig} {s : DmaPort}

/-- What it takes to offer the front packet: there is one, and nothing is scheduled. -/
structure Ready (s : DmaPort) : Prop where
  pendingCount : s.pendingCount = s.outstanding.length
  transmitList : s.transmitList ≠ []
  sendEvent : s.sendEvent = false
  refused : s.refused = false
  accounts : Accounts s.outstanding s.reqStates s.completions

theorem Ready.trySend (h : s.Ready) (accepted : Bool) : ∃ s', s.trySendTimingReq accepted = .ok s' ∧ s'.Inv := by
  obtain ⟨pkt, rest, hlist⟩ := List.exists_cons_of_ne_nil h.transmitList
  have hcount := h.pendingCount
  have haccounts := h.accounts
  have hperm : s.outstanding.Perm (rest ++ (s.inFlight ++ [pkt])) := by
    rw [outstanding, hlist, ← List.append_assoc]
    exact (List.perm_append_singleton pkt (rest ++ s.inFlight)).symm
  have hlen := hperm.length_eq
  cases accepted with
  | false =>
    refine ⟨{ s with inRetry := true, refused := true }, by rw [trySendTimingReq, hlist]; rfl,
      ⟨hcount, ?_, rfl, fun _ => h.transmitList, fun _ => .inr rfl⟩, haccounts⟩
    intro hsend
    exact absurd (hsend.symm.trans h.sendEvent) (by decide)
  | true =>
    simp only [trySendTimingReq, hlist]
    cases rest with
    | nil =>
      refine ⟨_, rfl, ⟨hcount.trans hlen, ?_, h.refused, ?_, ?_⟩, haccounts.perm hperm⟩
      · intro hsend
        exact absurd (hsend.symm.trans h.sendEvent) (by decide)
      · intro hretry
        cases hretry
      · exact fun hne => absurd rfl hne
    | cons pkt' rest =>
      refine ⟨{ s with
        inRetry := false
        transmitList := pkt' :: rest
        inFlight := s.inFlight ++ [pkt]
        sendEvent := true }, ?_, ⟨hcount.trans hlen, ?_, h.refused, ?_, fun _ => .inl rfl⟩, haccounts.perm hperm⟩
      · simp [scheduleSend, h.sendEvent]
      · exact fun _ => ⟨rfl, List.cons_ne_nil _ _⟩
      · intro hretry
        cases hretry

theorem Inv.sendEvent (h : s.Inv) (hsend : s.sendEvent = true) (accepted : Bool) :
    ∃ s', { s with sendEvent := false }.sendDma accepted = .ok s' ∧ s'.Inv := by
  obtain ⟨hretry, hlist⟩ := h.flow.sendEvent hsend
  have hready : Ready { s with sendEvent := false } :=
    ⟨h.flow.pendingCount, hlist, rfl, h.flow.refused.trans hretry, h.accounts⟩
  have hempty : s.transmitList.isEmpty = false := by simpa using hlist
  obtain ⟨s', hs', hinv⟩ := hready.trySend accepted
  refine ⟨s', ?_, hinv⟩
  simp only [sendDma, hempty, hretry]
  exact hs'

theorem Inv.retry (h : s.Inv) (hrefused : s.refused = true) (accepted : Bool) :
    ∃ s', { s with refused := false }.recvReqRetry accepted = .ok s' ∧ s'.Inv := by
  have hretry : s.inRetry = true := h.flow.refused ▸ hrefused
  have hlist := h.flow.inRetry hretry
  have hsend : s.sendEvent = false := by
    rw [← Bool.not_eq_true]
    intro hsend
    exact absurd ((h.flow.sendEvent hsend).1.symm.trans hretry) (by decide)
  have hready : Ready { s with refused := false } := ⟨h.flow.pendingCount, hlist, hsend, rfl, h.accounts⟩
  have hempty : s.transmitList.isEmpty = false := by simpa using hlist
  obtain ⟨s', hs', hinv⟩ := hready.trySend accepted
  refine ⟨s', ?_, hinv⟩
  simp only [recvReqRetry, hempty]
  exact hs'

theorem foldl_queueDma : ∀ (pkts : List DmaPacket) (s : DmaPort), pkts.foldl queueDma s =
    { s with transmitList := s.transmitList ++ pkts, pendingCount := s.pendingCount + pkts.length }
  | [], s => by simp
  | p :: pkts, s => by
    rw [List.foldl_cons, foldl_queueDma pkts, queueDma]
    simp only [List.append_assoc, List.singleton_append, List.length_cons, Nat.add_assoc, Nat.add_comm 1]

theorem Inv.dmaAction (h : s.Inv) (addr : Addr) {size : Nat} (event : Option Nat) (delay : Nat) (accepted : Bool)
    (hpos : 0 < size) (hlt : size < 2 ^ 31) :
      ∃ s', s.dmaAction cfg addr size event delay accepted = .ok s' ∧ s'.Inv := by
  obtain ⟨cs, hcs⟩ : ∃ cs, chunks addr size cfg.cacheLineSize = some cs := by
    simp only [chunks, ChunkGenerator.start, if_pos cfg.valid, Option.map_some]
    exact ⟨_, rfl⟩
  obtain ⟨htiles, hbytes⟩ := chunks_tile hpos (by omega) cfg.bounded hcs
  have hne : cs ≠ [] := by
    rintro rfl
    rw [← hbytes] at hpos
    cases hpos
  have haccounts := h.accounts.action event delay htiles.pos hbytes hpos
  generalize hpkts : (cs.map fun c => DmaPacket.mk s.reqStates.length c.addr c.size c.complete) = pkts at haccounts
  have hpkts_ne : pkts ≠ [] := by
    rw [← hpkts]
    simpa using hne
  have hperm : (s.outstanding ++ pkts).Perm (s.transmitList ++ pkts ++ s.inFlight) := by
    rw [outstanding, List.append_assoc, List.append_assoc]
    exact List.Perm.append_left _ List.perm_append_comm
  have hcount : s.pendingCount + pkts.length = (s.transmitList ++ pkts ++ s.inFlight).length := by
    rw [← hperm.length_eq, List.length_append, h.flow.pendingCount]
  have hlist : s.transmitList ++ pkts ≠ [] := by simp [hpkts_ne]
  have hempty : (s.transmitList ++ pkts).isEmpty = false := by simpa using fun _ => hpkts_ne
  simp only [DmaPort.dmaAction, hcs, hpkts, foldl_queueDma, sendDma, hempty]
  by_cases hbusy : (s.inRetry || s.sendEvent) = true
  · rw [if_pos hbusy]
    refine ⟨_, rfl, ⟨hcount, ?_, h.flow.refused, fun _ => hlist, fun _ => ?_⟩, haccounts.perm hperm⟩
    · exact fun hsend => ⟨(h.flow.sendEvent hsend).1, hlist⟩
    · exact (Bool.or_eq_true _ _ ▸ hbusy).symm
  · rw [if_neg hbusy]
    simp only [Bool.not_eq_true, Bool.or_eq_false_iff] at hbusy
    apply Ready.trySend
    exact ⟨hcount, hlist, hbusy.2, h.flow.refused.trans hbusy.1, haccounts.perm hperm⟩

theorem Inv.response (h : s.Inv) {i : Nat} (hi : i < s.inFlight.length) :
    ∃ s', { s with inFlight := s.inFlight.eraseIdx i }.handleResp s.inFlight[i] 0 = .ok s' ∧ s'.Inv := by
  generalize hp : s.inFlight[i] = p
  have hperm : s.outstanding.Perm (p :: (s.transmitList ++ s.inFlight.eraseIdx i)) := by
    have herase := List.getElem_cons_eraseIdx_perm hi
    rw [hp] at herase
    exact (herase.symm.append_left _).trans List.perm_middle
  have haccounts := h.accounts.perm hperm
  obtain ⟨st, hst, hdel, hbytes⟩ := haccounts.waits
  have hcount : s.pendingCount = (s.transmitList ++ s.inFlight.eraseIdx i).length + 1 :=
    h.flow.pendingCount.trans hperm.length_eq
  have hflow : Flow { s with
      inFlight := s.inFlight.eraseIdx i
      pendingCount := s.pendingCount - 1 } := by
    refine ⟨?_, h.flow.sendEvent, h.flow.refused, h.flow.inRetry, h.flow.waits⟩
    show s.pendingCount - 1 = (s.transmitList ++ s.inFlight.eraseIdx i).length
    omega
  simp only [handleResp, hst, hdel, Nat.zero_add]
  rw [if_neg (by omega), if_neg (by decide), if_neg (by omega)]
  by_cases hall : st.totBytes = st.numBytes + p.size
  · rw [if_pos hall]
    have hresp := haccounts.response true hst hdel (by simp only [true_iff]; omega)
    exact ⟨_, rfl, ⟨hflow.pendingCount, hflow.sendEvent, hflow.refused, hflow.inRetry, hflow.waits⟩, hresp⟩
  · rw [if_neg hall]
    have hresp := haccounts.response false hst hdel (by simp only [Bool.false_eq_true, false_iff]; omega)
    rw [if_neg (by decide), List.append_nil] at hresp
    exact ⟨_, rfl, ⟨hflow.pendingCount, hflow.sendEvent, hflow.refused, hflow.inRetry, hflow.waits⟩, hresp⟩

/-- No call fails, and each keeps the invariant. -/
theorem Inv.call (cfg : PortConfig) (h : s.Inv) {e : PortEv} (he : s.enabled e = true) :
    ∃ s', s.call cfg e = .ok s' ∧ s'.Inv := by
  cases e with
  | dmaAction addr size event delay accepted =>
    simp only [enabled, Bool.and_eq_true, decide_eq_true_iff] at he
    exact h.dmaAction addr event delay accepted he.1 he.2
  | sendEvent accepted => exact h.sendEvent he accepted
  | retry accepted => exact h.retry he accepted
  | response i =>
    have hi : i < s.inFlight.length := of_decide_eq_true he
    simp only [DmaPort.call, List.getElem?_eq_getElem hi]
    exact h.response hi

end Steps

theorem inv_start : start.Inv := by
  refine ⟨⟨rfl, ?_, rfl, ?_, fun h => absurd rfl h⟩, ?_⟩
  · intro h
    cases h
  · intro h
    cases h
  · constructor <;> simp [start, outstanding]

theorem inv_of_reachable {cfg : PortConfig} {s : DmaPort} (h : (dmaPort cfg).Reachable s) : s.Inv := by
  refine System.invariantWhen (I := Inv) ?_ ?_ h
  · rintro s rfl
    exact inv_start
  · intro s e s' _ hs _ hstep
    have he : s.enabled e = true ∧ (s.call cfg e).toOption = some s' := Option.ite_none_right_eq_some.mp hstep
    obtain ⟨s₁, hs₁, hinv⟩ := hs.call cfg he.1
    rw [hs₁] at he
    cases he.2
    exact hinv

/-- In every run no assertion fails; `pendingCount` counts the packets that are queued and in flight; the send event is
not scheduled while the port waits for a retry, and one of the two is there while packets are queued; and the completion
event of an action has been scheduled, once, exactly if all its packets have been answered. -/
theorem dma_accounting {cfg : PortConfig} {s : DmaPort} (h : (dmaPort cfg).Reachable s) :
    (∀ e, s.enabled e = true → ∃ s', s.call cfg e = .ok s') ∧
      s.pendingCount = s.transmitList.length + s.inFlight.length ∧
      (s.sendEvent = true → s.inRetry = false) ∧
      (s.transmitList ≠ [] → s.sendEvent = true ∨ s.inRetry = true ∧ s.refused = true) ∧
      (s.completions.map (·.action)).Nodup ∧
      (∀ c ∈ s.completions, ∃ st, s.reqStates[c.action]? = some st ∧ st.completionEvent = some c.event) ∧
      ∀ id st e, s.reqStates[id]? = some st → st.completionEvent = some e →
        (Completion.mk id e st.delay ∈ s.completions ↔ ∀ p ∈ s.transmitList ++ s.inFlight, p.action ≠ id) := by
  have hinv := inv_of_reachable h
  refine ⟨?_, ?_, fun hsend => (hinv.flow.sendEvent hsend).1, ?_, hinv.accounts.nodup, ?_, ?_⟩
  · intro e he
    obtain ⟨s', hs', -⟩ := hinv.call cfg he
    exact ⟨s', hs'⟩
  · rw [hinv.flow.pendingCount, outstanding, List.length_append]
  · intro hne
    exact (hinv.flow.waits hne).imp_right fun hr => ⟨hr, hinv.flow.refused.trans hr⟩
  · intro c hc
    obtain ⟨st, hst, -, hevent⟩ := hinv.accounts.known c hc
    exact ⟨st, hst, hevent⟩
  · intro id st e hst hevent
    rw [← hinv.accounts.scheduled id st e hst hevent, hinv.accounts.deleted id st hst]
    exact bytesOf_eq_zero_iff hinv.accounts.size

/-- An action of three packets: the second is refused once, and the responses come in another order. -/
theorem dma_accounting_three_packets : ∃ s : DmaPort, s.completions = [⟨0, 7, 5⟩] ∧
    ∀ p ∈ s.transmitList ++ s.inFlight, p.action ≠ 0 := by
  obtain ⟨s, hs, hst, hc⟩ := System.reachable_of_replay (S := dmaPort ⟨64, .inr (by decide), by decide⟩)
    (show (dmaPort ⟨64, .inr (by decide), by decide⟩).init start from rfl)
    [.dmaAction 0x30 0x60 (some 7) 5 true, .sendEvent false, .response 0, .retry true, .dmaAction 0x100 4 none 0 true,
      .sendEvent true, .response 1, .response 0]
    (fun s => s.reqStates[0]? = some ⟨some 7, 0x60, 0x60, 5, true⟩ ∧ s.completions = [⟨0, 7, 5⟩]) (by decide +kernel)
  have hlast := (dma_accounting hs).2.2.2.2.2.2 0 _ 7 hst rfl
  exact ⟨s, hc, hlast.mp (by rw [hc]; exact List.mem_singleton_self _)⟩

end DmaPort

end Salam.Dma
