import Mathlib.Logic.Function.Basic
import Salam.Base.AddrRange
import Salam.Engine.Instruction
import Salam.Lib.System
import Salam.Mem.Command

/-!
# `ScratchpadMemory`

A memory with several ports: number `0` is `port`, and number `id + 1` is `spm_ports[id]`. A request that is accepted
is carried out at once, and its response goes to `packetQueue`, which all ports share; `dequeueEvent` sends the
response at the head. A port whose response was refused has to ask for it again (`recvRespRetry`).

The other side may call the memory from inside `sendRetryReq` and `sendTimingResp`, so `release` and `dequeue` are cut
where they make these calls, and `pc` tells which of them is running. The bytes of the memory, `trackLoadLocked` and the
statistics are not here: nothing in the protocol reads them. `waiting` and `log` are not in the source either; no
function reads them.
-/

namespace Salam.Scratchpad

open Salam.Base

/-- A packet with the attributes of its command that are tested; `delay` is `headerDelay + payloadDelay`. -/
structure Packet where
  id : Nat
  addr : Word
  size : Nat
  isRead : Bool
  isWrite : Bool
  isSwap : Bool
  isWritebackClean : Bool
  needsResponse : Bool
  cacheResponding : Bool
  isSecure : Bool
  delay : Nat
  deriving DecidableEq

def Packet.matchAddr (pkt other : Packet) : Bool := Mem.matchAddr pkt.addr pkt.isSecure other.addr other.isSecure

structure DeferredPacket where
  tick : Nat
  pkt : Packet
  origin : Nat
  deriving DecidableEq

/-- The panics and assertions. -/
inductive Err
  | cacheResponding
  | notReadOrWrite
  | outOfRange
  | notWritten
  | notCleared
  | emptyQueue
  | noRetryResp
  deriving DecidableEq

/-- The parameters; `ports` counts all ports, and `duration` is the size times `bandwidth`, in ticks. -/
structure Config where
  ports : Nat
  start : Word
  size : Nat
  readyMode : Bool
  readOnInvalid : Bool
  writeOnValid : Bool
  resetOnScratchpadRead : Bool
  latency : Nat
  latency_var : Nat
  duration : Nat → Nat

/-- What the memory is doing: nothing, the loop of `release` before the port `idx`, or the call of `sendTimingResp` in
`dequeue`, which the port will answer with `taken`. -/
inductive Pc
  | idle
  | releasing (idx : Nat)
  | sending (d : DeferredPacket) (taken : Bool)
  deriving DecidableEq

/-- What happens at the ports. -/
inductive Event
  | accept (port id : Nat) (needsResponse : Bool)
  | response (port id : Nat) (taken : Bool)
  deriving DecidableEq

structure St where
  curTick : Nat
  pc : Pc
  packetQueue : List DeferredPacket
  isBusy : Nat → Bool
  retryReq : Nat → Bool
  retryResp : Nat → Bool
  /-- When `releaseEvent[idx]` is scheduled. -/
  releaseEvent : Nat → Option Nat
  dequeueEvent : Option Nat
  ready : Nat → Bool
  /-- The port has refused a response and not yet asked for it again. -/
  waiting : Nat → Bool
  log : List Event

namespace St

def emit (s : St) (e : Event) : St := { s with log := s.log ++ [e] }

/-! ## The access -/

/-- The bytes of an access, as indices of `ready`. -/
def offsets (cfg : Config) (ad : Word) (size : Nat) : List Nat := List.range' (ad - cfg.start).toNat size

def isReady (cfg : Config) (s : St) (ad : Word) (size : Nat) (read : Bool) : Bool :=
  if !cfg.readyMode then true
  else if read then cfg.readOnInvalid || (offsets cfg ad size).all fun i => s.ready i
  else cfg.writeOnValid || (offsets cfg ad size).all fun i => !s.ready i

def setReady (cfg : Config) (s : St) (pkt : Packet) (r : Bool) : St :=
  { s with ready := fun i => if i ∈ offsets cfg pkt.addr pkt.size then r else s.ready i }

/-- The assertion on the bytes of the packet. The range it builds ends before the last byte of the packet, since `end_`
is not part of a range, so a packet that ends one byte past `range` is carried out too; its last bit of `ready` is the
one behind the array. -/
def isSubset (cfg : Config) (pkt : Packet) : Bool :=
  (rangeEx pkt.addr (pkt.addr + (BitVec.ofNat 32 pkt.size - 1).setWidth 64)).isSubset
    (rangeSize cfg.start (BitVec.ofNat 64 cfg.size)) = .ok true

/-- `scratchpadAccess`, as far as the ready bits go. -/
def scratchpadAccess (cfg : Config) (s : St) (pkt : Packet) (validateAccess : Bool) : Except Err St :=
  if pkt.isWritebackClean then .ok s
  else if !isSubset cfg pkt then .error .outOfRange
  else if pkt.isSwap then .ok s
  else if pkt.isRead then
    if validateAccess && !s.isReady cfg pkt.addr pkt.size true then .error .notWritten
    else .ok (if validateAccess && cfg.resetOnScratchpadRead then s.setReady cfg pkt false else s)
  else
    if validateAccess && !s.isReady cfg pkt.addr pkt.size false then .error .notCleared
    else .ok (if cfg.readyMode then s.setReady cfg pkt true else s)

/-! ## A request -/

/-- The loop that looks for the place of a response, from the end of the queue: `front` is the queue backwards. -/
def emplaceBack (d : DeferredPacket) : List DeferredPacket → List DeferredPacket
  | [] => [d]
  | [x] => [d, x]
  | x :: y :: rest =>
    if d.tick < x.tick && !x.pkt.matchAddr d.pkt then x :: emplaceBack d (y :: rest) else d :: x :: y :: rest

def emplace (d : DeferredPacket) (q : List DeferredPacket) : List DeferredPacket := (emplaceBack d q.reverse).reverse

/-- The response of an accepted request goes to the queue. -/
def respond (s : St) (d : DeferredPacket) : St :=
  let s := { s with packetQueue := emplace d s.packetQueue }
  if !s.retryResp d.origin && s.dequeueEvent.isNone then
    { s with dequeueEvent := s.packetQueue.getLast?.map (·.tick) }
  else s

/-- `recvTimingReq`, with the answer to the port; `jitter` is the random part of `getLatency`. -/
def recvTimingReq (cfg : Config) (s : St) (idx : Nat) (pkt : Packet) (jitter : Nat) : Except Err (St × Bool) :=
  if pkt.cacheResponding then .error .cacheResponding
  else if !(pkt.isRead || pkt.isWrite) then .error .notReadOrWrite
  else if s.retryReq idx then .ok (s, false)
  else if s.isBusy idx then .ok ({ s with retryReq := Function.update s.retryReq idx true }, false)
  else
    let s :=
      if cfg.duration pkt.size ≠ 0 then
        { s with
          releaseEvent := Function.update s.releaseEvent idx (some (s.curTick + cfg.duration pkt.size))
          isBusy := Function.update s.isBusy idx true }
      else s
    match s.scratchpadAccess cfg pkt (idx ≠ 0) with
    | .error e => .error e
    | .ok s =>
      let s := s.emit (.accept idx pkt.id pkt.needsResponse)
      .ok (if pkt.needsResponse then s.respond ⟨s.curTick + pkt.delay + (cfg.latency + jitter), pkt, idx⟩ else s, true)

/-! ## The events of the memory -/

/-- One turn of the loop of `release`. -/
def release (cfg : Config) (s : St) (idx : Nat) : St :=
  if idx < cfg.ports then
    let s := { s with pc := .releasing (idx + 1) }
    if (s.releaseEvent idx).isNone && s.isBusy idx then
      { s with isBusy := Function.update s.isBusy idx false, retryReq := Function.update s.retryReq idx false }
    else s
  else { s with pc := .idle }

/-- `dequeue`, up to the call of `sendTimingResp`. -/
def dequeue (s : St) (taken : Bool) : Except Err St :=
  match s.packetQueue with
  | [] => .error .emptyQueue
  | d :: _ => .ok { s with pc := .sending d taken }

/-- `dequeue`, after the call. -/
def dequeued (s : St) (d : DeferredPacket) (taken : Bool) : St :=
  let s := { s with
    pc := .idle
    retryResp := Function.update s.retryResp d.origin (!taken)
    waiting := if taken then s.waiting else Function.update s.waiting d.origin true }.emit
      (.response d.origin d.pkt.id taken)
  if taken then
    let s := { s with packetQueue := s.packetQueue.tail }
    match s.packetQueue with
    | [] => s
    | x :: _ => { s with dequeueEvent := some (max x.tick s.curTick) }
  else s

def recvRespRetry (s : St) (idx : Nat) (taken : Bool) : Except Err St :=
  if s.retryResp idx then { s with waiting := Function.update s.waiting idx false }.dequeue taken
    else .error .noRetryResp

def start : St where
  curTick := 0
  pc := .idle
  packetQueue := []
  isBusy := fun _ => false
  retryReq := fun _ => false
  retryResp := fun _ => false
  releaseEvent := fun _ => none
  dequeueEvent := none
  ready := fun _ => false
  waiting := fun _ => false
  log := []

/-- No event is scheduled before `t`. -/
def quiet (cfg : Config) (s : St) (t : Nat) : Bool :=
  s.dequeueEvent.all (t ≤ ·) && (List.range cfg.ports).all fun p => (s.releaseEvent p).all (t ≤ ·)

/-- A request may come in at any time, but a port that refuses a response does not send one from inside that call. -/
def mayRequest (s : St) : Bool :=
  match s.pc with
  | .sending _ taken => taken
  | _ => true

/-- No packet of this number has been accepted. -/
def fresh (s : St) (id : Nat) : Bool :=
  s.log.all fun
    | .accept _ i _ => i != id
    | .response .. => true

end St

/-- What drives the memory: the time, requests, its own events, the end of the call of `sendTimingResp`, and retries. -/
inductive Ev
  | advance (t : Nat)
  | request (port : Nat) (pkt : Packet) (jitter : Nat)
  | release (port : Nat)
  | releaseNext
  | dequeue (taken : Bool)
  | returned
  | respRetry (port : Nat) (taken : Bool)
  deriving DecidableEq

/-- One event. An event of the memory fires at its tick, and a port asks for a response only after it refused one. -/
def St.step (cfg : Config) (s : St) : Ev → Option St
  | .advance t => if s.pc = .idle ∧ s.curTick ≤ t ∧ s.quiet cfg t then some { s with curTick := t } else none
  | .request p pkt jitter =>
    if p < cfg.ports ∧ jitter ≤ cfg.latency_var ∧ s.fresh pkt.id ∧ s.mayRequest then
      (s.recvTimingReq cfg p pkt jitter).toOption.map (·.1)
    else none
  | .release p =>
    if s.pc = .idle ∧ s.releaseEvent p = some s.curTick then
      some { s with releaseEvent := Function.update s.releaseEvent p none, pc := .releasing 0 }
    else none
  | .releaseNext =>
    match s.pc with
    | .releasing idx => some (s.release cfg idx)
    | _ => none
  | .dequeue taken =>
    if s.pc = .idle ∧ s.dequeueEvent = some s.curTick then
      ({ s with dequeueEvent := none }.dequeue taken).toOption
    else none
  | .returned =>
    match s.pc with
    | .sending d taken => some (s.dequeued d taken)
    | _ => none
  | .respRetry p taken => if s.pc = .idle ∧ s.waiting p then (s.recvRespRetry p taken).toOption else none

/-- The runs of the memory. -/
def memory (cfg : Config) : System St Ev where
  init s := s = .start
  step := St.step cfg

end Salam.Scratchpad
