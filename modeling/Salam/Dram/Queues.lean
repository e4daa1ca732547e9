import Mathlib.Data.Finset.Card
import Salam.Base.Offset
import Salam.Lib.System

/-!
# The queues of the DRAM controller

`DRAMCtrl::recvTimingReq` with `addToReadQueue` and `addToWriteQueue`, `processNextReqEvent` and `processRespondEvent`,
for one QoS priority. A packet is split into bursts at the address of the controller (`getCtrlAddr`); a read burst that
is in a queued write needs no DRAM access, and a write burst to the burst of a queued write is merged with it.

What the timing decides is the event's: which packet `chooseNext` chooses, when its data is ready, which ranks are busy
and which direction a turnaround policy selects. A `BurstHelper` is found by its packet, which has at most one.
-/

namespace Salam.Dram.Queues

open Base (Addr AddrRange RangeErr)

/-- The number of bytes of a burst is a power of two (the constructor checks it), of 32 bits. -/
structure Params where
  range : AddrRange
  burstBits : Fin 32
  readBufferSize : Nat
  writeBufferSize : Nat
  writeHighThreshold : Nat
  writeLowThreshold : Nat
  minWritesPerSwitch : Nat

namespace Params

variable (c : Params)

def burstSize : BitVec 32 := 1#32 <<< c.burstBits.1

/-- `burstSize - 1`, as an address. -/
def burstMask : Addr := (c.burstSize - 1).setWidth 64

/-- A shift that `getOffset` does for the address is not defined; the controller has no address for it then. -/
def badShift (addr : Addr) : Bool := (c.range.getOffset addr).toOption.isNone

def getCtrlAddr (addr : Addr) : Addr := (c.range.getOffset addr).toOption.getD 0

def burstAlign (addr : Addr) : Addr := addr &&& ~~~c.burstMask

end Params

/-! ## Packets -/

structure Packet where
  id : Nat
  masterId : Nat
  addr : Addr
  size : BitVec 32
  isWrite : Bool
  deriving DecidableEq

/-- A `DRAMPacket` as the queues see it. The bank and the row of its burst (`Dram/Packet`) are part of what an event
decides. -/
structure DRAMPacket where
  pkt : Packet
  addr : Addr
  size : BitVec 32
  readyTime : Nat
  /-- There is a helper for the packet. -/
  burstHelper : Bool
  deriving DecidableEq

structure BurstHelper where
  burstCount : Nat
  burstsServiced : Nat
  deriving DecidableEq

inductive BusState
  | READ
  | WRITE
  deriving DecidableEq

inductive Err
  | assertion
  /-- `unmatched response for address %d received`. -/
  | panic
  /-- A helper that has been deleted is used. -/
  | dangling
  /-- A shift by a negative number or by the width of the type. -/
  | shift
  deriving DecidableEq

/-- How a read burst was served. -/
inductive Served
  /-- It was found in the write queue on arrival. -/
  | found
  | ready (readyTime tick : Nat)
  deriving DecidableEq

/-- `accepted`, `responded` (the calls of `accessAndRespond`) and `served` (the read bursts) are not in the code. -/
structure Ctrl where
  readQueue : List DRAMPacket
  writeQueue : List DRAMPacket
  respQueue : List DRAMPacket
  isInWriteQueue : Finset Addr
  totalReadQueueSize : Nat
  totalWriteQueueSize : Nat
  /-- The entries of `requestTimes`. -/
  requestTimes : List (Nat × Addr)
  helpers : Nat → Option BurstHelper
  busState : BusState
  busStateNext : BusState
  writesThisTime : Nat
  retryRdReq : Bool
  retryWrReq : Bool
  nextReqEvent : Bool
  respondEvent : Option Nat
  accepted : List Packet
  responded : List Nat
  served : List (Nat × Addr × Served)

namespace Ctrl

variable (c : Params) (s : Ctrl) (pkt : Packet)

/-! ## The totals -/

def readQueueFull (neededEntries : Nat) : Bool :=
  c.readBufferSize < s.totalReadQueueSize + s.respQueue.length + neededEntries

def writeQueueFull (neededEntries : Nat) : Bool := c.writeBufferSize < s.totalWriteQueueSize + neededEntries

def logRequest (dir : BusState) (m_id : Nat) (addr : Addr) : Ctrl :=
  match dir with
  | .READ => { s with totalReadQueueSize := s.totalReadQueueSize + 1, requestTimes := s.requestTimes ++ [(m_id, addr)] }
  | .WRITE => { s with totalWriteQueueSize := s.totalWriteQueueSize + 1, requestTimes :=
      s.requestTimes ++ [(m_id, addr)] }

def logResponse (dir : BusState) (m_id : Nat) (addr : Addr) : Except Err Ctrl :=
  if (m_id, addr) ∉ s.requestTimes then .error .panic
  else
    let s := { s with requestTimes := s.requestTimes.erase (m_id, addr) }
    match dir with
    | .READ => .ok { s with totalReadQueueSize := s.totalReadQueueSize - 1 }
    | .WRITE => .ok { s with totalWriteQueueSize := s.totalWriteQueueSize - 1 }

def accessAndRespond : Ctrl := { s with responded := s.responded ++ [pkt.id] }

/-! ## `addToReadQueue` and `addToWriteQueue` -/

/-- The addresses and sizes of the bursts from `addr` on, `cnt` of them. -/
def burstsFrom (end_ : Addr) : Nat → Addr → List (Addr × BitVec 32)
  | 0, _ => []
  | cnt + 1, addr =>
    let next := (addr ||| c.burstMask) + 1
    (addr, ((if next.toNat ≤ end_.toNat then next else end_) - addr).setWidth 32) :: burstsFrom end_ cnt next

/-- `dram_pkt_count` -/
def dramPktCount : BitVec 32 :=
  let offset : BitVec 32 := (pkt.addr &&& c.burstMask).setWidth 32
  (offset + pkt.size + c.burstSize - 1) / c.burstSize

/-- The bursts of a packet. -/
def bursts : List (Addr × BitVec 32) :=
  let base_addr := c.getCtrlAddr pkt.addr
  burstsFrom c (base_addr + pkt.size.setWidth 64) (dramPktCount c pkt).toNat base_addr

/-- The burst is subsumed in a queued write. -/
def foundInWrQ (burst : Addr × BitVec 32) : Bool :=
  decide (c.burstAlign burst.1 ∈ s.isInWriteQueue) &&
    s.writeQueue.any fun p => decide (p.addr.toNat ≤ burst.1.toNat) &&
      decide ((burst.1 + burst.2.setWidth 64).toNat ≤ (p.addr + p.size.setWidth 64).toNat)

/-- One round of the loop of `addToReadQueue`, with `pktsServicedByWrQ` and whether there is a helper. -/
def addReadBurst (acc : Ctrl × Nat × Bool) (burst : Addr × BitVec 32) : Except Err (Ctrl × Nat × Bool) :=
  let (s, pktsServicedByWrQ, helper) := acc
  if burst.2 = 0 then .error .assertion -- ceilLog2(size)
  else if s.foundInWrQ c burst then
    .ok ({ s with served := s.served ++ [(pkt.id, burst.1, Served.found)] }, pktsServicedByWrQ + 1, helper)
  else
    let pktCount := (dramPktCount c pkt).toNat
    let s := if 1 < pktCount ∧ helper = false then
      { s with helpers := Function.update s.helpers pkt.id (some (BurstHelper.mk pktCount 0)) }
      else s
    let helper := helper || decide (1 < pktCount)
    if s.readQueueFull c 1 then .error .assertion
    else
      let s := { s with readQueue := s.readQueue ++ [DRAMPacket.mk pkt burst.1 burst.2 0 helper] }
      .ok (s.logRequest .READ pkt.masterId burst.1, pktsServicedByWrQ, helper)

def addToReadQueue : Except Err Ctrl :=
  if dramPktCount c pkt = 0 then .error .assertion
  else if c.badShift pkt.addr then .error .shift
  else do
    let (s, pktsServicedByWrQ, helper) ← (bursts c pkt).foldlM (addReadBurst c pkt) (s, 0, false)
    if pktsServicedByWrQ = (dramPktCount c pkt).toNat then return s.accessAndRespond pkt
    else
      let burst_helper := (s.helpers pkt.id).map fun h => { h with burstsServiced := pktsServicedByWrQ }
      let s := if helper then { s with helpers := Function.update s.helpers pkt.id burst_helper } else s
      return { s with nextReqEvent := true }

/-- One round of the loop of `addToWriteQueue`. -/
def addWriteBurst (s : Ctrl) (burst : Addr × BitVec 32) : Except Err Ctrl :=
  if burst.2 = 0 then .error .assertion
  else if c.burstAlign burst.1 ∈ s.isInWriteQueue then .ok s
  else if ¬ s.totalWriteQueueSize < c.writeBufferSize then .error .assertion
  else
    let s := { s with
      writeQueue := s.writeQueue ++ [DRAMPacket.mk pkt burst.1 burst.2 0 false]
      isInWriteQueue := insert (c.burstAlign burst.1) s.isInWriteQueue }
    let s := s.logRequest .WRITE pkt.masterId burst.1
    if s.totalWriteQueueSize ≠ s.isInWriteQueue.card then .error .assertion else .ok s

def addToWriteQueue : Except Err Ctrl :=
  if c.badShift pkt.addr then .error .shift
  else do
    let s ← (bursts c pkt).foldlM (addWriteBurst c pkt) s
    return { s.accessAndRespond pkt with nextReqEvent := true }

/-- `recvTimingReq` of a read or a write that no cache responds to; at other packets (`cacheResponding`) the source
panics. -/
def recvTimingReq : Except Err Ctrl :=
  if pkt.size = 0 then .error .assertion
  else if pkt.isWrite then
    if s.writeQueueFull c (dramPktCount c pkt).toNat then .ok { s with retryWrReq := true }
    else addToWriteQueue c { s with accepted := s.accepted ++ [pkt] } pkt
  else if s.readQueueFull c (dramPktCount c pkt).toNat then .ok { s with retryRdReq := true }
  else addToReadQueue c { s with accepted := s.accepted ++ [pkt] } pkt

/-! ## `processRespondEvent` -/

/-- What is done for the packet of a burst that is ready. -/
def serviced (dram_pkt : DRAMPacket) : Except Err Ctrl :=
  if dram_pkt.burstHelper then
    match s.helpers dram_pkt.pkt.id with
    | none => .error .dangling
    | some h =>
      if h.burstsServiced + 1 = h.burstCount then
        .ok { s.accessAndRespond dram_pkt.pkt with helpers := Function.update s.helpers dram_pkt.pkt.id none }
      else
        let counted := BurstHelper.mk h.burstCount (h.burstsServiced + 1)
        .ok { s with helpers := Function.update s.helpers dram_pkt.pkt.id (some counted) }
  else .ok (s.accessAndRespond dram_pkt.pkt)

def processRespondEvent (curTick : Nat) : Except Err Ctrl :=
  match s.respQueue with
  | [] => .error .assertion
  | dram_pkt :: respQueue => do
    let s := { s with
      respondEvent := none
      served := s.served ++ [(dram_pkt.pkt.id, dram_pkt.addr, Served.ready dram_pkt.readyTime curTick)] }
    let s ← s.serviced dram_pkt
    let s := { s with respQueue := respQueue, retryRdReq := false }
    match respQueue with
    | [] => return s
    | front :: _ =>
      if front.readyTime < curTick then throw .assertion
      else return { s with respondEvent := some front.readyTime }

/-! ## `processNextReqEvent` -/

/-- What the ranks, the policies and the timing decide. -/
structure Choice where
  /-- `selectNextBusState`, if there is a turnaround policy. -/
  turn : Option BusState
  /-- All ranks are busy. -/
  busy : Bool
  draining : Bool
  /-- The place in the queue of the packet that `chooseNext` chooses. -/
  chosen : Option Nat
  /-- What `doDRAMAccess` sets. -/
  readyTime : Nat

def pushResp (dram_pkt : DRAMPacket) : Except Err Ctrl :=
  match s.respQueue.getLast? with
  | none =>
    if s.respondEvent.isSome then .error .assertion
    else .ok { s with respQueue := s.respQueue ++ [dram_pkt], respondEvent := some dram_pkt.readyTime }
  | some back =>
    if dram_pkt.readyTime < back.readyTime then .error .assertion
    else if s.respondEvent = none then .error .assertion
    else .ok { s with respQueue := s.respQueue ++ [dram_pkt] }

/-- The end of `processNextReqEvent`. -/
def scheduleNext : Ctrl :=
  { s with
    nextReqEvent := true
    retryWrReq := if s.totalWriteQueueSize < c.writeBufferSize then false else s.retryWrReq }

def nextRead (curTick : Nat) (ch : Choice) : Except Err Ctrl :=
  if s.totalReadQueueSize = 0 then
    if s.totalWriteQueueSize ≠ 0 ∧ (ch.draining ∨ c.writeLowThreshold < s.totalWriteQueueSize) then
      .ok (scheduleNext c { s with busStateNext := .WRITE })
    else .ok s
  else
    match ch.chosen.bind fun i => (s.readQueue[i]?).map fun dram_pkt => (i, dram_pkt) with
    | none => .ok s
    | some (i, dram_pkt) => do
      let dram_pkt := { dram_pkt with readyTime := ch.readyTime }
      if c.burstSize.toNat < dram_pkt.size.toNat ∨ dram_pkt.readyTime < curTick then throw .assertion
      let s ← s.logResponse .READ dram_pkt.pkt.masterId dram_pkt.addr
      let s ← s.pushResp dram_pkt
      let s := { s with readQueue := s.readQueue.eraseIdx i }
      return scheduleNext c (if c.writeHighThreshold <
        s.totalWriteQueueSize then { s with busStateNext := .WRITE } else s)

def nextWrite (ch : Choice) : Except Err Ctrl :=
  match ch.chosen.bind fun i => (s.writeQueue[i]?).map fun dram_pkt => (i, dram_pkt) with
  | none => .ok s
  | some (i, dram_pkt) => do
    if c.burstSize.toNat < dram_pkt.size.toNat then throw .assertion
    let s := { s with
      writesThisTime := s.writesThisTime + 1
      isInWriteQueue := s.isInWriteQueue.erase (c.burstAlign dram_pkt.addr) }
    let s ← s.logResponse .WRITE dram_pkt.pkt.masterId dram_pkt.addr
    let s := { s with writeQueue := s.writeQueue.eraseIdx i }
    if s.totalWriteQueueSize = 0 ∨
        (s.totalWriteQueueSize + c.minWritesPerSwitch < c.writeLowThreshold ∧ ¬ ch.draining) ∨
        (s.totalReadQueueSize ≠ 0 ∧ c.minWritesPerSwitch ≤ s.writesThisTime) then
      return scheduleNext c { s with busStateNext := .READ }
    else return scheduleNext c s

def processNextReqEvent (curTick : Nat) (ch : Choice) : Except Err Ctrl :=
  let busStateNext := ch.turn.getD s.busStateNext
  let s := { s with
    nextReqEvent := false
    busStateNext := busStateNext
    writesThisTime := if s.busState = .WRITE ∧ busStateNext = .READ then 0 else s.writesThisTime
    busState := busStateNext }
  if ch.busy then .ok s
  else
    match s.busState with
    | .READ => nextRead c s curTick ch
    | .WRITE => nextWrite c s ch

end Ctrl

/-! ## Runs -/

inductive Op
  | recvTimingReq (pkt : Packet)
  | processNextReqEvent (ch : Ctrl.Choice)
  | processRespondEvent
  /-- A rank schedules `nextReqEvent`, when its refresh is done. -/
  | restart

structure Run where
  ctrl : Ctrl
  now : Nat

namespace Run

variable (c : Params)

def start : Ctrl where
  readQueue := []
  writeQueue := []
  respQueue := []
  isInWriteQueue := ∅
  totalReadQueueSize := 0
  totalWriteQueueSize := 0
  requestTimes := []
  helpers := fun _ => none
  busState := .READ
  busStateNext := .READ
  writesThisTime := 0
  retryRdReq := false
  retryWrReq := false
  nextReqEvent := false
  respondEvent := none
  accepted := []
  responded := []
  served := []

/-- The bytes of a packet are in the memory, of at most `2 ^ 63` bytes (the constructor computes
`ULL(1) << ceilLog2(size())`); a packet that has been accepted is not sent again. An event that is scheduled is
processed at its tick. -/
def Ok (s : Run) (tick : Nat) : Op → Prop
  | .recvTimingReq pkt => pkt.size ≠ 0 ∧ (c.getCtrlAddr pkt.addr).toNat + pkt.size.toNat ≤ 2 ^ 63 ∧
      pkt.id ∉ s.ctrl.accepted.map (·.id)
  | .processNextReqEvent _ => s.ctrl.nextReqEvent = true
  | .processRespondEvent => s.ctrl.respondEvent = some tick
  | .restart => True

instance (s : Run) (tick : Nat) : DecidablePred (s.Ok c tick)
  | .recvTimingReq _ => inferInstanceAs (Decidable (_ ∧ _ ∧ _))
  | .processNextReqEvent _ => inferInstanceAs (Decidable (_ = _))
  | .processRespondEvent => inferInstanceAs (Decidable (_ = _))
  | .restart => inferInstanceAs (Decidable True)

def exec (s : Ctrl) (tick : Nat) : Op → Except Err Ctrl
  | .recvTimingReq pkt => s.recvTimingReq c pkt
  | .processNextReqEvent ch => s.processNextReqEvent c tick ch
  | .processRespondEvent => s.processRespondEvent tick
  | .restart => .ok { s with nextReqEvent := true }

def system : System Run (Nat × Op) where
  init s := s = ⟨start, 0⟩
  step s a :=
    if s.now ≤ a.1 ∧ s.Ok c a.1 a.2 then ((exec c s.ctrl a.1 a.2).toOption).map fun ctrl => ⟨ctrl, a.1⟩ else none

end Run

end Salam.Dram.Queues
