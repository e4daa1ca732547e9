import Mathlib.Logic.Function.Basic
import Salam.Engine.Instruction
import Salam.Lib.System

/-!
# `CommInterface`

The requests of the compute unit on their way to the memory and back. A `MemoryRequest` waits in `readQueue` or
`writeQueue`, is taken by a port (`readReq`, `writeReq`) while one packet of it is out (`accRdQ`, `accWrQ`), and comes
back to the head of its queue as long as there are bytes left. Reads and writes are handled by the same text twice,
with other fields; here `Dir` tells them apart.

Requests, packets and ports are numbered, and the number stands for the pointer. `inFlight` holds the packets that the
memory has accepted and not answered; the answers of the other side (`sendTimingReq`, `streamValid`, `canAccess`) come
with the event (`Env`). Of the memory-mapped registers only the flags are here. `log` records what happened; no
function reads it, nor the field `req` of a packet.
-/

namespace Salam.Comm

abbrev Byte := BitVec 8

/-- Reading or writing. -/
inductive Dir
  | read
  | write
  deriving DecidableEq

/-- What ends the simulation: the address of a request is in the range of no port, or a response belongs to none. -/
inductive Err
  | unreachable
  | notFound
  deriving DecidableEq

/-- `MemoryRequest`. For a read `needTo`, `current`, `left` and `done` are `needToRead`, `currentReadAddr`, `readLeft`
and `readDone`, for a write the fields of the same names for writing; `port` is the carrier port. -/
structure MemoryRequest where
  dir : Dir
  address : Word
  length : Nat
  needTo : Bool
  current : Word
  left : Nat
  done : Nat
  buffer : List Byte
  readsDone : List Bool
  pkt : Option Nat
  port : Option Nat

namespace MemoryRequest

/-- `MemoryRequest(add, len)`. -/
def forRead (add : Word) (len : Nat) : MemoryRequest :=
  ⟨.read, add, len, true, add, len, 0, List.replicate len 0, List.replicate len false, none, none⟩

/-- `MemoryRequest(add, data, len)`. -/
def forWrite (add : Word) (data : List Byte) : MemoryRequest :=
  ⟨.write, add, data.length, true, add, data.length, 0, data, List.replicate data.length true, none, none⟩

end MemoryRequest

/-- A packet; `req` is the request it was made for. -/
structure Packet where
  id : Nat
  dir : Dir
  addr : Word
  size : Nat
  data : List Byte
  req : Nat
  deriving DecidableEq

inductive PortKind
  | streamPorts
  | spmPorts
  | localPorts
  | globalPorts
  deriving DecidableEq

/-- A port: the vector it is in, and the addresses in its ranges. -/
structure PortInfo where
  kind : PortKind
  contains : Word → Bool

/-- The ports, in the order of their vectors, and `cacheLineSize`. -/
structure Config where
  ports : List PortInfo
  cacheLineSize : Nat
  cacheLineSize_pos : 0 < cacheLineSize

/-- The answers of the other side during one event: whether `sendTimingReq` accepts a packet, and whether `streamValid`
or `canAccess` of a port lets a request through. -/
structure Env where
  accept : Nat → Bool
  valid : (req port : Nat) → Bool

/-- What happens in a run. -/
inductive Event
  | initialized
  | issue (k : Packet)
  | commit (d : Dir) (req : Nat)
  deriving DecidableEq

structure St where
  reqs : Nat → MemoryRequest
  nextReq : Nat
  nextPkt : Nat
  /-- `readQueue` and `writeQueue`. -/
  queue : Dir → List Nat
  /-- `accRdQ` and `accWrQ`. -/
  acc : Dir → List Nat
  /-- `readReq` and `writeReq` of the ports. -/
  portReq : Dir → Nat → Option Nat
  outstandingPkts : Nat → List Packet
  inFlight : List Packet
  tickScheduled : Bool
  mmreg : Byte
  computationNeeded : Bool
  log : List Event

namespace St

def modify (s : St) (r : Nat) (f : MemoryRequest → MemoryRequest) : St :=
  { s with reqs := Function.update s.reqs r (f (s.reqs r)) }

def emit (s : St) (e : Event) : St := { s with log := s.log ++ [e] }

/-- `if (!tickEvent.scheduled()) schedule(tickEvent, ..)`. -/
def schedule (s : St) : St := { s with tickScheduled := true }

def setQueue (s : St) (d : Dir) (q : List Nat) : St := { s with queue := Function.update s.queue d q }

def setAcc (s : St) (d : Dir) (q : List Nat) : St := { s with acc := Function.update s.acc d q }

def setPortReq (s : St) (d : Dir) (p : Nat) (o : Option Nat) : St :=
  { s with portReq := Function.update s.portReq d (Function.update (s.portReq d) p o) }

def setOutstanding (s : St) (p : Nat) (ks : List Packet) : St :=
  { s with outstandingPkts := Function.update s.outstandingPkts p ks }

/-! ## The calls of the compute unit -/

/-- `enqueueRead` and `enqueueWrite` of a new request. -/
def enqueue (s : St) (q : MemoryRequest) : St :=
  ({ s with reqs := Function.update s.reqs s.nextReq q, nextReq := s.nextReq + 1 }.setQueue q.dir
    (s.queue q.dir ++ [s.nextReq])).schedule

def enqueueRead (s : St) (add : Word) (len : Nat) : St := s.enqueue (.forRead add len)

def enqueueWrite (s : St) (add : Word) (data : List Byte) : St := s.enqueue (.forWrite add data)

/-- `finish()`. -/
def finish (s : St) : St := { s with mmreg := s.mmreg &&& 0xfc ||| 0x04, computationNeeded := false }

end St

inductive Call
  | enqueueRead (add : Word) (len : Nat)
  | enqueueWrite (add : Word) (data : List Byte)
  | finish
  deriving DecidableEq

/-- Requests have a positive length. -/
def Call.ok : Call → Bool
  | .enqueueRead _ len => 0 < len
  | .enqueueWrite _ data => 0 < data.length
  | .finish => true

namespace St

def call (s : St) : Call → St
  | .enqueueRead add len => s.enqueueRead add len
  | .enqueueWrite add data => s.enqueueWrite add data
  | .finish => s.finish

/-- `checkMMR()`; `calls` are those that `cu->initialize()` makes. `processingDone` is never set. -/
def checkMMR (s : St) (calls : List Call) : St :=
  if !s.computationNeeded && s.mmreg &&& 0x01 != 0 then
    calls.foldl call ({ s with mmreg := s.mmreg &&& 0xfe ||| 0x02, computationNeeded := true }.emit .initialized)
  else s

/-! ## Choosing a port -/

def isStalled (s : St) (p : Nat) : Bool := !(s.outstandingPkts p).isEmpty

/-- `inStreamRange`, `inSPMRange`, `inLocalRange` and `inGlobalRange`. -/
def inRange (cfg : Config) (kind : PortKind) (add : Word) : Bool :=
  cfg.ports.any fun i => decide (i.kind = kind) && i.contains add

/-- The first port of the kind that covers the address, is not stalled, carries no request of this direction and lets
the request through. -/
def getValidPort (cfg : Config) (s : St) (d : Dir) (kind : PortKind) (add : Word) (ok : Nat → Bool) : Option Nat :=
  (List.range cfg.ports.length).find? fun p =>
    cfg.ports[p]?.any (fun i => decide (i.kind = kind) && i.contains add) && !s.isStalled p && (s.portReq d p).isNone &&
      ok p

def getValidStreamPort (cfg : Config) (env : Env) (s : St) (d : Dir) (r : Nat) (add : Word) : Option Nat :=
  getValidPort cfg s d .streamPorts add (env.valid r)

def getValidSPMPort (cfg : Config) (env : Env) (s : St) (d : Dir) (r : Nat) (add : Word) : Option Nat :=
  getValidPort cfg s d .spmPorts add (env.valid r)

def getValidLocalPort (cfg : Config) (s : St) (d : Dir) (add : Word) : Option Nat :=
  getValidPort cfg s d .localPorts add fun _ => true

def getValidGlobalPort (cfg : Config) (s : St) (d : Dir) (add : Word) : Option Nat :=
  getValidPort cfg s d .globalPorts add fun _ => true

/-- The port for the next chunk of the request `r`. -/
def choosePort (cfg : Config) (env : Env) (s : St) (d : Dir) (r : Nat) : Except Err (Option Nat) :=
  let add := (s.reqs r).current
  if inRange cfg .streamPorts add then .ok (getValidStreamPort cfg env s d r add)
  else if inRange cfg .spmPorts add then .ok (getValidSPMPort cfg env s d r add)
  else if inRange cfg .localPorts add then .ok (getValidLocalPort cfg s d add)
  else if inRange cfg .globalPorts add then .ok (getValidGlobalPort cfg s d add)
  else .error .unreachable

/-! ## Sending -/

def sendPacket (s : St) (env : Env) (p : Nat) (k : Packet) : St :=
  if s.isStalled p || !env.accept k.id then s.setOutstanding p (s.outstandingPkts p ++ [k])
  else { s with inFlight := s.inFlight ++ [k] }

end St

/-- The size of the next packet: up to the end of the cache line. -/
def chunk (line : Nat) (current : Word) (left : Nat) : Nat :=
  let size := if current.toNat % line ≠ 0 then line - current.toNat % line else line
  if left > size - 1 then size else left

/-- The request after the packet `k` of it was made. -/
def MemoryRequest.sent (q : MemoryRequest) (k : Packet) : MemoryRequest :=
  let left := q.left - k.size
  { q with
    pkt := some k.id
    current := q.current + BitVec.ofNat 64 k.size
    left := left
    needTo := if left = 0 then false else q.needTo }

namespace St

/-- The packet of the next chunk of the request `r`. -/
def nextPacket (cfg : Config) (s : St) (d : Dir) (r : Nat) : Packet :=
  let q := s.reqs r
  let size := chunk cfg.cacheLineSize q.current q.left
  let data := match d with
    | .read => []
    | .write => (q.buffer.drop (q.length - q.left)).take size
  ⟨s.nextPkt, d, q.current, size, data, r⟩

/-- `tryRead` and `tryWrite` for the request `r` of the port `p`. `sendPacket` does not look at the request, which is
updated first here. -/
def tryAccess (cfg : Config) (env : Env) (s : St) (d : Dir) (p r : Nat) : St :=
  if (s.reqs r).left = 0 then s
  else
    let k := s.nextPacket cfg d r
    let s := ({ s with nextPkt := s.nextPkt + 1 }.emit (.issue k)).modify r fun q => q.sent k
    let s := s.sendPacket env p k
    if (s.reqs r).left = 0 || !s.isStalled p then s.schedule else s

def tryRead (cfg : Config) (env : Env) (s : St) (p r : Nat) : St := s.tryAccess cfg env .read p r

def tryWrite (cfg : Config) (env : Env) (s : St) (p r : Nat) : St := s.tryAccess cfg env .write p r

/-- The port `p` takes the request `r`, which has left its queue. -/
def carry (cfg : Config) (env : Env) (s : St) (d : Dir) (r p : Nat) : St :=
  let s := (s.setPortReq d p (some r)).modify r fun q => { q with port := some p }
  if (s.reqs r).needTo then
    let s := match d with
      | .read => s.tryRead cfg env p r
      | .write => s.tryWrite cfg env p r
    s.setAcc d (s.acc d ++ [r])
  else s

/-- The loop over `readQueue` or `writeQueue`: `kept` has been looked at and stays, the list is still to be looked
at. -/
def process (cfg : Config) (env : Env) (d : Dir) (kept : List Nat) : List Nat → St → Except Err St
  | [], s => .ok s
  | r :: rest, s =>
    match choosePort cfg env s d r with
    | .error e => .error e
    | .ok none => process cfg env d (kept ++ [r]) rest s
    | .ok (some p) => process cfg env d kept rest ((s.setQueue d (kept ++ rest)).carry cfg env d r p)

def allPortsStalled (cfg : Config) (s : St) : Bool := (List.range cfg.ports.length).all s.isStalled

/-- `if (!tickEvent.scheduled() && requestsInQueues>0)`. -/
def rescheduleIfWaiting (s : St) : St := if s.queue .read = [] ∧ s.queue .write = [] then s else s.schedule

def processMemoryRequests (cfg : Config) (env : Env) (s : St) : Except Err St :=
  if allPortsStalled cfg s then .ok s.rescheduleIfWaiting
  else
    match process cfg env .read [] (s.queue .read) s with
    | .error e => .error e
    | .ok s =>
      match process cfg env .write [] (s.queue .write) s with
      | .error e => .error e
      | .ok s => .ok s.rescheduleIfWaiting

/-- `tick()`, run by `tickEvent`. -/
def tick (cfg : Config) (env : Env) (s : St) (calls : List Call) : Except Err St :=
  let s := { s with tickScheduled := false }.checkMMR calls
  if s.queue .read = [] ∧ s.queue .write = [] then .ok s else s.processMemoryRequests cfg env

/-- The loop of `recvReqRetry` over the packets of the port. -/
def resend (env : Env) (p : Nat) : List Packet → St → St
  | [], s => s
  | k :: rest, s =>
    if env.accept k.id then
      resend env p rest { s.setOutstanding p rest with inFlight := s.inFlight ++ [k] }.schedule
    else s

def recvReqRetry (s : St) (env : Env) (p : Nat) : St := resend env p (s.outstandingPkts p) s

end St

/-! ## Receiving -/

/-- `memcpy(buf + off, data, ..)`. -/
def overwrite {α : Type*} (buf : List α) (off : Nat) (data : List α) : List α :=
  buf.take off ++ data ++ buf.drop (off + data.length)

/-- The loop that moves `readDone` over the bytes that have been read. -/
def advance (readsDone : List Bool) (total : Nat) : Nat → Nat → Nat
  | 0, done => done
  | fuel + 1, done => if done < total ∧ readsDone[done]? =
      some true then advance readsDone total fuel (done + 1) else done

/-- What a response does to the data of its request. -/
def MemoryRequest.receive (q : MemoryRequest) (k : Packet) (data : List Byte) : MemoryRequest :=
  match k.dir with
  | .read =>
    let off := (k.addr - q.address).toNat
    let readsDone := overwrite q.readsDone off (List.replicate k.size true)
    { q with
      buffer := overwrite q.buffer off data
      readsDone := readsDone
      done := advance readsDone q.length q.length q.done }
  | .write => { q with done := q.done + k.size }

namespace St

def findMemRequest (s : St) (k : Packet) : Option Nat := (s.acc k.dir).find? fun r => (s.reqs r).pkt = some k.id

/-- The carrier port of the request gives it up. -/
def release (s : St) (d : Dir) (r : Nat) : St :=
  match (s.reqs r).port with
  | some p => s.setPortReq d p none
  | none => s

def recvPacket (s : St) (k : Packet) (data : List Byte) : Except Err St :=
  match s.findMemRequest k with
  | none => .error .notFound
  | some r =>
    let s := (s.release k.dir r).modify r fun q => q.receive k data
    let s := if !(s.reqs r).needTo then s.emit (.commit k.dir r) else s.setQueue k.dir (r :: s.queue k.dir)
    .ok (s.setAcc k.dir ((s.acc k.dir).erase r)).schedule

/-- The device after construction. -/
def start : St where
  reqs := fun _ => .forRead 0 0
  nextReq := 0
  nextPkt := 0
  queue := fun _ => []
  acc := fun _ => []
  portReq := fun _ _ => none
  outstandingPkts := fun _ => []
  inFlight := []
  tickScheduled := false
  mmreg := 0
  computationNeeded := false
  log := []

end St

/-- What drives the interface: calls of the compute unit, its own tick event, retries and responses of the other side,
and writes to the flags. -/
inductive Ev
  | call (c : Call)
  | tick (calls : List Call) (env : Env)
  | retry (port : Nat) (env : Env)
  | response (pkt : Nat) (data : List Byte)
  | write (flags : Byte)

/-- One event. A port gets a retry only after it was refused, and a response only to a packet that was accepted. -/
def St.step (cfg : Config) (s : St) : Ev → Option St
  | .call c => if c.ok then some (s.call c) else none
  | .tick calls env =>
    if s.tickScheduled && calls.all Call.ok then (s.tick cfg env calls).toOption else none
  | .retry p env => if s.isStalled p then some (s.recvReqRetry env p) else none
  | .response id data =>
    match s.inFlight.find? fun k => k.id = id with
    | some k =>
      if k.dir = .read → data.length = k.size then
        (({ s with inFlight := s.inFlight.erase k } : St).recvPacket k data).toOption
      else none
    | none => none
  | .write flags => some { s with mmreg := flags }.schedule

/-- The runs of the interface. -/
def comm (cfg : Config) : System St Ev where
  init s := s = .start
  step := St.step cfg

end Salam.Comm
