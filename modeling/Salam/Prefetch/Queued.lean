import Mathlib.Logic.Function.Basic
import Salam.Lib.System

/-!
# The queued prefetcher

`QueuedPrefetcher`: the prefetches wait in `pfq` for the cache, and those across a page in `pfqMissingTranslation` for
the TLB, which holds a pointer to the element of that list until it calls `finish`.

An element of a list is a `Node` with the number of its allocation: `std::swap` moves the contents, and an element that
is erased is gone. Only elements that the TLB does not hold may be taken for new ones, so that the numbers are never
given out again.
The addresses that `calculatePrefetch` finds, what the cache holds and what the TLB answers are arbitrary.
-/

namespace Salam.Prefetch

namespace Queued

/-- A failed assertion or a `panic`, and a call of `finish` for an element that was erased. -/
inductive Err
  | noTranslationRequest
  | notOngoing
  | notMissing
  | erased
  | noPaddr
  | noPacket
  | panic
  | request
  | noTlb
  deriving DecidableEq

end Queued

open Queued (Err)

abbrev Addr := BitVec 64

/-! ## Requests and prefetches -/

/-- The request of the packet that `notify` gets, with what is valid in it. -/
structure Request where
  vaddr : Option Addr
  paddr : Option Addr
  asid : Nat
  flags : Nat
  contextId : Option Nat
  deriving DecidableEq

/-- A request that the TLB translates: which object it is, and what it was made of. -/
structure TranslationRequest where
  id : Nat
  asid : Nat
  vaddr : Addr
  flags : Nat
  pc : Addr
  contextId : Nat
  deriving DecidableEq

structure PrefetchInfo where
  address : Addr
  pc : Addr
  validPC : Bool
  secure : Bool
  deriving DecidableEq

def PrefetchInfo.sameAddr (a b : PrefetchInfo) : Bool := a.address = b.address && a.secure = b.secure

/-- A prefetch packet with its request. -/
structure Packet where
  addr : Addr
  size : Nat
  secure : Bool
  pc : Option Addr
  deriving DecidableEq

structure DeferredPacket where
  pfInfo : PrefetchInfo
  tick : Nat
  pkt : Option Packet
  priority : Int
  translationRequest : Option TranslationRequest
  ongoingTranslation : Bool
  deriving DecidableEq

/-- An element of a `std::list<DeferredPacket>`. -/
structure Node where
  id : Nat
  dp : DeferredPacket
  deriving DecidableEq

structure Params where
  queueSize : Nat
  queueSquash : Bool
  queueFilter : Bool
  cacheSnoop : Bool
  tagPrefetch : Bool
  throttleControlPct : UInt64
  /-- `clockPeriod() * latency` -/
  latency : Nat
  blkSize : Nat
  pageBytes : Nat
  useVirtualAddresses : Bool
  /-- A TLB is registered. -/
  tlb : Bool

namespace Params

variable (p : Params)

def blockAddress (a : Addr) : Addr := a &&& ~~~(BitVec.ofNat 64 p.blkSize - 1)

/-- `roundDown` to a page. -/
def pageAddress (a : Addr) : Addr := a &&& ~~~(BitVec.ofNat 64 p.pageBytes - 1)

def samePage (a b : Addr) : Bool := p.pageAddress a = p.pageAddress b

end Params

/-- The packet that `createPkt` makes. -/
def createPkt (p : Params) (pfInfo : PrefetchInfo) (paddr : Addr) : Packet where
  addr := paddr
  size := p.blkSize
  secure := pfInfo.secure
  pc := if p.tagPrefetch && pfInfo.validPC then some pfInfo.pc else none

/-- `createPkt` of an element. -/
def DeferredPacket.createPkt (p : Params) (dp : DeferredPacket) (paddr : Addr) (t : Nat) : DeferredPacket :=
  { dp with pkt := some (Prefetch.createPkt p dp.pfInfo paddr), tick := t }

/-! ## The queues -/

/-- The victim of a full queue and the queue without it, from the back: of the last elements with the same priority, the
one that is the farthest from the back. -/
def evict : List Node → Option (Node × List Node)
  | [] => none
  | [_] => none
  | last :: rest =>
    let run := rest.takeWhile fun n => n.dp.priority = last.dp.priority
    let above := rest.dropWhile fun n => n.dp.priority = last.dp.priority
    some ((last :: run).getLast (List.cons_ne_nil _ _), (last :: run).dropLast ++ above)

/-- Where a new element goes, from the back: past the elements of lower priority, and then past one more unless that is
the first one. -/
def place (new : Node) : List Node → List Node
  | [] => [new]
  | [first] => if new.dp.priority ≤ first.dp.priority then [new, first] else [first, new]
  | n :: rest => if n.dp.priority < new.dp.priority then n :: place new rest else n :: new :: rest

def addToQueue (p : Params) (queue : List Node) (new : Node) : Except Err (List Node) :=
  if queue.length = p.queueSize then
    match evict queue.reverse with
    | none => .error .panic
    | some (_, rest) => .ok (place new rest).reverse
  else .ok (place new queue.reverse).reverse

/-- A raised element moves up, from the back: it is swapped with each element of lower priority. The result is what ends
up in its place, and the elements before it. -/
def raise (dp : DeferredPacket) : List Node → DeferredPacket × List Node
  | [] => (dp, [])
  | prev :: rest =>
    if prev.dp.priority < dp.priority then (prev.dp, ⟨prev.id, (raise dp rest).1⟩ :: (raise dp rest).2)
    else ((raise dp rest).1, prev :: (raise dp rest).2)

/-- The elements of a queue up to the first one for an address, from the back, and those after it. -/
def findAddr (pfi : PrefetchInfo) (queue : List Node) : Option (List Node × List Node) :=
  match queue.dropWhile fun n => !n.dp.pfInfo.sameAddr pfi with
  | [] => none
  | found :: rest => some (found :: (queue.takeWhile fun n => !n.dp.pfInfo.sameAddr pfi).reverse, rest)

/-- `alreadyInQueue`: the iterator is past the element that was found, and it is the next one that is raised. -/
def alreadyInQueue (queue : List Node) (pfi : PrefetchInfo) (priority : Int) : Bool × List Node :=
  match findAddr pfi queue with
  | none => (false, queue)
  | some (_, []) => (true, queue)
  | some (before, it :: after) =>
    if it.dp.priority < priority then
      let up := raise { it.dp with priority := priority } before
      (true, up.2.reverse ++ ⟨it.id, up.1⟩ :: after)
    else (true, queue)

/-! ## The prefetcher and the TLB -/

/-- A translation that the TLB has not completed: the element that it holds a pointer to, the request, and the prefetch
that it was started for. -/
structure Translation where
  node : Nat
  req : TranslationRequest
  started : PrefetchInfo
  deriving DecidableEq

/-- A completed translation: its address, unless it failed, the prefetch that it was applied to, what the cache says of
the address, and the packet that was created. -/
structure Completion where
  started : PrefetchInfo
  paddr : Option Addr
  applied : PrefetchInfo
  redundant : Bool
  created : Option Packet
  deriving DecidableEq

structure State where
  pfq : List Node
  pfqMissingTranslation : List Node
  issuedPrefetches : UInt64
  /-- The next list element and the next request. -/
  nextNode : Nat
  nextReq : Nat
  /-- The physical addresses of the requests. -/
  paddr : Nat → Option Addr
  tlb : List Translation
  completions : List Completion

/-- What the TLB does with a translation when it gets it. -/
inductive Answer
  | delayed
  | fault
  | paddr (a : Addr)
  deriving DecidableEq

/-- The tick, and what the cache says (`inCache` or `inMissQueue`). -/
structure Env where
  curTick : Nat
  cached : Addr → Bool → Bool

namespace State

variable (p : Params) (env : Env) (s : State)

def start : State := ⟨[], [], 0, 0, 0, fun _ => none, [], []⟩

/-- The element of `pfqMissingTranslation` at an address. -/
def missing (n : Nat) : Option Node := s.pfqMissingTranslation.find? fun m => m.id = n

def eraseMissing (n : Nat) : State :=
  { s with pfqMissingTranslation := s.pfqMissingTranslation.filter fun m => m.id ≠ n }

/-- The element at an address has a translation on its way, or not. -/
def setOngoing (n : Nat) (ongoing : Bool) : State :=
  { s with pfqMissingTranslation := s.pfqMissingTranslation.map fun m =>
      if m.id = n then { m with dp := { m.dp with ongoingTranslation := ongoing } } else m }

/-- What is told of a completion. -/
def complete (c : Completion) : State := { s with completions := s.completions ++ [c] }

/-- `translationComplete`, called by the translation `tr` with its address or none. -/
def translationComplete (tr : Translation) (paddr : Option Addr) : Except Err State :=
  match s.missing tr.node with
  | none => .error .notMissing
  | some it =>
    if paddr = none then .ok ((s.eraseMissing tr.node).complete ⟨tr.started, paddr, it.dp.pfInfo, false, none⟩)
    else
      match it.dp.translationRequest.bind fun req => s.paddr req.id with
      | none => .error .noPaddr
      | some target =>
        if p.cacheSnoop && env.cached target it.dp.pfInfo.secure then
          .ok ((s.eraseMissing tr.node).complete ⟨tr.started, paddr, it.dp.pfInfo, true, none⟩)
        else
          let dp := it.dp.createPkt p target (env.curTick + p.latency)
          (addToQueue p s.pfq ⟨s.nextNode, dp⟩).map fun pfq =>
            ({ s with pfq := pfq, nextNode := s.nextNode + 1 }.eraseMissing tr.node).complete
              ⟨tr.started, paddr, it.dp.pfInfo, false, dp.pkt⟩

/-- `DeferredPacket::finish` -/
def finish (tr : Translation) (paddr : Option Addr) : Except Err State :=
  match s.missing tr.node with
  | none => .error .erased
  | some it =>
    if ¬ it.dp.ongoingTranslation = true then .error .notOngoing
    else (s.setOngoing tr.node false).translationComplete p env tr paddr

/-- The TLB completes a translation: it sets the address of the request and calls `finish`. -/
def answer (tr : Translation) (paddr : Option Addr) : Except Err State :=
  match paddr with
  | none => s.finish p env tr none
  | some a => { s with paddr := Function.update s.paddr tr.req.id (some a) }.finish p env tr (some a)

/-- `DeferredPacket::startTranslation` of the element at an address, with the answer of the TLB. -/
def startTranslation (n : Nat) (ans : Answer) : Except Err State :=
  match s.missing n with
  | none => .error .erased
  | some it =>
    match it.dp.translationRequest with
    | none => .error .noTranslationRequest
    | some req =>
      if it.dp.ongoingTranslation then .ok s
      else if ¬ p.tlb = true then .error .noTlb
      else
        match ans with
        | .delayed => .ok { s.setOngoing n true with tlb := s.tlb ++ [⟨n, req, it.dp.pfInfo⟩] }
        | .fault => (s.setOngoing n true).answer p env ⟨n, req, it.dp.pfInfo⟩ none
        | .paddr a => (s.setOngoing n true).answer p env ⟨n, req, it.dp.pfInfo⟩ (some a)

/-- The elements that `processMissingTranslations` comes to, each of which only it can erase meanwhile. -/
def startAll : State → List Nat → (Nat → Answer) → Except Err State
  | s, [], _ => .ok s
  | s, n :: rest, answers => (s.startTranslation p env n (answers 0)).bind fun s => startAll s rest fun i =>
      answers (i + 1)

def processMissingTranslations (max : Nat) (answers : Nat → Answer) : Except Err State :=
  s.startAll p env ((s.pfqMissingTranslation.take max).map (·.id)) answers

/-- `getPacket`, with the answers to its two calls of `processMissingTranslations`. -/
def getPacket (answers answers' : Nat → Answer) : Except Err State :=
  (if s.pfq.isEmpty then s.processMissingTranslations p env p.queueSize answers else .ok s).bind fun s =>
    match s.pfq with
    | [] => .ok s
    | front :: rest =>
      if front.dp.pkt = none then .error .noPacket
      else { s with pfq := rest, issuedPrefetches := s.issuedPrefetches + 1 }.processMissingTranslations p env
        (p.queueSize - rest.length) answers'

end State

/-! ## New prefetches -/

/-- What becomes of a new prefetch: nothing, a packet for a physical address, or a translation of a virtual one. -/
inductive Target
  | none
  | ready (paddr : Addr)
  | missing (vaddr : Addr)
  deriving DecidableEq

/-- The physical address computation of `insert`. A stride is the difference of two addresses modulo 2⁶⁴, whatever its
sign. -/
def target (p : Params) (req : Request) (new : PrefetchInfo) : Except Err Target :=
  match if p.useVirtualAddresses then req.vaddr else req.paddr with
  | none => .error .request
  | some orig_addr =>
    let stride := new.address - orig_addr
    if p.samePage orig_addr new.address then
      if p.useVirtualAddresses then
        match req.paddr with
        | none => .error .request
        | some paddr => .ok (.ready (paddr + stride))
      else .ok (.ready new.address)
    else if req.contextId = none then .ok .none
    else if p.useVirtualAddresses then .ok (.missing new.address)
    else
      match req.vaddr with
      | none => .ok .none
      | some vaddr => .ok (.missing (vaddr + stride))

/-- `createPrefetchRequest`, with `Request::PREFETCH` set. -/
def createPrefetchRequest (id : Nat) (vaddr : Addr) (pfi : PrefetchInfo) (req : Request) :
    Except Err TranslationRequest :=
  match req.contextId with
  | none => .error .request
  | some contextId =>
    if ¬ (req.vaddr.isSome ∧ pfi.validPC = true) then .error .request
    else .ok ⟨id, req.asid, vaddr, req.flags ||| 0x01000000, pfi.pc, contextId⟩

namespace State

variable (p : Params) (env : Env) (s : State)

/-- `insert` after the filter. -/
def insertNew (req : Request) (new : PrefetchInfo) (priority : Int) : Except Err State :=
  (target p req new).bind fun
    | .none => .ok s
    | .ready paddr =>
      if p.cacheSnoop && env.cached paddr new.secure then .ok s
      else
        let dpp : DeferredPacket := ⟨new, 0, none, priority, none, false⟩
        (addToQueue p s.pfq ⟨s.nextNode, dpp.createPkt p paddr (env.curTick + p.latency)⟩).map fun pfq =>
          { s with pfq := pfq, nextNode := s.nextNode + 1 }
    | .missing vaddr =>
      (createPrefetchRequest s.nextReq vaddr new req).bind fun translation_req =>
        (addToQueue p s.pfqMissingTranslation ⟨s.nextNode, ⟨new, 0, none, priority, some translation_req, false⟩⟩).map
          fun queue => { s with pfqMissingTranslation := queue, nextNode := s.nextNode + 1, nextReq := s.nextReq + 1 }

def insert (req : Request) (new : PrefetchInfo) (priority : Int) : Except Err State :=
  if p.queueFilter then
    let ready := alreadyInQueue s.pfq new priority
    if ready.1 then .ok { s with pfq := ready.2 }
    else
      let waiting := alreadyInQueue s.pfqMissingTranslation new priority
      if waiting.1 then .ok { s with pfqMissingTranslation := waiting.2 } else s.insertNew p env req new priority
  else s.insertNew p env req new priority

/-- `queueSquash` of `notify`. -/
def squash (pfi : PrefetchInfo) : State :=
  if p.queueSquash then
    { s with pfq := s.pfq.filter fun n =>
        !(n.dp.pfInfo.address = p.blockAddress pfi.address && n.dp.pfInfo.secure = pfi.secure) }
  else s

def getMaxPermittedPrefetches (usefulPrefetches total : UInt64) : UInt64 :=
  if 0 < total ∧ 0 < s.issuedPrefetches then
    let throttle_pfs := total * p.throttleControlPct / 100
    let min_pfs := if total - throttle_pfs = 0 then 1 else total - throttle_pfs
    min_pfs + (total - min_pfs) * usefulPrefetches / s.issuedPrefetches
  else total

/-- The loop of `notify` over the addresses with their priorities. -/
def insertAll (req : Request) (pfi : PrefetchInfo) (max_pfs : UInt64) :
    State → UInt64 → List (Addr × Int) → Except Err State
  | s, _, [] => .ok s
  | s, num_pfs, (addr, priority) :: addresses =>
    let new := { pfi with address := p.blockAddress addr }
    if p.tlb || p.samePage new.address pfi.address then
      (s.insert p env req new priority).bind fun s =>
        if num_pfs + 1 = max_pfs then .ok s else insertAll req pfi max_pfs s (num_pfs + 1) addresses
    else insertAll req pfi max_pfs s num_pfs addresses

/-- `notify`, with what `calculatePrefetch` finds. -/
def notify (req : Request) (pfi : PrefetchInfo) (usefulPrefetches : UInt64) (addresses : List (Addr × Int)) :
    Except Err State :=
  insertAll p env req pfi (s.getMaxPermittedPrefetches p usefulPrefetches (UInt64.ofNat addresses.length))
    (s.squash p pfi) 0
    addresses

end State

/-! ## Runs -/

inductive Event
  | insert (req : Request) (new : PrefetchInfo) (priority : Int)
  | notify (req : Request) (pfi : PrefetchInfo) (usefulPrefetches : UInt64) (addresses : List (Addr × Int))
  | getPacket (answers answers' : Nat → Answer)
  | complete (i : Nat) (paddr : Option Addr)

/-- A step. The TLB completes the `i`-th translation that it has, and then has it no longer. -/
def State.exec (p : Params) (env : Env) (s : State) : Event → Except Err State
  | .insert req new priority => s.insert p env req new priority
  | .notify req pfi usefulPrefetches addresses => s.notify p env req pfi usefulPrefetches addresses
  | .getPacket answers answers' => s.getPacket p env answers answers'
  | .complete i paddr =>
    match s.tlb[i]? with
    | none => .ok s
    | some tr => { s with tlb := s.tlb.eraseIdx i }.answer p env tr paddr

/-- The runs of a prefetcher with a TLB. -/
def prefetchSystem (p : Params) : System State (Env × Event) where
  init s := s = .start
  step s e := (s.exec p e.1 e.2).toOption

end Salam.Prefetch
