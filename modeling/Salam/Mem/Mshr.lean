import Salam.Base.AddrRange
import Salam.Lib.System
import Salam.Mem.Command

/-!
# `MSHR`

A miss is kept with its targets, the packets that wait for the block. Targets that the outstanding request cannot serve
are deferred; when the response comes, some of the targets are extracted or popped, and deferred ones are promoted.

Packets keep the pointer they have in the source as `id`. What the targets do to the `downstreamPending` flags of the
caches above is left out, as are the arrival times, which are for statistics.

* `cpuIds`: the packets of the targets that come from the CPU side.
* `targets_in_order`: no operation loses or reorders them.
-/

namespace Salam.Mem

open Base

inductive Source
  | FromCPU
  | FromSnoop
  | FromPrefetcher
  deriving DecidableEq

/-- The fields of a packet, and of its request, that an MSHR reads or sets: `clean` and `invalidate` are the flags of
cache maintenance, `noMerge` is set if one of `no_merge_flags` is, and `fromMshr` if there is an MSHR among the sender
states. -/
structure TargetPacket where
  id : Nat
  cmd : MemCmd
  addr : Addr
  size : Nat
  isSecure : Bool
  isUncacheable : Bool
  clean : Bool
  invalidate : Bool
  noMerge : Bool
  fromMshr : Bool
  isExpressSnoop : Bool
  cacheResponding : Bool
  responderHadWritable : Bool
  satisfied : Bool
  hasSharers : Bool
  deriving DecidableEq

structure Target where
  pkt : TargetPacket
  readyTime : Nat
  order : Nat
  source : Source
  markedPending : Bool
  allocOnFill : Bool
  deriving DecidableEq

/-- The list with its flags. -/
structure TargetList where
  list : List Target
  needsWritable : Bool
  hasUpgrade : Bool
  allocOnFill : Bool
  hasFromCache : Bool
  blkAddr : Addr
  blkSize : Nat
  canMergeWrites : Bool
  writesBitmap : List Bool
  deriving DecidableEq

/-- The panics and the assertions, and what there is no target for. -/
inductive MshrErr
  /-- The front of a list without targets. -/
  | noTarget
  /-- `assert(pkt->cmd != MemCmd::HardPFReq)`. -/
  | prefetch
  /-- `got snoop %s where needsWritable, does not match isInvalidate`. -/
  | mismatch
  /-- The assertions on the source of a target. -/
  | source
  | inService
  | downstreamPending
  /-- `assert(!targets.needsWritable)`. -/
  | writable
  /-- `assert(targets.empty())` and `assert(deferredTargets.isReset())`. -/
  | targetsLeft
  /-- `assert(readyTime <= curTick())`. -/
  | notReady
  deriving DecidableEq

namespace TargetPacket

def isCacheInvalidate (pkt : TargetPacket) : Bool := pkt.invalidate

def isCacheMaintenance (pkt : TargetPacket) : Bool := pkt.clean || pkt.invalidate

def getOffset (pkt : TargetPacket) (blk_size : Nat) : Nat := (pkt.addr &&& BitVec.ofNat 64 (blk_size - 1)).toNat

def replaceUpgrade (pkt : TargetPacket) : TargetPacket :=
  match pkt.cmd with
  | .UpgradeReq => { pkt with cmd := .ReadExReq }
  | .SCUpgradeReq => { pkt with cmd := .SCUpgradeFailReq }
  | .StoreCondReq => { pkt with cmd := .StoreCondFailReq }
  | _ => pkt

/-- The assertion of `replaceUpgrade`: a packet without data does not become one with data. -/
theorem hasData_replaceUpgrade (pkt : TargetPacket) (h : (pkt.cmd.hasData || pkt.cmd.hasRespData) = false) :
    pkt.replaceUpgrade.cmd.hasData = false := by
  rw [Bool.or_eq_false_iff] at h
  unfold replaceUpgrade
  split
  · rfl
  · rfl
  · rename_i hcmd
    rw [hcmd] at h
    exact absurd h.1 (by decide)
  · exact h.1

@[simp] theorem id_replaceUpgrade (pkt : TargetPacket) : pkt.replaceUpgrade.id = pkt.id := by
  unfold replaceUpgrade
  split <;> rfl

end TargetPacket

/-! ## `TargetList` -/

namespace TargetList

def resetFlags (l : TargetList) : TargetList :=
  { l with
    canMergeWrites := true
    writesBitmap := l.writesBitmap.map fun _ => false
    needsWritable := false
    hasUpgrade := false
    allocOnFill := false
    hasFromCache := false }

/-- A list as the constructor makes it. -/
def empty : TargetList where
  list := []
  needsWritable := false
  hasUpgrade := false
  allocOnFill := false
  hasFromCache := false
  blkAddr := 0
  blkSize := 0
  canMergeWrites := false
  writesBitmap := []

def init (l : TargetList) (blk_addr : Addr) (blk_size : Nat) : TargetList :=
  { l with
    blkAddr := blk_addr
    blkSize := blk_size
    writesBitmap := l.writesBitmap.takeD blk_size false }.resetFlags

def isWholeLineWrite (l : TargetList) : Bool := l.writesBitmap.all id

def updateWriteFlags (l : TargetList) (pkt : TargetPacket) : TargetList :=
  if l.isWholeLineWrite then l
  else
    let compat_write := pkt.cmd.isWrite && !pkt.noMerge
    let first_write := pkt.cmd.isWrite && l.list.length == 0
    let l := { l with canMergeWrites := l.canMergeWrites && compat_write }
    if first_write || compat_write then
      let offset := pkt.getOffset l.blkSize
      { l with writesBitmap := l.writesBitmap.mapIdx fun i b => b || (offset ≤ i && i < offset + pkt.size) }
    else l

def updateFlags (l : TargetList) (pkt : TargetPacket) (source : Source) (alloc_on_fill : Bool) : TargetList :=
  if source ≠ .FromSnoop then
    let l := { l with
      needsWritable := l.needsWritable || pkt.cmd.needsWritable
      hasUpgrade := l.hasUpgrade || (pkt.cmd.isUpgrade || pkt.cmd == .StoreCondReq)
      allocOnFill := l.allocOnFill || alloc_on_fill }
    if source ≠ .FromPrefetcher then
      { l with hasFromCache := l.hasFromCache || pkt.cmd.fromCache }.updateWriteFlags pkt
    else l
  else l

def populateFlags (l : TargetList) : TargetList :=
  l.list.foldl (fun l t => l.updateFlags t.pkt t.source t.allocOnFill) l.resetFlags

/-- `add`; only a packet with an MSHR above is marked as pending. -/
def add (l : TargetList) (pkt : TargetPacket) (readyTime order : Nat) (source : Source)
    (markPending alloc_on_fill : Bool) : TargetList :=
  let l := l.updateFlags pkt source alloc_on_fill
  { l with list := l.list ++ [⟨pkt, readyTime, order, source, markPending && pkt.fromMshr, alloc_on_fill⟩] }

def replaceUpgrades (l : TargetList) : TargetList :=
  if !l.hasUpgrade then l
  else
    { l with
      list := l.list.map fun t => { t with pkt := t.pkt.replaceUpgrade }
      hasUpgrade := false }

/-- `clearDownstreamPending` of some targets. -/
def unmark (ts : List Target) : List Target := ts.map fun t => { t with markedPending := false }

def clearDownstreamPending (l : TargetList) : TargetList := { l with list := unmark l.list }

def isReset (l : TargetList) : Bool :=
  !l.needsWritable && !l.hasUpgrade && !l.allocOnFill && !l.hasFromCache && l.canMergeWrites

end TargetList

/-! ## `MSHR` -/

structure MSHR where
  readyTime : Nat
  isUncacheable : Bool
  inService : Bool
  order : Nat
  blkAddr : Addr
  blkSize : Nat
  isSecure : Bool
  downstreamPending : Bool
  pendingModified : Bool
  postInvalidate : Bool
  postDowngrade : Bool
  wasWholeLineWrite : Bool
  isForward : Bool
  targets : TargetList
  deferredTargets : TargetList
  deriving DecidableEq

namespace MSHR

/-- An MSHR as the constructor makes it. -/
def start : MSHR where
  readyTime := 0
  isUncacheable := false
  inService := false
  order := 0
  blkAddr := 0
  blkSize := 0
  isSecure := false
  downstreamPending := false
  pendingModified := false
  postInvalidate := false
  postDowngrade := false
  wasWholeLineWrite := false
  isForward := false
  targets := .empty
  deferredTargets := .empty

def getNumTargets (m : MSHR) : Nat := m.targets.list.length + m.deferredTargets.list.length

def hasTargets (m : MSHR) : Bool := !m.targets.list.isEmpty

/-- `allocate`; the assertion is about the block of the only target. -/
def allocate (m : MSHR) (blk_addr : Addr) (blk_size : Nat) (target : TargetPacket) (when_ready order : Nat)
    (alloc_on_fill : Bool) : MSHR :=
  let source := if target.cmd = .HardPFReq then Source.FromPrefetcher else .FromCPU
  { m with
    blkAddr := blk_addr
    blkSize := blk_size
    isSecure := target.isSecure
    readyTime := when_ready
    order := order
    isForward := false
    wasWholeLineWrite := false
    isUncacheable := target.isUncacheable
    inService := false
    downstreamPending := false
    targets := (m.targets.init blk_addr blk_size).add target when_ready order source true alloc_on_fill
    deferredTargets := m.deferredTargets.init blk_addr blk_size }

def clearDownstreamPending (m : MSHR) : Except MshrErr MSHR :=
  if !m.downstreamPending then .error .downstreamPending
  else .ok { m with downstreamPending := false, targets := m.targets.clearDownstreamPending }

def markInService (m : MSHR) (pending_modified_resp : Bool) : Except MshrErr MSHR :=
  if m.inService then .error .inService
  else
    let targets := if !m.downstreamPending then m.targets.clearDownstreamPending else m.targets
    .ok { m with
      inService := true
      pendingModified := m.targets.needsWritable || pending_modified_resp
      postInvalidate := false
      postDowngrade := false
      targets := targets
      wasWholeLineWrite := targets.isWholeLineWrite }

def deallocate (m : MSHR) : Except MshrErr MSHR :=
  if m.hasTargets || !m.deferredTargets.isReset then .error .targetsLeft
  else .ok { m with targets := m.targets.resetFlags, inService := false }

/-- The new target has to wait for the response. -/
def defers (m : MSHR) (tgt_pkt pkt : TargetPacket) : Bool :=
  pkt.isCacheMaintenance || tgt_pkt.isCacheMaintenance || !m.deferredTargets.list.isEmpty ||
    m.inService && (m.postInvalidate ||
      pkt.cmd.needsWritable && (!m.pendingModified || m.postDowngrade || m.isForward))

def allocateTarget (m : MSHR) (pkt : TargetPacket) (whenReady order : Nat) (alloc_on_fill : Bool) :
    Except MshrErr MSHR :=
  if pkt.cmd = .HardPFReq then .error .prefetch
  else
    match m.targets.list with
    | [] => .error .noTarget
    | tgt :: _ =>
      if m.defers tgt.pkt pkt then
        let pkt := if m.inService && m.postInvalidate then pkt.replaceUpgrade else pkt
        .ok { m with deferredTargets := m.deferredTargets.add pkt whenReady order .FromCPU true alloc_on_fill }
      else .ok { m with targets := m.targets.add pkt whenReady order .FromCPU (!m.inService) alloc_on_fill }

/-- The copy of a snooped packet that becomes a target. -/
def snoopCopy (m : MSHR) (pkt : TargetPacket) (will_respond : Bool) : TargetPacket :=
  { (if will_respond then pkt
      else { pkt with
        addr := pkt.addr &&& ~~~BitVec.ofNat 64 (m.blkSize - 1)
        size := m.blkSize
        fromMshr := false }) with
    isExpressSnoop := false
    cacheResponding := false
    responderHadWritable := false
    satisfied := false
    hasSharers := false }

/-- What `handleSnoop` does with a packet that has to be replayed, and tells it. -/
def saveSnoop (m : MSHR) (curTick : Nat) (pkt : TargetPacket) (order : Nat) : MSHR × TargetPacket :=
  let will_respond := m.pendingModified && pkt.cmd.needsResponse && !pkt.cmd.isClean
  let cp_pkt := m.snoopCopy pkt will_respond
  ({ m with
      targets := m.targets.add cp_pkt curTick order .FromSnoop (m.downstreamPending && m.targets.needsWritable) false
      postInvalidate := m.postInvalidate || (pkt.cmd.needsWritable || pkt.cmd.isInvalidate) },
    if will_respond then { pkt with cacheResponding := true, responderHadWritable := true }
    else if m.pendingModified && pkt.cmd.isClean then { pkt with satisfied := true }
    else pkt)

/-- `handleSnoop`, with the flags of the packet afterwards. -/
def handleSnoop (m : MSHR) (curTick : Nat) (pkt : TargetPacket) (order : Nat) :
    Except MshrErr (MSHR × TargetPacket × Bool) :=
  if pkt.cmd.needsWritable != pkt.cmd.isInvalidate && !pkt.isCacheMaintenance then .error .mismatch
  else if !m.inService || pkt.isExpressSnoop && m.downstreamPending then
    let m := if pkt.cmd.needsWritable || pkt.isCacheInvalidate then
        { m with
          targets := m.targets.replaceUpgrades
          deferredTargets := m.deferredTargets.replaceUpgrades }
      else m
    .ok (m, pkt, false)
  else
    let m := if pkt.cmd.needsWritable || pkt.isCacheInvalidate then
        { m with deferredTargets := m.deferredTargets.replaceUpgrades }
      else m
    match m.targets.list with
    | [] => .error .noTarget
    | tgt :: _ =>
      if m.postInvalidate || tgt.pkt.isCacheInvalidate then .ok (m, pkt, true)
      else
        let (m, pkt) := if m.pendingModified || pkt.cmd.isInvalidate then m.saveSnoop curTick pkt order else (m, pkt)
        if !pkt.cmd.needsWritable && !pkt.isUncacheable then
          .ok ({ m with postDowngrade := true }, { pkt with hasSharers := true }, true)
        else .ok (m, pkt, true)

/-- The loop of `extractServiceableTargets`: the snoops are ready, the others are left. -/
def extractSnoops : List Target → Except MshrErr (List Target × List Target)
  | [] => .ok ([], [])
  | t :: ts =>
    match extractSnoops ts with
    | .error e => .error e
    | .ok (ready, left) =>
      if t.source = .FromCPU then .ok (ready, t :: left)
      else if t.source = .FromSnoop then .ok (t :: ready, left)
      else .error .source

/-- `extractServiceableTargets` for a response of the command, with the targets that are ready. -/
def extractServiceableTargets (m : MSHR) (cmd : MemCmd) : Except MshrErr (MSHR × TargetList) :=
  let ready_targets := TargetList.empty.init m.blkAddr m.blkSize
  if cmd = .ReadRespWithInvalidate then
    match m.targets.list with
    | [] => .error .noTarget
    | t :: ts =>
      if t.source ≠ .FromCPU ∧ t.source ≠ .FromPrefetcher then .error .source
      else
        match extractSnoops ts with
        | .error e => .error e
        | .ok (ready, left) =>
          .ok ({ m with targets := { m.targets with list := left }.populateFlags },
            { ready_targets with list := t :: ready }.populateFlags)
  else .ok ({ m with targets := ready_targets.populateFlags }, m.targets)

/-- What `promoteDeferredTargets` moves, and what it leaves. -/
def promotable (m : MSHR) : List Target × List Target :=
  let before := m.deferredTargets.list.takeWhile fun t => !t.pkt.isCacheMaintenance
  let rest := m.deferredTargets.list.dropWhile fun t => !t.pkt.isCacheMaintenance
  if before.isEmpty then
    if m.targets.list.isEmpty then (rest.take 1, rest.drop 1) else ([], rest)
  else (before, rest)

def promoteDeferredTargets (m : MSHR) (curTick : Nat) : Except MshrErr (MSHR × Bool) :=
  if m.targets.list.isEmpty && m.deferredTargets.list.isEmpty then .ok (m, false)
  else
    let deferredTargets := { m.deferredTargets with list := m.promotable.2 }.populateFlags
    let targets := { m.targets with list := m.targets.list ++ m.promotable.1 }.populateFlags
    match targets.list with
    | [] => .error .noTarget
    | tgt :: _ =>
      .ok ({ m with
        deferredTargets := deferredTargets
        targets := targets
        order := tgt.order
        readyTime := max curTick tgt.readyTime }, true)

/-- `promoteIf`; the predicate asserts the source of every target that it is asked about. -/
def promoteIf (m : MSHR) (pred : Target → Bool) : Except MshrErr MSHR :=
  if m.downstreamPending then .error .downstreamPending
  else
    let before := m.deferredTargets.list.takeWhile pred
    let rest := m.deferredTargets.list.dropWhile pred
    if (before ++ rest.take 1).any fun t => t.source ≠ .FromCPU then .error .source
    else
      .ok { m with
        targets := { m.targets with list := m.targets.list ++ TargetList.unmark before }
        deferredTargets := { m.deferredTargets with list := rest }.populateFlags }

def promoteReadable (m : MSHR) : Except MshrErr MSHR :=
  if m.deferredTargets.list.isEmpty then .ok m
  else if !m.inService then .error .inService
  else if m.postInvalidate then .ok m
  else m.promoteIf fun t => !t.pkt.isCacheInvalidate && !t.pkt.cmd.needsWritable

/-- `promoteWritable`; the front of the deferred targets is only looked at if there is one. -/
def promoteWritable (m : MSHR) : Except MshrErr MSHR :=
  if !m.deferredTargets.needsWritable then .ok m
  else if !m.inService then .error .inService
  else if m.postInvalidate || m.postDowngrade then .ok m
  else
    match m.deferredTargets.list with
    | [] => .error .noTarget
    | def_tgt :: _ =>
      if def_tgt.pkt.isCacheInvalidate then .ok m
      else if m.targets.needsWritable then .error .writable
      else { m with targets := { m.targets with needsWritable := true } }.promoteIf fun t => !t.pkt.isCacheInvalidate

/-- `popTarget`, with the target. -/
def popTarget (m : MSHR) : Except MshrErr (MSHR × Target) :=
  match m.targets.list with
  | [] => .error .noTarget
  | t :: ts => .ok ({ m with targets := { m.targets with list := ts } }, t)

def delay (m : MSHR) (curTick delay_ticks : Nat) : Except MshrErr MSHR :=
  if curTick < m.readyTime then .error .notReady else .ok { m with readyTime := curTick + delay_ticks }

end MSHR

/-! ## The targets from the CPU side -/

/-- The packets from the CPU side among the targets, in their order. -/
def cpuIds (ts : List Target) : List Nat := (ts.filter fun t => t.source = .FromCPU).map (·.pkt.id)

section Ids

variable {l : TargetList} {ts ts' : List Target}

@[simp] theorem cpuIds_nil : cpuIds [] = [] := rfl

@[simp] theorem cpuIds_append (ts ts' : List Target) : cpuIds (ts ++ ts') = cpuIds ts ++ cpuIds ts' := by
  simp [cpuIds]

theorem cpuIds_cons (t : Target) (ts : List Target) : cpuIds (t :: ts) = cpuIds [t] ++ cpuIds ts :=
  cpuIds_append [t] ts

theorem cpuIds_map {f : Target → Target} (hid : ∀ t, (f t).pkt.id = t.pkt.id) (hsource : ∀ t, (f t).source = t.source) :
    cpuIds (ts.map f) = cpuIds ts := by
  simp [cpuIds, List.filter_map, Function.comp_def, hid, hsource]

@[simp] theorem cpuIds_unmark : cpuIds (TargetList.unmark ts) = cpuIds ts := cpuIds_map (fun _ => rfl) fun _ => rfl

@[simp] theorem list_updateFlags (pkt : TargetPacket) (source : Source) (alloc_on_fill : Bool) :
    (l.updateFlags pkt source alloc_on_fill).list = l.list := by
  unfold TargetList.updateFlags TargetList.updateWriteFlags
  split
  · dsimp only
    split
    · split
      · rfl
      · split <;> rfl
    · rfl
  · rfl

@[simp] theorem list_populateFlags : l.populateFlags.list = l.list := by
  have hfold : ∀ (ts : List Target) (l : TargetList),
      (ts.foldl (fun l t => l.updateFlags t.pkt t.source t.allocOnFill) l).list = l.list := by
    intro ts
    induction ts with
    | nil => exact fun _ => rfl
    | cons t ts ih =>
      intro l
      rw [List.foldl_cons, ih, list_updateFlags]
  exact hfold l.list l.resetFlags

@[simp] theorem list_init (blk_addr : Addr) (blk_size : Nat) : (l.init blk_addr blk_size).list = l.list := rfl

@[simp] theorem list_add (pkt : TargetPacket) (readyTime order : Nat) (source : Source) (markPending alloc : Bool) :
    (l.add pkt readyTime order source markPending alloc).list =
      l.list ++ [⟨pkt, readyTime, order, source, markPending && pkt.fromMshr, alloc⟩] := by
  simp [TargetList.add]

@[simp] theorem cpuIds_replaceUpgrades : cpuIds l.replaceUpgrades.list = cpuIds l.list := by
  unfold TargetList.replaceUpgrades
  split
  · rfl
  · exact cpuIds_map (fun t => t.pkt.id_replaceUpgrade) fun _ => rfl

/-- Of the targets after the first, the snoops go and the others stay. -/
theorem cpuIds_extractSnoops : ∀ {ts ready left : List Target}, MSHR.extractSnoops ts = .ok (ready, left) →
    cpuIds ready = [] ∧ cpuIds left = cpuIds ts
  | [], ready, left, h => by
    cases h
    exact ⟨rfl, rfl⟩
  | t :: ts, ready, left, h => by
    rw [MSHR.extractSnoops] at h
    cases hrec : MSHR.extractSnoops ts with
    | error e =>
      rw [hrec] at h
      cases h
    | ok res =>
      obtain ⟨ready', left'⟩ := res
      obtain ⟨hready, hleft⟩ := cpuIds_extractSnoops hrec
      rw [hrec] at h
      dsimp only at h
      split at h
      · cases h
        exact ⟨hready, by rw [cpuIds_cons, hleft, ← cpuIds_cons]⟩
      · split at h
        · rename_i hsnoop
          cases h
          have hnone : cpuIds [t] = [] := by simp [cpuIds, hsnoop]
          rw [cpuIds_cons t ready', cpuIds_cons t ts, hnone]
          exact ⟨hready, hleft⟩
        · cases h

end Ids

namespace MSHR

/-- The packets from the CPU side that wait, in the order in which they will be served. -/
def waiting (m : MSHR) : List Nat := cpuIds m.targets.list ++ cpuIds m.deferredTargets.list

section Operations

variable {m m' : MSHR} {curTick : Nat}

theorem waiting_allocate {blk_addr : Addr} {blk_size : Nat} {target : TargetPacket} {when_ready order : Nat}
    {alloc_on_fill : Bool} (h : m.getNumTargets = 0) :
    (m.allocate blk_addr blk_size target when_ready order alloc_on_fill).waiting =
      if target.cmd = .HardPFReq then [] else [target.id] := by
  simp only [getNumTargets, Nat.add_eq_zero_iff, List.length_eq_zero_iff] at h
  simp only [waiting, allocate, list_add, list_init, h.1, h.2]
  split <;> rfl

theorem markInService_ok {b : Bool} (h : m.markInService b = .ok m') :
    m.inService = false ∧ m'.inService = true ∧ m'.waiting = m.waiting := by
  rw [markInService] at h
  split at h
  · cases h
  · rename_i hin
    cases h
    refine ⟨Bool.eq_false_iff.mpr hin, rfl, ?_⟩
    simp only [waiting]
    split <;> simp [TargetList.clearDownstreamPending]

theorem clearDownstreamPending_ok (h : m.clearDownstreamPending = .ok m') :
    m'.inService = m.inService ∧ m'.waiting = m.waiting := by
  rw [clearDownstreamPending] at h
  split at h
  · cases h
  · cases h
    exact ⟨rfl, by simp [waiting, TargetList.clearDownstreamPending]⟩

theorem deallocate_ok (h : m.deallocate = .ok m') : m'.inService = false ∧ m'.waiting = m.waiting := by
  rw [deallocate] at h
  split at h
  · cases h
  · cases h
    exact ⟨rfl, rfl⟩

/-- A new target is the last one: it is deferred if others are. -/
theorem allocateTarget_ok {pkt : TargetPacket} {whenReady order : Nat} {alloc_on_fill : Bool}
    (h : m.allocateTarget pkt whenReady order alloc_on_fill = .ok m') :
    m'.inService = m.inService ∧ m'.waiting = m.waiting ++ [pkt.id] := by
  rw [allocateTarget] at h
  split at h
  · cases h
  · split at h
    · cases h
    · rename_i tgt _ _
      split at h
      · cases h
        refine ⟨rfl, ?_⟩
        simp only [waiting, list_add, cpuIds_append, List.append_assoc, List.append_cancel_left_eq]
        split <;> simp [cpuIds]
      · rename_i hdefers
        cases h
        have hnil : m.deferredTargets.list = [] := by
          simp only [defers, Bool.or_eq_true, not_or, Bool.not_eq_true', Bool.not_eq_false] at hdefers
          exact List.isEmpty_iff.mp hdefers.1.2
        refine ⟨rfl, ?_⟩
        simp only [waiting, list_add, cpuIds_append, hnil, cpuIds_nil, List.append_nil]
        rfl

theorem waiting_saveSnoop {pkt : TargetPacket} {order : Nat} :
    (m.saveSnoop curTick pkt order).1.waiting = m.waiting := by
  simp only [waiting, saveSnoop, list_add, cpuIds_append]
  simp [cpuIds]

theorem handleSnoop_ok {pkt pkt' : TargetPacket} {order : Nat} {b : Bool}
    (h : m.handleSnoop curTick pkt order = .ok (m', pkt', b)) :
      m'.inService = m.inService ∧ m'.waiting = m.waiting := by
  rw [handleSnoop] at h
  split at h
  · cases h
  · split at h
    · cases h
      split
      · exact ⟨rfl, by simp [waiting]⟩
      · exact ⟨rfl, rfl⟩
    · dsimp only at h
      -- the deferred upgrades may be replaced first
      generalize hm : (if (pkt.cmd.needsWritable || pkt.isCacheInvalidate) = true then
        { m with deferredTargets := m.deferredTargets.replaceUpgrades } else m) = m₁ at h
      have hfirst : m₁.inService = m.inService ∧ m₁.waiting = m.waiting := by
        rw [← hm]
        split
        · exact ⟨rfl, by simp [waiting]⟩
        · exact ⟨rfl, rfl⟩
      split at h
      · cases h
      · split at h
        · cases h
          exact hfirst
        · generalize hs : (if (m₁.pendingModified || pkt.cmd.isInvalidate) = true then m₁.saveSnoop curTick pkt order
            else (m₁, pkt)) = out at h
          have hout : out.1.inService = m₁.inService ∧ out.1.waiting = m₁.waiting := by
            rw [← hs]
            split
            · exact ⟨rfl, waiting_saveSnoop⟩
            · exact ⟨rfl, rfl⟩
          have hboth := And.intro (hout.1.trans hfirst.1) (hout.2.trans hfirst.2)
          split at h
          · cases h
            exact hboth
          · cases h
            exact hboth

/-- The extracted targets come before those that are left. -/
theorem extractServiceableTargets_ok {cmd : MemCmd} {ready : TargetList}
    (h : m.extractServiceableTargets cmd = .ok (m', ready)) :
    m'.inService = m.inService ∧ cpuIds ready.list ++ m'.waiting = m.waiting := by
  rw [extractServiceableTargets] at h
  split at h
  · split at h
    · cases h
    · rename_i t ts hlist
      split at h
      · cases h
      · cases hrec : extractSnoops ts with
        | error e =>
          rw [hrec] at h
          cases h
        | ok res =>
          obtain ⟨ready', left⟩ := res
          obtain ⟨hready, hleft⟩ := cpuIds_extractSnoops hrec
          rw [hrec] at h
          cases h
          refine ⟨rfl, ?_⟩
          simp only [waiting, list_populateFlags, hlist]
          rw [cpuIds_cons t ready', cpuIds_cons t ts, hready, hleft, List.append_nil, List.append_assoc]
  · cases h
    refine ⟨rfl, ?_⟩
    rfl

theorem promotable_append (m : MSHR) : m.promotable.1 ++ m.promotable.2 = m.deferredTargets.list := by
  have hsplit := List.takeWhile_append_dropWhile (p := fun t : Target => !t.pkt.isCacheMaintenance)
    (l := m.deferredTargets.list)
  unfold promotable
  dsimp only
  split
  · rename_i hnil
    rw [List.isEmpty_iff.mp hnil, List.nil_append] at hsplit
    split
    · rw [List.take_append_drop, hsplit]
    · exact hsplit
  · exact hsplit

theorem promoteDeferredTargets_ok {b : Bool} (h : m.promoteDeferredTargets curTick = .ok (m', b)) :
    m'.inService = m.inService ∧ m'.waiting = m.waiting := by
  rw [promoteDeferredTargets] at h
  split at h
  · cases h
    exact ⟨rfl, rfl⟩
  · dsimp only at h
    split at h
    · cases h
    · cases h
      refine ⟨rfl, ?_⟩
      simp only [waiting, list_populateFlags, cpuIds_append, List.append_assoc]
      rw [← cpuIds_append m.promotable.1, promotable_append]

theorem promoteIf_ok {pred : Target → Bool} (h : m.promoteIf pred = .ok m') :
    m'.inService = m.inService ∧ m'.waiting = m.waiting := by
  rw [promoteIf] at h
  split at h
  · cases h
  · dsimp only at h
    split at h
    · cases h
    · cases h
      refine ⟨rfl, ?_⟩
      simp only [waiting, list_populateFlags, cpuIds_append, cpuIds_unmark, List.append_assoc]
      rw [← cpuIds_append, List.takeWhile_append_dropWhile]

theorem promoteReadable_ok (h : m.promoteReadable = .ok m') : m'.inService = m.inService ∧ m'.waiting = m.waiting := by
  rw [promoteReadable] at h
  split at h
  · cases h
    exact ⟨rfl, rfl⟩
  · split at h
    · cases h
    · split at h
      · cases h
        exact ⟨rfl, rfl⟩
      · exact promoteIf_ok h

theorem promoteWritable_ok (h : m.promoteWritable = .ok m') : m'.inService = m.inService ∧ m'.waiting = m.waiting := by
  rw [promoteWritable] at h
  split at h
  · cases h
    exact ⟨rfl, rfl⟩
  · split at h
    · cases h
    · split at h
      · cases h
        exact ⟨rfl, rfl⟩
      · split at h
        · cases h
        · split at h
          · cases h
            exact ⟨rfl, rfl⟩
          · split at h
            · cases h
            · obtain ⟨hin, hwait⟩ := promoteIf_ok h
              exact ⟨hin, hwait⟩

theorem popTarget_ok {t : Target} (h : m.popTarget = .ok (m', t)) :
    m'.inService = m.inService ∧ cpuIds [t] ++ m'.waiting = m.waiting := by
  rw [popTarget] at h
  split at h
  · cases h
  · rename_i ts hlist
    cases h
    refine ⟨rfl, ?_⟩
    simp only [waiting, hlist]
    rw [cpuIds_cons t ts, List.append_assoc]

end Operations

end MSHR

/-! ## Runs -/

/-- What is done to an MSHR. `allocate` is called by the queue, which asserts that there are no targets; the last four
are the queue's and those of the caches. -/
inductive MshrOp
  | allocate (blk_addr : Addr) (blk_size : Nat) (target : TargetPacket) (when_ready order : Nat) (alloc_on_fill : Bool)
  | allocateTarget (pkt : TargetPacket) (whenReady order : Nat) (alloc_on_fill : Bool)
  | handleSnoop (pkt : TargetPacket) (order : Nat)
  | extractServiceableTargets (cmd : MemCmd)
  | promoteDeferredTargets
  | promoteReadable
  | promoteWritable
  | popTarget
  | markInService (pending_modified_resp : Bool)
  | markPending
  | deallocate
  | downstreamPending
  | clearDownstreamPending
  | forward (isForward : Bool)
  deriving DecidableEq

/-- An MSHR, with the packets from the CPU side that it was given, and those that it has handed out; the last two are
not in the source. -/
structure Misses where
  mshr : MSHR
  allocated : List Nat
  handedOut : List Nat

namespace Misses

def start : Misses := ⟨.start, [], []⟩

/-- The packets from the CPU side that an operation brings. -/
def brought : MshrOp → List Nat
  | .allocate _ _ target _ _ _ => if target.cmd = .HardPFReq then [] else [target.id]
  | .allocateTarget pkt _ _ _ => [pkt.id]
  | _ => []

/-- One operation at a tick, with the targets that it hands out. -/
def apply (m : MSHR) (curTick : Nat) : MshrOp → Except MshrErr (MSHR × List Target)
  | .allocate blk_addr blk_size target when_ready order alloc_on_fill =>
    if m.getNumTargets ≠ 0 then .error .targetsLeft
    else .ok (m.allocate blk_addr blk_size target when_ready order alloc_on_fill, [])
  | .allocateTarget pkt whenReady order alloc_on_fill =>
    (m.allocateTarget pkt whenReady order alloc_on_fill).map fun m => (m, [])
  | .handleSnoop pkt order => (m.handleSnoop curTick pkt order).map fun out => (out.1, [])
  | .extractServiceableTargets cmd => (m.extractServiceableTargets cmd).map fun out => (out.1, out.2.list)
  | .promoteDeferredTargets => (m.promoteDeferredTargets curTick).map fun out => (out.1, [])
  | .promoteReadable => m.promoteReadable.map fun m => (m, [])
  | .promoteWritable => m.promoteWritable.map fun m => (m, [])
  | .popTarget => m.popTarget.map fun out => (out.1, [out.2])
  | .markInService pending_modified_resp => (m.markInService pending_modified_resp).map fun m => (m, [])
  | .markPending => if m.inService then .ok ({ m with inService := false }, []) else .error .inService
  | .deallocate => m.deallocate.map fun m => (m, [])
  | .downstreamPending =>
    if m.downstreamPending then .error .downstreamPending else .ok ({ m with downstreamPending := true }, [])
  | .clearDownstreamPending => m.clearDownstreamPending.map fun m => (m, [])
  | .forward isForward => .ok ({ m with isForward := isForward }, [])

def step (s : Misses) (e : Nat × MshrOp) : Option Misses :=
  (apply s.mshr e.1 e.2).toOption.map fun out =>
    ⟨out.1, s.allocated ++ brought e.2, s.handedOut ++ cpuIds out.2⟩

end Misses

/-- The runs of an `MSHR`. -/
def misses : System Misses (Nat × MshrOp) where
  init s := s = .start
  step := Misses.step

namespace Misses

/-- What an operation hands out and what then waits is what waited before and what it has brought. -/
theorem waiting_apply {m m' : MSHR} {curTick : Nat} {op : MshrOp} {ready : List Target}
    (h : apply m curTick op = .ok (m', ready)) : cpuIds ready ++ m'.waiting = m.waiting ++ brought op := by
  cases op with
  | allocate blk_addr blk_size target when_ready order alloc_on_fill =>
    simp only [apply] at h
    split at h
    · cases h
    · rename_i hnone
      have hzero : m.getNumTargets = 0 := not_ne_iff.mp hnone
      cases h
      have hwait : m.waiting = [] := by
        simp only [MSHR.getNumTargets, Nat.add_eq_zero_iff, List.length_eq_zero_iff] at hzero
        simp [MSHR.waiting, hzero]
      rw [MSHR.waiting_allocate hzero, hwait]
      rfl
  | allocateTarget pkt whenReady order alloc_on_fill =>
    obtain ⟨m₁, hm, heq⟩ := ok_of_map h
    cases heq
    exact (MSHR.allocateTarget_ok hm).2
  | handleSnoop pkt order =>
    obtain ⟨⟨m₁, pkt', b⟩, hm, heq⟩ := ok_of_map h
    cases heq
    simpa [brought] using (MSHR.handleSnoop_ok hm).2
  | extractServiceableTargets cmd =>
    obtain ⟨⟨m₁, ready'⟩, hm, heq⟩ := ok_of_map h
    cases heq
    simpa [brought] using (MSHR.extractServiceableTargets_ok hm).2
  | promoteDeferredTargets =>
    obtain ⟨⟨m₁, b⟩, hm, heq⟩ := ok_of_map h
    cases heq
    simpa [brought] using (MSHR.promoteDeferredTargets_ok hm).2
  | promoteReadable =>
    obtain ⟨m₁, hm, heq⟩ := ok_of_map h
    cases heq
    simpa [brought] using (MSHR.promoteReadable_ok hm).2
  | promoteWritable =>
    obtain ⟨m₁, hm, heq⟩ := ok_of_map h
    cases heq
    simpa [brought] using (MSHR.promoteWritable_ok hm).2
  | popTarget =>
    obtain ⟨⟨m₁, t⟩, hm, heq⟩ := ok_of_map h
    cases heq
    simpa [brought] using (MSHR.popTarget_ok hm).2
  | markInService pending_modified_resp =>
    obtain ⟨m₁, hm, heq⟩ := ok_of_map h
    cases heq
    simpa [brought] using (MSHR.markInService_ok hm).2.2
  | deallocate =>
    obtain ⟨m₁, hm, heq⟩ := ok_of_map h
    cases heq
    simpa [brought] using (MSHR.deallocate_ok hm).2
  | clearDownstreamPending =>
    obtain ⟨m₁, hm, heq⟩ := ok_of_map h
    cases heq
    simpa [brought] using (MSHR.clearDownstreamPending_ok hm).2
  | markPending =>
    simp only [apply] at h
    split at h
    · cases h
      simp [brought, MSHR.waiting]
    · cases h
  | downstreamPending =>
    simp only [apply] at h
    split at h
    · cases h
    · cases h
      simp [brought, MSHR.waiting]
  | forward isForward =>
    cases h
    simp [brought, MSHR.waiting]

/-- **No target is lost, duplicated or reordered**: the packets from the CPU side that were handed out, followed by
those of the targets and of the deferred targets, are those that were allocated, in this order. -/
theorem targets_in_order {s : Misses} (h : misses.Reachable s) :
    s.handedOut ++ cpuIds (s.mshr.targets.list ++ s.mshr.deferredTargets.list) = s.allocated := by
  rw [cpuIds_append]
  refine System.invariantWhen (I := fun s : Misses => s.handedOut ++ s.mshr.waiting = s.allocated) ?_ ?_ h
  · rintro s rfl
    rfl
  · intro s e s' _ hs _ hstep
    obtain ⟨⟨m, ready⟩, hm, rfl⟩ := Option.map_eq_some_iff.mp hstep
    have happly := waiting_apply (ok_of_toOption hm)
    show s.handedOut ++ cpuIds ready ++ m.waiting = s.allocated ++ brought e.2
    rw [List.append_assoc, happly, ← List.append_assoc, hs]

/-- A packet of four bytes in the block at 0. -/
def missPacket (id : Nat) (cmd : MemCmd) : TargetPacket where
  id := id
  cmd := cmd
  addr := 0
  size := 4
  isSecure := false
  isUncacheable := false
  clean := false
  invalidate := false
  noMerge := false
  fromMshr := false
  isExpressSnoop := false
  cacheResponding := false
  responderHadWritable := false
  satisfied := false
  hasSharers := false

/-- A write is deferred, and so is the read after it; an invalidating snoop goes with the first target. -/
theorem targets_in_order_deferred : ∃ s, misses.Reachable s ∧ s.handedOut = [1] ∧ s.allocated = [1, 2, 3] ∧
    cpuIds (s.mshr.targets.list ++ s.mshr.deferredTargets.list) = [2, 3] := by
  obtain ⟨s, hs, hout, hall⟩ := System.reachable_of_replay (S := misses) (show misses.init start from rfl)
    [(0, .allocate 0 64 (missPacket 1 .ReadReq) 5 0 true), (5, .markInService false),
      (6, .allocateTarget (missPacket 2 .WriteReq) 6 1 true), (7, .allocateTarget (missPacket 3 .ReadReq) 7 2 true),
      (8, .handleSnoop (missPacket 4 .ReadExReq) 3), (9, .extractServiceableTargets .ReadRespWithInvalidate),
      (9, .promoteDeferredTargets)]
    (fun s => s.handedOut = [1] ∧ s.allocated = [1, 2, 3]) (by decide +kernel)
  have hlaw := targets_in_order hs
  rw [hout, hall] at hlaw
  exact ⟨s, hs, hout, hall, (List.cons.inj hlaw).2⟩

end Misses

end Salam.Mem
