import Mathlib.Data.Finmap
import Salam.Base.AddrRange
import Salam.Mem.Command

/-!
# `SnoopFilter`

For each line that a cache above may have, an entry says which snooping ports hold it and which have asked for it, in
two masks with a bit for each snooping port. `lookupRequest` marks a request in the entry of its line, or makes one, and
`finishRequest` keeps that or undoes it; snoops and responses move bits and remove entries.

The statistics are left out, and so are the ports of `updateSnoopForward`, which are only printed.

* `marked_or_portToMask`, `marked_and_not_portToMask`: the bits of the ports.
* `mem_maskToPortList`: the ports of a mask.
-/

namespace Salam.Mem

open Base

abbrev SnoopMask := BitVec 256

structure SnoopItem where
  requested : SnoopMask
  holder : SnoopMask
  deriving DecidableEq

abbrev SnoopFilterCache := Finmap fun _ : Addr => SnoopItem

/-- The fields of a packet, and of its request, that the filter reads. -/
structure SnoopPacket where
  cmd : MemCmd
  addr : Addr
  isSecure : Bool
  isUncacheable : Bool
  isCacheMaintenance : Bool
  cacheResponding : Bool
  isBlockCached : Bool
  hasSharers : Bool
  deriving DecidableEq

/-- The panics and the assertions. -/
inductive SnoopErr
  /-- `double request :(`. -/
  | doubleRequest
  /-- `Need to hold the value!`. -/
  | notHolding
  /-- `assert(cpkt->isEviction())`. -/
  | notEviction
  /-- `requester %x is not a holder :(`. -/
  | notHolder
  /-- `assert(reqLookupResult.it->first == line_addr)`. -/
  | otherLine
  /-- The entry of the lookup is not there any more. -/
  | dangling
  /-- `assert(cpkt->isRequest())`. -/
  | notRequest
  /-- `snoop filter exceeded capacity of %d cache blocks`. -/
  | exceeded
  /-- The assertion on invalidation and exclusivity in `lookupSnoop`. -/
  | notExclusive
  /-- `assert(cpkt->isResponse())` and `assert(cpkt->cacheResponding())`. -/
  | notResponse
  /-- `does not have the line`. -/
  | noLine
  /-- `missing the original request`, `missing request bit`. -/
  | noRequest
  /-- `assert(!cpkt->isWriteback())`. -/
  | writeback
  /-- `assert((sf_item.requested | sf_item.holder).any())`. -/
  | nullEntry
  deriving DecidableEq

/-- The slave ports of the bus, by their ids: whether they are snooping. At most `SNOOP_MASK_SIZE` are. -/
structure SnoopParams where
  slave_ports : List Bool
  linesize : Nat
  lookupLatency : Nat
  maxEntryCount : Nat
  few : slave_ports.count true ≤ 256

/-- The filter; `it` is the line of `reqLookupResult.it`, if it is not the end. -/
structure SnoopFilter where
  cachedLocations : SnoopFilterCache
  it : Option Addr
  retryItem : SnoopItem

namespace SnoopParams

variable (cfg : SnoopParams)

def isSnooping (port : Nat) : Bool := cfg.slave_ports.getD port false

/-- The loop of `setSlavePorts`; `none` stands for `InvalidPortID`. -/
def localIds : List Bool → Nat → List (Option Nat)
  | [], _ => []
  | true :: ports, id => some id :: localIds ports (id + 1)
  | false :: ports, id => none :: localIds ports id

def localSlavePortIds : List (Option Nat) := localIds cfg.slave_ports 0

/-- The attached snooping slave ports. -/
def slavePorts : List Nat := (List.range cfg.slave_ports.length).filter fun port => cfg.isSnooping port

def localId (port : Nat) : Nat := (cfg.localSlavePortIds.getD port none).getD 0

def portToMask (port : Nat) : SnoopMask := if cfg.isSnooping port then 1#256 <<< cfg.localId port else 0

/-- `(port_mask & portToMask(*p)).any()`. -/
def marked (port_mask : SnoopMask) (port : Nat) : Bool := port_mask &&& cfg.portToMask port != 0

def maskToPortList (port_mask : SnoopMask) : List Nat := cfg.slavePorts.filter fun port => cfg.marked port_mask port

/-- The line of an address, with the bit `LineSecure`. -/
def lineAddr (addr : Addr) (is_secure : Bool) : Addr :=
  let line_addr := addr &&& ~~~BitVec.ofNat 64 (cfg.linesize - 1)
  if is_secure then line_addr ||| 1 else line_addr

end SnoopParams

namespace SnoopFilter

def start : SnoopFilter where
  cachedLocations := ∅
  it := none
  retryItem := ⟨0, 0⟩

/-- `eraseIfNullEntry` of the entry of a line. -/
def eraseIfNullEntry (cachedLocations : SnoopFilterCache) (line_addr : Addr) : SnoopFilterCache :=
  match cachedLocations.lookup line_addr with
  | some sf_item =>
    if sf_item.requested ||| sf_item.holder = 0 then cachedLocations.erase line_addr else cachedLocations
  | none => cachedLocations

/-- What `lookupRequest` makes of the entry if it allocates. -/
def requestItem (cpkt : SnoopPacket) (req_port : SnoopMask) (sf_item : SnoopItem) : Except SnoopErr SnoopItem :=
  if cpkt.cmd.needsResponse then
    if !cpkt.cacheResponding then
      if sf_item.requested &&& req_port ≠ 0 then .error .doubleRequest
      else .ok { sf_item with requested := sf_item.requested ||| req_port }
    else if sf_item.holder &&& req_port = 0 then .error .notHolding
    else .ok sf_item
  else if !cpkt.cmd.isEviction then .error .notEviction
  else if sf_item.holder &&& req_port = 0 then .error .notHolder
  else if !cpkt.isBlockCached then .ok { sf_item with holder := sf_item.holder &&& ~~~req_port }
  else .ok sf_item

/-- `lookupRequest`, with the ports to snoop and the latency. -/
def lookupRequest (cfg : SnoopParams) (s : SnoopFilter) (cpkt : SnoopPacket) (slave_port : Nat) :
    Except SnoopErr (SnoopFilter × List Nat × Nat) :=
  let allocate := !cpkt.isUncacheable && cfg.isSnooping slave_port && cpkt.cmd.fromCache
  let line_addr := cfg.lineAddr cpkt.addr cpkt.isSecure
  let req_port := cfg.portToMask slave_port
  let found := s.cachedLocations.lookup line_addr
  if found.isNone && !allocate then .ok ({ s with it := none }, [], cfg.lookupLatency)
  else
    let sf_item := found.getD ⟨0, 0⟩
    let interested := sf_item.holder ||| sf_item.requested
    let ports := cfg.maskToPortList (interested &&& ~~~req_port)
    let s := { s with it := some line_addr, retryItem := sf_item }
    if !allocate then .ok (s, ports, cfg.lookupLatency)
    else
      match requestItem cpkt req_port sf_item with
      | .error e => .error e
      | .ok sf_item =>
        .ok ({ s with cachedLocations := s.cachedLocations.insert line_addr sf_item }, ports, cfg.lookupLatency)

def finishRequest (cfg : SnoopParams) (s : SnoopFilter) (will_retry : Bool) (addr : Addr) (is_secure : Bool) :
    Except SnoopErr SnoopFilter :=
  match s.it with
  | none => .ok s
  | some line_addr =>
    if line_addr ≠ cfg.lineAddr addr is_secure then .error .otherLine
    else if (s.cachedLocations.lookup line_addr).isNone then .error .dangling
    else
      let cachedLocations :=
        if will_retry then s.cachedLocations.insert line_addr s.retryItem else s.cachedLocations
      .ok { s with cachedLocations := eraseIfNullEntry cachedLocations line_addr }

/-- `lookupSnoop`, with the ports to snoop and the latency. -/
def lookupSnoop (cfg : SnoopParams) (s : SnoopFilter) (cpkt : SnoopPacket) :
    Except SnoopErr (SnoopFilter × List Nat × Nat) :=
  let line_addr := cfg.lineAddr cpkt.addr cpkt.isSecure
  if !cpkt.cmd.isRequest then .error .notRequest
  else
    match s.cachedLocations.lookup line_addr with
    | none =>
      if cfg.maxEntryCount ≤ s.cachedLocations.keys.card then .error .exceeded
      else .ok (s, [], cfg.lookupLatency)
    | some sf_item =>
      let ports := cfg.maskToPortList (sf_item.holder ||| sf_item.requested)
      if !(cpkt.cmd.isWriteback || cpkt.isUncacheable || cpkt.cmd.isInvalidate == cpkt.cmd.needsWritable ||
          cpkt.isCacheMaintenance) then .error .notExclusive
      else if cpkt.cmd.isInvalidate && sf_item.requested == 0 then
        let cachedLocations := s.cachedLocations.insert line_addr { sf_item with holder := 0 }
        .ok ({ s with cachedLocations := eraseIfNullEntry cachedLocations line_addr }, ports, cfg.lookupLatency)
      else .ok (s, ports, cfg.lookupLatency)

def updateSnoopResponse (cfg : SnoopParams) (s : SnoopFilter) (cpkt : SnoopPacket) (rsp_port req_port : Nat) :
    Except SnoopErr SnoopFilter :=
  if !cpkt.cmd.isResponse || !cpkt.cacheResponding then .error .notResponse
  else if cpkt.isUncacheable || !cfg.isSnooping req_port then .ok s
  else
    let line_addr := cfg.lineAddr cpkt.addr cpkt.isSecure
    let rsp_mask := cfg.portToMask rsp_port
    let req_mask := cfg.portToMask req_port
    let sf_item := (s.cachedLocations.lookup line_addr).getD ⟨0, 0⟩
    if sf_item.holder &&& rsp_mask = 0 then .error .noLine
    else if sf_item.requested &&& req_mask = 0 then .error .noRequest
    else
      let holder := if !cpkt.hasSharers then 0 else sf_item.holder
      if cpkt.cmd.isWriteback then .error .writeback
      else
        let sf_item : SnoopItem := ⟨sf_item.requested &&& ~~~req_mask, holder ||| req_mask⟩
        if sf_item.requested ||| sf_item.holder = 0 then .error .nullEntry
        else .ok { s with cachedLocations := s.cachedLocations.insert line_addr sf_item }

def updateSnoopForward (cfg : SnoopParams) (s : SnoopFilter) (cpkt : SnoopPacket) : Except SnoopErr SnoopFilter :=
  if !cpkt.cmd.isResponse || !cpkt.cacheResponding then .error .notResponse
  else
    let line_addr := cfg.lineAddr cpkt.addr cpkt.isSecure
    match s.cachedLocations.lookup line_addr with
    | none => .ok s
    | some sf_item =>
      if !cpkt.hasSharers then
        let cachedLocations := s.cachedLocations.insert line_addr { sf_item with holder := 0 }
        .ok { s with cachedLocations := eraseIfNullEntry cachedLocations line_addr }
      else .ok s

def updateResponse (cfg : SnoopParams) (s : SnoopFilter) (cpkt : SnoopPacket) (slave_port : Nat) :
    Except SnoopErr SnoopFilter :=
  if !cpkt.cmd.isResponse then .error .notResponse
  else if cpkt.isUncacheable || !cfg.isSnooping slave_port then .ok s
  else
    let line_addr := cfg.lineAddr cpkt.addr cpkt.isSecure
    match s.cachedLocations.lookup line_addr with
    | none => .ok s
    | some sf_item =>
      let slave_mask := cfg.portToMask slave_port
      if sf_item.requested &&& slave_mask = 0 then .error .noRequest
      else
        let requested := sf_item.requested &&& ~~~slave_mask
        if cpkt.isCacheMaintenance then
          let holder := if cpkt.cmd.isInvalidate then sf_item.holder &&& ~~~slave_mask else sf_item.holder
          let cachedLocations := s.cachedLocations.insert line_addr ⟨requested, holder⟩
          .ok { s with cachedLocations := eraseIfNullEntry cachedLocations line_addr }
        else
          let holder := sf_item.holder ||| slave_mask
          if holder ||| requested = 0 then .error .nullEntry
          else .ok { s with cachedLocations := s.cachedLocations.insert line_addr ⟨requested, holder⟩ }

end SnoopFilter

/-! ## The ports of a mask -/

namespace SnoopParams

section Masks

variable {cfg : SnoopParams} {m m' : SnoopMask} {p q : Nat}

/-- The local id of a snooping port is the number of snooping ports before it. -/
theorem localIds_getD : ∀ (ports : List Bool) (id p : Nat), ports.getD p false = true →
    (localIds ports id).getD p none = some (id + (ports.take p).count true)
  | [], _, _, h => by simp at h
  | true :: ports, id, 0, _ => by simp [localIds]
  | true :: ports, id, p + 1, h => by
    have ih := localIds_getD ports (id + 1) p (by simpa using h)
    simp only [localIds, List.getD_cons_succ, List.take_succ_cons, List.count_cons_self]
    rw [ih, Nat.add_right_comm, Nat.add_assoc]
  | false :: ports, id, 0, h => by simp at h
  | false :: ports, id, p + 1, h => by
    have ih := localIds_getD ports id p (by simpa using h)
    simp only [localIds, List.getD_cons_succ, List.take_succ_cons]
    rw [ih, List.count_cons_of_ne (by decide)]

section

variable (h : cfg.isSnooping p = true)
include h

theorem localId_eq : cfg.localId p = (cfg.slave_ports.take p).count true := by
  rw [localId, localSlavePortIds, localIds_getD _ _ _ h, Option.getD_some, Nat.zero_add]

theorem lt_length_of_isSnooping : p < cfg.slave_ports.length := by
  by_contra hp
  rw [isSnooping, List.getD_eq_getElem?_getD, List.getElem?_eq_none (Nat.le_of_not_lt hp)] at h
  cases h

/-- The snooping port `p` counts among the ports before `q`. -/
theorem count_take_lt (hpq : p < q) : (cfg.slave_ports.take p).count true < (cfg.slave_ports.take q).count true := by
  have hlt := lt_length_of_isSnooping h
  have hp : cfg.slave_ports[p] = true := by
    rw [isSnooping, List.getD_eq_getElem?_getD, List.getElem?_eq_getElem hlt] at h
    exact h
  have hsub : (cfg.slave_ports.take (p + 1)).count true ≤ (cfg.slave_ports.take q).count true :=
    List.Sublist.count_le _ (List.take_sublist_take_left hpq)
  rw [List.take_succ_eq_append_getElem hlt, List.count_append, hp, List.count_singleton_self] at hsub
  exact hsub

theorem localId_lt : cfg.localId p < 256 := by
  have hlt := count_take_lt h (lt_length_of_isSnooping h)
  have hfew := cfg.few
  rw [List.take_length] at hlt
  rw [localId_eq h]
  omega

end

theorem localId_inj (hp : cfg.isSnooping p = true) (hq : cfg.isSnooping q = true) :
    cfg.localId p = cfg.localId q ↔ p = q := by
  refine ⟨fun h => ?_, fun h => by rw [h]⟩
  rw [localId_eq hp, localId_eq hq] at h
  rcases Nat.lt_trichotomy p q with hlt | heq | hgt
  · have := count_take_lt hp hlt
    omega
  · exact heq
  · have := count_take_lt hq hgt
    omega

theorem getLsbD_portToMask (hp : cfg.isSnooping p = true) :
    (cfg.portToMask q).getLsbD (cfg.localId p) = decide (p = q ∧ cfg.isSnooping q = true) := by
  rw [portToMask]
  split
  · rename_i hq
    have hinj := localId_inj hq hp
    rw [← BitVec.twoPow_eq, BitVec.getLsbD_twoPow]
    have := localId_lt hq
    simp [hinj, this, eq_comm, hq]
  · rename_i hq
    simp [hq]

/-- A port is set in a mask if it is snooping and its bit is. -/
theorem marked_eq : cfg.marked m p = (cfg.isSnooping p && m.getLsbD (cfg.localId p)) := by
  rw [marked, portToMask]
  cases hp : cfg.isSnooping p with
  | false => simp
  | true =>
    have hlt := localId_lt hp
    rw [if_pos rfl, ← BitVec.twoPow_eq, BitVec.and_twoPow]
    cases hbit : m.getLsbD (cfg.localId p) with
    | false => simp
    | true =>
      have hne : BitVec.twoPow 256 (cfg.localId p) ≠ 0 := by
        intro hzero
        have hget : (BitVec.twoPow 256 (cfg.localId p)).getLsbD (cfg.localId p) = true := by simp [hlt]
        rw [hzero] at hget
        simp at hget
      simpa using hne

@[simp] theorem marked_zero : cfg.marked 0#256 p = false := by
  simp [marked_eq]

@[simp] theorem marked_or : cfg.marked (m ||| m') p = (cfg.marked m p || cfg.marked m' p) := by
  simp only [marked_eq, BitVec.getLsbD_or]
  cases cfg.isSnooping p <;> simp

theorem marked_portToMask : cfg.marked (cfg.portToMask q) p = decide (p = q ∧ cfg.isSnooping q = true) := by
  rw [marked_eq]
  cases hp : cfg.isSnooping p with
  | false =>
    symm
    simp only [Bool.false_and, decide_eq_false_iff_not, not_and]
    rintro rfl
    simp [hp]
  | true => rw [getLsbD_portToMask hp, Bool.true_and]

theorem marked_or_portToMask :
    cfg.marked (m ||| cfg.portToMask q) p = (cfg.marked m p || decide (p = q ∧ cfg.isSnooping q = true)) := by
  rw [marked_or, marked_portToMask]

theorem marked_and_not_portToMask : cfg.marked (m &&& ~~~cfg.portToMask q) p = (cfg.marked m p && decide (p ≠ q)) := by
  simp only [marked_eq]
  cases hp : cfg.isSnooping p with
  | false => simp
  | true =>
    rw [BitVec.getLsbD_and, BitVec.getLsbD_not, getLsbD_portToMask hp]
    by_cases hpq : p = q
    · subst hpq
      simp [hp]
    · simp [hpq, localId_lt hp]

theorem mem_maskToPortList : p ∈ cfg.maskToPortList m ↔ cfg.marked m p = true := by
  rw [maskToPortList, List.mem_filter, slavePorts, List.mem_filter, List.mem_range]
  refine ⟨fun h => h.2, fun h => ⟨?_, h⟩⟩
  have hp : cfg.isSnooping p = true := by
    rw [marked_eq, Bool.and_eq_true] at h
    exact h.1
  exact ⟨lt_length_of_isSnooping hp, hp⟩

end Masks

end SnoopParams

end Salam.Mem
