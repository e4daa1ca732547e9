import Mathlib.Algebra.Order.Group.Nat
import Mathlib.Data.Finset.Card
import Mathlib.Data.Fintype.Basic
import Mathlib.Logic.Function.Basic
import Salam.Dram.Packet
import Salam.Lib.System

/-!
# The accesses of the DRAM controller

`DRAMCtrl::activateBank`, `prechargeBank` and `doDRAMAccess`: a bank keeps the ticks from which on the next command of
each kind is allowed (`Bank`), a rank the ticks of its last activations (`actTicks`), and the controller that from which
on the bus is free (`nextBurstAt`). The commands are issued ahead of time: `cmdList` has them in the order in which they
are issued, those of all the ranks in one list.

Ticks are natural numbers. The refresh and the power states, with their events, are no part of the model.
-/

namespace Salam.Dram

/-- `Enums::PageManage` -/
inductive PageManage
  | open
  | open_adaptive
  | close
  | close_adaptive
  deriving DecidableEq

structure Params where
  ranksPerChannel : Nat
  banksPerRank : Nat
  bankGroupsPerRank : Nat
  tRTW : Nat
  tWTR : Nat
  tCS : Nat
  tBURST : Nat
  tCCD_L_WR : Nat
  tCCD_L : Nat
  tRCD : Nat
  tCL : Nat
  tRP : Nat
  tRAS : Nat
  tWR : Nat
  tRTP : Nat
  tRRD : Nat
  tRRD_L : Nat
  tXAW : Nat
  activationLimit : Nat
  pageMgmt : PageManage
  maxAccessesPerRow : Nat

namespace Params

variable (p : Params)

def bankGroupArch : Bool := 0 < p.bankGroupsPerRank

def rankToRankDly : Nat := p.tCS + p.tBURST

def wrToRdDly : Nat := p.tCL + p.tBURST + p.tWTR

def rdToWrDly : Nat := p.tRTW + p.tBURST

/-- What the constructor of `Rank` sets `bankgr` to, a `uint8_t`. -/
def bankgr (b : Nat) : Nat := (if 0 < p.bankGroupsPerRank then b % p.bankGroupsPerRank else b) % 256

abbrev Packet := DRAMPacket p.ranksPerChannel p.banksPerRank

end Params

structure Bank where
  openRow : BitVec 32
  rdAllowedAt : Nat
  wrAllowedAt : Nat
  preAllowedAt : Nat
  actAllowedAt : Nat
  rowAccesses : Nat
  deriving DecidableEq

def Bank.init : Bank := ⟨NO_ROW, 0, 0, 0, 0, 0⟩

/-- `MemCommand::cmds` -/
inductive Kind
  | ACT
  | PRE
  | RD
  | WR
  deriving DecidableEq

structure Command (p : Params) where
  type : Kind
  rank : Fin p.ranksPerChannel
  bank : Fin p.banksPerRank
  timeStamp : Nat
  deriving DecidableEq

structure Rank (p : Params) where
  banks : Fin p.banksPerRank → Bank
  numBanksActive : Nat
  actTicks : List Nat

structure DRAMCtrl (p : Params) where
  ranks : Fin p.ranksPerChannel → Rank p
  nextBurstAt : Nat
  cmdList : List (Command p)

inductive Err
  | assertion
  /-- `Got %d activates in window %d`. -/
  | panic
  deriving DecidableEq

namespace DRAMCtrl

variable {p : Params} (s : DRAMCtrl p) (r : Fin p.ranksPerChannel) (b : Fin p.banksPerRank)

def bank : Bank := (s.ranks r).banks b

/-- What is written into a rank. -/
def setRank (rank : Rank p) : DRAMCtrl p := { s with ranks := Function.update s.ranks r rank }

/-- `cmdList.push_back(Command(type, bank, time_stamp))` -/
def push (type : Kind) (time_stamp : Nat) : DRAMCtrl p := { s with cmdList := s.cmdList ++ [⟨type, r, b, time_stamp⟩] }

/-! ## `activateBank` -/

/-- The bank of an activation. -/
def openBank (p : Params) (act_tick : Nat) (row : BitVec 32) (bank : Bank) : Bank :=
  { bank with
    openRow := row
    rowAccesses := 0
    preAllowedAt := act_tick + p.tRAS
    rdAllowedAt := max (act_tick + p.tRCD) bank.rdAllowedAt
    wrAllowedAt := max (act_tick + p.tRCD) bank.wrAllowedAt }

/-- `tRRD_L` in one bank group. -/
def rrd (p : Params) (b i : Fin p.banksPerRank) : Nat :=
  if p.bankGroupArch ∧ p.bankgr b = p.bankgr i then p.tRRD_L else p.tRRD

def delayAct (until_ : Nat) (bank : Bank) : Bank := { bank with actAllowedAt := max until_ bank.actAllowedAt }

/-- The activations in the window `tXAW`, from the ticks of the last `activationLimit` ones, the last of which is the
oldest. -/
def enforceXAW (act_tick : Nat) (rank : Rank p) : Except Err (Rank p) :=
  match rank.actTicks.getLast? with
  | none => .ok rank
  | some back =>
    if back ≠ 0 ∧ act_tick - back < p.tXAW then .error .panic
    else
      let actTicks := act_tick :: rank.actTicks.dropLast
      let back := actTicks.getLast (List.cons_ne_nil _ _)
      if back ≠ 0 ∧ act_tick - back < p.tXAW then
        .ok { rank with actTicks := actTicks, banks := fun j => delayAct (back + p.tXAW) (rank.banks j) }
      else .ok { rank with actTicks := actTicks }

def activateBank (act_tick : Nat) (row : BitVec 32) : Except Err (DRAMCtrl p) :=
  let rank := s.ranks r
  if rank.actTicks.length ≠ p.activationLimit then .error .assertion
  else if (rank.banks b).openRow ≠ NO_ROW then .error .assertion
  else if p.banksPerRank < rank.numBanksActive + 1 then .error .assertion
  else do
    let banks := Function.update rank.banks b (openBank p act_tick row (rank.banks b))
    let rank ← enforceXAW act_tick
      { rank with
        numBanksActive := rank.numBanksActive + 1
        banks := fun i => delayAct (act_tick + rrd p b i) (banks i) }
    return (s.push r b .ACT act_tick).setRank r rank

/-! ## `prechargeBank` -/

def prechargeBank (pre_at : Nat) : Except Err (DRAMCtrl p) :=
  let rank := s.ranks r
  let bank := rank.banks b
  if bank.openRow = NO_ROW then .error .assertion
  else if rank.numBanksActive = 0 then .error .assertion
  else
    .ok ((s.push r b .PRE pre_at).setRank r
      { rank with
        numBanksActive := rank.numBanksActive - 1
        banks := Function.update rank.banks b
          { bank with
            openRow := NO_ROW
            preAllowedAt := pre_at
            actAllowedAt := max bank.actAllowedAt (pre_at + p.tRP) } })

/-! ## `doDRAMAccess` -/

variable (dram_pkt : p.Packet) (curTick : Nat)

/-- The row of the packet is opened. -/
def openRow : Except Err (DRAMCtrl p) :=
  if (s.bank dram_pkt.rank dram_pkt.bank).openRow = dram_pkt.row then .ok s
  else do
    let s ←
      if (s.bank dram_pkt.rank dram_pkt.bank).openRow ≠ NO_ROW then
        s.prechargeBank dram_pkt.rank dram_pkt.bank (max (s.bank dram_pkt.rank dram_pkt.bank).preAllowedAt curTick)
      else .ok s
    s.activateBank dram_pkt.rank dram_pkt.bank
      (max (s.bank dram_pkt.rank dram_pkt.bank).actAllowedAt curTick) dram_pkt.row

/-- `dly_to_rd_cmd`, `dly_to_wr_cmd` -/
def dlyTo (dram_pkt : p.Packet) (j : Fin p.ranksPerChannel) (i : Fin p.banksPerRank) : Nat × Nat :=
  if dram_pkt.rank = j then
    if p.bankGroupArch ∧ p.bankgr dram_pkt.bank = p.bankgr i then
      if dram_pkt.isRead then (p.tCCD_L, max p.tCCD_L p.rdToWrDly) else (max p.tCCD_L p.wrToRdDly, p.tCCD_L_WR)
    else if dram_pkt.isRead then (p.tBURST, p.rdToWrDly)
    else (p.wrToRdDly, p.tBURST)
  else (p.rankToRankDly, p.rankToRankDly)

def cmdAt : Nat :=
  let bank := s.bank dram_pkt.rank dram_pkt.bank
  max (max (if dram_pkt.isRead then bank.rdAllowedAt else bank.wrAllowedAt) s.nextBurstAt) curTick

/-- The column command, at `cmd_at`. -/
def burst (cmd_at : Nat) : DRAMCtrl p :=
  let ranks : Fin p.ranksPerChannel → Rank p := fun j =>
    { s.ranks j with
      banks := fun i =>
        let bank := (s.ranks j).banks i
        { bank with
          rdAllowedAt := max (cmd_at + (dlyTo dram_pkt j i).1) bank.rdAllowedAt
          wrAllowedAt := max (cmd_at + (dlyTo dram_pkt j i).2) bank.wrAllowedAt } }
  let rank := ranks dram_pkt.rank
  let bank := rank.banks dram_pkt.bank
  let readyTime := cmd_at + p.tCL + p.tBURST
  let bank := { bank with
    preAllowedAt := max bank.preAllowedAt (if dram_pkt.isRead then cmd_at + p.tRTP else readyTime + p.tWR)
    rowAccesses := (bank.rowAccesses + 1) % 2 ^ 32 }
  { s.push dram_pkt.rank dram_pkt.bank (if dram_pkt.isRead then .RD else .WR) cmd_at with
    ranks := Function.update ranks dram_pkt.rank { rank with banks := Function.update rank.banks dram_pkt.bank bank }
    nextBurstAt := cmd_at + p.tBURST }

/-- The packets of the queue of one priority: `(got_more_hits, got_bank_conflict)`. -/
def scan (dram_pkt : p.Packet) : Bool × Bool → List p.Packet → Bool × Bool
  | got, [] => got
  | (got_more_hits, got_bank_conflict), q :: queue =>
    if got_more_hits then (got_more_hits, got_bank_conflict)
    else if dram_pkt.id = q.id then scan dram_pkt (got_more_hits, got_bank_conflict) queue
    else
      let same_rank_bank := decide (dram_pkt.rank = q.rank) && decide (dram_pkt.bank = q.bank)
      let same_row := decide (dram_pkt.row = q.row)
      scan dram_pkt (same_rank_bank && same_row, got_bank_conflict || (same_rank_bank && !same_row)) queue

/-- The queues, by priority. -/
def scanAll (dram_pkt : p.Packet) : Bool × Bool → List (List p.Packet) → Bool × Bool
  | got, [] => got
  | got, queue :: queues =>
    let got := scan dram_pkt got queue
    if got.1 then got else scanAll dram_pkt got queues

def autoPrecharge (readQueue writeQueue : List (List p.Packet)) : Bool :=
  if p.pageMgmt = .close ∨ (s.bank dram_pkt.rank dram_pkt.bank).rowAccesses = p.maxAccessesPerRow then true
  else if p.pageMgmt = .open_adaptive ∨ p.pageMgmt = .close_adaptive then
    let got := scanAll dram_pkt (false, false) (if dram_pkt.isRead then readQueue else writeQueue)
    !got.1 && (got.2 || decide (p.pageMgmt = .close_adaptive))
  else false

/-- The state afterwards, and the `readyTime` of the packet. -/
def doDRAMAccess (readQueue writeQueue : List (List p.Packet)) : Except Err (DRAMCtrl p × Nat) := do
  let s ← s.openRow dram_pkt curTick
  let cmd_at := s.cmdAt dram_pkt curTick
  let s := s.burst dram_pkt cmd_at
  let s ←
    if s.autoPrecharge dram_pkt readQueue writeQueue then
      s.prechargeBank dram_pkt.rank dram_pkt.bank (max curTick (s.bank dram_pkt.rank dram_pkt.bank).preAllowedAt)
    else .ok s
  return (s, cmd_at + p.tCL + p.tBURST)

end DRAMCtrl

/-! ## Runs -/

/-- One call of `doDRAMAccess`; the queues have any packets. -/
structure Access (p : Params) where
  curTick : Nat
  dram_pkt : p.Packet
  readQueue : List (List p.Packet)
  writeQueue : List (List p.Packet)

/-- The controller, and the tick of the last call. -/
structure Run (p : Params) where
  ctrl : DRAMCtrl p
  now : Nat

namespace Run

variable {p : Params}

/-- The ticks do not decrease, and are not 0; `decodeAddr` does not give the row `NO_ROW`. -/
def Ok (s : Run p) (a : Access p) : Prop := 0 < a.curTick ∧ s.now ≤ a.curTick ∧ a.dram_pkt.row ≠ NO_ROW

instance (s : Run p) (a : Access p) : Decidable (s.Ok a) := inferInstanceAs (Decidable (_ ∧ _ ∧ _))

def access (s : Run p) (a : Access p) : Except Err (Run p) := do
  let (ctrl, _) ← s.ctrl.doDRAMAccess a.dram_pkt a.curTick a.readQueue a.writeQueue
  return ⟨ctrl, a.curTick⟩

/-- `startup` sets `nextBurstAt`. -/
def system (p : Params) : System (Run p) (Access p) where
  init s := ∃ nextBurstAt, s = ⟨⟨fun _ => ⟨fun _ => .init, 0, List.replicate p.activationLimit 0⟩, nextBurstAt, []⟩, 0⟩
  step s a := if s.Ok a then (s.access a).toOption else none

end Run

end Salam.Dram
