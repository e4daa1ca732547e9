import Salam.Lib.RingStack
import Salam.Lib.System

/-!
# The branch prediction unit

`BPredUnit::predict`, the two `squash` functions and `update`, for one thread, with the return address stack. What the
direction predictor, the BTB and the indirect predictor answer is the event's (`Outcome`). A record of the history says
how the prediction used the return address stack, so that a squash can undo it.
-/

namespace Salam.Pred

namespace BPred

/-- An `assert` that fails. -/
inductive Err
  | assertion
  deriving DecidableEq

end BPred

open BPred (Err)

/-- The kind of a branch. -/
structure StaticInst where
  isUncondCtrl : Bool
  isCall : Bool
  isReturn : Bool
  isDirectCtrl : Bool
  deriving DecidableEq

/-- The number of entries of the return address stack, whether there is an indirect predictor, and what the ISA does
with its program counters (`TheISA::PCState`). -/
structure Params (PC : Type) where
  numEntries : Nat
  iPred : Bool
  /-- `PCState(0)` -/
  zero : PC
  instAddr : PC → Nat
  buildRetPC : PC → PC → PC
  advancePC : PC → StaticInst → PC

variable {PC : Type}

/-! ## The return address stack -/

structure ReturnAddrStack (p : Params PC) where
  addrStack : Nat → PC
  usedEntries : Nat
  tos : Nat

namespace ReturnAddrStack

variable {p : Params PC} (s : ReturnAddrStack p)

def reset : ReturnAddrStack p := ⟨fun _ => p.zero, 0, 0⟩

def top : PC := s.addrStack s.tos

def topIdx : Nat := s.tos

def push (return_addr : PC) : ReturnAddrStack p :=
  let tos := RingStack.incr p.numEntries s.tos
  { addrStack := Function.update s.addrStack tos return_addr
    usedEntries := if s.usedEntries ≠ p.numEntries then s.usedEntries + 1 else s.usedEntries
    tos := tos }

def pop : ReturnAddrStack p :=
  { s with
    usedEntries := if 0 < s.usedEntries then s.usedEntries - 1 else s.usedEntries
    tos := RingStack.decr p.numEntries s.tos }

def restore (top_entry_idx : Nat) (restored : PC) : ReturnAddrStack p :=
  { s with tos := top_entry_idx, addrStack := Function.update s.addrStack top_entry_idx restored }

/-- The newest `d` entries. -/
def live (d : Nat) : List PC := RingStack.live p.numEntries s.tos s.addrStack d

end ReturnAddrStack

/-! ## The history -/

/-- `PredictorHistory`, without what belongs to the direction predictor and the indirect predictor. -/
structure PredictorHistory (PC : Type) where
  seqNum : Nat
  pc : Nat
  RASTarget : PC
  RASIndex : Nat
  predTaken : Bool
  usedRAS : Bool
  pushedRAS : Bool
  wasCall : Bool
  wasReturn : Bool
  wasIndirect : Bool
  target : Nat

/-- The history, newest first, and the return address stack. -/
structure BPredUnit (p : Params PC) where
  predHist : List (PredictorHistory PC)
  RAS : ReturnAddrStack p

/-- What the direction predictor says of a conditional branch, and the target that the BTB or the indirect predictor
has. -/
structure Outcome (PC : Type) where
  lookup : Bool
  hit : Option PC

namespace BPredUnit

variable {p : Params PC} (u : BPredUnit p)

/-- A branch is predicted taken, before the BTB and the indirect predictor are asked. -/
def predTaken (inst : StaticInst) (o : Outcome PC) : Bool := inst.isUncondCtrl || o.lookup

def MaxAddr : Nat := 0xffffffffffffffff

/-- The record as its constructor leaves it. -/
def newRecord (seqNum : Nat) (pc : PC) (pred_taken : Bool) : PredictorHistory PC :=
  { seqNum, pc := p.instAddr pc, RASTarget := p.zero, RASIndex := 0, predTaken := pred_taken, usedRAS := false,
    pushedRAS := false, wasCall := false, wasReturn := false, wasIndirect := false, target := MaxAddr }

/-- `BPredUnit::predict`: whether the branch is predicted taken, and where to. -/
def predict (inst : StaticInst) (seqNum : Nat) (pc : PC) (o : Outcome PC) : (Bool × PC) × BPredUnit p :=
  let record := newRecord (p := p) seqNum pc (predTaken inst o)
  if predTaken inst o then
    if inst.isReturn then
      let rasTop := u.RAS.top
      let target := p.buildRetPC pc rasTop
      ((true, target),
        { RAS := u.RAS.pop
          predHist := { record with
            wasReturn := true, usedRAS := true, RASIndex := u.RAS.topIdx, RASTarget := rasTop
            target := p.instAddr target } :: u.predHist })
    else
      let (RAS, record) :=
        if inst.isCall then (u.RAS.push pc, { record with pushedRAS := true, wasCall := true }) else (u.RAS, record)
      let record := if inst.isDirectCtrl || !p.iPred then record else { record with wasIndirect := true }
      match o.hit with
      | some target =>
          ((true, target), { RAS := RAS, predHist := { record with target := p.instAddr target } :: u.predHist })
      | none =>
        let target := p.advancePC pc inst
        let (RAS, record) :=
          if inst.isCall && !inst.isUncondCtrl then (RAS.pop, { record with pushedRAS := false }) else (RAS, record)
        ((false, target), { RAS := RAS, predHist := { record with target := p.instAddr target } :: u.predHist })
  else
    let target := p.advancePC pc inst
    ((false, target),
      { u with predHist := { record with wasReturn := inst.isReturn, target := p.instAddr target } :: u.predHist })

/-- What the plain squash does to the return address stack for one record. -/
def undo (record : PredictorHistory PC) (RAS : ReturnAddrStack p) : ReturnAddrStack p :=
  if record.usedRAS then RAS.restore record.RASIndex record.RASTarget
  else if record.wasCall && record.pushedRAS then RAS.pop
  else RAS

/-- The loop of the plain squash. -/
def squashLoop (squashed_sn : Nat) : List (PredictorHistory PC) → ReturnAddrStack p → BPredUnit p
  | [], RAS => ⟨[], RAS⟩
  | record :: pred_hist, RAS =>
    if squashed_sn < record.seqNum then squashLoop squashed_sn pred_hist (undo record RAS)
      else ⟨record :: pred_hist, RAS⟩

/-- `BPredUnit::squash(squashed_sn, tid)` -/
def squash (squashed_sn : Nat) : BPredUnit p := squashLoop squashed_sn u.predHist u.RAS

/-- What is corrected for the mispredicted branch. -/
def correct (record : PredictorHistory PC) (RAS : ReturnAddrStack p) (actually_taken : Bool) :
    PredictorHistory PC × ReturnAddrStack p :=
  if actually_taken then
    if record.wasReturn && !record.usedRAS then ({ record with usedRAS := true }, RAS.pop) else (record, RAS)
  else if record.usedRAS then ({ record with usedRAS := false }, RAS.restore record.RASIndex record.RASTarget)
  else if record.wasCall && record.pushedRAS then ({ record with pushedRAS := false }, RAS.pop)
  else (record, RAS)

/-- `BPredUnit::squash(squashed_sn, corrTarget, actually_taken, tid)` -/
def squashMispredicted (squashed_sn : Nat) (corrTarget : PC) (actually_taken : Bool) : Except Err (BPredUnit p) :=
  let u := u.squash squashed_sn
  match u.predHist with
  | [] => .ok u
  | record :: pred_hist =>
    if record.seqNum = squashed_sn then
      let (record, RAS) :=
        correct { record with predTaken := actually_taken, target := p.instAddr corrTarget } u.RAS actually_taken
      .ok ⟨record :: pred_hist, RAS⟩
    else .error .assertion

/-- `BPredUnit::update(done_sn, tid)` -/
def update (done_sn : Nat) : BPredUnit p :=
  { u with predHist := (u.predHist.reverse.dropWhile fun record => record.seqNum ≤ done_sn).reverse }

end BPredUnit

/-! ## Runs -/

inductive Event (PC : Type)
  | predict (inst : StaticInst) (seqNum : Nat) (pc : PC) (o : Outcome PC)
  | mispredict (squashed_sn : Nat) (corrTarget : PC) (actually_taken : Bool)
  | squash (squashed_sn : Nat)
  | update (done_sn : Nat)

variable {p : Params PC}

namespace BPredUnit

def apply (u : BPredUnit p) : Event PC → Option (BPredUnit p)
  | .predict inst seqNum pc o => some (u.predict inst seqNum pc o).2
  | .mispredict squashed_sn corrTarget actually_taken =>
      (u.squashMispredicted squashed_sn corrTarget actually_taken).toOption
  | .squash squashed_sn => some (u.squash squashed_sn)
  | .update done_sn => some (u.update done_sn)

/-- The runs of the predictor. -/
def system (p : Params PC) : System (BPredUnit p) (Event PC) where
  init u := u = ⟨[], ReturnAddrStack.reset⟩
  step := apply

end BPredUnit

/-! ## The logical stack -/

/-- What a branch does to the logical stack of return addresses: the direction that was predicted, and the stack before
and after the branch. -/
structure Branch (PC : Type) where
  seqNum : Nat
  isReturn : Bool
  predTaken : Bool
  before : List PC
  after : List PC

/-- The predictor from some state on, with the logical stack that a sequence of branches has made of `live`, the entries
that were on the stack at its start: those that are pushed and not popped. -/
structure Recovery (p : Params PC) where
  unit : BPredUnit p
  live : List PC
  branches : List (Branch PC)

namespace Recovery

variable (s : Recovery p)

/-- The logical stack after the youngest branch. -/
def lastStack (live : List PC) (branches : List (Branch PC)) : List PC := (branches.head?.map Branch.after).getD live

def stack : List PC := lastStack s.live s.branches

/-- The logical stack after a prediction: a return pops an entry, a call pushes one, if it is not conditional with no
target. -/
def afterPrediction (stack : List PC) (inst : StaticInst) (pc : PC) (o : Outcome PC) : List PC :=
  if BPredUnit.predTaken inst o then
    if inst.isReturn then stack.tail
    else if inst.isCall && (inst.isUncondCtrl || o.hit.isSome) then pc :: stack
    else stack
  else stack

/-- The logical stack after a correction: a branch that is not taken leaves it as it was, a return that is taken pops an
entry. -/
def afterCorrection (b : Branch PC) (actually_taken : Bool) : List PC :=
  if actually_taken then if b.isReturn then b.before.tail else b.after else b.before

/-- The branch that a squash corrects. -/
def mispredicted (squashed_sn : Nat) (branches : List (Branch PC)) : Option (Branch PC) :=
  (branches.dropWhile fun b => squashed_sn < b.seqNum).head?

/-- The branches that a mispredicted one leaves, with it corrected. -/
def corrected (squashed_sn : Nat) (actually_taken : Bool) (branches : List (Branch PC)) : List (Branch PC) :=
  match branches.dropWhile fun b => squashed_sn < b.seqNum with
  | [] => []
  | b :: branches => { b with after := afterCorrection b actually_taken } :: branches

/-- The depth of the logical stack stays between zero and the number of entries. -/
def DepthOk : Event PC → Bool
  | .predict inst _ _ o =>
    !BPredUnit.predTaken inst o ||
      if inst.isReturn then !s.stack.isEmpty else !inst.isCall || decide (s.stack.length + 1 ≤ p.numEntries)
  | .mispredict squashed_sn _ actually_taken =>
    !actually_taken || (mispredicted squashed_sn s.branches).all fun b => !b.isReturn || !b.before.isEmpty
  | _ => true

/-- One step of a sequence of branches after `n`. -/
def step (n : Nat) (e : Event PC) : Option (Recovery p) :=
  match e with
  | .predict inst seqNum pc o =>
    if n < seqNum ∧ s.DepthOk e then
      some { s with
        unit := (s.unit.predict inst seqNum pc o).2
        branches := ⟨seqNum, inst.isReturn, BPredUnit.predTaken inst o, s.stack, afterPrediction s.stack inst pc o⟩ ::
          s.branches }
    else none
  | .mispredict squashed_sn corrTarget actually_taken =>
    if n < squashed_sn ∧ s.DepthOk e then
      (s.unit.squashMispredicted squashed_sn corrTarget actually_taken).toOption.map fun unit =>
        { s with unit := unit, branches := corrected squashed_sn actually_taken s.branches }
    else none
  | _ => none

/-- The sequences of predictions and corrections of branches after `n`. -/
def system (p : Params PC) (n : Nat) : System (Recovery p) (Event PC) where
  init _ := True
  step s e := s.step n e

/-- The start of a sequence, with `d` entries on the stack. -/
def start (u : BPredUnit p) (d : Nat) : Recovery p := ⟨u, u.RAS.live d, []⟩

/-- The step does not find a return to be taken that was predicted not to be. -/
def Saved : Recovery p → Event PC → Prop
  | s, .mispredict squashed_sn _ true => ∀ b ∈ mispredicted squashed_sn s.branches, b.isReturn = true →
      b.predTaken = true
  | _, _ => True

end Recovery

end Salam.Pred
