import Mathlib.Algebra.BigOperators.Group.List.Basic
import Salam.Engine.Instruction
import Salam.Lib.System

/-!
# The FIFOs of a DMA device

`DmaReadFifo` fills its buffer from a block of memory, `DmaWriteFifo` empties its buffer to one. Both send requests of
at most `maxReqSize` bytes through their port (`dmaAction`), as many at a time as they have free request objects, and
retire the finished ones in the order in which they were sent. The requests are issued by a loop that `tryGet`,
`tryFill`, `startFill`, `startEmpty` and `dmaDone` all run; what the loop does is said once (`WriteFifo.Issued`,
`ReadFifo.Issued`).

Here the system is in timing mode and not draining. `stopEmpty`, which nothing calls, is left out, so no request of a
`DmaWriteFifo` is canceled. Sizes are natural numbers: none comes near `2 ^ 63`, where the signed test of
`resumeEmptyTiming` would differ.
-/

namespace Salam.Dma

abbrev Byte := BitVec 8

/-- The parameters; `max_pending` is the number of request objects. -/
structure FifoConfig where
  maxReqSize : Nat
  fifoSize : Nat
  max_pending : Nat
  deriving DecidableEq

/-- A `DmaDoneEvent` in use, with the address of its request. -/
structure Req where
  addr : Word
  size : Nat
  data : List Byte
  done : Bool
  canceled : Bool
  deriving DecidableEq

/-- The bytes of the requests. -/
def total (rs : List Req) : Nat := (rs.map (·.size)).sum

@[simp] theorem total_nil : total [] = 0 := rfl

@[simp] theorem total_cons (r : Req) (rs : List Req) : total (r :: rs) = r.size + total rs := rfl

@[simp] theorem total_append (rs rs' : List Req) : total (rs ++ rs') = total rs + total rs' := by
  simp [total]

/-- The requests cover the bytes from the address on, one after the other. -/
def Contiguous : Word → List Req → Prop
  | _, [] => True
  | a, r :: rs => r.addr = a ∧ Contiguous (a + BitVec.ofNat 64 r.size) rs

theorem contiguous_append : ∀ {rs rs' : List Req} {a : Word},
    Contiguous a (rs ++ rs') ↔ Contiguous a rs ∧ Contiguous (a + BitVec.ofNat 64 (total rs)) rs'
  | [], rs', a => by simp [Contiguous]
  | r :: rs, rs', a => by
    simp only [List.cons_append, Contiguous, contiguous_append, total_cons, and_assoc, BitVec.ofNat_add,
      BitVec.add_assoc]

section Pending

variable {rs : List Req} {i : Nat}

theorem total_modify {f : Req → Req} (hf : ∀ x, (f x).size = x.size) : total (rs.modify i f) = total rs := by
  induction rs generalizing i with
  | nil => cases i <;> rfl
  | cons x rs ih => cases i <;> simp [List.modify_succ_cons, hf, ih]

/-- A request of the changed list is an old one or the changed one. -/
theorem mem_modify {f : Req → Req} {y : Req} (h : y ∈ rs.modify i f) : y ∈ rs ∨ ∃ x, rs[i]? = some x ∧ y = f x := by
  obtain ⟨j, hj⟩ := List.getElem?_of_mem h
  by_cases hij : i = j
  · subst hij
    rw [List.getElem?_modify_eq] at hj
    obtain ⟨x, hx, rfl⟩ := Option.map_eq_some_iff.mp hj
    exact .inr ⟨x, hx, rfl⟩
  · rw [List.getElem?_modify_ne _ _ hij] at hj
    exact .inl (List.mem_of_getElem? hj)

theorem length_flatten_data (h : ∀ r ∈ rs, r.data.length = r.size) : ((rs.map (·.data)).flatten).length = total rs := by
  induction rs with
  | nil => rfl
  | cons r rs ih =>
    rw [List.map_cons, List.flatten_cons, List.length_append, h r (List.mem_cons_self ..),
      ih fun x hx => h x (List.mem_cons_of_mem _ hx), total_cons]

/-- The finished requests at the front, and the rest. -/
theorem finished_split (rs : List Req) : ∃ fin rest, rs.takeWhile (·.done) = fin ∧ rs.dropWhile (·.done) = rest ∧
    fin ++ rest = rs ∧ ∀ r ∈ fin, r.done = true :=
  ⟨_, _, rfl, rfl, List.takeWhile_append_dropWhile, List.all_eq_true.mp List.all_takeWhile⟩

end Pending

theorem toNat_sub_pos {next last : Word} (h : next ≠ last) : 0 < (last - next).toNat := by
  rw [Nat.pos_iff_ne_zero]
  intro h₀
  have h₁ : last - next = 0 := BitVec.eq_of_toNat_eq h₀
  exact h (sub_eq_zero.mp h₁).symm

/-- What is left of a block after `k` more bytes. -/
theorem toNat_sub_add {next last : Word} {k : Nat} (h : k ≤ (last - next).toNat) :
    (last - (next + BitVec.ofNat 64 k)).toNat = (last - next).toNat - k := by
  rw [← BitVec.sub_sub, BitVec.toNat_sub_of_le]
  · rw [BitVec.toNat_ofNat, Nat.mod_eq_of_lt (by omega)]
  · rw [BitVec.le_def, BitVec.toNat_ofNat, Nat.mod_eq_of_lt (by omega)]
    exact h

/-! ## `DmaWriteFifo` -/

/-- What the FIFO is told and asks for: a new block, or a write of memory. -/
inductive Action
  | block (start size : Word)
  | write (addr : Word) (data : List Byte)
  deriving DecidableEq

/-- `log` is not in the source, and no function reads it. -/
structure WriteFifo where
  buffer : List Byte
  nextAddr : Word
  endAddr : Word
  pendingRequests : List Req
  freeRequests : Nat
  log : List Action
  deriving DecidableEq

namespace WriteFifo

def start (cfg : FifoConfig) : WriteFifo where
  buffer := []
  nextAddr := 0
  endAddr := 0
  pendingRequests := []
  freeRequests := cfg.max_pending
  log := []

def atEndOfBlock (f : WriteFifo) : Bool := f.nextAddr = f.endAddr

def isActive (f : WriteFifo) : Bool := !(f.pendingRequests.isEmpty && f.atEndOfBlock)

/-- The bytes of the block that have not been asked for. -/
def left (f : WriteFifo) : Nat := (f.endAddr - f.nextAddr).toNat

/-- The body of the loop of `resumeEmptyTiming`: a request of `req_size` bytes leaves. -/
def send (f : WriteFifo) (req_size : Nat) : WriteFifo :=
  { f with
    buffer := f.buffer.drop req_size
    nextAddr := f.nextAddr + BitVec.ofNat 64 req_size
    pendingRequests := f.pendingRequests ++ [⟨f.nextAddr, req_size, f.buffer.take req_size, false, false⟩]
    freeRequests := f.freeRequests - 1
    log := f.log ++ [.write f.nextAddr (f.buffer.take req_size)] }

/-- The loop of `resumeEmptyTiming`, once for each free request object. -/
def emptyLoop (cfg : FifoConfig) : Nat → Nat → WriteFifo → WriteFifo
  | 0, _, f => f
  | free + 1, size_pending, f =>
    if f.atEndOfBlock then f
    else
      let req_size := min cfg.maxReqSize f.left
      if (f.buffer.length : Int) - size_pending - req_size < 0 then f
      else emptyLoop cfg free (size_pending + req_size) (f.send req_size)

def resumeEmptyTiming (cfg : FifoConfig) (f : WriteFifo) : WriteFifo :=
  f.emptyLoop cfg f.freeRequests (total f.pendingRequests)

/-- `resumeEmpty`; the callback `onEndOfBlock` does nothing. -/
def resumeEmpty (cfg : FifoConfig) (f : WriteFifo) : WriteFifo := f.resumeEmptyTiming cfg

def canFill (cfg : FifoConfig) (f : WriteFifo) (len : Nat) : Bool := f.buffer.length + len ≤ cfg.fifoSize

def tryFill (cfg : FifoConfig) (f : WriteFifo) (src : List Byte) : WriteFifo × Bool :=
  if f.buffer.length + src.length ≤ cfg.fifoSize then
    ({ f with buffer := f.buffer ++ src }.resumeEmpty cfg, true)
  else (f, false)

/-- `startEmpty`; nothing if its assertion fails. -/
def startEmpty (cfg : FifoConfig) (f : WriteFifo) (start size : Word) : Option WriteFifo :=
  if f.atEndOfBlock then
    some ({ f with
      nextAddr := start
      endAddr := start + size
      log := f.log ++ [Action.block start size] }.resumeEmpty cfg)
  else none

def handlePending (f : WriteFifo) : WriteFifo :=
  { f with
    pendingRequests := f.pendingRequests.dropWhile (·.done)
    freeRequests := f.freeRequests + (f.pendingRequests.takeWhile (·.done)).length }

def dmaDone (cfg : FifoConfig) (f : WriteFifo) : WriteFifo := f.handlePending.resumeEmpty cfg

/-- `DmaDoneEvent::process` of the request at place `i` of `pendingRequests`. -/
def process (cfg : FifoConfig) (f : WriteFifo) (i : Nat) : WriteFifo :=
  { f with pendingRequests := f.pendingRequests.modify i fun r => { r with done := true } }.dmaDone cfg

/-- What the loop has done when it has sent `rs`. -/
structure Issued (cfg : FifoConfig) (f f' : WriteFifo) (rs : List Req) : Prop where
  buffer : f.buffer = (rs.map (·.data)).flatten ++ f'.buffer
  nextAddr : f'.nextAddr = f.nextAddr + BitVec.ofNat 64 (total rs)
  endAddr : f'.endAddr = f.endAddr
  pending : f'.pendingRequests = f.pendingRequests ++ rs
  log : f'.log = f.log ++ rs.map fun r => .write r.addr r.data
  contiguous : Contiguous f.nextAddr rs
  sound : ∀ r ∈ rs, r.done = false ∧ r.data.length = r.size ∧ r.size ≤ cfg.maxReqSize ∧
    (0 < cfg.maxReqSize → 0 < r.size)
  bounded : total rs ≤ f.left

variable {f : WriteFifo}

theorem left_pos (h : f.atEndOfBlock = false) : 0 < f.left := by
  simp only [atEndOfBlock, decide_eq_false_iff_not] at h
  exact toNat_sub_pos h

theorem left_eq_zero (h : f.atEndOfBlock = true) : f.left = 0 := by
  have heq : f.nextAddr = f.endAddr := of_decide_eq_true h
  rw [left, heq, sub_self]
  rfl

theorem isActive_eq_false : f.isActive = false ↔ f.pendingRequests = [] ∧ f.atEndOfBlock = true := by
  simp [isActive]

theorem Issued.nil (cfg : FifoConfig) (f : WriteFifo) : Issued cfg f f [] := by
  constructor <;> simp [Contiguous]

variable {cfg : FifoConfig}

theorem Issued.cons {f f' : WriteFifo} {rs : List Req} {n : Nat} (hn : n ≤ f.left) (hbuffer : n ≤ f.buffer.length)
    (hmax : n ≤ cfg.maxReqSize) (hpos : 0 < cfg.maxReqSize → 0 < n) (h : Issued cfg (f.send n) f' rs) :
    Issued cfg f f' (⟨f.nextAddr, n, f.buffer.take n, false, false⟩ :: rs) := by
  have hleft : (f.send n).left = f.left - n := toNat_sub_add hn
  refine ⟨?_, ?_, h.endAddr, ?_, ?_, ⟨rfl, h.contiguous⟩, ?_, ?_⟩
  · rw [List.map_cons, List.flatten_cons, List.append_assoc, ← h.buffer]
    exact (List.take_append_drop n f.buffer).symm
  · rw [h.nextAddr, total_cons, BitVec.ofNat_add, ← BitVec.add_assoc]
    rfl
  · rw [h.pending, send, List.append_assoc]
    rfl
  · rw [h.log, send, List.append_assoc]
    rfl
  · intro r hr
    rcases List.mem_cons.mp hr with rfl | hr
    · exact ⟨rfl, by simpa using hbuffer, hmax, hpos⟩
    · exact h.sound r hr
  · have := h.bounded
    show n + total rs ≤ f.left
    omega

theorem emptyLoop_issued (cfg : FifoConfig) : ∀ (free size_pending : Nat) (f : WriteFifo),
    ∃ rs, Issued cfg f (f.emptyLoop cfg free size_pending) rs := by
  intro free
  induction free with
  | zero => exact fun _ f => ⟨[], .nil cfg f⟩
  | succ free ih =>
    intro size_pending f
    rw [emptyLoop]
    cases hend : f.atEndOfBlock with
    | true => exact ⟨[], .nil cfg f⟩
    | false =>
      have hleft := left_pos hend
      rw [if_neg (by simp)]
      dsimp only
      split
      · exact ⟨[], .nil cfg f⟩
      · rename_i hfits
        obtain ⟨rs, hrs⟩ := ih (size_pending + min cfg.maxReqSize f.left) (f.send (min cfg.maxReqSize f.left))
        exact ⟨_, hrs.cons (by omega) (by omega) (by omega) (by omega)⟩

theorem resumeEmpty_of_end (h : f.atEndOfBlock = true) : f.resumeEmpty cfg = f := by
  unfold resumeEmpty resumeEmptyTiming
  cases f.freeRequests with
  | zero => rfl
  | succ free => rw [emptyLoop, if_pos h]

theorem resumeEmpty_issued (cfg : FifoConfig) (f : WriteFifo) : ∃ rs, Issued cfg f (f.resumeEmpty cfg) rs :=
  emptyLoop_issued cfg _ _ f

theorem Issued.left {f f' : WriteFifo} {rs : List Req} (h : Issued cfg f f' rs) : f'.left = f.left - total rs := by
  rw [WriteFifo.left, h.endAddr, h.nextAddr]
  exact toNat_sub_add h.bounded

end WriteFifo

/-! ## `DmaReadFifo` -/

structure ReadFifo where
  buffer : List Byte
  nextAddr : Word
  endAddr : Word
  pendingRequests : List Req
  freeRequests : Nat
  deriving DecidableEq

namespace ReadFifo

def start (cfg : FifoConfig) : ReadFifo where
  buffer := []
  nextAddr := 0
  endAddr := 0
  pendingRequests := []
  freeRequests := cfg.max_pending

def atEndOfBlock (f : ReadFifo) : Bool := f.nextAddr = f.endAddr

def isActive (f : ReadFifo) : Bool := !(f.pendingRequests.isEmpty && f.atEndOfBlock)

/-- The bytes of the block that have not been asked for. -/
def left (f : ReadFifo) : Nat := (f.endAddr - f.nextAddr).toNat

/-- The body of the loop of `resumeFillTiming`: a request of `req_size` bytes leaves. -/
def send (f : ReadFifo) (req_size : Nat) : ReadFifo :=
  { f with
    nextAddr := f.nextAddr + BitVec.ofNat 64 req_size
    pendingRequests := f.pendingRequests ++ [⟨f.nextAddr, req_size, [], false, false⟩]
    freeRequests := f.freeRequests - 1 }

/-- The loop of `resumeFillTiming`, once for each free request object. -/
def fillLoop (cfg : FifoConfig) : Nat → Nat → ReadFifo → ReadFifo
  | 0, _, f => f
  | free + 1, size_pending, f =>
    if f.atEndOfBlock then f
    else
      let req_size := min cfg.maxReqSize f.left
      if f.buffer.length + size_pending + req_size > cfg.fifoSize then f
      else fillLoop cfg free (size_pending + req_size) (f.send req_size)

def resumeFillTiming (cfg : FifoConfig) (f : ReadFifo) : ReadFifo :=
  f.fillLoop cfg f.freeRequests (total f.pendingRequests)

/-- `resumeFill`; the callback `onEndOfBlock` does nothing. -/
def resumeFill (cfg : FifoConfig) (f : ReadFifo) : ReadFifo := f.resumeFillTiming cfg

/-- `tryGet`, with the bytes it copies to `dst`. -/
def tryGet (cfg : FifoConfig) (f : ReadFifo) (len : Nat) : Option (ReadFifo × List Byte) :=
  if len ≤ f.buffer.length then
    some ({ f with buffer := f.buffer.drop len }.resumeFill cfg, f.buffer.take len)
  else none

/-- `startFill`; nothing if its assertion fails. -/
def startFill (cfg : FifoConfig) (f : ReadFifo) (start size : Word) : Option ReadFifo :=
  if f.atEndOfBlock then some ({ f with nextAddr := start, endAddr := start + size }.resumeFill cfg) else none

/-- `stopFill`: nothing more is asked for, and what the pending requests read is dropped. -/
def stopFill (f : ReadFifo) : ReadFifo :=
  { f with
    nextAddr := f.endAddr
    pendingRequests := f.pendingRequests.map fun r => { r with canceled := true } }

/-- What finished requests write to the buffer: nothing if they have been canceled. -/
def arrived (rs : List Req) : List Byte := ((rs.filter fun r => !r.canceled).map (·.data)).flatten

variable {rs : List Req}

theorem arrived_of_kept (h : ∀ r ∈ rs, r.canceled = false) : arrived rs = (rs.map (·.data)).flatten := by
  rw [arrived, List.filter_eq_self.mpr fun r hr => by rw [h r hr]; rfl]

def handlePending (f : ReadFifo) : ReadFifo :=
  { f with
    buffer := f.buffer ++ arrived (f.pendingRequests.takeWhile (·.done))
    pendingRequests := f.pendingRequests.dropWhile (·.done)
    freeRequests := f.freeRequests + (f.pendingRequests.takeWhile (·.done)).length }

def dmaDone (cfg : FifoConfig) (f : ReadFifo) : ReadFifo := f.handlePending.resumeFill cfg

/-- `DmaDoneEvent::process` of the request at place `i` of `pendingRequests`, which has read `data`. -/
def process (cfg : FifoConfig) (f : ReadFifo) (i : Nat) (data : List Byte) : ReadFifo :=
  { f with pendingRequests := f.pendingRequests.modify i fun r => { r with data := data, done := true } }.dmaDone cfg

/-- What the loop has done when it has sent `rs`. -/
structure Issued (cfg : FifoConfig) (f f' : ReadFifo) (rs : List Req) : Prop where
  buffer : f'.buffer = f.buffer
  nextAddr : f'.nextAddr = f.nextAddr + BitVec.ofNat 64 (total rs)
  endAddr : f'.endAddr = f.endAddr
  pending : f'.pendingRequests = f.pendingRequests ++ rs
  free : f'.freeRequests + rs.length = f.freeRequests
  contiguous : Contiguous f.nextAddr rs
  sound : ∀ r ∈ rs, r.done = false ∧ r.canceled = false ∧ (0 < cfg.maxReqSize → 0 < r.size)
  bounded : total rs ≤ f.left

theorem left_pos {f : ReadFifo} (h : f.atEndOfBlock = false) : 0 < f.left := by
  simp only [atEndOfBlock, decide_eq_false_iff_not] at h
  exact toNat_sub_pos h

theorem left_eq_zero {f : ReadFifo} (h : f.atEndOfBlock = true) : f.left = 0 := by
  have heq : f.nextAddr = f.endAddr := of_decide_eq_true h
  rw [left, heq, sub_self]
  rfl

theorem isActive_eq_false {f : ReadFifo} : f.isActive = false ↔ f.pendingRequests = [] ∧ f.atEndOfBlock = true := by
  simp [isActive]

theorem Issued.nil (cfg : FifoConfig) (f : ReadFifo) : Issued cfg f f [] := by
  constructor <;> simp [Contiguous]

variable {cfg : FifoConfig}

theorem Issued.cons {f f' : ReadFifo} {n : Nat} (hfree : 0 < f.freeRequests) (hn : n ≤ f.left)
    (hpos : 0 < cfg.maxReqSize → 0 < n) (h : Issued cfg (f.send n) f' rs) :
    Issued cfg f f' (⟨f.nextAddr, n, [], false, false⟩ :: rs) := by
  have hleft : (f.send n).left = f.left - n := toNat_sub_add hn
  refine ⟨h.buffer, ?_, h.endAddr, ?_, ?_, ⟨rfl, h.contiguous⟩, ?_, ?_⟩
  · rw [h.nextAddr, total_cons, BitVec.ofNat_add, ← BitVec.add_assoc]
    rfl
  · rw [h.pending, send, List.append_assoc]
    rfl
  · have hsent : f'.freeRequests + rs.length = f.freeRequests - 1 := h.free
    rw [List.length_cons]
    omega
  · intro r hr
    rcases List.mem_cons.mp hr with rfl | hr
    · exact ⟨rfl, rfl, hpos⟩
    · exact h.sound r hr
  · have := h.bounded
    show n + total rs ≤ f.left
    omega

/-- The loop sends requests, and does not ask for more than the buffer can hold. -/
theorem fillLoop_issued (cfg : FifoConfig) : ∀ (free size_pending : Nat) (f : ReadFifo), f.freeRequests = free →
    ∃ rs, Issued cfg f (f.fillLoop cfg free size_pending) rs ∧
      (f.buffer.length + size_pending ≤ cfg.fifoSize → f.buffer.length + size_pending + total rs ≤ cfg.fifoSize) := by
  intro free
  induction free with
  | zero => exact fun _ f _ => ⟨[], .nil cfg f, id⟩
  | succ free ih =>
    intro size_pending f hfree
    rw [fillLoop]
    cases hend : f.atEndOfBlock with
    | true => exact ⟨[], .nil cfg f, id⟩
    | false =>
      have hleft := left_pos hend
      rw [if_neg (by simp)]
      dsimp only
      split
      · exact ⟨[], .nil cfg f, id⟩
      · rename_i hfits
        obtain ⟨rs, hrs, hroom⟩ := ih (size_pending + min cfg.maxReqSize f.left) (f.send (min cfg.maxReqSize f.left))
          (by simp only [send, hfree, Nat.add_sub_cancel])
        refine ⟨_, hrs.cons (by omega) (by omega) (by omega), fun _ => ?_⟩
        have := hroom (by show f.buffer.length + _ ≤ _; omega)
        simp only [send] at this
        show f.buffer.length + size_pending + (min cfg.maxReqSize f.left + total rs) ≤ cfg.fifoSize
        omega

theorem resumeFill_of_end {f : ReadFifo} (h : f.atEndOfBlock = true) : f.resumeFill cfg = f := by
  unfold resumeFill resumeFillTiming
  cases f.freeRequests with
  | zero => rfl
  | succ free => rw [fillLoop, if_pos h]

theorem resumeFill_issued (cfg : FifoConfig) (f : ReadFifo) : ∃ rs, Issued cfg f (f.resumeFill cfg) rs ∧
    (f.buffer.length + total f.pendingRequests ≤ cfg.fifoSize →
      f.buffer.length + total f.pendingRequests + total rs ≤ cfg.fifoSize) :=
  fillLoop_issued cfg _ _ f rfl

theorem Issued.left {f f' : ReadFifo} (h : Issued cfg f f' rs) : f'.left = f.left - total rs := by
  rw [ReadFifo.left, h.endAddr, h.nextAddr]
  exact toNat_sub_add h.bounded

end ReadFifo

end Salam.Dma
