import Mathlib.Algebra.Order.BigOperators.Group.List
import Mathlib.Algebra.Order.Group.Nat
import Salam.Dma.Stream

/-!
# The functional path of `DmaWriteFifo`

In a system that bypasses the caches, `resumeEmpty` takes `resumeEmptyFunctional`, which has the text of
`DmaReadFifo::resumeFillFunctional`: it reads the block from memory into the FIFO. Nothing is ever written to memory.

`timed` is the FIFO in timing mode with the calls so far written down, `Bypass.run` makes these calls in the other mode.

* `functional_agrees_iff`: the two agree exactly as long as no byte was to be moved.
-/

namespace Salam.Dma

/-- The calls. -/
inductive Op
  | tryFill (src : List Byte)
  | startEmpty (start size : Word)
  deriving DecidableEq

/-- The call starts no block, or one without bytes. -/
def Op.movesNothing : Op → Prop
  | .tryFill _ => True
  | .startEmpty _ size => size = 0

/-- The bytes of the block that is started. -/
def Op.blockSize : Op → Nat
  | .tryFill _ => 0
  | .startEmpty _ size => size.toNat

theorem Op.movesNothing_iff (op : Op) : op.movesNothing ↔ op.blockSize = 0 := by
  cases op with
  | tryFill src => simp [movesNothing, blockSize]
  | startEmpty start size => exact ⟨fun h => congrArg BitVec.toNat h, fun h => BitVec.eq_of_toNat_eq h⟩

/-- The bytes that went into the FIFO, by the results of the calls. -/
def acceptedBytes : List Op → List Bool → List Byte
  | .tryFill src :: ops, true :: rs => src ++ acceptedBytes ops rs
  | _ :: ops, _ :: rs => acceptedBytes ops rs
  | _, _ => []

/-! ## The functional path -/

/-- `physProxy.readBlob`. -/
def readBlob (mem : Word → Byte) (addr : Word) (n : Nat) : List Byte :=
  (List.range n).map fun i => mem (addr + BitVec.ofNat 64 i)

/-- The FIFO without requests, the memory, and what the calls have returned (`startEmpty` counts as true). -/
structure Bypass where
  buffer : List Byte
  nextAddr : Word
  endAddr : Word
  mem : Word → Byte
  results : List Bool

namespace Bypass

def start (mem : Word → Byte) : Bypass := ⟨[], 0, 0, mem, []⟩

def atEndOfBlock (b : Bypass) : Bool := b.nextAddr = b.endAddr

/-- `resumeEmptyFunctional`; `line` is `cacheLineSize()`. -/
def resumeEmptyFunctional (cfg : FifoConfig) (line : Nat) (b : Bypass) : Bypass :=
  let fifo_space := cfg.fifoSize - b.buffer.length
  if fifo_space ≥ line ∨ cfg.fifoSize < line then
    let block_remaining := (b.endAddr - b.nextAddr).toNat
    let xfer_size := min fifo_space block_remaining
    { b with
      buffer := b.buffer ++ readBlob b.mem b.nextAddr xfer_size
      nextAddr := b.nextAddr + BitVec.ofNat 64 xfer_size }
  else b

def tryFill (cfg : FifoConfig) (line : Nat) (b : Bypass) (src : List Byte) : Bypass × Bool :=
  if b.buffer.length + src.length ≤ cfg.fifoSize then
    ({ b with buffer := b.buffer ++ src }.resumeEmptyFunctional cfg line, true)
  else (b, false)

/-- `startEmpty`; nothing if its assertion fails. -/
def startEmpty (cfg : FifoConfig) (line : Nat) (b : Bypass) (start size : Word) : Option Bypass :=
  if b.atEndOfBlock then some ({ b with nextAddr := start, endAddr := start + size }.resumeEmptyFunctional cfg line)
  else none

def record (b : Bypass) (success : Bool) : Bypass := { b with results := b.results ++ [success] }

def step (cfg : FifoConfig) (line : Nat) (b : Bypass) : Op → Option Bypass
  | .tryFill src => some ((b.tryFill cfg line src).1.record (b.tryFill cfg line src).2)
  | .startEmpty start size => (b.startEmpty cfg line start size).map fun b => b.record true

/-- The calls one after the other. -/
def run (cfg : FifoConfig) (line : Nat) : List Op → Bypass → Option Bypass
  | [], b => some b
  | op :: ops, b => (b.step cfg line op).bind (run cfg line ops)

section Functional

variable {cfg : FifoConfig} {line : Nat} {b b' : Bypass}

theorem run_append (ops ops' : List Op) : ∀ b : Bypass,
    run cfg line (ops ++ ops') b = (run cfg line ops b).bind (run cfg line ops') := by
  induction ops with
  | nil => exact fun _ => rfl
  | cons op ops ih =>
    intro b
    simp only [List.cons_append, run, Option.bind_assoc]
    congr 1
    exact funext ih

/-- At the end of the block nothing is read. -/
theorem resumeEmptyFunctional_of_end (h : b.atEndOfBlock = true) : b.resumeEmptyFunctional cfg line = b := by
  have hend : b.nextAddr = b.endAddr := of_decide_eq_true h
  unfold resumeEmptyFunctional
  dsimp only
  split
  · have hzero : (b.endAddr - b.nextAddr).toNat = 0 := by simp [hend]
    rw [hzero, Nat.min_zero]
    simp [readBlob]
  · rfl

/-- **The FIFO does not shrink and the memory does not change.** -/
theorem resumeEmptyFunctional_grows (cfg : FifoConfig) (line : Nat) (b : Bypass) :
    (b.resumeEmptyFunctional cfg line).mem = b.mem ∧ (b.resumeEmptyFunctional cfg line).results = b.results ∧
    b.buffer.length ≤ (b.resumeEmptyFunctional cfg line).buffer.length := by
  unfold resumeEmptyFunctional
  dsimp only
  split
  · exact ⟨rfl, rfl, by simp⟩
  · exact ⟨rfl, rfl, Nat.le_refl _⟩

theorem run_grows {ops : List Op} : ∀ {b b' : Bypass}, run cfg line ops b = some b' → b'.mem = b.mem ∧
    ∃ rs, b'.results = b.results ++ rs ∧ b.buffer.length + (acceptedBytes ops rs).length ≤ b'.buffer.length := by
  induction ops with
  | nil =>
    intro b b' h
    cases h
    exact ⟨rfl, [], by simp, by simp [acceptedBytes]⟩
  | cons op ops ih =>
    intro b b' h
    obtain ⟨b₁, h₁, h₂⟩ := Option.bind_eq_some_iff.mp h
    obtain ⟨hmem, rs, hrs, hlen⟩ := ih h₂
    cases op with
    | tryFill src =>
      cases h₁
      by_cases hfits : b.buffer.length + src.length ≤ cfg.fifoSize
      · obtain ⟨hm, hr, hl⟩ := resumeEmptyFunctional_grows cfg line { b with buffer := b.buffer ++ src }
        rw [tryFill, if_pos hfits] at hmem hrs hlen
        refine ⟨hmem.trans hm, true :: rs, ?_, ?_⟩
        · rw [hrs]
          simp only [record, hr, List.append_assoc, List.singleton_append]
        · simp only [List.length_append] at hl
          simp only [record] at hlen
          simp only [acceptedBytes, List.length_append]
          omega
      · rw [tryFill, if_neg hfits] at hmem hrs hlen
        refine ⟨hmem, false :: rs, ?_, ?_⟩
        · rw [hrs]
          simp [record]
        · exact hlen
    | startEmpty start size =>
      obtain ⟨b₂, hb₂, rfl⟩ := Option.map_eq_some_iff.mp h₁
      unfold startEmpty at hb₂
      split at hb₂
      · cases hb₂
        obtain ⟨hm, hr, hl⟩ := resumeEmptyFunctional_grows cfg line
          { b with nextAddr := start, endAddr := start + size }
        refine ⟨hmem.trans hm, true :: rs, ?_, ?_⟩
        · rw [hrs]
          simp only [record, hr, List.append_assoc, List.singleton_append]
        · simp only [record] at hlen
          dsimp only at hl
          simp only [acceptedBytes]
          omega
      · cases hb₂

end Functional

end Bypass

/-! ## The timing path -/

/-- The FIFO in timing mode, the calls so far and what they have returned. -/
structure Timed where
  stream : Stream
  ops : List Op
  results : List Bool

namespace Timed

/-- The call of the event, with its result. -/
def called (cfg : FifoConfig) (s : Stream) : StreamEv → Option (Op × Bool)
  | .tryFill src => some (.tryFill src, (s.fifo.tryFill cfg src).2)
  | .startEmpty start size => some (.startEmpty start size, true)
  | .process _ => none

def step (cfg : FifoConfig) (w : Timed) (e : StreamEv) : Option Timed :=
  (w.stream.step cfg e).map fun s => ⟨s, w.ops ++ ((called cfg w.stream e).map Prod.fst).toList,
    w.results ++ ((called cfg w.stream e).map Prod.snd).toList⟩

end Timed

/-- The runs in timing mode: the calls, and the completions of the requests in any order. -/
def timed (cfg : FifoConfig) : System Timed StreamEv where
  init w := w = ⟨.start cfg, [], []⟩
  step := Timed.step cfg

/-- The memory after the writes. -/
def writesTo (log : List Action) (mem : Word → Byte) : Word → Byte :=
  log.foldl (fun mem a => match a with
    | .block _ _ => mem
    | .write addr data => fun x => (data[(x - addr).toNat]?).getD (mem x)) mem

/-- The functional path makes the same calls with the same results, and leaves the same bytes in the FIFO and in the
blocks of memory. -/
def Agree (cfg : FifoConfig) (line : Nat) (mem : Word → Byte) (w : Timed) : Prop :=
  ∃ b, Bypass.run cfg line w.ops (.start mem) = some b ∧ b.results = w.results ∧ b.buffer = w.stream.fifo.buffer ∧
    ∀ start size, .startEmpty start size ∈ w.ops → ∀ i < size.toNat,
      b.mem (start + BitVec.ofNat 64 i) = writesTo w.stream.fifo.log mem (start + BitVec.ofNat 64 i)

theorem acceptedBytes_append {ops : List Op} : ∀ {rs : List Bool} (op : Op) (r : Bool), ops.length = rs.length →
    acceptedBytes (ops ++ [op]) (rs ++ [r]) = acceptedBytes ops rs ++ acceptedBytes [op] [r] := by
  induction ops with
  | nil =>
    intro rs op r h
    obtain rfl := List.length_eq_zero_iff.mp h.symm
    rfl
  | cons o ops ih =>
    intro rs op r h
    cases rs with
    | nil => cases h
    | cons x rs =>
      have ih := ih op r (Nat.succ.inj h)
      cases o with
      | startEmpty start size => exact ih
      | tryFill src =>
        cases x with
        | false => exact ih
        | true =>
          show src ++ acceptedBytes (ops ++ [op]) (rs ++ [r]) = src ++ acceptedBytes ops rs ++ acceptedBytes [op] [r]
          rw [ih, List.append_assoc]

namespace Timed

/-- What the calls say about the FIFO. -/
structure Recorded (w : Timed) : Prop where
  results : w.ops.length = w.results.length
  filled : w.stream.filled = acceptedBytes w.ops w.results
  blocks : (w.ops.map Op.blockSize).sum = (written w.stream.fifo.log).length + w.stream.fifo.left

variable {cfg : FifoConfig} {w w' : Timed}

/-- What the loop sends is taken from the block. -/
theorem written_add_left {f : WriteFifo} : (written (f.resumeEmpty cfg).log).length + (f.resumeEmpty cfg).left =
    (written f.log).length + f.left := by
  obtain ⟨rs, hrs⟩ := WriteFifo.resumeEmpty_issued cfg f
  have hlen := length_flatten_data fun r hr => (hrs.sound r hr).2.1
  have hle := hrs.bounded
  rw [hrs.log, hrs.left, written_append, Stream.written_map_write, List.length_append, hlen]
  omega

theorem Recorded.step {e : StreamEv} (h : w.Recorded) (hw : w.step cfg e = some w') : w'.Recorded := by
  obtain ⟨s, hs, rfl⟩ := Option.map_eq_some_iff.mp hw
  cases e with
  | tryFill src =>
    by_cases hroom : w.stream.fifo.buffer.length + src.length ≤ cfg.fifoSize
    · have htry : (w.stream.fifo.tryFill cfg src).2 = true := by rw [WriteFifo.tryFill, if_pos hroom]
      simp only [Stream.step, WriteFifo.tryFill, if_pos hroom, if_true] at hs
      cases hs
      refine ⟨by simp [called, h.results], ?_, ?_⟩
      · simp [called, htry, acceptedBytes_append _ _ h.results, h.filled, acceptedBytes]
      · simp only [called, written_add_left]
        simpa [Op.blockSize, WriteFifo.left] using h.blocks
    · have htry : (w.stream.fifo.tryFill cfg src).2 = false := by rw [WriteFifo.tryFill, if_neg hroom]
      simp only [Stream.step, WriteFifo.tryFill, if_neg hroom, Bool.false_eq_true, if_false] at hs
      cases hs
      refine ⟨by simp [called, h.results], ?_, ?_⟩
      · simp [called, htry, acceptedBytes_append _ _ h.results, h.filled, acceptedBytes]
      · simpa [called, Op.blockSize] using h.blocks
  | startEmpty start size =>
    obtain ⟨f, hf, rfl⟩ := Option.map_eq_some_iff.mp hs
    unfold WriteFifo.startEmpty at hf
    split at hf
    · rename_i hend
      cases hf
      have hleft := WriteFifo.left_eq_zero hend
      refine ⟨by simp [called, h.results], ?_, ?_⟩
      · simp [called, acceptedBytes_append _ _ h.results, h.filled, acceptedBytes]
      · have hblocks := h.blocks
        rw [hleft] at hblocks
        simp only [called, written_add_left, Option.map_some, Option.toList_some, List.map_append,
          List.sum_append, hblocks]
        simp [written, Op.blockSize, WriteFifo.left]
    · cases hf
  | process i =>
    simp only [Stream.step, Option.ite_none_right_eq_some] at hs
    obtain ⟨-, hs⟩ := hs
    cases hs
    refine ⟨by simp [called, h.results], by simp [called, h.filled], ?_⟩
    simp only [called, WriteFifo.process, WriteFifo.dmaDone, written_add_left]
    simpa [WriteFifo.handlePending, WriteFifo.left] using h.blocks

/-- As long as no byte was to be moved, both paths only collect what is filled in. -/
structure Collected (cfg : FifoConfig) (line : Nat) (mem : Word → Byte) (w : Timed) : Prop where
  pending : w.stream.fifo.pendingRequests = []
  atEndOfBlock : w.stream.fifo.atEndOfBlock = true
  written : ∀ a ∈ w.stream.fifo.log, a.isWrite = false
  functional : ∃ b, Bypass.run cfg line w.ops (.start mem) = some b ∧ b.results = w.results ∧
    b.buffer = w.stream.fifo.buffer ∧ b.atEndOfBlock = true ∧ b.mem = mem

variable {line : Nat} {mem : Word → Byte}

theorem run_concat {ops : List Op} {b b' : Bypass} {op : Op} (h : Bypass.run cfg line ops (.start mem) = some b)
    (hs : b.step cfg line op = some b') : Bypass.run cfg line (ops ++ [op]) (.start mem) = some b' := by
  rw [Bypass.run_append, h]
  simp [Bypass.run, hs]

theorem Collected.step {e : StreamEv} (h : w.Collected cfg line mem) (hw : w.step cfg e = some w')
    (hop : ∀ op ∈ w'.ops, op.movesNothing) : w'.Collected cfg line mem := by
  obtain ⟨b, hrun, hresults, hbuffer, hend, hmem⟩ := h.functional
  obtain ⟨s, hs, rfl⟩ := Option.map_eq_some_iff.mp hw
  cases e with
  | tryFill src =>
    by_cases hroom : w.stream.fifo.buffer.length + src.length ≤ cfg.fifoSize
    · have htry : (w.stream.fifo.tryFill cfg src).2 = true := by rw [WriteFifo.tryFill, if_pos hroom]
      have hsame : ({ w.stream.fifo with buffer := w.stream.fifo.buffer ++ src } : WriteFifo).resumeEmpty cfg =
          { w.stream.fifo with buffer := w.stream.fifo.buffer ++ src } := WriteFifo.resumeEmpty_of_end h.atEndOfBlock
      simp only [Stream.step, WriteFifo.tryFill, if_pos hroom, if_true, hsame] at hs
      cases hs
      have hfill : b.tryFill cfg line src = ({ b with buffer := b.buffer ++ src }, true) := by
        have hroom : b.buffer.length + src.length ≤ cfg.fifoSize := by rw [hbuffer]; exact hroom
        rw [Bypass.tryFill, if_pos hroom, Bypass.resumeEmptyFunctional_of_end]
        exact hend
      refine ⟨h.pending, h.atEndOfBlock, h.written, ({ b with buffer := b.buffer ++ src } : Bypass).record true,
        ?_, ?_, ?_, hend, hmem⟩
      · exact run_concat hrun (by simp only [Bypass.step, hfill])
      · simp [Bypass.record, called, htry, hresults]
      · simp [Bypass.record, hbuffer]
    · have htry : (w.stream.fifo.tryFill cfg src).2 = false := by rw [WriteFifo.tryFill, if_neg hroom]
      simp only [Stream.step, WriteFifo.tryFill, if_neg hroom, Bool.false_eq_true, if_false] at hs
      cases hs
      have hfill : b.tryFill cfg line src = (b, false) := by
        have hroom : ¬ b.buffer.length + src.length ≤ cfg.fifoSize := by rw [hbuffer]; exact hroom
        rw [Bypass.tryFill, if_neg hroom]
      refine ⟨h.pending, h.atEndOfBlock, h.written, b.record false, ?_, ?_, hbuffer, hend, hmem⟩
      · exact run_concat hrun (by simp only [Bypass.step, hfill])
      · simp [Bypass.record, called, htry, hresults]
  | startEmpty start size =>
    obtain ⟨f, hf, rfl⟩ := Option.map_eq_some_iff.mp hs
    have hsize : size = 0 := hop (.startEmpty start size) (by simp [called])
    subst hsize
    have hzero : start + (0 : Word) = start := by simp
    have hsame :
      ({ w.stream.fifo with nextAddr := start, endAddr := start, log := w.stream.fifo.log ++ [.block start 0] } :
        WriteFifo).resumeEmpty cfg =
          { w.stream.fifo with nextAddr := start, endAddr := start, log := w.stream.fifo.log ++ [.block start 0] } :=
      WriteFifo.resumeEmpty_of_end (decide_eq_true rfl)
    rw [WriteFifo.startEmpty, if_pos h.atEndOfBlock, hzero, hsame] at hf
    cases hf
    have hstart : b.startEmpty cfg line start 0 = some { b with nextAddr := start, endAddr := start } := by
      rw [Bypass.startEmpty, if_pos hend, hzero, Bypass.resumeEmptyFunctional_of_end]
      exact decide_eq_true rfl
    refine ⟨h.pending, decide_eq_true rfl, fun a ha => ?_,
      ({ b with nextAddr := start, endAddr := start } : Bypass).record true, ?_, ?_, hbuffer, decide_eq_true rfl, hmem⟩
    · rcases List.mem_append.mp ha with ha | ha
      · exact h.written a ha
      · rw [List.mem_singleton.mp ha]
        rfl
    · exact run_concat hrun (by simp only [Bypass.step, hstart, Option.map_some])
    · simp [Bypass.record, called, hresults]
  | process i =>
    -- no request is pending
    simp [Stream.step, h.pending] at hs

theorem recorded_of_reachable (h : (timed cfg).Reachable w) : w.Recorded ∧ (Dma.stream cfg).Reachable w.stream := by
  refine System.invariantWhen (I := fun w => w.Recorded ∧ (Dma.stream cfg).Reachable w.stream) ?_ ?_ h
  · rintro w rfl
    exact ⟨⟨rfl, rfl, by simp [Stream.start, WriteFifo.start, Dma.written, WriteFifo.left]⟩, .init rfl⟩
  · intro w e w' _ hw _ hstep
    obtain ⟨s, hs, heq⟩ := Option.map_eq_some_iff.mp hstep
    refine ⟨hw.1.step hstep, ?_⟩
    rw [← heq]
    exact hw.2.step trivial hs

theorem collected_of_reachable (h : (timed cfg).Reachable w) :
    (∀ op ∈ w.ops, op.movesNothing) → w.Collected cfg line mem := by
  refine System.invariantWhen (I := fun w => (∀ op ∈ w.ops, op.movesNothing) → w.Collected cfg line mem) ?_ ?_ h
  · rintro w rfl -
    exact ⟨rfl, rfl, fun a ha => absurd ha List.not_mem_nil, .start mem, rfl, rfl, rfl, rfl, rfl⟩
  · intro w e w' _ hw _ hstep hop
    refine (hw fun op hmem => hop op ?_).step hstep hop
    obtain ⟨s, hs, rfl⟩ := Option.map_eq_some_iff.mp hstep
    exact List.mem_append_left _ hmem

theorem writesTo_of_blocks {log : List Action} : ∀ {mem : Word → Byte}, (∀ a ∈ log, a.isWrite = false) →
    writesTo log mem = mem := by
  induction log with
  | nil => exact fun _ => rfl
  | cons a log ih =>
    intro mem h
    have ha := h a List.mem_cons_self
    cases a with
    | block start size => exact ih fun x hx => h x (List.mem_cons_of_mem _ hx)
    | write addr data => cases ha

end Timed

/-- **The two paths agree exactly as long as no byte was to be moved**: with the same results of all calls, the FIFO of
the functional path holds everything that was filled in, and more. -/
theorem functional_agrees_iff {cfg : FifoConfig} {w : Timed} (h : (timed cfg).Reachable w)
    (hidle : w.stream.fifo.isActive = false) (line : Nat) (mem : Word → Byte) :
    Agree cfg line mem w ↔ ∀ op ∈ w.ops, op.movesNothing := by
  constructor
  · rintro ⟨b, hrun, hresults, hbuffer, -⟩
    obtain ⟨hrec, hstream⟩ := Timed.recorded_of_reachable h
    obtain ⟨-, hdata, -, -⟩ := Stream.stream_law hstream
    obtain ⟨-, rs, hrs, hlen⟩ := Bypass.run_grows hrun
    obtain rfl : rs = w.results := by rw [← hresults, hrs]; rfl
    rw [← hrec.filled, ← hdata, hbuffer, List.length_append] at hlen
    have hend : w.stream.fifo.atEndOfBlock = true := by
      rw [WriteFifo.isActive_eq_false] at hidle
      exact hidle.2
    have hblocks := hrec.blocks
    rw [WriteFifo.left_eq_zero hend] at hblocks
    intro op hop
    rw [op.movesNothing_iff]
    have hle := List.single_le_sum (fun x _ => Nat.zero_le x) _ (List.mem_map_of_mem (f := Op.blockSize) hop)
    omega
  · intro hop
    have hc : w.Collected cfg line mem := Timed.collected_of_reachable h hop
    obtain ⟨b, hrun, hresults, hbuffer, -, hmem⟩ := hc.functional
    refine ⟨b, hrun, hresults, hbuffer, fun start size _ i _ => ?_⟩
    rw [hmem, Timed.writesTo_of_blocks hc.written]

/-- Requests of 4 bytes, a FIFO of 16, two request objects. -/
def fifo16 : FifoConfig := ⟨4, 16, 2⟩

/-- Two bytes, and a block without any. -/
theorem functional_agrees_two_bytes : ∃ w, (timed fifo16).Reachable w ∧
    w.ops = [.tryFill [1, 2], .startEmpty 100 0] ∧ w.stream.fifo.buffer = [1, 2] ∧ Agree fifo16 64 (fun _ => 0) w := by
  obtain ⟨w, hw, hops, hbuffer, hidle⟩ := System.reachable_of_replay (S := timed fifo16)
    (rfl : (timed fifo16).init ⟨.start fifo16, [], []⟩) [.tryFill [1, 2], .startEmpty 100 0]
    (fun w => w.ops = [.tryFill [1, 2], .startEmpty 100 0] ∧ w.stream.fifo.buffer = [1, 2] ∧
      w.stream.fifo.isActive = false) (by decide)
  refine ⟨w, hw, hops, hbuffer, (functional_agrees_iff hw hidle 64 fun _ => 0).mpr fun op hop => ?_⟩
  rw [hops, List.mem_cons, List.mem_singleton] at hop
  rcases hop with rfl | rfl
  · trivial
  · rfl

/-- **Four bytes and a block of four.** In timing mode they are written to memory and the FIFO is empty; the functional
path leaves the memory as it is, and reads its four bytes into the FIFO, behind those that were filled in. -/
theorem block_not_written : ∃ w, (timed fifo16).Reachable w ∧ w.stream.fifo.isActive = false ∧
    w.ops = [.tryFill [1, 2, 3, 4], .startEmpty 100 4] ∧ w.stream.fifo.buffer = [] ∧
    writesTo w.stream.fifo.log (fun _ => 0) 100 = 1 ∧
    (∃ b, Bypass.run fifo16 64 w.ops (.start fun _ => 0) = some b ∧ b.buffer = [1, 2, 3, 4, 0, 0, 0, 0] ∧
    b.mem 100 = 0) ∧ ¬ Agree fifo16 64 (fun _ => 0) w := by
  obtain ⟨w, hw, hidle, hops, hbuffer, hmem⟩ := System.reachable_of_replay (S := timed fifo16)
    (rfl : (timed fifo16).init ⟨.start fifo16, [], []⟩) [.tryFill [1, 2, 3, 4], .startEmpty 100 4, .process 0]
    (fun w => w.stream.fifo.isActive = false ∧ w.ops = [.tryFill [1, 2, 3, 4], .startEmpty 100 4] ∧
      w.stream.fifo.buffer = [] ∧ writesTo w.stream.fifo.log (fun _ => 0) 100 = 1) (by decide)
  have hrun : ∃ b, Bypass.run fifo16 64 w.ops (.start fun _ => 0) = some b ∧ b.buffer = [1, 2, 3, 4, 0, 0, 0, 0] ∧
      b.mem 100 = 0 := by
    rw [hops]
    exact ⟨_, rfl, by decide, rfl⟩
  refine ⟨w, hw, hidle, hops, hbuffer, hmem, hrun, ?_⟩
  rintro ⟨b, hb, -, hsame, -⟩
  obtain ⟨b', hb', hbuffer', -⟩ := hrun
  obtain rfl := Option.some.inj (hb.symm.trans hb')
  rw [hbuffer, hbuffer'] at hsame
  cases hsame

end Salam.Dma
