import Salam.Dma.Fifo

/-!
# `DmaWriteFifo` is a stream

Whatever is filled into the FIFO is written to memory in the same order, block by block. `advance` is a reader of the
log that knows only where the next write has to go and how much of the block is left, and refuses anything else;
`Streaming` says that it accepts the log and agrees with the FIFO about both.

* `stream_law`: what the FIFO does in every run.
-/

namespace Salam.Dma

/-! ## The law -/

/-- The bytes of the writes. -/
def written (log : List Action) : List Byte :=
  (log.map fun
    | .block .. => []
    | .write _ data => data).flatten

def Action.isWrite : Action → Bool
  | .block .. => false
  | .write .. => true

/-- The number of writes. -/
def writes (log : List Action) : Nat := log.countP (·.isWrite)

/-- The writes of one block are contiguous, in order, of at most `maxReqSize` bytes, and within the block, and a new
block starts after the last byte of the one before. -/
structure BlockLaw (maxReqSize : Nat) (log : List Action) : Prop where
  write : ∀ xs start size us addr data vs, log = xs ++ .block start size :: us ++ .write addr data :: vs →
    (∀ a ∈ us, a.isWrite = true) → addr = start + BitVec.ofNat 64 (written us).length ∧ data.length ≤ maxReqSize ∧
      (written us).length + data.length ≤ size.toNat
  block : ∀ xs start size us start' size' vs, log = xs ++ .block start size :: us ++ .block start' size' :: vs →
    (∀ a ∈ us, a.isWrite = true) → (written us).length = size.toNat

/-- All of the last block has been written. -/
def BlockDone (log : List Action) : Prop :=
  ∀ xs start size us, log = xs ++ .block start size :: us → (∀ a ∈ us, a.isWrite = true) →
    (written us).length = size.toNat

/-- The next address and the bytes that are left of the block, after one more action. -/
def advance (maxReqSize : Nat) : Word × Nat → Action → Option (Word × Nat)
  | (_, left), .block start size => if left = 0 then some (start, size.toNat) else none
  | (next, left), .write addr data =>
    if addr = next ∧ data.length ≤ maxReqSize ∧ data.length ≤ left then
      some (next + BitVec.ofNat 64 data.length, left - data.length)
    else none

/-- The reader accepts the log and stands at `c`. -/
def Reads (maxReqSize : Nat) (log : List Action) (c : Word × Nat) : Prop :=
  log.foldlM (advance maxReqSize) (0, 0) = some c

section Reading

variable {maxReqSize : Nat} {log : List Action} {c c' : Word × Nat}

theorem written_append (log log' : List Action) : written (log ++ log') = written log ++ written log' := by
  simp [written]

theorem writes_append (log log' : List Action) : writes (log ++ log') = writes log + writes log' :=
  List.countP_append ..

theorem foldlM_append_eq_some {log' : List Action} : (log ++ log').foldlM (advance maxReqSize) c = some c' ↔
    ∃ c₁, log.foldlM (advance maxReqSize) c = some c₁ ∧ log'.foldlM (advance maxReqSize) c₁ = some c' := by
  rw [List.foldlM_append]
  exact Option.bind_eq_some_iff

/-- Where the reader stands after the writes of a block. -/
theorem advance_writes : ∀ {us : List Action} {next : Word} {left : Nat}, (∀ a ∈ us, a.isWrite = true) →
    us.foldlM (advance maxReqSize) (next, left) = some c →
    (written us).length ≤ left ∧ c = (next + BitVec.ofNat 64 (written us).length, left - (written us).length)
  | [], next, left, _, h => by
    cases h
    simp [written]
  | .block .. :: _, next, left, hus, _ => by
    have := hus _ (List.mem_cons_self ..)
    cases this
  | .write addr data :: us, next, left, hus, h => by
    obtain ⟨c₁, h₁, h₂⟩ := Option.bind_eq_some_iff.mp h
    simp only [advance, Option.ite_none_right_eq_some] at h₁
    obtain ⟨⟨-, -, hleft⟩, hc₁⟩ := h₁
    cases hc₁
    obtain ⟨hle, rfl⟩ := advance_writes (fun a ha => hus a (List.mem_cons_of_mem _ ha)) h₂
    have hlen : (written (.write addr data :: us)).length = data.length + (written us).length := by
      simp [written]
    rw [hlen, BitVec.ofNat_add, ← BitVec.add_assoc]
    exact ⟨by omega, Prod.ext rfl (by simp; omega)⟩

/-- The reader at the end of the writes `us` of a block. -/
theorem Reads.block {xs us vs : List Action} {start size : Word} (hus : ∀ a ∈ us, a.isWrite = true)
    (h : Reads maxReqSize (xs ++ .block start size :: us ++ vs) c) :
    (written us).length ≤ size.toNat ∧
      vs.foldlM (advance maxReqSize) (start + BitVec.ofNat 64 (written us).length, size.toNat - (written us).length) =
        some c := by
  obtain ⟨c₂, h₂, hvs⟩ := foldlM_append_eq_some.mp h
  obtain ⟨⟨next, left⟩, -, h₁⟩ := foldlM_append_eq_some.mp h₂
  obtain ⟨c₁, hblock, hwrites⟩ := Option.bind_eq_some_iff.mp h₁
  simp only [advance, Option.ite_none_right_eq_some] at hblock
  obtain ⟨-, hc₁⟩ := hblock
  cases hc₁
  obtain ⟨hle, rfl⟩ := advance_writes hus hwrites
  exact ⟨hle, hvs⟩

theorem Reads.blockLaw (h : Reads maxReqSize log c) : BlockLaw maxReqSize log := by
  constructor
  · intro xs start size us addr data vs heq hus
    rw [heq] at h
    obtain ⟨hle, hvs⟩ := Reads.block hus h
    obtain ⟨c₁, hwrite, -⟩ := Option.bind_eq_some_iff.mp hvs
    simp only [advance, Option.ite_none_right_eq_some] at hwrite
    obtain ⟨⟨haddr, hmax, hleft⟩, -⟩ := hwrite
    exact ⟨haddr, hmax, by omega⟩
  · intro xs start size us start' size' vs heq hus
    rw [heq] at h
    obtain ⟨hle, hvs⟩ := Reads.block hus h
    obtain ⟨c₁, hblock, -⟩ := Option.bind_eq_some_iff.mp hvs
    simp only [advance, Option.ite_none_right_eq_some] at hblock
    omega

theorem Reads.blockDone {next : Word} (h : Reads maxReqSize log (next, 0)) : BlockDone log := by
  intro xs start size us heq hus
  rw [heq, ← List.append_nil (_ ++ _)] at h
  obtain ⟨hle, hvs⟩ := Reads.block hus h
  have := (Prod.mk.inj (Option.some.inj hvs)).2
  omega

end Reading

/-! ## Runs -/

/-- The FIFO with what it was given, and the numbers of the writes that have completed, in the order of their issue; the
last two are not in the source. -/
structure Stream where
  fifo : WriteFifo
  filled : List Byte
  completed : List Nat

inductive StreamEv
  | tryFill (src : List Byte)
  | startEmpty (start size : Word)
  | process (i : Nat)
  deriving DecidableEq

namespace Stream

def start (cfg : FifoConfig) : Stream where
  fifo := .start cfg
  filled := []
  completed := []

/-- The number of writes that have been retired. -/
def retired (s : Stream) : Nat := writes s.fifo.log - s.fifo.pendingRequests.length

/-- One call; a request completes once. -/
def step (cfg : FifoConfig) (s : Stream) : StreamEv → Option Stream
  | .tryFill src =>
    let (fifo, success) := s.fifo.tryFill cfg src
    some { s with fifo := fifo, filled := if success then s.filled ++ src else s.filled }
  | .startEmpty start size => (s.fifo.startEmpty cfg start size).map fun fifo => { s with fifo := fifo }
  | .process i =>
    if (s.fifo.pendingRequests[i]?).any (!·.done) then
      some { s with fifo := s.fifo.process cfg i, completed := s.completed ++ [s.retired + i] }
    else none

end Stream

/-- The runs of a `DmaWriteFifo`. -/
def stream (cfg : FifoConfig) : System Stream StreamEv where
  init s := s = .start cfg
  step := Stream.step cfg

namespace Stream

/-- The reader of the log agrees with the FIFO, the log and the buffer hold what was filled in, and what is neither
pending nor unfinished has completed. -/
structure Streaming (cfg : FifoConfig) (s : Stream) : Prop where
  reads : Reads cfg.maxReqSize s.fifo.log (s.fifo.nextAddr, s.fifo.left)
  data : written s.fifo.log ++ s.fifo.buffer = s.filled
  pending : s.fifo.pendingRequests.length ≤ writes s.fifo.log
  retired : ∀ k < s.retired, k ∈ s.completed
  done : ∀ i r, s.fifo.pendingRequests[i]? = some r → r.done = true → s.retired + i ∈ s.completed
  bounded : s.fifo.buffer.length ≤ cfg.fifoSize

variable {cfg : FifoConfig}

theorem streaming_start : Streaming cfg (start cfg) := by
  constructor <;> simp [start, WriteFifo.start, Reads, WriteFifo.left, written, writes, retired]

section Steps

variable {cfg : FifoConfig} {s : Stream}

/-- The reader accepts what the loop sends. -/
theorem advance_issued : ∀ (rs : List Req) {next : Word} (left : Nat), Contiguous next rs → total rs ≤ left →
    (∀ r ∈ rs, r.data.length = r.size ∧ r.size ≤ cfg.maxReqSize) →
    (rs.map fun r => Action.write r.addr r.data).foldlM (advance cfg.maxReqSize) (next, left) =
      some (next + BitVec.ofNat 64 (total rs), left - total rs)
  | [], next, left, _, _, _ => by simp
  | r :: rs, next, left, hc, hleft, hsound => by
    obtain ⟨hdata, hmax⟩ := hsound r (List.mem_cons_self ..)
    rw [total_cons] at hleft ⊢
    have hrest := advance_issued rs (left - r.size) hc.2 (by omega)
      fun x hx => hsound x (List.mem_cons_of_mem _ hx)
    have hone : advance cfg.maxReqSize (next, left) (.write r.addr r.data) =
        some (next + BitVec.ofNat 64 r.size, left - r.size) := by
      simp only [advance, hdata]
      rw [if_pos ⟨hc.1, hmax, by omega⟩]
    rw [List.map_cons, List.foldlM_cons, hone]
    refine hrest.trans ?_
    rw [BitVec.ofNat_add, ← BitVec.add_assoc, Nat.sub_sub]

theorem written_map_write (rs : List Req) :
    written (rs.map fun r => Action.write r.addr r.data) = (rs.map (·.data)).flatten := by
  simp [written, Function.comp_def]

theorem writes_map_write (rs : List Req) : writes (rs.map fun r => Action.write r.addr r.data) = rs.length := by
  simp [writes, Function.comp_def, Action.isWrite]

theorem Streaming.resumeEmpty (h : Streaming cfg s) : Streaming cfg { s with fifo := s.fifo.resumeEmpty cfg } := by
  obtain ⟨rs, hrs⟩ := WriteFifo.resumeEmpty_issued cfg s.fifo
  generalize s.fifo.resumeEmpty cfg = f' at hrs
  have hpending : f'.pendingRequests.length = s.fifo.pendingRequests.length + rs.length := by
    rw [hrs.pending, List.length_append]
  have hwrites : writes f'.log = writes s.fifo.log + rs.length := by
    rw [hrs.log, writes_append, writes_map_write]
  have hretired : Stream.retired { s with fifo := f' } = s.retired := by
    simp only [Stream.retired, hpending, hwrites]
    omega
  refine ⟨?_, ?_, ?_, ?_, ?_, ?_⟩
  · show Reads _ f'.log (f'.nextAddr, f'.left)
    rw [hrs.log, hrs.nextAddr, hrs.left]
    refine foldlM_append_eq_some.mpr ⟨_, h.reads, ?_⟩
    exact advance_issued rs s.fifo.left hrs.contiguous hrs.bounded fun r hr =>
      ⟨(hrs.sound r hr).2.1, (hrs.sound r hr).2.2.1⟩
  · show written f'.log ++ f'.buffer = s.filled
    rw [hrs.log, written_append, written_map_write, List.append_assoc, ← hrs.buffer]
    exact h.data
  · have := h.pending
    show f'.pendingRequests.length ≤ writes f'.log
    omega
  · rw [hretired]
    exact h.retired
  · intro i r hi hr
    rw [hretired]
    have hi' : (s.fifo.pendingRequests ++ rs)[i]? = some r := by
      rw [← hrs.pending]
      exact hi
    by_cases hlt : i < s.fifo.pendingRequests.length
    · rw [List.getElem?_append_left hlt] at hi'
      exact h.done i r hi' hr
    · rw [List.getElem?_append_right (by omega)] at hi'
      have := (hrs.sound r (List.mem_of_getElem? hi')).1
      rw [hr] at this
      cases this
  · have hlen := congrArg List.length hrs.buffer
    rw [List.length_append] at hlen
    have := h.bounded
    show f'.buffer.length ≤ cfg.fifoSize
    omega

theorem Streaming.tryFill {src : List Byte} (h : Streaming cfg s)
    (hroom : s.fifo.buffer.length + src.length ≤ cfg.fifoSize) :
    Streaming cfg { s with
      fifo := { s.fifo with buffer := s.fifo.buffer ++ src }
      filled := s.filled ++ src } := by
  refine ⟨h.reads, ?_, h.pending, h.retired, h.done, by simpa using hroom⟩
  show written s.fifo.log ++ (s.fifo.buffer ++ src) = s.filled ++ src
  rw [← List.append_assoc, h.data]

theorem Streaming.startEmpty {start size : Word} (h : Streaming cfg s) (hend : s.fifo.atEndOfBlock = true) :
    Streaming cfg { s with
      fifo := { s.fifo with nextAddr := start, endAddr := start + size, log :=
        s.fifo.log ++ [.block start size] } } := by
  have hleft := WriteFifo.left_eq_zero hend
  have hwrites : writes (s.fifo.log ++ [.block start size]) = writes s.fifo.log := by
    rw [writes_append]
    rfl
  refine ⟨?_, ?_, ?_, ?_, ?_, h.bounded⟩
  · refine foldlM_append_eq_some.mpr ⟨_, h.reads, ?_⟩
    rw [List.foldlM_cons, advance, if_pos hleft]
    show some (start, size.toNat) = some (start, (start + size - start).toNat)
    rw [add_sub_cancel_left]
  · show written (s.fifo.log ++ [.block start size]) ++ s.fifo.buffer = s.filled
    simpa [written] using h.data
  · exact h.pending.trans (Nat.le_of_eq hwrites.symm)
  · simp only [Stream.retired, hwrites]
    exact h.retired
  · simp only [Stream.retired, hwrites]
    exact h.done

theorem Streaming.complete {i : Nat} (h : Streaming cfg s) : Streaming cfg { s with
    fifo := { s.fifo with pendingRequests := s.fifo.pendingRequests.modify i fun r => { r with done := true } }
    completed := s.completed ++ [s.retired + i] } := by
  have hretired : Stream.retired { s with
      fifo := { s.fifo with pendingRequests := s.fifo.pendingRequests.modify i fun r => { r with done := true } }
      completed := s.completed ++ [s.retired + i] } = s.retired := by
    simp [Stream.retired]
  refine ⟨h.reads, h.data, by simpa using h.pending, ?_, ?_, h.bounded⟩
  · rw [hretired]
    exact fun k hk => List.mem_append_left _ (h.retired k hk)
  · intro j r hj hr
    rw [hretired]
    by_cases hij : i = j
    · rw [hij]
      exact List.mem_append_right _ (List.mem_singleton_self _)
    · refine List.mem_append_left _ (h.done j r ?_ hr)
      have hmod : (s.fifo.pendingRequests.modify i fun r => { r with done := true })[j]? = some r := hj
      rwa [List.getElem?_modify_ne _ _ hij] at hmod

/-- The finished requests at the front are retired. -/
theorem Streaming.handlePending (h : Streaming cfg s) : Streaming cfg { s with fifo := s.fifo.handlePending } := by
  obtain ⟨fin, rest, hfin, hrest, hsplit, hfront⟩ := finished_split s.fifo.pendingRequests
  have hlen := congrArg List.length hsplit
  rw [List.length_append] at hlen
  have hpend := h.pending
  have hretired : Stream.retired { s with fifo := s.fifo.handlePending } = s.retired + fin.length := by
    simp only [Stream.retired, WriteFifo.handlePending, hrest]
    omega
  refine ⟨h.reads, h.data, ?_, ?_, ?_, h.bounded⟩
  · show (s.fifo.pendingRequests.dropWhile (·.done)).length ≤ writes s.fifo.log
    rw [hrest]
    omega
  · rw [hretired]
    intro k hk
    by_cases hold : k < s.retired
    · exact h.retired k hold
    · have hj : k - s.retired < fin.length := by omega
      have hmem : s.fifo.pendingRequests[k - s.retired]? = some fin[k - s.retired] := by
        rw [← hsplit, List.getElem?_append_left hj, List.getElem?_eq_getElem hj]
      have := h.done _ _ hmem (hfront _ (List.getElem_mem hj))
      rwa [Nat.add_sub_cancel' (Nat.le_of_not_lt hold)] at this
  · intro i r hi hr
    have hi' : rest[i]? = some r := by
      rw [← hrest]
      exact hi
    rw [hretired, Nat.add_assoc]
    refine h.done (fin.length + i) r ?_ hr
    rw [← hsplit, List.getElem?_append_right (Nat.le_add_right ..), Nat.add_sub_cancel_left]
    exact hi'

theorem Streaming.step {e : StreamEv} {s' : Stream} (h : Streaming cfg s) (hs : s.step cfg e = some s') :
    Streaming cfg s' := by
  cases e with
  | tryFill src =>
    by_cases hroom : s.fifo.buffer.length + src.length ≤ cfg.fifoSize
    · simp only [Stream.step, WriteFifo.tryFill, if_pos hroom, if_true] at hs
      cases hs
      exact (h.tryFill hroom).resumeEmpty
    · simp only [Stream.step, WriteFifo.tryFill, if_neg hroom, Bool.false_eq_true, if_false] at hs
      cases hs
      exact h
  | startEmpty start size =>
    simp only [Stream.step, WriteFifo.startEmpty, Option.map_eq_some_iff, Option.ite_none_right_eq_some] at hs
    obtain ⟨f, ⟨hend, hf⟩, rfl⟩ := hs
    cases hf
    exact (h.startEmpty hend).resumeEmpty
  | process i =>
    simp only [Stream.step, Option.ite_none_right_eq_some] at hs
    obtain ⟨-, hs⟩ := hs
    cases hs
    exact (h.complete (i := i)).handlePending.resumeEmpty

end Steps

theorem streaming_of_reachable {s : Stream} (h : (stream cfg).Reachable s) : Streaming cfg s := by
  refine System.invariantWhen (I := Streaming cfg) ?_ ?_ h
  · rintro s rfl
    exact streaming_start
  · intro s e s' _ hs _ hstep
    exact hs.step hstep

theorem Streaming.blockDone {s : Stream} (h : Streaming cfg s) (hend : s.fifo.atEndOfBlock = true) :
    BlockDone s.fifo.log := by
  have hleft := WriteFifo.left_eq_zero hend
  have hreads := h.reads
  rw [hleft] at hreads
  exact hreads.blockDone

/-- **The law of the stream**: every block is written in order and in full, with the bytes that were filled in and no
others, and the FIFO is idle only when all of it has been written. -/
theorem stream_law {cfg : FifoConfig} {s : Stream} (h : (stream cfg).Reachable s) :
    BlockLaw cfg.maxReqSize s.fifo.log ∧ written s.fifo.log ++ s.fifo.buffer = s.filled ∧
      (s.fifo.isActive = false → BlockDone s.fifo.log ∧ ∀ k < writes s.fifo.log, k ∈ s.completed) ∧
      s.fifo.buffer.length ≤ cfg.fifoSize := by
  have hs := streaming_of_reachable h
  refine ⟨hs.reads.blockLaw, hs.data, ?_, hs.bounded⟩
  intro hidle
  rw [WriteFifo.isActive_eq_false] at hidle
  refine ⟨hs.blockDone hidle.2, ?_⟩
  have := hs.retired
  rw [Stream.retired, hidle.1] at this
  exact this

/-- Six bytes go out in two requests, the second after the first has completed. -/
theorem stream_law_six_bytes : ∃ s : Stream, s.fifo.isActive = false ∧
    s.fifo.log = [.block 100 6, .write 100 [1, 2, 3, 4], .write 104 [5, 6]] ∧ BlockDone s.fifo.log ∧
    ∀ k < writes s.fifo.log, k ∈ s.completed := by
  obtain ⟨s, hs, hidle, hlog⟩ := System.reachable_of_replay (S := stream ⟨4, 16, 2⟩)
    (show (stream ⟨4, 16, 2⟩).init (start ⟨4, 16, 2⟩) from rfl)
    [.startEmpty 100 6, .tryFill [1, 2, 3, 4, 5, 6], .process 0, .process 0]
    (fun s => s.fifo.isActive = false ∧ s.fifo.log = [.block 100 6, .write 100 [1, 2, 3, 4], .write 104 [5, 6]])
    (by decide)
  exact ⟨s, hidle, hlog, (stream_law hs).2.2.1 hidle⟩

end Stream

end Salam.Dma
