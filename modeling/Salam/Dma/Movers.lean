import Salam.Dma.Fill
import Salam.Dma.Stream

/-!
# What a stream device needs of a FIFO

`Mover` is what `StreamDma` needs of its FIFOs, the same for both: a block that is started is wanted, and when the FIFO
is idle the bytes at all wanted addresses have been moved, in their order. A `DmaReadFifo` has moved what its retired
requests have read, a `DmaWriteFifo` what its retired requests have written.

* `readMover`, `writeMover`: the two FIFOs.
-/

namespace Salam.Dma

/-! ## The FIFOs -/

/-- The addresses of the bytes of the blocks. -/
def blockAddrs (bs : List (Word × Word)) : List Word := (bs.map fun b => addrs b.1 b.2.toNat).flatten

theorem blockAddrs_append (bs bs' : List (Word × Word)) : blockAddrs (bs ++ bs') = blockAddrs bs ++ blockAddrs bs' := by
  simp [blockAddrs]

theorem blockAddrs_singleton (start size : Word) : blockAddrs [(start, size)] = addrs start size.toNat := by
  simp [blockAddrs]

/-- A FIFO that is given blocks: whether it is active, how a block is started, the addresses of all blocks and of the
bytes that have been moved, and what its runs keep. -/
structure Mover (φ : Type) where
  isActive : φ → Bool
  start : Word → Word → φ → Option φ
  wanted : φ → List Word
  moved : φ → List Word
  Good : φ → Prop
  start_isSome : ∀ {f} a n, Good f → isActive f = false → (start a n f).isSome
  start_good : ∀ {f f' a n}, Good f → start a n f = some f' → Good f'
  start_wanted : ∀ {f f' a n}, Good f → start a n f = some f' → wanted f' = wanted f ++ addrs a n.toNat
  start_moved : ∀ {f f' a n}, Good f → start a n f = some f' → moved f <+: moved f'
  idle : ∀ {f}, Good f → isActive f = false → moved f = wanted f

namespace Fill

variable {cfg : FifoConfig} {s s' : Fill}

/-- The addresses of the bytes that the retired requests have read. -/
def moved (s : Fill) : List Word := (reads s.retired).map Prod.fst

/-- A stream access or a completion wants no other bytes, and keeps those that have been read. -/
theorem step_moved {e : FillEv} (h : s.step cfg e = some s')
    (he : (∃ len, e = .tryGet len) ∨ ∃ i data, e = .process i data) :
    s'.wanted = s.wanted ∧ s.moved <+: s'.moved := by
  rcases he with ⟨len, rfl⟩ | ⟨i, data, rfl⟩
  · simp only [step] at h
    split at h <;> cases h <;> exact ⟨rfl, List.prefix_rfl⟩
  · simp only [step, Option.ite_none_right_eq_some] at h
    obtain ⟨-, h⟩ := h
    cases h
    refine ⟨rfl, ?_⟩
    simp only [moved, reads, List.filter_append, List.map_append, List.flatten_append]
    exact List.prefix_append ..

theorem step_idle {e : FillEv} (h : s.step cfg e = some s')
    (he : (∃ len, e = .tryGet len) ∨ ∃ i data, e = .process i data)
    (hidle : s.fifo.isActive = false) : s'.fifo.isActive = false := by
  rw [ReadFifo.isActive_eq_false] at hidle
  obtain ⟨hnil, hend⟩ := hidle
  rcases he with ⟨len, rfl⟩ | ⟨i, data, rfl⟩
  · simp only [step, ReadFifo.tryGet] at h
    split at h
    · rename_i hget
      rw [Option.ite_none_right_eq_some] at hget
      obtain ⟨-, hget⟩ := hget
      cases hget
      cases h
      have hstill : ReadFifo.resumeFill cfg { s.fifo with buffer := s.fifo.buffer.drop len } =
          { s.fifo with buffer := s.fifo.buffer.drop len } := ReadFifo.resumeFill_of_end hend
      show ReadFifo.isActive (ReadFifo.resumeFill cfg _) = false
      rw [hstill, ReadFifo.isActive, hnil]
      exact congrArg (fun b => !(true && b)) hend
    · cases h
      simp [ReadFifo.isActive, hnil, hend]
  · simp only [step, hnil, List.getElem?_nil, Option.any_none, Bool.false_eq_true, if_false] at h
    cases h

theorem start_isSome (a n : Word) (_ : Filling cfg s) (hidle : s.fifo.isActive = false) :
    (s.step cfg (.startFill a n)).isSome := by
  rw [ReadFifo.isActive_eq_false] at hidle
  simp [step, ReadFifo.startFill, hidle.2]

theorem start_wanted {a n : Word} (_ : Filling cfg s) (h : s.step cfg (.startFill a n) = some s') :
    s'.wanted = s.wanted ++ addrs a n.toNat := by
  obtain ⟨f, -, rfl⟩ := Option.map_eq_some_iff.mp h
  rfl

theorem start_moved {a n : Word} (_ : Filling cfg s) (h : s.step cfg (.startFill a n) = some s') :
    s.moved <+: s'.moved := by
  obtain ⟨f, -, rfl⟩ := Option.map_eq_some_iff.mp h
  exact List.prefix_rfl

end Fill

/-- The FIFO of the read side. -/
def readMover (cfg : FifoConfig) : Mover Fill where
  isActive s := s.fifo.isActive
  start a n s := s.step cfg (.startFill a n)
  wanted s := s.wanted
  moved s := s.moved
  Good := Fill.Filling cfg
  start_isSome := Fill.start_isSome
  start_good := Fill.Filling.step
  start_wanted := Fill.start_wanted
  start_moved := Fill.start_moved
  idle := Fill.Filling.idle

/-- The addresses of the blocks in a log. -/
def wantedOf (log : List Action) : List Word :=
  (log.map fun
    | .block start size => addrs start size.toNat
    | .write .. => []).flatten

/-- The addresses that the writes of a log write, one list for each. -/
def targets (log : List Action) : List (List Word) :=
  log.filterMap fun
    | .block .. => none
    | .write addr data => some (addrs addr data.length)

section Log

variable {maxReqSize : Nat}

theorem wantedOf_append (log log' : List Action) : wantedOf (log ++ log') = wantedOf log ++ wantedOf log' := by
  simp [wantedOf]

theorem targets_append (log log' : List Action) : targets (log ++ log') = targets log ++ targets log' :=
  List.filterMap_append

theorem length_targets (log : List Action) : (targets log).length = writes log := by
  induction log with
  | nil => rfl
  | cons a log ih =>
    rw [targets, writes] at ih
    cases a with
    | block start size => simp [targets, writes, Action.isWrite, ih]
    | write addr data => simp [targets, writes, Action.isWrite, ih]

theorem wantedOf_of_writes {log : List Action} (h : ∀ a ∈ log, a.isWrite = true) : wantedOf log = [] := by
  refine List.flatten_eq_nil_iff.mpr fun l hl => ?_
  obtain ⟨a, ha, rfl⟩ := List.mem_map.mp hl
  cases a with
  | block start size => cases h _ ha
  | write addr data => rfl

/-- What has been written and what is left of the last block are all the blocks. -/
theorem targets_of_reads {log : List Action} : ∀ {c c' : Word × Nat}, log.foldlM (advance maxReqSize) c = some c' →
    (targets log).flatten ++ addrs c'.1 c'.2 = addrs c.1 c.2 ++ wantedOf log := by
  induction log with
  | nil =>
    intro c c' h
    cases h
    exact (List.append_nil _).symm
  | cons a log ih =>
    rintro ⟨next, left⟩ c' h
    obtain ⟨c₁, h₁, h₂⟩ := Option.bind_eq_some_iff.mp h
    have hrest := ih h₂
    cases a with
    | block start size =>
      simp only [advance, Option.ite_none_right_eq_some] at h₁
      obtain ⟨rfl, hc⟩ := h₁
      cases hc
      exact hrest
    | write addr data =>
      simp only [advance, Option.ite_none_right_eq_some] at h₁
      obtain ⟨⟨rfl, -, hleft⟩, hc⟩ := h₁
      cases hc
      show addrs addr data.length ++ (targets log).flatten ++ _ = addrs addr left ++ wantedOf log
      rw [List.append_assoc, hrest, ← List.append_assoc, ← addrs_add, Nat.add_sub_cancel' hleft]

end Log

namespace Stream

variable {cfg : FifoConfig} {s s' : Stream} {a n : Word}

/-- The addresses of the bytes of the blocks. -/
def wanted (s : Stream) : List Word := wantedOf s.fifo.log

/-- The addresses of the writes that have been retired. -/
def moved (s : Stream) : List Word := ((targets s.fifo.log).take s.retired).flatten

theorem Streaming.idle (h : Streaming cfg s) (hidle : s.fifo.isActive = false) : s.moved = s.wanted := by
  rw [WriteFifo.isActive_eq_false] at hidle
  have hall : s.retired = (targets s.fifo.log).length := by
    rw [Stream.retired, hidle.1, length_targets]
    rfl
  have hreads := targets_of_reads h.reads
  rw [WriteFifo.left_eq_zero hidle.2] at hreads
  rw [moved, hall, List.take_length, wanted]
  simpa using hreads

/-- More writes in the log, and more of them retired. -/
theorem moved_prefix {log : List Action} (hlog : s'.fifo.log = s.fifo.log ++ log) (hretired : s.retired ≤ s'.retired) :
    s.moved <+: s'.moved := by
  refine List.IsPrefix.flatten ?_
  rw [hlog, targets_append]
  exact ((List.prefix_append ..).take _).trans (List.take_prefix_take_left hretired)

/-- `resumeEmpty` writes, and retires nothing. -/
theorem resumeEmpty_log (cfg : FifoConfig) (f : WriteFifo) (hpending : f.pendingRequests.length ≤ writes f.log) : ∃ ws,
    (f.resumeEmpty cfg).log = f.log ++ ws ∧ wantedOf ws = [] ∧
      writes (f.resumeEmpty cfg).log - (f.resumeEmpty cfg).pendingRequests.length =
        writes f.log - f.pendingRequests.length := by
  obtain ⟨rs, hrs⟩ := WriteFifo.resumeEmpty_issued cfg f
  refine ⟨_, hrs.log, ?_, ?_⟩
  · refine wantedOf_of_writes fun a ha => ?_
    obtain ⟨r, -, rfl⟩ := List.mem_map.mp ha
    rfl
  · rw [hrs.log, hrs.pending, writes_append, writes_map_write, List.length_append]
    omega

/-- A stream access or a completion wants no other bytes, and keeps those that have been written. -/
theorem step_moved {e : StreamEv} (h : Streaming cfg s) (hs : s.step cfg e = some s')
    (he : (∃ src, e = .tryFill src) ∨ ∃ i, e = .process i) : s'.wanted = s.wanted ∧ s.moved <+: s'.moved := by
  rcases he with ⟨src, rfl⟩ | ⟨i, rfl⟩
  · by_cases hroom : s.fifo.buffer.length + src.length ≤ cfg.fifoSize
    · simp only [Stream.step, WriteFifo.tryFill, if_pos hroom] at hs
      cases hs
      obtain ⟨ws, hlog, hws, hretired⟩ := resumeEmpty_log cfg { s.fifo with buffer := s.fifo.buffer ++ src } h.pending
      refine ⟨(congrArg wantedOf hlog).trans ?_, moved_prefix hlog (Nat.le_of_eq hretired.symm)⟩
      rw [wantedOf_append, hws, List.append_nil]
      rfl
    · simp only [Stream.step, WriteFifo.tryFill, if_neg hroom] at hs
      cases hs
      exact ⟨rfl, List.prefix_rfl⟩
  · simp only [Stream.step, Option.ite_none_right_eq_some] at hs
    obtain ⟨-, hs⟩ := hs
    cases hs
    have hdone := (h.complete (i := i)).handlePending
    obtain ⟨ws, hlog, hws, hretired⟩ := resumeEmpty_log cfg _ hdone.pending
    refine ⟨?_, moved_prefix hlog ?_⟩
    · refine (congrArg wantedOf hlog).trans ?_
      rw [wantedOf_append, hws, List.append_nil]
      rfl
    · refine Nat.le_trans ?_ (Nat.le_of_eq hretired.symm)
      have hle := (List.dropWhile_sublist (l := s.fifo.pendingRequests.modify i fun r => { r with done := true })
        fun r : Req => r.done).length_le
      rw [List.length_modify] at hle
      exact Nat.sub_le_sub_left hle _

theorem step_idle {e : StreamEv} (h : s.step cfg e = some s') (he : (∃ src, e = .tryFill src) ∨ ∃ i, e = .process i)
    (hidle : s.fifo.isActive = false) : s'.fifo.isActive = false := by
  rw [WriteFifo.isActive_eq_false] at hidle
  obtain ⟨hnil, hend⟩ := hidle
  rcases he with ⟨src, rfl⟩ | ⟨i, rfl⟩
  · by_cases hroom : s.fifo.buffer.length + src.length ≤ cfg.fifoSize
    · simp only [Stream.step, WriteFifo.tryFill, if_pos hroom] at h
      cases h
      have hstill : WriteFifo.resumeEmpty cfg { s.fifo with buffer := s.fifo.buffer ++ src } =
          { s.fifo with buffer := s.fifo.buffer ++ src } := WriteFifo.resumeEmpty_of_end hend
      show WriteFifo.isActive (WriteFifo.resumeEmpty cfg _) = false
      rw [hstill, WriteFifo.isActive, hnil]
      exact congrArg (fun b => !(true && b)) hend
    · simp only [Stream.step, WriteFifo.tryFill, if_neg hroom] at h
      cases h
      simp [WriteFifo.isActive, hnil, hend]
  · simp only [step, hnil, List.getElem?_nil, Option.any_none, Bool.false_eq_true, if_false] at h
    cases h

theorem start_isSome (a n : Word) (_ : Streaming cfg s) (hidle : s.fifo.isActive = false) :
    (s.step cfg (.startEmpty a n)).isSome := by
  rw [WriteFifo.isActive_eq_false] at hidle
  simp [Stream.step, WriteFifo.startEmpty, hidle.2]

section

variable (h : Streaming cfg s) (hs : s.step cfg (.startEmpty a n) = some s')
include h hs

theorem start_spec : s'.wanted = s.wanted ++ addrs a n.toNat ∧ s.moved <+: s'.moved := by
  simp only [Stream.step, WriteFifo.startEmpty, Option.map_eq_some_iff, Option.ite_none_right_eq_some] at hs
  obtain ⟨f, ⟨hend, hf⟩, rfl⟩ := hs
  cases hf
  have hstart : Streaming cfg { s with fifo := { s.fifo with
      nextAddr := a, endAddr := a + n, log := s.fifo.log ++ [.block a n] } } := h.startEmpty hend
  obtain ⟨ws, hlog, hws, hretired⟩ := resumeEmpty_log cfg _ hstart.pending
  have hwrites : writes (s.fifo.log ++ [Action.block a n]) = writes s.fifo.log := by
    rw [writes_append]
    rfl
  have hlog' := hlog.trans (List.append_assoc ..)
  refine ⟨?_, moved_prefix hlog' ?_⟩
  · refine (congrArg wantedOf hlog).trans ?_
    rw [wantedOf_append, hws, List.append_nil, wantedOf_append]
    simp [wantedOf, wanted]
  · refine Nat.le_trans ?_ (Nat.le_of_eq hretired.symm)
    rw [hwrites]
    exact Nat.le_refl _

theorem start_wanted : s'.wanted = s.wanted ++ addrs a n.toNat := (start_spec h hs).1

theorem start_moved : s.moved <+: s'.moved := (start_spec h hs).2

end

end Stream

/-- The FIFO of the write side. -/
def writeMover (cfg : FifoConfig) : Mover Stream where
  isActive s := s.fifo.isActive
  start a n s := s.step cfg (.startEmpty a n)
  wanted s := s.wanted
  moved s := s.moved
  Good := Stream.Streaming cfg
  start_isSome := Stream.start_isSome
  start_good := Stream.Streaming.step
  start_wanted := Stream.start_wanted
  start_moved := Stream.start_moved
  idle := Stream.Streaming.idle

end Salam.Dma
