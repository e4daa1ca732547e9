import Salam.Dma.Fifo

/-!
# `NoncoherentDma`

A device that copies `LEN` bytes of memory from `SRC` to `DST`. It reads through one of two `DmaReadFifo`s and writes
through one of two `DmaWriteFifo`s, and `tick` moves the bytes from the one to the other. Software starts it by setting
bit `0` of `FLAGS`, and sees it running and done in bits `1` and `2`.

`tick` samples the start bit at its top only, and schedules the next tick only while a transfer is running. The tick
that finds a transfer finished does neither, so a start bit that is set by then is left alone until some register is
written (`startSeen_step_iff`).
-/

namespace Salam.Dma

/-- The ports on the two sides of the device. -/
inductive Side
  | memSide
  | accSide
  deriving DecidableEq

/-- The parameters; `accPort` tells the addresses that `accPort.getAddrRanges()` contains. -/
structure Config where
  bufferSize : Nat
  maxPending : Nat
  maxReqSize : Nat
  accPort : Word → Bool

def Config.fifo (cfg : Config) : FifoConfig := ⟨cfg.maxReqSize, cfg.bufferSize / 2, cfg.maxPending⟩

abbrev Memory := Word → Byte

/-- The bytes that a read of memory returns. -/
def readBytes (mem : Memory) (a : Word) (n : Nat) : List Byte := (List.range n).map fun i => mem (a + BitVec.ofNat 64 i)

def writeBytes (mem : Memory) (a : Word) (data : List Byte) : Memory :=
  fun x => (data[(x - a).toNat]?).getD (mem x)

/-- `n` bytes of the registers, the lowest first. -/
def littleEndian (mmreg : Nat → Byte) : Nat → Nat → Nat
  | _, 0 => 0
  | offset, n + 1 => (mmreg offset).toNat + 256 * littleEndian mmreg (offset + 1) n

/-- The device and the memory behind its ports. `tickEvent` tells whether the event is scheduled. `origin` and `length`
are the memory and the register `LEN` when the transfer started; they are not in the source, and no function reads
them. -/
structure Device where
  mmreg : Nat → Byte
  last_flag : Byte
  activeSrc : Word
  activeDst : Word
  writesLeft : Int
  running : Bool
  tickEvent : Bool
  interrupt : Bool
  readFifo : Option Side
  writeFifo : Option Side
  reads : Side → ReadFifo
  writes : Side → WriteFifo
  mem : Memory
  origin : Memory
  length : Int

namespace Device

def FLAGS (s : Device) : Byte := s.mmreg 0

def SRC (s : Device) : Word := BitVec.ofNat 64 (littleEndian s.mmreg 1 8)

def DST (s : Device) : Word := BitVec.ofNat 64 (littleEndian s.mmreg 9 8)

def LEN (s : Device) : Int := (BitVec.ofNat 32 (littleEndian s.mmreg 17 4)).toInt

def setFlags (s : Device) (flags : Byte) : Device := { s with mmreg := Function.update s.mmreg 0 flags }

def startBit (s : Device) : Bool := s.FLAGS &&& 0x01 = 0x01

def getActiveReadFifo (cfg : Config) (s : Device) : Side := if cfg.accPort s.activeSrc then .accSide else .memSide

def getActiveWriteFifo (cfg : Config) (s : Device) : Side := if cfg.accPort s.activeDst then .accSide else .memSide

/-- The FIFOs start on the transfer. -/
def startFifos (cfg : Config) (s : Device) (r w : Side) : Option Device :=
  match (s.reads r).startFill cfg.fifo s.activeSrc (BitVec.ofInt 64 s.writesLeft),
    (s.writes w).startEmpty cfg.fifo s.activeDst (BitVec.ofInt 64 s.writesLeft) with
  | some rf, some wf => some { s with
      readFifo := some r
      writeFifo := some w
      reads := Function.update s.reads r rf
      writes := Function.update s.writes w wf }
  | _, _ => none

/-- The first part of `tick`: a transfer starts, if the start bit is set and none is running. -/
def begin (cfg : Config) (s : Device) : Option Device :=
  if !s.running && s.startBit then
    let s := s.setFlags ((s.FLAGS &&& 0xFE) ||| 0x02)
    let s := { s with
      running := true
      activeSrc := s.SRC
      activeDst := s.DST
      writesLeft := s.LEN
      origin := s.mem
      length := s.LEN }
    s.startFifos cfg (s.getActiveReadFifo cfg) (s.getActiveWriteFifo cfg)
  else some s

def clearInt (s : Device) : Device :=
  if s.last_flag &&& 0x04 = 0x04 ∧ s.FLAGS &&& 0x04 ≠ 0x04 then { s with interrupt := false } else s

/-- A chunk goes from one FIFO to the other. -/
def move (cfg : Config) (s : Device) (r w : Side) : Option Device :=
  let toWrite := min cfg.maxReqSize s.writesLeft.toNat
  if (s.writes w).canFill cfg.fifo toWrite then
    match (s.reads r).tryGet cfg.fifo toWrite with
    | none => some s
    | some (rf, data) =>
      match (s.writes w).tryFill cfg.fifo data with
      | (_, false) => none
      | (wf, true) => some { s with
          reads := Function.update s.reads r rf
          writes := Function.update s.writes w wf
          writesLeft := s.writesLeft - toWrite }
  else some s

/-- The transfer is done. -/
def finish (s : Device) : Device :=
  let s := { s with running := false }
  { s.setFlags ((s.FLAGS &&& 0xFD) ||| 0x04) with interrupt := true }

/-- The last part of `tick`, for a running transfer. -/
def transfer (cfg : Config) (s : Device) : Option Device :=
  if s.running then
    match s.readFifo, s.writeFifo with
    | some r, some w =>
      if s.writesLeft > 0 then s.move cfg r w
      else if !(s.writes w).isActive then some s.finish
      else some s
    | _, _ => none
  else some s

/-- `tick`; nothing if an assertion fails. -/
def tick (cfg : Config) (s : Device) : Option Device :=
  (s.begin cfg).bind fun s => (s.clearInt.transfer cfg).map fun s =>
    { s with last_flag := s.FLAGS, tickEvent := s.tickEvent || s.running }

/-- `write`: software writes the registers. -/
def write (s : Device) (offset : Nat) (data : List Byte) : Device :=
  { s with
    mmreg := fun i => if offset ≤ i then (data[i - offset]?).getD (s.mmreg i) else s.mmreg i
    tickEvent := true }

/-- The constructor leaves `last_flag` and the fields of the transfer unset; only the first is read before it is set. -/
def start (cfg : Config) (last_flag : Byte) (mem : Memory) : Device where
  mmreg := fun _ => 0
  last_flag := last_flag
  activeSrc := 0
  activeDst := 0
  writesLeft := 0
  running := false
  tickEvent := false
  interrupt := false
  readFifo := none
  writeFifo := none
  reads := fun _ => .start cfg.fifo
  writes := fun _ => .start cfg.fifo
  mem := mem
  origin := mem
  length := 0

end Device

/-- A register write, the tick, or the end of a request: the one at place `i` of the pending requests of a FIFO. -/
inductive DmaEv
  | write (offset : Nat) (data : List Byte)
  | tick
  | readDone (side : Side) (i : Nat)
  | writeDone (side : Side) (i : Nat)
  deriving DecidableEq

/-- One event. A request reads or writes memory when it completes. -/
def Device.step (cfg : Config) (s : Device) : DmaEv → Option Device
  | .write offset data => some (s.write offset data)
  | .tick => if s.tickEvent then { s with tickEvent := false }.tick cfg else none
  | .readDone side i =>
    match (s.reads side).pendingRequests[i]? with
    | some r =>
      if r.done then none
      else some { s with
        reads := Function.update s.reads side ((s.reads side).process cfg.fifo i (readBytes s.mem r.addr r.size)) }
    | none => none
  | .writeDone side i =>
    match (s.writes side).pendingRequests[i]? with
    | some r =>
      if r.done then none
      else some { s with
        mem := writeBytes s.mem r.addr r.data
        writes := Function.update s.writes side ((s.writes side).process cfg.fifo i) }
    | none => none

/-- The runs of the device. -/
def device (cfg : Config) : System Device DmaEv where
  init s := ∃ last_flag mem, s = .start cfg last_flag mem
  step := Device.step cfg

namespace Device

/-! ## Starts -/

/-- The running transfer is done, and the next tick finds out. -/
def finished (s : Device) : Bool :=
  s.running && s.writesLeft ≤ 0 && s.writeFifo.any fun w => !(s.writes w).isActive

/-- A start bit that waits for a transfer is seen by a tick. -/
def StartSeen (s : Device) : Prop := s.startBit = true → s.running = false → s.tickEvent = true

/-- No tick finds a transfer finished while the start bit is set. -/
def keepsStart (s : Device) : DmaEv → Bool
  | .tick => !(s.finished && s.startBit)
  | _ => true

section Starts

variable {cfg : Config} {s s' : Device}

theorem and_one_of_started (flags : Byte) : ((flags &&& 0xFE) ||| 0x02) &&& 0x01 ≠ (0x01 : Byte) := by
  revert flags
  decide

theorem and_one_of_finished (flags : Byte) : ((flags &&& 0xFD) ||| 0x04) &&& 0x01 = flags &&& 0x01 := by
  revert flags
  decide

theorem and_four_of_finished (flags : Byte) : ((flags &&& 0xFD) ||| 0x04) &&& 0x04 = (0x04 : Byte) := by
  revert flags
  decide

@[simp] theorem FLAGS_setFlags (s : Device) (flags : Byte) : (s.setFlags flags).FLAGS = flags := by
  simp [FLAGS, setFlags]

theorem FLAGS_finish (s : Device) : s.finish.FLAGS = (s.FLAGS &&& 0xFD) ||| 0x04 :=
  FLAGS_setFlags s _

theorem startFifos_frame {r w : Side} (h : s.startFifos cfg r w = some s') :
    s'.mmreg = s.mmreg ∧ s'.running = s.running ∧ s'.tickEvent = s.tickEvent := by
  unfold startFifos at h
  split at h
  · cases h
    exact ⟨rfl, rfl, rfl⟩
  · cases h

/-- A transfer that starts clears the start bit. -/
theorem begin_cases (h : s.begin cfg = some s') :
    (s.running = false ∧ s.startBit = true) ∧ s'.running = true ∧ s'.startBit = false ∧ s'.tickEvent = s.tickEvent ∨
    ¬(s.running = false ∧ s.startBit = true) ∧ s' = s := by
  unfold begin at h
  split at h
  · rename_i hstart
    obtain ⟨hreg, hrun, htick⟩ := startFifos_frame h
    simp only [Bool.and_eq_true, Bool.not_eq_true'] at hstart
    refine .inl ⟨hstart, hrun, ?_, htick⟩
    have hflags : s'.FLAGS = (s.FLAGS &&& 0xFE) ||| 0x02 := by
      have hreg' : s'.mmreg = (s.setFlags ((s.FLAGS &&& 0xFE) ||| 0x02)).mmreg := hreg
      rw [FLAGS, hreg']
      exact FLAGS_setFlags s _
    rw [startBit, hflags]
    exact decide_eq_false (and_one_of_started _)
  · rename_i hstart
    simp only [Bool.and_eq_true, Bool.not_eq_true'] at hstart
    cases h
    exact .inr ⟨hstart, rfl⟩

theorem clearInt_frame (s : Device) : ∃ b, s.clearInt = { s with interrupt := b } := by
  unfold clearInt
  split
  · exact ⟨false, rfl⟩
  · exact ⟨s.interrupt, rfl⟩

theorem move_frame {r w : Side} (h : s.move cfg r w = some s') :
    s'.mmreg = s.mmreg ∧ s'.running = s.running ∧ s'.tickEvent = s.tickEvent := by
  unfold move at h
  dsimp only at h
  split at h
  · split at h
    · cases h
      exact ⟨rfl, rfl, rfl⟩
    · split at h <;> cases h
      exact ⟨rfl, rfl, rfl⟩
  · cases h
    exact ⟨rfl, rfl, rfl⟩

/-- The rest of the tick keeps the start bit, and stops a finished transfer. -/
theorem transfer_frame (h : s.transfer cfg = some s') :
    s'.startBit = s.startBit ∧ s'.running = (s.running && !s.finished) ∧ s'.tickEvent = s.tickEvent := by
  unfold transfer at h
  split at h
  · rename_i hrun
    split at h
    · rename_i r w hr hw
      have hfinished : s.finished = (decide (s.writesLeft ≤ 0) && !(s.writes w).isActive) := by
        simp [finished, hrun, hw]
      rw [hfinished, hrun]
      split at h
      · rename_i hleft
        obtain ⟨hreg, hrun', htick⟩ := move_frame h
        have hnot : decide (s.writesLeft ≤ 0) = false := decide_eq_false (by omega)
        refine ⟨?_, ?_, htick⟩
        · rw [startBit, FLAGS, hreg]
          rfl
        · rw [hrun', hrun, hnot]
          rfl
      · rename_i hleft
        have hle : decide (s.writesLeft ≤ 0) = true := decide_eq_true (by omega)
        rw [hle]
        split at h
        · rename_i hidle
          cases h
          refine ⟨?_, ?_, rfl⟩
          · rw [startBit, FLAGS_finish, and_one_of_finished]
            rfl
          · rw [hidle]
            rfl
        · rename_i hactive
          cases h
          rw [Bool.not_eq_true', Bool.not_eq_false] at hactive
          refine ⟨rfl, ?_, rfl⟩
          rw [hrun, hactive]
          rfl
    · cases h
  · rename_i hrun
    cases h
    refine ⟨rfl, ?_, rfl⟩
    rw [Bool.not_eq_true] at hrun
    rw [hrun]
    rfl

/-- A tick leaves a start bit unseen if and only if it finds a transfer finished. -/
theorem startSeen_tick_iff (h : tick cfg { s with tickEvent := false } = some s') :
    StartSeen s' ↔ ¬(s.finished = true ∧ s.startBit = true) := by
  obtain ⟨s₁, h₁, h₂⟩ := Option.bind_eq_some_iff.mp h
  obtain ⟨s₂, h₃, rfl⟩ := Option.map_eq_some_iff.mp h₂
  obtain ⟨b, hclear⟩ := clearInt_frame s₁
  rw [hclear] at h₃
  obtain ⟨hbit, hrun, htick⟩ := transfer_frame h₃
  show (s₂.startBit = true → s₂.running = false → (s₂.tickEvent || s₂.running) = true) ↔ _
  rcases begin_cases h₁ with ⟨⟨hidle, -⟩, -, hclean, -⟩ | ⟨hnot, rfl⟩
  · have h₄ : s₂.startBit = false := hbit.trans hclean
    have hfin : s.finished = false := by
      have : s.running = false := hidle
      simp [finished, this]
    rw [h₄, hfin]
    simp
  · have h₄ : s₂.startBit = s.startBit := hbit
    have h₅ : s₂.running = (s.running && !s.finished) := hrun
    have h₆ : s₂.tickEvent = false := htick
    have hnot' : ¬(s.running = false ∧ s.startBit = true) := hnot
    rw [h₄, h₅, h₆]
    cases hr : s.running
    · have hbit₀ : s.startBit = false := by simpa [hr] using hnot'
      rw [hbit₀]
      simp
    · cases s.finished <;> simp

theorem startSeen_step_iff {e : DmaEv} (hs : StartSeen s) (h : s.step cfg e = some s') :
    StartSeen s' ↔ s.keepsStart e = true := by
  cases e with
  | write offset data =>
    cases h
    exact iff_of_true (fun _ _ => rfl) rfl
  | tick =>
    simp only [step, Option.ite_none_right_eq_some] at h
    rw [startSeen_tick_iff h.2]
    simp only [keepsStart, Bool.not_eq_true', Bool.and_eq_false_iff, not_and_or, Bool.not_eq_true]
  | readDone side i =>
    simp only [step] at h
    split at h
    · simp only [Option.ite_none_left_eq_some] at h
      cases h.2
      exact iff_of_true hs rfl
    · cases h
  | writeDone side i =>
    simp only [step] at h
    split at h
    · simp only [Option.ite_none_left_eq_some] at h
      cases h.2
      exact iff_of_true hs rfl
    · cases h

/-- **Starts**: in runs in which no tick finds a transfer finished while the start bit is set, a tick is scheduled
whenever a start bit waits for one, and only a step that does not meet the condition leaves a start bit behind. -/
theorem startSeen_of_reachable (h : (device cfg).ReachableWhen (fun s e => s.keepsStart e = true) s) :
    StartSeen s ∧ ∀ e s', (device cfg).step s e = some s' → (StartSeen s' ↔ s.keepsStart e = true) := by
  have hs : StartSeen s := by
    refine System.invariantWhen (I := StartSeen) ?_ ?_ h
    · rintro s ⟨flag, mem, rfl⟩ hbit
      simp [start, startBit, FLAGS] at hbit
    · intro s e s' _ hs hC hstep
      exact (startSeen_step_iff hs hstep).mpr hC
  exact ⟨hs, fun e s' hstep => startSeen_step_iff hs hstep⟩

end Starts

/-- One-byte requests, and an accelerator port that reaches nothing. -/
def demo : Config where
  bufferSize := 8
  maxPending := 2
  maxReqSize := 1
  accPort := fun _ => false

/-- Software asks for a copy of one byte from address `16` to address `32`. -/
def copyOne : List DmaEv :=
  [.write 0 [0x01, 16, 0, 0, 0, 0, 0, 0, 0, 32, 0, 0, 0, 0, 0, 0, 0, 1, 0, 0, 0], .tick, .readDone .memSide 0, .tick,
    .writeDone .memSide 0]

theorem startSeen_of_copy : ∃ s : Device, s.finished = true ∧ StartSeen s := by
  obtain ⟨s, hs, hfin⟩ := System.reachableWhen_of_replay (S := device demo) (C := keepsStart)
    (show (device demo).init (start demo 0 fun _ => 0) from ⟨0, fun _ => 0, rfl⟩) copyOne
    (fun s => s.finished = true) (by decide)
  exact ⟨s, hfin, (startSeen_of_reachable hs).1⟩

/-- Software sets the start bit again while the byte is copied, and no tick comes to see it. -/
theorem not_startSeen_after_copy : ∃ s, (device demo).Reachable s ∧ ¬StartSeen s := by
  obtain ⟨s, hs, hbit, hrun, htick⟩ := System.reachable_of_replay (S := device demo)
    (show (device demo).init (start demo 0 fun _ => 0) from ⟨0, fun _ => 0, rfl⟩)
    (copyOne ++ [.write 0 [0x01], .tick])
    (fun s => s.startBit = true ∧ s.running = false ∧ s.tickEvent = false) (by decide)
  refine ⟨s, hs, fun hseen => ?_⟩
  rw [hseen hbit hrun] at htick
  cases htick

end Device

end Salam.Dma
