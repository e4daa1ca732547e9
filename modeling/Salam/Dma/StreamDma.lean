import Salam.Dma.Frames

/-!
# `StreamDma`

`StreamDma` reads frames from memory into a stream and writes frames from a stream to memory, both in one `tick`.

* `tick_halves`: in a tick each side moves by itself.
* `frame_walk`: the frames, the end of the transfer and the interrupts.
-/

namespace Salam.Dma

open Option (bind_eq_some_iff bind_some ite_none_right_eq_some map_eq_some_iff)

/-! ## The device -/

structure StreamConfig where
  pioSize : Nat
  rdBufferSize : Nat
  wrBufferSize : Nat
  maxPending : Nat
  maxReqSize : Nat
  deriving DecidableEq

def StreamConfig.readFifo (cfg : StreamConfig) : FifoConfig := ⟨cfg.maxReqSize, cfg.rdBufferSize, cfg.maxPending⟩

def StreamConfig.writeFifo (cfg : StreamConfig) : FifoConfig := ⟨cfg.maxReqSize, cfg.wrBufferSize, cfg.maxPending⟩

/-- The end of the registers, `BUFFER_ACCESS_OFF`. -/
def BUFFER_ACCESS_OFF : Nat := 32

/-- The device; `tickEvent` tells whether the event is scheduled. -/
structure StreamDma where
  mmreg : Mmreg
  rd : Half Fill
  wr : Half Stream
  tickEvent : Bool

namespace StreamDma

/-- The constructor leaves the fields of the transfer unset; they are set before they are read. -/
def start (cfg : StreamConfig) (mmreg : Mmreg) : StreamDma where
  mmreg := mmreg
  rd := ⟨false, ⟨0, 0, 0, 0, 0⟩, 0, 0, false, .start cfg.readFifo, [], 0, []⟩
  wr := ⟨false, ⟨0, 0, 0, 0, 0⟩, 0, 0, false, .start cfg.writeFifo, [], 0, []⟩
  tickEvent := false

def tick (cfg : StreamConfig) (s : StreamDma) : Option StreamDma := do
  let (mmreg, rd) ← s.rd.start (readMover cfg.readFifo) .rd s.mmreg
  let (mmreg, wr) ← s.wr.start (writeMover cfg.writeFifo) .wr mmreg
  let (mmreg', rd) ← (rd.clearInt .rd mmreg).advance (readMover cfg.readFifo) .rd mmreg
  let (mmreg', wr) ← (wr.clearInt .wr mmreg).advance (writeMover cfg.writeFifo) .wr mmreg'
  return ⟨mmreg', rd, wr, s.tickEvent || rd.running || wr.running⟩

/-- `readFifo->get`; nothing if it panics. -/
def get (cfg : StreamConfig) (s : StreamDma) (len : Nat) : Option (StreamDma × List Byte) :=
  if len ≤ s.rd.fifo.fifo.buffer.length then
    (s.rd.fifo.step cfg.readFifo (.tryGet len)).map fun fifo =>
      ({ s with rd := { s.rd with fifo := fifo } }, s.rd.fifo.fifo.buffer.take len)
  else none

/-- `writeFifo->fill`; nothing if it panics. -/
def fill (cfg : StreamConfig) (s : StreamDma) (data : List Byte) : Option StreamDma :=
  if s.wr.fifo.fifo.canFill cfg.writeFifo data.length then
    (s.wr.fifo.step cfg.writeFifo (.tryFill data)).map fun fifo => { s with wr := { s.wr with fifo := fifo } }
  else none

/-- `read`, with the data of the response; nothing if it panics. -/
def read (cfg : StreamConfig) (s : StreamDma) (offset size : Nat) : Option (StreamDma × List Byte) :=
  if offset < BUFFER_ACCESS_OFF then
    if size ∈ [1, 2, 4] then some ({ s with tickEvent := true },
      (List.range size).map fun i => s.mmreg (offset + i)) else none
  else if size ∈ [1, 2, 4, 8] then (s.get cfg size).map fun (s, data) => ({ s with tickEvent := true }, data)
  else none

/-- `write`; a write of the registers stays in them. -/
def write (cfg : StreamConfig) (s : StreamDma) (offset : Nat) (data : List Byte) : Option StreamDma :=
  if offset < BUFFER_ACCESS_OFF then
    if offset + data.length ≤ BUFFER_ACCESS_OFF then
      some { s with
        mmreg := fun i => if offset ≤ i then (data[i - offset]?).getD (s.mmreg i) else s.mmreg i
        tickEvent := true }
    else none
  else (s.fill cfg data).map fun s => { s with tickEvent := true }

def streamRead (cfg : StreamConfig) (s : StreamDma) (size : Nat) : Option (StreamDma × List Byte) :=
  if size ∈ [1, 2, 4, 8] then s.get cfg size else none

def streamWrite (cfg : StreamConfig) (s : StreamDma) (data : List Byte) : Option StreamDma := s.fill cfg data

end StreamDma

/-- An access of software or of a stream, the tick, or the end of a request: the one at place `i` of the pending
requests of a FIFO, which has read `data`. -/
inductive StreamDmaEv
  | read (offset size : Nat)
  | write (offset : Nat) (data : List Byte)
  | streamRead (size : Nat)
  | streamWrite (data : List Byte)
  | tick
  | readDone (i : Nat) (data : List Byte)
  | writeDone (i : Nat)
  deriving DecidableEq

def StreamDma.step (cfg : StreamConfig) (s : StreamDma) : StreamDmaEv → Option StreamDma
  | .read offset size => (s.read cfg offset size).map Prod.fst
  | .write offset data => s.write cfg offset data
  | .streamRead size => (s.streamRead cfg size).map Prod.fst
  | .streamWrite data => s.streamWrite cfg data
  | .tick => if s.tickEvent then { s with tickEvent := false }.tick cfg else none
  | .readDone i data => (s.rd.fifo.step cfg.readFifo (.process i data)).map fun fifo =>
    { s with rd := { s.rd with fifo := fifo } }
  | .writeDone i => (s.wr.fifo.step cfg.writeFifo (.process i)).map fun fifo =>
      { s with wr := { s.wr with fifo := fifo } }

/-- The runs of the device; the constructor clears the registers that the device has. -/
def streamDma (cfg : StreamConfig) : System StreamDma StreamDmaEv where
  init s := ∃ mmreg, (∀ i < cfg.pioSize, mmreg i = 0) ∧ s = .start cfg mmreg
  step := StreamDma.step cfg

/-! ## The tick -/

namespace StreamDma

variable {cfg : StreamConfig} {s s' : StreamDma}

theorem Half.clearInt_congr {φ : Type} {h : Half φ} {m : RegMap} {r r' : Mmreg}
    (hr : r'.flag m.INT_MASK = r.flag m.INT_MASK) :
    h.clearInt m r' = h.clearInt m r := by
  rw [Half.clearInt, hr, Half.clearInt]

/-- What a tick does: each side makes its own turn, the running bit of a side goes out with its last frame, no start bit
is set, and the next tick is scheduled while a side is running. -/
structure Ticked (cfg : StreamConfig) (s s' : StreamDma) : Prop where
  rd : s.rd.turn (readMover cfg.readFifo) .rd s.mmreg = some s'.rd
  wr : s.wr.turn (writeMover cfg.writeFifo) .wr s.mmreg = some s'.wr
  rd_running : s.mmreg.flag RegMap.rd.RUNNING_MASK = true → s'.mmreg.flag RegMap.rd.RUNNING_MASK = true ∨
    s'.rd.running = false ∧ 0 < s'.rd.finished
  wr_running : s.mmreg.flag RegMap.wr.RUNNING_MASK = true → s'.mmreg.flag RegMap.wr.RUNNING_MASK = true ∨
    s'.wr.running = false ∧ 0 < s'.wr.finished
  starts : ∀ m ∈ [RegMap.rd, RegMap.wr], s'.mmreg.flag m.START_MASK = true → s.mmreg.flag m.START_MASK = true
  mmreg : ∀ i, i ≠ 0 → s'.mmreg i = s.mmreg i
  tickEvent : s'.tickEvent = (s.tickEvent || s'.rd.running || s'.wr.running)

theorem tick_halves (hs : s.tick cfg = some s') : Ticked cfg s s' := by
  simp only [tick, bind, bind_eq_some_iff, Prod.exists] at hs
  obtain ⟨r₁, rd₁, hrd₁, r₂, wr₁, hwr₁, r₃, rd₂, hrd₂, r₄, wr₂, hwr₂, hs⟩ := hs
  obtain rfl := Option.some.inj hs
  obtain ⟨hrd, hw₁, hint₁, hrun₁, hstart₁⟩ := Half.start_spec RegMap.separate_rd hrd₁
  obtain ⟨hwr, hw₂, hint₂, hrun₂, hstart₂⟩ := Half.start_spec RegMap.separate_wr hwr₁
  obtain ⟨hrd', hw₃, hrun₃, hstart₃⟩ := Half.advance_spec RegMap.separate_rd hrd₂
  obtain ⟨hwr', hw₄, hrun₄, hstart₄⟩ := Half.advance_spec RegMap.separate_wr hwr₂
  have hstart : r₁.flag RegMap.wr.START_MASK = s.mmreg.flag RegMap.wr.START_MASK := hw₁.flag (by decide)
  have hrdInt : r₂.flag RegMap.rd.INT_MASK = s.mmreg.flag RegMap.rd.INT_MASK := (hw₂.flag (by decide)).trans hint₁
  have hwrInt : r₂.flag RegMap.wr.INT_MASK = s.mmreg.flag RegMap.wr.INT_MASK := hint₂.trans (hw₁.flag (by decide))
  refine ⟨?_, ?_, fun hrun => ?_, fun hrun => ?_, fun m hm hbit => ?_, ?_, rfl⟩
  · refine bind_eq_some_iff.mpr ⟨rd₁, hrd, ?_⟩
    rw [← Half.clearInt_congr hrdInt]
    exact hrd'
  · rw [hstart, hw₁.programming RegMap.separate_wr] at hwr
    refine bind_eq_some_iff.mpr ⟨wr₁, hwr, ?_⟩
    rw [← Half.clearInt_congr hwrInt]
    exact hwr'
  · have hrd₂ : r₂.flag RegMap.rd.RUNNING_MASK = true := (hw₂.flag (by decide)).trans (hrun₁ hrun)
    have hkeep : r₄.flag RegMap.rd.RUNNING_MASK = r₃.flag RegMap.rd.RUNNING_MASK := hw₄.flag (by decide)
    rw [hkeep]
    exact hrun₃ hrd₂
  · have hwr₂ : r₂.flag RegMap.wr.RUNNING_MASK = true := hrun₂ ((hw₁.flag (by decide)).trans hrun)
    exact hrun₄ ((hw₃.flag (by decide)).trans hwr₂)
  · replace hbit : r₄.flag m.START_MASK = true := hbit
    simp only [List.mem_cons, List.not_mem_nil, or_false] at hm
    rcases hm with rfl | rfl
    · have hrd₄ : r₄.flag RegMap.rd.START_MASK = r₃.flag RegMap.rd.START_MASK := hw₄.flag (by decide)
      have hrd₂ : r₂.flag RegMap.rd.START_MASK = r₁.flag RegMap.rd.START_MASK := hw₂.flag (by decide)
      rw [hrd₄, hstart₃, hrd₂] at hbit
      exact hstart₁ hbit
    · have hwr₃ : r₃.flag RegMap.wr.START_MASK = r₂.flag RegMap.wr.START_MASK := hw₃.flag (by decide)
      rw [hstart₄, hwr₃] at hbit
      rw [← hstart]
      exact hstart₂ hbit
  · intro i hi
    show r₄ i = s.mmreg i
    rw [hw₄.other i hi, hw₃.other i hi, hw₂.other i hi, hw₁.other i hi]

/-- Where both sides stand. -/
structure Walk (cfg : StreamConfig) (s : StreamDma) : Prop where
  rd : s.rd.Walking (readMover cfg.readFifo)
  wr : s.wr.Walking (writeMover cfg.writeFifo)
  tickEvent : (s.rd.running || s.wr.running) = true → s.tickEvent = true

theorem Walk.rearm (h : Walk cfg s) : Walk cfg { s with tickEvent := true } := ⟨h.rd, h.wr, fun _ => rfl⟩

theorem Walk.readFifo {e : FillEv} {f : Fill} (h : Walk cfg s) (hs : s.rd.fifo.step cfg.readFifo e = some f)
    (he : (∃ len, e = .tryGet len) ∨ ∃ i data, e = .process i data) :
      Walk cfg { s with rd := { s.rd with fifo := f } } := by
  obtain ⟨hwanted, hmoved⟩ := Fill.step_moved hs he
  exact ⟨h.rd.fifo (Fill.Filling.step h.rd.good hs) (Fill.step_idle hs he) hwanted hmoved, h.wr, h.tickEvent⟩

/-- The write FIFO makes a step of its own. -/
theorem Walk.writeFifo {e : StreamEv} {f : Stream} (h : Walk cfg s) (hs : s.wr.fifo.step cfg.writeFifo e = some f)
    (he : (∃ src, e = .tryFill src) ∨ ∃ i, e = .process i) : Walk cfg { s with wr := { s.wr with fifo := f } } := by
  obtain ⟨hwanted, hmoved⟩ := Stream.step_moved h.wr.good hs he
  exact ⟨h.rd, h.wr.fifo (Stream.Streaming.step h.wr.good hs) (Stream.step_idle hs he) hwanted hmoved, h.tickEvent⟩

theorem Walk.get {len : Nat} {data : List Byte} (h : Walk cfg s) (hs : s.get cfg len = some (s', data)) :
    Walk cfg s' := by
  simp only [StreamDma.get, ite_none_right_eq_some, map_eq_some_iff] at hs
  obtain ⟨-, f, hf, heq⟩ := hs
  cases heq
  exact h.readFifo hf (.inl ⟨len, rfl⟩)

theorem Walk.fill {data : List Byte} (h : Walk cfg s) (hs : s.fill cfg data = some s') : Walk cfg s' := by
  simp only [StreamDma.fill, ite_none_right_eq_some, map_eq_some_iff] at hs
  obtain ⟨-, f, hf, rfl⟩ := hs
  exact h.writeFifo hf (.inl ⟨data, rfl⟩)

theorem Walk.tick (h : Walk cfg s) (hs : { s with tickEvent := false }.tick cfg = some s') : Walk cfg s' := by
  have ht := tick_halves hs
  refine ⟨h.rd.turn ht.rd, h.wr.turn ht.wr, fun hrun => ?_⟩
  rw [ht.tickEvent]
  exact hrun

theorem Walk.step {e : StreamDmaEv} (h : Walk cfg s) (hs : s.step cfg e = some s') : Walk cfg s' := by
  cases e with
  | read offset size =>
    obtain ⟨⟨s₁, data⟩, hread, rfl⟩ := map_eq_some_iff.mp hs
    unfold StreamDma.read at hread
    split at hread
    · obtain ⟨-, heq⟩ := ite_none_right_eq_some.mp hread
      cases heq
      exact h.rearm
    · obtain ⟨-, heq⟩ := ite_none_right_eq_some.mp hread
      obtain ⟨⟨s₂, data'⟩, hget, heq⟩ := map_eq_some_iff.mp heq
      cases heq
      exact (h.get hget).rearm
  | write offset data =>
    simp only [StreamDma.step, StreamDma.write] at hs
    split at hs
    · obtain ⟨-, heq⟩ := ite_none_right_eq_some.mp hs
      cases heq
      exact ⟨h.rd, h.wr, fun _ => rfl⟩
    · obtain ⟨s₂, hfill, rfl⟩ := map_eq_some_iff.mp hs
      exact (h.fill hfill).rearm
  | streamRead size =>
    obtain ⟨⟨s₁, data⟩, hread, rfl⟩ := map_eq_some_iff.mp hs
    obtain ⟨-, hget⟩ := ite_none_right_eq_some.mp hread
    exact h.get hget
  | streamWrite data => exact h.fill hs
  | tick =>
    obtain ⟨-, htick⟩ := ite_none_right_eq_some.mp hs
    exact h.tick htick
  | readDone i data =>
    obtain ⟨f, hf, rfl⟩ := map_eq_some_iff.mp hs
    exact h.readFifo hf (.inr ⟨i, data, rfl⟩)
  | writeDone i =>
    obtain ⟨f, hf, rfl⟩ := map_eq_some_iff.mp hs
    exact h.writeFifo hf (.inr ⟨i, rfl⟩)

theorem walking_start {φ : Type} {M : Mover φ} {f : φ} (hgood : M.Good f) (hidle : M.isActive f = false)
    (hwanted : M.wanted f = []) : Half.Walking M ⟨false, ⟨0, 0, 0, 0, 0⟩, 0, 0, false, f, [], 0, []⟩ where
  good := hgood
  still _ := hidle
  frames := rfl
  count := rfl
  running hrun := by cases hrun
  stopped _ := ⟨rfl, .inl rfl⟩
  raised := rfl
  moved := ⟨[], hwanted, List.nil_prefix⟩

theorem walk_of_reachable (h : (streamDma cfg).Reachable s) : Walk cfg s := by
  refine System.invariantWhen (I := Walk cfg) ?_ ?_ h
  · rintro _ ⟨mmreg, -, rfl⟩
    have hrd : (readMover cfg.readFifo).isActive (Fill.start cfg.readFifo) = false := by
      simp [readMover, Fill.start, ReadFifo.start, ReadFifo.isActive, ReadFifo.atEndOfBlock]
    have hwr : (writeMover cfg.writeFifo).isActive (Stream.start cfg.writeFifo) = false := by
      simp [writeMover, Stream.start, WriteFifo.start, WriteFifo.isActive, WriteFifo.atEndOfBlock]
    refine ⟨walking_start Fill.filling_start hrd rfl, walking_start Stream.streaming_start hwr rfl, fun hrun => ?_⟩
    cases hrun
  · intro s e s' _ hw _ hs
    exact hw.step hs

/-- A tick fails in an assertion only if a side has no frame buffers. -/
theorem tick_isSome (hrw : s.rd.Walking (readMover cfg.readFifo)) (hww : s.wr.Walking (writeMover cfg.writeFifo))
    (hrd : s.rd.Buffered .rd s.mmreg) (hwr : s.wr.Buffered .wr s.mmreg) : (s.tick cfg).isSome := by
  obtain ⟨rd, hturn⟩ := Option.isSome_iff_exists.mp (hrw.turn_isSome hrd)
  obtain ⟨wr, hturn'⟩ := Option.isSome_iff_exists.mp (hww.turn_isSome hwr)
  obtain ⟨rd₁, hbegin, hproceed⟩ := bind_eq_some_iff.mp hturn
  obtain ⟨wr₁, hbegin', hproceed'⟩ := bind_eq_some_iff.mp hturn'
  obtain ⟨r₁, hrd₁⟩ := Half.exists_start RegMap.separate_rd hbegin
  obtain ⟨-, hw₁, hint₁, -, -⟩ := Half.start_spec RegMap.separate_rd hrd₁
  have hstart : r₁.flag RegMap.wr.START_MASK = s.mmreg.flag RegMap.wr.START_MASK := hw₁.flag (by decide)
  rw [← hstart, ← hw₁.programming RegMap.separate_wr] at hbegin'
  obtain ⟨r₂, hwr₁⟩ := Half.exists_start RegMap.separate_wr hbegin'
  obtain ⟨-, hw₂, hint₂, -, -⟩ := Half.start_spec RegMap.separate_wr hwr₁
  have hrdInt : r₂.flag RegMap.rd.INT_MASK = s.mmreg.flag RegMap.rd.INT_MASK := (hw₂.flag (by decide)).trans hint₁
  have hwrInt : r₂.flag RegMap.wr.INT_MASK = s.mmreg.flag RegMap.wr.INT_MASK := hint₂.trans (hw₁.flag (by decide))
  rw [← Half.clearInt_congr hrdInt] at hproceed
  rw [← Half.clearInt_congr hwrInt] at hproceed'
  obtain ⟨r₃, hrd₂⟩ := Half.exists_advance (m := .rd) (r := r₂) hproceed
  obtain ⟨r₄, hwr₂⟩ := Half.exists_advance (m := .wr) (r := r₃) hproceed'
  simp only [tick, bind, hrd₁, hwr₁, hrd₂, hwr₂, bind_some]
  rfl

end StreamDma

/-! ## The law of the frames -/

namespace Half

variable {φ : Type} {M : Mover φ} {h : Half φ}

/-- What a side does with the frames of a transfer; its counter of frames has 64 bits, so the law says nothing of the
frames from `2 ^ 64` on, which a transfer without a limit has. -/
structure FrameLaw (M : Mover φ) (h : Half φ) : Prop where
  /-- Frame `k` is at place `k` modulo the number of frame buffers. -/
  address : ∀ k < h.started.length, k < 2 ^ 64 → h.started[k]? = some
    (h.prog.addr + BitVec.ofNat 64 (k % h.prog.frameBuffSize.toNat * h.prog.frameSize.toNat),
      BitVec.ofNat 64 h.prog.frameSize.toNat)
  /-- At most one frame is not through. -/
  order : h.started.length ≤ h.finished + 1
  /-- The bytes of the others have been moved, in the order of their addresses. -/
  through : ∃ past, M.wanted h.fifo = past ++ blockAddrs h.started ∧
    past ++ blockAddrs (h.started.take h.finished) <+: M.moved h.fifo
  /-- A limit is kept. -/
  limit : h.prog.frames ≠ 0 → h.started.length ≤ h.prog.frames.toNat
  /-- A transfer that is over has gone through its frames. -/
  ended : h.running = false → 0 < h.finished →
    h.prog.frames ≠ 0 ∧ h.started.length = h.prog.frames.toNat ∧ h.finished = h.prog.frames.toNat
  /-- The interrupt is raised once after each frame whose ordinal is a multiple. -/
  interrupts : h.raised.Pairwise (· < ·) ∧
    ∀ j < 2 ^ 64, j ∈ h.raised ↔ (0 < j ∧ j ≤ h.finished) ∧ h.prog.intFrames.toNat ∣ j

theorem setWidth_ofNat {w : Nat} (x : BitVec w) : x.setWidth 64 = BitVec.ofNat 64 x.toNat := by
  apply BitVec.eq_of_toNat_eq
  rw [BitVec.toNat_setWidth, BitVec.toNat_ofNat]

theorem ofNat_mod {w k : Nat} (hw : w ≤ 64) (x : BitVec w) (hk : k < 2 ^ 64) :
    BitVec.ofNat 64 k % x.setWidth 64 = BitVec.ofNat 64 (k % x.toNat) := by
  have hx : x.toNat < 2 ^ 64 := Nat.lt_of_lt_of_le x.isLt (Nat.pow_le_pow_right (by decide) hw)
  have hle : k % x.toNat ≤ k := Nat.mod_le ..
  apply BitVec.eq_of_toNat_eq
  rw [BitVec.toNat_umod, BitVec.toNat_setWidth, BitVec.toNat_ofNat, BitVec.toNat_ofNat, Nat.mod_eq_of_lt hk,
    Nat.mod_eq_of_lt hx, Nat.mod_eq_of_lt (Nat.lt_of_le_of_lt hle hk)]

theorem frame_eq {k : Nat} (hk : k < 2 ^ 64) : h.frame k =
    (h.prog.addr + BitVec.ofNat 64 (k % h.prog.frameBuffSize.toNat * h.prog.frameSize.toNat),
      BitVec.ofNat 64 h.prog.frameSize.toNat) := by
  rw [frame, size, setWidth_ofNat h.prog.frameSize, ofNat_mod (by decide) _ hk, BitVec.ofNat_mul]

theorem due_iff {j : Nat} (hpos : 0 < j) (hj : j < 2 ^ 64) : h.due j = true ↔ h.prog.intFrames.toNat ∣ j := by
  have hle : j % h.prog.intFrames.toNat ≤ j := Nat.mod_le ..
  have hzero : BitVec.ofNat 64 (j % h.prog.intFrames.toNat) = 0 ↔ h.prog.intFrames.toNat ∣ j := by
    rw [Nat.dvd_iff_mod_eq_zero, ← BitVec.toNat_inj, BitVec.toNat_ofNat, Nat.mod_eq_of_lt (by omega)]
    rfl
  simp only [due, decide_eq_true_eq]
  rw [ofNat_mod (by decide) _ hj, hzero]
  refine ⟨And.right, fun hdvd => ⟨fun hnil => ?_, hdvd⟩⟩
  rw [hnil] at hdvd
  exact Nat.ne_of_gt hpos (Nat.eq_zero_of_zero_dvd hdvd)

theorem Walking.frameLaw (hw : Walking M h) : FrameLaw M h where
  address k hk hlt := by
    rw [hw.frames, List.getElem?_map, List.getElem?_range hk, Option.map_some, frame_eq hlt]
  order := by
    cases hrun : h.running with
    | true => exact Nat.le_of_eq (hw.running hrun).1
    | false => exact Nat.le_succ_of_le (Nat.le_of_eq (hw.stopped hrun).1)
  through := hw.moved
  limit hne := by
    cases hrun : h.running with
    | true =>
      obtain ⟨hlen, hlt⟩ := hw.running hrun
      rw [hlen]
      exact hlt hne
    | false =>
      obtain ⟨hlen, hzero | ⟨-, heq⟩⟩ := hw.stopped hrun
      · rw [hlen, hzero]
        exact Nat.zero_le _
      · exact Nat.le_of_eq (hlen.trans heq)
  ended hrun hpos := by
    obtain ⟨hlen, hzero | ⟨hne, heq⟩⟩ := hw.stopped hrun
    · omega
    · exact ⟨hne, hlen.trans heq, heq⟩
  interrupts := by
    rw [hw.raised]
    refine ⟨?_, fun j hj => ?_⟩
    · refine List.Pairwise.filter _ (List.pairwise_map.mpr ?_)
      exact List.pairwise_lt_range.imp fun hlt => Nat.succ_lt_succ hlt
    · rw [List.mem_filter, List.mem_map]
      constructor
      · rintro ⟨⟨i, hi, rfl⟩, hdue⟩
        exact ⟨⟨Nat.succ_pos i, List.mem_range.mp hi⟩, (due_iff (Nat.succ_pos i) hj).mp hdue⟩
      · rintro ⟨⟨hpos, hle⟩, hdvd⟩
        exact ⟨⟨j - 1, List.mem_range.mpr (by omega), by omega⟩, (due_iff hpos hj).mpr hdvd⟩

end Half

/-- **The frame walk of `StreamDma`.** In every run each side goes through its frames by the law; a tick moves each side
by its own registers, bits and FIFO only; and while a side is running the next tick is scheduled, and it fails in no
assertion unless a side has no frame buffers. -/
theorem frame_walk {cfg : StreamConfig} {s : StreamDma} (h : (streamDma cfg).Reachable s) :
    s.rd.FrameLaw (readMover cfg.readFifo) ∧ s.wr.FrameLaw (writeMover cfg.writeFifo) ∧
    (∀ s', s.step cfg .tick = some s' → StreamDma.Ticked cfg { s with tickEvent := false } s') ∧
    ((s.rd.running || s.wr.running) = true → s.tickEvent = true) ∧
    (s.tickEvent = true → s.rd.Buffered .rd s.mmreg → s.wr.Buffered .wr s.mmreg → (s.step cfg .tick).isSome) := by
  have hw := StreamDma.walk_of_reachable h
  refine ⟨hw.rd.frameLaw, hw.wr.frameLaw, fun s' hs => ?_, hw.tickEvent, fun htick hrd hwr => ?_⟩
  · obtain ⟨-, hs⟩ := Option.ite_none_right_eq_some.mp hs
    exact StreamDma.tick_halves hs
  · rw [StreamDma.step, if_pos htick]
    exact StreamDma.tick_isSome (s := { s with tickEvent := false }) hw.rd hw.wr hrd hwr

/-- A device with room for one byte and one request. -/
def narrow : StreamConfig := ⟨32, 1, 1, 1, 1⟩

/-- The registers for a read of `frames` frames of one byte in `buffers` frame buffers, with the interrupt after each
second frame, and the start bit. -/
def readBytesOf (frames buffers : Byte) : List Byte :=
  [1, 2, 0, 0] ++ List.replicate 16 0 ++ [1, 0, 0, 0, frames, buffers] ++ List.replicate 6 0

theorem init_start (cfg : StreamConfig) : (streamDma cfg).init (.start cfg fun _ => 0) := ⟨_, fun _ _ => rfl, rfl⟩

/-- Two frames are read, and the second raises the interrupt. -/
theorem frame_walk_two : ∃ s, (streamDma narrow).Reachable s ∧ s.rd.running = false ∧ s.rd.started = [(0, 1), (1, 1)] ∧
    2 ∈ s.rd.raised := by
  obtain ⟨s, hs, hrun, hstarted, hfinished, hint⟩ := System.reachable_of_replay (init_start narrow)
    [.write 0 (readBytesOf 2 2), .tick, .readDone 0 [7], .streamRead 1, .tick, .readDone 0 [8], .tick]
    (fun s => s.rd.running = false ∧ s.rd.started = [(0, 1), (1, 1)] ∧ s.rd.finished = 2 ∧ s.rd.prog.intFrames = 2)
    (by decide)
  obtain ⟨hrd, -⟩ := frame_walk hs
  refine ⟨s, hs, hrun, hstarted, (hrd.interrupts.2 2 (by decide)).mpr ⟨⟨Nat.two_pos, Nat.le_of_eq hfinished.symm⟩, ?_⟩⟩
  rw [hint]
  exact Nat.dvd_refl 2

end Salam.Dma
