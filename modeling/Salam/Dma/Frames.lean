import Salam.Dma.Movers
import Salam.Dma.Noncoherent

/-!
# The frames of one side of `StreamDma`

A side of the device goes through its frame buffers in turn: a frame starts when the one before it is through the FIFO,
and the last one of a transfer clears the running bit. The two sides differ in their FIFO, their registers and their
bits of `FLAGS` (`RegMap`).

* `Half.Walking`: where a side stands.
* `Half.start_spec`, `Half.advance_spec`: the two parts of a tick, and what they do to the registers.
-/

namespace Salam.Dma

/-! ## One side -/

/-- What the registers of a side say of a transfer. -/
structure Programming where
  addr : Word
  frameSize : BitVec 32
  frames : Byte
  frameBuffSize : Byte
  intFrames : Byte
  deriving DecidableEq

/-- The bits of `FLAGS` and the registers of a side. -/
structure RegMap where
  START_MASK : Byte
  RUNNING_MASK : Byte
  INT_MASK : Byte
  ADDR_OFF : Nat
  FRAME_SIZE_OFF : Nat
  NUM_FRAMES_OFF : Nat
  FRAME_BUFF_SIZE_OFF : Nat
  INT_FRAMES_OFF : Nat
  deriving DecidableEq

/-- `RD_START_MASK`, `RD_ADDR_OFF` and so on. -/
def RegMap.rd : RegMap := ⟨0x01, 0x04, 0x10, 4, 20, 24, 25, 1⟩

/-- `WR_START_MASK`, `WR_ADDR_OFF` and so on. -/
def RegMap.wr : RegMap := ⟨0x02, 0x08, 0x20, 12, 26, 30, 31, 2⟩

abbrev Mmreg := Nat → Byte

def Mmreg.FLAGS (mmreg : Mmreg) : Byte := mmreg 0

def Mmreg.setFlags (mmreg : Mmreg) (flags : Byte) : Mmreg := Function.update mmreg 0 flags

/-- Whether the bits of the mask are set. -/
def Mmreg.flag (mmreg : Mmreg) (mask : Byte) : Bool := mmreg.FLAGS &&& mask = mask

def RegMap.programming (m : RegMap) (mmreg : Mmreg) : Programming where
  addr := BitVec.ofNat 64 (littleEndian mmreg m.ADDR_OFF 8)
  frameSize := BitVec.ofNat 32 (littleEndian mmreg m.FRAME_SIZE_OFF 4)
  frames := mmreg m.NUM_FRAMES_OFF
  frameBuffSize := mmreg m.FRAME_BUFF_SIZE_OFF
  intFrames := mmreg m.INT_FRAMES_OFF

/-- A side: `rdRunning`, `readAddr` and the other fields of the transfer, `readPtr`, `framesRead` and the FIFO, or those
of the write side, and its interrupt line. The last three fields are not in the source: the frames of the transfer that
have been started, the number of those that are through, and the frames after which the interrupt was raised. -/
structure Half (φ : Type) where
  running : Bool
  prog : Programming
  ptr : Word
  framesDone : Word
  line : Bool
  fifo : φ
  started : List (Word × Word)
  finished : Nat
  raised : List Nat

namespace Half

variable {φ : Type}

/-- The size of a frame. -/
def size (h : Half φ) : Word := h.prog.frameSize.setWidth 64

/-- A frame starts. -/
def startFrame (M : Mover φ) (h : Half φ) (ptr : Word) : Option (Half φ) :=
  (M.start ptr h.size h.fifo).map fun fifo =>
    { h with ptr := ptr, fifo := fifo, started := h.started ++ [(ptr, h.size)] }

/-- The fields at the start of a transfer. -/
def reset (p : Programming) (h : Half φ) : Half φ :=
  { h with running := true, prog := p, framesDone := 0, started := [], finished := 0, raised := [] }

/-- A transfer starts. -/
def begin (M : Mover φ) (p : Programming) (h : Half φ) : Option (Half φ) := (h.reset p).startFrame M p.addr

/-- The first part of `tick`. -/
def start (M : Mover φ) (m : RegMap) (mmreg : Mmreg) (h : Half φ) : Option (Mmreg × Half φ) :=
  if !h.running && mmreg.flag m.START_MASK then
    let mmreg := mmreg.setFlags ((mmreg.FLAGS &&& ~~~m.START_MASK) ||| m.RUNNING_MASK)
    (h.begin M (m.programming mmreg)).map (mmreg, ·)
  else some (mmreg, h)

def clearInt (m : RegMap) (mmreg : Mmreg) (h : Half φ) : Half φ :=
  if mmreg.flag m.INT_MASK then h else { h with line := false }

/-- The interrupt after a frame. -/
def interrupts (h : Half φ) : Bool := h.prog.intFrames ≠ 0 ∧ h.framesDone % h.prog.intFrames.setWidth 64 = 0

/-- The frame was the last one. -/
def last (h : Half φ) : Bool := h.prog.frames ≠ 0 ∧ h.prog.frames.setWidth 64 ≤ h.framesDone

/-- The address of the next frame. -/
def next (h : Half φ) : Word := h.prog.addr + h.framesDone % h.prog.frameBuffSize.setWidth 64 * h.size

/-- A frame is through. -/
def count (h : Half φ) : Half φ :=
  let h := { h with framesDone := h.framesDone + 1, finished := h.finished + 1 }
  if h.interrupts then { h with line := true, raised := h.raised ++ [h.finished] } else h

/-- The last part of `tick`; nothing if an assertion fails. -/
def advance (M : Mover φ) (m : RegMap) (mmreg : Mmreg) (h : Half φ) : Option (Mmreg × Half φ) :=
  if h.running && !M.isActive h.fifo then
    let h := h.count
    let mmreg := if h.interrupts then mmreg.setFlags (mmreg.FLAGS ||| m.INT_MASK) else mmreg
    if h.last then some (mmreg.setFlags (mmreg.FLAGS &&& ~~~m.RUNNING_MASK), { h with running := false })
    else if h.prog.frameBuffSize = 0 then none
    else (h.startFrame M h.next).map (mmreg, ·)
  else some (mmreg, h)

end Half

/-! ## Where a side stands -/

namespace Half

variable {φ : Type} {M : Mover φ} {h h' : Half φ}

/-- Frame `k` of the transfer; the counter of the frames has 64 bits. -/
def frame (h : Half φ) (k : Nat) : Word × Word :=
  (h.prog.addr + BitVec.ofNat 64 k % h.prog.frameBuffSize.setWidth 64 * h.size, h.size)

/-- The interrupt is due after `j` frames. -/
def due (h : Half φ) (j : Nat) : Bool :=
  h.prog.intFrames ≠ 0 ∧ BitVec.ofNat 64 j % h.prog.intFrames.setWidth 64 = 0

/-- The frames that were started are the first ones of the transfer, all but the last one of a running transfer are
through, with all their bytes, and a transfer stops after the last of its frames. -/
structure Walking (M : Mover φ) (h : Half φ) : Prop where
  good : M.Good h.fifo
  still : h.running = false → M.isActive h.fifo = false
  frames : h.started = (List.range h.started.length).map h.frame
  count : h.framesDone = BitVec.ofNat 64 h.finished
  running : h.running = true →
    h.started.length = h.finished + 1 ∧ (h.prog.frames ≠ 0 → h.finished < h.prog.frames.toNat)
  stopped : h.running = false →
    h.started.length = h.finished ∧ (h.finished = 0 ∨ h.prog.frames ≠ 0 ∧ h.finished = h.prog.frames.toNat)
  raised : h.raised = ((List.range h.finished).map (· + 1)).filter h.due
  moved : ∃ past, M.wanted h.fifo = past ++ blockAddrs h.started ∧
    past ++ blockAddrs (h.started.take h.finished) <+: M.moved h.fifo

theorem Walking.fifo {f : φ} (hw : Walking M h) (hgood : M.Good f)
    (hidle : M.isActive h.fifo = false → M.isActive f = false) (hwanted : M.wanted f = M.wanted h.fifo)
    (hmoved : M.moved h.fifo <+: M.moved f) : Walking M { h with fifo := f } where
  good := hgood
  still hrun := hidle (hw.still hrun)
  frames := hw.frames
  count := hw.count
  running := hw.running
  stopped := hw.stopped
  raised := hw.raised
  moved := by
    obtain ⟨past, hpast, hprefix⟩ := hw.moved
    exact ⟨past, hwanted.trans hpast, hprefix.trans hmoved⟩

theorem Walking.line (hw : Walking M h) (b : Bool) : Walking M { h with line := b } :=
  ⟨hw.good, hw.still, hw.frames, hw.count, hw.running, hw.stopped, hw.raised, hw.moved⟩

/-- What starting the next frame leaves of a side. -/
theorem startFrame_spec {ptr : Word} (hs : h.startFrame M ptr = some h') : ∃ f, M.start ptr h.size h.fifo = some f ∧
    h' = { h with ptr := ptr, fifo := f, started := h.started ++ [(ptr, h.size)] } := by
  obtain ⟨f, hf, rfl⟩ := Option.map_eq_some_iff.mp hs
  exact ⟨f, hf, rfl⟩

/-- The next frame starts when all frames are through. -/
theorem Walking.startFrame (hgood : M.Good h.fifo) (hframes : h.started = (List.range h.started.length).map h.frame)
    (hcount : h.framesDone = BitVec.ofNat 64 h.finished) (hrun : h.running = true)
      (hlen : h.started.length = h.finished)
    (hlimit : h.prog.frames ≠ 0 → h.finished < h.prog.frames.toNat)
    (hraised : h.raised = ((List.range h.finished).map (· + 1)).filter h.due)
    (hpast : ∃ past, M.wanted h.fifo = past ++ blockAddrs h.started) (hmoved : M.wanted h.fifo <+: M.moved h.fifo)
    (hs : h.startFrame M (h.frame h.finished).1 = some h') : Walking M h' := by
  obtain ⟨f, hf, rfl⟩ := startFrame_spec hs
  have hnot : ∀ {P : Prop}, h.running = false → P := fun hstop => by
    rw [hrun] at hstop
    cases hstop
  refine ⟨M.start_good hgood hf, hnot, ?_, hcount, fun _ => ⟨?_, hlimit⟩, hnot, hraised, ?_⟩
  · show h.started ++ [h.frame h.finished] = (List.range (h.started ++ [_]).length).map h.frame
    rw [List.length_append, List.length_singleton, List.range_succ, List.map_append, ← hframes, hlen]
    rfl
  · show (h.started ++ [_]).length = h.finished + 1
    rw [List.length_append, hlen]
    rfl
  · obtain ⟨past, hwanted⟩ := hpast
    refine ⟨past, ?_, ?_⟩
    · show M.wanted f = past ++ blockAddrs (h.started ++ [_])
      rw [M.start_wanted hgood hf, hwanted, blockAddrs_append, blockAddrs_singleton, List.append_assoc]
    · show past ++ blockAddrs ((h.started ++ [_]).take h.finished) <+: M.moved f
      rw [← hlen, List.take_left, ← hwanted]
      exact hmoved.trans (M.start_moved hgood hf)

/-- A side that stands still has moved all that was wanted. -/
theorem Walking.through (hw : Walking M h) (hrun : h.running = false) : M.wanted h.fifo <+: M.moved h.fifo := by
  obtain ⟨past, hwanted, hprefix⟩ := hw.moved
  rw [← (hw.stopped hrun).1, List.take_length, ← hwanted] at hprefix
  exact hprefix

theorem Walking.begin {p : Programming} (hw : Walking M h) (hrun : h.running = false) (hs : h.begin M p = some h') :
    Walking M h' := by
  have hpast : ∃ past, M.wanted h.fifo = past ++ blockAddrs [] := ⟨M.wanted h.fifo, (List.append_nil _).symm⟩
  refine Walking.startFrame (h := h.reset p) hw.good rfl rfl rfl rfl (fun hne => ?_) rfl hpast (hw.through hrun) ?_
  · exact Nat.pos_of_ne_zero fun h0 => hne (BitVec.eq_of_toNat_eq h0)
  · have hzero : BitVec.ofNat 64 0 % p.frameBuffSize.setWidth 64 = 0#64 := BitVec.zero_umod
    show Half.startFrame M _ (p.addr + BitVec.ofNat 64 0 % p.frameBuffSize.setWidth 64 * _) = _
    rw [hzero, BitVec.zero_mul, BitVec.add_zero]
    exact hs

/-- What is left of `advance` without the registers. -/
def proceed (M : Mover φ) (h : Half φ) : Option (Half φ) :=
  if h.running && !M.isActive h.fifo then
    if h.count.last then some { h.count with running := false }
    else if h.prog.frameBuffSize = 0 then none
    else h.count.startFrame M h.count.next
  else some h

theorem count_frame (h : Half φ) : h.count.running = h.running ∧ h.count.prog = h.prog ∧ h.count.fifo = h.fifo ∧
    h.count.started = h.started ∧ h.count.finished = h.finished + 1 ∧ h.count.framesDone = h.framesDone + 1 := by
  unfold count
  dsimp only
  split <;> simp

/-- The frame that is counted raises the interrupt if it is due. -/
theorem count_raised (hcount : h.framesDone = BitVec.ofNat 64 h.finished)
    (hraised : h.raised = ((List.range h.finished).map (· + 1)).filter h.due) :
    h.count.raised = ((List.range h.count.finished).map (· + 1)).filter h.count.due := by
  have hdone : h.framesDone + 1 = BitVec.ofNat 64 (h.finished + 1) := by
    rw [hcount, BitVec.ofNat_add]
    rfl
  have hdue : h.count.due = h.due := by
    funext j
    rw [due, (count_frame h).2.1, due]
  rw [hdue, (count_frame h).2.2.2.2.1, List.range_succ, List.map_append, List.filter_append, ← hraised]
  unfold count
  dsimp only
  split
  · rename_i hi
    have hd : h.due (h.finished + 1) = true := by
      rw [due, ← hdone]
      exact hi
    show h.raised ++ [h.finished + 1] = _
    simp [hd]
  · rename_i hi
    have hd : h.due (h.finished + 1) = false := by
      rw [due, ← hdone]
      exact Bool.eq_false_iff.mpr hi
    show h.raised = _
    simp [hd]

/-- The last frame is the one that `NUM_RD_FRAMES` or `NUM_WR_FRAMES` says. -/
theorem last_iff (hcount : h.framesDone = BitVec.ofNat 64 h.finished)
    (hle : h.prog.frames ≠ 0 → h.finished ≤ h.prog.frames.toNat) :
    h.last = true ↔ h.prog.frames ≠ 0 ∧ h.finished = h.prog.frames.toNat := by
  simp only [last, decide_eq_true_eq]
  refine and_congr_right fun hne => ?_
  have hle := hle hne
  rw [hcount, BitVec.le_def, BitVec.toNat_setWidth, BitVec.toNat_ofNat, Nat.mod_eq_of_lt (by omega),
    Nat.mod_eq_of_lt (by omega)]
  omega

/-- A frame is through, and the transfer stops or goes on. -/
theorem Walking.proceed (hw : Walking M h) (hs : h.proceed M = some h') : Walking M h' := by
  unfold Half.proceed at hs
  split at hs
  · rename_i hidle
    simp only [Bool.and_eq_true, Bool.not_eq_true'] at hidle
    obtain ⟨hrun, hidle⟩ := hidle
    obtain ⟨hlen, hlimit⟩ := hw.running hrun
    obtain ⟨past, hwanted, -⟩ := hw.moved
    obtain ⟨hrun', hprog, hfifo, hstarted, hfinished, hdone⟩ := count_frame h
    have hmoved : M.wanted h.fifo <+: M.moved h.fifo := by rw [M.idle hw.good hidle]
    have hcount : h.count.framesDone = BitVec.ofNat 64 h.count.finished := by
      rw [hdone, hw.count, hfinished, BitVec.ofNat_add]
      rfl
    have hframes : h.count.started = (List.range h.count.started.length).map h.count.frame := by
      have hframe : h.count.frame = h.frame := by
        funext k
        rw [frame, size, hprog, frame, size]
      rw [hframe, hstarted]
      exact hw.frames
    have hlen' : h.count.started.length = h.count.finished := by rw [hstarted, hfinished, hlen]
    have hraised := count_raised hw.count hw.raised
    have hpast : M.wanted h.count.fifo = past ++ blockAddrs h.count.started := by rw [hfifo, hstarted, hwanted]
    have hgood : M.Good h.count.fifo := hfifo.symm ▸ hw.good
    rw [← hfifo] at hmoved
    have hle : h.count.prog.frames ≠ 0 → h.count.finished ≤ h.count.prog.frames.toNat := by
      rw [hprog, hfinished]
      exact hlimit
    have hlast := last_iff hcount hle
    split at hs
    · rename_i hl
      cases hs
      refine ⟨hgood, fun _ => hfifo.symm ▸ hidle, hframes, hcount, fun hr => ?_,
        fun _ => ⟨hlen', .inr (hlast.mp hl)⟩, hraised, past, hpast, ?_⟩
      · cases hr
      show past ++ blockAddrs (h.count.started.take h.count.finished) <+: _
      rw [← hlen', List.take_length, ← hpast]
      exact hmoved
    · rename_i hl
      split at hs
      · cases hs
      · refine Walking.startFrame hgood hframes hcount (hrun'.trans hrun) hlen' (fun hne => ?_) hraised
          ⟨past, hpast⟩ hmoved ?_
        · exact Nat.lt_of_le_of_ne (hle hne) fun heq => hl (hlast.mpr ⟨hne, heq⟩)
        · rw [← hs, next, hcount]
          rfl
  · cases hs
    exact hw

/-- What a tick does to a side by itself. -/
def turn (M : Mover φ) (m : RegMap) (mmreg : Mmreg) (h : Half φ) : Option (Half φ) :=
  (if !h.running && mmreg.flag m.START_MASK then h.begin M (m.programming mmreg) else some h).bind fun h =>
    (h.clearInt m mmreg).proceed M

theorem Walking.clearInt (hw : Walking M h) (m : RegMap) (mmreg : Mmreg) : Walking M (h.clearInt m mmreg) := by
  unfold Half.clearInt
  split
  · exact hw
  · exact hw.line false

theorem Walking.turn {m : RegMap} {mmreg : Mmreg} (hw : Walking M h) (hs : h.turn M m mmreg = some h') :
    Walking M h' := by
  obtain ⟨h₁, h₁s, hs⟩ := Option.bind_eq_some_iff.mp hs
  refine Walking.proceed (Walking.clearInt ?_ m mmreg) hs
  split at h₁s
  · rename_i hstart
    simp only [Bool.and_eq_true, Bool.not_eq_true'] at hstart
    exact hw.begin hstart.1 h₁s
  · cases h₁s
    exact hw

end Half

/-! ## The registers -/

/-- The bits of the side in `FLAGS`. -/
def RegMap.mask (m : RegMap) : Byte := m.START_MASK ||| m.RUNNING_MASK ||| m.INT_MASK

/-- The bits of a side are different, and `FLAGS` is none of its other registers. -/
structure RegMap.Separate (m : RegMap) : Prop where
  start_running : m.START_MASK &&& m.RUNNING_MASK = 0
  start_int : m.START_MASK &&& m.INT_MASK = 0
  running_start : m.RUNNING_MASK &&& m.START_MASK = 0
  running_int : m.RUNNING_MASK &&& m.INT_MASK = 0
  int_start : m.INT_MASK &&& m.START_MASK = 0
  int_running : m.INT_MASK &&& m.RUNNING_MASK = 0
  offsets :
    ∀ offset ∈ [m.ADDR_OFF, m.FRAME_SIZE_OFF, m.NUM_FRAMES_OFF, m.FRAME_BUFF_SIZE_OFF, m.INT_FRAMES_OFF], 0 < offset

theorem RegMap.separate_rd : RegMap.rd.Separate := by
  constructor <;> decide

theorem RegMap.separate_wr : RegMap.wr.Separate := by
  constructor <;> decide

section Bits

variable {f a x : Byte}

theorem bit_of_apart (h : x &&& a = 0) {i : Nat} (hi : i < 8) : (x[i] && a[i]) = false := by
  have hbit : (x &&& a)[i] = (0 : Byte)[i] := by rw [h]
  simpa using hbit

theorem or_and_of_apart (h : x &&& a = 0) : (f ||| a) &&& x = f &&& x := by
  ext i hi
  have hbit := bit_of_apart h hi
  grind

theorem andNot_and_of_apart (h : x &&& a = 0) : (f &&& ~~~a) &&& x = f &&& x := by
  ext i hi
  have hbit := bit_of_apart h hi
  grind

theorem or_and_self : (f ||| a) &&& a = a := by
  ext i hi
  grind

theorem apart_of_or {b : Byte} (h : x &&& (a ||| b) = 0) : x &&& a = 0 ∧ x &&& b = 0 := by
  constructor <;> ext i hi <;> have hbit := bit_of_apart h hi <;> simp_all

end Bits

/-- What a side does to the registers: it changes its own bits of `FLAGS`. -/
structure Within (m : RegMap) (r r' : Mmreg) : Prop where
  other : ∀ i, i ≠ 0 → r' i = r i
  bits : ∀ x, x &&& m.mask = 0 → r'.FLAGS &&& x = r.FLAGS &&& x

section Registers

variable {m : RegMap} {r r' r'' : Mmreg} {x : Byte}

@[simp] theorem Mmreg.FLAGS_setFlags (r : Mmreg) (f : Byte) : (r.setFlags f).FLAGS = f := by
  simp [Mmreg.FLAGS, Mmreg.setFlags]

theorem Within.refl (r : Mmreg) : Within m r r := ⟨fun _ _ => rfl, fun _ _ => rfl⟩

theorem Within.trans (h : Within m r r') (h' : Within m r' r'') : Within m r r'' where
  other i hi := (h'.other i hi).trans (h.other i hi)
  bits x hx := (h'.bits x hx).trans (h.bits x hx)

theorem Within.setFlags {f : Byte} (h : ∀ x, x &&& m.mask = 0 → f &&& x = r.FLAGS &&& x) :
    Within m r (r.setFlags f) where
  other i hi := Function.update_of_ne hi ..
  bits x hx := by rw [Mmreg.FLAGS_setFlags, h x hx]

theorem Within.flag (h : Within m r r') (hx : x &&& m.mask = 0) : r'.flag x = r.flag x := by
  rw [Mmreg.flag, h.bits x hx, Mmreg.flag]

theorem littleEndian_congr (h : ∀ i, i ≠ 0 → r' i = r i) : ∀ (n : Nat) {offset : Nat}, 0 < offset →
    littleEndian r' offset n = littleEndian r offset n
  | 0, _, _ => rfl
  | n + 1, offset, hpos => by
    rw [littleEndian, littleEndian, h offset (Nat.ne_of_gt hpos), littleEndian_congr h n (Nat.succ_pos offset)]

/-- The registers of a transfer stay as they are. -/
theorem Within.programming {m' : RegMap} (h : Within m r r') (hm : m'.Separate) :
    m'.programming r' = m'.programming r := by
  have ho := hm.offsets
  simp only [List.mem_cons, List.not_mem_nil, or_false, forall_eq_or_imp, forall_eq] at ho
  obtain ⟨h₁, h₂, h₃, h₄, h₅⟩ := ho
  rw [RegMap.programming, littleEndian_congr h.other 8 h₁, littleEndian_congr h.other 4 h₂,
    h.other _ (Nat.ne_of_gt h₃), h.other _ (Nat.ne_of_gt h₄), h.other _ (Nat.ne_of_gt h₅), RegMap.programming]

theorem RegMap.mask_parts (h : x &&& m.mask = 0) :
    x &&& m.START_MASK = 0 ∧ x &&& m.RUNNING_MASK = 0 ∧ x &&& m.INT_MASK = 0 := by
  obtain ⟨hsr, hint⟩ := apart_of_or h
  obtain ⟨hstart, hrun⟩ := apart_of_or hsr
  exact ⟨hstart, hrun, hint⟩

end Registers

namespace Half

variable {φ : Type} {M : Mover φ} {m : RegMap} {r r' : Mmreg} {h h' : Half φ}

theorem within_started : Within m r (r.setFlags ((r.FLAGS &&& ~~~m.START_MASK) ||| m.RUNNING_MASK)) := by
  refine Within.setFlags fun x hx => ?_
  obtain ⟨hstart, hrun, -⟩ := RegMap.mask_parts hx
  rw [or_and_of_apart hrun, andNot_and_of_apart hstart]

theorem start_spec (hm : m.Separate) (hs : h.start M m r = some (r', h')) :
    (if !h.running && r.flag m.START_MASK then h.begin M (m.programming r) else some h) = some h' ∧ Within m r r' ∧
      r'.flag m.INT_MASK = r.flag m.INT_MASK ∧ (r.flag m.RUNNING_MASK = true → r'.flag m.RUNNING_MASK = true) ∧
      (r'.flag m.START_MASK = true → r.flag m.START_MASK = true) := by
  unfold start at hs
  split at hs
  · rename_i hstart
    obtain ⟨h₁, hbegin, heq⟩ := Option.map_eq_some_iff.mp hs
    cases heq
    have hwithin : Within m r (r.setFlags ((r.FLAGS &&& ~~~m.START_MASK) ||| m.RUNNING_MASK)) := within_started
    refine ⟨?_, hwithin, ?_, fun _ => ?_, fun _ => ?_⟩
    · rw [if_pos hstart, ← hwithin.programming hm]
      exact hbegin
    · rw [Mmreg.flag, Mmreg.FLAGS_setFlags, or_and_of_apart hm.int_running,
        andNot_and_of_apart hm.int_start, Mmreg.flag]
    · rw [Mmreg.flag, Mmreg.FLAGS_setFlags, or_and_self]
      exact decide_eq_true rfl
    · simp only [Bool.and_eq_true] at hstart
      exact hstart.2
  · rename_i hstart
    cases hs
    exact ⟨if_neg hstart, .refl _, rfl, id, id⟩

theorem advance_spec (hm : m.Separate) (hs : h.advance M m r = some (r', h')) :
    h.proceed M = some h' ∧ Within m r r' ∧ (r.flag m.RUNNING_MASK = true → r'.flag m.RUNNING_MASK = true ∨
      h'.running = false ∧ 0 < h'.finished) ∧ r'.flag m.START_MASK = r.flag m.START_MASK := by
  unfold advance at hs
  unfold proceed
  dsimp only at hs
  split at hs
  · rename_i hidle
    rw [if_pos hidle]
    generalize hr₁ : (if h.count.interrupts then r.setFlags (r.FLAGS ||| m.INT_MASK) else r) = r₁ at hs
    have hwithin : Within m r r₁ := by
      rw [← hr₁]
      split
      · exact Within.setFlags fun x hx => or_and_of_apart (RegMap.mask_parts hx).2.2
      · exact .refl _
    have hbit : r.flag m.RUNNING_MASK = true → r₁.flag m.RUNNING_MASK = true := by
      rw [← hr₁]
      split
      · rw [Mmreg.flag, Mmreg.flag, Mmreg.FLAGS_setFlags, or_and_of_apart hm.running_int]
        exact id
      · exact id
    have hstart : r₁.flag m.START_MASK = r.flag m.START_MASK := by
      rw [← hr₁]
      split
      · rw [Mmreg.flag, Mmreg.FLAGS_setFlags, or_and_of_apart hm.start_int, Mmreg.flag]
      · rfl
    split at hs
    · rename_i hlast
      cases hs
      refine ⟨if_pos hlast, hwithin.trans (Within.setFlags fun x hx => ?_), fun _ => .inr ⟨rfl, ?_⟩, ?_⟩
      · exact andNot_and_of_apart (RegMap.mask_parts hx).2.1
      · show 0 < h.count.finished
        rw [(count_frame h).2.2.2.2.1]
        exact Nat.succ_pos _
      · rw [← hstart, Mmreg.flag, Mmreg.FLAGS_setFlags, andNot_and_of_apart hm.start_running, Mmreg.flag]
    · rename_i hlast
      rw [(count_frame h).2.1] at hs
      rw [if_neg hlast]
      split at hs
      · cases hs
      · rename_i hbuff
        obtain ⟨h₁, hframe, heq⟩ := Option.map_eq_some_iff.mp hs
        cases heq
        exact ⟨(if_neg hbuff).trans hframe, hwithin, fun hrun => .inl (hbit hrun), hstart⟩
  · rename_i hidle
    cases hs
    exact ⟨if_neg hidle, .refl _, .inl, rfl⟩

theorem startFrame_isSome {ptr : Word} (hgood : M.Good h.fifo) (hidle : M.isActive h.fifo = false) :
    (h.startFrame M ptr).isSome := by
  rw [startFrame, Option.isSome_map]
  exact M.start_isSome _ _ hgood hidle

theorem Walking.proceed_isSome (hw : Walking M h) (hbuff : h.running = true → h.prog.frameBuffSize ≠ 0) :
    (h.proceed M).isSome := by
  unfold Half.proceed
  split
  · rename_i hidle
    simp only [Bool.and_eq_true, Bool.not_eq_true'] at hidle
    split
    · rfl
    · have hfifo := (count_frame h).2.2.1
      rw [if_neg (hbuff hidle.1)]
      exact startFrame_isSome (hfifo.symm ▸ hw.good) (hfifo.symm ▸ hidle.2)
  · rfl

theorem clearInt_frame (m : RegMap) (r : Mmreg) (h : Half φ) : (h.clearInt m r).prog = h.prog ∧
    (h.clearInt m r).running = h.running ∧ (h.clearInt m r).fifo = h.fifo ∧ (h.clearInt m r).started = h.started := by
  unfold clearInt
  split <;> exact ⟨rfl, rfl, rfl, rfl⟩

/-- The transfer that is running, or that is about to start, has frame buffers. -/
structure Buffered (m : RegMap) (r : Mmreg) (h : Half φ) : Prop where
  running : h.running = true → h.prog.frameBuffSize ≠ 0
  starting : h.running = false → r.flag m.START_MASK = true → (m.programming r).frameBuffSize ≠ 0

/-- A side with frame buffers does not fail. -/
theorem Walking.turn_isSome (hw : Walking M h) (hbuff : Buffered m r h) : (h.turn M m r).isSome := by
  unfold Half.turn
  by_cases hstart : (!h.running && r.flag m.START_MASK) = true
  · rw [if_pos hstart]
    simp only [Bool.and_eq_true, Bool.not_eq_true'] at hstart
    have hsome : (h.begin M (m.programming r)).isSome :=
      startFrame_isSome (h := h.reset (m.programming r)) hw.good (hw.still hstart.1)
    obtain ⟨h₁, hbegin⟩ := Option.isSome_iff_exists.mp hsome
    have hprog : h₁.prog = m.programming r := by
      obtain ⟨f, -, rfl⟩ := startFrame_spec hbegin
      rfl
    rw [hbegin, Option.bind_some]
    refine ((hw.begin hstart.1 hbegin).clearInt m r).proceed_isSome fun _ => ?_
    rw [(clearInt_frame m r h₁).1, hprog]
    exact hbuff.starting hstart.1 hstart.2
  · rw [if_neg hstart, Option.bind_some]
    refine (hw.clearInt m r).proceed_isSome fun hrun => ?_
    rw [(clearInt_frame m r h).2.1] at hrun
    rw [(clearInt_frame m r h).1]
    exact hbuff.running hrun

/-- `start` and `advance` succeed with their parts. -/
theorem exists_start (hm : m.Separate)
    (hs : (if !h.running && r.flag m.START_MASK then h.begin M (m.programming r) else some h) = some h') :
    ∃ r', h.start M m r = some (r', h') := by
  unfold start
  split at hs
  · rename_i hstart
    rw [if_pos hstart]
    have hwithin : Within m r (r.setFlags ((r.FLAGS &&& ~~~m.START_MASK) ||| m.RUNNING_MASK)) := within_started
    dsimp only
    rw [hwithin.programming hm, hs]
    exact ⟨_, rfl⟩
  · rename_i hstart
    cases hs
    exact ⟨r, if_neg hstart⟩

theorem exists_advance (hs : h.proceed M = some h') : ∃ r', h.advance M m r = some (r', h') := by
  unfold proceed at hs
  unfold advance
  split at hs
  · rename_i hidle
    rw [if_pos hidle]
    split at hs
    · rename_i hlast
      cases hs
      exact ⟨_, if_pos hlast⟩
    · rename_i hlast
      rw [if_neg hlast, (count_frame h).2.1]
      split at hs
      · cases hs
      · rename_i hbuff
        rw [if_neg hbuff, hs]
        exact ⟨_, rfl⟩
  · rename_i hidle
    cases hs
    exact ⟨r, if_neg hidle⟩

end Half

end Salam.Dma
