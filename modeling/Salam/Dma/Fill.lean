import Salam.Dma.Fifo

/-!
# `DmaReadFifo` is a stream

What `tryGet` takes out of the FIFO are the bytes of the blocks of `startFill`, in the order of their addresses:
requests complete in any order, but are retired in the order of their issue. `stopFill` cuts the stream off after the
bytes that have arrived in the buffer, and the next block continues it there. `Filling` joins the buffer, the pending
requests, the next address and the free request objects.

* `fill_law`: what the FIFO does in every run.
-/

namespace Salam.Dma

/-! ## Addresses -/

/-- The addresses of the `n` bytes from `a` on. -/
def addrs (a : Word) (n : Nat) : List Word := (List.range n).map fun i => a + BitVec.ofNat 64 i

@[simp] theorem length_addrs (a : Word) (n : Nat) : (addrs a n).length = n := by
  simp [addrs]

@[simp] theorem addrs_zero (a : Word) : addrs a 0 = [] := rfl

theorem addrs_add (a : Word) (n m : Nat) : addrs a (n + m) = addrs a n ++ addrs (a + BitVec.ofNat 64 n) m := by
  simp only [addrs, List.range_add, List.map_append, List.map_map]
  congr 1
  apply List.map_congr_left
  intro i _
  simp only [Function.comp_apply, BitVec.ofNat_add, BitVec.add_assoc]

/-- The addresses that the requests read, in the order of their issue, but for those of canceled requests. -/
def fetched (rs : List Req) : List Word := ((rs.filter fun r => !r.canceled).map fun r => addrs r.addr r.size).flatten

/-- The bytes that the requests have read, each with its address. -/
def reads (rs : List Req) : List (Word × Byte) :=
  ((rs.filter fun r => !r.canceled).map fun r => (addrs r.addr r.size).zip r.data).flatten

section Requests

variable {rs : List Req} {a : Word} {i : Nat}

theorem fetched_append (rs rs' : List Req) : fetched (rs ++ rs') = fetched rs ++ fetched rs' := by
  simp [fetched]

theorem arrived_append (rs rs' : List Req) :
    ReadFifo.arrived (rs ++ rs') = ReadFifo.arrived rs ++ ReadFifo.arrived rs' := by
  simp [ReadFifo.arrived]

/-- Requests that follow each other read what lies between the ends. -/
theorem fetched_of_contiguous : ∀ {rs : List Req} {a : Word}, Contiguous a rs → (∀ r ∈ rs, r.canceled = false) →
    fetched rs = addrs a (total rs)
  | [], _, _, _ => rfl
  | r :: rs, a, hc, h => by
    have hr : r.canceled = false := h r (List.mem_cons_self ..)
    have ih := fetched_of_contiguous hc.2 fun x hx => h x (List.mem_cons_of_mem _ hx)
    rw [total_cons, addrs_add, ← ih]
    simp [fetched, hr, hc.1]

theorem fetched_of_canceled (h : ∀ r ∈ rs, r.canceled = true) : fetched rs = [] := by
  rw [fetched, List.filter_eq_nil_iff.mpr fun r hr => by simp [h r hr]]
  rfl

theorem fetched_modify {f : Req → Req} (haddr : ∀ x, (f x).addr = x.addr) (hsize : ∀ x, (f x).size = x.size)
    (hcanceled : ∀ x, (f x).canceled = x.canceled) : fetched (rs.modify i f) = fetched rs := by
  induction rs generalizing i with
  | nil => cases i <;> rfl
  | cons x rs ih =>
    cases i with
    | zero => cases hx : x.canceled <;> simp [fetched, haddr, hsize, hcanceled, hx]
    | succ i =>
      have ih := ih (i := i)
      simp only [fetched] at ih
      simp only [fetched, List.modify_succ_cons, List.filter_cons]
      split <;> simp [ih]

theorem length_arrived (h : ∀ r ∈ rs, r.data.length = r.size) : (ReadFifo.arrived rs).length = (fetched rs).length := by
  induction rs with
  | nil => rfl
  | cons r rs ih =>
    have ih := ih fun x hx => h x (List.mem_cons_of_mem _ hx)
    simp only [ReadFifo.arrived, fetched] at ih ⊢
    rw [List.filter_cons]
    split <;> simp_all

theorem length_fetched_le (rs : List Req) : (fetched rs).length ≤ total rs := by
  induction rs with
  | nil => exact Nat.le_refl 0
  | cons r rs ih =>
    simp only [fetched] at ih ⊢
    rw [List.filter_cons, total_cons]
    split
    · simp only [List.map_cons, List.flatten_cons, List.length_append, length_addrs]
      omega
    · omega

theorem reads_fst (h : ∀ r ∈ rs, r.data.length = r.size) : (reads rs).map Prod.fst = fetched rs := by
  rw [reads, List.map_flatten, List.map_map, fetched]
  congr 1
  apply List.map_congr_left
  intro r hr
  have hlen := h r (List.mem_of_mem_filter hr)
  exact List.map_fst_zip (by rw [length_addrs, hlen])

theorem reads_snd (h : ∀ r ∈ rs, r.data.length = r.size) : (reads rs).map Prod.snd = ReadFifo.arrived rs := by
  rw [reads, List.map_flatten, List.map_map, ReadFifo.arrived]
  congr 1
  apply List.map_congr_left
  intro r hr
  have hlen := h r (List.mem_of_mem_filter hr)
  exact List.map_snd_zip (by rw [length_addrs, hlen])

end Requests

/-! ## Runs -/

/-- The FIFO with what `tryGet` has handed out, the requests that have been retired, and the addresses of the bytes that
are to be handed out; the last three are not in the source. -/
structure Fill where
  fifo : ReadFifo
  delivered : List Byte
  retired : List Req
  wanted : List Word

inductive FillEv
  | startFill (start size : Word)
  | tryGet (len : Nat)
  | stopFill
  | process (i : Nat) (data : List Byte)
  deriving DecidableEq

namespace Fill

def start (cfg : FifoConfig) : Fill where
  fifo := .start cfg
  delivered := []
  retired := []
  wanted := []

/-- The request at place `i` has read `data`. -/
def finish (f : ReadFifo) (i : Nat) (data : List Byte) : ReadFifo :=
  { f with pendingRequests := f.pendingRequests.modify i fun r => { r with data := data, done := true } }

/-- One call. A block adds its addresses to those that are wanted, and `stopFill` drops all that have not arrived. A
request completes once, with as many bytes as it asked for. -/
def step (cfg : FifoConfig) (s : Fill) : FillEv → Option Fill
  | .startFill start size => (s.fifo.startFill cfg start size).map fun fifo =>
    { s with fifo := fifo, wanted := s.wanted ++ addrs start size.toNat }
  | .tryGet len =>
    match s.fifo.tryGet cfg len with
    | some (fifo, dst) => some { s with fifo := fifo, delivered := s.delivered ++ dst }
    | none => some s
  | .stopFill => some { s with
      fifo := s.fifo.stopFill
      wanted := s.wanted.take (s.delivered.length + s.fifo.buffer.length) }
  | .process i data =>
    if (s.fifo.pendingRequests[i]?).any (fun r => !r.done && r.size = data.length) then
      some { s with
        fifo := s.fifo.process cfg i data
        retired := s.retired ++ (finish s.fifo i data).pendingRequests.takeWhile (·.done) }
    else none

end Fill

/-- The runs of a `DmaReadFifo`. -/
def fill (cfg : FifoConfig) : System Fill FillEv where
  init s := s = .start cfg
  step := Fill.step cfg

namespace Fill

/-- What has been retired, what is pending and what is left of the block are the bytes that are wanted; the bytes that
the retired requests have read were delivered or are in the buffer. -/
structure Filling (cfg : FifoConfig) (s : Fill) : Prop where
  wanted : fetched (s.retired ++ s.fifo.pendingRequests) ++ addrs s.fifo.nextAddr s.fifo.left = s.wanted
  data : s.delivered ++ s.fifo.buffer = ReadFifo.arrived s.retired
  retired : ∀ r ∈ s.retired, r.data.length = r.size
  pending : ∀ r ∈ s.fifo.pendingRequests, r.done = true → r.data.length = r.size
  room : s.fifo.buffer.length + total s.fifo.pendingRequests ≤ cfg.fifoSize
  slots : s.fifo.pendingRequests.length + s.fifo.freeRequests = cfg.max_pending

theorem filling_start {cfg : FifoConfig} : Filling cfg (start cfg) := by
  constructor <;> simp [start, ReadFifo.start, ReadFifo.left, ReadFifo.arrived, fetched]

section Steps

variable {cfg : FifoConfig} {s : Fill}

/-- What the loop sends is taken from what is left of the block. -/
theorem Filling.resumeFill (h : Filling cfg s) : Filling cfg { s with fifo := s.fifo.resumeFill cfg } := by
  obtain ⟨rs, hrs, hroom⟩ := ReadFifo.resumeFill_issued cfg s.fifo
  generalize s.fifo.resumeFill cfg = f' at hrs
  refine ⟨?_, ?_, h.retired, ?_, ?_, ?_⟩
  · have hsplit : addrs s.fifo.nextAddr s.fifo.left = fetched rs ++ addrs f'.nextAddr f'.left := by
      rw [fetched_of_contiguous hrs.contiguous fun r hr => (hrs.sound r hr).2.1, hrs.left, hrs.nextAddr, ← addrs_add,
        Nat.add_sub_cancel' hrs.bounded]
    show fetched (s.retired ++ f'.pendingRequests) ++ addrs f'.nextAddr f'.left = s.wanted
    rw [← h.wanted, hsplit, hrs.pending, ← List.append_assoc, fetched_append, List.append_assoc]
  · show s.delivered ++ f'.buffer = _
    rw [hrs.buffer]
    exact h.data
  · intro r hr hdone
    replace hr : r ∈ s.fifo.pendingRequests ++ rs := hrs.pending ▸ hr
    rcases List.mem_append.mp hr with hr | hr
    · exact h.pending r hr hdone
    · rw [(hrs.sound r hr).1] at hdone
      cases hdone
  · show f'.buffer.length + total f'.pendingRequests ≤ _
    rw [hrs.buffer, hrs.pending, total_append, ← Nat.add_assoc]
    exact hroom h.room
  · show f'.pendingRequests.length + f'.freeRequests = _
    have hfree := hrs.free
    have hslots := h.slots
    rw [hrs.pending, List.length_append]
    omega

theorem Filling.startFill {start size : Word} (h : Filling cfg s) (hend : s.fifo.atEndOfBlock = true) :
    Filling cfg { s with
      fifo := { s.fifo with nextAddr := start, endAddr := start + size }
      wanted := s.wanted ++ addrs start size.toNat } := by
  refine ⟨?_, h.data, h.retired, h.pending, h.room, h.slots⟩
  have hwanted := h.wanted
  rw [ReadFifo.left_eq_zero hend, addrs_zero, List.append_nil] at hwanted
  show fetched (s.retired ++ s.fifo.pendingRequests) ++ addrs start (start + size - start).toNat = _
  rw [hwanted, add_sub_cancel_left]

theorem Filling.get {len : Nat} (h : Filling cfg s) : Filling cfg { s with
    fifo := { s.fifo with buffer := s.fifo.buffer.drop len }
    delivered := s.delivered ++ s.fifo.buffer.take len } := by
  refine ⟨h.wanted, ?_, h.retired, h.pending, ?_, h.slots⟩
  · show s.delivered ++ s.fifo.buffer.take len ++ s.fifo.buffer.drop len = _
    rw [List.append_assoc, List.take_append_drop]
    exact h.data
  · have := h.room
    show (s.fifo.buffer.drop len).length + total s.fifo.pendingRequests ≤ _
    rw [List.length_drop]
    omega

/-- The bytes that have arrived are the first of those that are wanted, and `stopFill` leaves no others. -/
theorem Filling.stopFill (h : Filling cfg s) : Filling cfg { s with
    fifo := s.fifo.stopFill
    wanted := s.wanted.take (s.delivered.length + s.fifo.buffer.length) } := by
  have hlen : s.delivered.length + s.fifo.buffer.length = (fetched s.retired).length := by
    rw [← List.length_append, h.data, length_arrived h.retired]
  refine ⟨?_, h.data, h.retired, ?_, ?_, ?_⟩
  · have hnone : fetched s.fifo.stopFill.pendingRequests = [] := fetched_of_canceled fun r hr => by
      obtain ⟨x, -, rfl⟩ := List.mem_map.mp hr
      rfl
    have hleft : s.fifo.stopFill.left = 0 := by
      show (s.fifo.endAddr - s.fifo.endAddr).toNat = 0
      rw [sub_self]
      rfl
    show fetched (s.retired ++ s.fifo.stopFill.pendingRequests) ++ addrs _ s.fifo.stopFill.left = s.wanted.take _
    rw [fetched_append, hnone, hleft, hlen, ← h.wanted, fetched_append, List.append_assoc _ (fetched _),
      List.take_left, addrs_zero, List.append_nil, List.append_nil]
  · intro r hr hdone
    obtain ⟨x, hx, rfl⟩ := List.mem_map.mp hr
    exact h.pending x hx hdone
  · have htotal : total s.fifo.stopFill.pendingRequests = total s.fifo.pendingRequests := by
      simp [total, ReadFifo.stopFill, Function.comp_def]
    show s.fifo.buffer.length + total s.fifo.stopFill.pendingRequests ≤ _
    rw [htotal]
    exact h.room
  · show (s.fifo.pendingRequests.map _).length + s.fifo.freeRequests = _
    rw [List.length_map]
    exact h.slots

theorem Filling.complete {i : Nat} {r : Req} {data : List Byte} (h : Filling cfg s)
    (hi : s.fifo.pendingRequests[i]? = some r) (hlen : data.length = r.size) :
    Filling cfg { s with fifo := finish s.fifo i data } := by
  refine ⟨?_, h.data, h.retired, ?_, ?_, ?_⟩
  · have hfetched : fetched (finish s.fifo i data).pendingRequests = fetched s.fifo.pendingRequests :=
      fetched_modify (fun _ => rfl) (fun _ => rfl) (fun _ => rfl)
    show fetched (s.retired ++ (finish s.fifo i data).pendingRequests) ++ addrs s.fifo.nextAddr s.fifo.left = s.wanted
    rw [fetched_append, hfetched, ← fetched_append]
    exact h.wanted
  · intro y hy hdone
    rcases mem_modify hy with hy | ⟨x, hx, rfl⟩
    · exact h.pending y hy hdone
    · rw [hi] at hx
      cases hx
      exact hlen
  · have htotal : total (finish s.fifo i data).pendingRequests = total s.fifo.pendingRequests :=
      total_modify fun _ => rfl
    show s.fifo.buffer.length + total (finish s.fifo i data).pendingRequests ≤ _
    rw [htotal]
    exact h.room
  · show (s.fifo.pendingRequests.modify i _).length + s.fifo.freeRequests = _
    rw [List.length_modify]
    exact h.slots

/-- The finished requests at the front are retired. -/
theorem Filling.handlePending (h : Filling cfg s) : Filling cfg { s with
    fifo := s.fifo.handlePending
    retired := s.retired ++ s.fifo.pendingRequests.takeWhile (·.done) } := by
  obtain ⟨fin, rest, hfin, hrest, hsplit, hfront⟩ := finished_split s.fifo.pendingRequests
  unfold ReadFifo.handlePending
  rw [hfin, hrest]
  have hfin : ∀ r ∈ fin, r.data.length = r.size := fun r hr =>
    h.pending r (by rw [← hsplit]; exact List.mem_append_left _ hr) (hfront r hr)
  refine ⟨?_, ?_, ?_, ?_, ?_, ?_⟩
  · show fetched (s.retired ++ fin ++ rest) ++ addrs s.fifo.nextAddr s.fifo.left = s.wanted
    rw [List.append_assoc, hsplit]
    exact h.wanted
  · show s.delivered ++ (s.fifo.buffer ++ ReadFifo.arrived fin) = ReadFifo.arrived (s.retired ++ fin)
    rw [← List.append_assoc, h.data, arrived_append]
  · intro r hr
    rcases List.mem_append.mp hr with hr | hr
    · exact h.retired r hr
    · exact hfin r hr
  · intro r hr hdone
    exact h.pending r (by rw [← hsplit]; exact List.mem_append_right _ hr) hdone
  · have hroom := h.room
    have hle : (ReadFifo.arrived fin).length ≤ total fin := by
      rw [length_arrived hfin]
      exact length_fetched_le fin
    rw [← hsplit, total_append] at hroom
    show (s.fifo.buffer ++ ReadFifo.arrived fin).length + total rest ≤ _
    rw [List.length_append]
    omega
  · have hslots := h.slots
    rw [← hsplit, List.length_append] at hslots
    show rest.length + (s.fifo.freeRequests + fin.length) = _
    omega

theorem Filling.step {e : FillEv} {s' : Fill} (h : Filling cfg s) (hs : s.step cfg e = some s') : Filling cfg s' := by
  cases e with
  | startFill start size =>
    simp only [Fill.step, ReadFifo.startFill, Option.map_eq_some_iff, Option.ite_none_right_eq_some] at hs
    obtain ⟨f, ⟨hend, hf⟩, rfl⟩ := hs
    cases hf
    exact (h.startFill hend).resumeFill
  | tryGet len =>
    by_cases hlen : len ≤ s.fifo.buffer.length
    · simp only [Fill.step, ReadFifo.tryGet, if_pos hlen] at hs
      cases hs
      exact h.get.resumeFill
    · simp only [Fill.step, ReadFifo.tryGet, if_neg hlen] at hs
      cases hs
      exact h
  | stopFill =>
    cases hs
    exact h.stopFill
  | process i data =>
    simp only [Fill.step, Option.ite_none_right_eq_some, Option.any_eq_true, Bool.and_eq_true, decide_eq_true_iff] at hs
    obtain ⟨⟨r, hi, -, hsize⟩, hs⟩ := hs
    cases hs
    exact (h.complete hi hsize.symm).handlePending.resumeFill

end Steps

theorem Filling.idle {cfg : FifoConfig} {s : Fill} (h : Filling cfg s) (hidle : s.fifo.isActive = false) :
    (reads s.retired).map Prod.fst = s.wanted := by
  obtain ⟨hnil, hend⟩ := ReadFifo.isActive_eq_false.mp hidle
  have hwanted := h.wanted
  rw [hnil, ReadFifo.left_eq_zero hend, addrs_zero, List.append_nil, List.append_nil] at hwanted
  rw [reads_fst h.retired, hwanted]

theorem filling_of_reachable {cfg : FifoConfig} {s : Fill} (h : (fill cfg).Reachable s) : Filling cfg s := by
  refine System.invariantWhen (I := Filling cfg) ?_ ?_ h
  · rintro s rfl
    exact filling_start
  · intro s e s' _ hs _ hstep
    exact hs.step hstep

/-- **The law of the stream**: the bytes that were delivered and those in the buffer are what the retired requests that
were not canceled have read, their addresses are the first of those that are wanted, and the pending requests and what
is left of the block read the others; when the FIFO is idle, all have been read. The buffer has room for what is
outstanding, and no request object is lost. -/
theorem fill_law {cfg : FifoConfig} {s : Fill} (h : (fill cfg).Reachable s) :
    s.delivered ++ s.fifo.buffer = (reads s.retired).map Prod.snd ∧
      (reads s.retired).map Prod.fst ++ fetched s.fifo.pendingRequests ++ addrs s.fifo.nextAddr s.fifo.left = s.wanted ∧
      (s.fifo.isActive = false → (reads s.retired).map Prod.fst = s.wanted) ∧
      s.fifo.buffer.length + total s.fifo.pendingRequests ≤ cfg.fifoSize ∧
      s.fifo.pendingRequests.length + s.fifo.freeRequests = cfg.max_pending := by
  have hs := filling_of_reachable h
  have hwanted := hs.wanted
  rw [fetched_append, ← reads_fst hs.retired] at hwanted
  refine ⟨?_, hwanted, hs.idle, hs.room, hs.slots⟩
  rw [reads_snd hs.retired]
  exact hs.data

/-- Six bytes arrive in two requests, the second before the first. -/
theorem fill_law_six_bytes : ∃ s : Fill, s.delivered = [1, 2, 3, 4, 5, 6] ∧ s.wanted = addrs 100 6 ∧
    (reads s.retired).map Prod.fst = s.wanted := by
  obtain ⟨s, hs, hdel, hwanted, hidle⟩ := System.reachable_of_replay (S := fill ⟨4, 16, 2⟩)
    (show (fill ⟨4, 16, 2⟩).init (start ⟨4, 16, 2⟩) from rfl)
    [.startFill 100 6, .process 1 [5, 6], .process 0 [1, 2, 3, 4], .tryGet 6]
    (fun s => s.delivered = [1, 2, 3, 4, 5, 6] ∧ s.wanted = addrs 100 6 ∧ s.fifo.isActive = false) (by decide)
  exact ⟨s, hdel, hwanted, (fill_law hs).2.2.1 hidle⟩

end Fill

end Salam.Dma
