import Salam.Dma.Noncoherent

/-!
# `NoncoherentDma` copies memory

The bytes of a transfer are, in this order, asked for by the read FIFO, in its buffer, moved by `tick`, in the buffer of
the write FIFO, on their way to memory, and in memory. `ReadFifo.Reading` and `WriteFifo.Writing` say this of the two
FIFOs, with the bytes that were moved as the common part; a request that has completed stays where it is until all
before it have. `Device.Copying` joins them.

* `copied_of_finish`: the tick that sets the done flag finds the bytes of the source at the destination, nothing else
  changed, and the FIFOs empty.
-/

namespace Salam.Dma

open Function (update_of_ne update_self update)

/-! ## Memory -/

/-- The memory holds the bytes from the address on. -/
def Settled (mem : Memory) (a : Word) (data : List Byte) : Prop :=
  ∀ j b, data[j]? = some b → mem (a + BitVec.ofNat 64 j) = b

section Memory

variable {mem : Memory} {a base : Word} {data data' : List Byte}

theorem add_ofNat_sub (base : Word) {i o : Nat} (hi : i < 2 ^ 63) (ho : o < 2 ^ 63) :
    (base + BitVec.ofNat 64 i - (base + BitVec.ofNat 64 o)).toNat = if o ≤ i then i - o else 2 ^ 64 - (o - i) := by
  rw [add_sub_add_left_eq_sub, BitVec.toNat_sub, BitVec.toNat_ofNat, BitVec.toNat_ofNat,
    Nat.mod_eq_of_lt (a := i) (by omega), Nat.mod_eq_of_lt (a := o) (by omega)]
  split <;> omega

theorem add_add_ofNat (a : Word) (i j : Nat) :
    a + BitVec.ofNat 64 i + BitVec.ofNat 64 j = a + BitVec.ofNat 64 (i + j) := by
  rw [BitVec.ofNat_add, ← BitVec.add_assoc]

theorem Settled.append (h : Settled mem a data) (h' : Settled mem (a + BitVec.ofNat 64 data.length) data') :
    Settled mem a (data ++ data') := by
  intro j b hj
  by_cases hlt : j < data.length
  · rw [List.getElem?_append_left hlt] at hj
    exact h j b hj
  · rw [List.getElem?_append_right (by omega)] at hj
    have := h' _ b hj
    rwa [add_add_ofNat, Nat.add_sub_cancel' (by omega)] at this

theorem settled_writeBytes (hlen : data.length < 2 ^ 63) : Settled (writeBytes mem a data) a data := by
  intro j b hj
  have hlt := (List.getElem?_eq_some_iff.mp hj).1
  have hoff := add_ofNat_sub a (i := j) (o := 0) (by omega) (by omega)
  rw [BitVec.add_zero] at hoff
  rw [writeBytes, hoff, if_pos (Nat.zero_le _), Nat.sub_zero, hj]
  rfl

/-- A write elsewhere in the block leaves the bytes alone. -/
theorem Settled.writeBytes {o o' : Nat} (h : Settled mem (base + BitVec.ofNat 64 o) data)
    (ho : o + data.length < 2 ^ 63) (ho' : o' + data'.length < 2 ^ 63)
    (hdisj : o + data.length ≤ o' ∨ o' + data'.length ≤ o) :
    Settled (writeBytes mem (base + BitVec.ofNat 64 o') data') (base + BitVec.ofNat 64 o) data := by
  intro j b hj
  have hlt := (List.getElem?_eq_some_iff.mp hj).1
  rw [Dma.writeBytes, add_add_ofNat, add_ofNat_sub _ (by omega) (by omega), List.getElem?_eq_none]
  · have := h j b hj
    rw [add_add_ofNat] at this
    exact this
  · split <;> omega

/-- A write within a block leaves what is outside alone. -/
theorem writeBytes_of_outside {o len : Nat} {x : Word} (ho : o + data.length ≤ len)
    (hx : ∀ j < len, x ≠ base + BitVec.ofNat 64 j) : writeBytes mem (base + BitVec.ofNat 64 o) data x = mem x := by
  rw [writeBytes, List.getElem?_eq_none]
  · rfl
  · by_contra hlt
    refine hx (o + (x - (base + BitVec.ofNat 64 o)).toNat) (by omega) ?_
    rw [← add_add_ofNat, BitVec.ofNat_toNat, BitVec.setWidth_eq, add_sub_cancel]

theorem length_readBytes (mem : Memory) (a : Word) (n : Nat) : (readBytes mem a n).length = n := by
  simp [readBytes]

theorem readBytes_append (mem : Memory) (a : Word) (n m : Nat) :
    readBytes mem a n ++ readBytes mem (a + BitVec.ofNat 64 n) m = readBytes mem a (n + m) := by
  simp [readBytes, List.range_add, add_add_ofNat, Function.comp_def]

theorem getElem?_readBytes {n i : Nat} (hi : i < n) : (readBytes mem a n)[i]? = some (mem (a + BitVec.ofNat 64 i)) := by
  simp [readBytes, hi]

end Memory


/-! ## Pending requests -/

section Pending

variable {rs : List Req} {a : Word} {i : Nat} {r : Req}

/-- The request at place `i` starts where those before it end. -/
theorem Contiguous.addr : ∀ {rs : List Req} {a : Word} {i : Nat} {r : Req}, Contiguous a rs → rs[i]? = some r →
    r.addr = a + BitVec.ofNat 64 (total (rs.take i))
  | r :: rs, a, 0, _, h, hi => by
    cases hi
    simpa using h.1
  | x :: rs, a, i + 1, r, h, hi => by
    rw [Contiguous.addr h.2 (by simpa using hi), List.take_succ_cons, total_cons, add_add_ofNat]

theorem total_take_add_size_le : ∀ {rs : List Req} {i j : Nat} {r : Req}, rs[i]? = some r → i < j →
    total (rs.take i) + r.size ≤ total (rs.take j)
  | x :: rs, 0, j + 1, r, hi, _ => by
    cases hi
    simp
  | x :: rs, i + 1, j + 1, r, hi, hij => by
    have hi' : rs[i]? = some r := by simpa using hi
    have := total_take_add_size_le hi' (Nat.lt_of_succ_lt_succ hij)
    simp only [List.take_succ_cons, total_cons]
    omega

theorem total_take_add_size_le_total (hi : rs[i]? = some r) : total (rs.take i) + r.size ≤ total rs := by
  have hlt := (List.getElem?_eq_some_iff.mp hi).1
  have := total_take_add_size_le hi hlt
  rwa [List.take_length] at this

theorem Contiguous.modify {f : Req → Req} (hsize : ∀ x, (f x).size = x.size) (haddr : ∀ x, (f x).addr = x.addr)
    (h : Contiguous a rs) : Contiguous a (rs.modify i f) := by
  induction rs generalizing i a with
  | nil => cases i <;> exact h
  | cons x rs ih =>
    cases i with
    | zero => exact ⟨(haddr x).trans h.1, by rw [hsize]; exact h.2⟩
    | succ i => exact ⟨h.1, ih h.2⟩

theorem map_data_modify {f : Req → Req} (hf : ∀ x, (f x).data = x.data) :
    (rs.modify i f).map (·.data) = rs.map (·.data) := by
  induction rs generalizing i with
  | nil => cases i <;> rfl
  | cons x rs ih => cases i <;> simp [List.modify_succ_cons, hf, ih]

end Pending

/-! ## The read FIFO -/

namespace ReadFifo

/-- Nothing is in the FIFO, and nothing on its way. -/
structure Idle (f : ReadFifo) : Prop where
  buffer : f.buffer = []
  pending : f.pendingRequests = []
  atEnd : f.nextAddr = f.endAddr

/-- The FIFO reads the block of `len` bytes from `src` on, and `got` has been taken from it. `good a n data` says that a
read of `n` bytes at `a` may return `data`. -/
structure Reading (cfg : FifoConfig) (good : Word → Nat → List Byte → Prop) (src : Word) (len : Nat) (got : List Byte)
    (f : ReadFifo) : Prop where
  data : good src (got.length + f.buffer.length) (got ++ f.buffer)
  nextAddr : f.nextAddr = src + BitVec.ofNat 64 (got.length + f.buffer.length + total f.pendingRequests)
  endAddr : f.endAddr = src + BitVec.ofNat 64 len
  bounded : got.length + f.buffer.length + total f.pendingRequests ≤ len
  contiguous : Contiguous (src + BitVec.ofNat 64 (got.length + f.buffer.length)) f.pendingRequests
  pending : ∀ r ∈ f.pendingRequests, 0 < r.size ∧ (r.done = true → good r.addr r.size r.data ∧ r.data.length = r.size)
  kept : ∀ r ∈ f.pendingRequests, r.canceled = false
  room : f.buffer.length + total f.pendingRequests ≤ cfg.fifoSize

section Steps

variable {cfg : FifoConfig} {good : Word → Nat → List Byte → Prop} {src : Word} {len : Nat} {got : List Byte}
  {f : ReadFifo}

theorem Reading.left (hlen : len < 2 ^ 63) (h : Reading cfg good src len got f) :
    f.left = len - (got.length + f.buffer.length + total f.pendingRequests) := by
  have := h.bounded
  rw [ReadFifo.left, h.endAddr, h.nextAddr, add_ofNat_sub _ hlen (by omega), if_pos h.bounded]

theorem Reading.resumeFill (hmax : 0 < cfg.maxReqSize) (hlen : len < 2 ^ 63) (h : Reading cfg good src len got f) :
    Reading cfg good src len got (f.resumeFill cfg) := by
  obtain ⟨rs, hrs, hroom⟩ := resumeFill_issued cfg f
  generalize f.resumeFill cfg = f' at hrs
  have hleft := h.left hlen
  have hbounded := hrs.bounded
  have hb := h.bounded
  refine ⟨?_, ?_, ?_, ?_, ?_, ?_, ?_, ?_⟩
  · rw [hrs.buffer]
    exact h.data
  · rw [hrs.nextAddr, h.nextAddr, hrs.buffer, hrs.pending, total_append, add_add_ofNat]
    congr 2
    omega
  · rw [hrs.endAddr]
    exact h.endAddr
  · rw [hrs.buffer, hrs.pending, total_append]
    omega
  · rw [hrs.buffer, hrs.pending, contiguous_append]
    refine ⟨h.contiguous, ?_⟩
    rw [add_add_ofNat, ← h.nextAddr]
    exact hrs.contiguous
  · intro r hr
    rw [hrs.pending, List.mem_append] at hr
    rcases hr with hr | hr
    · exact h.pending r hr
    · obtain ⟨hdone, -, hpos⟩ := hrs.sound r hr
      refine ⟨hpos hmax, fun hd => ?_⟩
      rw [hdone] at hd
      cases hd
  · intro r hr
    rw [hrs.pending, List.mem_append] at hr
    rcases hr with hr | hr
    · exact h.kept r hr
    · exact (hrs.sound r hr).2.1
  · rw [hrs.buffer, hrs.pending, total_append]
    have := hroom h.room
    omega

/-- The bytes of finished requests, one after the other. -/
theorem good_flatten (hnil : ∀ a, good a 0 [])
    (happend : ∀ a n m x y, good a n x → good (a + BitVec.ofNat 64 n) m y → good a (n + m) (x ++ y)) :
    ∀ {rs : List Req} {a : Word}, Contiguous a rs → (∀ r ∈ rs, good r.addr r.size r.data) →
      good a (total rs) (rs.map (·.data)).flatten
  | [], a, _, _ => hnil a
  | r :: rs, a, hc, h => by
    have hr := h r (List.mem_cons_self ..)
    rw [hc.1] at hr
    exact happend _ _ _ _ _ hr (good_flatten hnil happend hc.2 fun x hx => h x (List.mem_cons_of_mem _ hx))

theorem Reading.handlePending (hnil : ∀ a, good a 0 [])
    (happend : ∀ a n m x y, good a n x → good (a + BitVec.ofNat 64 n) m y → good a (n + m) (x ++ y))
    (h : Reading cfg good src len got f) : Reading cfg good src len got f.handlePending := by
  obtain ⟨fin, rest, hfin, hrest, hsplit, hfront⟩ := finished_split f.pendingRequests
  unfold ReadFifo.handlePending
  rw [hfin, hrest]
  obtain ⟨hc₁, hc₂⟩ := contiguous_append.mp (hsplit ▸ h.contiguous)
  have hfin : ∀ r ∈ fin, good r.addr r.size r.data ∧ r.data.length = r.size := fun r hr =>
    (h.pending r (by rw [← hsplit]; exact List.mem_append_left _ hr)).2 (hfront r hr)
  have hlen := length_flatten_data fun r hr => (hfin r hr).2
  have harrived : arrived fin = (fin.map (·.data)).flatten := arrived_of_kept fun r hr =>
    h.kept r (by rw [← hsplit]; exact List.mem_append_left _ hr)
  rw [harrived]
  have htotal : total f.pendingRequests = total fin + total rest := by rw [← hsplit, total_append]
  have hsum : got.length + (f.buffer ++ (fin.map (·.data)).flatten).length =
      got.length + f.buffer.length + total fin := by
    rw [List.length_append, hlen]
    omega
  have hb := h.bounded
  have hr := h.room
  refine ⟨?_, ?_, h.endAddr, ?_, ?_, ?_, ?_, ?_⟩
  · dsimp only
    rw [hsum, ← List.append_assoc]
    exact happend _ _ _ _ _ h.data (good_flatten hnil happend hc₁ fun r hr => (hfin r hr).1)
  · dsimp only
    rw [hsum, h.nextAddr, htotal, Nat.add_assoc _ (total fin)]
  · dsimp only
    omega
  · dsimp only
    rw [hsum, ← add_add_ofNat]
    exact hc₂
  · intro r hr
    exact h.pending r (by rw [← hsplit]; exact List.mem_append_right _ hr)
  · intro r hr
    exact h.kept r (by rw [← hsplit]; exact List.mem_append_right _ hr)
  · dsimp only
    omega

theorem Reading.complete {i : Nat} {r : Req} {data : List Byte} (h : Reading cfg good src len got f)
    (hi : f.pendingRequests[i]? = some r) (hgood : good r.addr r.size data) (hlen : data.length = r.size) :
    Reading cfg good src len got
      { f with pendingRequests := f.pendingRequests.modify i fun r => { r with data := data, done := true } } := by
  have htotal : total (f.pendingRequests.modify i fun r => { r with data := data, done := true }) =
      total f.pendingRequests := total_modify fun _ => rfl
  refine ⟨h.data, ?_, h.endAddr, ?_, h.contiguous.modify (fun _ => rfl) (fun _ => rfl), ?_, ?_, ?_⟩
  · dsimp only
    rw [htotal]
    exact h.nextAddr
  · dsimp only
    rw [htotal]
    exact h.bounded
  · intro y hy
    rcases mem_modify hy with hy | ⟨x, hx, rfl⟩
    · exact h.pending y hy
    · rw [hi] at hx
      cases hx
      exact ⟨(h.pending r (List.mem_of_getElem? hi)).1, fun _ => ⟨hgood, hlen⟩⟩
  · intro y hy
    rcases mem_modify hy with hy | ⟨x, hx, rfl⟩
    · exact h.kept y hy
    · exact h.kept x (List.mem_of_getElem? hx)
  · dsimp only
    rw [htotal]
    exact h.room

/-- Bytes are taken from the front of the buffer. -/
theorem Reading.get {n : Nat} (hn : n ≤ f.buffer.length) (h : Reading cfg good src len got f) :
    Reading cfg good src len (got ++ f.buffer.take n) { f with buffer := f.buffer.drop n } := by
  have hsum : (got ++ f.buffer.take n).length + (f.buffer.drop n).length = got.length + f.buffer.length := by
    rw [List.length_append, List.length_take, List.length_drop]
    omega
  have hroom := h.room
  refine ⟨?_, ?_, h.endAddr, ?_, ?_, h.pending, h.kept, ?_⟩
  · dsimp only
    rw [hsum, List.append_assoc, List.take_append_drop]
    exact h.data
  · dsimp only
    rw [hsum]
    exact h.nextAddr
  · dsimp only
    rw [hsum]
    exact h.bounded
  · dsimp only
    rw [hsum]
    exact h.contiguous
  · dsimp only
    rw [List.length_drop]
    omega

theorem Idle.start {size : Word} (hnil : ∀ a, good a 0 []) (h : f.Idle) (hsize : size = BitVec.ofNat 64 len) :
    Reading cfg good src len [] { f with nextAddr := src, endAddr := src + size } := by
  refine ⟨?_, ?_, ?_, ?_, ?_, ?_, ?_, ?_⟩
  · simpa [h.buffer] using hnil src
  · simp [h.buffer, h.pending]
  · rw [hsize]
  · simp [h.buffer, h.pending]
  · simp [h.pending, Contiguous]
  · simp [h.pending]
  · simp [h.pending]
  · simp [h.buffer, h.pending]

/-- When all bytes have been taken, the FIFO is idle. -/
theorem Reading.idle (h : Reading cfg good src len got f) (hgot : len ≤ got.length) : f.Idle ∧ got.length = len := by
  have hb := h.bounded
  have hbuffer : f.buffer.length = 0 := by omega
  have hpending : f.pendingRequests = [] := by
    cases hp : f.pendingRequests with
    | nil => rfl
    | cons r rs =>
      have := (h.pending r (by rw [hp]; exact List.mem_cons_self ..)).1
      rw [hp, total_cons] at hb
      omega
  have hlen : got.length = len := by omega
  refine ⟨⟨List.length_eq_zero_iff.mp hbuffer, hpending, ?_⟩, hlen⟩
  rw [h.nextAddr, h.endAddr, hbuffer, hpending, hlen]
  rfl

end Steps

end ReadFifo

/-! ## The write FIFO -/

namespace WriteFifo

/-- Nothing is in the FIFO, and nothing on its way. -/
structure Idle (f : WriteFifo) : Prop where
  buffer : f.buffer = []
  pending : f.pendingRequests = []
  atEnd : f.nextAddr = f.endAddr

/-- The FIFO writes the block of `len` bytes from `dst` on. Of the bytes that were filled in, `old` have been written
and retired, and those of the finished requests have been written. -/
structure Writing (dst : Word) (len : Nat) (filled : List Byte) (mem : Memory) (old : List Byte) (f : WriteFifo) :
    Prop where
  data : filled = old ++ (f.pendingRequests.map (·.data)).flatten ++ f.buffer
  nextAddr : f.nextAddr = dst + BitVec.ofNat 64 (old.length + total f.pendingRequests)
  endAddr : f.endAddr = dst + BitVec.ofNat 64 len
  bounded : filled.length ≤ len
  contiguous : Contiguous (dst + BitVec.ofNat 64 old.length) f.pendingRequests
  pending : ∀ r ∈ f.pendingRequests, r.data.length = r.size
  old : Settled mem dst old
  done : ∀ r ∈ f.pendingRequests, r.done = true → Settled mem r.addr r.data

section Steps

variable {cfg : FifoConfig} {dst : Word} {len : Nat} {filled old : List Byte} {mem : Memory} {f : WriteFifo}

theorem Writing.length (h : Writing dst len filled mem old f) :
    filled.length = old.length + total f.pendingRequests + f.buffer.length := by
  rw [h.data, List.length_append, List.length_append, length_flatten_data h.pending]

theorem Writing.resumeEmpty (h : Writing dst len filled mem old f) :
    Writing dst len filled mem old (f.resumeEmpty cfg) := by
  obtain ⟨rs, hrs⟩ := resumeEmpty_issued cfg f
  generalize f.resumeEmpty cfg = f' at hrs
  refine ⟨?_, ?_, ?_, h.bounded, ?_, ?_, h.old, ?_⟩
  · rw [hrs.pending, List.map_append, List.flatten_append, ← List.append_assoc, List.append_assoc _ _ f'.buffer,
      ← hrs.buffer]
    exact h.data
  · rw [hrs.nextAddr, h.nextAddr, hrs.pending, total_append, add_add_ofNat, Nat.add_assoc]
  · rw [hrs.endAddr]
    exact h.endAddr
  · rw [hrs.pending, contiguous_append]
    refine ⟨h.contiguous, ?_⟩
    rw [add_add_ofNat, ← h.nextAddr]
    exact hrs.contiguous
  · intro r hr
    rw [hrs.pending, List.mem_append] at hr
    rcases hr with hr | hr
    · exact h.pending r hr
    · exact (hrs.sound r hr).2.1
  · intro r hr hdone
    rw [hrs.pending, List.mem_append] at hr
    rcases hr with hr | hr
    · exact h.done r hr hdone
    · have := (hrs.sound r hr).1
      rw [hdone] at this
      cases this

/-- The bytes of finished requests are in memory. -/
theorem settled_flatten : ∀ {rs : List Req} {a : Word}, Contiguous a rs →
    (∀ r ∈ rs, r.data.length = r.size ∧ Settled mem r.addr r.data) → Settled mem a (rs.map (·.data)).flatten
  | [], a, _, _ => fun j b hj => by cases hj
  | r :: rs, a, hc, h => by
    obtain ⟨hlen, hr⟩ := h r (List.mem_cons_self ..)
    rw [hc.1] at hr
    refine hr.append ?_
    rw [hlen]
    exact settled_flatten hc.2 fun x hx => h x (List.mem_cons_of_mem _ hx)

theorem Writing.handlePending (h : Writing dst len filled mem old f) :
    ∃ old', Writing dst len filled mem old' f.handlePending := by
  obtain ⟨fin, rest, hfin, hrest, hsplit, hfront⟩ := finished_split f.pendingRequests
  unfold WriteFifo.handlePending
  rw [hfin, hrest]
  obtain ⟨hc₁, hc₂⟩ := contiguous_append.mp (hsplit ▸ h.contiguous)
  have hmem : ∀ r ∈ fin, r ∈ f.pendingRequests := fun r hr => by
    rw [← hsplit]
    exact List.mem_append_left _ hr
  have hmem' : ∀ r ∈ rest, r ∈ f.pendingRequests := fun r hr => by
    rw [← hsplit]
    exact List.mem_append_right _ hr
  have hlen := length_flatten_data fun r hr => h.pending r (hmem r hr)
  refine ⟨old ++ (fin.map (·.data)).flatten, ?_, ?_, h.endAddr, h.bounded, ?_, ?_, ?_, ?_⟩
  · have := h.data
    rw [← hsplit, List.map_append, List.flatten_append] at this
    simpa only [List.append_assoc] using this
  · show f.nextAddr = _
    rw [h.nextAddr, List.length_append, hlen, ← hsplit, total_append, Nat.add_assoc]
  · rw [List.length_append, hlen, ← add_add_ofNat]
    exact hc₂
  · exact fun r hr => h.pending r (hmem' r hr)
  · refine h.old.append (settled_flatten hc₁ fun r hr => ?_)
    exact ⟨h.pending r (hmem r hr), h.done r (hmem r hr) (hfront r hr)⟩
  · exact fun r hr => h.done r (hmem' r hr)

theorem Writing.complete {i : Nat} {r : Req} (hlen : len < 2 ^ 63) (h : Writing dst len filled mem old f)
    (hi : f.pendingRequests[i]? = some r) :
    Writing dst len filled (writeBytes mem r.addr r.data) old
      { f with pendingRequests := f.pendingRequests.modify i fun r => { r with done := true } } := by
  have htotal : total (f.pendingRequests.modify i fun r => { r with done := true }) = total f.pendingRequests :=
    total_modify fun _ => rfl
  have hdata : (f.pendingRequests.modify i fun r => { r with done := true }).map (·.data) =
      f.pendingRequests.map (·.data) := map_data_modify fun _ => rfl
  have hr := h.pending r (List.mem_of_getElem? hi)
  have hsize := total_take_add_size_le_total hi
  have hl := h.length
  have hb := h.bounded
  have hoffset : ∀ {j : Nat} {x : Req}, f.pendingRequests[j]? = some x →
      x.addr = dst + BitVec.ofNat 64 (old.length + total (f.pendingRequests.take j)) := fun hj => by
    rw [h.contiguous.addr hj, add_add_ofNat]
  refine ⟨?_, ?_, h.endAddr, h.bounded, h.contiguous.modify (fun _ => rfl) (fun _ => rfl), ?_, ?_, ?_⟩
  · dsimp only
    rw [hdata]
    exact h.data
  · dsimp only
    rw [htotal]
    exact h.nextAddr
  · intro y hy
    rcases mem_modify hy with hy | ⟨x, hx, rfl⟩
    · exact h.pending y hy
    · exact h.pending x (List.mem_of_getElem? hx)
  · rw [hoffset hi]
    have hold : Settled mem (dst + BitVec.ofNat 64 0) old := by
      rw [BitVec.add_zero]
      exact h.old
    have hnew : Settled (writeBytes mem (dst + BitVec.ofNat 64 (old.length + total (f.pendingRequests.take i))) r.data)
        (dst + BitVec.ofNat 64 0) old := hold.writeBytes (by omega) (by omega) (by omega)
    rwa [BitVec.add_zero] at hnew
  · intro y hy hdone
    obtain ⟨j, hj⟩ := List.getElem?_of_mem hy
    by_cases hij : i = j
    · subst hij
      rw [List.getElem?_modify_eq, hi] at hj
      cases hj
      exact settled_writeBytes (by omega)
    · rw [List.getElem?_modify_ne _ _ hij] at hj
      have hy' := h.pending y (List.mem_of_getElem? hj)
      have hset := h.done y (List.mem_of_getElem? hj) hdone
      have hsize' := total_take_add_size_le_total hj
      rw [hoffset hj] at hset ⊢
      rw [hoffset hi]
      refine hset.writeBytes (by omega) (by omega) ?_
      rcases Nat.lt_or_gt_of_ne hij with hlt | hlt
      · have := total_take_add_size_le hi hlt
        omega
      · have := total_take_add_size_le hj hlt
        omega

theorem Writing.fill {src : List Byte} (h : Writing dst len filled mem old f)
    (hsrc : filled.length + src.length ≤ len) :
    Writing dst len (filled ++ src) mem old { f with buffer := f.buffer ++ src } := by
  refine ⟨?_, h.nextAddr, h.endAddr, by rw [List.length_append]; exact hsrc, h.contiguous, h.pending, h.old, h.done⟩
  rw [← List.append_assoc, ← h.data]

theorem Idle.start {size : Word} {log : List Action} (h : f.Idle) (hsize : size = BitVec.ofNat 64 len) :
    Writing dst len [] mem [] { f with nextAddr := dst, endAddr := dst + size, log := log } := by
  refine ⟨?_, ?_, ?_, Nat.zero_le _, ?_, ?_, ?_, ?_⟩
  · simp [h.buffer, h.pending]
  · simp [h.pending]
  · rw [hsize]
  · simp [h.pending, Contiguous]
  · simp [h.pending]
  · intro j b hj
    cases hj
  · simp [h.pending]

theorem eq_of_tryFill {src : List Byte} {f' : WriteFifo} (h : f.tryFill cfg src = (f', true)) :
    f' = { f with buffer := f.buffer ++ src }.resumeEmpty cfg := by
  unfold tryFill at h
  split at h
  · exact (Prod.mk.inj h).1.symm
  · cases (Prod.mk.inj h).2

/-- When all bytes have been filled in and the FIFO is not active, they are in memory. -/
theorem Writing.idle (hlen : len < 2 ^ 63) (h : Writing dst len filled mem old f) (hactive : f.isActive = false) :
    filled.length = len → f.Idle ∧ Settled mem dst filled := by
  intro hfilled
  rw [isActive_eq_false] at hactive
  obtain ⟨hpending, hend⟩ := hactive
  have hend' : f.nextAddr = f.endAddr := of_decide_eq_true hend
  have hl := h.length
  have hold : old.length = len := by
    have hsub := add_ofNat_sub dst (i := len) (o := old.length) hlen (by omega)
    rw [← h.endAddr, ← hend', h.nextAddr, hpending, total_nil, Nat.add_zero, sub_self, if_pos (by omega)] at hsub
    have : (0 : Word).toNat = 0 := rfl
    omega
  have hbuffer : f.buffer = [] := List.length_eq_zero_iff.mp (by omega)
  refine ⟨⟨hbuffer, hpending, hend'⟩, ?_⟩
  have hdata := h.data
  rw [hpending, hbuffer] at hdata
  rw [hdata]
  simpa using h.old

end Steps

end WriteFifo

/-! ## The device -/

/-- The source and the destination have no byte in common. -/
def Apart (src dst : Word) (len : Int) : Prop :=
  ∀ i j : Nat, (i : Int) < len → (j : Int) < len → src + BitVec.ofNat 64 i ≠ dst + BitVec.ofNat 64 j

/-- What a read of `n` bytes at `a` may return: what was there when the transfer started, unless the destination
overlaps the source. -/
def MayRead (src dst : Word) (len : Int) (origin : Memory) (a : Word) (n : Nat) (data : List Byte) : Prop :=
  data.length = n ∧ (Apart src dst len → data = readBytes origin a n)

/-- A transfer of `len` bytes, of which `left` have yet to be moved and `got` have been. -/
structure Copying (cfg : FifoConfig) (src dst : Word) (len : Int) (origin mem : Memory) (left : Int) (rf : ReadFifo)
    (wf : WriteFifo) (got : List Byte) : Prop where
  nonneg : 0 ≤ len
  small : len < 2 ^ 31
  left : left = len - got.length
  reading : rf.Reading cfg (MayRead src dst len origin) src len.toNat got
  writing : ∃ old, wf.Writing dst len.toNat got mem old
  outside : ∀ x, (∀ j < len.toNat, x ≠ dst + BitVec.ofNat 64 j) → mem x = origin x

/-- A transfer of a negative number of bytes writes nothing and does not end. -/
structure Stuck (left : Int) (wf : WriteFifo) : Prop where
  left : left < 0
  buffer : wf.buffer = []
  pending : wf.pendingRequests = []
  atEnd : wf.nextAddr ≠ wf.endAddr

section Transfer

variable {cfg : FifoConfig} {src dst : Word} {len left : Int} {origin mem : Memory} {rf : ReadFifo} {wf : WriteFifo}
  {got : List Byte}

theorem mayRead_nil (a : Word) : MayRead src dst len origin a 0 [] := ⟨rfl, fun _ => rfl⟩

theorem MayRead.append {a : Word} {n m : Nat} {x y : List Byte} (hx : MayRead src dst len origin a n x)
    (hy : MayRead src dst len origin (a + BitVec.ofNat 64 n) m y) : MayRead src dst len origin a (n + m) (x ++ y) := by
  refine ⟨by rw [List.length_append, hx.1, hy.1], fun hapart => ?_⟩
  rw [hx.2 hapart, hy.2 hapart, readBytes_append]

theorem Copying.readBytes {o n : Nat} (h : Copying cfg src dst len origin mem left rf wf got) (ho : o + n ≤ len.toNat)
    (hapart : Apart src dst len) :
    readBytes mem (src + BitVec.ofNat 64 o) n = readBytes origin (src + BitVec.ofNat 64 o) n := by
  refine List.map_congr_left fun i hi => h.outside _ fun j hj => ?_
  have hi' := List.mem_range.mp hi
  rw [add_add_ofNat]
  exact hapart (o + i) j (by omega) (by omega)

/-- A request of the read FIFO reads memory and completes. -/
theorem Copying.readDone {i : Nat} {r : Req} (hmax : 0 < cfg.maxReqSize)
    (h : Copying cfg src dst len origin mem left rf wf got) (hi : rf.pendingRequests[i]? = some r) :
    Copying cfg src dst len origin mem left (rf.process cfg i (Dma.readBytes mem r.addr r.size)) wf got := by
  refine ⟨h.nonneg, h.small, h.left, ?_, h.writing, h.outside⟩
  have hsmall := h.small
  have haddr := h.reading.contiguous.addr hi
  rw [add_add_ofNat] at haddr
  have hsize := total_take_add_size_le_total hi
  have hb := h.reading.bounded
  have hmay : MayRead src dst len origin r.addr r.size (Dma.readBytes mem r.addr r.size) := by
    refine ⟨length_readBytes .., fun hapart => ?_⟩
    rw [haddr]
    exact h.readBytes (by omega) hapart
  have hcomplete := h.reading.complete hi hmay (length_readBytes ..)
  exact (hcomplete.handlePending mayRead_nil fun _ _ _ _ _ => MayRead.append).resumeFill hmax (by omega)

/-- A request of the write FIFO writes memory and completes. -/
theorem Copying.writeDone {i : Nat} {r : Req} (h : Copying cfg src dst len origin mem left rf wf got)
    (hi : wf.pendingRequests[i]? = some r) :
    Copying cfg src dst len origin (writeBytes mem r.addr r.data) left rf (wf.process cfg i) got := by
  obtain ⟨old, hw⟩ := h.writing
  have hsmall := h.small
  have haddr := hw.contiguous.addr hi
  rw [add_add_ofNat] at haddr
  refine ⟨h.nonneg, h.small, h.left, h.reading, ?_, ?_⟩
  · obtain ⟨old', hw'⟩ := (hw.complete (by omega) hi).handlePending
    exact ⟨old', hw'.resumeEmpty⟩
  · intro x hx
    have hsize := total_take_add_size_le_total hi
    have hl := hw.length
    have hb := hw.bounded
    have hr := hw.pending r (List.mem_of_getElem? hi)
    rw [haddr, writeBytes_of_outside (by omega) hx]
    exact h.outside x hx

theorem Copying.move {n : Nat} (hmax : 0 < cfg.maxReqSize) (h : Copying cfg src dst len origin mem left rf wf got)
    (hn : n ≤ rf.buffer.length) :
    Copying cfg src dst len origin mem (left - n) ({ rf with buffer := rf.buffer.drop n }.resumeFill cfg)
      ({ wf with buffer := wf.buffer ++ rf.buffer.take n }.resumeEmpty cfg) (got ++ rf.buffer.take n) := by
  obtain ⟨old, hw⟩ := h.writing
  have hsmall := h.small
  have hb := h.reading.bounded
  have hlen : (rf.buffer.take n).length = n := by simpa using hn
  refine ⟨h.nonneg, h.small, ?_, (h.reading.get hn).resumeFill hmax (by omega), ⟨old, ?_⟩, h.outside⟩
  · rw [List.length_append, hlen, h.left]
    omega
  · exact (hw.fill (by rw [hlen]; omega)).resumeEmpty

theorem Copying.start {log : List Action} (hmax : 0 < cfg.maxReqSize) (hr : rf.Idle) (hw : wf.Idle) (hlen : 0 ≤ len)
    (hsmall : len < 2 ^ 31) : Copying cfg src dst len mem mem len
      ({ rf with nextAddr := src, endAddr := src + BitVec.ofInt 64 len }.resumeFill cfg)
      ({ wf with nextAddr := dst, endAddr := dst + BitVec.ofInt 64 len, log := log }.resumeEmpty cfg) [] := by
  have hsize : BitVec.ofInt 64 len = BitVec.ofNat 64 len.toNat := by
    rw [← BitVec.ofInt_natCast, Int.toNat_of_nonneg hlen]
  refine ⟨hlen, hsmall, by simp, ?_, ⟨[], (hw.start hsize).resumeEmpty⟩, fun _ _ => rfl⟩
  exact (hr.start mayRead_nil hsize).resumeFill hmax (by omega)

theorem Stuck.start {log : List Action} (hmax : 0 < cfg.maxReqSize) (hw : wf.Idle) (hlen : len < 0)
    (hsmall : -2 ^ 31 ≤ len) : Stuck len
      ({ wf with nextAddr := dst, endAddr := dst + BitVec.ofInt 64 len, log := log }.resumeEmpty cfg) := by
  obtain ⟨rs, hrs⟩ := WriteFifo.resumeEmpty_issued cfg
    { wf with nextAddr := dst, endAddr := dst + BitVec.ofInt 64 len, log := log }
  generalize WriteFifo.resumeEmpty cfg _ = wf' at hrs ⊢
  have hbuffer : [] = (rs.map (·.data)).flatten ++ wf'.buffer := by
    rw [← hw.buffer]
    exact hrs.buffer
  obtain ⟨hflat, hnil⟩ := List.append_eq_nil_iff.mp hbuffer.symm
  -- a request takes at least one byte, and there is none
  obtain rfl : rs = [] := by
    cases rs with
    | nil => rfl
    | cons r rs =>
      obtain ⟨-, hdata, -, hpos⟩ := hrs.sound r (List.mem_cons_self ..)
      have := congrArg List.length hflat
      simp only [List.map_cons, List.flatten_cons, List.length_append, List.length_nil] at this
      omega
  refine ⟨hlen, hnil, by rw [hrs.pending, hw.pending]; rfl, ?_⟩
  rw [hrs.nextAddr, hrs.endAddr]
  intro h
  have hzero : (BitVec.ofInt 64 len).toInt = 0 := by
    have : dst = dst + BitVec.ofInt 64 len := by simpa using h
    rw [left_eq_add.mp this]
    rfl
  rw [BitVec.toInt_ofInt, Int.bmod_eq_of_le (by omega) (by omega)] at hzero
  omega

/-- A transfer that is done has copied its bytes, and its FIFOs are idle. -/
theorem Copying.finish (h : Copying cfg src dst len origin mem left rf wf got) (hleft : left ≤ 0)
    (hactive : wf.isActive = false) : rf.Idle ∧ wf.Idle ∧
      (Apart src dst len → ∀ i : Nat, (i : Int) < len →
      mem (dst + BitVec.ofNat 64 i) = origin (src + BitVec.ofNat 64 i)) := by
  have hsmall := h.small
  have hl := h.left
  obtain ⟨hridle, hgot⟩ := h.reading.idle (by omega)
  obtain ⟨old, hw⟩ := h.writing
  obtain ⟨hwidle, hsettled⟩ := hw.idle (by omega) hactive hgot
  refine ⟨hridle, hwidle, fun hapart i hi => hsettled i _ ?_⟩
  have hdata := h.reading.data.2 hapart
  rw [hridle.buffer, List.append_nil, List.length_nil, Nat.add_zero, hgot] at hdata
  rw [hdata]
  exact getElem?_readBytes (by omega)

end Transfer

namespace Device

/-- Between two events: the FIFOs are idle, or two of them carry a transfer. -/
inductive Phase (cfg : Config) (s : Device) : Prop
  | idle (hrun : s.running = false) (hidle : ∀ side, (s.reads side).Idle ∧ (s.writes side).Idle)
  | running (r w : Side) (hrun : s.running = true) (hr : s.readFifo = some r) (hw : s.writeFifo = some w)
      (hreads : ∀ side, side ≠ r → (s.reads side).Idle) (hwrites : ∀ side, side ≠ w → (s.writes side).Idle)
      (hstate : Stuck s.writesLeft (s.writes w) ∨
        ∃ got, Copying cfg.fifo s.activeSrc s.activeDst s.length s.origin s.mem
        s.writesLeft (s.reads r) (s.writes w) got)

section Phases

variable {cfg : Config} {s s' : Device}

theorem phase_start (cfg : Config) (flag : Byte) (mem : Memory) : Phase cfg (start cfg flag mem) :=
  .idle rfl fun _ => ⟨⟨rfl, rfl, rfl⟩, ⟨rfl, rfl, rfl⟩⟩

theorem LEN_bounds (s : Device) : -2 ^ 31 ≤ s.LEN ∧ s.LEN < 2 ^ 31 := by
  have h₁ := BitVec.le_toInt (BitVec.ofNat 32 (littleEndian s.mmreg 17 4))
  have h₂ := BitVec.toInt_lt (x := BitVec.ofNat 32 (littleEndian s.mmreg 17 4))
  exact ⟨h₁, h₂⟩

theorem Phase.startFifos {r w : Side} (hmax : 0 < cfg.maxReqSize)
    (hidle : ∀ side, (s.reads side).Idle ∧ (s.writes side).Idle) (hrun : s.running = true) (horigin : s.origin = s.mem)
    (hlength : s.length = s.writesLeft) (hlow : -2 ^ 31 ≤ s.writesLeft) (hhigh : s.writesLeft < 2 ^ 31)
    (hs : s.startFifos cfg r w = some s') : Phase cfg s' := by
  unfold Device.startFifos at hs
  split at hs
  · rename_i rf wf hrf hwf
    obtain ⟨-, hrf⟩ := Option.ite_none_right_eq_some.mp hrf
    obtain ⟨-, hwf⟩ := Option.ite_none_right_eq_some.mp hwf
    cases hs
    refine .running r w hrun rfl rfl ?_ ?_ ?_
    · intro side hside
      dsimp only
      rw [update_of_ne hside]
      exact (hidle side).1
    · intro side hside
      dsimp only
      rw [update_of_ne hside]
      exact (hidle side).2
    · dsimp only
      rw [update_self, update_self, ← Option.some.inj hrf, ← Option.some.inj hwf, horigin, hlength]
      by_cases hneg : s.writesLeft < 0
      · exact .inl (Stuck.start hmax (hidle w).2 hneg hlow)
      · exact .inr ⟨[], Copying.start hmax (hidle r).1 (hidle w).2 (Int.not_lt.mp hneg) hhigh⟩
  · cases hs

theorem Phase.begin (hmax : 0 < cfg.maxReqSize) (h : Phase cfg s) (hs : s.begin cfg = some s') : Phase cfg s' := by
  unfold Device.begin at hs
  split at hs
  · rename_i hstart
    simp only [Bool.and_eq_true, Bool.not_eq_true'] at hstart
    cases h with
    | running _ _ hrun =>
      rw [hstart.1] at hrun
      cases hrun
    | idle _ hidle =>
      obtain ⟨hlow, hhigh⟩ := LEN_bounds (s.setFlags ((s.FLAGS &&& 0xFE) ||| 0x02))
      refine Phase.startFifos hmax ?_ ?_ ?_ ?_ ?_ ?_ hs
      · exact hidle
      · rfl
      · rfl
      · rfl
      · exact hlow
      · exact hhigh
  · cases hs
    exact h

theorem Phase.move {r w : Side} (hmax : 0 < cfg.maxReqSize) (hrun : s.running = true) (hr : s.readFifo = some r)
    (hw : s.writeFifo = some w) (hreads : ∀ side, side ≠ r → (s.reads side).Idle)
    (hwrites : ∀ side, side ≠ w → (s.writes side).Idle) {got : List Byte}
    (h : Copying cfg.fifo s.activeSrc s.activeDst s.length s.origin s.mem s.writesLeft (s.reads r) (s.writes w) got)
    (hs : s.move cfg r w = some s') : Phase cfg s' := by
  have hsame : Phase cfg s := .running r w hrun hr hw hreads hwrites (.inr ⟨got, h⟩)
  unfold Device.move at hs
  dsimp only at hs
  split at hs
  · split at hs
    · cases hs
      exact hsame
    · rename_i rf data hget
      simp only [ReadFifo.tryGet, Option.ite_none_right_eq_some, Option.some.injEq, Prod.mk.injEq] at hget
      obtain ⟨hn, rfl, rfl⟩ := hget
      split at hs
      · cases hs
      · rename_i wf hfill
        cases hs
        refine .running r w hrun hr hw ?_ ?_
          (.inr ⟨got ++ (s.reads r).buffer.take (min cfg.maxReqSize s.writesLeft.toNat), ?_⟩)
        · intro side hside
          dsimp only
          rw [update_of_ne hside]
          exact hreads side hside
        · intro side hside
          dsimp only
          rw [update_of_ne hside]
          exact hwrites side hside
        · dsimp only
          rw [update_self, update_self, WriteFifo.eq_of_tryFill hfill]
          exact Copying.move hmax h hn
  · cases hs
    exact hsame

/-- What the last part of a tick does: the transfer goes on, or it is done. -/
theorem Phase.transfer (hmax : 0 < cfg.maxReqSize) (h : Phase cfg s) (hs : s.transfer cfg = some s') :
    Phase cfg s' ∧ (s.running = true → s'.running = false → s'.FLAGS &&& 0x04 = 0x04 ∧ s'.mem = s.mem ∧
      (∀ side, (s'.reads side).Idle ∧ (s'.writes side).Idle) ∧
      (∀ x, (∀ j < s.length.toNat, x ≠ s.activeDst + BitVec.ofNat 64 j) → s.mem x = s.origin x) ∧
      (Apart s.activeSrc s.activeDst s.length → ∀ i : Nat, (i : Int) < s.length →
        s.mem (s.activeDst + BitVec.ofNat 64 i) = s.origin (s.activeSrc + BitVec.ofNat 64 i))) := by
  cases h with
  | idle hrun hidle =>
    rw [Device.transfer, if_neg (by rw [hrun]; simp)] at hs
    cases hs
    refine ⟨.idle hrun hidle, fun hrun' => ?_⟩
    rw [hrun] at hrun'
    cases hrun'
  | running r w hrun hr hw hreads hwrites hstate =>
    have hsame : Phase cfg s := .running r w hrun hr hw hreads hwrites hstate
    rw [Device.transfer, if_pos hrun, hr, hw] at hs
    dsimp only at hs
    have hgoes : s'.running = s.running → s'.running ≠ false := fun hrun' hstop => by
      rw [hrun', hrun] at hstop
      cases hstop
    split at hs
    · rename_i hleft
      rcases hstate with hstuck | ⟨got, hcopy⟩
      · have := hstuck.left
        omega
      · refine ⟨Phase.move hmax hrun hr hw hreads hwrites hcopy hs, fun _ hstop => ?_⟩
        exact absurd hstop (hgoes (move_frame hs).2.1)
    · rename_i hleft
      split at hs
      · rename_i hidle
        rw [Bool.not_eq_true'] at hidle
        cases hs
        rcases hstate with hstuck | ⟨got, hcopy⟩
        · -- a stuck transfer is active
          simp [WriteFifo.isActive, WriteFifo.atEndOfBlock, hstuck.atEnd] at hidle
        · obtain ⟨hridle, hwidle, hcopied⟩ := hcopy.finish (by omega) hidle
          have hall : ∀ side, (s.reads side).Idle ∧ (s.writes side).Idle := by
            intro side
            constructor
            · by_cases hside : side = r
              · rw [hside]
                exact hridle
              · exact hreads side hside
            · by_cases hside : side = w
              · rw [hside]
                exact hwidle
              · exact hwrites side hside
          refine ⟨.idle rfl hall, fun _ _ => ⟨?_, rfl, hall, hcopy.outside, hcopied⟩⟩
          exact and_four_of_finished _
      · cases hs
        exact ⟨hsame, fun _ hstop => absurd hstop (hgoes rfl)⟩

/-- The parts of a tick, with what the transfer starts from. -/
theorem tick_parts (h : tick cfg { s with tickEvent := false } = some s') :
    ∃ s₁ s₂ b, begin cfg { s with tickEvent := false } = some s₁ ∧ transfer cfg { s₁ with interrupt := b } = some s₂ ∧
      s' = { s₂ with last_flag := s₂.FLAGS, tickEvent := s₂.tickEvent || s₂.running } := by
  obtain ⟨s₁, h₁, h₂⟩ := Option.bind_eq_some_iff.mp h
  obtain ⟨s₂, h₃, rfl⟩ := Option.map_eq_some_iff.mp h₂
  obtain ⟨b, hclear⟩ := clearInt_frame s₁
  rw [hclear] at h₃
  exact ⟨s₁, s₂, b, h₁, h₃, rfl⟩

theorem Phase.congr (h : Phase cfg s) (hreads : s'.reads = s.reads) (hwrites : s'.writes = s.writes)
    (hmem : s'.mem = s.mem) (horigin : s'.origin = s.origin) (hrun : s'.running = s.running)
    (hr : s'.readFifo = s.readFifo) (hw : s'.writeFifo = s.writeFifo) (hsrc : s'.activeSrc = s.activeSrc)
    (hdst : s'.activeDst = s.activeDst) (hlen : s'.length = s.length) (hleft : s'.writesLeft = s.writesLeft) :
    Phase cfg s' := by
  cases h with
  | idle h₁ h₂ => exact .idle (hrun.trans h₁) (by rw [hreads, hwrites]; exact h₂)
  | running r w h₁ h₂ h₃ h₄ h₅ h₆ =>
    refine .running r w (hrun.trans h₁) (hr.trans h₂) (hw.trans h₃) (by rw [hreads]; exact h₄)
      (by rw [hwrites]; exact h₅) ?_
    rw [hreads, hwrites, hmem, horigin, hsrc, hdst, hlen, hleft]
    exact h₆

theorem Phase.readDone {side : Side} {i : Nat} {r : Req} (hmax : 0 < cfg.maxReqSize) (h : Phase cfg s)
    (hi : (s.reads side).pendingRequests[i]? = some r) : Phase cfg { s with
      reads := update s.reads side ((s.reads side).process cfg.fifo i (readBytes s.mem r.addr r.size)) } := by
  have hactive : ¬(s.reads side).Idle := fun hidle => by
    rw [hidle.pending] at hi
    cases hi
  cases h with
  | idle hrun hidle => exact absurd (hidle side).1 hactive
  | running r' w hrun hr hw hreads hwrites hstate =>
    obtain rfl : side = r' := by
      by_contra hside
      exact hactive (hreads side hside)
    refine .running side w hrun hr hw ?_ hwrites ?_
    · intro x hx
      dsimp only
      rw [update_of_ne hx]
      exact hreads x hx
    · dsimp only
      rw [update_self]
      exact hstate.imp id fun ⟨got, hcopy⟩ => ⟨got, hcopy.readDone hmax hi⟩

theorem Phase.writeDone {side : Side} {i : Nat} {r : Req} (h : Phase cfg s)
    (hi : (s.writes side).pendingRequests[i]? = some r) : Phase cfg { s with
      mem := writeBytes s.mem r.addr r.data
      writes := update s.writes side ((s.writes side).process cfg.fifo i) } := by
  have hactive : ¬(s.writes side).Idle := fun hidle => by
    rw [hidle.pending] at hi
    cases hi
  cases h with
  | idle hrun hidle => exact absurd (hidle side).2 hactive
  | running r' w hrun hr hw hreads hwrites hstate =>
    obtain rfl : side = w := by
      by_contra hside
      exact hactive (hwrites side hside)
    refine .running r' side hrun hr hw hreads ?_ ?_
    · intro x hx
      dsimp only
      rw [update_of_ne hx]
      exact hwrites x hx
    · dsimp only
      rw [update_self]
      rcases hstate with hstuck | ⟨got, hcopy⟩
      · rw [hstuck.pending] at hi
        cases hi
      · exact .inr ⟨got, hcopy.writeDone hi⟩

theorem Phase.step {e : DmaEv} (hmax : 0 < cfg.maxReqSize) (h : Phase cfg s) (hs : s.step cfg e = some s') :
    Phase cfg s' := by
  cases e with
  | write offset data =>
    cases hs
    exact h.congr rfl rfl rfl rfl rfl rfl rfl rfl rfl rfl rfl
  | tick =>
    simp only [Device.step, Option.ite_none_right_eq_some] at hs
    obtain ⟨s₁, s₂, b, h₁, h₂, rfl⟩ := tick_parts hs.2
    have hs₀ : Phase cfg { s with tickEvent := false } := h.congr rfl rfl rfl rfl rfl rfl rfl rfl rfl rfl rfl
    have hs₁ : Phase cfg { s₁ with interrupt := b } :=
      (hs₀.begin hmax h₁).congr rfl rfl rfl rfl rfl rfl rfl rfl rfl rfl rfl
    exact (hs₁.transfer hmax h₂).1.congr rfl rfl rfl rfl rfl rfl rfl rfl rfl rfl rfl
  | readDone side i =>
    simp only [Device.step] at hs
    split at hs
    · rename_i r hi
      obtain ⟨-, hs⟩ := Option.ite_none_left_eq_some.mp hs
      cases hs
      exact h.readDone hmax hi
    · cases hs
  | writeDone side i =>
    simp only [Device.step] at hs
    split at hs
    · rename_i r hi
      obtain ⟨-, hs⟩ := Option.ite_none_left_eq_some.mp hs
      cases hs
      exact h.writeDone hi
    · cases hs

theorem phase_of_reachable (hmax : 0 < cfg.maxReqSize) (h : (device cfg).Reachable s) : Phase cfg s := by
  refine System.invariantWhen (I := Phase cfg) ?_ ?_ h
  · rintro s ⟨flag, mem, rfl⟩
    exact phase_start cfg flag mem
  · intro s e s' _ hs _ hstep
    exact hs.step hmax hstep

/-- **The copy**: when a tick ends a transfer, the bytes of the source, as they were when it started, are at the
destination, nothing else in memory has changed, and the FIFOs are empty with no request on its way. -/
theorem copied_of_finish (hmax : 0 < cfg.maxReqSize) (h : (device cfg).Reachable s)
    (htick : (device cfg).step s .tick = some s') (hrun : s.running = true) (hdone : s'.running = false)
    (hapart : Apart s.activeSrc s.activeDst s.length) :
    s'.FLAGS &&& 0x04 = 0x04 ∧
      (∀ i : Nat, (i : Int) < s.length →
        s'.mem (s.activeDst + BitVec.ofNat 64 i) = s.origin (s.activeSrc + BitVec.ofNat 64 i)) ∧
      (∀ x, (∀ j < s.length.toNat, x ≠ s.activeDst + BitVec.ofNat 64 j) → s'.mem x = s.origin x) ∧
      ∀ side, (s'.reads side).Idle ∧ (s'.writes side).Idle := by
  obtain ⟨-, hs⟩ := Option.ite_none_right_eq_some.mp htick
  obtain ⟨s₁, s₂, b, h₁, h₂, rfl⟩ := tick_parts hs
  have hs₁ : s₁ = { s with tickEvent := false } := by
    rcases begin_cases h₁ with ⟨⟨hidle, -⟩, -⟩ | ⟨-, heq⟩
    · have : s.running = false := hidle
      rw [hrun] at this
      cases this
    · exact heq
  rw [hs₁] at h₂
  have hphase : Phase cfg { s with tickEvent := false, interrupt := b } :=
    (phase_of_reachable hmax h).congr rfl rfl rfl rfl rfl rfl rfl rfl rfl rfl rfl
  obtain ⟨hflags, hmem, hidle, houtside, hcopied⟩ := (hphase.transfer hmax h₂).2 hrun hdone
  refine ⟨hflags, ?_, ?_, hidle⟩
  · intro i hi
    show s₂.mem _ = _
    rw [hmem]
    exact hcopied hapart i hi
  · intro x hx
    show s₂.mem x = _
    rw [hmem]
    exact houtside x hx

end Phases

/-- Two bytes from address `16` to address `32`, the second read completing first. -/
def copyTwo : List DmaEv :=
  [.write 0 [0x01, 16, 0, 0, 0, 0, 0, 0, 0, 32, 0, 0, 0, 0, 0, 0, 0, 2, 0, 0, 0], .tick, .readDone .memSide 1,
    .readDone .memSide 0, .tick, .tick, .writeDone .memSide 0, .writeDone .memSide 0]

theorem apart_copyTwo : Apart 16 32 2 := by
  have h : ∀ i < 2, ∀ j < 2, (16 : Word) + BitVec.ofNat 64 i ≠ 32 + BitVec.ofNat 64 j := by decide
  exact fun i j hi hj => h i (by omega) j (by omega)

theorem copied_of_finish_two : ∃ s s' : Device, (device demo).step s .tick = some s' ∧ s.activeSrc = 16 ∧
    s.activeDst = 32 ∧ s.length = 2 ∧ (∀ i : Nat, (i : Int) < 2 →
      s'.mem (32 + BitVec.ofNat 64 i) = s.origin (16 + BitVec.ofNat 64 i)) ∧
    ∀ side, (s'.reads side).Idle ∧ (s'.writes side).Idle := by
  obtain ⟨s, hs, hrun, hsrc, hdst, hlen, hnext⟩ := System.reachable_of_replay (S := device demo)
    (show (device demo).init (start demo 0 fun _ => 0) from ⟨0, fun _ => 0, rfl⟩) copyTwo
    (fun s => s.running = true ∧ s.activeSrc = 16 ∧ s.activeDst = 32 ∧ s.length = 2 ∧
      ((device demo).step s .tick).any (fun s' => s'.running = false) = true) (by decide)
  obtain ⟨s', hstep, hdone⟩ := (Option.any_eq_true _ _).mp hnext
  rw [decide_eq_true_eq] at hdone
  have hapart : Apart s.activeSrc s.activeDst s.length := by
    rw [hsrc, hdst, hlen]
    exact apart_copyTwo
  obtain ⟨-, hcopied, -, hidle⟩ := copied_of_finish (by decide) hs hstep hrun hdone hapart
  rw [hsrc, hdst, hlen] at hcopied
  exact ⟨s, s', hstep, hsrc, hdst, hlen, hcopied, hidle⟩

end Device

end Salam.Dma
