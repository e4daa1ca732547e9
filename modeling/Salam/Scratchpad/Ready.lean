import Salam.Scratchpad.Protocol

/-!
# The ready bits

The accelerators reach the memory through their `SPMPort`s. `getValidSPMPort` asks `canAccess` before it hands out a
port, and the packet goes to the memory at once; but when the memory is busy the packet is refused, and it waits in
`outstandingPkts` until `release` calls `recvReqRetry`, which sends it without asking again. Meanwhile another port may
have read the bytes that the packet is to read, or written those that it is to write.

Runs in which no packet is carried out on a port while another port has a refused packet for one of its bytes
(`Spm.undisturbed`) keep `Disciplined`: no access fails its check, and reads and writes of a byte alternate.
-/

namespace Salam.Scratchpad

open Function (update_eq_self update_of_ne update_self update)

/-- The packet that `tryRead` and `tryWrite` send. -/
def spmPacket (read : Bool) (id : Nat) (ad : Word) (size delay : Nat) : Packet where
  id := id
  addr := ad
  size := size
  isRead := read
  isWrite := !read
  isSwap := false
  isWritebackClean := false
  needsResponse := true
  cacheResponding := false
  isSecure := false
  delay := delay

/-- The panics of the memory, and the assertion of `recvReqRetry`. -/
inductive Fault
  | memory (e : Err)
  | noOutstandingPkts
  deriving DecidableEq

/-- A panic that is none of the two of the check. -/
def Fault.isOther : Fault → Bool
  | .memory .notWritten => false
  | .memory .notCleared => false
  | _ => true

/-- The memory with the `SPMPort`s of the accelerators: the port `p` is the other side of `spm_ports[p]`, which is
number `p + 1` of the memory. `accesses` are the packets that were carried out; nothing reads them. -/
structure Spm where
  mem : St
  outstandingPkts : Nat → List Packet
  accesses : List Packet

namespace Spm

def isStalled (s : Spm) (p : Nat) : Bool := !(s.outstandingPkts p).isEmpty

def setStalled (s : Spm) (p : Nat) (pkt : Packet) : Spm :=
  { s with outstandingPkts := Function.update s.outstandingPkts p (s.outstandingPkts p ++ [pkt]) }

def sendTimingReq (cfg : Config) (s : Spm) (p : Nat) (pkt : Packet) (jitter : Nat → Nat) : Except Fault (Spm × Bool) :=
  match s.mem.recvTimingReq cfg (p + 1) pkt (jitter pkt.id) with
  | .error e => .error (.memory e)
  | .ok (mem, taken) =>
    .ok ({ s with mem := mem, accesses := if taken then s.accesses ++ [pkt] else s.accesses }, taken)

def sendPacket (cfg : Config) (s : Spm) (p : Nat) (pkt : Packet) (jitter : Nat → Nat) : Except Fault Spm :=
  if s.isStalled p then .ok (s.setStalled p pkt)
  else
    match s.sendTimingReq cfg p pkt jitter with
    | .error e => .error e
    | .ok (s, taken) => .ok (if taken then s else s.setStalled p pkt)

/-- The loop of `recvReqRetry`; the list is what is left in `outstandingPkts`. -/
def resend (cfg : Config) (p : Nat) (jitter : Nat → Nat) : List Packet → Spm → Except Fault Spm
  | [], s => .ok { s with outstandingPkts := Function.update s.outstandingPkts p [] }
  | pkt :: pkts, s =>
    match s.sendTimingReq cfg p pkt jitter with
    | .error e => .error e
    | .ok (s, false) => .ok { s with outstandingPkts := Function.update s.outstandingPkts p (pkt :: pkts) }
    | .ok (s, true) => resend cfg p jitter pkts s

def recvReqRetry (cfg : Config) (s : Spm) (p : Nat) (jitter : Nat → Nat) : Except Fault Spm :=
  if s.isStalled p then resend cfg p jitter (s.outstandingPkts p) s else .error .noOutstandingPkts

/-- `release` calls `sendRetryReq` of the port `idx`. -/
def retries (cfg : Config) (s : Spm) (idx : Nat) : Bool :=
  idx < cfg.ports && (s.mem.releaseEvent idx).isNone && s.mem.isBusy idx && s.mem.retryReq idx

/-- One turn of the loop of `release`, with the call of `sendRetryReq`. -/
def releaseNext (cfg : Config) (s : Spm) (idx : Nat) (jitter : Nat → Nat) : Except Fault Spm :=
  let s' := { s with mem := s.mem.release cfg idx }
  match idx with
  | 0 => .ok s'
  | p + 1 => if s.retries cfg (p + 1) then s'.recvReqRetry cfg p jitter else .ok s'

end Spm

/-- `getValidSPMPort` hands out the port `p` and `tryRead` or `tryWrite` sends a packet on it, one turn of the loop of
`release`, or another event of the memory. -/
inductive SpmEv
  | issue (p : Nat) (read : Bool) (id : Nat) (ad : Word) (size delay : Nat) (jitter : Nat → Nat)
  | releaseNext (jitter : Nat → Nat)
  | memory (e : Ev)

/-- Requests and the turns of `release` have events of their own. -/
def Ev.isOther : Ev → Bool
  | .request .. => false
  | .releaseNext => false
  | _ => true

namespace Spm

/-- One event, if it can happen: what it leads to, or the panic. -/
def exec (cfg : Config) (s : Spm) : SpmEv → Option (Except Fault Spm)
  | .issue p read id ad size delay jitter =>
    if p + 1 < cfg.ports ∧ !s.isStalled p ∧ s.mem.isReady cfg ad size read ∧ jitter id ≤ cfg.latency_var then
      some (s.sendPacket cfg p (spmPacket read id ad size delay) jitter)
    else none
  | .releaseNext jitter =>
    match s.mem.pc with
    | .releasing idx => some (s.releaseNext cfg idx jitter)
    | _ => none
  | .memory e => if e.isOther then (s.mem.step cfg e).map fun mem => .ok { s with mem := mem } else none

def start : Spm where
  mem := .start
  outstandingPkts := fun _ => []
  accesses := []

end Spm

/-- The runs of the memory with accelerators on its ports. -/
def spm (cfg : Config) : System Spm SpmEv where
  init s := s = .start
  step s e := (s.exec cfg e).bind (·.toOption)

namespace Spm

/-! ## The property -/

/-- The packet is for the byte. -/
def touches (cfg : Config) (b : Nat) (pkt : Packet) : Bool := b ∈ St.offsets cfg pkt.addr pkt.size

/-- Between two reads of a byte there is a write of it, and between two writes a read. -/
def Alternates (cfg : Config) (accesses : List Packet) : Prop :=
  ∀ b xs ys zs pkt pkt', accesses = xs ++ pkt :: ys ++ pkt' :: zs → touches cfg b pkt → touches cfg b pkt' →
    pkt.isRead = pkt'.isRead → ∃ m ∈ ys, touches cfg b m ∧ m.isRead = !pkt.isRead

/-- No event ends in one of the two panics of the check. -/
def Validated (cfg : Config) (s : Spm) : Prop :=
  ∀ e, s.exec cfg e ≠ some (.error (.memory .notWritten)) ∧ s.exec cfg e ≠ some (.error (.memory .notCleared))

/-- The packet that the memory is about to take, with its port. -/
def taken (cfg : Config) (s : Spm) : SpmEv → Option (Nat × Packet)
  | .issue p read id ad size delay _ =>
    if s.mem.retryReq (p + 1) || s.mem.isBusy (p + 1) then none else some (p, spmPacket read id ad size delay)
  | .releaseNext _ =>
    match s.mem.pc with
    | .releasing (p + 1) => if s.retries cfg (p + 1) then (s.outstandingPkts p).head?.map (p, ·) else none
    | _ => none
  | .memory _ => none

/-- The packets have a byte in common. -/
def overlaps (cfg : Config) (pkt pkt' : Packet) : Bool :=
  (St.offsets cfg pkt.addr pkt.size).any fun b => touches cfg b pkt'

/-- No other port has a refused packet for a byte of the packet that the memory is about to take. -/
def undisturbed (cfg : Config) (s : Spm) (e : SpmEv) : Bool :=
  (s.taken cfg e).all fun ⟨p, pkt⟩ =>
    (List.range cfg.ports).all fun q => q = p || (s.outstandingPkts q).all fun pkt' => !overlaps cfg pkt pkt'

/-! ## One access -/

/-- The mode in which a byte is read once for each write of it. -/
structure Strict (cfg : Config) : Prop where
  readyMode : cfg.readyMode = true
  readOnInvalid : cfg.readOnInvalid = false
  writeOnValid : cfg.writeOnValid = false
  resetOnScratchpadRead : cfg.resetOnScratchpadRead = true

/-- A packet of an accelerator. -/
def Plain (pkt : Packet) : Prop := pkt = spmPacket pkt.isRead pkt.id pkt.addr pkt.size pkt.delay

/-- `canAccess`, as asked for the packet. -/
def canAccess (cfg : Config) (mem : St) (pkt : Packet) : Bool := mem.isReady cfg pkt.addr pkt.size pkt.isRead

section Access

variable {cfg : Config} {mem : St} {pkt : Packet}

/-- In this mode a packet may go ahead when its bytes are ready for a read and not for a write. -/
theorem canAccess_iff (hcfg : Strict cfg) : canAccess cfg mem pkt = true ↔
    ∀ b, touches cfg b pkt = true → mem.ready b = pkt.isRead := by
  simp only [canAccess, St.isReady, hcfg.readyMode, hcfg.readOnInvalid, hcfg.writeOnValid, touches, decide_eq_true_eq]
  cases pkt.isRead <;> simp [List.all_eq_true]

/-- The check of an access sees what `canAccess` sees, and the access turns the bits round. -/
theorem scratchpadAccess_of_canAccess (hcfg : Strict cfg) (hplain : Plain pkt) (h : canAccess cfg mem pkt = true) :
    mem.scratchpadAccess cfg pkt true = .error .outOfRange ∨
      mem.scratchpadAccess cfg pkt true = .ok (mem.setReady cfg pkt !pkt.isRead) := by
  have hswap : pkt.isSwap = false := by rw [hplain]; rfl
  have hclean : pkt.isWritebackClean = false := by rw [hplain]; rfl
  unfold canAccess at h
  unfold St.scratchpadAccess
  simp only [hswap, hclean, Bool.false_eq_true, if_false, hcfg.readyMode, hcfg.resetOnScratchpadRead, if_true,
    Bool.true_and]
  by_cases hsub : St.isSubset cfg pkt = true
  · right
    cases hread : pkt.isRead <;> rw [hread] at h <;> simp [hsub, h]
  · left
    simp [hsub]

/-- A packet that may go ahead is refused, is out of range, or turns its bits round. -/
theorem recvTimingReq_of_canAccess (p jitter : Nat) (hcfg : Strict cfg) (hplain : Plain pkt)
    (h : canAccess cfg mem pkt = true) :
    mem.recvTimingReq cfg (p + 1) pkt jitter = .error .outOfRange ∨
    (mem.retryReq (p + 1) || mem.isBusy (p + 1)) = true ∧
      (∃ mem', mem.recvTimingReq cfg (p + 1) pkt jitter = .ok (mem', false) ∧ mem'.ready = mem.ready) ∨
    (mem.retryReq (p + 1) || mem.isBusy (p + 1)) = false ∧
      ∃ mem', mem.recvTimingReq cfg (p + 1) pkt jitter = .ok (mem', true) ∧
        mem'.ready = (mem.setReady cfg pkt !pkt.isRead).ready := by
  have hcache : pkt.cacheResponding = false := by rw [hplain]; rfl
  have hrw : (pkt.isRead || pkt.isWrite) = true := by rw [hplain]; cases pkt.isRead <;> rfl
  unfold St.recvTimingReq
  simp only [hcache, hrw, Bool.false_eq_true, if_false, Bool.not_true]
  by_cases hretry : mem.retryReq (p + 1) = true
  · exact .inr (.inl ⟨by simp [hretry], mem, by simp [hretry], rfl⟩)
  by_cases hbusy : mem.isBusy (p + 1) = true
  · exact .inr (.inl ⟨by simp [hbusy], { mem with retryReq := update mem.retryReq (p + 1) true },
      by rw [if_neg hretry, if_pos hbusy], rfl⟩)
  simp only [hretry, hbusy]
  generalize hmem₀ : (if cfg.duration pkt.size ≠ 0 then
      { mem with
        releaseEvent := update mem.releaseEvent (p + 1) (some (mem.curTick + cfg.duration pkt.size))
        isBusy := update mem.isBusy (p + 1) true }
    else mem) = mem₀
  have hready : mem₀.ready = mem.ready := by
    rw [← hmem₀]
    split <;> rfl
  have hcan : canAccess cfg mem₀ pkt = true := by
    rw [canAccess_iff hcfg] at h ⊢
    rwa [hready]
  have hvalidate : decide (p + 1 ≠ 0) = true := by simp
  rw [hvalidate]
  rcases scratchpadAccess_of_canAccess hcfg hplain hcan with herr | hok
  · rw [herr]
    exact .inl rfl
  · rw [hok]
    refine .inr (.inr ⟨rfl, _, rfl, ?_⟩)
    have hneeds : pkt.needsResponse = true := by rw [hplain]; rfl
    rw [if_pos hneeds]
    obtain ⟨t, -, heq⟩ := St.respond_eq ((mem₀.setReady cfg pkt !pkt.isRead).emit
      (.accept (p + 1) pkt.id pkt.needsResponse)) ⟨_, pkt, p + 1⟩
    rw [heq]
    show (mem₀.setReady cfg pkt !pkt.isRead).ready = (mem.setReady cfg pkt !pkt.isRead).ready
    simp only [St.setReady, hready]

end Access

/-! ## The invariant -/

/-- The ready bit of a byte tells whether its last access was a write, and a refused packet may still go ahead. -/
structure Disciplined (cfg : Config) (s : Spm) : Prop where
  alternates : Alternates cfg s.accesses
  last : ∀ b xs m ys, s.accesses = xs ++ m :: ys → touches cfg b m = true → (∀ x ∈ ys, touches cfg b x = false) →
    s.mem.ready b = !m.isRead
  refused : ∀ p, ∀ pkt ∈ s.outstandingPkts p, Plain pkt ∧ canAccess cfg s.mem pkt = true ∧ p < cfg.ports
  single : ∀ p, (s.outstandingPkts p).length ≤ 1

variable {cfg : Config}

theorem disciplined_start : Disciplined cfg start := by
  constructor
  · intro b xs ys zs pkt pkt' h
    simp [start] at h
  · intro b xs m ys h
    simp [start] at h
  · intro p pkt h
    cases h
  · intro p
    exact Nat.zero_le _

section Steps

variable {cfg : Config} {s s' : Spm} {p : Nat} {pkt pkt' : Packet} {r : Except Fault Spm}

/-- The last packet for a byte, if there is one. -/
theorem exists_last (cfg : Config) (b : Nat) : ∀ l : List Packet, (∀ x ∈ l, touches cfg b x = false) ∨
    ∃ xs m ys, l = xs ++ m :: ys ∧ touches cfg b m = true ∧ ∀ x ∈ ys, touches cfg b x = false := by
  intro l
  induction l with
  | nil => exact .inl fun x hx => by cases hx
  | cons a l ih =>
    rcases ih with h | ⟨xs, m, ys, rfl, hm, hys⟩
    · cases ha : touches cfg b a
      · exact .inl (List.forall_mem_cons.mpr ⟨ha, h⟩)
      · exact .inr ⟨[], a, l, rfl, ha, h⟩
    · exact .inr ⟨a :: xs, m, ys, rfl, hm, hys⟩

/-- A packet that may go ahead continues the alternation. -/
theorem Disciplined.alternates_append (hcfg : Strict cfg) (h : Disciplined cfg s)
    (hcan : canAccess cfg s.mem pkt = true) :
    Alternates cfg (s.accesses ++ [pkt]) := by
  intro b xs ys zs a c heq ha hc hac
  rcases List.eq_nil_or_concat zs with rfl | ⟨zs, z, rfl⟩
  · obtain ⟨hl, hx⟩ := List.append_inj' heq rfl
    obtain rfl := (List.cons.inj hx).1
    have hready := (canAccess_iff hcfg).mp hcan b hc
    rcases exists_last cfg b ys with hys | ⟨us, m, vs, rfl, hm, hvs⟩
    · -- then the byte would be ready for the other kind of access
      have := h.last b xs a ys hl ha hys
      rw [hready, ← hac] at this
      simp at this
    · refine ⟨m, List.mem_append_right _ (List.mem_cons_self ..), hm, ?_⟩
      have := h.last b (xs ++ a :: us) m vs (by rw [hl]; simp) hm hvs
      rw [hready] at this
      rw [hac, this, Bool.not_not]
  · rw [List.concat_eq_append, ← List.cons_append, ← List.append_assoc] at heq
    exact h.alternates b xs ys zs a c (List.append_inj' heq rfl).1 ha hc hac

/-- Packets without a common byte do not disturb each other. -/
theorem canAccess_setReady (hcfg : Strict cfg) {mem mem' : St} {r : Bool} (h : canAccess cfg mem pkt' = true)
    (hready : mem'.ready = (mem.setReady cfg pkt r).ready) (hdisj : overlaps cfg pkt pkt' = false) :
    canAccess cfg mem' pkt' = true := by
  rw [canAccess_iff hcfg] at h ⊢
  intro b hb
  have hnot : b ∉ St.offsets cfg pkt.addr pkt.size := fun hmem => by
    have := List.any_eq_false.mp hdisj b hmem
    exact this hb
  rw [hready]
  show (if b ∈ St.offsets cfg pkt.addr pkt.size then r else mem.ready b) = pkt'.isRead
  rw [if_neg hnot]
  exact h b hb

/-- The memory takes a packet of the port `p` that may go ahead. -/
theorem Disciplined.take (hcfg : Strict cfg) (h : Disciplined cfg s) (hcan : canAccess cfg s.mem pkt = true)
    (hready : s'.mem.ready = (s.mem.setReady cfg pkt !pkt.isRead).ready) (haccesses : s'.accesses = s.accesses ++ [pkt])
    (hout : s'.outstandingPkts = update s.outstandingPkts p [])
    (hdisj : ∀ q, q ≠ p → ∀ pkt' ∈ s.outstandingPkts q, overlaps cfg pkt pkt' = false) : Disciplined cfg s' := by
  have hrest : ∀ q, ∀ pkt' ∈ s'.outstandingPkts q, q ≠ p ∧ pkt' ∈ s.outstandingPkts q := by
    intro q pkt' hmem
    rw [hout] at hmem
    by_cases hq : q = p
    · rw [hq, update_self] at hmem
      cases hmem
    · rw [update_of_ne hq] at hmem
      exact ⟨hq, hmem⟩
  refine ⟨?_, ?_, ?_, ?_⟩
  · rw [haccesses]
    exact h.alternates_append hcfg hcan
  · intro b xs m ys heq hm hys
    rw [haccesses] at heq
    rw [hready]
    show (if b ∈ St.offsets cfg pkt.addr pkt.size then !pkt.isRead else s.mem.ready b) = !m.isRead
    rcases List.eq_nil_or_concat ys with rfl | ⟨ys, y, rfl⟩
    · obtain rfl := (List.cons.inj (List.append_inj' heq rfl).2).1
      rw [if_pos (of_decide_eq_true hm)]
    · rw [List.concat_eq_append, ← List.cons_append, ← List.append_assoc] at heq
      obtain ⟨hl, hx⟩ := List.append_inj' heq rfl
      obtain rfl := (List.cons.inj hx).1
      rw [List.concat_eq_append] at hys
      rw [if_neg (of_decide_eq_false (hys pkt (by simp)))]
      exact h.last b xs m ys hl hm fun x hx => hys x (List.mem_append_left _ hx)
  · intro q pkt' hmem
    obtain ⟨hq, hmem'⟩ := hrest q pkt' hmem
    obtain ⟨hplain, hcan', hports⟩ := h.refused q pkt' hmem'
    exact ⟨hplain, canAccess_setReady hcfg hcan' hready (hdisj q hq pkt' hmem'), hports⟩
  · intro q
    rw [hout]
    by_cases hq : q = p
    · rw [hq, update_self]
      exact Nat.zero_le _
    · rw [update_of_ne hq]
      exact h.single q

/-- Everything else leaves the ready bits alone. -/
theorem Disciplined.congr (h : Disciplined cfg s) (hready : s'.mem.ready = s.mem.ready)
    (haccesses : s'.accesses = s.accesses) (hout : s'.outstandingPkts = s.outstandingPkts) : Disciplined cfg s' := by
  refine ⟨by rw [haccesses]; exact h.alternates, ?_, ?_, by rw [hout]; exact h.single⟩
  · rw [haccesses, hready]
    exact h.last
  · intro p pkt hmem
    rw [hout] at hmem
    obtain ⟨hplain, hcan, hports⟩ := h.refused p pkt hmem
    refine ⟨hplain, ?_, hports⟩
    rw [canAccess, St.isReady, hready]
    exact hcan

/-- A packet that may go ahead is refused and waits. -/
theorem Disciplined.refuse (h : Disciplined cfg s) (hready : s'.mem.ready = s.mem.ready)
    (haccesses : s'.accesses = s.accesses) (hout : s'.outstandingPkts = update s.outstandingPkts p [pkt])
    (hp : p < cfg.ports) (hplain : Plain pkt) (hcan : canAccess cfg s.mem pkt = true) : Disciplined cfg s' := by
  have hcan' : ∀ x, canAccess cfg s'.mem x = canAccess cfg s.mem x := fun x => by
    simp only [canAccess, St.isReady, hready]
  refine ⟨by rw [haccesses]; exact h.alternates, by rw [haccesses, hready]; exact h.last, ?_, ?_⟩
  · intro q x hmem
    rw [hout] at hmem
    rw [hcan']
    by_cases hq : q = p
    · rw [hq, update_self, List.mem_singleton] at hmem
      rw [hmem, hq]
      exact ⟨hplain, hcan, hp⟩
    · rw [update_of_ne hq] at hmem
      exact h.refused q x hmem
  · intro q
    rw [hout]
    by_cases hq : q = p
    · rw [hq, update_self]
      exact Nat.le_refl _
    · rw [update_of_ne hq]
      exact h.single q

/-! ## The events -/

/-- What an event that does not end in a panic does: nothing to the ready bits, or it takes a packet. -/
inductive Outcome (cfg : Config) (s : Spm) (e : SpmEv) (s' : Spm) : Prop
  | other (htaken : s.taken cfg e = none) (hready : s'.mem.ready = s.mem.ready)
      (haccesses : s'.accesses = s.accesses) (hout : s'.outstandingPkts = s.outstandingPkts)
  | refused (p : Nat) (pkt : Packet) (htaken : s.taken cfg e = none) (hp : p < cfg.ports) (hplain : Plain pkt)
      (hcan : canAccess cfg s.mem pkt = true)
      (hready : s'.mem.ready = s.mem.ready) (haccesses : s'.accesses = s.accesses)
      (hout : s'.outstandingPkts = Function.update s.outstandingPkts p [pkt])
  | took (p : Nat) (pkt : Packet) (htaken : s.taken cfg e = some (p, pkt)) (hcan : canAccess cfg s.mem pkt = true)
      (hready : s'.mem.ready = (s.mem.setReady cfg pkt !pkt.isRead).ready)
        (haccesses : s'.accesses = s.accesses ++ [pkt])
      (hout : s'.outstandingPkts = Function.update s.outstandingPkts p [])

theorem sendTimingReq_of_canAccess (p : Nat) (jitter : Nat → Nat) (hcfg : Strict cfg) (hplain : Plain pkt)
    (hcan : canAccess cfg s.mem pkt = true) :
    s.sendTimingReq cfg p pkt jitter = .error (.memory .outOfRange) ∨
    (s.mem.retryReq (p + 1) || s.mem.isBusy (p + 1)) = true ∧
      (∃ mem', s.sendTimingReq cfg p pkt jitter = .ok ({ s with mem := mem' }, false) ∧ mem'.ready = s.mem.ready) ∨
    (s.mem.retryReq (p + 1) || s.mem.isBusy (p + 1)) = false ∧
      ∃ mem', s.sendTimingReq cfg p pkt jitter = .ok (⟨mem', s.outstandingPkts, s.accesses ++ [pkt]⟩, true) ∧
        mem'.ready = (s.mem.setReady cfg pkt !pkt.isRead).ready := by
  unfold sendTimingReq
  rcases recvTimingReq_of_canAccess p (jitter pkt.id) hcfg hplain hcan with
    h | ⟨hbusy, mem', h, hready⟩ | ⟨hfree, mem', h, hready⟩
  · exact .inl (by rw [h])
  · exact .inr (.inl ⟨hbusy, mem', by rw [h]; rfl, hready⟩)
  · exact .inr (.inr ⟨hfree, mem', by rw [h]; rfl, hready⟩)

theorem plain_spmPacket (read : Bool) (id : Nat) (ad : Word) (size delay : Nat) :
    Plain (spmPacket read id ad size delay) := rfl

theorem outstandingPkts_of_not_stalled (h : s.isStalled p = false) : s.outstandingPkts p = [] := by
  unfold isStalled at h
  simpa using h

theorem update_nil_of_not_stalled (h : s.isStalled p = false) : update s.outstandingPkts p [] = s.outstandingPkts := by
  rw [← outstandingPkts_of_not_stalled h, update_eq_self]

theorem exec_issue {read : Bool} {id size delay : Nat} {ad : Word} {jitter : Nat → Nat} (hcfg : Strict cfg)
    (hr : s.exec cfg (.issue p read id ad size delay jitter) = some r) : (∃ f : Fault, r = .error f ∧ f.isOther) ∨
      ∃ s', r = .ok s' ∧ Outcome cfg s (.issue p read id ad size delay jitter) s' := by
  simp only [exec] at hr
  split at hr
  · rename_i hguard
    obtain ⟨hp, hstalled, hcan, -⟩ := hguard
    obtain rfl := Option.some.inj hr
    have hfree : s.isStalled p = false := by simpa using hstalled
    have hplain := plain_spmPacket read id ad size delay
    unfold sendPacket
    rw [hfree]
    rcases sendTimingReq_of_canAccess p jitter hcfg hplain hcan with
      h | ⟨hport, mem', h, hready⟩ | ⟨hport, mem', h, hready⟩
    · rw [h]
      exact .inl ⟨_, rfl, rfl⟩
    · rw [h]
      refine .inr ⟨_, rfl, .refused p _ (by rw [taken, if_pos hport]) (Nat.lt_of_succ_lt hp) hplain hcan hready rfl ?_⟩
      show update s.outstandingPkts p (s.outstandingPkts p ++ _) = _
      rw [outstandingPkts_of_not_stalled hfree]
      rfl
    · rw [h]
      refine .inr ⟨_, rfl, .took p (spmPacket read id ad size delay) ?_ hcan hready rfl
        (update_nil_of_not_stalled hfree).symm⟩
      rw [taken, hport]
      rfl
  · cases hr

theorem ready_release (cfg : Config) (mem : St) (idx : Nat) : (mem.release cfg idx).ready = mem.ready := by
  unfold St.release
  split
  · dsimp only
    split <;> rfl
  · rfl

theorem free_of_retries (h : s.retries cfg p = true) :
    ((s.mem.release cfg p).retryReq p || (s.mem.release cfg p).isBusy p) = false := by
  simp only [retries, Bool.and_eq_true, decide_eq_true_eq] at h
  obtain ⟨⟨⟨hp, hrel⟩, hbusy⟩, -⟩ := h
  simp [St.release, hp, hrel, hbusy]

theorem Disciplined.exec_releaseNext {jitter : Nat → Nat} (hcfg : Strict cfg) (h : Disciplined cfg s)
    (hr : s.exec cfg (.releaseNext jitter) = some r) :
    (∃ f : Fault, r = .error f ∧ f.isOther) ∨ ∃ s', r = .ok s' ∧ Outcome cfg s (.releaseNext jitter) s' := by
  simp only [exec] at hr
  split at hr
  · rename_i idx hpc
    obtain rfl := Option.some.inj hr
    have hready₀ := ready_release cfg s.mem idx
    cases idx with
    | zero => exact .inr ⟨_, rfl, .other (by rw [taken, hpc]) hready₀ rfl rfl⟩
    | succ p =>
      simp only [releaseNext]
      by_cases hretries : s.retries cfg (p + 1) = true
      · rw [if_pos hretries, recvReqRetry]
        split
        · rename_i hstalled
          -- the port has one packet, which its accelerator has asked for
          obtain ⟨pkt, hpkt⟩ : ∃ pkt, s.outstandingPkts p = [pkt] := by
            rw [← List.length_eq_one_iff]
            have hne : s.outstandingPkts p ≠ [] := by simpa [isStalled] using hstalled
            have := List.length_pos_of_ne_nil hne
            have := h.single p
            omega
          obtain ⟨hplain, hcan, hp⟩ := h.refused p pkt (by rw [hpkt]; exact List.mem_singleton_self _)
          have hcan' : canAccess cfg (s.mem.release cfg (p + 1)) pkt = true := by
            rw [canAccess, St.isReady, hready₀]
            exact hcan
          simp only [hpkt, resend]
          rcases sendTimingReq_of_canAccess (s := { s with mem := s.mem.release cfg (p + 1) }) p
            jitter hcfg hplain hcan' with hs | ⟨hbusy, -⟩ | ⟨-, mem', hs, hready⟩
          · rw [hs]
            exact .inl ⟨_, rfl, rfl⟩
          · rw [free_of_retries hretries] at hbusy
            cases hbusy
          · rw [hs]
            refine .inr ⟨_, rfl, .took p pkt ?_ hcan ?_ rfl rfl⟩
            · simp only [taken, hpc, hretries, hpkt]
              rfl
            · rw [hready]
              simp only [St.setReady, hready₀]
        · exact .inl ⟨_, rfl, rfl⟩
      · rw [if_neg hretries]
        exact .inr ⟨_, rfl, .other (by simp only [taken, hpc, if_neg hretries]) hready₀ rfl rfl⟩
  · cases hr

theorem ready_of_step {mem mem' : St} {e : Ev} (he : e.isOther = true) (h : mem.step cfg e = some mem') :
    mem'.ready = mem.ready := by
  have hdequeue : ∀ {m m' : St} {b : Bool}, m.dequeue b = .ok m' → m'.ready = m.ready := by
    intro m m' b hm
    unfold St.dequeue at hm
    split at hm <;> cases hm
    rfl
  cases e with
  | request | releaseNext => cases he
  | advance t =>
    simp only [St.step, Option.ite_none_right_eq_some] at h
    obtain ⟨-, h⟩ := h
    cases h
    rfl
  | release q =>
    simp only [St.step, Option.ite_none_right_eq_some] at h
    obtain ⟨-, h⟩ := h
    cases h
    rfl
  | dequeue b =>
    simp only [St.step, Option.ite_none_right_eq_some] at h
    have h₂ := hdequeue (ok_of_toOption h.2)
    exact h₂
  | returned =>
    simp only [St.step] at h
    split at h
    · cases h
      unfold St.dequeued
      dsimp only
      split
      · split <;> rfl
      · rfl
    · cases h
  | respRetry q b =>
    simp only [St.step, Option.ite_none_right_eq_some] at h
    have h₂ := ok_of_toOption h.2
    unfold St.recvRespRetry at h₂
    split at h₂
    · have h₃ := hdequeue h₂
      exact h₃
    · cases h₂

/-- **What an event does** while the refused packets may still go ahead. -/
theorem Disciplined.exec_cases {e : SpmEv} (hcfg : Strict cfg) (h : Disciplined cfg s) (hr : s.exec cfg e = some r) :
    (∃ f : Fault, r = .error f ∧ f.isOther) ∨ ∃ s', r = .ok s' ∧ Outcome cfg s e s' := by
  cases e with
  | issue p read id ad size delay jitter => exact exec_issue hcfg hr
  | releaseNext jitter => exact h.exec_releaseNext hcfg hr
  | memory e =>
    simp only [Spm.exec, Option.ite_none_right_eq_some, Option.map_eq_some_iff] at hr
    obtain ⟨he, mem', hmem, rfl⟩ := hr
    exact .inr ⟨_, rfl, .other rfl (ready_of_step he hmem) rfl rfl⟩

theorem Disciplined.not_overlaps_of_undisturbed {e : SpmEv} (h : Disciplined cfg s) (hC : undisturbed cfg s e = true)
    (htaken : s.taken cfg e = some (p, pkt)) :
      ∀ q, q ≠ p → ∀ pkt' ∈ s.outstandingPkts q, overlaps cfg pkt pkt' = false := by
  intro q hq pkt' hmem
  obtain ⟨-, -, hports⟩ := h.refused q pkt' hmem
  simp only [undisturbed, htaken, Option.all_some, List.all_eq_true, List.mem_range, Bool.or_eq_true,
    decide_eq_true_eq, Bool.not_eq_true'] at hC
  exact (hC q hports).resolve_left hq pkt' hmem

theorem Disciplined.step {e : SpmEv} (hcfg : Strict cfg) (h : Disciplined cfg s) (hC : undisturbed cfg s e = true)
    (hs : (spm cfg).step s e = some s') : Disciplined cfg s' := by
  obtain ⟨r, hr, hr'⟩ := Option.bind_eq_some_iff.mp hs
  obtain rfl := ok_of_toOption hr'
  rcases h.exec_cases hcfg hr with ⟨f, hf, -⟩ | ⟨s₁, hs₁, hout⟩
  · cases hf
  · cases hs₁
    cases hout with
    | other _ hready haccesses hout => exact h.congr hready haccesses hout
    | refused p pkt _ hp hplain hcan hready haccesses hout => exact h.refuse hready haccesses hout hp hplain hcan
    | took p pkt htaken hcan hready haccesses hout =>
      exact h.take hcfg hcan hready haccesses hout (h.not_overlaps_of_undisturbed hC htaken)

end Steps

/-! ## Runs -/

theorem disciplined_of_reachable (hcfg : Strict cfg) {s : Spm}
    (h : (spm cfg).ReachableWhen (fun s e => undisturbed cfg s e = true) s) : Disciplined cfg s := by
  refine System.invariantWhen (I := Disciplined cfg) ?_ ?_ h
  · rintro s rfl
    exact disciplined_start
  · intro s e s' _ hs hC hstep
    exact hs.step hcfg hC hstep

theorem Disciplined.validated (hcfg : Strict cfg) {s : Spm} (h : Disciplined cfg s) : Validated cfg s := by
  intro e
  constructor
  · intro hr
    rcases h.exec_cases hcfg hr with ⟨f, hf, hother⟩ | ⟨s', hs', -⟩
    · cases hf
      cases hother
    · cases hs'
  · intro hr
    rcases h.exec_cases hcfg hr with ⟨f, hf, hother⟩ | ⟨s', hs', -⟩
    · cases hf
      cases hother
    · cases hs'

/-- **The discipline of the ready bits**, in runs in which no packet is taken while another port has a refused packet
for one of its bytes. -/
theorem validated_of_undisturbed {cfg : Config} (hcfg : Strict cfg) {s : Spm}
    (h : (spm cfg).ReachableWhen (fun s e => undisturbed cfg s e = true) s) :
    Validated cfg s ∧ Alternates cfg s.accesses :=
  have hs := disciplined_of_reachable hcfg h
  ⟨hs.validated hcfg, hs.alternates⟩

/-- Two accelerator ports, and a memory that is busy for ten ticks with each byte. -/
def demo : Config where
  ports := 3
  start := 0
  size := 64
  readyMode := true
  readOnInvalid := false
  writeOnValid := false
  resetOnScratchpadRead := true
  latency := 20
  latency_var := 0
  duration := fun size => size * 10

theorem strict_demo : Strict demo := ⟨rfl, rfl, rfl, rfl⟩

/-- The port `0` writes the byte `0`, and its read of the byte is refused and taken at the end of `release`. -/
theorem validated_of_undisturbed_retry : ∃ s : Spm, s.accesses.length = 2 ∧ Validated demo s ∧
    Alternates demo s.accesses := by
  obtain ⟨s, hs, hlen⟩ := System.reachableWhen_of_replay (C := undisturbed demo) (S := spm demo)
    (show (spm demo).init start from rfl)
    [.issue 0 false 0 0 1 0 fun _ => 0, .memory (.advance 5), .issue 0 true 1 0 1 0 fun _ => 0,
      .memory (.advance 10), .memory (.release 1), .releaseNext fun _ => 0, .releaseNext fun _ => 0]
    (fun s => s.accesses.length = 2) (by decide)
  exact ⟨s, hlen, validated_of_undisturbed strict_demo hs⟩

/-- The panic of an event. -/
def fault? (cfg : Config) (s : Spm) (e : SpmEv) : Option Fault :=
  match s.exec cfg e with
  | some (.error f) => some f
  | _ => none

theorem not_validated_of_fault {s : Spm} {e : SpmEv} (h : fault? cfg s e = some (.memory .notWritten)) :
    ¬Validated cfg s := by
  intro hv
  unfold fault? at h
  split at h
  · rename_i f hf
    rw [Option.some.inj h] at hf
    exact (hv e).1 hf
  · cases h

/-- The port `0` writes a byte, and its read of the byte is refused. The port `1` reads the byte before the port `0` is
released, and sends its packet again. -/
theorem not_validated_after_other_read : Strict demo ∧ ∃ s, (spm demo).Reachable s ∧ ¬Validated demo s := by
  refine ⟨strict_demo, ?_⟩
  obtain ⟨s, hs, hfault⟩ := System.reachable_of_replay (S := spm demo) (show (spm demo).init start from rfl)
    [.issue 0 false 0 0 1 0 fun _ => 0, .memory (.advance 5), .issue 0 true 1 0 1 0 fun _ => 0,
      .issue 1 true 2 0 1 0 fun _ => 0, .memory (.advance 10), .memory (.release 1), .releaseNext fun _ => 0]
    (fun s => fault? demo s (.releaseNext fun _ => 0) = some (.memory .notWritten)) (by decide)
  exact ⟨s, hs, not_validated_of_fault hfault⟩

end Spm

end Salam.Scratchpad
