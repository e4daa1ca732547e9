import Salam.Base.CircleBuf
import Salam.Comm.Ownership
import Salam.Comm.Pieces
import Salam.Scratchpad.Memory

/-!
# The checks before an access

Before a port takes a request, `streamValid` or `canAccess` of its other side is asked. The address that is handed over
is the one of the next byte, the length is that of the whole request: once a packet has been sent the check reaches
beyond the request, and beyond the scratchpad when the request ends there.

* `requests_of_reachable`: what holds of a new request and is kept by a packet and by a response holds of every request.
* `readiness_check`: the check stays inside the bytes to come exactly as long as no packet was sent.
-/

namespace Salam.Comm

/-! ## What holds of every request -/

namespace St

/-- All requests have `P`. -/
def All (P : MemoryRequest → Prop) (s : St) : Prop := ∀ r < s.nextReq, P (s.reqs r)

variable {P : MemoryRequest → Prop} {cfg : Config} {s s' : St}

theorem All.congr (h : s.All P) (hreqs : s'.reqs = s.reqs) (hn : s'.nextReq = s.nextReq) : s'.All P := fun r hr => by
  rw [hreqs]
  exact h r (hn ▸ hr)

theorem All.enqueue (h : s.All P) {q : MemoryRequest} (hq : P q) : (s.enqueue q).All P := fun r hr => by
  by_cases hnew : r = s.nextReq
  · have hreq : (s.enqueue q).reqs r = q := by simp [St.enqueue, setQueue, schedule, hnew]
    rw [hreq]
    exact hq
  · have hlt : r < s.nextReq := Nat.lt_of_le_of_ne (Nat.le_of_lt_succ hr) hnew
    have hreq : (s.enqueue q).reqs r = s.reqs r := by simp [St.enqueue, setQueue, schedule, hnew]
    rw [hreq]
    exact h r hlt

theorem All.calls (hread : ∀ a n, P (.forRead a n)) (hwrite : ∀ a data, P (.forWrite a data)) {calls : List Call} :
    ∀ {s : St}, s.All P → (calls.foldl St.call s).All P := by
  induction calls with
  | nil => exact fun h => h
  | cons c calls ih =>
    intro s h
    refine ih ?_
    cases c with
    | enqueueRead add len => exact h.enqueue (hread add len)
    | enqueueWrite add data => exact h.enqueue (hwrite add data)
    | finish => exact h.congr rfl rfl

theorem All.checkMMR (hread : ∀ a n, P (.forRead a n)) (hwrite : ∀ a data, P (.forWrite a data)) (h : s.All P)
    (calls : List Call) : (s.checkMMR calls).All P := by
  unfold St.checkMMR
  split
  · exact All.calls hread hwrite (h.congr rfl rfl)
  · exact h

theorem All.process {env : Env} {d : Dir}
    (hsent : ∀ q p k, 0 < q.left → k.size = chunk cfg.cacheLineSize q.current q.left →
    P q → P (({ q with port := p } : MemoryRequest).sent k)) {kept todo : List Nat} (h : s.All P) (ho : s.Owned)
    (hq : s.queue d = kept ++ todo) (hp : process cfg env d kept todo s = .ok s') : s'.All P := by
  refine process_invariant (fun {kept rest r p s} h ho hq hport x hx => ?_) h ho hq hp
  have hr : r ∈ s.queue d := by rw [hq]; simp
  have hlt := (ho.own d r (.inl hr)).1
  have hneed := ho.waiting d r hr
  have hleft := (ho.left r hlt).mp hneed
  obtain ⟨hs, -⟩ := sent_of_carry cfg env (s := s.setQueue d (kept ++ rest)) hneed hleft (choosePort_some hport).2
  by_cases hxr : x = r
  · rw [hxr, hs.reqs_self]
    exact hsent _ _ _ hleft rfl (h r hlt)
  · rw [hs.reqs_of_ne hxr]
    exact h x (hs.nextReq ▸ hx)

theorem All.rescheduleIfWaiting (h : s.All P) : s.rescheduleIfWaiting.All P := by
  unfold St.rescheduleIfWaiting
  split
  · exact h
  · exact h.congr rfl rfl

theorem All.tick {env : Env} (hread : ∀ a n, P (.forRead a n)) (hwrite : ∀ a data, P (.forWrite a data))
    (hsent : ∀ q p k, 0 < q.left → k.size = chunk cfg.cacheLineSize q.current q.left → P q →
      P (({ q with port := p } : MemoryRequest).sent k)) (h : s.All P) (ho : s.Owned) {calls : List Call}
    (hc : ∀ c ∈ calls, c.ok = true) (ht : s.tick cfg env calls = .ok s') : s'.All P := by
  have hstart : ({ s with tickScheduled := false } : St).All P := h.congr rfl rfl
  have hostart : ({ s with tickScheduled := false } : St).Owned :=
    ho.congr rfl rfl (Nat.le_refl _) rfl rfl rfl rfl rfl fun _ _ => rfl
  have hcheck := hstart.checkMMR hread hwrite calls
  have hocheck := hostart.checkMMR hc
  simp only [St.tick] at ht
  split at ht
  · exact Except.ok.inj ht ▸ hcheck
  · unfold St.processMemoryRequests at ht
    split at ht
    · exact Except.ok.inj ht ▸ hcheck.rescheduleIfWaiting
    · split at ht
      · cases ht
      · rename_i s₁ h₁
        split at ht
        · cases ht
        · rename_i s₂ h₂
          have hall₁ : s₁.All P := hcheck.process hsent hocheck rfl h₁
          have ho₁ : s₁.Owned := hocheck.process rfl h₁
          have hall₂ : s₂.All P := hall₁.process hsent ho₁ rfl h₂
          exact Except.ok.inj ht ▸ hall₂.rescheduleIfWaiting

theorem All.resend {env : Env} {p : Nat} {ks : List Packet} : ∀ {s : St}, s.All P → (resend env p ks s).All P := by
  induction ks with
  | nil => exact fun h => h
  | cons k rest ih =>
    intro s h
    unfold St.resend
    split
    · exact ih (h.congr rfl rfl)
    · exact h

theorem All.recvPacket (hreceive : ∀ q k data, P q → P (q.receive k data)) (h : s.All P) (ho : s.Owned) {k : Packet}
    (hk : k ∈ s.inFlight) {data : List Byte}
    (hr : ({ s with inFlight := s.inFlight.erase k } : St).recvPacket k data = .ok s') : s'.All P := by
  obtain ⟨p, hp⟩ := Option.isSome_iff_exists.mp (ho.carried _ _ (ho.owner k (.inl hk)).1)
  rw [recvPacket_eq (s := { s with inFlight := s.inFlight.erase k }) data (ho.findMemRequest (.inl hk)) hp] at hr
  injection hr with hr
  subst hr
  intro x hx
  show P (Function.update s.reqs k.req ((s.reqs k.req).receive k data) x)
  by_cases hxk : x = k.req
  · subst hxk
    rw [Function.update_self]
    exact hreceive _ _ _ (h _ hx)
  · rw [Function.update_of_ne hxk]
    exact h x hx

end St

/-- **What holds of a new request and is kept by a packet and by a response holds of every request.** -/
theorem requests_of_reachable {cfg : Config} {P : MemoryRequest → Prop} (hread : ∀ a n, P (.forRead a n))
    (hwrite : ∀ a data, P (.forWrite a data))
    (hsent : ∀ q p k, 0 < q.left → k.size = chunk cfg.cacheLineSize q.current q.left → P q →
      P (({ q with port := p } : MemoryRequest).sent k))
    (hreceive : ∀ q k data, P q → P (q.receive k data)) {s : St} (h : (comm cfg).Reachable s) : s.All P := by
  refine System.invariantWhen (I := St.All P) ?_ ?_ h
  · rintro s rfl r hr
    exact absurd hr (Nat.not_lt_zero r)
  · intro s e s' hs hall _ hstep
    have ho : s.Owned := owned_of_reachable hs
    cases e with
    | call c =>
      simp only [comm, St.step] at hstep
      split at hstep
      · obtain rfl := Option.some.inj hstep
        have hcall : ([c].foldl St.call s).All P := St.All.calls hread hwrite hall
        exact hcall
      · cases hstep
    | tick calls env =>
      simp only [comm, St.step] at hstep
      split at hstep
      · rename_i hc
        rw [Bool.and_eq_true, List.all_eq_true] at hc
        exact hall.tick hread hwrite hsent ho hc.2 (ok_of_toOption hstep)
      · cases hstep
    | retry p env =>
      simp only [comm, St.step] at hstep
      split at hstep
      · exact Option.some.inj hstep ▸ hall.resend
      · cases hstep
    | response id data =>
      simp only [comm, St.step] at hstep
      split at hstep
      · rename_i k hk
        split at hstep
        · exact hall.recvPacket hreceive ho (List.mem_of_find?_eq_some hk) (ok_of_toOption hstep)
        · cases hstep
      · cases hstep
    | write flags =>
      obtain rfl := Option.some.inj hstep
      exact hall.congr rfl rfl

/-! ## The check -/

/-- What `processMemoryRequests` hands to `getValidStreamPort` and `getValidSPMPort`, and these to `streamValid` and
`canAccess`: the current address, and the `length` of the request. -/
def MemoryRequest.checkAddr (q : MemoryRequest) : Word := q.current

def MemoryRequest.checkLen (q : MemoryRequest) : Nat := q.length

/-- `StreamBuffer::canReadStream`. -/
def canReadStream (size len : Nat) : Bool := len ≤ size

/-- `StreamBuffer::canWriteStream`; the sum is a `size_t`. -/
def canWriteStream (size fifoSize len : Nat) : Bool := (size + len) % 2 ^ 64 ≤ fifoSize

/-- The stream accesses make the same tests. -/
theorem tryStream_eq {T : Type} (q : Base.CircularQueue T) (len : Nat) (block : List T) :
    q.tryReadStream len = (if canReadStream q.size len then (q.read len).map some else .ok none) ∧
      q.tryWriteStream block =
        (if canWriteStream q.size q.capacity block.length then (q.fifoWrite block).map some else .ok none) := by
  simp [Base.CircularQueue.tryReadStream, Base.CircularQueue.tryWriteStream, canReadStream, canWriteStream]

/-- `StreamBuffer::tvalid`. -/
def tvalid (size fifoSize len : Nat) (d : Dir) : Bool :=
  match d with
  | .read => canReadStream size len
  | .write => canWriteStream size fifoSize len

/-- `ScratchpadMemory::isReady` as `canAccess` of a port. -/
def canAccess (c : Scratchpad.Config) (m : Scratchpad.St) (ad : Word) (len : Nat) (d : Dir) : Bool :=
  m.isReady c ad len (d = .read)

/-- `isReady` lets every access through. -/
def unchecked (c : Scratchpad.Config) (d : Dir) : Bool :=
  !c.readyMode || (if d = .read then c.readOnInvalid else c.writeOnValid)

/-- The elements of `ready` that `isReady` reads: all up to the first that forbids the access. -/
def readyRead (c : Scratchpad.Config) (m : Scratchpad.St) (ad : Word) (len : Nat) (d : Dir) : List Nat :=
  if unchecked c d then []
  else
    let good := fun i => m.ready i = decide (d = .read)
    let is := Scratchpad.St.offsets c ad len
    is.takeWhile good ++ (is.dropWhile good).take 1

/-- The bytes that are checked are bytes of the request that are still to come. -/
def MemoryRequest.BytesInside (q : MemoryRequest) : Prop :=
    ∀ i < q.checkLen, ∃ j, q.length - q.left ≤ j ∧ j < q.length ∧
  q.checkAddr + BitVec.ofNat 64 i = q.address + BitVec.ofNat 64 j

/-- No more bytes are asked for than are still to come. -/
def MemoryRequest.CountInside (q : MemoryRequest) : Prop := q.checkLen ≤ q.left

/-- The request lies in the scratchpad. -/
def MemoryRequest.within (c : Scratchpad.Config) (q : MemoryRequest) : Prop :=
  c.start.toNat ≤ q.address.toNat ∧ q.address.toNat + q.length ≤ c.start.toNat + c.size

/-- How far a request is. -/
structure Progress (line : Nat) (q : MemoryRequest) : Prop where
  left : q.left ≤ q.length
  current : q.current = q.address + BitVec.ofNat 64 (q.length - q.left)
  once : q.length ≤ lineEnd line q.address → q.left = q.length ∨ q.left = 0

theorem progress_of_reachable {cfg : Config} {s : St} (h : (comm cfg).Reachable s) :
    s.All (Progress cfg.cacheLineSize) := by
  refine requests_of_reachable (fun a n => ?_) (fun a data => ?_) (fun q p k hleft hsize hq => ?_)
    (fun q k data hq => ?_) h
  · exact ⟨Nat.le_refl _, by simp [MemoryRequest.forRead], fun _ => .inl rfl⟩
  · exact ⟨Nat.le_refl _, by simp [MemoryRequest.forWrite], fun _ => .inl rfl⟩
  · have hmin := chunk_eq_min cfg.cacheLineSize q.current q.left
    refine ⟨?_, ?_, fun hfits => ?_⟩
    · show q.left - k.size ≤ q.length
      have := hq.left
      omega
    · show q.current + BitVec.ofNat 64 k.size = q.address + BitVec.ofNat 64 (q.length - (q.left - k.size))
      have hsum : q.length - (q.left - k.size) = q.length - q.left + k.size := by have := hq.left; omega
      rw [hq.current, hsum, BitVec.ofNat_add, BitVec.add_assoc]
    · show q.left - k.size = q.length ∨ q.left - k.size = 0
      rcases hq.once hfits with hall | hnone
      · have hstart : q.current = q.address := by
          rw [hq.current, hall, Nat.sub_self]
          simp
        rw [hstart] at hmin hsize
        have hfits : q.length ≤ lineEnd cfg.cacheLineSize q.address := hfits
        omega
      · omega
  · unfold MemoryRequest.receive
    split
    · exact ⟨hq.left, hq.current, hq.once⟩
    · exact ⟨hq.left, hq.current, hq.once⟩

section Check

variable {line : Nat} {q : MemoryRequest}

theorem Progress.countInside_iff (h : Progress line q) : q.CountInside ↔ q.left = q.length := by
  have hle := h.left
  unfold MemoryRequest.CountInside MemoryRequest.checkLen
  omega

/-- The check is about bytes to come exactly when all bytes are to come. -/
theorem Progress.bytesInside_iff (h : Progress line q) (hlen : q.length < 2 ^ 64) (hleft : 0 < q.left) :
    q.BytesInside ↔ q.left = q.length := by
  have hle := h.left
  constructor
  · intro hin
    -- the last byte that is checked
    obtain ⟨j, hj, hjn, he⟩ := hin (q.length - 1) (by unfold MemoryRequest.checkLen; omega)
    unfold MemoryRequest.checkAddr at he
    rw [h.current, BitVec.add_assoc, ← BitVec.ofNat_add] at he
    have hnat := congrArg BitVec.toNat (add_left_cancel he)
    rw [BitVec.toNat_ofNat, BitVec.toNat_ofNat, Nat.mod_eq_of_lt (show j < 2 ^ 64 by omega)] at hnat
    omega
  · intro hall i hi
    refine ⟨i, by omega, hi, ?_⟩
    unfold MemoryRequest.checkAddr
    rw [h.current, hall, Nat.sub_self]
    simp

theorem readyRead_subset (c : Scratchpad.Config) (m : Scratchpad.St) (ad : Word) (len : Nat) (d : Dir) :
    ∀ i ∈ readyRead c m ad len d, i ∈ Scratchpad.St.offsets c ad len := by
  intro i hi
  unfold readyRead at hi
  split at hi
  · exact absurd hi List.not_mem_nil
  · rcases List.mem_append.mp hi with hi | hi
    · exact (List.takeWhile_sublist _).mem hi
    · exact (List.dropWhile_sublist _).mem (List.mem_of_mem_take hi)

/-- When nothing was sent, `ready` is read inside the scratchpad. -/
theorem Progress.offsets_lt (h : Progress line q) (hall : q.left = q.length) {c : Scratchpad.Config}
    (hin : q.within c) :
    ∀ i ∈ Scratchpad.St.offsets c q.checkAddr q.checkLen, i < c.size := by
  obtain ⟨hlo, hhi⟩ := hin
  intro i hi
  have haddr : q.checkAddr = q.address := by
    unfold MemoryRequest.checkAddr
    rw [h.current, hall, Nat.sub_self]
    simp
  have hoff : (q.address - c.start).toNat = q.address.toNat - c.start.toNat := BitVec.toNat_sub_of_le hlo
  unfold Scratchpad.St.offsets MemoryRequest.checkLen at hi
  rw [haddr, hoff, List.mem_range'_1] at hi
  omega

end Check

/-- **The check stays inside the bytes to come exactly as long as no packet was sent**, which is always so for a request
that fits in its cache line. Then no element of `ready` beyond the scratchpad is read, and no byte outside the request
makes a difference. -/
theorem readiness_check {cfg : Config} {s : St} (h : (comm cfg).Reachable s) {d : Dir} {r : Nat} (hr : r ∈ s.queue d)
    (hlen : (s.reqs r).length < 2 ^ 64) :
    ((s.reqs r).BytesInside ↔ (s.reqs r).left = (s.reqs r).length) ∧
    ((s.reqs r).CountInside ↔ (s.reqs r).left = (s.reqs r).length) ∧
    ((s.reqs r).length ≤ lineEnd cfg.cacheLineSize (s.reqs r).address → (s.reqs r).left = (s.reqs r).length) ∧
    ((s.reqs r).left = (s.reqs r).length → ∀ c m, (s.reqs r).within c →
      ∀ i ∈ readyRead c m (s.reqs r).checkAddr (s.reqs r).checkLen d, i < c.size) ∧
    ((s.reqs r).left = (s.reqs r).length → ∀ c m m',
      (∀ i ∈ Scratchpad.St.offsets c (s.reqs r).current (s.reqs r).left, m.ready i = m'.ready i) →
      canAccess c m (s.reqs r).checkAddr (s.reqs r).checkLen d =
        canAccess c m' (s.reqs r).checkAddr (s.reqs r).checkLen d) := by
  have ho := owned_of_reachable h
  have hlt := (ho.own d r (.inl hr)).1
  have hleft := (ho.left r hlt).mp (ho.waiting d r hr)
  have hq : Progress cfg.cacheLineSize (s.reqs r) := progress_of_reachable h r hlt
  refine ⟨hq.bytesInside_iff hlen hleft, hq.countInside_iff, fun hfits => ?_, fun hall c m hin i hi => ?_,
    fun hall c m m' hsame => ?_⟩
  · rcases hq.once hfits with hall | hnone
    · exact hall
    · omega
  · exact hq.offsets_lt hall hin i (readyRead_subset c m _ _ d i hi)
  · have hoffs : Scratchpad.St.offsets c (s.reqs r).checkAddr (s.reqs r).checkLen =
        Scratchpad.St.offsets c (s.reqs r).current (s.reqs r).left := by
      rw [hall]
      rfl
    have hread : (Scratchpad.St.offsets c (s.reqs r).current (s.reqs r).left).all (fun i => m.ready i) =
        (Scratchpad.St.offsets c (s.reqs r).current (s.reqs r).left).all fun i => m'.ready i := by
      rw [Bool.eq_iff_iff, List.all_eq_true, List.all_eq_true]
      exact forall₂_congr fun i hi => by rw [hsame i hi]
    have hwrite : (Scratchpad.St.offsets c (s.reqs r).current (s.reqs r).left).all (fun i => !m.ready i) =
        (Scratchpad.St.offsets c (s.reqs r).current (s.reqs r).left).all fun i => !m'.ready i := by
      rw [Bool.eq_iff_iff, List.all_eq_true, List.all_eq_true]
      exact forall₂_congr fun i hi => by rw [hsame i hi]
    unfold canAccess Scratchpad.St.isReady
    rw [hoffs, hread, hwrite]

/-- A scratchpad of 72 bytes at address 0, behind the only port; a write to it has to find the bytes invalid, a read
valid. -/
def spm72 : Scratchpad.Config where
  ports := 2
  start := 0
  size := 72
  readyMode := true
  readOnInvalid := false
  writeOnValid := false
  resetOnScratchpadRead := true
  latency := 1
  latency_var := 0
  duration := fun _ => 0

theorem lineSize_pos : 0 < 64 := Nat.succ_pos 63

def onSpm : Config := ⟨[⟨.spmPorts, fun _ => true⟩], 64, lineSize_pos⟩

/-- A read of the whole scratchpad; the packet for the first line is answered. -/
def firstLine : List Ev :=
  [.call (.enqueueRead 0 72), .tick [] ⟨fun _ => true, fun _ _ => true⟩, .response 0 (List.replicate 64 0)]

theorem readiness_check_new : ∃ s, (comm onSpm).Reachable s ∧ (s.reqs 0).BytesInside ∧ (s.reqs 0).CountInside := by
  obtain ⟨s, hs, hqueue, hlen, hleft⟩ := System.reachable_of_replay (S := comm onSpm) (rfl : (comm onSpm).init .start)
    [.call (.enqueueRead 0 72)]
    (fun s => 0 ∈ s.queue .read ∧ (s.reqs 0).length = 72 ∧ (s.reqs 0).left = 72) (by decide)
  obtain ⟨hbytes, hcount, -, -, -⟩ := readiness_check hs hqueue (by rw [hlen]; decide)
  exact ⟨s, hs, hbytes.mpr (hleft.trans hlen.symm), hcount.mpr (hleft.trans hlen.symm)⟩

/-- **The second line of the read.** 8 bytes are to come, all of them valid, but 72 are checked: `isReady` reads beyond
`ready`, and refuses the access if it finds a zero there; a stream buffer with the 8 bytes would refuse it as well. -/
theorem rest_of_read_refused : ∃ s, (comm onSpm).Reachable s ∧ 0 ∈ s.queue .read ∧ (s.reqs 0).within spm72 ∧
    (s.reqs 0).left = 8 ∧ ¬(s.reqs 0).BytesInside ∧ ¬(s.reqs 0).CountInside ∧
    ∃ m : Scratchpad.St, (∀ i < spm72.size, m.ready i = true) ∧
      72 ∈ readyRead spm72 m (s.reqs 0).checkAddr (s.reqs 0).checkLen .read ∧
      canAccess spm72 m (s.reqs 0).checkAddr (s.reqs 0).checkLen .read = false ∧
      canAccess spm72 m (s.reqs 0).current (s.reqs 0).left .read = true ∧
      canReadStream 8 (s.reqs 0).checkLen = false := by
  obtain ⟨s, hs, hqueue, haddr, hlen, hleft, hcur⟩ := System.reachable_of_replay (S := comm onSpm)
    (rfl : (comm onSpm).init .start) firstLine
    (fun s => 0 ∈ s.queue .read ∧ (s.reqs 0).address = 0 ∧ (s.reqs 0).length = 72 ∧ (s.reqs 0).left = 8 ∧
      (s.reqs 0).current = 64) (by decide)
  obtain ⟨hbytes, hcount, -, -, -⟩ := readiness_check hs hqueue (by rw [hlen]; decide)
  have hsent : (s.reqs 0).left ≠ (s.reqs 0).length := by rw [hleft, hlen]; decide
  refine ⟨s, hs, hqueue, ?_, hleft, hbytes.not.mpr hsent, hcount.not.mpr hsent,
    { Scratchpad.St.start with ready := fun i => decide (i < 72) }, fun i hi => decide_eq_true hi, ?_⟩
  · unfold MemoryRequest.within
    rw [haddr, hlen]
    decide
  · unfold MemoryRequest.checkAddr MemoryRequest.checkLen
    rw [hcur, hlen, hleft]
    decide

end Salam.Comm
