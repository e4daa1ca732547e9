import Salam.Dram.Bursts

/-!
# The bookkeeping of the DRAM queues

* `Store`: the totals, the set of the burst addresses of the queued writes, and the room in the queues.
* `Packets`: each burst of an accepted read is either outstanding or served, and a packet is responded to when none of
  its bursts is outstanding any more.
* `dram_queues`: both in every run whose packets have the number of bursts that their bytes need (`Fits`).
* `events_assert`: in these runs an event finds each request time and each helper that it needs.
-/

namespace Salam.Dram.Queues

open Base (Addr)
open List (append_assoc append_nil length_append length_cons length_map length_singleton map_append map_cons map_nil
  mem_append perm_append_comm)
open Function (update_of_ne update_self)

namespace Ctrl

/-! ## The queues -/

structure Store (c : Params) (s : Ctrl) : Prop where
  readTotal : s.totalReadQueueSize = s.readQueue.length
  writeTotal : s.totalWriteQueueSize = s.writeQueue.length
  isIn : s.isInWriteQueue = (s.writeQueue.map fun d => c.burstAlign d.addr).toFinset
  distinct : (s.writeQueue.map fun d => c.burstAlign d.addr).Nodup
  readRoom : s.readQueue.length + s.respQueue.length ≤ c.readBufferSize
  writeRoom : s.writeQueue.length ≤ c.writeBufferSize
  times : s.requestTimes.Perm ((s.readQueue ++ s.writeQueue).map fun d => (d.pkt.masterId, d.addr))
  event : s.respondEvent = s.respQueue.head?.map (·.readyTime)

/-! ## The packets -/

/-- The read bursts that have not been responded to, with their packets. -/
def outstanding (s : Ctrl) : List (Nat × Addr × Bool) :=
  (s.readQueue ++ s.respQueue).map fun d => (d.pkt.id, d.addr, d.burstHelper)

def pendingOf (s : Ctrl) (id : Nat) : List (Nat × Addr × Bool) := s.outstanding.filter fun x => x.1 = id

/-- The addresses of the bursts of a packet that have been served. -/
def servedOf (s : Ctrl) (id : Nat) : List Addr := (s.served.filter fun x => x.1 = id).map fun x => x.2.1

structure ReadOk (c : Params) (s : Ctrl) (p : Packet) : Prop where
  bursts : ((s.pendingOf p.id).map (·.2.1) ++ s.servedOf p.id).Perm ((Ctrl.bursts c p).map (·.1))
  flags : ∀ x ∈ s.pendingOf p.id, x.2.2 = decide (1 < (Ctrl.bursts c p).length)
  helper : 1 < (Ctrl.bursts c p).length → s.pendingOf p.id ≠ [] →
    s.helpers p.id = some ⟨(Ctrl.bursts c p).length, (Ctrl.bursts c p).length - (s.pendingOf p.id).length⟩
  responded : s.responded.count p.id = if s.pendingOf p.id = [] then 1 else 0

structure PacketOk (c : Params) (s : Ctrl) (p : Packet) : Prop where
  split : Split c.burstSize.toNat (c.getCtrlAddr p.addr).toNat ((c.getCtrlAddr p.addr).toNat + p.size.toNat)
    (Ctrl.bursts c p)
  read : p.isWrite = false → ReadOk c s p
  write : p.isWrite = true → s.pendingOf p.id = [] ∧ s.responded.count p.id = 1

structure Packets (c : Params) (s : Ctrl) : Prop where
  ids : (s.accepted.map (·.id)).Nodup
  packets : ∀ p ∈ s.accepted, PacketOk c s p
  others : ∀ id, id ∉ s.accepted.map (·.id) → s.pendingOf id = [] ∧ s.servedOf id = [] ∧ s.responded.count id = 0
  onTime : ∀ id addr readyTime tick, (id, addr, Served.ready readyTime tick) ∈ s.served → readyTime = tick

/-- What a packet's state is made of. -/
structure SameAt (s s' : Ctrl) (id : Nat) : Prop where
  pending : (s'.pendingOf id).Perm (s.pendingOf id)
  served : s'.servedOf id = s.servedOf id
  helper : s'.helpers id = s.helpers id
  responded : s'.responded.count id = s.responded.count id

section Lemmas

variable {c : Params} {s s' : Ctrl} {p : Packet} {id : Nat}

theorem pendingOf_perm (h : s'.outstanding.Perm s.outstanding) : (s'.pendingOf id).Perm (s.pendingOf id) := h.filter _

theorem SameAt.pending_nil (h : SameAt s s' id) : s'.pendingOf id = [] ↔ s.pendingOf id = [] := by
  rw [← List.perm_nil, ← List.perm_nil]
  exact ⟨h.pending.symm.trans, h.pending.trans⟩

theorem PacketOk.congr (h : PacketOk c s p) (hs : SameAt s s' p.id) : PacketOk c s' p := by
  refine ⟨h.split, fun hw => ?_, fun hw => ?_⟩
  · have hread := h.read hw
    refine ⟨?_, fun x hx => hread.flags x (hs.pending.mem_iff.mp hx), fun hlen hne => ?_, ?_⟩
    · rw [hs.served]
      exact ((hs.pending.map _).append_right _).trans hread.bursts
    · rw [hs.helper, hs.pending.length_eq]
      exact hread.helper hlen fun h0 => hne (hs.pending_nil.mpr h0)
    · rw [hs.responded, hread.responded]
      simp only [hs.pending_nil]
  · rw [hs.responded, hs.pending_nil]
    exact h.write hw

theorem count_push {ids : List Nat} {a : Nat} : (ids ++ [a]).count id = ids.count id + if a = id then 1 else 0 := by
  rw [List.count_append, List.count_singleton]
  simp

/-- What is neither of the queues nor of the packets. -/
theorem Store.congr (h : Store c s) (hr : s'.readQueue = s.readQueue) (hw : s'.writeQueue = s.writeQueue)
    (hresp : s'.respQueue = s.respQueue) (hin : s'.isInWriteQueue = s.isInWriteQueue)
    (hrt : s'.totalReadQueueSize = s.totalReadQueueSize) (hwt : s'.totalWriteQueueSize = s.totalWriteQueueSize)
    (htimes : s'.requestTimes = s.requestTimes) (hevent : s'.respondEvent = s.respondEvent) : Store c s' := by
  constructor
  · rw [hrt, hr]
    exact h.readTotal
  · rw [hwt, hw]
    exact h.writeTotal
  · rw [hin, hw]
    exact h.isIn
  · rw [hw]
    exact h.distinct
  · rw [hr, hresp]
    exact h.readRoom
  · rw [hw]
    exact h.writeRoom
  · rw [htimes, hr, hw]
    exact h.times
  · rw [hevent, hresp]
    exact h.event

theorem Packets.congr (h : Packets c s) (hsame : ∀ id, SameAt s s' id) (haccepted : s'.accepted = s.accepted)
    (hserved : s'.served = s.served) : Packets c s' := by
  refine ⟨?_, fun p hp => ?_, fun id hid => ?_, ?_⟩
  · rw [haccepted]
    exact h.ids
  · rw [haccepted] at hp
    exact (h.packets p hp).congr (hsame p.id)
  · rw [haccepted] at hid
    rw [(hsame id).responded, (hsame id).served, (hsame id).pending_nil]
    exact h.others id hid
  · rw [hserved]
    exact h.onTime

theorem Packets.step (h : Packets c s)
    (haccepted : s'.accepted = s.accepted ∧ p ∈ s.accepted ∨
      s'.accepted = s.accepted ++ [p] ∧ p.id ∉ s.accepted.map (·.id))
    (hother : ∀ id, id ≠ p.id → SameAt s s' id) (hself : PacketOk c s' p)
    (honTime : ∀ id addr readyTime tick, (id, addr, Served.ready readyTime tick) ∈ s'.served → readyTime = tick) :
    Packets c s' := by
  have hmem : ∀ q ∈ s'.accepted, q = p ∨ q ∈ s.accepted := by
    intro q hq
    obtain ⟨heq, -⟩ | ⟨heq, -⟩ := haccepted
    · rw [heq] at hq
      exact .inr hq
    · rw [heq, mem_append, List.mem_singleton] at hq
      exact hq.symm
  have hids : (s'.accepted.map (·.id)).Nodup := by
    obtain ⟨heq, -⟩ | ⟨heq, hnew⟩ := haccepted
    · rw [heq]
      exact h.ids
    · rw [heq, map_append, List.map_singleton, ← List.concat_eq_append, List.nodup_concat]
      exact ⟨hnew, h.ids⟩
  have hp : p ∈ s'.accepted := by
    obtain ⟨heq, hp⟩ | ⟨heq, -⟩ := haccepted
    · rw [heq]
      exact hp
    · rw [heq]
      exact List.mem_append_right _ (List.mem_singleton_self p)
  refine ⟨hids, fun q hq => ?_, fun id hid => ?_, honTime⟩
  · by_cases heq : q.id = p.id
    · rw [List.inj_on_of_nodup_map hids hq hp heq]
      exact hself
    · obtain rfl | hq := hmem q hq
      · exact absurd rfl heq
      · exact (h.packets q hq).congr (hother q.id heq)
  · have hne : id ≠ p.id := by
      rintro rfl
      exact hid (List.mem_map_of_mem hp)
    have hsame := hother id hne
    rw [hsame.responded, hsame.served, hsame.pending_nil]
    refine h.others id fun hmem => hid ?_
    obtain ⟨heq, -⟩ | ⟨heq, -⟩ := haccepted
    · rwa [heq]
    · rw [heq, map_append]
      exact List.mem_append_left _ hmem

end Lemmas

/-! ## Writes -/

section Writes

variable {c : Params} {s s' : Ctrl} {pkt : Packet} {burst : Addr × BitVec 32}

/-- What the loop of `addToWriteQueue` does not touch. -/
structure SameReads (s s' : Ctrl) : Prop where
  readQueue : s'.readQueue = s.readQueue
  respQueue : s'.respQueue = s.respQueue
  helpers : s'.helpers = s.helpers
  accepted : s'.accepted = s.accepted
  responded : s'.responded = s.responded
  served : s'.served = s.served

theorem SameReads.outstanding (h : SameReads s s') : s'.outstanding = s.outstanding := by
  rw [Ctrl.outstanding, Ctrl.outstanding, h.readQueue, h.respQueue]

theorem SameReads.trans {s'' : Ctrl} (h : SameReads s s') (h' : SameReads s' s'') : SameReads s s'' :=
  ⟨h'.readQueue.trans h.readQueue, h'.respQueue.trans h.respQueue, h'.helpers.trans h.helpers,
    h'.accepted.trans h.accepted, h'.responded.trans h.responded, h'.served.trans h.served⟩

theorem addWriteBurst_spec (h : Store c s) (hsize : burst.2 ≠ 0) (hroom : s.writeQueue.length < c.writeBufferSize) :
    ∃ s', addWriteBurst c pkt s burst = .ok s' ∧ Store c s' ∧ SameReads s s' ∧
      s'.writeQueue.length ≤ s.writeQueue.length + 1 := by
  rw [addWriteBurst, if_neg hsize]
  by_cases hin : c.burstAlign burst.1 ∈ s.isInWriteQueue
  · rw [if_pos hin]
    exact ⟨s, rfl, h, ⟨rfl, rfl, rfl, rfl, rfl, rfl⟩, Nat.le_succ _⟩
  · have hcard : (insert (c.burstAlign burst.1) s.isInWriteQueue).card = s.totalWriteQueueSize + 1 := by
      rw [Finset.card_insert_of_notMem hin, h.isIn, List.toFinset_card_of_nodup h.distinct, length_map, h.writeTotal]
    have htotal : ¬ ¬ s.totalWriteQueueSize < c.writeBufferSize := by
      rw [h.writeTotal]
      exact not_not.mpr hroom
    rw [if_neg hin, if_neg htotal]
    simp only [logRequest, hcard, ne_eq, not_true_eq_false, if_false]
    refine ⟨_, rfl, ⟨h.readTotal, ?_, ?_, ?_, h.readRoom, ?_, ?_, h.event⟩, ⟨rfl, rfl, rfl, rfl, rfl, rfl⟩, ?_⟩
    · simp only [length_append, length_singleton, h.writeTotal]
    · simp only [map_append, map_cons, map_nil, List.toFinset_append, h.isIn]
      ext a
      simp
    · have hnew : c.burstAlign burst.1 ∉ s.writeQueue.map fun d => c.burstAlign d.addr := by
        rw [h.isIn, List.mem_toFinset] at hin
        exact hin
      simp only [map_append, map_cons, map_nil]
      rw [← List.concat_eq_append, List.nodup_concat]
      exact ⟨hnew, h.distinct⟩
    · simp only [length_append, length_singleton]
      exact hroom
    · simp only [← append_assoc, map_append, map_cons, map_nil]
      have htimes := h.times
      rw [map_append] at htimes
      exact htimes.append_right _
    · simp

theorem addWriteBursts_spec {bursts : List (Addr × BitVec 32)} (h : Store c s) (hsize : ∀ burst ∈ bursts, burst.2 ≠ 0)
    (hroom : s.writeQueue.length + bursts.length ≤ c.writeBufferSize) :
    ∃ s', bursts.foldlM (addWriteBurst c pkt) s = .ok s' ∧ Store c s' ∧ SameReads s s' := by
  induction bursts generalizing s with
  | nil => exact ⟨s, rfl, h, rfl, rfl, rfl, rfl, rfl, rfl⟩
  | cons burst bursts ih =>
    rw [length_cons] at hroom
    obtain ⟨s₁, hs₁, h₁, hsame₁, hlen⟩ :=
      addWriteBurst_spec h (hsize burst List.mem_cons_self) (by omega : s.writeQueue.length < c.writeBufferSize)
    obtain ⟨s', hs', h', hsame'⟩ := ih h₁ (fun b hb => hsize b (List.mem_cons_of_mem _ hb)) (by omega)
    refine ⟨s', ?_, h', hsame₁.trans hsame'⟩
    rw [List.foldlM_cons, hs₁]
    exact hs'

/-- **A write**: it is responded to, and its bursts are in the write queue. -/
theorem addToWriteQueue_spec (hstore : Store c s) (h : Packets c s) (hnew : pkt.id ∉ s.accepted.map (·.id))
    (hw : pkt.isWrite = true) (hsplit : Split c.burstSize.toNat (c.getCtrlAddr pkt.addr).toNat
      ((c.getCtrlAddr pkt.addr).toNat + pkt.size.toNat) (Ctrl.bursts c pkt)) (hshift : ¬ c.badShift pkt.addr = true)
    (hroom : s.writeQueue.length + (Ctrl.bursts c pkt).length ≤ c.writeBufferSize) :
    ∃ s', addToWriteQueue c { s with accepted := s.accepted ++ [pkt] } pkt = .ok s' ∧ Store c s' ∧ Packets c s' := by
  have hstart : Store c { s with accepted := s.accepted ++ [pkt] } := hstore.congr rfl rfl rfl rfl rfl rfl rfl rfl
  obtain ⟨s₁, hs₁, h₁, hsame⟩ := addWriteBursts_spec hstart (fun burst => hsplit.size_ne_zero) hroom
  obtain ⟨s', hs', hstore', hout, hhelpers, haccepted, hresponded, hserved⟩ : ∃ s',
      addToWriteQueue c { s with accepted := s.accepted ++ [pkt] } pkt = .ok s' ∧ Store c s' ∧
        s'.outstanding = s.outstanding ∧ s'.helpers = s.helpers ∧ s'.accepted = s.accepted ++ [pkt] ∧
        s'.responded = s.responded ++ [pkt.id] ∧ s'.served = s.served := by
    refine ⟨{ s₁.accessAndRespond pkt with nextReqEvent := true }, ?_, ?_, hsame.outstanding, hsame.helpers,
      hsame.accepted, congrArg (· ++ [pkt.id]) hsame.responded, hsame.served⟩
    · rw [addToWriteQueue, if_neg hshift, hs₁]
      rfl
    · exact ⟨h₁.readTotal, h₁.writeTotal, h₁.isIn, h₁.distinct, h₁.readRoom, h₁.writeRoom, h₁.times, h₁.event⟩
  have hpending : ∀ id, s'.pendingOf id = s.pendingOf id := fun id => by rw [pendingOf, hout, pendingOf]
  obtain ⟨hnone, -, hzero⟩ := h.others pkt.id hnew
  refine ⟨s', hs', hstore', h.step (.inr ⟨haccepted, hnew⟩) (fun id hid => ⟨?_, ?_, ?_, ?_⟩)
    ⟨hsplit, fun hread => ?_, fun _ => ?_⟩ ?_⟩
  · rw [hpending]
  · rw [servedOf, hserved, servedOf]
  · rw [hhelpers]
  · rw [hresponded, count_push, if_neg hid.symm, Nat.add_zero]
  · rw [hw] at hread
    cases hread
  · rw [hpending, hresponded, count_push, if_pos rfl, hzero]
    exact ⟨hnone, rfl⟩
  · rw [hserved]
    exact h.onTime

end Writes

/-! ## Reads -/

section Reads

variable {c : Params} {s s₀ s' : Ctrl} {pkt : Packet} {burst : Addr × BitVec 32} {done : List (Addr × BitVec 32)}
  {id k : Nat} {helper : Bool}

theorem length_bursts : (Ctrl.bursts c pkt).length = (dramPktCount c pkt).toNat := by
  have hlen : ∀ (end_ : Addr) (cnt : Nat) (addr : Addr), (burstsFrom c end_ cnt addr).length = cnt := by
    intro end_ cnt
    induction cnt with
    | zero => exact fun _ => rfl
    | succ cnt ih => exact fun addr => congrArg (· + 1) (ih _)
  exact hlen ..

/-- The loop of `addToReadQueue` after the bursts `done`. -/
structure Adding (c : Params) (s₀ : Ctrl) (pkt : Packet) (done : List (Addr × BitVec 32)) (s : Ctrl) (k : Nat)
    (helper : Bool) : Prop where
  store : Store c s
  bursts : ((s.pendingOf pkt.id).map (·.2.1) ++ s.servedOf pkt.id).Perm (done.map (·.1))
  flags : ∀ x ∈ s.pendingOf pkt.id, x.2.2 = decide (1 < (Ctrl.bursts c pkt).length)
  count : k = (s.servedOf pkt.id).length
  split : helper = decide (1 < (Ctrl.bursts c pkt).length ∧ s.pendingOf pkt.id ≠ [])
  made : helper = true → s.helpers pkt.id = some ⟨(Ctrl.bursts c pkt).length, 0⟩
  other : ∀ id, id ≠ pkt.id → SameAt s₀ s id
  accepted : s.accepted = s₀.accepted
  responded : s.responded = s₀.responded
  onTime : ∀ id addr readyTime tick, (id, addr, Served.ready readyTime tick) ∈ s.served → readyTime = tick
  length : s.readQueue.length = s₀.readQueue.length + (s.pendingOf pkt.id).length
  respQueue : s.respQueue = s₀.respQueue

theorem outstanding_push {d : DRAMPacket} (hread : s'.readQueue = s.readQueue ++ [d])
    (hresp : s'.respQueue = s.respQueue) :
    s'.outstanding.Perm (s.outstanding ++ [(d.pkt.id, d.addr, d.burstHelper)]) := by
  have hperm : (s.readQueue ++ [d] ++ s.respQueue).Perm (s.readQueue ++ s.respQueue ++ [d]) := by
    rw [append_assoc, append_assoc]
    exact perm_append_comm.append_left _
  have hpush : s.outstanding ++ [(d.pkt.id, d.addr, d.burstHelper)] =
      (s.readQueue ++ s.respQueue ++ [d]).map fun d => (d.pkt.id, d.addr, d.burstHelper) := by
    rw [map_append]
    rfl
  rw [hpush, outstanding, hread, hresp]
  exact hperm.map _

theorem Adding.found (h : Adding c s₀ pkt done s k helper) :
    Adding c s₀ pkt (done ++ [burst]) { s with served := s.served ++ [(pkt.id, burst.1, Served.found)] }
      (k + 1) helper := by
  have hserved : ∀ id, ({ s with served := s.served ++ [(pkt.id, burst.1, Served.found)] } : Ctrl).servedOf id =
      s.servedOf id ++ if pkt.id = id then [burst.1] else [] := by
    intro id
    rw [servedOf, List.filter_append, map_append, servedOf]
    by_cases hid : pkt.id = id
    · simp [hid]
    · simp [hid]
  obtain ⟨store, bursts, flags, count, split, made, other, accepted, responded, onTime, length, respQueue⟩ := h
  refine ⟨⟨store.readTotal, store.writeTotal, store.isIn, store.distinct, store.readRoom, store.writeRoom, store.times,
    store.event⟩, ?_, flags, ?_, split, made, fun id hid => ?_, accepted, responded, ?_, length, respQueue⟩
  · rw [hserved, if_pos rfl, ← append_assoc, map_append]
    exact bursts.append_right _
  · rw [hserved, if_pos rfl, length_append, count]
    rfl
  · have hsame := other id hid
    refine ⟨hsame.pending, ?_, hsame.helper, hsame.responded⟩
    rw [hserved, if_neg hid.symm, append_nil]
    exact hsame.served
  · intro id addr readyTime tick hmem
    obtain hmem | hmem := mem_append.mp hmem
    · exact onTime id addr readyTime tick hmem
    · simp at hmem

theorem Adding.queued (h : Adding c s₀ pkt done s k helper)
    (hroom : s.readQueue.length + s.respQueue.length + 1 ≤ c.readBufferSize) {d : DRAMPacket}
    (hd : d = ⟨pkt, burst.1, burst.2, 0, decide (1 < (Ctrl.bursts c pkt).length)⟩)
    (hs' : ∃ helpers, s' = { s with
      readQueue := s.readQueue ++ [d]
      totalReadQueueSize := s.totalReadQueueSize + 1
      requestTimes := s.requestTimes ++ [(pkt.masterId, burst.1)]
      helpers := helpers } ∧ (∀ id, id ≠ pkt.id → helpers id = s.helpers id) ∧
        (1 < (Ctrl.bursts c pkt).length → helpers pkt.id = some ⟨(Ctrl.bursts c pkt).length, 0⟩)) :
    Adding c s₀ pkt (done ++ [burst]) s' k (decide (1 < (Ctrl.bursts c pkt).length)) := by
  obtain ⟨helpers, rfl, hother, hself⟩ := hs'
  obtain ⟨store, bursts, flags, count, split, made, other, accepted, responded, onTime, length, respQueue⟩ := h
  let s' : Ctrl := { s with
    readQueue := s.readQueue ++ [d]
    totalReadQueueSize := s.totalReadQueueSize + 1
    requestTimes := s.requestTimes ++ [(pkt.masterId, burst.1)]
    helpers := helpers }
  have hout : s'.outstanding.Perm (s.outstanding ++ [(d.pkt.id, d.addr, d.burstHelper)]) := outstanding_push rfl rfl
  have hpending : ∀ id, (s'.pendingOf id).Perm (s.pendingOf id ++
      if pkt.id = id then [(pkt.id, burst.1, decide (1 < (Ctrl.bursts c pkt).length))] else []) := by
    intro id
    refine (hout.filter _).trans ?_
    rw [List.filter_append, hd]
    by_cases hid : pkt.id = id
    · simp [hid, pendingOf]
    · simp [hid, pendingOf]
  have hself' := hpending pkt.id
  rw [if_pos rfl] at hself'
  have hne : s'.pendingOf pkt.id ≠ [] := by
    intro hnil
    rw [hnil] at hself'
    simpa using hself'.length_eq
  refine ⟨⟨?_, store.writeTotal, store.isIn, store.distinct, ?_, store.writeRoom, ?_, store.event⟩, ?_, ?_, count, ?_,
    fun h1 => hself (of_decide_eq_true h1), fun id hid => ?_, accepted, responded, onTime, ?_, respQueue⟩
  · simp only [length_append, length_singleton, store.readTotal]
  · simp only [length_append, length_singleton]
    omega
  · have htimes := store.times.append_right [(pkt.masterId, burst.1)]
    refine htimes.trans ?_
    have hpush : (s.readQueue ++ s.writeQueue ++ [d]).Perm (s.readQueue ++ [d] ++ s.writeQueue) := by
      rw [append_assoc, append_assoc]
      exact perm_append_comm.append_left _
    have hmap := hpush.map fun d => (d.pkt.masterId, d.addr)
    rw [map_append, hd] at hmap
    rw [hd]
    exact hmap
  · have hmap := hself'.map (·.2.1)
    rw [map_append] at hmap
    refine (hmap.append_right _).trans ?_
    rw [append_assoc, map_append]
    refine (perm_append_comm.append_left _).trans ?_
    rw [← append_assoc]
    exact bursts.append_right _
  · intro x hx
    obtain hx | hx := mem_append.mp (hself'.mem_iff.mp hx)
    · exact flags x hx
    · rw [List.mem_singleton.mp hx]
  · exact decide_eq_decide.mpr ⟨fun h1 => ⟨h1, hne⟩, fun h1 => h1.1⟩
  · have hsame := other id hid
    have hpend := hpending id
    rw [if_neg hid.symm, append_nil] at hpend
    exact ⟨hpend.trans hsame.pending, hsame.served, (hother id hid).trans hsame.helper, hsame.responded⟩
  · have hlen := hself'.length_eq
    rw [length_append, length_singleton] at hlen
    change (s.readQueue ++ [d]).length = s₀.readQueue.length + (s'.pendingOf pkt.id).length
    rw [length_append, length_singleton, hlen, length, Nat.add_assoc]

theorem Adding.length_le (h : Adding c s₀ pkt done s k helper) : (s.pendingOf pkt.id).length ≤ done.length := by
  have hlen := h.bursts.length_eq
  simp only [length_append, length_map] at hlen
  omega

theorem addReadBurst_spec (h : Adding c s₀ pkt done s k helper) (hsize : burst.2 ≠ 0)
    (hroom : s₀.readQueue.length + s₀.respQueue.length + (Ctrl.bursts c pkt).length ≤ c.readBufferSize)
    (hdone : done.length < (Ctrl.bursts c pkt).length) :
    ∃ acc, addReadBurst c pkt (s, k, helper) burst = .ok acc ∧
    Adding c s₀ pkt (done ++ [burst]) acc.1 acc.2.1 acc.2.2 := by
  rw [addReadBurst, if_neg hsize]
  by_cases hfound : s.foundInWrQ c burst = true
  · rw [if_pos hfound]
    exact ⟨_, rfl, h.found⟩
  · have hlen := h.length
    have hle := h.length_le
    have hroom' : s.readQueue.length + s.respQueue.length + 1 ≤ c.readBufferSize := by
      rw [h.respQueue]
      omega
    have hflag : (helper || decide (1 < (dramPktCount c pkt).toNat)) = decide (1 < (Ctrl.bursts c pkt).length) := by
      rw [h.split, length_bursts]
      by_cases h1 : 1 < (dramPktCount c pkt).toNat
      · simp [h1]
      · simp [h1]
    rw [if_neg hfound]
    -- the helper is made for the first burst of a split packet that is queued
    obtain ⟨helpers, hs₁, hother, hself⟩ : ∃ helpers, (if 1 < (dramPktCount c pkt).toNat ∧ helper = false then
          { s with helpers := Function.update s.helpers pkt.id (some (BurstHelper.mk (dramPktCount c pkt).toNat 0)) }
        else s) = { s with helpers := helpers } ∧ (∀ id, id ≠ pkt.id → helpers id = s.helpers id) ∧
          (1 < (Ctrl.bursts c pkt).length → helpers pkt.id = some ⟨(Ctrl.bursts c pkt).length, 0⟩) := by
      by_cases hnew : 1 < (dramPktCount c pkt).toNat ∧ helper = false
      · rw [if_pos hnew]
        refine ⟨_, rfl, fun id hid => update_of_ne hid .., fun _ => ?_⟩
        rw [update_self, length_bursts]
      · rw [if_neg hnew]
        refine ⟨s.helpers, rfl, fun _ _ => rfl, fun h1 => h.made ?_⟩
        rw [length_bursts] at h1
        cases hh : helper with
        | true => rfl
        | false => exact absurd ⟨h1, hh⟩ hnew
    have hfull : ¬ ({ s with helpers := helpers } : Ctrl).readQueueFull c 1 = true := by
      rw [readQueueFull, decide_eq_true_eq, h.store.readTotal]
      exact not_lt.mpr hroom'
    dsimp only
    rw [hs₁, if_neg hfull, hflag]
    exact ⟨_, rfl, h.queued hroom' rfl ⟨helpers, rfl, hother, hself⟩⟩

theorem addReadBursts_spec (hstore : Store c s) (hnone : s.pendingOf pkt.id = []) (hserved : s.servedOf pkt.id = [])
    (honTime : ∀ id addr readyTime tick, (id, addr, Served.ready readyTime tick) ∈ s.served → readyTime = tick)
    (hsize : ∀ burst ∈ Ctrl.bursts c pkt, burst.2 ≠ 0)
    (hroom : s.readQueue.length + s.respQueue.length + (Ctrl.bursts c pkt).length ≤ c.readBufferSize) :
    ∃ acc, (Ctrl.bursts c pkt).foldlM (addReadBurst c pkt) (s, 0, false) = .ok acc ∧
      Adding c s pkt (Ctrl.bursts c pkt) acc.1 acc.2.1 acc.2.2 := by
  have hstart : Adding c s pkt [] s 0 false := by
    refine ⟨hstore, ?_, ?_, ?_, ?_, ?_, fun id _ => ⟨.refl _, rfl, rfl, rfl⟩, rfl, rfl, honTime, ?_, rfl⟩
    · rw [hnone, hserved]
      exact .refl _
    · rw [hnone]
      intro x hx
      cases hx
    · rw [hserved]
      rfl
    · simp [hnone]
    · intro h
      cases h
    · rw [hnone]
      rfl
  have hstep : ∀ pre a post (acc : Ctrl × Nat × Bool), [] ++ Ctrl.bursts c pkt = pre ++ a :: post →
      Adding c s pkt pre acc.1 acc.2.1 acc.2.2 → ∃ acc', addReadBurst c pkt acc a = .ok acc' ∧
        Adding c s pkt (pre ++ [a]) acc'.1 acc'.2.1 acc'.2.2 := by
    intro pre a post acc hsplit hI
    rw [List.nil_append] at hsplit
    have hlen := congrArg List.length hsplit
    rw [length_append, length_cons] at hlen
    refine addReadBurst_spec hI (hsize a ?_) hroom (by omega)
    rw [hsplit]
    exact List.mem_append_right _ List.mem_cons_self
  exact foldlM_ok (I := fun done (acc : Ctrl × Nat × Bool) => Adding c s pkt done acc.1 acc.2.1 acc.2.2) hstep hstart

theorem Adding.packets (hadd : Adding c { s with accepted := s.accepted ++ [pkt] } pkt (Ctrl.bursts c pkt) s₀ k helper)
    (h : Packets c s) (hnew : pkt.id ∉ s.accepted.map (·.id)) (hr : pkt.isWrite = false)
    (hsplit : Split c.burstSize.toNat (c.getCtrlAddr pkt.addr).toNat
      ((c.getCtrlAddr pkt.addr).toNat + pkt.size.toNat) (Ctrl.bursts c pkt))
    (hout : s'.outstanding = s₀.outstanding) (hserved : s'.served = s₀.served) (haccepted : s'.accepted = s₀.accepted)
    (hhelpers : ∀ id, id ≠ pkt.id → s'.helpers id = s₀.helpers id)
    (hself : 1 < (Ctrl.bursts c pkt).length → s₀.pendingOf pkt.id ≠ [] → s'.helpers pkt.id =
      some ⟨(Ctrl.bursts c pkt).length, (Ctrl.bursts c pkt).length - (s₀.pendingOf pkt.id).length⟩)
    (hresponded : s'.responded = s₀.responded ++ if s₀.pendingOf pkt.id = [] then [pkt.id] else []) : Packets c s' := by
  have hpending : ∀ id, s'.pendingOf id = s₀.pendingOf id := fun id => by rw [pendingOf, hout, pendingOf]
  have hservedOf : ∀ id, s'.servedOf id = s₀.servedOf id := fun id => by rw [servedOf, hserved, servedOf]
  have hcount : ∀ id, s'.responded.count id =
      s.responded.count id + if s₀.pendingOf pkt.id = [] ∧ pkt.id = id then 1 else 0 := by
    intro id
    rw [hresponded, hadd.responded]
    by_cases hnil : s₀.pendingOf pkt.id = []
    · rw [if_pos hnil, count_push]
      simp [hnil]
    · simp [hnil]
  obtain ⟨-, -, hzero⟩ := h.others pkt.id hnew
  refine h.step (.inr ⟨haccepted.trans hadd.accepted, hnew⟩) (fun id hid => ?_)
    ⟨hsplit, fun _ => ⟨?_, ?_, ?_, ?_⟩, fun hw => ?_⟩ ?_
  · have hsame := hadd.other id hid
    refine ⟨?_, ?_, ?_, ?_⟩
    · rw [hpending]
      exact hsame.pending
    · rw [hservedOf]
      exact hsame.served
    · rw [hhelpers id hid]
      exact hsame.helper
    · rw [hcount, if_neg fun hb => hid hb.2.symm, Nat.add_zero]
  · rw [hpending, hservedOf]
    exact hadd.bursts
  · rw [hpending]
    exact hadd.flags
  · rw [hpending]
    exact hself
  · rw [hcount, hzero, hpending, Nat.zero_add]
    simp only [and_true]
  · rw [hr] at hw
    cases hw
  · rw [hserved]
    exact hadd.onTime

/-- **A read**: it is responded to if the write queue has all of it; otherwise some of its bursts are in the read
queue. -/
theorem addToReadQueue_spec (hstore : Store c s) (h : Packets c s) (hnew : pkt.id ∉ s.accepted.map (·.id))
    (hr : pkt.isWrite = false) (hsplit : Split c.burstSize.toNat (c.getCtrlAddr pkt.addr).toNat
      ((c.getCtrlAddr pkt.addr).toNat + pkt.size.toNat) (Ctrl.bursts c pkt)) (hne : dramPktCount c pkt ≠ 0)
    (hshift : ¬ c.badShift pkt.addr = true)
    (hroom : s.readQueue.length + s.respQueue.length + (Ctrl.bursts c pkt).length ≤ c.readBufferSize) :
    ∃ s', addToReadQueue c { s with accepted := s.accepted ++ [pkt] } pkt = .ok s' ∧ Store c s' ∧ Packets c s' := by
  have hstart : Store c { s with accepted := s.accepted ++ [pkt] } := hstore.congr rfl rfl rfl rfl rfl rfl rfl rfl
  obtain ⟨hnone, hserved, hzero⟩ := h.others pkt.id hnew
  obtain ⟨⟨s₁, k, helper⟩, hloop, hadd⟩ := addReadBursts_spec hstart hnone hserved h.onTime
    (fun burst => hsplit.size_ne_zero) hroom
  have hlen := hadd.bursts.length_eq
  have hcount := hadd.count
  have h₁ := hadd.store
  simp only [length_append, length_map] at hlen hcount
  by_cases hk : k = (dramPktCount c pkt).toNat
  · -- all of it is in the write queue
    have hnil : s₁.pendingOf pkt.id = [] := by
      rw [← length_bursts] at hk
      exact List.eq_nil_of_length_eq_zero (by omega)
    refine ⟨s₁.accessAndRespond pkt, ?_,
      ⟨h₁.readTotal, h₁.writeTotal, h₁.isIn, h₁.distinct, h₁.readRoom, h₁.writeRoom, h₁.times, h₁.event⟩,
      hadd.packets h hnew hr hsplit rfl rfl rfl (fun _ _ => rfl) (fun _ hne => absurd hnil hne) ?_⟩
    · rw [addToReadQueue, if_neg hne, if_neg hshift, hloop]
      exact if_pos hk
    · rw [if_pos hnil]
      rfl
  · have hpending : s₁.pendingOf pkt.id ≠ [] := by
      intro hnil
      rw [hnil, List.length_nil] at hlen
      rw [← length_bursts] at hk
      omega
    obtain ⟨helpers, hs', hother, hself⟩ : ∃ helpers,
        addToReadQueue c { s with accepted := s.accepted ++ [pkt] } pkt =
          .ok { s₁ with helpers := helpers, nextReqEvent := true } ∧
        (∀ id, id ≠ pkt.id → helpers id = s₁.helpers id) ∧
        (1 < (Ctrl.bursts c pkt).length → helpers pkt.id = some ⟨(Ctrl.bursts c pkt).length, k⟩) := by
      cases hh : helper with
      | true =>
        refine ⟨Function.update s₁.helpers pkt.id ((s₁.helpers pkt.id).map fun h => { h with burstsServiced := k }), ?_,
          fun id hid => update_of_ne hid .., fun _ => ?_⟩
        · rw [addToReadQueue, if_neg hne, if_neg hshift, hloop, hh]
          exact if_neg hk
        · rw [update_self, hadd.made hh]
          rfl
      | false =>
        refine ⟨s₁.helpers, ?_, fun _ _ => rfl, fun h1 => ?_⟩
        · rw [addToReadQueue, if_neg hne, if_neg hshift, hloop, hh]
          exact if_neg hk
        · have hsplit := hadd.split
          rw [hh] at hsplit
          exact absurd ⟨h1, hpending⟩ (of_decide_eq_false hsplit.symm)
    refine ⟨_, hs', ⟨h₁.readTotal, h₁.writeTotal, h₁.isIn, h₁.distinct, h₁.readRoom, h₁.writeRoom, h₁.times, h₁.event⟩,
      hadd.packets h hnew hr hsplit rfl rfl rfl hother (fun h1 _ => ?_) ?_⟩
    · have hserved : k = (Ctrl.bursts c pkt).length - (s₁.pendingOf pkt.id).length := by omega
      rw [← hserved]
      exact hself h1
    · rw [if_neg hpending, append_nil]

end Reads

/-! ## `processNextReqEvent` -/

section Next

variable {c : Params} {s s' : Ctrl} {d : DRAMPacket} {ch : Choice} {curTick i : Nat} {dir : BusState}
  {l : List DRAMPacket}

theorem eraseIdx_perm (h : l[i]? = some d) : l.Perm (d :: l.eraseIdx i) := by
  obtain ⟨hlt, rfl⟩ := List.getElem?_eq_some_iff.mp h
  exact (List.getElem_cons_eraseIdx_perm hlt).symm

theorem of_chosen {x : Nat × DRAMPacket} (h : (ch.chosen.bind fun i => (l[i]?).map fun d => (i, d)) = some x) :
    l[x.1]? = some x.2 := by
  obtain ⟨i, -, hi⟩ := Option.bind_eq_some_iff.mp h
  obtain ⟨d, hd, rfl⟩ := Option.map_eq_some_iff.mp hi
  exact hd

theorem ok_logRead {m_id : Nat} {addr : Addr} (h : s.logResponse .READ m_id addr = .ok s') : s' = { s with
    requestTimes := s.requestTimes.erase (m_id, addr), totalReadQueueSize := s.totalReadQueueSize - 1 } := by
  rw [logResponse] at h
  split at h
  · cases h
  · exact (Except.ok.inj h).symm

theorem ok_logWrite {m_id : Nat} {addr : Addr} (h : s.logResponse .WRITE m_id addr = .ok s') : s' = { s with
    requestTimes := s.requestTimes.erase (m_id, addr), totalWriteQueueSize := s.totalWriteQueueSize - 1 } := by
  rw [logResponse] at h
  split at h
  · cases h
  · exact (Except.ok.inj h).symm

/-- The data of a read is put behind that of the reads before it. -/
theorem ok_pushResp (h : s.pushResp d = .ok s') (hevent : s.respondEvent = s.respQueue.head?.map (·.readyTime)) :
    ∃ respondEvent, s' = { s with respQueue := s.respQueue ++ [d], respondEvent := respondEvent } ∧
      respondEvent = (s.respQueue ++ [d]).head?.map (·.readyTime) := by
  rw [pushResp] at h
  cases hlast : s.respQueue.getLast? with
  | none =>
    have hnil : s.respQueue = [] := List.getLast?_eq_none_iff.mp hlast
    simp only [hlast] at h
    split at h
    · cases h
    · rw [← Except.ok.inj h]
      refine ⟨_, rfl, ?_⟩
      rw [hnil]
      rfl
  | some back =>
    simp only [hlast] at h
    split at h
    · cases h
    · split at h
      · cases h
      · rw [← Except.ok.inj h]
        refine ⟨s.respondEvent, rfl, ?_⟩
        rw [hevent]
        cases hq : s.respQueue with
        | nil =>
          rw [hq] at hlast
          cases hlast
        | cons front rest => rfl

/-- What leaves the bursts that are outstanding, in any order. -/
theorem Packets.of_perm (h : Packets c s) (hout : s'.outstanding.Perm s.outstanding) (hhelpers : s'.helpers = s.helpers)
    (haccepted : s'.accepted = s.accepted) (hresponded : s'.responded = s.responded) (hserved : s'.served = s.served) :
    Packets c s' := by
  refine h.congr (fun id => ⟨pendingOf_perm hout, ?_, ?_, ?_⟩) haccepted hserved
  · rw [servedOf, hserved, servedOf]
  · rw [hhelpers]
  · rw [hresponded]

theorem times_erase {times : List (Nat × Addr)} (h : times.Perm ((d :: l).map fun d => (d.pkt.masterId, d.addr))) :
    (times.erase (d.pkt.masterId, d.addr)).Perm (l.map fun d => (d.pkt.masterId, d.addr)) := by
  have herase := h.erase (d.pkt.masterId, d.addr)
  rw [map_cons, List.erase_cons_head] at herase
  exact herase

/-- The state after a read burst has been issued. -/
def issueRead (s : Ctrl) (i : Nat) (d : DRAMPacket) (respondEvent : Option Nat) : Ctrl :=
  { s with
    requestTimes := s.requestTimes.erase (d.pkt.masterId, d.addr)
    totalReadQueueSize := s.totalReadQueueSize - 1
    readQueue := s.readQueue.eraseIdx i
    respQueue := s.respQueue ++ [d]
    respondEvent := respondEvent }

theorem Store.issueRead {e : DRAMPacket} {respondEvent : Option Nat} (h : Store c s) (hd : s.readQueue[i]? = some d)
    (hd' : (e.pkt, e.addr, e.burstHelper) = (d.pkt, d.addr, d.burstHelper))
    (hevent : respondEvent = (s.respQueue ++ [e]).head?.map (·.readyTime)) :
      Store c (s.issueRead i e respondEvent) := by
  have hperm := eraseIdx_perm hd
  have hlen := hperm.length_eq
  have hroom := h.readRoom
  have htotal := h.readTotal
  simp only [Prod.mk.injEq] at hd'
  obtain ⟨hpkt, haddr, -⟩ := hd'
  rw [length_cons] at hlen
  refine ⟨?_, h.writeTotal, h.isIn, h.distinct, ?_, h.writeRoom, ?_, hevent⟩
  · change s.totalReadQueueSize - 1 = (s.readQueue.eraseIdx i).length
    omega
  · change (s.readQueue.eraseIdx i).length + (s.respQueue ++ [e]).length ≤ c.readBufferSize
    rw [length_append, length_singleton]
    omega
  · change (s.requestTimes.erase (e.pkt.masterId, e.addr)).Perm _
    rw [hpkt, haddr]
    exact times_erase (h.times.trans ((hperm.append_right s.writeQueue).map _))

theorem Packets.issueRead {e : DRAMPacket} (h : Packets c s) (respondEvent : Option Nat) (hd : s.readQueue[i]? = some d)
    (hd' : (e.pkt, e.addr, e.burstHelper) = (d.pkt, d.addr, d.burstHelper)) :
      Packets c (s.issueRead i e respondEvent) := by
  simp only [Prod.mk.injEq] at hd'
  obtain ⟨hpkt, haddr, hhelper⟩ := hd'
  refine h.of_perm ?_ rfl rfl rfl rfl
  have hperm : (s.readQueue.eraseIdx i ++ (s.respQueue ++ [d])).Perm (s.readQueue ++ s.respQueue) := by
    rw [← append_assoc]
    refine perm_append_comm.trans ?_
    exact (eraseIdx_perm hd).symm.append_right s.respQueue
  have hmap := hperm.map fun d => (d.pkt.id, d.addr, d.burstHelper)
  simp only [map_append, map_cons, map_nil] at hmap
  rw [outstanding, outstanding, Ctrl.issueRead]
  simp only [map_append, map_cons, map_nil, hpkt, haddr, hhelper]
  exact hmap

/-- **A read burst is issued**: it is outstanding as before. -/
theorem nextRead_spec (hstore : Store c s) (h : Packets c s) (hok : nextRead c s curTick ch = .ok s') :
    Store c s' ∧ Packets c s' := by
  have hsame : ∀ s'' : Ctrl, Store c s'' → Packets c s'' → ∀ busStateNext, Store c (scheduleNext c
      { s'' with busStateNext := busStateNext }) ∧
        Packets c (scheduleNext c { s'' with busStateNext := busStateNext }) :=
    fun s'' hstore h _ => ⟨hstore.congr rfl rfl rfl rfl rfl rfl rfl rfl, h.of_perm (.refl _) rfl rfl rfl rfl⟩
  rw [nextRead] at hok
  by_cases h0 : s.totalReadQueueSize = 0
  · rw [if_pos h0] at hok
    split at hok
    · rw [← Except.ok.inj hok]
      exact hsame s hstore h .WRITE
    · rw [← Except.ok.inj hok]
      exact ⟨hstore, h⟩
  · rw [if_neg h0] at hok
    cases hchosen : ch.chosen.bind fun i => (s.readQueue[i]?).map fun d => (i, d) with
    | none =>
      simp only [hchosen] at hok
      rw [← Except.ok.inj hok]
      exact ⟨hstore, h⟩
    | some x =>
      obtain ⟨i, d⟩ := x
      have hd : s.readQueue[i]? = some d := of_chosen hchosen
      simp only [hchosen] at hok
      split at hok
      · cases hok
      · obtain ⟨s₁, hs₁, hrest⟩ := ok_of_bind hok
        obtain ⟨s₂, hs₂, hend⟩ := ok_of_bind hrest
        obtain rfl := ok_logRead hs₁
        obtain ⟨respondEvent, rfl, hevent⟩ := ok_pushResp hs₂ hstore.event
        have hbase := hstore.issueRead (e := { d with readyTime := ch.readyTime }) hd rfl hevent
        have hpackets := h.issueRead (e := { d with readyTime := ch.readyTime }) respondEvent hd rfl
        rw [← Except.ok.inj hend]
        split
        · exact hsame _ hbase hpackets .WRITE
        · exact hsame _ hbase hpackets s.busStateNext

/-- The state after a write burst has been issued. -/
def issueWrite (c : Params) (s : Ctrl) (i : Nat) (d : DRAMPacket) : Ctrl :=
  { s with
    writesThisTime := s.writesThisTime + 1
    isInWriteQueue := s.isInWriteQueue.erase (c.burstAlign d.addr)
    requestTimes := s.requestTimes.erase (d.pkt.masterId, d.addr)
    totalWriteQueueSize := s.totalWriteQueueSize - 1
    writeQueue := s.writeQueue.eraseIdx i }

theorem Store.issueWrite (h : Store c s) (hd : s.writeQueue[i]? = some d) : Store c (s.issueWrite c i d) := by
  have hperm := eraseIdx_perm hd
  have hlen := hperm.length_eq
  have hroom := h.writeRoom
  have htotal := h.writeTotal
  have hmap := hperm.map fun d => c.burstAlign d.addr
  have hdistinct := hmap.nodup_iff.mp h.distinct
  rw [map_cons] at hmap hdistinct
  obtain ⟨hnew, hrest⟩ := List.nodup_cons.mp hdistinct
  rw [length_cons] at hlen
  refine ⟨h.readTotal, ?_, ?_, hrest, h.readRoom, ?_, ?_, h.event⟩
  · change s.totalWriteQueueSize - 1 = (s.writeQueue.eraseIdx i).length
    omega
  · change s.isInWriteQueue.erase (c.burstAlign d.addr) = _
    rw [h.isIn, List.toFinset_eq_of_perm _ _ hmap, List.toFinset_cons, Finset.erase_insert]
    · rfl
    · rw [List.mem_toFinset]
      exact hnew
  · change (s.writeQueue.eraseIdx i).length ≤ c.writeBufferSize
    omega
  · refine times_erase (h.times.trans (List.Perm.map _ ?_))
    refine (hperm.append_left s.readQueue).trans ?_
    exact List.perm_middle

/-- **A write burst is issued**. -/
theorem nextWrite_spec (hstore : Store c s) (h : Packets c s) (hok : nextWrite c s ch = .ok s') :
    Store c s' ∧ Packets c s' := by
  rw [nextWrite] at hok
  cases hchosen : ch.chosen.bind fun i => (s.writeQueue[i]?).map fun d => (i, d) with
  | none =>
    simp only [hchosen] at hok
    rw [← Except.ok.inj hok]
    exact ⟨hstore, h⟩
  | some x =>
    obtain ⟨i, d⟩ := x
    have hd : s.writeQueue[i]? = some d := of_chosen hchosen
    simp only [hchosen] at hok
    split at hok
    · cases hok
    · obtain ⟨s₁, hs₁, hend⟩ := ok_of_bind hok
      obtain rfl := ok_logWrite hs₁
      have hbase := hstore.issueWrite hd
      split at hend
      · rw [← Except.ok.inj hend]
        exact ⟨hbase.congr rfl rfl rfl rfl rfl rfl rfl rfl, h.of_perm (.refl _) rfl rfl rfl rfl⟩
      · rw [← Except.ok.inj hend]
        exact ⟨hbase.congr rfl rfl rfl rfl rfl rfl rfl rfl, h.of_perm (.refl _) rfl rfl rfl rfl⟩

theorem processNextReqEvent_spec (hstore : Store c s) (h : Packets c s)
    (hok : processNextReqEvent c s curTick ch = .ok s') : Store c s' ∧ Packets c s' := by
  rw [processNextReqEvent] at hok
  split at hok
  · rw [← Except.ok.inj hok]
    exact ⟨hstore.congr rfl rfl rfl rfl rfl rfl rfl rfl, h.of_perm (.refl _) rfl rfl rfl rfl⟩
  · split at hok
    · refine nextRead_spec ?_ ?_ hok
      · exact hstore.congr rfl rfl rfl rfl rfl rfl rfl rfl
      · exact h.of_perm (.refl _) rfl rfl rfl rfl
    · refine nextWrite_spec ?_ ?_ hok
      · exact hstore.congr rfl rfl rfl rfl rfl rfl rfl rfl
      · exact h.of_perm (.refl _) rfl rfl rfl rfl

/-! ### What can go wrong

The request time of a queued burst has been logged, so only assertions about sizes and ready times are left. -/

variable {e : Err}

theorem Store.logged (h : Store c s) (hd : d ∈ s.readQueue ++ s.writeQueue) :
    (d.pkt.masterId, d.addr) ∈ s.requestTimes :=
  h.times.symm.subset (List.mem_map_of_mem hd)

theorem logResponse_of_mem {m_id : Nat} {addr : Addr} (h : (m_id, addr) ∈ s.requestTimes) (dir : BusState) :
    ∃ s', s.logResponse dir m_id addr = .ok s' := by
  rw [logResponse, if_neg (not_not.mpr h)]
  cases dir with
  | READ => exact ⟨_, rfl⟩
  | WRITE => exact ⟨_, rfl⟩

theorem pushResp_error (h : s.pushResp d = .error e) : e = .assertion := by
  fun_cases pushResp s d <;> simp_all [pushResp]

theorem nextRead_error (h : nextRead c s curTick ch = .error e) (hstore : Store c s) : e = .assertion := by
  rw [nextRead] at h
  by_cases h0 : s.totalReadQueueSize = 0
  · rw [if_pos h0] at h
    split at h <;> cases h
  · rw [if_neg h0] at h
    cases hchosen : ch.chosen.bind fun i => (s.readQueue[i]?).map fun d => (i, d) with
    | none =>
      simp only [hchosen] at h
      cases h
    | some x =>
      obtain ⟨i, d⟩ := x
      have hd : d ∈ s.readQueue := List.mem_of_getElem? (of_chosen hchosen)
      obtain ⟨s₁, hs₁⟩ := logResponse_of_mem (hstore.logged (List.mem_append_left _ hd)) .READ
      simp only [hchosen] at h
      split at h
      · exact (Except.error.inj h).symm
      · obtain h | ⟨s₁, -, h⟩ := error_of_bind h
        · cases h.symm.trans hs₁
        · obtain h | ⟨s₂, -, h⟩ := error_of_bind h
          · exact pushResp_error h
          · cases h

theorem nextWrite_error (h : nextWrite c s ch = .error e) (hstore : Store c s) : e = .assertion := by
  rw [nextWrite] at h
  cases hchosen : ch.chosen.bind fun i => (s.writeQueue[i]?).map fun d => (i, d) with
  | none =>
    simp only [hchosen] at h
    cases h
  | some x =>
    obtain ⟨i, d⟩ := x
    have hd : d ∈ s.writeQueue := List.mem_of_getElem? (of_chosen hchosen)
    simp only [hchosen] at h
    split at h
    · exact (Except.error.inj h).symm
    · obtain h | ⟨s₁, -, h⟩ := error_of_bind h
      · obtain ⟨s₁, hs₁⟩ := logResponse_of_mem (s := { s with
          writesThisTime := s.writesThisTime + 1
          isInWriteQueue := s.isInWriteQueue.erase (c.burstAlign d.addr) })
            (hstore.logged (List.mem_append_right _ hd)) .WRITE
        cases h.symm.trans hs₁
      · split at h <;> cases h

theorem processNextReqEvent_error (hstore : Store c s) (h : processNextReqEvent c s curTick ch = .error e) :
    e = .assertion := by
  rw [processNextReqEvent] at h
  split at h
  · cases h
  · split at h
    · exact nextRead_error h (hstore.congr rfl rfl rfl rfl rfl rfl rfl rfl)
    · exact nextWrite_error h (hstore.congr rfl rfl rfl rfl rfl rfl rfl rfl)

end Next

/-! ## `processRespondEvent` -/

section Respond

variable {c : Params} {s s' : Ctrl} {d : DRAMPacket} {rest : List DRAMPacket} {p : Packet} {curTick : Nat}

/-- The packet is responded to, or its helper counts the burst. -/
theorem ok_serviced {s₁ : Ctrl} (hok : s.serviced d = .ok s₁) :
    ∃ helpers responded, s₁ = { s with helpers := helpers, responded := responded } ∧
      (∀ id, id ≠ d.pkt.id → helpers id = s.helpers id) ∧
      (responded = s.responded ++ [d.pkt.id] ∧
          (d.burstHelper = true → ∃ h, s.helpers d.pkt.id = some h ∧ h.burstsServiced + 1 = h.burstCount) ∨
        responded = s.responded ∧ d.burstHelper = true ∧ ∃ h, s.helpers d.pkt.id = some h ∧
          h.burstsServiced + 1 ≠ h.burstCount ∧ helpers d.pkt.id = some ⟨h.burstCount, h.burstsServiced + 1⟩) := by
  rw [serviced] at hok
  by_cases hhelper : d.burstHelper = true
  · rw [if_pos hhelper] at hok
    cases hh : s.helpers d.pkt.id with
    | none =>
      simp only [hh] at hok
      cases hok
    | some h =>
      simp only [hh] at hok
      split at hok
      · rename_i hlast
        rw [← Except.ok.inj hok]
        exact ⟨_, _, rfl, fun id hid => update_of_ne hid .., .inl ⟨rfl, fun _ => ⟨h, rfl, hlast⟩⟩⟩
      · rename_i hlast
        rw [← Except.ok.inj hok]
        exact ⟨_, _, rfl, fun id hid => update_of_ne hid ..,
          .inr ⟨rfl, hhelper, h, rfl, hlast, update_self ..⟩⟩
  · rw [if_neg hhelper] at hok
    rw [← Except.ok.inj hok]
    exact ⟨s.helpers, _, rfl, fun _ _ => rfl, .inl ⟨rfl, fun h => absurd h hhelper⟩⟩

/-- What is done when the data of a burst is ready. -/
theorem ok_processRespondEvent (hok : s.processRespondEvent curTick = .ok s') :
    ∃ d rest s₁, s.respQueue = d :: rest ∧
      ({ s with
        respondEvent := none
        served := s.served ++ [(d.pkt.id, d.addr, Served.ready d.readyTime curTick)] } : Ctrl).serviced d = .ok s₁ ∧
      s' = { s₁ with respQueue := rest, retryRdReq := false, respondEvent := rest.head?.map (·.readyTime) } := by
  rw [processRespondEvent] at hok
  cases hq : s.respQueue with
  | nil =>
    simp only [hq] at hok
    cases hok
  | cons d rest =>
    simp only [hq] at hok
    obtain ⟨s₁, hs₁, hend⟩ := ok_of_bind hok
    refine ⟨d, rest, s₁, rfl, hs₁, ?_⟩
    cases rest with
    | nil =>
      obtain ⟨helpers, responded, rfl, -⟩ := ok_serviced hs₁
      exact (Except.ok.inj hend).symm
    | cons front rest =>
      dsimp only at hend
      split at hend
      · cases hend
      · exact (Except.ok.inj hend).symm

/-- A burst that is outstanding is one of a read that has been accepted. -/
theorem Packets.reader {id : Nat} {x : Nat × Addr × Bool} (h : Packets c s) (hmem : x ∈ s.pendingOf id) :
    ∃ p ∈ s.accepted, p.id = id ∧ p.isWrite = false ∧ ReadOk c s p := by
  have hne : s.pendingOf id ≠ [] := List.ne_nil_of_mem hmem
  obtain ⟨p, hp, rfl⟩ : ∃ p ∈ s.accepted, p.id = id := by
    by_contra hnone
    refine hne (h.others id fun hin => hnone ?_).1
    obtain ⟨p, hp, hid⟩ := List.mem_map.mp hin
    exact ⟨p, hp, hid⟩
  have hread : p.isWrite = false := by
    cases hw : p.isWrite with
    | false => rfl
    | true => exact absurd ((h.packets p hp).write hw).1 hne
  exact ⟨p, hp, rfl, hread, (h.packets p hp).read hread⟩

theorem mem_pendingOf (hq : s.respQueue = d :: rest) : (d.pkt.id, d.addr, d.burstHelper) ∈ s.pendingOf d.pkt.id := by
  rw [pendingOf, outstanding, hq, List.mem_filter]
  exact ⟨List.mem_map.mpr ⟨d, List.mem_append_right _ List.mem_cons_self, rfl⟩, decide_eq_true rfl⟩

/-- The helper of a burst that waits for its data has not been deleted. -/
theorem Packets.helper_ne_none (h : Packets c s) (hq : s.respQueue = d :: rest) (hflag : d.burstHelper = true) :
    s.helpers d.pkt.id ≠ none := by
  have hmem := mem_pendingOf hq
  obtain ⟨p, -, hid, -, hok⟩ := h.reader hmem
  rw [← hid] at hmem ⊢
  have hsplit : 1 < (Ctrl.bursts c p).length := of_decide_eq_true ((hok.flags _ hmem).symm.trans hflag)
  rw [hok.helper hsplit (List.ne_nil_of_mem hmem)]
  exact Option.some_ne_none _

theorem processRespondEvent_error {e : Err} (h : Packets c s) (herr : s.processRespondEvent curTick = .error e) :
    e = .assertion := by
  rw [processRespondEvent] at herr
  cases hq : s.respQueue with
  | nil =>
    simp only [hq] at herr
    exact (Except.error.inj herr).symm
  | cons d rest =>
    simp only [hq] at herr
    obtain herr | ⟨s₁, -, herr⟩ := error_of_bind herr
    · rw [serviced] at herr
      by_cases hflag : d.burstHelper = true
      · rw [if_pos hflag] at herr
        obtain ⟨b, hb⟩ := Option.ne_none_iff_exists'.mp (h.helper_ne_none hq hflag)
        simp only [hb] at herr
        split at herr <;> cases herr
      · rw [if_neg hflag] at herr
        cases herr
    · cases rest with
      | nil => cases herr
      | cons front rest =>
        dsimp only at herr
        split at herr
        · exact (Except.error.inj herr).symm
        · cases herr

theorem Packets.respond {helpers : Nat → Option BurstHelper} (h : Packets c s) (hq : s.respQueue = d :: rest)
    (htick : d.readyTime = curTick) (hout :
      s'.outstanding = (s.readQueue ++ rest).map fun d => (d.pkt.id, d.addr, d.burstHelper))
    (haccepted : s'.accepted = s.accepted)
    (hserved : s'.served = s.served ++ [(d.pkt.id, d.addr, Served.ready d.readyTime curTick)])
    (hhelpers : s'.helpers = helpers) (hother : ∀ id, id ≠ d.pkt.id → helpers id = s.helpers id)
    (hcases : s'.responded = s.responded ++ [d.pkt.id] ∧
        (d.burstHelper = true → ∃ h, s.helpers d.pkt.id = some h ∧ h.burstsServiced + 1 = h.burstCount) ∨
      s'.responded = s.responded ∧ d.burstHelper = true ∧ ∃ h, s.helpers d.pkt.id = some h ∧
        h.burstsServiced + 1 ≠ h.burstCount ∧ helpers d.pkt.id = some ⟨h.burstCount, h.burstsServiced + 1⟩) :
        Packets c s' := by
  have hperm : s.outstanding.Perm ((d.pkt.id, d.addr, d.burstHelper) :: s'.outstanding) := by
    rw [hout, outstanding, hq]
    exact List.perm_middle.map fun d : DRAMPacket => (d.pkt.id, d.addr, d.burstHelper)
  have hservedOf : ∀ id, s'.servedOf id = s.servedOf id ++ if d.pkt.id = id then [d.addr] else [] := by
    intro id
    rw [servedOf, hserved, List.filter_append, map_append, servedOf]
    by_cases hid : d.pkt.id = id
    · simp [hid]
    · simp [hid]
  have hself : (s.pendingOf d.pkt.id).Perm ((d.pkt.id, d.addr, d.burstHelper) :: s'.pendingOf d.pkt.id) := by
    refine (hperm.filter _).trans ?_
    rw [List.filter_cons_of_pos (by simp)]
    exact .refl _
  have hpendingOther : ∀ id, id ≠ d.pkt.id → (s'.pendingOf id).Perm (s.pendingOf id) := by
    intro id hid
    refine List.Perm.symm ((hperm.filter _).trans ?_)
    rw [List.filter_cons_of_neg (by simpa using hid.symm)]
    exact .refl _
  have hmem := mem_pendingOf hq
  have hne : s.pendingOf d.pkt.id ≠ [] := List.ne_nil_of_mem hmem
  obtain ⟨p, hp, hid, hread, hok⟩ := h.reader hmem
  rw [← hid] at hself hpendingOther hmem hne hother hcases
  have hlen := hself.length_eq
  have hbursts := hok.bursts.length_eq
  simp only [length_cons, length_append, length_map] at hlen hbursts
  have hflag : d.burstHelper = decide (1 < (Ctrl.bursts c p).length) := hok.flags _ hmem
  have hzero := hok.responded
  rw [if_neg hne] at hzero
  refine h.step (.inl ⟨haccepted, hp⟩) (fun id hne => ⟨hpendingOther id hne, ?_, ?_, ?_⟩)
    ⟨(h.packets p hp).split, fun _ => ⟨?_, ?_, ?_, ?_⟩, fun hw => ?_⟩ ?_
  · rw [hservedOf, ← hid, if_neg hne.symm, append_nil]
  · rw [hhelpers, hother id hne]
  · obtain ⟨hr, -⟩ | ⟨hr, -⟩ := hcases
    · rw [hr, count_push, if_neg hne.symm, Nat.add_zero]
    · rw [hr]
  · rw [hservedOf, if_pos hid.symm]
    refine List.Perm.trans ?_ hok.bursts
    have hmap := (hself.map (·.2.1)).append_right (s.servedOf p.id)
    refine List.Perm.trans ?_ hmap.symm
    rw [← append_assoc]
    exact perm_append_comm
  · exact fun x hx => hok.flags x (hself.symm.subset (List.mem_cons_of_mem _ hx))
  · intro h1 hne'
    have hpos := List.length_pos_iff.mpr hne'
    have hhelper := hok.helper h1 hne
    obtain ⟨-, hlast⟩ | ⟨-, -, b, hb, -, hcount⟩ := hcases
    · obtain ⟨b, hb, hlast⟩ := hlast (hflag.trans (decide_eq_true h1))
      obtain rfl := Option.some.inj (hb.symm.trans hhelper)
      dsimp only at hlast
      omega
    · obtain rfl := Option.some.inj (hb.symm.trans hhelper)
      have hnext : (Ctrl.bursts c p).length - (s.pendingOf p.id).length + 1 =
          (Ctrl.bursts c p).length - (s'.pendingOf p.id).length := by omega
      rw [hhelpers, hcount]
      simp only [hnext]
  · obtain ⟨hr, hlast⟩ | ⟨hr, hsplit, b, hb, hlast, -⟩ := hcases
    · have hnil : s'.pendingOf p.id = [] := by
        apply List.eq_nil_of_length_eq_zero
        by_cases h1 : 1 < (Ctrl.bursts c p).length
        · obtain ⟨b, hb, hlast⟩ := hlast (hflag.trans (decide_eq_true h1))
          obtain rfl := Option.some.inj (hb.symm.trans (hok.helper h1 hne))
          dsimp only at hlast
          omega
        · omega
      rw [hr, count_push, hzero, if_pos rfl, if_pos hnil]
    · have h1 : 1 < (Ctrl.bursts c p).length := of_decide_eq_true (hflag.symm.trans hsplit)
      obtain rfl := Option.some.inj (hb.symm.trans (hok.helper h1 hne))
      dsimp only at hlast
      have hne' : s'.pendingOf p.id ≠ [] := by
        intro hnil
        rw [hnil, List.length_nil] at hlen
        omega
      rw [hr, hzero, if_neg hne']
  · rw [hread] at hw
    cases hw
  · intro id addr readyTime tick hin
    rw [hserved] at hin
    obtain hin | hin := mem_append.mp hin
    · exact h.onTime id addr readyTime tick hin
    · simp only [List.mem_singleton, Prod.mk.injEq, Served.ready.injEq] at hin
      omega

/-- **The data of a burst is ready**: the packet is responded to if it was the last burst of the packet. -/
theorem processRespondEvent_spec (hstore : Store c s) (h : Packets c s) (hevent : s.respondEvent = some curTick)
    (hok : s.processRespondEvent curTick = .ok s') : Store c s' ∧ Packets c s' := by
  obtain ⟨d, rest, s₁, hq, hserviced, rfl⟩ := ok_processRespondEvent hok
  obtain ⟨helpers, responded, rfl, hother, hcases⟩ := ok_serviced hserviced
  have htick : d.readyTime = curTick := by
    have he := hstore.event
    rw [hevent, hq] at he
    exact (Option.some.inj he).symm
  have hroom := hstore.readRoom
  rw [hq, length_cons] at hroom
  refine ⟨⟨hstore.readTotal, hstore.writeTotal, hstore.isIn, hstore.distinct, ?_, hstore.writeRoom, hstore.times,
    rfl⟩, ?_⟩
  · change s.readQueue.length + rest.length ≤ c.readBufferSize
    omega
  · exact h.respond hq htick rfl rfl rfl rfl hother hcases

end Respond

/-- **A request**: it is refused, or its bursts are put into the queues. -/
theorem recvTimingReq_spec {c : Params} {s : Ctrl} {pkt : Packet} (hstore : Store c s) (h : Packets c s)
    (hnew : pkt.id ∉ s.accepted.map (·.id)) (hsize : pkt.size ≠ 0)
    (hend : (c.getCtrlAddr pkt.addr).toNat + pkt.size.toNat ≤ 2 ^ 63) (hfits : Fits c pkt) :
    ∃ s', s.recvTimingReq c pkt = .ok s' ∧ Store c s' ∧ Packets c s' := by
  have hsplit := (split_bursts_iff hsize hfits.1 hend).mpr hfits
  have hne : dramPktCount c pkt ≠ 0 := by
    intro h0
    have hnil : Ctrl.bursts c pkt = [] := by
      rw [← List.length_eq_zero_iff, length_bursts, h0]
      rfl
    rw [hnil] at hsplit
    have hzero : pkt.size.toNat = 0 := by
      have : (c.getCtrlAddr pkt.addr).toNat = (c.getCtrlAddr pkt.addr).toNat + pkt.size.toNat := hsplit
      omega
    exact hsize (BitVec.eq_of_toNat_eq hzero)
  rw [recvTimingReq, if_neg hsize]
  cases hw : pkt.isWrite with
  | true =>
    by_cases hfull : s.writeQueueFull c (dramPktCount c pkt).toNat = true
    · rw [if_pos hfull]
      exact ⟨_, rfl, hstore.congr rfl rfl rfl rfl rfl rfl rfl rfl, h.of_perm (.refl _) rfl rfl rfl rfl⟩
    · rw [if_neg hfull]
      rw [writeQueueFull, decide_eq_true_eq, not_lt, hstore.writeTotal, ← length_bursts] at hfull
      exact addToWriteQueue_spec hstore h hnew hw hsplit (Bool.eq_false_iff.mp hfits.1) hfull
  | false =>
    by_cases hfull : s.readQueueFull c (dramPktCount c pkt).toNat = true
    · rw [if_pos hfull]
      exact ⟨_, rfl, hstore.congr rfl rfl rfl rfl rfl rfl rfl rfl, h.of_perm (.refl _) rfl rfl rfl rfl⟩
    · rw [if_neg hfull]
      rw [readQueueFull, decide_eq_true_eq, not_lt, hstore.readTotal, ← length_bursts] at hfull
      exact addToReadQueue_spec hstore h hnew hw hsplit hne (Bool.eq_false_iff.mp hfits.1) hfull

end Ctrl

/-! ## Runs -/

namespace Run

open Ctrl (Store Packets)

/-- Each packet has the number of bursts that its bytes need. -/
def OpFits (c : Params) : Op → Prop
  | .recvTimingReq pkt => Fits c pkt
  | _ => True

instance (c : Params) : DecidablePred (OpFits c)
  | .recvTimingReq _ => inferInstanceAs (Decidable (Fits _ _))
  | .processNextReqEvent _ => inferInstanceAs (Decidable True)
  | .processRespondEvent => inferInstanceAs (Decidable True)
  | .restart => inferInstanceAs (Decidable True)

variable {c : Params} {s : Run}

theorem inv_of_reachable (h : (system c).ReachableWhen (fun _ a => OpFits c a.2) s) :
    Store c s.ctrl ∧ Packets c s.ctrl := by
  refine System.invariantWhen (I := fun s => Store c s.ctrl ∧ Packets c s.ctrl) ?_ ?_ h
  · rintro s rfl
    refine ⟨⟨rfl, rfl, rfl, .nil, Nat.zero_le _, Nat.zero_le _, .refl _, rfl⟩, .nil, ?_, fun _ _ => ⟨rfl, rfl, rfl⟩, ?_⟩
    · intro p hp
      cases hp
    · intro id addr readyTime tick hmem
      cases hmem
  · rintro s ⟨tick, op⟩ s' _ ⟨hstore, hpackets⟩ hfits hstep
    obtain ⟨⟨-, hok⟩, hmap⟩ := Option.ite_none_right_eq_some.mp hstep
    obtain ⟨ctrl, hexec, rfl⟩ := Option.map_eq_some_iff.mp hmap
    have hexec := ok_of_toOption hexec
    cases op with
    | recvTimingReq pkt =>
      obtain ⟨hsize, hend, hnew⟩ := hok
      obtain ⟨ctrl', hok', h'⟩ := Ctrl.recvTimingReq_spec hstore hpackets hnew hsize hend hfits
      obtain rfl : ctrl' = ctrl := Except.ok.inj (hok'.symm.trans hexec)
      exact h'
    | processNextReqEvent ch => exact Ctrl.processNextReqEvent_spec hstore hpackets hexec
    | processRespondEvent => exact Ctrl.processRespondEvent_spec hstore hpackets hok hexec
    | restart =>
      rw [← Except.ok.inj hexec]
      exact ⟨hstore.congr rfl rfl rfl rfl rfl rfl rfl rfl, hpackets.of_perm (.refl _) rfl rfl rfl rfl⟩

/-- **The events fail in assertions only**: at no event is a response unmatched, or a helper used that has been deleted,
and a request does not fail at all. -/
theorem events_assert {tick : Nat} {op : Op} {e : Err} (h : (system c).ReachableWhen (fun _ a => OpFits c a.2) s)
    (hok : s.Ok c tick op) (hfits : OpFits c op) (herr : exec c s.ctrl tick op = .error e) :
    e = .assertion ∧ ∀ pkt, op ≠ .recvTimingReq pkt := by
  obtain ⟨hstore, hpackets⟩ := inv_of_reachable h
  cases op with
  | recvTimingReq pkt =>
    obtain ⟨hsize, hend, hnew⟩ := hok
    obtain ⟨ctrl, hctrl, -⟩ := Ctrl.recvTimingReq_spec hstore hpackets hnew hsize hend hfits
    cases hctrl.symm.trans herr
  | processNextReqEvent ch => exact ⟨Ctrl.processNextReqEvent_error hstore herr, fun pkt => Op.noConfusion⟩
  | processRespondEvent => exact ⟨Ctrl.processRespondEvent_error hpackets herr, fun pkt => Op.noConfusion⟩
  | restart => cases herr

/-- **The DRAM queues**: in a run whose packets have the number of bursts that their bytes need, the bursts of a packet
cover its bytes, the queues and the set of write bursts are kept, and a packet is responded to once none of its bursts
is outstanding: each of them was found in the write queue, or its ready time has come. -/
theorem dram_queues (h : (system c).ReachableWhen (fun _ a => OpFits c a.2) s) :
    (∀ p ∈ s.ctrl.accepted, Split c.burstSize.toNat (c.getCtrlAddr p.addr).toNat
      ((c.getCtrlAddr p.addr).toNat + p.size.toNat) (Ctrl.bursts c p)) ∧
    (s.ctrl.isInWriteQueue = (s.ctrl.writeQueue.map fun d => c.burstAlign d.addr).toFinset ∧
      (s.ctrl.writeQueue.map fun d => c.burstAlign d.addr).Nodup) ∧
    (s.ctrl.readQueue.length + s.ctrl.respQueue.length ≤ c.readBufferSize ∧
      s.ctrl.writeQueue.length ≤ c.writeBufferSize) ∧
    (∀ p ∈ s.ctrl.accepted, s.ctrl.responded.count p.id = if s.ctrl.pendingOf p.id = [] then 1 else 0) ∧
    (∀ id ∈ s.ctrl.responded, id ∈ s.ctrl.accepted.map (·.id)) ∧
    (∀ p ∈ s.ctrl.accepted, if p.isWrite then s.ctrl.pendingOf p.id = []
      else ((s.ctrl.pendingOf p.id).map (·.2.1) ++ s.ctrl.servedOf p.id).Perm ((Ctrl.bursts c p).map (·.1))) ∧
    ∀ id addr readyTime tick, (id, addr, Served.ready readyTime tick) ∈ s.ctrl.served → readyTime = tick := by
  obtain ⟨hstore, h⟩ := inv_of_reachable h
  refine ⟨fun p hp => (h.packets p hp).split, ⟨hstore.isIn, hstore.distinct⟩, ⟨hstore.readRoom, hstore.writeRoom⟩,
    fun p hp => ?_, fun id hid => ?_, fun p hp => ?_, h.onTime⟩
  · cases hw : p.isWrite with
    | true =>
      obtain ⟨hnil, hcount⟩ := (h.packets p hp).write hw
      rw [hcount, if_pos hnil]
    | false => exact ((h.packets p hp).read hw).responded
  · by_contra hnot
    exact List.count_eq_zero.mp (h.others id hnot).2.2 hid
  · cases hw : p.isWrite with
    | true => exact ((h.packets p hp).write hw).1
    | false => exact ((h.packets p hp).read hw).bursts

/-- A memory of 4096 bytes, with bursts of 64 bytes. -/
def small (start : Addr) : Params where
  range := Base.rangeSize start 4096
  burstBits := 6
  readBufferSize := 4
  writeBufferSize := 4
  writeHighThreshold := 3
  writeLowThreshold := 2
  minWritesPerSwitch := 1

theorem init_start : (system c).init ⟨start, 0⟩ := rfl

/-- A write, and a read of three bursts the first of which the write has. -/
theorem dram_queues_split_read : ∃ s, (system (small 0)).ReachableWhen (fun _ a => OpFits (small 0) a.2) s ∧
    (s.ctrl.responded = [0, 1] ∧ s.ctrl.servedOf 1 = [16, 64, 128]) ∧
    (∀ p ∈ s.ctrl.accepted, Split (small 0).burstSize.toNat ((small 0).getCtrlAddr p.addr).toNat
      (((small 0).getCtrlAddr p.addr).toNat + p.size.toNat) (Ctrl.bursts (small 0) p)) ∧
    (s.ctrl.isInWriteQueue = (s.ctrl.writeQueue.map fun d => (small 0).burstAlign d.addr).toFinset ∧
      (s.ctrl.writeQueue.map fun d => (small 0).burstAlign d.addr).Nodup) ∧
    (s.ctrl.readQueue.length + s.ctrl.respQueue.length ≤ (small 0).readBufferSize ∧
      s.ctrl.writeQueue.length ≤ (small 0).writeBufferSize) ∧
    (∀ p ∈ s.ctrl.accepted, s.ctrl.responded.count p.id = if s.ctrl.pendingOf p.id = [] then 1 else 0) ∧
    (∀ id ∈ s.ctrl.responded, id ∈ s.ctrl.accepted.map (·.id)) ∧
    (∀ p ∈ s.ctrl.accepted, if p.isWrite then s.ctrl.pendingOf p.id = []
      else ((s.ctrl.pendingOf p.id).map (·.2.1) ++ s.ctrl.servedOf p.id).Perm ((Ctrl.bursts (small 0) p).map (·.1))) ∧
    ∀ id addr readyTime tick, (id, addr, Served.ready readyTime tick) ∈ s.ctrl.served → readyTime = tick := by
  obtain ⟨s, hs, hserved⟩ := System.reachableWhen_of_replay (S := system (small 0))
    (C := fun _ a => decide (OpFits (small 0) a.2)) init_start
    [(1, .recvTimingReq ⟨0, 0, 0, 64, true⟩), (1, .recvTimingReq ⟨1, 0, 16, 128, false⟩),
      (1, .processNextReqEvent ⟨none, false, false, some 0, 30⟩),
      (1, .processNextReqEvent ⟨none, false, false, some 0, 40⟩),
      (30, .processRespondEvent), (40, .processRespondEvent)]
    (fun s => s.ctrl.responded = [0, 1] ∧ s.ctrl.servedOf 1 = [16, 64, 128]) (by decide)
  have hs := hs.mono fun s a => of_decide_eq_true
  exact ⟨s, hs, hserved, dram_queues hs⟩

/-- The bursts of a packet do not cover it where the range does not start at a burst boundary, or the count of bursts
overflows: a write of `2 ^ 32 - 1` bytes is responded to without any burst. -/
theorem bursts_miscounted :
    (∃ s, (system (small 32)).Reachable s ∧ ∃ p ∈ s.ctrl.accepted, p.addr = 64 ∧ p.size = 64 ∧
      ¬ Split (small 32).burstSize.toNat ((small 32).getCtrlAddr p.addr).toNat
        (((small 32).getCtrlAddr p.addr).toNat + p.size.toNat) (Ctrl.bursts (small 32) p)) ∧
    ∃ s, (system { small 0 with range := Base.rangeEx 0 0x200000000 }).Reachable s ∧ ∃ p ∈ s.ctrl.accepted,
      p.size = 0xffffffff ∧ p.id ∈ s.ctrl.responded ∧
        Ctrl.bursts { small 0 with range := Base.rangeEx 0 0x200000000 } p = [] := by
  constructor
  · exact System.reachable_of_replay (S := system (small 32)) init_start [(1, .recvTimingReq ⟨0, 0, 64, 64, false⟩)]
      (fun s => ∃ p ∈ s.ctrl.accepted, p.addr = 64 ∧ p.size = 64 ∧
        ¬ Split (small 32).burstSize.toNat ((small 32).getCtrlAddr p.addr).toNat
          (((small 32).getCtrlAddr p.addr).toNat + p.size.toNat) (Ctrl.bursts (small 32) p)) (by decide)
  · exact System.reachable_of_replay (S := system { small 0 with range := Base.rangeEx 0 0x200000000 }) init_start
      [(1, .recvTimingReq ⟨0, 0, 0, 0xffffffff, true⟩)]
      (fun s => ∃ p ∈ s.ctrl.accepted, p.size = 0xffffffff ∧ p.id ∈ s.ctrl.responded ∧
        Ctrl.bursts { small 0 with range := Base.rangeEx 0 0x200000000 } p = []) (by decide)

end Run

end Salam.Dram.Queues
