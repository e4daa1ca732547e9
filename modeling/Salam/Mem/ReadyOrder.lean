import Salam.Mem.MshrQueue

/-!
# The order of the ready list

`getNext` looks at the front of the ready list only. `addToReadyList` puts an entry at its place in a sorted list;
`delay` gives an entry a later time and leaves it where it is, as its search finds the entry itself.

* `ready_sorted`: the list is sorted as long as an entry is delayed no further than those behind it, and exactly then.
-/

namespace Salam.Mem

namespace MshrQueue

/-! ## The front entry -/

/-- `getNext`; `none` is the null pointer. -/
def getNext (q : MshrQueue) (curTick : Nat) : Option Nat :=
  match q.readyList with
  | [] => none
  | n :: _ => if curTick < (q.entries n.val).readyTime then none else some n.val

/-- The ready list is sorted by the ready times. -/
def ReadySorted (q : MshrQueue) : Prop :=
  (Node.vals q.readyList).Pairwise fun i j => (q.entries i).readyTime ≤ (q.entries j).readyTime

/-- The entries behind an entry in the ready list. -/
def behind (q : MshrQueue) (mshr : Nat) : List Nat := ((Node.vals q.readyList).dropWhile (· ≠ mshr)).tail

/-- The entries behind a delayed entry are not ready before it. -/
def DelayFits (q : MshrQueue) (curTick mshr delay_ticks : Nat) : Prop :=
  ∀ j ∈ q.behind mshr, curTick + delay_ticks ≤ (q.entries j).readyTime

/-- The operations that do not move an entry to the front, on entries that are allocated; an entry is delayed no further
than those behind it. -/
def InPlace (q : MshrQueue) : Nat × QueueOp → Prop
  | (curTick, .delay mshr delay_ticks) => q.onAllocated (.delay mshr delay_ticks) ∧ q.DelayFits curTick mshr delay_ticks
  | (_, .moveToFront _) | (_, .forceDeallocateTarget _) | (_, .edit ..) => False
  | (_, op) => q.onAllocated op

section Sorted

variable {q q' : MshrQueue} {n i : Nat}

/-- An entry that is ready is found, as the front entry is ready no later. -/
theorem ReadySorted.getNext (h : q.ReadySorted) {curTick : Nat} (hi : i ∈ Node.vals q.readyList)
    (hready : (q.entries i).readyTime ≤ curTick) : (q.getNext curTick).isSome := by
  unfold MshrQueue.getNext
  unfold ReadySorted at h
  cases hl : q.readyList with
  | nil =>
    rw [hl] at hi
    cases hi
  | cons m ms =>
    rw [hl] at h hi
    have hfront : (q.entries m.val).readyTime ≤ (q.entries i).readyTime := by
      rcases Node.mem_vals_cons.mp hi with rfl | hi
      · exact Nat.le_refl _
      · exact (List.pairwise_cons.mp h).1 i hi
    have hnot : ¬curTick < (q.entries m.val).readyTime := by omega
    simp [hnot]

theorem ReadySorted.update (h : q.ReadySorted) (hi : i ∉ Node.vals q.readyList) (m : MSHR) :
    (q.update i m).ReadySorted := by
  refine List.Pairwise.imp_of_mem (fun {a b} ha hb hab => ?_) h
  have hai : a ≠ i := fun he => hi (he ▸ ha)
  have hbi : b ≠ i := fun he => hi (he ▸ hb)
  simpa [MshrQueue.update, hai, hbi] using hab

theorem ReadySorted.congr (h : q.ReadySorted) (hl : (Node.vals q'.readyList).Sublist (Node.vals q.readyList))
    (ht : ∀ j, (q'.entries j).readyTime = (q.entries j).readyTime) : q'.ReadySorted := by
  unfold ReadySorted
  simp only [ht]
  exact List.Pairwise.sublist hl h

/-- An element is put before the first one with a larger key. -/
theorem insertBefore_sorted {key : Nat → Nat} {x : Node Nat} {l l' : List (Node Nat)}
    (hl : (Node.vals l).Pairwise fun i j => key i ≤ key j)
    (h : Node.insertBefore (fun n => key x.val < key n.val) x l = some l') :
    (Node.vals l').Pairwise fun i j => key i ≤ key j := by
  induction l generalizing l' with
  | nil => cases h
  | cons m ms ih =>
    obtain ⟨hm, hms⟩ := List.pairwise_cons.mp hl
    rw [Node.insertBefore] at h
    split at h
    · rename_i hlt
      cases h
      have hlt : key x.val < key m.val := of_decide_eq_true hlt
      refine List.pairwise_cons.mpr ⟨fun j hj => ?_, hl⟩
      rcases Node.mem_vals_cons.mp hj with rfl | hj
      · exact Nat.le_of_lt hlt
      · exact Nat.le_trans (Nat.le_of_lt hlt) (hm j hj)
    · rename_i hge
      have hge : key m.val ≤ key x.val := by simpa using hge
      obtain ⟨ms', hms', rfl⟩ := Option.map_eq_some_iff.mp h
      refine List.pairwise_cons.mpr ⟨fun j hj => ?_, ih hms hms'⟩
      rcases Node.mem_vals_cons.mp ((Node.vals_perm (Node.insertBefore_perm hms')).subset hj) with rfl | hj
      · exact hge
      · exact hm j hj

/-- A new entry gets its place in a sorted list. -/
theorem ReadySorted.addToReadyList (h : q.ReadySorted) {l : List (Node Nat)} (hl : q.addToReadyList i = .ok l) :
    (Node.vals l).Pairwise fun i j => (q.entries i).readyTime ≤ (q.entries j).readyTime := by
  rw [MshrQueue.addToReadyList] at hl
  split at hl
  · rename_i hnil
    cases hl
    simp [List.getLast?_eq_none_iff.mp hnil, Node.vals]
  · rename_i back hback
    split at hl
    · rename_i hle
      cases hl
      obtain ⟨pre, hpre⟩ := List.getLast?_eq_some_iff.mp hback
      unfold ReadySorted at h
      rw [hpre, Node.vals, List.map_append] at h ⊢
      rw [List.map_append, List.pairwise_append]
      refine ⟨h, List.pairwise_singleton _ _, fun a ha b hb => ?_⟩
      obtain rfl : b = i := by simpa using hb
      rcases List.mem_append.mp ha with ha | ha
      · exact Nat.le_trans ((List.pairwise_append.mp h).2.2 a ha back.val (by simp)) hle
      · obtain rfl : a = back.val := by simpa using ha
        exact hle
    · split at hl
      · cases hl
      · rename_i hins
        cases hl
        exact insertBefore_sorted (x := ⟨q.nextNode, i⟩) h hins

/-! ## The operations -/

theorem ReadySorted.allocate (h : q.ReadySorted) (hrep : Represented n q) {blk_addr : Base.Addr} {blk_size : Nat}
    {pkt : TargetPacket} {when_ready order : Nat} {alloc_on_fill : Bool}
    (hd : q.allocate blk_addr blk_size pkt when_ready order alloc_on_fill = .ok (q', i)) : q'.ReadySorted := by
  rw [MshrQueue.allocate] at hd
  split at hd
  · cases hd
  · rename_i mshr freeList hfree
    split at hd
    · cases hd
    · obtain ⟨l, hl, heq⟩ := ok_of_map hd
      cases heq
      -- a free entry is not in the ready list
      have hnot : i ∉ Node.vals q.readyList := fun hi => by
        have halloc := ((hrep.mem_ready i).mp hi).1
        have hnodup := hrep.perm.nodup_iff.mpr List.nodup_range
        rw [hfree, List.cons_append] at hnodup
        exact (List.nodup_cons.mp hnodup).1 (List.mem_append_right _ halloc)
      have hupdated : ReadySorted (q.allocateEntry i freeList
          ((q.entries i).allocate blk_addr blk_size pkt when_ready order alloc_on_fill)) := h.update hnot _
      exact hupdated.addToReadyList hl

theorem sublist_eraseAt {it : Nat} {l : List (Node Nat)} (hl : eraseAt q.readyList it = .ok l) :
    (Node.vals l).Sublist (Node.vals q.readyList) := by
  have he := of_eraseAt hl
  rw [Node.erase] at he
  split at he
  · cases he
    exact List.filter_sublist.map _
  · cases he

theorem ReadySorted.markInService (h : q.ReadySorted) {b : Bool} (hd : q.markInService i b = .ok q') :
    q'.ReadySorted := by
  obtain ⟨m, hm, hd⟩ := ok_of_bind hd
  obtain ⟨l, hl, rfl⟩ := ok_of_map hd
  have htime : m.readyTime = (q.entries i).readyTime := by
    have hm := ok_of_mapError hm
    rw [MSHR.markInService] at hm
    split at hm
    · cases hm
    · cases hm
      rfl
  refine h.congr (sublist_eraseAt hl) fun j => ?_
  show (Function.update q.entries i m j).readyTime = (q.entries j).readyTime
  by_cases hj : j = i
  · rw [hj, Function.update_self, htime]
  · rw [Function.update_of_ne hj]

theorem ReadySorted.markPending (h : q.ReadySorted) (hrep : Represented n q) (hd : q.markPending i = .ok q') :
    q'.ReadySorted := by
  rw [MshrQueue.markPending] at hd
  split at hd
  · cases hd
  · rename_i hin
    obtain ⟨l, hl, rfl⟩ := ok_of_map hd
    have hnot : i ∉ Node.vals q.readyList := fun hi => by
      rw [((hrep.mem_ready i).mp hi).2] at hin
      exact hin rfl
    have hupdated : ReadySorted (q.update i { q.entries i with inService := false }) := h.update hnot _
    have hsorted : ReadySorted { q.update i { q.entries i with inService := false } with
      numInService := q.numInService - 1 } := hupdated
    exact hsorted.addToReadyList hl

theorem ReadySorted.deallocate (h : q.ReadySorted) (hd : q.deallocate i = .ok q') : q'.ReadySorted := by
  obtain ⟨l, hl, hd⟩ := ok_of_bind hd
  obtain ⟨q₁, hq₁, hd⟩ := ok_of_bind hd
  obtain ⟨m, hm, rfl⟩ := ok_of_map hd
  have hleft : (Node.vals q₁.readyList).Sublist (Node.vals q.readyList) ∧ q₁.entries = q.entries := by
    rw [leave] at hq₁
    split at hq₁
    · cases hq₁
      exact ⟨List.Sublist.refl _, rfl⟩
    · obtain ⟨l', hl', rfl⟩ := ok_of_map hq₁
      exact ⟨sublist_eraseAt hl', rfl⟩
  have htime : m.readyTime = (q₁.entries i).readyTime := by
    have hm := ok_of_mapError hm
    rw [MSHR.deallocate] at hm
    split at hm
    · cases hm
    · cases hm
      rfl
  refine h.congr hleft.1 fun j => ?_
  show (Function.update q₁.entries i m j).readyTime = (q.entries j).readyTime
  rw [hleft.2] at htime ⊢
  by_cases hj : j = i
  · rw [hj, Function.update_self, htime]
  · rw [Function.update_of_ne hj]

theorem behind_eq {pre post : List Nat} (hl : Node.vals q.readyList = pre ++ i :: post) (hi : i ∉ pre) :
    q.behind i = post := by
  have hpre : ∀ j ∈ pre, decide (j ≠ i) = true := fun j hj => decide_eq_true fun he => hi (he ▸ hj)
  rw [behind, hl, List.dropWhile_append_of_pos hpre]
  simp

/-- A delayed entry is still in its place exactly when it fits there. -/
theorem ReadySorted.delay_iff (h : q.ReadySorted) {curTick delay_ticks : Nat} (hrep : Represented n q)
    (hd : q.delay curTick i delay_ticks = .ok q') : q'.ReadySorted ↔ q.DelayFits curTick i delay_ticks := by
  obtain ⟨hi, htime, rfl⟩ := delay_eq hrep hd
  obtain ⟨pre, post, hsplit, hpre⟩ := List.eq_append_cons_of_mem hi
  have hnodup : (pre ++ i :: post).Nodup := hsplit ▸ hrep.ready.nodup
  have hpost : i ∉ post := (List.nodup_cons.mp (List.nodup_append.mp hnodup).2.1).1
  unfold ReadySorted at h
  rw [hsplit] at h
  obtain ⟨hfront, hback, hcross⟩ := List.pairwise_append.mp h
  obtain ⟨-, hback⟩ := List.pairwise_cons.mp hback
  have hother : ∀ j, j ≠ i →
      ((q.update i { q.entries i with readyTime := curTick + delay_ticks }).entries j).readyTime =
        (q.entries j).readyTime := fun j hj => by simp [MshrQueue.update, hj]
  have hself : ((q.update i { q.entries i with readyTime := curTick + delay_ticks }).entries i).readyTime =
      curTick + delay_ticks := by simp [MshrQueue.update]
  rw [DelayFits, behind_eq hsplit hpre]
  show (Node.vals q.readyList).Pairwise _ ↔ _
  rw [hsplit, List.pairwise_append, List.pairwise_cons]
  constructor
  · rintro ⟨-, ⟨hfits, -⟩, -⟩ j hj
    have hne : j ≠ i := fun he => hpost (he ▸ hj)
    simpa only [hself, hother j hne] using hfits j hj
  · intro hfits
    refine ⟨hfront.imp_of_mem fun {a b} ha hb hab => ?_, ⟨fun j hj => ?_, hback.imp_of_mem fun {a b} ha hb hab => ?_⟩,
      fun a ha b hb => ?_⟩
    · rwa [hother a fun he => hpre (he ▸ ha), hother b fun he => hpre (he ▸ hb)]
    · rw [hself, hother j fun he => hpost (he ▸ hj)]
      exact hfits j hj
    · rwa [hother a fun he => hpost (he ▸ ha), hother b fun he => hpost (he ▸ hb)]
    · have hle := hcross a ha
      rw [hother a fun he => hpre (he ▸ ha)]
      rcases List.mem_cons.mp hb with rfl | hb'
      · rw [hself]
        exact Nat.le_trans (hle b (by simp)) (by omega)
      · rw [hother b fun he => hpost (he ▸ hb')]
        exact hle b hb

end Sorted

theorem sorted_reachable {num_entries reserve : Nat} {q : MshrQueue}
    (h : (mshrQueue num_entries reserve).ReachableWhen InPlace q) : q.ReadySorted := by
  refine System.invariantWhen (I := ReadySorted) ?_ ?_ h
  · rintro q rfl
    exact .nil
  · rintro q ⟨curTick, op⟩ q' hreach hq hop hstep
    have hrep := represented_reachable hreach.reachable
    have hd := ok_of_toOption hstep
    cases op with
    | allocate blk_addr blk_size pkt when_ready order alloc_on_fill =>
      obtain ⟨⟨q₁, mshr⟩, hq₁, rfl⟩ := ok_of_map hd
      exact hq.allocate hrep hq₁
    | deallocate mshr => exact hq.deallocate hd
    | delay mshr delay_ticks => exact (hq.delay_iff hrep hd).mpr hop.2
    | markInService mshr pending_modified_resp => exact hq.markInService hd
    | markPending mshr => exact hq.markPending hrep hd
    | moveToFront mshr => exact hop.elim
    | forceDeallocateTarget mshr => exact hop.elim
    | edit mshr op => exact hop.elim

/-- **The ready list is sorted, and the front entry is ready when any is, as long as entries are delayed no further than
those behind them;** a delay that goes further leaves the list unsorted. -/
theorem ready_sorted {num_entries reserve : Nat} {q : MshrQueue}
    (h : (mshrQueue num_entries reserve).ReachableWhen InPlace q) :
    q.ReadySorted ∧
    (∀ curTick i, i ∈ Node.vals q.allocatedList → (q.entries i).inService = false → (q.entries i).readyTime ≤ curTick →
      (q.getNext curTick).isSome) ∧
    ∀ curTick mshr delay_ticks q', q.apply curTick (.delay mshr delay_ticks) = .ok q' →
      (q'.ReadySorted ↔ q.DelayFits curTick mshr delay_ticks) := by
  have hsorted := sorted_reachable h
  have hrep := represented_reachable h.reachable
  refine ⟨hsorted, fun curTick i hi hin hready => ?_, fun curTick mshr delay_ticks q' hd => hsorted.delay_iff hrep hd⟩
  exact hsorted.getNext ((hrep.mem_ready i).mpr ⟨hi, hin⟩) hready

/-- `InPlace`, as a test. -/
def inPlace (q : MshrQueue) : Nat × QueueOp → Bool
  | (curTick, .delay mshr delay_ticks) =>
    decide (mshr ∈ Node.vals q.allocatedList) && !(q.entries mshr).inService &&
      (q.behind mshr).all fun j => decide (curTick + delay_ticks ≤ (q.entries j).readyTime)
  | (_, .moveToFront _) | (_, .forceDeallocateTarget _) | (_, .edit ..) => false
  | (_, .allocate ..) => true
  | (_, .deallocate mshr) | (_, .markInService mshr _) | (_, .markPending mshr) =>
    decide (mshr ∈ Node.vals q.allocatedList)

theorem inPlace_spec (q : MshrQueue) (e : Nat × QueueOp) (h : q.inPlace e = true) : q.InPlace e := by
  obtain ⟨curTick, op⟩ := e
  cases op with
  | allocate => trivial
  | deallocate | markInService | markPending => exact (decide_eq_true_eq (p := _ ∈ _)).mp h
  | delay mshr delay_ticks =>
    simp only [inPlace, Bool.and_eq_true, decide_eq_true_eq, Bool.not_eq_true', List.all_eq_true] at h
    exact ⟨h.1, h.2⟩
  | moveToFront | forceDeallocateTarget | edit => cases h

/-- The entry that is behind is delayed, the one in front is sent and marked as pending again. -/
theorem ready_sorted_two : ∃ q, (mshrQueue 2 1).ReachableWhen InPlace q ∧ q.ReadySorted ∧ (q.getNext 5).isSome ∧
    Node.vals q.readyList = [0, 1] := by
  obtain ⟨q, hq, hready, halloc, hin, htime⟩ := System.reachableWhen_of_replay (S := mshrQueue 2 1) (C := inPlace)
    (show (mshrQueue 2 1).init (start 2 1) from rfl)
    [(0, .allocate 0 64 (Misses.missPacket 1 .ReadReq) 1 0 true),
      (1, .allocate 64 64 (Misses.missPacket 2 .ReadReq) 2 1 true), (2, .delay 1 7), (3, .markInService 0 false),
      (4, .markPending 0)]
    (fun q => Node.vals q.readyList = [0, 1] ∧ 0 ∈ Node.vals q.allocatedList ∧ (q.entries 0).inService = false ∧
      (q.entries 0).readyTime ≤ 5) (by decide)
  have hsorted := ready_sorted (hq.mono inPlace_spec)
  exact ⟨q, hq.mono inPlace_spec, hsorted.1, hsorted.2.1 5 0 halloc hin htime, hready⟩

/-- The front entry is delayed: the one behind it is ready, and `getNext` returns nothing. -/
theorem delayed_entry_blocks : ∃ q, (mshrQueue 2 1).ReachableWhen (fun q e => q.onAllocated e.2) q ∧ ¬q.ReadySorted ∧
    1 ∈ Node.vals q.allocatedList ∧ (q.entries 1).inService = false ∧ (q.entries 1).readyTime ≤ 5 ∧
    q.getNext 5 = none := by
  obtain ⟨q, hq, hready, halloc, hin, htime, hfront⟩ := System.reachableWhen_of_replay (S := mshrQueue 2 1)
    (C := fun q e => match e.2 with
      | .allocate .. => true
      | .delay mshr _ => decide (mshr ∈ Node.vals q.allocatedList) && !(q.entries mshr).inService
      | _ => false)
    (show (mshrQueue 2 1).init (start 2 1) from rfl)
    [(0, .allocate 0 64 (Misses.missPacket 1 .ReadReq) 1 0 true),
      (1, .allocate 64 64 (Misses.missPacket 2 .ReadReq) 2 1 true), (2, .delay 0 100)]
    (fun q => Node.vals q.readyList = [0, 1] ∧ 1 ∈ Node.vals q.allocatedList ∧ (q.entries 1).inService = false ∧
      (q.entries 1).readyTime = 2 ∧ (q.entries 0).readyTime = 102) (by decide)
  refine ⟨q, hq.mono fun q e he => ?_, fun hsorted => ?_, halloc, hin, by omega, ?_⟩
  · obtain ⟨curTick, op⟩ := e
    cases op with
    | allocate => trivial
    | delay mshr delay_ticks => simpa [onAllocated] using he
    | _ => cases he
  · unfold ReadySorted at hsorted
    rw [hready] at hsorted
    have hle := (List.pairwise_cons.mp hsorted).1 1 (by simp)
    omega
  · unfold getNext
    cases hl : q.readyList with
    | nil => rfl
    | cons n ns =>
      rw [hl] at hready
      have hzero : n.val = 0 := (List.cons.inj hready).1
      have hlate : 5 < (q.entries n.val).readyTime := by
        rw [hzero]
        omega
      simp [hlate]

end MshrQueue

end Salam.Mem
