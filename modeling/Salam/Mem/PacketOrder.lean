import Salam.Mem.PacketQueue

/-!
# The order in which a packet queue sends

The packets are numbered in the order of the calls of `schedSendTiming`, and the numbers move with the packets: a
numbered queue forgets to the queue.

* `placeNumbered_split`: a packet goes behind the last one that it may not pass.
* `packets_leave_in_order`: which packets are sent before packets that were enqueued earlier.
-/

namespace Salam.Mem

/-! ## Numbered packets -/

/-- A queue with the numbers of its packets. -/
structure Numbered where
  queue : PacketQueue
  list : List (Nat × DeferredPacket)
  sending : Option (Nat × DeferredPacket)
  /-- The packets that have been accepted, in this order. -/
  left : List Nat
  /-- The first packet was in the list when the second one was enqueued. -/
  met : List (Nat × Nat)

/-- `placeAfter` with the numbers. -/
def placeNumbered (P : PacketQueueParams) (x : Nat × DeferredPacket) :
    List (Nat × DeferredPacket) → Option (List (Nat × DeferredPacket))
  | [] => none
  | y :: ys =>
    match placeNumbered P x ys with
    | some zs => some (y :: zs)
    | none => if P.forceOrder && y.2.pkt.matchAddr x.2.pkt || y.2.tick ≤ x.2.tick then some (y :: x :: ys) else none

namespace Numbered

/-- What an operation that leads to this queue does with the numbers. -/
def follow (P : PacketQueueParams) (x : Numbered) (q : PacketQueue) : PacketOp → Numbered
  | .schedSendTiming pkt when =>
    let y := (x.queue.enqueued.length, ⟨when, pkt⟩)
    { x with
      queue := q
      list := (placeNumbered P y x.list).getD (y :: x.list)
      met := x.met ++ x.list.map fun z => (z.1, y.1) }
  | .sendEvent | .retry =>
    match x.list with
    | [] => { x with queue := q }
    | y :: ys => { x with queue := q, list := ys, sending := some y }
  | .accept => { x with queue := q, sending := none, left := x.left ++ x.sending.toList.map Prod.fst }
  | .refuse => { x with queue := q, sending := none, list := x.sending.toList ++ x.list }
  | .advance _ | .drain | .resume => { x with queue := q }

/-- All packets enqueued so far, in the order in which they have left and are to leave. -/
def order (x : Numbered) : List Nat := x.left ++ (x.sending.toList ++ x.list).map Prod.fst

end Numbered

/-- The runs of a queue, with numbers. -/
def numbered (P : PacketQueueParams) : System Numbered PacketOp where
  init x := x.queue.Fresh ∧ x.list = [] ∧ x.sending = none ∧ x.left = [] ∧ x.met = []
  step x op := (x.queue.exec P op).toOption.map fun q => x.follow P q op

variable {P : PacketQueueParams} {x : Numbered}

theorem Numbered.follow_queue (x : Numbered) (q : PacketQueue) (op : PacketOp) : (x.follow P q op).queue = q := by
  cases op with
  | sendEvent | retry =>
    simp only [Numbered.follow]
    split <;> rfl
  | _ => rfl

theorem queue_of_numbered (h : (numbered P).Reachable x) : (packetQueue P).Reachable x.queue := by
  refine System.invariantWhen (I := fun x => (packetQueue P).Reachable x.queue)
    (fun x (hx : (numbered P).init x) => .init (show (packetQueue P).init x.queue from hx.1))
    (fun x op x' _ hI _ hstep => ?_) h
  obtain ⟨q, hq, rfl⟩ := Option.map_eq_some_iff.mp hstep
  rw [x.follow_queue]
  exact hI.step trivial hq

/-- Every run of a queue is one with numbers. -/
theorem numbered_of_queue {s : PacketQueue} (h : (packetQueue P).Reachable s) :
    ∃ x, (numbered P).Reachable x ∧ x.queue = s := by
  refine System.invariantWhen (I := fun s => ∃ x, (numbered P).Reachable x ∧ x.queue = s)
    (fun s hs => ⟨⟨s, [], none, [], []⟩, .init ⟨hs, rfl, rfl, rfl, rfl⟩, rfl⟩) (fun s op s' _ hI _ hstep => ?_) h
  obtain ⟨x, hx, rfl⟩ := hI
  exact ⟨x.follow P s' op, hx.step (a := op) trivial (Option.map_eq_some_iff.mpr ⟨s', hstep, rfl⟩),
    x.follow_queue s' op⟩

/-! ## What the operations do to the lists -/

namespace PacketQueue

variable {P : PacketQueueParams} {s s' : PacketQueue}

theorem lists_of_schedSendTiming {pkt : Pkt} {when : Nat} (h : s.exec P (.schedSendTiming pkt when) = .ok s') :
    s.curTick ≤ when ∧
      s'.transmitList = (placeAfter P ⟨when, pkt⟩ s.transmitList).getD (⟨when, pkt⟩ :: s.transmitList) ∧
      s'.sending = s.sending ∧ s'.curTick = s.curTick ∧ s'.enqueued = s.enqueued ++ [⟨when, pkt⟩] ∧
      s'.sent = s.sent := by
  unfold exec schedSendTiming at h
  dsimp only at h
  split at h
  · cases h
  · rename_i hok
    have hle : s.curTick ≤ when := by
      rw [not_or] at hok
      exact Nat.le_of_not_lt hok.1
    split at h
    · cases h
    · split at h
      · rename_i l hl
        cases h
        exact ⟨hle, by rw [hl]; rfl, rfl, rfl, rfl, rfl⟩
      · rename_i hl
        obtain ⟨hlist, hsend, hc, he, hs⟩ := schedSendEvent_frame h
        exact ⟨hle, by rw [hl]; exact hlist, hsend, hc, he, hs⟩

theorem lists_of_sendDeferredPacket (h : s.sendDeferredPacket = .ok s') : ∃ f, s.transmitList = f :: s'.transmitList ∧
    s'.sending = some f ∧ f.tick ≤ s.curTick ∧ s'.curTick = s.curTick ∧ s'.enqueued = s.enqueued ∧
    s'.sent = s.sent := by
  unfold sendDeferredPacket deferredPacketReady at h
  cases hl : s.transmitList with
  | nil => simp [hl] at h
  | cons f rest =>
    simp only [hl] at h
    by_cases hready : s.waitingOnRetry = true ∨ decide (f.tick ≤ s.curTick) = false
    · rw [if_pos hready] at h
      cases h
    · rw [if_neg hready] at h
      cases h
      simp only [not_or, Bool.not_eq_false, decide_eq_true_eq] at hready
      exact ⟨f, rfl, rfl, hready.2, rfl, rfl, rfl⟩

theorem lists_of_send {op : PacketOp} (hop : op = .sendEvent ∨ op = .retry) (h : s.exec P op = .ok s') :
    s.sending = none ∧ ∃ f, s.transmitList = f :: s'.transmitList ∧
      s'.sending = some f ∧ f.tick ≤ s.curTick ∧ s'.curTick = s.curTick ∧ s'.enqueued = s.enqueued ∧
      s'.sent = s.sent := by
  rcases hop with rfl | rfl
  · unfold exec processSendEvent at h
    dsimp only at h
    split at h
    · rename_i hidle
      split at h
      · cases h
      · have hlists := lists_of_sendDeferredPacket h
        exact ⟨hidle.1, hlists⟩
    · cases h
  · unfold exec retry at h
    dsimp only at h
    split at h
    · rename_i hidle
      split at h
      · have hlists := lists_of_sendDeferredPacket h
        exact ⟨hidle.1, hlists⟩
      · cases h
    · cases h

theorem lists_of_accept (h : s.exec P .accept = .ok s') : ∃ dp, s.sending = some dp ∧ s'.transmitList = s.transmitList ∧
    s'.sending = none ∧ s'.curTick = s.curTick ∧ s'.enqueued = s.enqueued ∧ s'.sent = s.sent ++ [(dp, s.curTick)] := by
  unfold exec at h
  cases hs : s.sending with
  | none => simp [hs] at h
  | some dp =>
    simp only [hs] at h
    exact ⟨dp, rfl, schedSendEvent_frame h⟩

theorem lists_of_refuse (h : s.exec P .refuse = .ok s') : ∃ dp, s.sending = some dp ∧
    s'.transmitList = dp :: s.transmitList ∧ s'.sending = none ∧ s'.curTick = s.curTick ∧ s'.enqueued = s.enqueued ∧
      s'.sent = s.sent := by
  unfold exec at h
  cases hs : s.sending with
  | none => simp [hs] at h
  | some dp =>
    simp only [hs] at h
    split at h
    · cases h
    · cases h
      exact ⟨dp, rfl, rfl, rfl, rfl, rfl, rfl⟩

theorem lists_of_other {op : PacketOp} (hop : (∃ t, op = .advance t) ∨ op = .drain ∨ op = .resume)
    (h : s.exec P op = .ok s') : s'.transmitList = s.transmitList ∧ s'.sending = s.sending ∧
      (s.sending ≠ none → s'.curTick = s.curTick) ∧ s'.enqueued = s.enqueued ∧ s'.sent = s.sent := by
  rcases hop with ⟨t, rfl⟩ | rfl | rfl <;> simp only [exec] at h
  · split at h
    · rename_i hidle
      cases h
      exact ⟨rfl, rfl, fun hs => absurd hidle.1 hs, rfl, rfl⟩
    · cases h
  · split at h
    · cases h
      exact ⟨rfl, rfl, fun _ => rfl, rfl, rfl⟩
    · cases h
  · cases h
    exact ⟨rfl, rfl, fun _ => rfl, rfl, rfl⟩

end PacketQueue

/-! ## Where a packet goes -/

section Place

variable {P : PacketQueueParams}

/-- The packet may not be passed by the new one. -/
def Blocks (P : PacketQueueParams) (y x : DeferredPacket) : Prop :=
  (P.forceOrder = true ∧ y.pkt.matchAddr x.pkt = true) ∨ y.tick ≤ x.tick

theorem placeNumbered_none {x : Nat × DeferredPacket} {list : List (Nat × DeferredPacket)}
    (h : placeNumbered P x list = none) : ∀ y ∈ list, ¬Blocks P y.2 x.2 := by
  induction list with
  | nil => simp
  | cons z zs ih =>
    unfold placeNumbered at h
    split at h
    · cases h
    · rename_i hzs
      split at h
      · cases h
      · rename_i hz
        rw [List.forall_mem_cons]
        exact ⟨by simpa [Blocks] using hz, ih hzs⟩

theorem placeNumbered_some {x : Nat × DeferredPacket} {list list' : List (Nat × DeferredPacket)}
    (h : placeNumbered P x list = some list') : ∃ pre z post, list = pre ++ z :: post ∧ list' = pre ++ z :: x :: post ∧
      Blocks P z.2 x.2 ∧ ∀ y ∈ post, ¬Blocks P y.2 x.2 := by
  induction list generalizing list' with
  | nil => cases h
  | cons y ys ih =>
    unfold placeNumbered at h
    split at h
    · rename_i zs hzs
      cases h
      obtain ⟨pre, z, post, rfl, rfl, hz, hpost⟩ := ih hzs
      exact ⟨y :: pre, z, post, rfl, rfl, hz, hpost⟩
    · rename_i hys
      split at h
      · rename_i hy
        cases h
        exact ⟨[], y, ys, rfl, rfl, by simpa [Blocks] using hy, placeNumbered_none hys⟩
      · cases h

/-- **The packet goes in front of those that it may pass, and the last one behind which it stands it may not pass.** -/
theorem placeNumbered_split (P : PacketQueueParams) (x : Nat × DeferredPacket) (list : List (Nat × DeferredPacket)) :
    ∃ pre post, list = pre ++ post ∧ (placeNumbered P x list).getD (x :: list) = pre ++ x :: post ∧
      (∀ y ∈ post, ¬Blocks P y.2 x.2) ∧ ∀ y ∈ pre.getLast?, Blocks P y.2 x.2 := by
  cases h : placeNumbered P x list with
  | none => exact ⟨[], list, rfl, rfl, placeNumbered_none h, by simp⟩
  | some list' =>
    obtain ⟨pre, z, post, rfl, rfl, hz, hpost⟩ := placeNumbered_some h
    exact ⟨pre ++ [z], post, by simp, by simp, hpost, by simpa using hz⟩

/-- The numbers do not matter for the place. -/
theorem placeNumbered_map (P : PacketQueueParams) (x : Nat × DeferredPacket) (list : List (Nat × DeferredPacket)) :
    (placeNumbered P x list).map (List.map Prod.snd) = placeAfter P x.2 (list.map Prod.snd) := by
  induction list with
  | nil => rfl
  | cons y ys ih =>
    rw [List.map_cons, placeNumbered, placeAfter, ← ih]
    cases placeNumbered P x ys with
    | some zs => rfl
    | none =>
      simp only [Option.map_none]
      split <;> rfl

end Place

/-! ## Pairs in a list -/

section Pairs

variable {α : Type*} {a b n : α} {l l' : List α}

theorem pair_insert [DecidableEq α] (ha : a ≠ n) (hb : b ≠ n) :
    [a, b].Sublist (l ++ n :: l') ↔ [a, b].Sublist (l ++ l') := by
  constructor
  · intro h
    have hpair : [a, b].filter (· ≠ n) = [a, b] := by simp [ha, hb]
    have hsame : (l ++ n :: l').filter (· ≠ n) = (l ++ l').filter (· ≠ n) := by simp
    have hfilter := h.filter (· ≠ n)
    rw [hpair, hsame] at hfilter
    exact hfilter.trans List.filter_sublist
  · exact fun h => h.trans ((List.Sublist.refl l).append (List.sublist_cons_self n l'))

theorem mem_of_pair (hn : n ∉ l) (h : [n, b].Sublist (l ++ n :: l')) : b ∈ l' := by
  induction l with
  | nil =>
    cases h with
    | cons _ h => exact h.subset (by simp)
    | cons_cons _ h => exact h.subset (by simp)
  | cons c l ih =>
    rw [List.mem_cons, not_or] at hn
    cases h with
    | cons _ h => exact ih hn.2 h
    | cons_cons _ h => exact absurd rfl hn.1

theorem pair_of_mem (h : b ∈ l') : [n, b].Sublist (l ++ n :: l') :=
  ((List.singleton_sublist.mpr h).cons_cons n).trans (List.sublist_append_right l (n :: l'))

theorem pairwise_insert {R : α → α → Prop} (h : (l ++ l').Pairwise R) (hf : ∀ y ∈ l, R y n) (hb : ∀ y ∈ l', R n y) :
    (l ++ n :: l').Pairwise R := by
  obtain ⟨hfront, hback, hcross⟩ := List.pairwise_append.mp h
  refine List.pairwise_append.mpr ⟨hfront, List.pairwise_cons.mpr ⟨hb, hback⟩, fun y hy z hz => ?_⟩
  rcases List.mem_cons.mp hz with rfl | hz
  · exact hf y hy
  · exact hcross y hy z hz

/-- A number in front of a smaller one was there before `n`, the largest number, or it is `n`. -/
theorem pair_cases {l l' : List Nat} {n i j : Nat} (hbelow : ∀ k ∈ l ++ l', k < n) (hij : i < j)
    (h : [j, i].Sublist (l ++ n :: l')) : j < n ∧ [j, i].Sublist (l ++ l') ∨ j = n ∧ i ∈ l' := by
  have hfresh : n ∉ l := fun hn => Nat.lt_irrefl n (hbelow n (List.mem_append_left _ hn))
  have hle : j ≤ n := by
    rcases List.mem_append.mp (h.subset List.mem_cons_self) with hm | hm
    · exact Nat.le_of_lt (hbelow j (List.mem_append_left _ hm))
    · rcases List.mem_cons.mp hm with rfl | hm
      · exact Nat.le_refl _
      · exact Nat.le_of_lt (hbelow j (List.mem_append_right _ hm))
  rcases Nat.lt_or_eq_of_le hle with hlt | rfl
  · exact .inl ⟨hlt, (pair_insert (by omega) (by omega)).mp h⟩
  · exact .inr ⟨rfl, mem_of_pair hfresh h⟩

end Pairs

/-! ## The order -/

/-- The second packet may go in front of the first one, that was enqueued before it. -/
def MayPass (P : PacketQueueParams) (enqueued : List DeferredPacket) (i j : Nat) : Prop :=
  ∃ d e, enqueued[i]? = some d ∧ enqueued[j]? = some e ∧ ¬Blocks P d e

/-- What the numbers have to do with the queue, and the order with the ticks. -/
structure Numbered.InOrder (P : PacketQueueParams) (x : Numbered) : Prop where
  list : x.list.map Prod.snd = x.queue.transmitList
  sending : x.sending.map Prod.snd = x.queue.sending
  left : x.left.map (x.queue.enqueued[·]?) = x.queue.sent.map fun y => some y.1
  numbers : ∀ y ∈ x.sending.toList ++ x.list, x.queue.enqueued[y.1]? = some y.2
  perm : x.order.Perm (List.range x.queue.enqueued.length)
  due : ∀ y ∈ x.sending, y.2.tick ≤ x.queue.curTick
  sorted : P.forceOrder = false → (x.sending.toList ++ x.list).Pairwise fun y z => y.2.tick ≤ z.2.tick
  passed : ∀ i j, i < j → [j, i].Sublist x.order → (i, j) ∈ x.met ∧ MayPass P x.queue.enqueued i j
  passes : P.forceOrder = false → ∀ i j, (i, j) ∈ x.met → MayPass P x.queue.enqueued i j → [j, i].Sublist x.order
  met : ∀ i j, (i, j) ∈ x.met → i < j ∧ j < x.queue.enqueued.length

section Steps

variable {P : PacketQueueParams} {x : Numbered} {q : PacketQueue}

theorem getElem?_concat_of_some {l : List DeferredPacket} {i : Nat} {d e : DeferredPacket} (h : l[i]? = some d) :
    (l ++ [e])[i]? = some d := by
  obtain ⟨hi, -⟩ := List.getElem?_eq_some_iff.mp h
  rw [List.getElem?_append_left hi, h]

theorem mayPass_concat {l : List DeferredPacket} {e : DeferredPacket} {i j : Nat} (hi : i < l.length)
    (hj : j < l.length) :
    MayPass P (l ++ [e]) i j ↔ MayPass P l i j := by
  simp only [MayPass, List.getElem?_append_left hi, List.getElem?_append_left hj]

section

variable (h : x.InOrder P)
include h

theorem Numbered.InOrder.lt {i : Nat} (hi : i ∈ x.order) : i < x.queue.enqueued.length :=
  List.mem_range.mp (h.perm.subset hi)

theorem Numbered.InOrder.lt_of_mem {y : Nat × DeferredPacket} (hy : y ∈ x.list) : y.1 < x.queue.enqueued.length :=
  h.lt (List.mem_append_right _ (List.mem_map_of_mem (List.mem_append_right _ hy)))

/-- In a sorted list, no packet in front of the place of a new one is later than the last one of them. -/
theorem Numbered.InOrder.earlier {d : DeferredPacket} {pre post : List (Nat × DeferredPacket)}
    (hforce : P.forceOrder = false)
    (hd : x.queue.curTick ≤ d.tick) (hsplit : x.list = pre ++ post) (hpre : ∀ y ∈ pre.getLast?, Blocks P y.2 d) :
    ∀ y ∈ x.sending.toList ++ pre, y.2.tick ≤ d.tick := by
  intro y hy
  have hsorted := h.sorted hforce
  rcases List.mem_append.mp hy with hy | hy
  · exact Nat.le_trans (h.due y (Option.mem_toList.mp hy)) hd
  · rw [hsplit] at hsorted
    have hpresorted := (List.pairwise_append.mp (List.pairwise_append.mp hsorted).2.1).1
    have hne : pre ≠ [] := List.ne_nil_of_mem hy
    have hlast := hpre _ (List.getLast?_eq_some_getLast hne)
    have hle : (pre.getLast hne).2.tick ≤ d.tick := by simpa [Blocks, hforce] using hlast
    rw [← List.dropLast_append_getLast hne] at hy hpresorted
    rcases List.mem_append.mp hy with hy | hy
    · exact Nat.le_trans ((List.pairwise_append.mp hpresorted).2.2 y hy _ (by simp)) hle
    · rw [List.mem_singleton.mp hy]
      exact hle

theorem Numbered.InOrder.met_new {i j : Nat}
    (hmet : (i, j) ∈ x.met ++ x.list.map fun z => (z.1, x.queue.enqueued.length)) :
    i < j ∧ j < x.queue.enqueued.length + 1 := by
  rcases List.mem_append.mp hmet with hmet | hmet
  · obtain ⟨hij, hj⟩ := h.met i j hmet
    exact ⟨hij, by omega⟩
  · obtain ⟨y, hy, hpair⟩ := List.mem_map.mp hmet
    obtain ⟨rfl, rfl⟩ := Prod.mk.inj hpair
    exact ⟨h.lt_of_mem hy, by omega⟩

theorem Numbered.InOrder.schedSendTiming {pkt : Pkt} {when : Nat}
    (hx : x.queue.exec P (.schedSendTiming pkt when) = .ok q) :
    (x.follow P q (.schedSendTiming pkt when)).InOrder P := by
  obtain ⟨hwhen, hlist, hsending, hcur, henq, hsent⟩ := PacketQueue.lists_of_schedSendTiming hx
  obtain ⟨pre, post, hsplit, hplaced, hpost, hpre⟩ :=
    placeNumbered_split P (x.queue.enqueued.length, ⟨when, pkt⟩) x.list
  have hlen : q.enqueued.length = x.queue.enqueued.length + 1 := by simp [henq]
  have hold : ∀ {i d}, x.queue.enqueued[i]? = some d → q.enqueued[i]? = some d := fun hi => by
    rw [henq]
    exact getElem?_concat_of_some hi
  have hnew : q.enqueued[x.queue.enqueued.length]? = some ⟨when, pkt⟩ := by simp [henq]
  -- the order before and after, around the place of the new packet
  have horder : x.order = (x.left ++ (x.sending.toList ++ pre).map Prod.fst) ++ post.map Prod.fst := by
    simp [Numbered.order, hsplit]
  have horder' : (x.follow P q (.schedSendTiming pkt when)).order =
      (x.left ++ (x.sending.toList ++ pre).map Prod.fst) ++ x.queue.enqueued.length :: post.map Prod.fst := by
    simp [Numbered.order, Numbered.follow, hplaced]
  have hearlier : P.forceOrder = false → ∀ y ∈ x.sending.toList ++ pre, y.2.tick ≤ when :=
    fun hforce => h.earlier hforce hwhen hsplit hpre
  have hlater : ∀ y ∈ post, when < y.2.tick := fun y hy => by
    have hnot := hpost y hy
    simp only [Blocks, not_or, Nat.not_le] at hnot
    exact hnot.2
  exact {
    list := by
      have hmap := placeNumbered_map P (x.queue.enqueued.length, ⟨when, pkt⟩) x.list
      rw [h.list] at hmap
      show ((placeNumbered P _ x.list).getD _).map Prod.snd = q.transmitList
      rw [hlist, ← hmap, ← h.list]
      cases placeNumbered P (x.queue.enqueued.length, ⟨when, pkt⟩) x.list <;> rfl
    sending := h.sending.trans hsending.symm
    left := by
      show x.left.map (q.enqueued[·]?) = q.sent.map _
      rw [hsent, ← h.left]
      refine List.map_congr_left fun i hi => ?_
      rw [henq, List.getElem?_append_left (h.lt (List.mem_append_left _ hi))]
    numbers := fun y hy => by
      show q.enqueued[y.1]? = some y.2
      have hy : y ∈ x.sending.toList ++ (pre ++ (x.queue.enqueued.length, ⟨when, pkt⟩) :: post) := by
        rw [← hplaced]
        exact hy
      simp only [List.mem_append, List.mem_cons] at hy
      rcases hy with hy | hy | rfl | hy
      · exact hold (h.numbers y (by simp [hy]))
      · exact hold (h.numbers y (by simp [hsplit, hy]))
      · exact hnew
      · exact hold (h.numbers y (by simp [hsplit, hy]))
    perm := by
      show (x.follow P q (.schedSendTiming pkt when)).order.Perm (List.range q.enqueued.length)
      have hperm := h.perm
      rw [horder] at hperm
      rw [horder', hlen, List.range_succ]
      exact (List.perm_middle.trans (hperm.cons _)).trans (List.perm_append_singleton _ _).symm
    due := fun y hy => by
      show y.2.tick ≤ q.curTick
      rw [hcur]
      exact h.due y hy
    sorted := fun hforce => by
      show (x.sending.toList ++ (placeNumbered P _ x.list).getD _).Pairwise _
      have hsorted := h.sorted hforce
      rw [hsplit, ← List.append_assoc] at hsorted
      rw [hplaced, ← List.append_assoc]
      exact pairwise_insert hsorted (hearlier hforce) fun y hy => Nat.le_of_lt (hlater y hy)
    passed := fun i j hij hpair => by
      show (i, j) ∈ x.met ++ _ ∧ MayPass P q.enqueued i j
      rw [horder'] at hpair
      rcases pair_cases (fun k hk => h.lt (horder ▸ hk)) hij hpair with ⟨hlt, hpair⟩ | ⟨rfl, hi⟩
      · rw [← horder] at hpair
        obtain ⟨hmet, hpass⟩ := h.passed i j hij hpair
        rw [henq, mayPass_concat (by omega) hlt]
        exact ⟨List.mem_append_left _ hmet, hpass⟩
      · obtain ⟨y, hy, rfl⟩ := List.mem_map.mp hi
        have hylist : y ∈ x.list := by simp [hsplit, hy]
        exact ⟨List.mem_append_right _ (List.mem_map.mpr ⟨y, hylist, rfl⟩),
          y.2, _, hold (h.numbers y (List.mem_append_right _ hylist)), hnew, hpost y hy⟩
    passes := fun hforce i j hmet hpass => by
      have hmet : (i, j) ∈ x.met ++ x.list.map fun z => (z.1, x.queue.enqueued.length) := hmet
      rw [horder']
      rcases List.mem_append.mp hmet with hmet | hmet
      · obtain ⟨hij, hj⟩ := h.met i j hmet
        have hpass : MayPass P q.enqueued i j := hpass
        rw [henq, mayPass_concat (by omega) hj] at hpass
        rw [pair_insert (by omega) (by omega), ← horder]
        exact h.passes hforce i j hmet hpass
      · obtain ⟨y, hy, hpair⟩ := List.mem_map.mp hmet
        obtain ⟨rfl, rfl⟩ := Prod.mk.inj hpair
        obtain ⟨d, e, hd, he, hnot⟩ := hpass
        cases (hold (h.numbers y (List.mem_append_right _ hy))).symm.trans hd
        cases hnew.symm.trans he
        refine pair_of_mem (List.mem_map_of_mem ?_)
        rw [hsplit] at hy
        rcases List.mem_append.mp hy with hy | hy
        · exact absurd (.inr (hearlier hforce y (List.mem_append_right _ hy))) hnot
        · exact hy
    met := fun i j hmet => by
      show i < j ∧ j < q.enqueued.length
      rw [hlen]
      exact h.met_new hmet }

/-- An operation that enqueues nothing leaves the order as it is. -/
theorem Numbered.InOrder.moved {x' : Numbered} (horder : x'.order = x.order) (hmet : x'.met = x.met)
    (henq : x'.queue.enqueued = x.queue.enqueued)
      (hsub : (x'.sending.toList ++ x'.list).Sublist (x.sending.toList ++ x.list))
    (hlist : x'.list.map Prod.snd = x'.queue.transmitList) (hsending : x'.sending.map Prod.snd = x'.queue.sending)
    (hleft : x'.left.map (x'.queue.enqueued[·]?) = x'.queue.sent.map fun y => some y.1)
    (hdue : ∀ y ∈ x'.sending, y.2.tick ≤ x'.queue.curTick) : x'.InOrder P where
  list := hlist
  sending := hsending
  left := hleft
  numbers y hy := by
    rw [henq]
    exact h.numbers y (hsub.subset hy)
  perm := by
    rw [horder, henq]
    exact h.perm
  due := hdue
  sorted hforce := (h.sorted hforce).sublist hsub
  passed := by
    rw [horder, hmet, henq]
    exact h.passed
  passes := by
    rw [horder, hmet, henq]
    exact h.passes
  met := by
    rw [hmet, henq]
    exact h.met

/-- The front packet is handed to the peer. -/
theorem Numbered.InOrder.send {op : PacketOp} (hop : op = .sendEvent ∨ op = .retry) (hx : x.queue.exec P op = .ok q) :
    (x.follow P q op).InOrder P := by
  obtain ⟨hidle, f, hlist, hsending, hf, hcur, henq, hsent⟩ := PacketQueue.lists_of_send hop hx
  have hnone : x.sending = none := by simpa [hidle] using h.sending
  have hmap := h.list
  cases hl : x.list with
  | nil =>
    rw [hl, hlist] at hmap
    cases hmap
  | cons y ys =>
    rw [hl, hlist, List.map_cons] at hmap
    obtain ⟨hy, hys⟩ := List.cons.inj hmap
    have hfollow : x.follow P q op = { x with queue := q, list := ys, sending := some y } := by
      rcases hop with rfl | rfl <;> simp [Numbered.follow, hl]
    rw [hfollow]
    refine h.moved (by simp [Numbered.order, hnone, hl]) rfl henq (by simp [hnone, hl]) hys ?_ ?_ fun z hz => ?_
    · rw [hsending, ← hy]
      rfl
    · rw [henq, hsent]
      exact h.left
    · obtain rfl : y = z := Option.some.inj hz
      rw [hy, hcur]
      exact hf

theorem Numbered.InOrder.accept (hx : x.queue.exec P .accept = .ok q) : (x.follow P q .accept).InOrder P := by
  obtain ⟨dp, hdp, hlist, hsending, hcur, henq, hsent⟩ := PacketQueue.lists_of_accept hx
  obtain ⟨y, hy, hyd⟩ : ∃ y, x.sending = some y ∧ y.2 = dp := Option.map_eq_some_iff.mp (h.sending.trans hdp)
  refine h.moved (by simp [Numbered.order, Numbered.follow, hy]) rfl henq (List.sublist_append_right _ _)
    (h.list.trans hlist.symm) hsending.symm ?_ fun z hz => by cases hz
  show (x.left ++ x.sending.toList.map Prod.fst).map (q.enqueued[·]?) = q.sent.map _
  rw [henq, hsent, List.map_append, List.map_append, h.left, hy]
  simp [h.numbers y (by simp [hy]), hyd]

theorem Numbered.InOrder.refuse (hx : x.queue.exec P .refuse = .ok q) : (x.follow P q .refuse).InOrder P := by
  obtain ⟨dp, hdp, hlist, hsending, hcur, henq, hsent⟩ := PacketQueue.lists_of_refuse hx
  obtain ⟨y, hy, hyd⟩ : ∃ y, x.sending = some y ∧ y.2 = dp := Option.map_eq_some_iff.mp (h.sending.trans hdp)
  refine h.moved (by simp [Numbered.order, Numbered.follow]) rfl henq (List.Sublist.refl _) ?_ hsending.symm ?_
    fun z hz => by cases hz
  · show (x.sending.toList ++ x.list).map Prod.snd = q.transmitList
    rw [hlist, ← h.list, ← hyd, hy]
    rfl
  · show x.left.map (q.enqueued[·]?) = q.sent.map _
    rw [henq, hsent]
    exact h.left

theorem Numbered.InOrder.other {op : PacketOp} (hop : (∃ t, op = .advance t) ∨ op = .drain ∨ op = .resume)
    (hx : x.queue.exec P op = .ok q) : (x.follow P q op).InOrder P := by
  obtain ⟨hlist, hsending, hcur, henq, hsent⟩ := PacketQueue.lists_of_other hop hx
  have hfollow : x.follow P q op = { x with queue := q } := by
    rcases hop with ⟨t, rfl⟩ | rfl | rfl <;> rfl
  rw [hfollow]
  refine h.moved rfl rfl henq (List.Sublist.refl _) (h.list.trans hlist.symm) (h.sending.trans hsending.symm) ?_
    fun z hz => ?_
  · rw [henq, hsent]
    exact h.left
  · have hne : x.queue.sending ≠ none := by
      rw [← h.sending, Option.mem_def.mp hz]
      exact Option.some_ne_none _
    rw [hcur hne]
    exact h.due z hz

end

end Steps

theorem inOrder_of_numbered (h : (numbered P).Reachable x) : x.InOrder P := by
  refine System.invariantWhen (I := fun x => x.InOrder P) (fun x hx => ?_) (fun x op x' _ hI _ hstep => ?_) h
  · obtain ⟨⟨q, list, sending, left, met⟩, ⟨hl, -, -, -, -, hs, -, he, hsent⟩, rfl, rfl, rfl, rfl⟩ := x, hx
    exact {
      list := hl.symm
      sending := hs.symm
      left := by rw [hsent]; rfl
      numbers := by simp
      perm := by rw [he]; exact .refl _
      due := by simp
      sorted := fun _ => .nil
      passed := fun i j _ hpair => by cases hpair
      passes := fun _ i j hmet => by cases hmet
      met := fun i j hmet => by cases hmet }
  · obtain ⟨q, hq, rfl⟩ := Option.map_eq_some_iff.mp hstep
    have hq := ok_of_toOption hq
    cases op with
    | schedSendTiming pkt when => exact hI.schedSendTiming hq
    | sendEvent => exact hI.send (.inl rfl) hq
    | retry => exact hI.send (.inr rfl) hq
    | accept => exact hI.accept hq
    | refuse => exact hI.refuse hq
    | advance t => exact hI.other (.inl ⟨t, rfl⟩) hq
    | drain => exact hI.other (.inr (.inl rfl)) hq
    | resume => exact hI.other (.inr (.inr rfl)) hq

/-! ## Who leaves first -/

/-- One of two packets that have both been enqueued is in front. -/
theorem Numbered.InOrder.total (h : x.InOrder P) {i j : Nat} (hi : i < x.queue.enqueued.length)
    (hj : j < x.queue.enqueued.length) (hne : i ≠ j) : [i, j].Sublist x.order ∨ [j, i].Sublist x.order := by
  have hi := h.perm.symm.subset (List.mem_range.mpr hi)
  have hj := h.perm.symm.subset (List.mem_range.mpr hj)
  obtain ⟨pre, post, hsplit⟩ := List.append_of_mem hi
  rw [hsplit] at hj ⊢
  rcases List.mem_append.mp hj with hj | hj
  · exact .inr ((List.singleton_sublist.mpr hj).append (List.singleton_sublist.mpr List.mem_cons_self))
  · rcases List.mem_cons.mp hj with rfl | hj
    · exact absurd rfl hne
    · exact .inl (pair_of_mem hj)

/-- **The order of a packet queue.** Of two packets, the one enqueued later is sent before the other only if it found
that one in the list and has a strictly smaller tick, with `forceOrder` also another address or security; without
`forceOrder` exactly then, and the list is sorted by tick. -/
theorem packets_leave_in_order {P : PacketQueueParams} {x : Numbered} (h : (numbered P).Reachable x) :
    x.list.map Prod.snd = x.queue.transmitList ∧
    x.left.map (x.queue.enqueued[·]?) = (x.queue.sent.map fun y => some y.1) ∧
    x.order.Perm (List.range x.queue.enqueued.length) ∧
    (P.forceOrder = false → x.queue.transmitList.Pairwise fun d e => d.tick ≤ e.tick) ∧
    ∀ i j d e, i < j → x.queue.enqueued[i]? = some d → x.queue.enqueued[j]? = some e →
      ([j, i].Sublist x.order → (i, j) ∈ x.met ∧ e.tick < d.tick ∧
        (P.forceOrder = true → d.pkt.matchAddr e.pkt = false)) ∧
      (P.forceOrder = false → (i, j) ∈ x.met → e.tick < d.tick → [j, i].Sublist x.order) ∧
      (¬[j, i].Sublist x.order → [i, j].Sublist x.order) := by
  have hI := inOrder_of_numbered h
  refine ⟨hI.list, hI.left, hI.perm, fun hforce => ?_,
    fun i j d e hij hd he => ⟨fun hpair => ?_, fun hforce hmet hlt => ?_, fun hnot => ?_⟩⟩
  · rw [← hI.list, List.pairwise_map]
    exact (List.pairwise_append.mp (hI.sorted hforce)).2.1
  · obtain ⟨hmet, d', e', hd', he', hpass⟩ := hI.passed i j hij hpair
    cases hd.symm.trans hd'
    cases he.symm.trans he'
    simp only [Blocks, not_or, not_and, Bool.not_eq_true, Nat.not_le] at hpass
    exact ⟨hmet, hpass.2, hpass.1⟩
  · exact hI.passes hforce i j hmet ⟨d, e, hd, he, by simp [Blocks, hforce, hlt]⟩
  · obtain ⟨hi, -⟩ := List.getElem?_eq_some_iff.mp hd
    obtain ⟨hj, -⟩ := List.getElem?_eq_some_iff.mp he
    exact (hI.total hi hj (Nat.ne_of_lt hij)).resolve_right hnot

/-- A queue without packets, with numbers. -/
def Numbered.empty : Numbered := ⟨.empty, [], none, [], []⟩

theorem Numbered.empty_init (P : PacketQueueParams) : (numbered P).init .empty :=
  ⟨PacketQueue.empty_fresh P, rfl, rfl, rfl, rfl⟩

/-- The second packet passes the first one, and the third one, of the same address as the first, does not. -/
theorem packets_leave_in_order_three : ∃ x, (numbered ⟨true, false⟩).Reachable x ∧ x.order = [1, 0, 2] ∧
    (0, 1) ∈ x.met ∧ x.order.Perm (List.range x.queue.enqueued.length) := by
  obtain ⟨x, hx, horder, hmet⟩ := System.reachable_of_replay (Numbered.empty_init ⟨true, false⟩)
    [.schedSendTiming ⟨64, false, false⟩ 9, .schedSendTiming ⟨128, false, false⟩ 5,
      .schedSendTiming ⟨64, false, false⟩ 3]
    (fun x => x.order = [1, 0, 2] ∧ (0, 1) ∈ x.met) (by decide)
  exact ⟨x, hx, horder, hmet, (packets_leave_in_order hx).2.2.1⟩

/-- `getBlockAddr(blk_size)`, for a block size that is a power of two. -/
def Pkt.getBlockAddr (p : Pkt) (blkSize : Nat) : Nat := p.addr &&& (2 ^ 64 - blkSize)

def Pkt.matchBlockAddr (p pkt : Pkt) (blkSize : Nat) : Bool :=
  p.getBlockAddr blkSize = pkt.getBlockAddr blkSize && p.isSecure = pkt.isSecure

/-- With `forceOrder`, two packets to one block of 64 bytes that leave in the other order: their addresses differ. -/
theorem block_order_lost : ∃ x d e, (numbered ⟨true, false⟩).Reachable x ∧ x.queue.enqueued = [d, e] ∧
    d.pkt.matchBlockAddr e.pkt 64 = true ∧ [1, 0].Sublist x.order := by
  obtain ⟨x, hx, henq, horder⟩ := System.reachable_of_replay (Numbered.empty_init ⟨true, false⟩)
    [.schedSendTiming ⟨64, false, false⟩ 9, .schedSendTiming ⟨72, false, false⟩ 5]
    (fun x => x.queue.enqueued = [⟨9, ⟨64, false, false⟩⟩, ⟨5, ⟨72, false, false⟩⟩] ∧ x.order = [1, 0]) (by decide)
  exact ⟨x, _, _, hx, henq, by decide, by rw [horder]⟩

end Salam.Mem
