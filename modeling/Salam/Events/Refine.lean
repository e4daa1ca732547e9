import Salam.Events.Links

/-!
# The event queue is a priority queue

`St.Queued` says what the queue holds: the links stand for ordered bins, and the events in them are the ones in
`inserted`, by their time and priority and, for one time and priority, the last one inserted first. Each operation
keeps it, also one that `process()` calls, and none comes to the panic of `remove`.

* `priority_queue`: what holds in every state that a sequence of operations reaches.
-/

namespace Salam.Events

open Bins

/-! ## Single flags -/

theorem Flags.isSet_scheduled (f : Flags) : f.isSet .scheduled = f.getLsbD 1 := by
  have h : Flags.scheduled = BitVec.twoPow 16 1 := by decide
  rw [Flags.isSet, h, BitVec.and_twoPow]
  cases f.getLsbD 1
  · simp
  · decide

theorem Flags.isSet_squashed (f : Flags) : f.isSet .squashed = f.getLsbD 0 := by
  have h : Flags.squashed = BitVec.twoPow 16 0 := by decide
  rw [Flags.isSet, h, BitVec.and_twoPow]
  cases f.getLsbD 0
  · simp
  · decide

namespace Event

variable (x : Event)

theorem scheduled_eq : x.scheduled = x.flags.getLsbD 1 := x.flags.isSet_scheduled

@[simp] theorem set_when (m : Flags) : (x.set m).when = x.when := rfl
@[simp] theorem set_priority (m : Flags) : (x.set m).priority = x.priority := rfl
@[simp] theorem clear_when (m : Flags) : (x.clear m).when = x.when := rfl
@[simp] theorem clear_priority (m : Flags) : (x.clear m).priority = x.priority := rfl

@[simp] theorem set_scheduled : (x.set .scheduled).scheduled = true := by
  simp [scheduled_eq, set, Flags.set, Flags.scheduled]

@[simp] theorem clear_scheduled : (x.clear .scheduled).scheduled = false := by
  simp [scheduled_eq, clear, Flags.clear, Flags.scheduled]

@[simp] theorem set_squashed_scheduled : (x.set .squashed).scheduled = x.scheduled := by
  simp [scheduled_eq, set, Flags.set, Flags.squashed]

@[simp] theorem clear_squashed_scheduled : (x.clear .squashed).scheduled = x.scheduled := by
  simp [scheduled_eq, clear, Flags.clear, Flags.squashed]

end Event

/-! ## What the queue holds -/

namespace St

/-- The links stand for the bins `bs`, which hold the events of `inserted` in order. -/
structure Queued (s : St) (bs : List (Ptr × List Ptr)) : Prop where
  chain : Chain s.queue.links s.queue.head bs
  ordered : Ordered (key s.events) bs
  all_eq : all bs = sort (key s.events) s.inserted
  nodup : s.inserted.Nodup
  curTick : ∀ e ∈ s.inserted, s.curTick ≤ (s.event e).when

/-- The queue holds the scheduled events. -/
def Holds (s : St) : Prop := (∃ bs, s.Queued bs) ∧ ∀ e, (s.event e).scheduled = true ↔ e ∈ s.inserted

variable {s : St} {bs : List (Ptr × List Ptr)} {e : Ptr} {f : Event → Event}

theorem Queued.perm (h : s.Queued bs) : (all bs).Perm s.inserted := h.all_eq ▸ sort_perm s.inserted

theorem Queued.nodup_all (h : s.Queued bs) : (all bs).Nodup := h.perm.nodup_iff.mpr h.nodup

theorem Queued.mem_all (h : s.Queued bs) : e ∈ all bs ↔ e ∈ s.inserted := h.perm.mem_iff

@[simp] theorem modify_event_self (f : Event → Event) : (s.modify e f).event e = f (s.event e) :=
  Function.update_self _ _ _

@[simp] theorem modify_inserted (f : Event → Event) : (s.modify e f).inserted = s.inserted := rfl
@[simp] theorem modify_curTick (f : Event → Event) : (s.modify e f).curTick = s.curTick := rfl

theorem modify_event_of_ne {k : Ptr} (hk : k ≠ e) (f : Event → Event) : (s.modify e f).event k = s.event k :=
  Function.update_of_ne hk _ _

/-- The time and the priority of the events in the queue stay as they are. -/
theorem Queued.modify (h : s.Queued bs)
    (hf : e ∈ s.inserted → (f (s.event e)).when = (s.event e).when ∧ (f (s.event e)).priority = (s.event e).priority) :
    (s.modify e f).Queued bs := by
  have hsame : ∀ x ∈ s.inserted, ((s.modify e f).event x).when = (s.event x).when ∧
      ((s.modify e f).event x).priority = (s.event x).priority := by
    intro x hx
    by_cases hxe : x = e
    · subst hxe
      rw [modify_event_self]
      exact hf hx
    · rw [modify_event_of_ne hxe]
      exact ⟨rfl, rfl⟩
  have hkey : ∀ x ∈ s.inserted, key (s.modify e f).events x = key s.events x := fun x hx => by
    unfold key
    rw [show (s.modify e f).events x = (s.modify e f).event x from rfl, (hsame x hx).1, (hsame x hx).2]
    rfl
  exact {
    chain := h.chain
    ordered := h.ordered.congr fun x hx => hkey x (h.mem_all.mp hx)
    all_eq := h.all_eq.trans (sort_congr hkey).symm
    nodup := h.nodup
    curTick := fun x hx => (hsame x hx).1 ▸ h.curTick x hx }

theorem Queued.insert (h : s.Queued bs) (he : e ∉ s.inserted) (hw : s.curTick ≤ (s.event e).when) :
    ∃ q bs', s.insert e = .ok { s with queue := q, inserted := e :: s.inserted } ∧
      Queued { s with queue := q, inserted := e :: s.inserted } bs' := by
  have hlen := length_le_length_all bs
  have hperm := h.perm.length_eq
  obtain ⟨q, hq, hchain⟩ := Queue.insert_chain s.events (e := e) (n := s.inserted.length) h.chain (by omega)
    h.nodup_all fun hm => he (h.mem_all.mp hm)
  refine ⟨q, Bins.insert (key s.events) e bs, by simp only [St.insert, hq, Except.map], ?_⟩
  exact {
    chain := hchain
    ordered := insert_ordered e h.ordered
    all_eq := by
      rw [all_insert e h.ordered, h.all_eq]
      rfl
    nodup := List.nodup_cons.mpr ⟨he, h.nodup⟩
    curTick := fun x hx => by
      rcases List.mem_cons.mp hx with rfl | hx
      · exact hw
      · exact h.curTick x hx }

theorem Queued.remove (h : s.Queued bs) (he : e ∈ s.inserted) :
    ∃ q bs', s.remove e = .ok { s with queue := q, inserted := s.inserted.erase e } ∧
      Queued { s with queue := q, inserted := s.inserted.erase e } bs' := by
  have hperm := h.perm.length_eq
  obtain ⟨q, hq, hchain⟩ := Queue.remove_chain (e := e) (n := s.inserted.length) h.chain h.ordered (by omega)
    h.nodup_all (h.mem_all.mpr he)
  refine ⟨q, Bins.remove (key s.events) e bs, by simp only [St.remove, hq, Except.map], ?_⟩
  exact {
    chain := hchain
    ordered := remove_ordered e h.ordered
    all_eq := by
      rw [all_remove h.ordered h.nodup_all, h.all_eq, sort_erase h.nodup]
    nodup := h.nodup.erase e
    curTick := fun x hx => h.curTick x (List.mem_of_mem_erase hx) }

section

variable (h : s.Queued bs) (hh : s.queue.head = some e)
include h hh

theorem Queued.head : ∃ r bs', bs = (e, r) :: bs' := by
  have hc := h.chain
  rw [hh] at hc
  cases hc with
  | cons hs hb => exact ⟨_, _, rfl⟩

theorem Queued.head_mem : e ∈ s.inserted := by
  obtain ⟨r, bs, rfl⟩ := h.head hh
  exact h.mem_all.mp (by simp)

/-- **The head is a first event, and the last one inserted among those with its time and priority.** -/
theorem Queued.head_first : (∀ x ∈ s.inserted, key s.events e ≤ key s.events x) ∧
      s.inserted.find? (fun x => key s.events x = key s.events e) = some e := by
  obtain ⟨r, bs, rfl⟩ := h.head hh
  refine ⟨fun x hx => h.ordered.head_le (h.mem_all.mpr hx),
    find?_of_sort (?_ : sort (key s.events) s.inserted = e :: (r ++ all bs))⟩
  rw [← h.all_eq, all_cons]
  rfl

theorem Queued.pop : ∃ bs', Queued { s with queue := s.queue.pop e, inserted := s.inserted.erase e } bs' := by
  obtain ⟨r, bs, rfl⟩ := h.head hh
  have hchain : Chain s.queue.links (some e) ((e, r) :: bs) := hh ▸ h.chain
  have hpop : Bins.remove (key s.events) e ((e, r) :: bs) = Bins.pop r bs := by simp [Bins.remove]
  refine ⟨Bins.pop r bs, ?_⟩
  exact {
    chain := Queue.pop_chain hchain h.nodup_all
    ordered := hpop ▸ remove_ordered e h.ordered
    all_eq := by
      rw [← hpop, all_remove h.ordered h.nodup_all, h.all_eq, sort_erase h.nodup]
    nodup := h.nodup.erase e
    curTick := fun x hx => h.curTick x (List.mem_of_mem_erase hx) }

end

/-! ## Every operation keeps the queue -/

theorem scheduled_modify {l : List Ptr} (h : ∀ k, k ≠ e → ((s.event k).scheduled = true ↔ k ∈ l))
    (he : (f (s.event e)).scheduled = true ↔ e ∈ l) (k : Ptr) : ((s.modify e f).event k).scheduled = true ↔ k ∈ l := by
  by_cases hk : k = e
  · subst hk
    rw [modify_event_self]
    exact he
  · rw [modify_event_of_ne hk, h k hk]

theorem Holds.modify (h : s.Holds)
    (hf : (s.event e).scheduled = true → (f (s.event e)).when = (s.event e).when ∧
      (f (s.event e)).priority = (s.event e).priority)
    (hs : (f (s.event e)).scheduled = (s.event e).scheduled) : (s.modify e f).Holds := by
  obtain ⟨⟨bs, hq⟩, hsch⟩ := h
  refine ⟨⟨bs, hq.modify fun he => hf ((hsch e).mpr he)⟩, ?_⟩
  exact scheduled_modify (fun k hk => hsch k) (hs ▸ hsch e)

theorem release_inserted : (s.release e).inserted = s.inserted := by
  unfold release
  split <;> rfl

theorem release_curTick : (s.release e).curTick = s.curTick := by
  unfold release
  split <;> rfl

theorem Holds.release (h : s.Holds) : (s.release e).Holds := by
  unfold St.release
  split
  · rename_i hc
    have hsch : (s.event e).scheduled = false := by simp_all
    refine h.modify (fun hs => ⟨rfl, rfl⟩) ?_
    rw [hsch]
    simp [Event.scheduled, Flags.isSet]
  · exact h

/-- The assertions of the operation hold: the caller has to see to them. -/
def Allowed (s : St) : Op → Prop
  | .construct e .. | .destroy e => (s.event e).scheduled = false
  | .schedule e when => s.curTick ≤ when ∧ (s.event e).scheduled = false ∧ (s.event e).initialized = true
  | .deschedule e => (s.event e).scheduled = true ∧ (s.event e).initialized = true
  | .reschedule e when always =>
    s.curTick ≤ when ∧ (always = true ∨ (s.event e).scheduled = true) ∧ (s.event e).initialized = true
  | .squash _ => True
  | .serviceOne => s.queue.head ≠ none ∧ s.servicing = none
  | .processed => s.servicing ≠ none

/-- What an operation may do: keep the queue without going back in time, or fail one of its assertions. -/
def Fine (s : St) (op : Op) : Except Err St → Prop
  | .ok s' => s'.Holds ∧ s.curTick ≤ s'.curTick
  | .error x => x = .assertion ∧ ¬ s.Allowed op

/-- An event that is not in the queue is inserted for a new time, and its flags say so. -/
theorem Queued.place (hq : s.Queued bs) (hsch : ∀ k, k ≠ e → ((s.event k).scheduled = true ↔ k ∈ s.inserted))
    (he : e ∉ s.inserted) {when : Nat} (hw : s.curTick ≤ when)
    (hf : ∀ x : Event, (f x).when = x.when ∧ (f x).priority = x.priority ∧ (f x).scheduled = true) :
    ∃ s', (s.modify e fun x => { x with when := when }).insert e = .ok s' ∧ s'.curTick = s.curTick ∧
      (s'.modify e f).Holds := by
  have hq₁ : (s.modify e fun x => { x with when := when }).Queued bs := hq.modify fun hm => absurd hm he
  have hw₁ : s.curTick ≤ ((s.modify e fun x => { x with when := when }).event e).when := by
    rw [modify_event_self]
    exact hw
  obtain ⟨q, bs', hins, hq'⟩ := hq₁.insert he hw₁
  refine ⟨_, hins, rfl, ⟨bs', hq'.modify fun _ => ⟨(hf _).1, (hf _).2.1⟩⟩, ?_⟩
  refine scheduled_modify (fun k hk => ?_) (iff_of_true (hf _).2.2 List.mem_cons_self)
  show ((s.modify e fun x => { x with when := when }).event k).scheduled = true ↔ k ∈ e :: s.inserted
  rw [modify_event_of_ne hk, hsch k hk, List.mem_cons, or_iff_right hk]

theorem schedule_fine (h : s.Holds) (when : Nat) : s.Fine (.schedule e when) (s.schedule e when) := by
  unfold schedule
  split
  · rename_i hc
    obtain ⟨hw, hs, -⟩ := hc
    obtain ⟨⟨bs, hq⟩, hsch⟩ := h
    have he : e ∉ s.inserted := fun hm => by simp [(hsch e).mpr hm] at hs
    obtain ⟨s', hins, htick, hholds⟩ := hq.place (f := (·.set .scheduled)) (fun k _ => hsch k) he hw (by simp)
    rw [hins]
    exact ⟨hholds, htick.ge⟩
  · rename_i hc
    exact ⟨rfl, hc⟩

theorem Holds.scheduled_erase (h : s.Holds) {k : Ptr} (hk : k ≠ e) :
    (s.event k).scheduled = true ↔ k ∈ s.inserted.erase e := by
  rw [h.2 k, List.mem_erase_of_ne hk]

theorem Holds.notMem_erase (h : s.Holds) : e ∉ s.inserted.erase e := by
  obtain ⟨⟨bs, hq⟩, -⟩ := h
  simp [hq.nodup.mem_erase_iff]

theorem deschedule_fine (h : s.Holds) : s.Fine (.deschedule e) (s.deschedule e) := by
  unfold deschedule
  split
  · rename_i hc
    obtain ⟨bs, hq⟩ := h.1
    obtain ⟨q, bs', hrem, hq'⟩ := hq.remove ((h.2 e).mp hc.1)
    rw [hrem]
    refine ⟨Holds.release ⟨⟨bs', hq'.modify fun _ => ⟨rfl, rfl⟩⟩, ?_⟩, ?_⟩
    · exact scheduled_modify (fun k hk => h.scheduled_erase hk) (iff_of_false (by simp) h.notMem_erase)
    · rw [release_curTick]
      exact Nat.le_refl _
  · rename_i hc
    exact ⟨rfl, hc⟩

theorem reschedule_fine (h : s.Holds) (when : Nat) (always : Bool) :
    s.Fine (.reschedule e when always) (s.reschedule e when always) := by
  unfold reschedule
  split
  · rename_i hc
    obtain ⟨bs, hq⟩ := h.1
    have hf : ∀ x : Event, ((x.clear .squashed).set .scheduled).when = x.when ∧
        ((x.clear .squashed).set .scheduled).priority = x.priority ∧
        ((x.clear .squashed).set .scheduled).scheduled = true := by simp
    cases hs : (s.event e).scheduled with
    | true =>
      obtain ⟨q, bs', hrem, hq'⟩ := hq.remove ((h.2 e).mp hs)
      obtain ⟨s', hins, htick, hholds⟩ := hq'.place (fun k hk => h.scheduled_erase hk) h.notMem_erase hc.1 hf
      simp only [if_true, hrem, bind, Except.bind, hins]
      exact ⟨hholds, htick.ge⟩
    | false =>
      have he : e ∉ s.inserted := fun hm => by simp [(h.2 e).mpr hm] at hs
      obtain ⟨s', hins, htick, hholds⟩ := hq.place (fun k _ => h.2 k) he hc.1 hf
      simp only [Bool.false_eq_true, if_false, bind, Except.bind, hins]
      exact ⟨hholds, htick.ge⟩
  · rename_i hc
    exact ⟨rfl, hc⟩

theorem Queued.head_when (h : s.Queued bs) (hh : s.queue.head = some e) {x : Ptr} (hx : x ∈ s.inserted) :
    (s.event e).when ≤ (s.event x).when := by
  have hle := (h.head_first hh).1 x hx
  rw [key, key, Prod.Lex.toLex_le_toLex] at hle
  rcases hle with hlt | ⟨heq, -⟩
  · exact hlt.le
  · exact heq.le

theorem service_fine (h : s.Holds) (hh : s.queue.head = some e) : s.Fine .serviceOne (.ok (s.service e)) := by
  obtain ⟨bs, hq⟩ := h.1
  obtain ⟨bs', hq'⟩ := hq.pop hh
  have hsch : ∀ k, ((s.modify e (·.clear .scheduled)).event k).scheduled = true ↔ k ∈ s.inserted.erase e :=
    scheduled_modify (fun k hk => h.scheduled_erase hk) (iff_of_false (by simp) h.notMem_erase)
  have hpop := hq'.modify (e := e) (f := (·.clear .scheduled)) fun _ => ⟨rfl, rfl⟩
  unfold service
  dsimp only
  split
  · have hpopped : Holds { s.modify e (·.clear .scheduled) with
        queue := s.queue.pop e, inserted := s.inserted.erase e } := ⟨⟨bs', hpop⟩, hsch⟩
    refine ⟨Holds.release (hpopped.modify (fun _ => ⟨rfl, rfl⟩) (by simp)), ?_⟩
    rw [release_curTick]
    exact Nat.le_refl _
  · have hwhen : ((s.modify e (·.clear .scheduled)).event e).when = (s.event e).when := by simp
    refine ⟨⟨⟨bs', ?_⟩, hsch⟩, ?_⟩
    · refine ⟨hpop.chain, hpop.ordered, hpop.all_eq, hpop.nodup, fun x hx => ?_⟩
      have hxe : x ≠ e := fun hxe => h.notMem_erase (hxe ▸ hx)
      show ((s.modify e (·.clear .scheduled)).event e).when ≤ ((s.modify e (·.clear .scheduled)).event x).when
      rw [hwhen, modify_event_of_ne hxe]
      exact hq.head_when hh (List.mem_of_mem_erase hx)
    · show s.curTick ≤ ((s.modify e (·.clear .scheduled)).event e).when
      rw [hwhen]
      exact hq.curTick e (hq.head_mem hh)

theorem service_inserted : (s.service e).inserted = s.inserted.erase e := by
  unfold service
  dsimp only
  split
  · exact release_inserted
  · rfl

/-- A new event at an address that is not in the queue. -/
theorem construct_fine (h : s.Holds) (p : Int) (managed exit : Bool) :
    s.Fine (.construct e p managed exit) (s.exec (.construct e p managed exit)) := by
  simp only [exec]
  split
  · rename_i hs
    exact ⟨rfl, by simp [Allowed, hs]⟩
  · rename_i hs
    obtain ⟨⟨bs, hq⟩, hsch⟩ := h
    have he : e ∉ s.inserted := fun hm => hs ((hsch e).mpr hm)
    have hne : ∀ x ∈ all bs, x ≠ e := fun x hx hxe => he (hxe ▸ hq.mem_all.mp hx)
    have hm := hq.modify (f := fun _ => ⟨0, p,
      ((Flags.initialized.set (if managed then .managed else 0)).set (if exit then .isExitEvent else 0))⟩)
      fun hm => absurd hm he
    refine ⟨⟨⟨bs, ?_, hm.ordered, hm.all_eq, hm.nodup, hm.curTick⟩, ?_⟩, Nat.le_refl _⟩
    · exact hq.chain.frame (fun x hx => Function.update_of_ne (hne x hx) _ _)
        fun x hx => Function.update_of_ne (hne x hx) _ _
    · refine scheduled_modify (s := s) (f := fun _ => ⟨0, p, _⟩) (fun k _ => hsch k) (iff_of_false ?_ he)
      simp only [Event.scheduled_eq]
      cases managed <;> cases exit <;> decide

/-- **Every operation keeps the queue, or fails one of its assertions.** -/
theorem exec_fine (h : s.Holds) (op : Op) : s.Fine op (s.exec op) := by
  cases op with
  | construct e p managed exit => exact construct_fine h p managed exit
  | destroy e =>
    simp only [exec]
    split
    · rename_i hs
      exact ⟨rfl, by simp [Allowed, hs]⟩
    · rename_i hs
      refine ⟨h.modify (fun _ => ⟨rfl, rfl⟩) ?_, Nat.le_refl _⟩
      rw [Bool.not_eq_true] at hs
      rw [hs]
      simp [Event.scheduled, Flags.isSet]
  | schedule e when => exact schedule_fine h when
  | deschedule e => exact deschedule_fine h
  | reschedule e when always => exact reschedule_fine h when always
  | squash e => exact ⟨h.modify (fun _ => ⟨rfl, rfl⟩) (by simp), Nat.le_refl _⟩
  | serviceOne =>
    simp only [exec]
    split
    · rename_i hh _
      exact service_fine h hh
    · rename_i hno
      refine ⟨rfl, ?_⟩
      rintro ⟨hh, hs⟩
      obtain ⟨e, he⟩ := Option.ne_none_iff_exists'.mp hh
      exact hno e he hs
  | processed =>
    simp only [exec]
    split
    · have hnext : Holds { s with servicing := none } := by
        obtain ⟨⟨bs, hq⟩, hsch⟩ := h
        exact ⟨⟨bs, hq.chain, hq.ordered, hq.all_eq, hq.nodup, hq.curTick⟩, hsch⟩
      unfold afterProcess
      dsimp only
      split
      · exact ⟨hnext, Nat.le_refl _⟩
      · refine ⟨hnext.release, ?_⟩
        rw [release_curTick]
    · rename_i hs
      exact ⟨rfl, fun hne => hne hs⟩

end St

theorem holds_of_reachable {s : St} (h : eventQueue.Reachable s) : s.Holds := by
  refine System.invariantWhen (I := St.Holds) ?_ ?_ h
  · rintro s ⟨hh, ht, -, hi, hs⟩
    refine ⟨⟨[], ⟨?_, .nil, ?_, ?_, ?_⟩⟩, fun e => ?_⟩
    · rw [hh]
      exact .nil
    · rw [hi]
      rfl
    · simp [hi]
    · simp [hi]
    · simp [hi, hs e]
  · intro s op s' _ hI _ hs
    have hf := St.exec_fine hI op
    rw [ok_of_toOption hs] at hf
    exact hf.1

/-- **The event queue refines a priority queue.** In every state that a sequence of operations reaches, the links stand
for ordered bins that hold each scheduled event once and nothing else; an operation whose assertions hold comes to its
end, so `remove` finds every scheduled event, and does not go back in time; and `serviceOne` serves a scheduled event
that no other one precedes, the last one inserted of those with its time and priority. -/
theorem priority_queue {s : St} (h : eventQueue.Reachable s) :
    (∃ bs, Chain s.queue.links s.queue.head bs ∧ Ordered (key s.events) bs ∧ (all bs).Nodup ∧
      ∀ e, (s.event e).scheduled = true ↔ e ∈ all bs) ∧
    (∀ e, (s.event e).scheduled = true → ∃ s', s.remove e = .ok s') ∧
    (∀ op, s.Allowed op → ∃ s', s.exec op = .ok s' ∧ s.curTick ≤ s'.curTick) ∧
    ∀ s', s.exec .serviceOne = .ok s' → ∃ e, s.queue.head = some e ∧ s' = s.service e ∧
      (s.event e).scheduled = true ∧ (s'.event e).scheduled = false ∧
      (∀ x, (s.event x).scheduled = true → key s.events e ≤ key s.events x) ∧
      (∀ x, (s.event x).scheduled = true ↔ x ∈ s.inserted) ∧
      s.inserted.find? (fun x => key s.events x = key s.events e) = some e := by
  have hI := holds_of_reachable h
  obtain ⟨bs, hq⟩ := hI.1
  refine ⟨⟨bs, hq.chain, hq.ordered, hq.nodup_all, fun e => ?_⟩, fun e he => ?_, fun op ha => ?_, fun s' hs' => ?_⟩
  · rw [hI.2 e, hq.mem_all]
  · obtain ⟨q, -, hrem, -⟩ := hq.remove ((hI.2 e).mp he)
    exact ⟨_, hrem⟩
  · have hf := St.exec_fine hI op
    cases hx : s.exec op with
    | ok s' =>
      rw [hx] at hf
      exact ⟨s', rfl, hf.2⟩
    | error x =>
      rw [hx] at hf
      exact absurd ha hf.2
  · have hf := St.exec_fine hI .serviceOne
    simp only [St.exec] at hs'
    split at hs'
    · rename_i e hh hserv
      cases hs'
      simp only [St.exec, hh, hserv] at hf
      refine ⟨e, hh, rfl, (hI.2 e).mpr (hq.head_mem hh), ?_, fun x hx => ?_, hI.2, (hq.head_first hh).2⟩
      · rw [← Bool.not_eq_true, hf.1.2 e, St.service_inserted]
        exact hI.notMem_erase
      · exact (hq.head_first hh).1 x ((hI.2 x).mp hx)
    · cases hs'

/-- No events, and an empty queue. -/
def St.empty : St where
  events := fun _ => ⟨0, 0, 0⟩
  queue := ⟨none, ⟨fun _ => none, fun _ => none⟩⟩
  curTick := 0
  servicing := none
  inserted := []

theorem St.empty_fresh : eventQueue.init St.empty :=
    ⟨rfl, rfl, rfl, rfl, fun _ => by simp [St.empty, St.event, Event.scheduled, Flags.isSet]⟩

/-- Of two events for the tick `10`, scheduled from the `process()` of one for the tick `5`, the second is served. -/
theorem priority_queue_two_events : ∃ s, eventQueue.Reachable s ∧ s.inserted = [1, 0] ∧
    ∃ s', s.exec .serviceOne = .ok s' ∧ (s'.event 1).scheduled = false := by
  obtain ⟨s, hs, hins, hhead, hserv⟩ := System.reachable_of_replay St.empty_fresh
    [.construct 0 0 false false, .construct 1 0 false false, .construct 2 (-3) false false, .schedule 2 5,
      .schedule 0 7, .serviceOne, .reschedule 0 10 false, .schedule 1 10, .processed]
    (fun s => s.inserted = [1, 0] ∧ s.queue.head = some 1 ∧ s.servicing = none) (by decide)
  obtain ⟨-, -, hallow, hserve⟩ := priority_queue hs
  obtain ⟨s', hs', -⟩ := hallow .serviceOne ⟨by simp [hhead], hserv⟩
  obtain ⟨e, he, -, -, hout, -⟩ := hserve s' hs'
  rw [hhead] at he
  cases he
  exact ⟨s, hs, hins, s', hs', hout⟩

end Salam.Events
