import Salam.Events.Refine

/-!
# Events in a checkpoint

`serialize` writes the time, the priority and the flags of an event, `unserialize` reads them back into an event that is
not scheduled, and `checkpointReschedule` inserts the event if its `Scheduled` flag is set. `unserialize` clears this
flag exactly when the event was scheduled and not squashed, so that these events are left out, and the squashed ones,
which were to be left out, are inserted.

* `Queued.restore`: which events the restored queue holds.
* `checkpoint_round_trip`: these are the right ones only if no event was scheduled.
-/

namespace Salam.Events

open Bins

/-- What `serialize` writes of an event. The highest bit of the flags is in no use, so their way through a signed
`short` changes nothing. -/
structure Saved where
  when : Nat
  priority : Int
  flags : Flags

def Event.serialize (x : Event) : Saved := ⟨x.when, x.priority, x.flags⟩

/-- The event that `unserialize` leaves. -/
def Saved.unserialize (c : Saved) : Event :=
  let flags := c.flags.set .initialized
  ⟨c.when, c.priority,
    if flags.isSet .scheduled && !flags.isSet .squashed then flags.clear (.squashed ||| .scheduled) else flags⟩

namespace St

def checkpointReschedule (s : St) (e : Ptr) : Except Err St := if (s.event e).scheduled then s.insert e else .ok s

/-- `UNSERIALIZE_EVENT`: `unserialize`, with its assertions, and `checkpointReschedule`. -/
def unserializeEvent (saved : Ptr → Saved) (s : St) (e : Ptr) : Except Err St :=
  if (s.event e).scheduled = false ∧ (s.event e).initialized = true then
    (s.modify e fun _ => (saved e).unserialize).checkpointReschedule e
  else .error .assertion

/-- The events `es`, one after the other. -/
def restore (saved : Ptr → Saved) (s : St) (es : List Ptr) : Except Err St := es.foldlM (unserializeEvent saved) s

end St

/-! ## The flags of a restored event -/

theorem Saved.unserialize_scheduled (x : Event) : x.serialize.unserialize.scheduled = (x.scheduled && x.squashed) := by
  have h₁ : (x.flags.set .initialized).getLsbD 1 = x.flags.getLsbD 1 := by simp [Flags.set, Flags.initialized]
  have h₀ : (x.flags.set .initialized).getLsbD 0 = x.flags.getLsbD 0 := by simp [Flags.set, Flags.initialized]
  have hc : ∀ f : Flags, (f.clear (.squashed ||| .scheduled)).getLsbD 1 = false := by
    simp [Flags.clear, Flags.squashed, Flags.scheduled]
  rw [Event.scheduled, Event.scheduled, Event.squashed]
  simp only [unserialize, Event.serialize, Flags.isSet_scheduled, Flags.isSet_squashed, h₁, h₀]
  cases hs : x.flags.getLsbD 1 <;> cases x.flags.getLsbD 0
  case true.false => exact hc _
  all_goals exact h₁.trans hs

/-! ## The restored queue -/

namespace St

variable {saved : Ptr → Saved} {s : St} {e : Ptr} {es : List Ptr}

theorem Queued.unserializeEvent {bs : List (Ptr × List Ptr)} (h : s.Queued bs) (he : e ∉ s.inserted)
    (hf : (s.event e).scheduled = false ∧ (s.event e).initialized = true)
    (hw : (saved e).unserialize.scheduled = true → s.curTick ≤ (saved e).when) :
    ∃ s' bs', s.unserializeEvent saved e = .ok s' ∧ s'.Queued bs' ∧ s'.curTick = s.curTick ∧
      s'.event e = (saved e).unserialize ∧ (∀ k, k ≠ e → s'.event k = s.event k) ∧
      ∀ k, k ∈ s'.inserted ↔ k ∈ s.inserted ∨ k = e ∧ (saved e).unserialize.scheduled = true := by
  have hq : (s.modify e fun _ => (saved e).unserialize).Queued bs := h.modify fun hm => absurd hm he
  have hself : (s.modify e fun _ => (saved e).unserialize).event e = (saved e).unserialize := modify_event_self _
  have hne : ∀ k, k ≠ e → (s.modify e fun _ => (saved e).unserialize).event k = s.event k :=
    fun k hk => modify_event_of_ne hk _
  rw [St.unserializeEvent, if_pos hf, checkpointReschedule, hself]
  cases hs : (saved e).unserialize.scheduled with
  | true =>
    obtain ⟨q, bs', hins, hq'⟩ := hq.insert he (by rw [hself]; exact hw hs)
    rw [if_pos rfl, hins]
    refine ⟨_, bs', rfl, hq', rfl, hself, hne, fun k => ?_⟩
    show k ∈ e :: s.inserted ↔ _
    simp [or_comm]
  | false => exact ⟨_, bs, rfl, hq, rfl, hself, hne, fun k => by simp⟩

variable (saved) in
/-- **Which events the restored queue holds.** -/
theorem Queued.restore {bs : List (Ptr × List Ptr)} (h : s.Queued bs) (hes : es.Nodup) (he : ∀ e ∈ es, e ∉ s.inserted)
    (hf : ∀ e ∈ es, (s.event e).scheduled = false ∧ (s.event e).initialized = true)
    (hw : ∀ e ∈ es, (saved e).unserialize.scheduled = true → s.curTick ≤ (saved e).when) :
    ∃ s' bs', s.restore saved es = .ok s' ∧ s'.Queued bs' ∧ (∀ e ∈ es, s'.event e = (saved e).unserialize) ∧
      (∀ e, e ∉ es → s'.event e = s.event e) ∧
      ∀ e, e ∈ s'.inserted ↔ e ∈ s.inserted ∨ e ∈ es ∧ (saved e).unserialize.scheduled = true := by
  induction es generalizing s bs with
  | nil => exact ⟨s, bs, rfl, h, by simp, by simp, by simp⟩
  | cons a es ih =>
    rw [List.nodup_cons] at hes
    obtain ⟨s₁, bs₁, hs₁, hq₁, ht₁, ha₁, hne₁, hin₁⟩ :=
      h.unserializeEvent (he a List.mem_cons_self) (hf a List.mem_cons_self) (hw a List.mem_cons_self)
    have hes₁ : ∀ e ∈ es, e ≠ a := fun e hm hea => hes.1 (hea ▸ hm)
    obtain ⟨s', bs', hs', hq', hev, hout, hin⟩ := ih hq₁ hes.2
      (fun e hm => by
        rw [hin₁ e, not_or]
        exact ⟨he e (List.mem_cons_of_mem _ hm), fun hea => hes₁ e hm hea.1⟩)
      (fun e hm => by
        rw [hne₁ e (hes₁ e hm)]
        exact hf e (List.mem_cons_of_mem _ hm))
      (fun e hm => by
        rw [ht₁]
        exact hw e (List.mem_cons_of_mem _ hm))
    refine ⟨s', bs', ?_, hq', fun e hm => ?_, fun e hm => ?_, fun e => ?_⟩
    · simp only [St.restore, List.foldlM_cons, hs₁]
      exact hs'
    · rcases List.mem_cons.mp hm with rfl | hm
      · rw [hout e hes.1, ha₁]
      · exact hev e hm
    · rw [List.mem_cons, not_or] at hm
      rw [hout e hm.2, hne₁ e hm.1]
    · rw [hin e, hin₁ e, List.mem_cons]
      by_cases hea : e = a
      · subst hea
        simp [hes.1]
      · simp [hea]

/-- The simulation that is restored: its queue is empty, and its events are there but not scheduled. -/
structure Unrestored (s t : St) (es : List Ptr) : Prop where
  head : t.queue.head = none
  inserted : t.inserted = []
  curTick : t.curTick = s.curTick
  fresh : ∀ e ∈ es, (t.event e).scheduled = false ∧ (t.event e).initialized = true

/-- The round trip: the queue of `t'` holds those of the events `es` that were scheduled and not squashed in `s`, for
their times and priorities, and the flags say so. -/
def RoundTrip (s t' : St) (es : List Ptr) : Prop :=
  ∃ bs, Chain t'.queue.links t'.queue.head bs ∧
    (∀ e, e ∈ all bs ↔ e ∈ es ∧ (s.event e).scheduled = true ∧ (s.event e).squashed = false) ∧
    (∀ e ∈ all bs, (t'.event e).when = (s.event e).when ∧ (t'.event e).priority = (s.event e).priority) ∧
    ∀ e ∈ es, (t'.event e).scheduled = true ↔ e ∈ all bs

end St

open St

/-- **What a checkpoint keeps of the queue.** The restored queue holds the events that were scheduled and squashed,
so the round trip succeeds exactly when no event was scheduled. -/
theorem checkpoint_round_trip {s t : St} (h : eventQueue.Reachable s) {es : List Ptr} (hes : es.Nodup)
    (hall : ∀ e, (s.event e).scheduled = true → e ∈ es) (ht : Unrestored s t es) :
    ∃ t', t.restore (fun e => (s.event e).serialize) es = .ok t' ∧
      (RoundTrip s t' es ↔ ∀ e, (s.event e).scheduled = false) := by
  have hI := holds_of_reachable h
  obtain ⟨bs₀, hq₀⟩ := hI.1
  have hq : t.Queued [] := by
    refine ⟨?_, .nil, ?_, ?_, ?_⟩
    · rw [ht.head]
      exact .nil
    · rw [ht.inserted]
      rfl
    · simp [ht.inserted]
    · simp [ht.inserted]
  obtain ⟨t', bs, hrest, hq', hev, -, hin⟩ := hq.restore (fun e => (s.event e).serialize) hes
    (by simp [ht.inserted]) ht.fresh fun e he hs => by
      rw [Saved.unserialize_scheduled, Bool.and_eq_true] at hs
      rw [ht.curTick]
      exact hq₀.curTick e ((hI.2 e).mp hs.1)
  have hmem : ∀ e, e ∈ all bs ↔ (s.event e).scheduled = true ∧ (s.event e).squashed = true := fun e => by
    rw [hq'.mem_all, hin e, ht.inserted, Saved.unserialize_scheduled, Bool.and_eq_true]
    constructor
    · rintro (he | he)
      · cases he
      · exact he.2
    · exact fun he => .inr ⟨hall e he.1, he⟩
  refine ⟨t', hrest, ?_, fun hnone => ⟨bs, hq'.chain, fun e => ?_, fun e he => ?_, fun e he => ?_⟩⟩
  · -- a scheduled event is in the queue if it was squashed, where it should not be, and else it is not
    rintro ⟨bs', hc, hkeep, -, -⟩ e
    cases hs : (s.event e).scheduled with
    | false => rfl
    | true =>
      have heq := hc.unique hq'.chain
      subst heq
      have h₁ := hkeep e
      have h₂ := hmem e
      cases hsq : (s.event e).squashed with
      | true =>
        have := h₁.mp (h₂.mpr ⟨hs, hsq⟩)
        simp [hsq] at this
      | false =>
        have := h₂.mp (h₁.mpr ⟨hall e hs, hs, hsq⟩)
        simp [hsq] at this
  · rw [hmem e]
    simp [hnone e]
  · rw [hmem e] at he
    simp [hnone e] at he
  · rw [hev e he, Saved.unserialize_scheduled, Bool.and_eq_true, hmem e]

/-- No event was scheduled. -/
theorem checkpoint_round_trip_idle : ∃ s t t' : St, eventQueue.Reachable s ∧
    t.restore (fun e => (s.event e).serialize) [0] = .ok t' ∧ RoundTrip s t' [0] := by
  obtain ⟨s, hs, hnone, hi⟩ := System.reachable_of_replay St.empty_fresh
    [.construct 0 0 false false, .schedule 0 5, .squash 0, .deschedule 0]
    (fun s => (s.queue.head = none ∧ s.inserted = []) ∧ (s.event 0).initialized = true) (by decide)
  have hout : ∀ e, (s.event e).scheduled = false := fun e => by
    rw [← Bool.not_eq_true, (holds_of_reachable hs).2 e, hnone.2]
    exact List.not_mem_nil
  obtain ⟨t', ht', hiff⟩ := checkpoint_round_trip hs (t := s) (show [0].Nodup by simp) (by simp [hout])
    ⟨hnone.1, hnone.2, rfl, by simp [hout, hi]⟩
  exact ⟨s, s, t', hs, ht', hiff.mpr hout⟩

/-- An event that was scheduled for the tick `5` is not in the restored queue. -/
theorem not_round_trip : ¬ ∀ (s t : St) (es : List Ptr), eventQueue.Reachable s → es.Nodup →
    (∀ e, (s.event e).scheduled = true → e ∈ es) → Unrestored s t es →
      ∃ t', t.restore (fun e => (s.event e).serialize) es = .ok t' ∧ RoundTrip s t' es := by
  intro h
  let t := St.empty.modify 0 fun _ => ⟨0, 0, .initialized⟩
  obtain ⟨s, hs, hin, hsq, htick, hempty⟩ := System.reachable_of_replay St.empty_fresh
    [.construct 0 0 false false, .schedule 0 5]
    (fun s => s.inserted = [0] ∧ (s.event 0).squashed = false ∧ s.curTick = 0 ∧
      ((t.restore (fun e => (s.event e).serialize) [0]).toOption.all fun t' => t'.queue.head = none) = true)
    (by decide)
  have hsch : ∀ e, (s.event e).scheduled = true ↔ e = 0 := fun e => by
    rw [(holds_of_reachable hs).2 e, hin, List.mem_singleton]
  have ht : Unrestored s t [0] := ⟨rfl, rfl, htick.symm, by simp only [List.mem_singleton, forall_eq]; decide⟩
  obtain ⟨t', ht', bs, hc, hkeep, -⟩ := h s t [0] hs (by simp) (fun e he => by simp [(hsch e).mp he]) ht
  rw [ht'] at hempty
  have hhead : t'.queue.head = none := by simpa [Except.toOption] using hempty
  rw [hhead] at hc
  cases hc
  have hmem := (hkeep 0).mpr ⟨List.mem_singleton_self 0, (hsch 0).mpr rfl, hsq⟩
  cases hmem

end Salam.Events
