import Salam.Engine.Reruns
import Salam.Engine.Latency

/-!
# The report of the cycles

`finalize()` is called in the middle of the last tick, which `occupancy()` has not counted yet. `counted` is the engine
with a record of its ticks, taken from the instances that are launched and the lists, and not from the flags of
`tick()`.

* `Core.executed_of_step`: which acts launch an instance that is no terminator.
* `counts_of_reachable`: the counters count the ticks that are over.
* `cycle_accounting`: what is reported of all ticks, and exactly when it is right.
-/

namespace Salam.Engine

/-! ## A record of the ticks -/

/-- A tick: whether a load, a store or a compute instance has been launched, and how many were in flight at its
beginning. -/
structure Round where
  executed : Bool
  loads : Nat
  stores : Nat
  comps : Nat
  deriving DecidableEq

/-- No instance is launched, and instances of exactly these classes were in flight. -/
def Round.stalled (r : Round) (load store comp : Bool) : Bool :=
  !r.executed && (decide (0 < r.loads) == load) && (decide (0 < r.stores) == store) && (decide (0 < r.comps) == comp)

/-- A load, a store or a compute instance has been launched since `c`. -/
def Core.executed (c c' : Core) : Bool := (c'.log.drop c.log.length).any fun e =>
  match e with
  | .launch id => !(c.node id).terminator
  | _ => false

/-- The tick that begins. -/
def St.round (s : St) : Round :=
  ⟨false, s.core.readQueue.length, s.core.writeQueue.length, s.core.computeQueue.length⟩

/-- A state and the ticks until then, the last one first. -/
structure Counted where
  st : St
  rounds : List Round

/-- The record after an event that leads to `s'`. -/
def Counted.after (x : Counted) (e : Ev) (s' : St) : Counted where
  st := s'
  rounds := match e, x.rounds with
    | .tick, rs => x.st.round :: rs
    | .iter, r :: rs => { r with executed := r.executed || x.st.core.executed s'.core } :: rs
    | _, rs => rs

/-- The engine with a record of its ticks. -/
def counted (P : Program) (cfg : Config) : System Counted Ev where
  init x := (engine P cfg).init x.st ∧ x.rounds = [x.st.round]
  step x e := ((engine P cfg).step x.st e).map (x.after e)

variable {cfg : Config} {P : Program}

theorem counted_step {x x' : Counted} {e : Ev} (h : (counted P cfg).step x e = some x') :
    ∃ s', (engine P cfg).step x.st e = some s' ∧ x' = x.after e s' := by
  obtain ⟨s', hs, hx⟩ := Option.map_eq_some_iff.mp h
  exact ⟨s', hs, hx.symm⟩

theorem engine_of_counted {x : Counted} (h : (counted P cfg).Reachable x) : (engine P cfg).Reachable x.st := by
  obtain ⟨x₀, h₀, hr⟩ := h
  refine ⟨x₀.st, h₀.1, ?_⟩
  induction hr with
  | refl => exact .refl _
  | tail _ _ hs ih =>
    obtain ⟨s', hs', hx⟩ := counted_step hs
    rw [hx]
    exact .tail ih trivial hs'

/-! ## The counters -/

/-- The sum of the seven busy classes. -/
def Stats.busy (t : Stats) : Nat :=
  t.loadOnly + t.storeOnly + t.compOnly + t.loadStore + t.loadComp + t.loadStoreComp + t.storeComp

/-- The counter of the stalls with instances of these classes in flight. Stalls with none have no counter. -/
def Stats.stallsWith (t : Stats) : Bool → Bool → Bool → Nat
  | true, true, true => t.loadStoreCompStall
  | true, true, false => t.loadStoreStall
  | true, false, true => t.loadCompStall
  | true, false, false => t.loadOnlyStall
  | false, true, true => t.storeCompStall
  | false, true, false => t.storeOnlyStall
  | false, false, true => t.compOnlyStall
  | false, false, false => 0

/-- The counters count the ticks `rs`. -/
structure Stats.Counts (t : Stats) (rs : List Round) : Prop where
  busy : t.busy = rs.countP Round.executed
  stalls : t.stalls = rs.countP fun r => !r.executed
  classes : ∀ load store comp, (load || store || comp) = true →
    t.stallsWith load store comp = rs.countP fun r => r.stalled load store comp

/-- What `finalize()` reports is right for the ticks `rs`. -/
structure Stats.Reports (t : Stats) (rs : List Round) : Prop where
  busy : (t.busy : Int) = t.execnodes
  executed : t.execnodes = rs.countP Round.executed
  total : t.stalls + t.execnodes + 1 = t.cycle
  classes : ∀ load store comp, (load || store || comp) = true →
    t.stallsWith load store comp = rs.countP fun r => r.stalled load store comp

/-- Some instance has been launched in this tick. -/
def Flags.launched (f : Flags) : Bool := f.loadOpScheduled || f.storeOpScheduled || f.compOpScheduled

/-- The flags of a tick say what its record does. -/
structure Flags.Fits (f : Flags) (r : Round) : Prop where
  launched : r.executed = f.launched
  loads : r.loads = f.loadInFlight
  stores : r.stores = f.storeInFlight
  comps : r.comps = f.compInFlight

section Counters

variable {t : Stats} {f : Flags} {r : Round} {rs : List Round}

theorem Round.stalled_fits (h : f.Fits r) (load store comp : Bool) : r.stalled load store comp =
    (!f.launched && (decide (0 < f.loadInFlight) == load) && (decide (0 < f.storeInFlight) == store) &&
      (decide (0 < f.compInFlight) == comp)) := by
  rw [stalled, h.launched, h.loads, h.stores, h.comps]

theorem Stats.busy_occupancy (t : Stats) (f : Flags) : (t.occupancy f).busy = t.busy + f.launched.toNat := by
  unfold occupancy Flags.launched
  cases f.loadOpScheduled <;> cases f.storeOpScheduled <;> cases f.compOpScheduled
  case false.false.false =>
    dsimp only
    split <;> rfl
  all_goals
    simp only [busy, Bool.or_true, Bool.or_false, Bool.toNat_true]
    omega

theorem Stats.stalls_occupancy (t : Stats) (f : Flags) : (t.occupancy f).stalls = t.stalls + (!f.launched).toNat := by
  unfold occupancy Flags.launched
  cases f.loadOpScheduled <;> cases f.storeOpScheduled <;> cases f.compOpScheduled
  case false.false.false =>
    dsimp only
    split <;> rfl
  all_goals rfl

theorem Stats.stallsWith_occupancy (t : Stats) (f : Flags) {load store comp : Bool}
    (hany : (load || store || comp) = true) :
    (t.occupancy f).stallsWith load store comp = t.stallsWith load store comp +
      (!f.launched && (decide (0 < f.loadInFlight) == load) && (decide (0 < f.storeInFlight) == store) &&
        (decide (0 < f.compInFlight) == comp)).toNat := by
  unfold occupancy Flags.launched
  cases f.loadOpScheduled <;> cases f.storeOpScheduled <;> cases f.compOpScheduled
  case false.false.false =>
    cases decide (0 < f.loadInFlight) <;> cases decide (0 < f.storeInFlight) <;> cases decide (0 < f.compInFlight) <;>
      cases load <;> cases store <;> cases comp <;> first | rfl | cases hany
  all_goals rfl

theorem Stats.Counts.occupancy (h : t.Counts rs) (hf : f.Fits r) : (t.occupancy f).Counts (r :: rs) where
  busy := by
    rw [busy_occupancy, h.busy, List.countP_cons, hf.launched]
    cases f.launched <;> rfl
  stalls := by
    rw [stalls_occupancy, h.stalls, List.countP_cons, hf.launched]
    cases f.launched <;> rfl
  classes load store comp hany := by
    rw [stallsWith_occupancy t f hany, h.classes _ _ _ hany, List.countP_cons, Round.stalled_fits hf]
    cases (!f.launched && _ && _ && _ : Bool) <;> rfl

theorem Stats.Counts.congr {t' : Stats} (h : t.Counts rs) (hbusy : t'.busy = t.busy) (hstalls : t'.stalls = t.stalls)
    (hclasses : t'.stallsWith = t.stallsWith) : t'.Counts rs :=
  ⟨hbusy.trans h.busy, hstalls.trans h.stalls, hclasses ▸ h.classes⟩

end Counters

/-! ## Launches -/

/-- What an act adds to the read queue. -/
def Act.loads : Act → List Nat
  | .launchLoad id => [id]
  | _ => []

/-- What an act adds to the write queue. -/
def Act.stores : Act → List Nat
  | .launchStore id => [id]
  | _ => []

namespace Core

variable {c c' c'' : Core} {a b : Act} {id : Nat}

theorem executed_of_log {es es' : List Event} (hlog : c'.log = c.log ++ (es ++ es')) {launched : Option Nat}
    (hes : ∀ k, .launch k ∈ es ↔ launched = some k) (hes' : ∀ k, .launch k ∉ es') :
    c.executed c' = launched.any fun k => !(c.node k).terminator := by
  rw [executed, hlog, List.drop_left, Bool.eq_iff_iff, List.any_eq_true, Option.any_eq_true]
  constructor
  · rintro ⟨e, he, hx⟩
    split at hx
    · rename_i k
      rcases List.mem_append.mp he with he | he
      · exact ⟨k, (hes k).mp he, hx⟩
      · exact absurd he (hes' k)
    · cases hx
  · rintro ⟨k, hk, hx⟩
    exact ⟨.launch k, List.mem_append_left _ ((hes k).mpr hk), hx⟩

/-- **An act launches a load, a store or a compute instance if it launches one that is no terminator.** -/
theorem executed_of_step (hL : c.Lists) (h : c.step a = some c') :
    c.executed c' = a.starts.any fun k => !(c.node k).terminator := by
  obtain ⟨es, hlog, hes, -⟩ := events_of_step hL h
  exact executed_of_log (by rw [hlog, List.append_nil]) hes (by simp)

theorem executed_of_steps (hL : c.Lists) (h : c.step a = some c') (h' : c'.step b = some c'') (hb : b.starts = none) :
    c.executed c'' = a.starts.any fun k => !(c.node k).terminator := by
  obtain ⟨es, hlog, hes, -⟩ := events_of_step hL h
  obtain ⟨es', hlog', hes', -⟩ := events_of_step (hL.effect (effect_of_step hL h)) h'
  refine executed_of_log (by rw [hlog', hlog, List.append_assoc]) hes fun k hk => ?_
  rw [hes', hb] at hk
  cases hk

theorem executed_of_eq (h : c'.log = c.log) : c.executed c' = false := by
  rw [executed, h, List.drop_length]
  rfl

/-- What an act of the engine does to the read queue and the write queue. -/
theorem queues_of_step (hL : c.Lists) (hr : ∀ k v, a ≠ .readCommit k v) (hw : ∀ k, a ≠ .writeCommit k)
    (h : c.step a = some c') : c'.readQueue = c.readQueue ++ a.loads ∧ c'.writeQueue = c.writeQueue ++ a.stores := by
  cases a with
  | enterBB bb =>
    cases h
    simp [Act.loads, Act.stores]
  | schedule prev n =>
    simp only [step, scheduleNode_eq hL.lt_next, Option.some.injEq] at h
    subst h
    simp [Act.loads, Act.stores]
  | launch id =>
    simp only [step, Option.ite_none_right_eq_some] at h
    obtain ⟨-, h⟩ := h
    split at h
    · rename_i c₁ hc
      cases h
      obtain ⟨v, rfl⟩ := compute_eq hc
      simp [setFinal, Act.loads, Act.stores]
    · cases h
  | bump id =>
    simp only [step, Option.ite_none_right_eq_some, Option.some.injEq] at h
    obtain ⟨-, rfl⟩ := h
    simp [Act.loads, Act.stores]
  | commit id =>
    simp only [step, Option.ite_none_right_eq_some, Option.some.injEq] at h
    obtain ⟨-, rfl⟩ := h
    simp only [Act.loads, Act.stores, List.append_nil]
    exact ⟨retire_readQueue c id, retire_writeQueue c id⟩
  | launchLoad id =>
    simp only [step, Option.ite_none_right_eq_some, Option.some.injEq] at h
    obtain ⟨-, rfl⟩ := h
    simp [computeMem, Act.loads, Act.stores]
  | launchStore id =>
    simp only [step, Option.ite_none_right_eq_some, Option.some.injEq] at h
    obtain ⟨-, rfl⟩ := h
    simp [computeMem, Act.loads, Act.stores]
  | readCommit id data => exact absurd rfl (hr id data)
  | writeCommit id => exact absurd rfl (hw id)
  | branch id =>
    simp only [step, Option.ite_none_right_eq_some] at h
    obtain ⟨-, h⟩ := h
    split at h
    · cases h
      simp [Act.loads, Act.stores]
    · cases h
  | finish id =>
    simp only [step, Option.ite_none_right_eq_some, Option.some.injEq] at h
    obtain ⟨-, rfl⟩ := h
    simp [Act.loads, Act.stores]

end Core

/-! ## A tick -/

/-- In the middle of a tick: the counters count the ticks before it, and the flags are those of its record. A load or a
store does not leave its queue. -/
structure St.InTick (s : St) (r : Round) (rs : List Round) : Prop where
  counts : s.stats.Counts rs
  fits : s.flags.Fits r
  reads : s.flags.loadInFlight + s.flags.loadOpScheduled.toNat ≤ s.core.readQueue.length
  writes : s.flags.storeInFlight + s.flags.storeOpScheduled.toNat ≤ s.core.writeQueue.length

/-- A state and the record of its ticks. -/
structure Counted.Tallied (x : Counted) : Prop where
  cycle : x.st.stats.cycle = x.rounds.length
  idle : x.st.pc = .idle → x.st.stats.Counts x.rounds
  inTick : x.st.pc ≠ .idle → ∃ r rs, x.rounds = r :: rs ∧ x.st.InTick r rs

namespace St

variable {P : Program} {cfg : Config} {s s' : St} {r : Round} {rs : List Round}

theorem toNat_or_le (a b : Bool) : (a || b).toNat ≤ a.toNat + b.toNat := by
  cases a <;> cases b <;> decide

/-- The record of a tick after an iteration. -/
def iterated (s s' : St) (r : Round) : Round := { r with executed := r.executed || s.core.executed s'.core }

theorem InTick.steady (h : s.InTick r rs) (hcounts : s'.stats.Counts rs) (hflags : s'.flags = s.flags)
    (hexec : s.core.executed s'.core = false) (hreads : s'.core.readQueue = s.core.readQueue)
    (hwrites : s'.core.writeQueue = s.core.writeQueue) : s'.InTick (s.iterated s' r) rs := by
  have hround : s.iterated s' r = r := by
    rw [iterated, hexec, Bool.or_false]
  rw [hround]
  exact ⟨hcounts, hflags ▸ h.fits, by rw [hflags, hreads]; exact h.reads, by rw [hflags, hwrites]; exact h.writes⟩

/-- An act that launches no load, no store and no compute instance. -/
theorem InTick.act (h : s.InTick r rs) (hL : s.core.Lists) {a : Act} (ha : a.starts = none)
    (hr : ∀ k v, a ≠ .readCommit k v)
    (hw : ∀ k, a ≠ .writeCommit k) (hc : s.core.step a = some s'.core) (hcounts : s'.stats.Counts rs)
    (hflags : s'.flags = s.flags) : s'.InTick (s.iterated s' r) rs := by
  obtain ⟨hreads, hwrites⟩ := Core.queues_of_step hL hr hw hc
  refine h.steady hcounts hflags ?_ ?_ ?_
  · rw [Core.executed_of_step hL hc, ha]
    rfl
  · rw [hreads]
    cases a <;> simp_all [Act.starts, Act.loads]
  · rw [hwrites]
    cases a <;> simp_all [Act.starts, Act.stores]

/-- An iteration that launches an instance. -/
theorem InTick.launch (h : s.InTick r rs) (load store comp : Bool) (hany : (load || store || comp) = true)
    (hcounts : s'.stats.Counts rs) (hflags : s'.flags = { s.flags with
      loadOpScheduled := s.flags.loadOpScheduled || load
      storeOpScheduled := s.flags.storeOpScheduled || store
      compOpScheduled := s.flags.compOpScheduled || comp })
    (hexec : s.core.executed s'.core = true) (hreads : s'.core.readQueue.length = s.core.readQueue.length + load.toNat)
    (hwrites : s'.core.writeQueue.length = s.core.writeQueue.length + store.toNat) :
      s'.InTick (s.iterated s' r) rs := by
  have hlaunched : s'.flags.launched = true := by
    rw [hflags, Flags.launched]
    cases load <;> cases store <;> cases comp <;> simp at hany ⊢
  refine ⟨hcounts, ⟨?_, ?_, ?_, ?_⟩, ?_, ?_⟩
  · rw [iterated, hexec, Bool.or_true, hlaunched]
  · rw [hflags]
    exact h.fits.loads
  · rw [hflags]
    exact h.fits.stores
  · rw [hflags]
    exact h.fits.comps
  · have hle := h.reads
    have hor := toNat_or_le s.flags.loadOpScheduled load
    rw [hflags, hreads]
    dsimp only
    omega
  · have hle := h.writes
    have hor := toNat_or_le s.flags.storeOpScheduled store
    rw [hflags, hwrites]
    dsimp only
    omega

theorem Iter.cycle (hi : Iter P cfg s s') : s'.stats.cycle = s.stats.cycle := by
  cases hi with
  | lockstep hpc => exact tickEnd_cycle
  | scanEnd hpc hi => exact tickEnd_cycle
  | load hpc hid hc => rw [charge_stats]
  | store hpc hid hc => rw [charge_stats]
  | zero hpc hid hz hc hc' => rw [charge_stats]
  | branch hpc hid hlt hd hbb hc => simp [scheduleBB]
  | _ => rfl

/-- **What an iteration does to the record of its tick**: it keeps it, or it ends the tick. -/
theorem Iter.inTick (hL : s.core.Lists) (h : s.InTick r rs) (hi : Iter P cfg s s') :
    s'.pc ≠ .idle ∧ s'.InTick (s.iterated s' r) rs ∨ s'.pc = .idle ∧ s'.stats.Counts (s.iterated s' r :: rs) := by
  have hsame : s.core.executed s.core = false := Core.executed_of_eq rfl
  have hend : s.iterated s r = r := by
    rw [iterated, hsame, Bool.or_false]
  cases hi with
  | commit hpc hid hr hk hc =>
    exact .inl ⟨by simp, h.act hL rfl (by simp) (by simp) hc h.counts rfl⟩
  | bump hpc hid hr hk hc =>
    exact .inl ⟨by simp, h.act hL rfl (by simp) (by simp) hc h.counts rfl⟩
  | noUnit hpc hid hr hk => exact .inl ⟨by simp, h.steady h.counts rfl hsame rfl rfl⟩
  | computeEnd hpc hi hr => exact .inl ⟨by simp, h.steady h.counts rfl hsame rfl rfl⟩
  | nextBB hpc hi hr =>
    exact .inl ⟨by simp [scheduleBB], h.act hL (a := .enterBB s.currBB.name) rfl (by simp) (by simp) rfl h.counts rfl⟩
  | @schedule n rest k hpc =>
    exact .inl ⟨by simp, h.act hL (a := .schedule s.prevBB.name n) rfl (by simp) (by simp) rfl h.counts rfl⟩
  | @schedEnd k hpc =>
    refine .inl ⟨?_, h.steady h.counts rfl hsame rfl rfl⟩
    cases k <;> simp
  | lockstep hpc => exact .inr ⟨rfl, hend.symm ▸ h.counts.occupancy h.fits⟩
  | scanBegin hpc => exact .inl ⟨by simp, h.steady h.counts rfl hsame rfl rfl⟩
  | scanEnd hpc hi => exact .inr ⟨rfl, hend.symm ▸ h.counts.occupancy h.fits⟩
  | @load i id c hpc hid hc =>
    obtain ⟨hreads, hwrites⟩ := Core.queues_of_step hL (by simp) (by simp) hc
    have hexec := Core.executed_of_step hL hc
    simp only [Core.step, Option.ite_none_right_eq_some, Bool.and_eq_true] at hc
    refine .inl ⟨by simp, h.launch true false false rfl ?_ ?_ ?_ ?_ ?_⟩
    · rw [charge_stats]
      exact h.counts.congr rfl rfl rfl
    · simp
    · rw [charge_core, hexec]
      simp [Act.starts, Core.terminator_of_queued (n := s.core.node id) (by simp [Node.queued, hc.1.2])]
    · simp [hreads, Act.loads]
    · simp [hwrites, Act.stores]
  | @store i id c hpc hid hc =>
    obtain ⟨hreads, hwrites⟩ := Core.queues_of_step hL (by simp) (by simp) hc
    have hexec := Core.executed_of_step hL hc
    simp only [Core.step, Option.ite_none_right_eq_some, Bool.and_eq_true] at hc
    refine .inl ⟨by simp, h.launch false true false rfl ?_ ?_ ?_ ?_ ?_⟩
    · rw [charge_stats]
      exact h.counts.congr rfl rfl rfl
    · simp
    · rw [charge_core, hexec]
      simp [Act.starts, Core.terminator_of_queued (n := s.core.node id) (by simp [Node.queued, hc.1.2])]
    · simp [hreads, Act.loads]
    · simp [hwrites, Act.stores]
  | @zero i id c c' hpc hid hz hc hc' =>
    have hL' := hL.effect (Core.effect_of_step hL hc)
    obtain ⟨hreads, hwrites⟩ := Core.queues_of_step hL (by simp) (by simp) hc
    obtain ⟨hreads', hwrites'⟩ := Core.queues_of_step hL' (by simp) (by simp) hc'
    have hexec := Core.executed_of_steps hL hc hc' rfl
    simp only [Core.step, Option.ite_none_right_eq_some, Bool.and_eq_true] at hc
    refine .inl ⟨by simp, h.launch false false true rfl ?_ ?_ ?_ ?_ ?_⟩
    · rw [charge_stats]
      exact h.counts
    · simp
    · rw [charge_core, hexec]
      simp [Act.starts, terminator_of_onUnit hc.1.2]
    · simp [hreads, hreads', Act.loads]
    · simp [hwrites, hwrites', Act.stores]
  | @unit i id c c' hpc hid hz hk hc hc' =>
    have hL' := hL.effect (Core.effect_of_step hL hc)
    obtain ⟨hreads, hwrites⟩ := Core.queues_of_step hL (by simp) (by simp) hc
    obtain ⟨hreads', hwrites'⟩ := Core.queues_of_step hL' (by simp) (by simp) hc'
    have hexec := Core.executed_of_steps hL hc hc' rfl
    simp only [Core.step, Option.ite_none_right_eq_some, Bool.and_eq_true] at hc
    refine .inl ⟨by simp, h.launch false false true rfl h.counts ?_ ?_ ?_ ?_⟩
    · simp
    · rw [hexec]
      simp [Act.starts, terminator_of_onUnit hc.1.2]
    · simp [hreads, hreads', Act.loads]
    · simp [hwrites, hwrites', Act.stores]
  | @branch i id c d bb hpc hid hlt hd hbb hc =>
    have hc' : c.step (.enterBB bb.name) = some (c.emit (.scheduleBB bb.name)) := rfl
    obtain ⟨hreads, hwrites⟩ := Core.queues_of_step hL (by simp) (by simp) hc
    refine .inl ⟨by simp [scheduleBB], h.steady ?_ ?_ ?_ ?_ ?_⟩
    · simpa [scheduleBB] using h.counts
    · simp [scheduleBB]
    · refine (Core.executed_of_steps hL hc hc' rfl).trans ?_
      have hterm : (s.core.node id).terminator = true := (terminator_of_dest hd).1
      simp [Act.starts, hterm]
    · simp [scheduleBB, hreads, Act.loads]
    · simp [scheduleBB, hwrites, Act.stores]
  | @finish id c hpc hid ha hq hl hw hc =>
    exact .inl ⟨by simp, h.act hL rfl (by simp) (by simp) hc (h.counts.congr rfl rfl rfl) rfl⟩
  | skip hpc hid => exact .inl ⟨by simp, h.steady h.counts rfl hsame rfl rfl⟩
  | spin hpc hid hn ha =>
    refine .inl ⟨by simp [hpc], ?_⟩
    rw [hend]
    exact h

end St

variable {rs : List Round}

theorem Counted.after_iter (x : Counted) {r : Round} (h : x.rounds = r :: rs) (s' : St) :
    (x.after .iter s').rounds = x.st.iterated s' r :: rs := by
  obtain ⟨s, rounds⟩ := x
  cases h
  rfl

/-- **The counters count the ticks that are over**, in every state that the engine reaches. -/
theorem tallied_of_reachable {x : Counted} (h : (counted P cfg).Reachable x) : x.Tallied := by
  refine System.invariantWhen (I := Counted.Tallied) ?_ ?_ h
  · rintro ⟨s, rounds⟩ ⟨⟨s₀, entry, init, ⟨h₁, h₂, h₃, h₄⟩, he, rfl⟩, hround⟩
    change rounds = [(s₀.initializeRun entry init).round] at hround
    subst hround
    refine ⟨rfl, fun hpc => (by cases hpc), fun _ => ⟨_, [], rfl, ⟨rfl, rfl, ?_⟩, ⟨rfl, ?_, ?_, ?_⟩, ?_, ?_⟩⟩
    · intro load store comp hany
      cases load <;> cases store <;> cases comp <;> rfl
    all_goals simp [St.initializeRun, St.tickBegin, St.round, Core.start, h₂, h₃, h₄]
  · intro x e x' hr hI _ hs
    obtain ⟨s', hs', rfl⟩ := counted_step hs
    have hreach := engine_of_counted hr
    have hL := lists_of_reachable (core_of_reachable hreach)
    cases move_of_reachable hreach hs' with
    | tick hpc hrun =>
      refine ⟨congrArg (· + 1) hI.cycle, fun hpc' => (by cases hpc'), fun _ => ⟨_, _, rfl, ?_, ?_, ?_, ?_⟩⟩
      · exact (hI.idle hpc).congr rfl rfl rfl
      · exact ⟨rfl, rfl, rfl, rfl⟩
      · exact Nat.le_refl _
      · exact Nat.le_refl _
    | iter hpc hi =>
      obtain ⟨r, rs, hrounds, htick⟩ := hI.inTick hpc
      have hrounds' := x.after_iter hrounds s'
      have hcycle : (x.after .iter s').st.stats.cycle = (x.after .iter s').rounds.length := by
        rw [hrounds', List.length_cons, ← List.length_cons (a := r), ← hrounds, ← hI.cycle]
        exact hi.cycle
      rcases hi.inTick hL htick with ⟨hpc', h⟩ | ⟨hpc', h⟩
      · exact ⟨hcycle, fun hp => absurd hp hpc', fun _ => ⟨_, _, hrounds', h⟩⟩
      · exact ⟨hcycle, fun _ => hrounds'.symm ▸ h, fun hp => absurd hpc' hp⟩
    | readCommit hpc hid => exact ⟨hI.cycle, fun _ => hI.idle hpc, fun hp => absurd hpc hp⟩
    | writeCommit hpc hid => exact ⟨hI.cycle, fun _ => hI.idle hpc, fun hp => absurd hpc hp⟩

/-! ## The report -/

theorem Stats.Counts.length {t : Stats} (h : t.Counts rs) : t.busy + t.stalls = rs.length := by
  rw [h.busy, h.stalls, List.length_eq_countP_add_countP Round.executed]
  refine congrArg (_ + ·) (List.countP_congr fun r _ => ?_)
  simp

/-- When the last tick has no load and no store, a report of the ticks before it is one of all ticks exactly if the last
tick has launched nothing and had no compute instance in flight. -/
theorem Stats.reports_iff {t : Stats} {r : Round} (h : t.Counts rs) (hbusy : (t.busy : Int) = t.execnodes)
    (htotal : (t.stalls : Int) + t.execnodes + 1 = t.cycle) (hl : r.loads = 0) (hs : r.stores = 0) :
    t.Reports (r :: rs) ↔ r.executed = false ∧ r.comps = 0 := by
  constructor
  · intro hrep
    have hexec : r.executed = false := by
      have heq := hrep.executed
      rw [← hbusy, h.busy, List.countP_cons] at heq
      cases hx : r.executed with
      | false => rfl
      | true =>
        rw [hx, if_pos rfl] at heq
        omega
    refine ⟨hexec, ?_⟩
    have heq := hrep.classes false false true rfl
    rw [h.classes false false true rfl, List.countP_cons] at heq
    have hnot : ¬r.stalled false false true = true := fun hst => by
      rw [if_pos hst] at heq
      omega
    simpa [Round.stalled, hexec, hl, hs] using hnot
  · rintro ⟨hexec, hc⟩
    refine ⟨hbusy, ?_, htotal, fun load store comp hany => ?_⟩
    · rw [← hbusy, h.busy, List.countP_cons, hexec]
      rfl
    · have hnot : r.stalled load store comp = false := by
        rw [Round.stalled, hexec, hl, hs, hc]
        cases load <;> cases store <;> cases comp <;> first | rfl | cases hany
      rw [h.classes _ _ _ hany, List.countP_cons, hnot]
      rfl

/-- **The report of the cycles.** When `finalize()` is called, the busy classes add up to `execnodes`, the ticks to
`cycle`, and the counters are those of the ticks before the last one. As a report of all ticks it is right exactly if
the last one has not launched a compute instance and began with none in flight. -/
theorem cycle_accounting {P : Program} {cfg : Config} {x x' : Counted} {e : Ev} (h : (counted P cfg).Reachable x)
    (hs : (counted P cfg).step x e = some x') (hrun : x.st.running = true) (hstop : x'.st.running = false) :
    (x'.st.stats.busy : Int) = x'.st.stats.execnodes ∧
      (x'.st.stats.stalls : Int) + x'.st.stats.execnodes + 1 = x'.st.stats.cycle ∧
      x'.st.stats.cycle = x'.rounds.length ∧ x'.st.stats.Counts x'.rounds.tail ∧
      (x'.st.stats.Reports x'.rounds ↔ x.st.flags.compOpScheduled = false ∧ x.st.flags.compInFlight = 0) := by
  have hI := tallied_of_reachable h
  obtain ⟨s', hs', rfl⟩ := counted_step hs
  have hreach := engine_of_counted h
  have hL := lists_of_reachable (core_of_reachable hreach)
  have hmove := move_of_reachable hreach hs'
  have hne : s'.running ≠ x.st.running := by
    rw [hrun]
    exact ne_of_eq_of_ne hstop (by simp)
  cases hmove with
  | tick hpc hr => exact absurd rfl hne
  | readCommit hpc hid => exact absurd rfl hne
  | writeCommit hpc hid => exact absurd rfl hne
  | iter hpc hi =>
    obtain ⟨r, rs, hrounds, htick⟩ := hI.inTick hpc
    have hrounds' := x.after_iter hrounds s'
    cases hi with
    | @finish id c hpc' hid ha hq hl hw hc =>
      have hexec : x.st.core.executed c = false := Core.executed_of_step hL hc
      rw [St.iterated, hexec, Bool.or_false] at hrounds'
      have hcycle : x.st.stats.cycle = rs.length + 1 := by
        rw [hI.cycle, hrounds]
        rfl
      have hlen := htick.counts.length
      -- the queues are empty now, so there was no load and no store at any time of the tick
      have hreads := htick.reads
      have hwrites := htick.writes
      rw [hl, List.length_nil] at hreads
      rw [hw, List.length_nil] at hwrites
      have hload : x.st.flags.loadOpScheduled = false := Bool.toNat_eq_zero.mp (by omega)
      have hstore : x.st.flags.storeOpScheduled = false := Bool.toNat_eq_zero.mp (by omega)
      have hexecuted : r.executed = x.st.flags.compOpScheduled := by
        rw [htick.fits.launched, Flags.launched, hload, hstore, Bool.false_or, Bool.false_or]
      have hbusy : (x.st.stats.busy : Int) = (x.st.stats.cycle : Int) - x.st.stats.stalls - 1 := by omega
      have htotal : (x.st.stats.stalls : Int) + ((x.st.stats.cycle : Int) - x.st.stats.stalls - 1) + 1 =
          x.st.stats.cycle := by omega
      have hcounts : Stats.Counts { x.st.stats with execnodes :=
        (x.st.stats.cycle : Int) - x.st.stats.stalls - 1 } rs :=
        htick.counts.congr rfl rfl rfl
      rw [hrounds']
      refine ⟨hbusy, htotal, hcycle, hcounts, ?_⟩
      refine (Stats.reports_iff hcounts hbusy htotal ?_ ?_).trans ?_
      · rw [htick.fits.loads]
        omega
      · rw [htick.fits.stores]
        omega
      · rw [hexecuted, htick.fits.comps]
    | _ => exact absurd (by first | rfl | simp [St.scheduleBB]) hne

/-- A program with one load ends in a tick that launches nothing. -/
theorem cycle_accounting_loadRet : ∃ x x', (counted St.loadRet .unlimited).Reachable x ∧
    (counted St.loadRet .unlimited).step x .iter = some x' ∧ x'.st.running = false ∧ x'.st.stats.execnodes = 1 ∧
    x'.st.stats.Reports x'.rounds := by
  have hinit : (counted St.loadRet .unlimited).init ⟨St.boot St.loadBB fun _ => 64, [⟨false, 0, 0, 0⟩]⟩ :=
    ⟨engine_boot St.loadRet .unlimited rfl fun _ => 64, rfl⟩
  obtain ⟨x, hx, hrun, hflag, hfly, hend⟩ := System.reachable_of_replay hinit
    (List.replicate 8 .iter ++ [.readCommit 0 5, .tick, .iter, .iter])
    (fun x => x.st.running = true ∧ x.st.flags.compOpScheduled = false ∧ x.st.flags.compInFlight = 0 ∧
      ((counted St.loadRet .unlimited).step x .iter).any
        (fun x' => x'.st.running = false ∧ x'.st.stats.execnodes = 1) = true)
    (by decide)
  obtain ⟨x', hs, hx'⟩ := (Option.any_eq_true _ _).mp hend
  obtain ⟨hstop, hexec⟩ := of_decide_eq_true hx'
  obtain ⟨-, -, -, -, hrep⟩ := cycle_accounting hx hs hrun hstop
  exact ⟨x, x', hx, hs, hstop, hexec, hrep.mpr ⟨hflag, hfly⟩⟩

/-- Operations of latency 0 are launched in the tick that ends the run, and `finalize()` reports that none was. -/
theorem execnodes_twoOps : ∃ x x', (counted (twoOps .intAdder 0) .unlimited).Reachable x ∧
    (counted (twoOps .intAdder 0) .unlimited).step x .iter = some x' ∧ x.st.running = true ∧ x'.st.running = false ∧
    x'.st.stats.execnodes = 0 ∧ x'.rounds.countP Round.executed = 1 ∧ ¬x'.st.stats.Reports x'.rounds := by
  have hinit : (counted (twoOps .intAdder 0) .unlimited).init ⟨_, [⟨false, 0, 0, 0⟩]⟩ :=
    ⟨engine_boot (twoOps .intAdder 0) .unlimited rfl fun _ => 0, rfl⟩
  obtain ⟨x, hx, hrun, hend⟩ := System.reachable_of_replay hinit (List.replicate 8 .iter)
    (fun x => x.st.running = true ∧ ((counted (twoOps .intAdder 0) .unlimited).step x .iter).any (fun x' =>
      x'.st.running = false ∧ x'.st.stats.execnodes = 0 ∧ x'.rounds.countP Round.executed = 1) = true)
    (by decide)
  obtain ⟨x', hs, hx'⟩ := (Option.any_eq_true _ _).mp hend
  obtain ⟨hstop, hexec, hcount⟩ := of_decide_eq_true hx'
  refine ⟨x, x', hx, hs, hrun, hstop, hexec, hcount, fun hrep => ?_⟩
  have heq := hrep.executed
  rw [hexec, hcount] at heq
  cases heq

end Salam.Engine
