import Mathlib.Data.List.Flatten
import Mathlib.Data.List.Perm.Basic
import Salam.Lib.System
import Salam.Mem.MemChecker

/-!
# Runs of the checker

Reads and writes of a byte start and complete in the order of their ticks. Next to the tracker a run keeps all the
writes that were not aborted, and all the reads that have completed, which the tracker prunes.

* `KeptAll`: what the tracker holds of them.
* `no_false_alarm`: a read of a value that the byte may hold is not reported.
-/

namespace Salam.Mem

open List (append_assoc mem_append mem_append_right mem_map mem_of_mem_filter mem_singleton mem_singleton_self
  nil_append not_mem_nil pairwise_append)

/-- What happens to the tracker. The map of the writes of a cluster may be rehashed at any time. -/
inductive CheckOp
  | startRead (serial : Serial)
  | completeRead (serial : Serial) (data : UInt8)
  | startWrite (serial : Serial) (data : UInt8)
  | completeWrite (serial : Serial)
  | abortWrite (serial : Serial)
  | rehash (order : List Transaction → List Transaction)

/-- The tracker, the tick and the next serial of the checker. The others are not in the source: all the writes without
the aborted ones, all the observations, and when the first write has started. -/
structure Checked where
  tracker : ByteTracker
  curTick : Nat
  nextSerial : Serial
  writes : List Transaction
  observations : List Transaction
  firstStart : Option Nat

namespace Checked

def start : Checked where
  tracker := .init
  curTick := TICK_INITIAL
  nextSerial := SERIAL_INITIAL
  writes := []
  observations := ByteTracker.init.readObservations
  firstStart := none

/-- A write that has neither completed nor was aborted. -/
def inFlight (s : Checked) (serial : Serial) : Bool :=
  s.writes.any fun w => w.serial = serial && w.complete = TICK_FUTURE

/-- What a read observes when it completes. -/
def observed (s : Checked) (serial : Serial) (tick : Nat) (data : UInt8) : List Transaction :=
  match s.tracker.outstandingReads.find? fun r => r.serial = serial with
  | none => []
  | some r => [⟨serial, r.start, tick, data⟩]

/-- One call, at a tick. Serials go up, and only a write in flight completes or is aborted. -/
def apply (s : Checked) (tick : Nat) : CheckOp → Option Checked
  | .startRead serial =>
    if s.nextSerial ≤ serial then
      some { s with tracker := s.tracker.startRead serial tick, curTick := tick, nextSerial := serial + 1 }
    else none
  | .completeRead serial data =>
    (s.tracker.completeRead tick serial tick data).toOption.map fun out =>
      { s with
        tracker := out.1
        curTick := tick
        observations := s.observations ++ s.observed serial tick data }
  | .startWrite serial data =>
    if s.nextSerial ≤ serial then
      (s.tracker.startWrite serial tick data).toOption.map fun t =>
        { s with
          tracker := t
          curTick := tick
          nextSerial := serial + 1
          writes := s.writes ++ [⟨serial, tick, TICK_FUTURE, data⟩]
          firstStart := s.firstStart.or (some tick) }
    else none
  | .completeWrite serial =>
    if s.inFlight serial then
      (s.tracker.completeWrite tick serial tick).toOption.map fun t =>
        { s with
          tracker := t
          curTick := tick
          writes := s.writes.map (WriteCluster.completed serial tick) }
    else none
  | .abortWrite serial =>
    if s.inFlight serial then
      some { s with
        tracker := s.tracker.abortWrite serial
        curTick := tick
        writes := s.writes.filter fun w => w.serial ≠ serial }
    else none
  | .rehash order =>
    if s.tracker.writeClusters.all fun c => (order c.writes).isPerm c.writes then
      some { s with
        tracker := { s.tracker with
          writeClusters := s.tracker.writeClusters.map fun c => { c with writes := order c.writes } }
        curTick := tick }
    else none

/-- The ticks go up, and none is the one that stands for the future. -/
def step (s : Checked) (e : Nat × CheckOp) : Option Checked :=
  if s.curTick ≤ e.1 ∧ e.1 < TICK_FUTURE then s.apply e.1 e.2 else none

end Checked

/-- The runs of the tracker of a byte. -/
def byteChecker : System Checked (Nat × CheckOp) where
  init s := s = .start
  step := Checked.step

/-! ## Clusters -/

/-- What is true of a cluster at a tick. -/
structure WriteCluster.Ok (now : Nat) (c : WriteCluster) : Prop where
  complete_le : ∀ w ∈ c.writes, w.complete ≠ TICK_FUTURE → w.complete ≤ c.completeMax
  max_le : c.completeMax ≤ now
  count : c.numIncomplete = c.writes.countP fun w => w.complete = TICK_FUTURE
  closed : c.isComplete = true → c.complete = c.completeMax ∧ c.writes ≠ [] ∧ c.numIncomplete = 0

/-- The first cluster is complete, and the writes of the second started later. -/
def WriteCluster.Before (c c' : WriteCluster) : Prop := c.isComplete = true ∧ ∀ w ∈ c'.writes, c.complete ≤ w.start

/-- The clusters follow each other. -/
structure Clusters (now : Nat) (cs : List WriteCluster) : Prop where
  ok : ∀ c ∈ cs, c.Ok now
  pairwise : cs.Pairwise WriteCluster.Before

section Clusters

variable {now now' : Nat} {c c' : WriteCluster} {cs : List WriteCluster} {ws : List Transaction} {serial : Serial}

theorem WriteCluster.Ok.mono (h : c.Ok now) (hle : now ≤ now') : c.Ok now' :=
  ⟨h.complete_le, h.max_le.trans hle, h.count, h.closed⟩

theorem WriteCluster.Ok.fresh (now : Nat) : WriteCluster.fresh.Ok now :=
  ⟨fun _ h => absurd h not_mem_nil, Nat.zero_le now, rfl, fun h => absurd h (by decide)⟩

/-- The writes of a complete cluster have completed. -/
theorem WriteCluster.Ok.of_closed (h : c.Ok now) (hc : c.isComplete = true) {w : Transaction} (hw : w ∈ c.writes) :
    w.complete ≠ TICK_FUTURE ∧ w.complete ≤ c.complete := by
  obtain ⟨hmax, _, hzero⟩ := h.closed hc
  rw [h.count, Int.natCast_eq_zero, List.countP_eq_zero] at hzero
  have hdone : w.complete ≠ TICK_FUTURE := fun heq => hzero w hw (decide_eq_true heq)
  exact ⟨hdone, hmax ▸ h.complete_le w hw hdone⟩

theorem WriteCluster.Ok.complete_le_now (h : c.Ok now) (hc : c.isComplete = true) : c.complete ≤ now := by
  rw [(h.closed hc).1]
  exact h.max_le

/-- The last cluster changes: its writes start no earlier than before. -/
theorem Clusters.setLast (h : Clusters now (cs ++ [c])) (hle : now ≤ now') (hok : c'.Ok now')
    (hstart : ∀ w ∈ c'.writes, now ≤ w.start ∨ ∃ v ∈ c.writes, v.start = w.start) : Clusters now' (cs ++ [c']) := by
  obtain ⟨hcs, -, hbefore⟩ := pairwise_append.mp h.pairwise
  constructor
  · intro d hd
    rcases mem_append.mp hd with hd | hd
    · exact (h.ok d (List.mem_append_left _ hd)).mono hle
    · rw [mem_singleton.mp hd]
      exact hok
  · refine pairwise_append.mpr ⟨hcs, List.pairwise_singleton _ _, fun d hd d' hd' => ?_⟩
    rw [mem_singleton.mp hd']
    obtain ⟨hclosed, hlater⟩ := hbefore d hd c (mem_singleton_self c)
    refine ⟨hclosed, fun w hw => ?_⟩
    rcases hstart w hw with hnow | ⟨v, hv, heq⟩
    · exact ((h.ok d (List.mem_append_left _ hd)).complete_le_now hclosed).trans hnow
    · rw [← heq]
      exact hlater v hv

/-! ### One write of a cluster -/

theorem perm_cons_of_serial {w : Transaction} (hn : (ws.map (·.serial)).Nodup) (hw : w ∈ ws) :
    ∃ rest, ws.Perm (w :: rest) ∧ ∀ v ∈ rest, v.serial ≠ w.serial := by
  have hperm := List.perm_cons_erase hw
  have hnodup := (hperm.map (·.serial)).nodup_iff.mp hn
  refine ⟨ws.erase w, hperm, fun v hv heq => ?_⟩
  rw [List.map_cons, List.nodup_cons] at hnodup
  exact hnodup.1 (heq ▸ List.mem_map_of_mem hv)

theorem map_completed_of_ne {tick : Nat} (h : ∀ w ∈ ws, w.serial ≠ serial) :
    ws.map (WriteCluster.completed serial tick) = ws := by
  conv => rhs; rw [← List.map_id ws]
  apply List.map_congr_left
  intro w hw
  exact if_neg (h w hw)

theorem filter_serial_of_ne (h : ∀ w ∈ ws, w.serial ≠ serial) : (ws.filter fun w => w.serial ≠ serial) = ws :=
  List.filter_eq_self.mpr fun w hw => decide_eq_true (h w hw)

theorem completed_start {tick : Nat} (w : Transaction) : (WriteCluster.completed serial tick w).start = w.start := by
  unfold WriteCluster.completed
  split <;> rfl

section OneWrite

variable {w : Transaction} {serial : Serial} {tick : Nat}

theorem WriteCluster.Ok.isOpen (h : c.Ok now) (hw : w ∈ c.writes) (hfly : w.complete = TICK_FUTURE) :
    c.complete = TICK_FUTURE := by
  by_contra hne
  exact (h.of_closed (decide_eq_true hne) hw).1 hfly

/-- A write starts in a cluster that is not complete. -/
theorem startWrite_ok {data : UInt8} (hnew : ∀ w ∈ c.writes, w.serial ≠ serial)
    (hd : c.startWrite serial tick data = .ok c') :
    c.complete = TICK_FUTURE ∧ c' = { c with
      start := if c.start = TICK_FUTURE then tick else c.start
      numIncomplete := c.numIncomplete + 1
      writes := c.writes ++ [Transaction.mk serial tick TICK_FUTURE data] } := by
  have hany : (c.writes.any fun w => w.serial = serial) = false :=
    List.any_eq_false.mpr fun w hw => by simpa using hnew w hw
  rw [WriteCluster.startWrite] at hd
  split at hd
  · cases hd
  · rename_i hopen
    have hfut : c.complete = TICK_FUTURE := by simpa [WriteCluster.isComplete] using hopen
    refine ⟨hfut, ?_⟩
    by_cases hs : c.start = TICK_FUTURE
    · simp only [hs, if_true, Nat.lt_irrefl, if_false] at hd
      cases hd
      simp [hs, hany]
    · simp only [hs, if_false] at hd
      split at hd
      · cases hd
      · cases hd
        simp [hs, hany]

theorem WriteCluster.Ok.startWrite {data : UInt8} (h : c.Ok now) (hle : now ≤ tick)
    (hnew : ∀ w ∈ c.writes, w.serial ≠ serial) (hd : c.startWrite serial tick data = .ok c') : c'.Ok tick := by
  obtain ⟨hfut, rfl⟩ := startWrite_ok hnew hd
  constructor
  · intro w hw hdone
    rcases mem_append.mp hw with hw | hw
    · exact h.complete_le w hw hdone
    · rw [mem_singleton.mp hw] at hdone
      exact absurd rfl hdone
  · exact h.max_le.trans hle
  · rw [List.countP_append, h.count]
    simp
  · intro hc
    simp [WriteCluster.isComplete, hfut] at hc

/-- What `completeWrite` makes of a cluster with the write. -/
theorem completeWrite_ok (hw : w ∈ c.writes) (hser : w.serial = serial)
    (hd : c.completeWrite serial tick = .ok c') :
    c'.writes = c.writes.map (WriteCluster.completed serial tick) ∧ c'.start = c.start ∧
      c'.completeMax = max c.completeMax tick ∧ c'.numIncomplete = c.numIncomplete - 1 ∧
      c'.complete = if c.numIncomplete - 1 = 0 then max c.completeMax tick else c.complete := by
  have hmax : (if c.completeMax < tick then tick else c.completeMax) = max c.completeMax tick := by
    rw [Nat.max_def]
    split <;> split <;> omega
  rw [WriteCluster.completeWrite] at hd
  split at hd
  · rename_i hnone
    exact absurd (decide_eq_true hser) (List.find?_eq_none.mp hnone w hw)
  · split at hd
    · cases hd
    · rw [hmax] at hd
      cases hd
      split
      · exact ⟨rfl, rfl, rfl, rfl, rfl⟩
      · exact ⟨rfl, rfl, rfl, rfl, rfl⟩

theorem WriteCluster.Ok.completeWrite (h : c.Ok now) (hle : now ≤ tick) (ht : tick < TICK_FUTURE)
    (hn : (c.writes.map (·.serial)).Nodup) (hw : w ∈ c.writes) (hser : w.serial = serial)
    (hfly : w.complete = TICK_FUTURE) (hd : c.completeWrite serial tick = .ok c') : c'.Ok tick := by
  obtain ⟨hwrites, -, hmax, hnum, hcomplete⟩ := completeWrite_ok hw hser hd
  obtain ⟨rest, hperm, hrest⟩ := perm_cons_of_serial hn hw
  have hcount : c'.numIncomplete = c'.writes.countP fun w => w.complete = TICK_FUTURE := by
    have hsame : rest.map (WriteCluster.completed serial tick) = rest :=
      map_completed_of_ne fun v hv => hser ▸ hrest v hv
    have hmap := hperm.map (WriteCluster.completed serial tick)
    rw [List.map_cons, hsame] at hmap
    have hw' : (WriteCluster.completed serial tick w).complete = tick := by
      rw [WriteCluster.completed, if_pos hser]
    rw [hnum, h.count, hperm.countP_eq, hwrites, hmap.countP_eq, List.countP_cons, List.countP_cons, hw', hfly]
    simp [Nat.ne_of_lt ht]
  constructor
  · intro v hv hdone
    rw [hwrites] at hv
    rw [hmax]
    obtain ⟨u, hu, rfl⟩ := mem_map.mp hv
    rw [WriteCluster.completed] at hdone ⊢
    split
    · exact Nat.le_max_right _ _
    · rename_i hne
      rw [if_neg hne] at hdone
      exact (h.complete_le u hu hdone).trans (Nat.le_max_left _ _)
  · rw [hmax]
    exact Nat.max_le.mpr ⟨h.max_le.trans hle, le_refl tick⟩
  · exact hcount
  · intro hc
    by_cases hzero : c.numIncomplete - 1 = 0
    · rw [if_pos hzero] at hcomplete
      refine ⟨hcomplete.trans hmax.symm, ?_, hnum.trans hzero⟩
      rw [hwrites]
      exact fun hnil => List.ne_nil_of_mem hw (List.map_eq_nil_iff.mp hnil)
    · rw [if_neg hzero, h.isOpen hw hfly] at hcomplete
      simp [WriteCluster.isComplete, hcomplete] at hc

/-- What `abortWrite` makes of a cluster with the write. -/
theorem abortWrite_ok (hw : w ∈ c.writes) (hser : w.serial = serial) :
    c.abortWrite serial = { c with
      writes := c.writes.filter fun w => w.serial ≠ serial
      numIncomplete := c.numIncomplete - 1
      complete :=
        if c.numIncomplete - 1 = 0 ∧ (c.writes.filter fun w => w.serial ≠ serial) ≠ [] then c.completeMax
        else c.complete } := by
  have hany : (c.writes.any fun w => w.serial = serial) = true := List.any_eq_true.mpr ⟨w, hw, decide_eq_true hser⟩
  rw [WriteCluster.abortWrite, if_pos hany]
  dsimp only
  split
  · rfl
  · rfl

theorem WriteCluster.Ok.abortWrite (h : c.Ok now) (hle : now ≤ tick) (hn : (c.writes.map (·.serial)).Nodup)
    (hw : w ∈ c.writes) (hser : w.serial = serial) (hfly : w.complete = TICK_FUTURE) :
      (c.abortWrite serial).Ok tick := by
  obtain ⟨rest, hperm, hrest⟩ := perm_cons_of_serial hn hw
  rw [abortWrite_ok hw hser]
  constructor
  · exact fun v hv hdone => h.complete_le v (mem_of_mem_filter hv) hdone
  · exact h.max_le.trans hle
  · show c.numIncomplete - 1 =
      ((c.writes.filter fun w => w.serial ≠ serial).countP fun w => w.complete = TICK_FUTURE : Nat)
    have hsame : (rest.filter fun w => w.serial ≠ serial) = rest := filter_serial_of_ne fun v hv => hser ▸ hrest v hv
    have hfilter := hperm.filter fun w => decide (w.serial ≠ serial)
    rw [List.filter_cons_of_neg (by simp [hser]), hsame] at hfilter
    rw [h.count, hperm.countP_eq, hfilter.countP_eq, List.countP_cons, hfly]
    simp
  · intro hc
    by_cases hlast : c.numIncomplete - 1 = 0 ∧ (c.writes.filter fun w => w.serial ≠ serial) ≠ []
    · dsimp only
      rw [if_pos hlast]
      exact ⟨rfl, hlast.2, hlast.1⟩
    · rw [WriteCluster.isComplete, if_neg hlast, h.isOpen hw hfly] at hc
      simp at hc

end OneWrite

end Clusters

/-! ## What the tracker keeps -/

/-- Before now, and before any outstanding read has started. -/
def Past (s : Checked) (tick : Nat) : Prop := tick < s.curTick ∧ ∀ r ∈ s.tracker.outstandingReads, tick < r.start

/-- What the clusters hold of the writes: all but some that are followed by a cluster of the past. -/
structure KeptWrites (s : Checked) (erased : List WriteCluster) : Prop where
  tick : s.curTick < TICK_FUTURE
  log : s.writes.Perm ((erased ++ s.tracker.writeClusters).flatMap (·.writes))
  nodup : (s.writes.map (·.serial)).Nodup
  serials : ∀ w ∈ s.writes, w.serial < s.nextSerial
  clusters : Clusters s.curTick (erased ++ s.tracker.writeClusters)
  first : (erased ++ s.tracker.writeClusters).head?.map (·.start) = s.firstStart
  firstTick : ∀ f, s.firstStart = some f → f < TICK_FUTURE
  past : erased ≠ [] → ∃ c, s.tracker.writeClusters.head? = some c ∧ Past s c.complete

/-- What the observations hold of the reads: all but some that are followed by one of the past. -/
structure KeptReads (s : Checked) (erased : List Transaction) : Prop where
  log : s.observations = erased ++ s.tracker.readObservations
  initial : s.observations.head? = some ⟨SERIAL_INITIAL, TICK_INITIAL, TICK_INITIAL, DATA_INITIAL⟩
  past : erased ≠ [] → ∃ o, s.tracker.readObservations.head? = some o ∧ Past s o.complete
  ordered : ∀ o ∈ s.observations, o.start ≤ o.complete
  outstanding : s.tracker.outstandingReads.Pairwise fun r r' => r.start ≤ r'.start
  started : ∀ r ∈ s.tracker.outstandingReads, r.serial < s.nextSerial ∧ r.start ≤ s.curTick

section Keep

variable {s s' : Checked} {erased : List WriteCluster} {old : List Transaction} {tick : Nat} {c' : WriteCluster}
  {serial : Serial}

theorem Past.mono (h : Past s tick) (hle : s.curTick ≤ s'.curTick)
    (hout : ∀ r ∈ s'.tracker.outstandingReads, r ∈ s.tracker.outstandingReads ∨ s.curTick ≤ r.start) :
      Past s' tick := by
  refine ⟨Nat.lt_of_lt_of_le h.1 hle, fun r hr => ?_⟩
  rcases hout r hr with hr | hr
  · exact h.2 r hr
  · exact Nat.lt_of_lt_of_le h.1 hr

/-- The writes are kept by what is about reads. -/
theorem KeptWrites.mono (h : KeptWrites s erased) (ht : s'.curTick < TICK_FUTURE) (hle : s.curTick ≤ s'.curTick)
    (hout : ∀ r ∈ s'.tracker.outstandingReads, r ∈ s.tracker.outstandingReads ∨ s.curTick ≤ r.start)
    (hserial : s.nextSerial ≤ s'.nextSerial) (hwrites : s'.writes = s.writes)
    (hclusters : s'.tracker.writeClusters = s.tracker.writeClusters) (hfirst : s'.firstStart = s.firstStart) :
    KeptWrites s' erased := by
  constructor
  · exact ht
  · rw [hwrites, hclusters]
    exact h.log
  · rw [hwrites]
    exact h.nodup
  · rw [hwrites]
    exact fun w hw => Nat.lt_of_lt_of_le (h.serials w hw) hserial
  · rw [hclusters]
    exact ⟨fun c hc => (h.clusters.ok c hc).mono hle, h.clusters.pairwise⟩
  · rw [hclusters, hfirst]
    exact h.first
  · rw [hfirst]
    exact h.firstTick
  · rw [hclusters]
    intro hne
    obtain ⟨c, hc, hpast⟩ := h.past hne
    exact ⟨c, hc, hpast.mono hle hout⟩

/-- The reads are kept by what is about writes. -/
theorem KeptReads.mono (h : KeptReads s old) (hle : s.curTick ≤ s'.curTick) (hserial : s.nextSerial ≤ s'.nextSerial)
    (hobs : s'.observations = s.observations) (hkept : s'.tracker.readObservations = s.tracker.readObservations)
    (hout : s'.tracker.outstandingReads = s.tracker.outstandingReads) : KeptReads s' old := by
  constructor
  · rw [hobs, hkept]
    exact h.log
  · rw [hobs]
    exact h.initial
  · rw [hkept]
    intro hne
    obtain ⟨o, ho, hpast⟩ := h.past hne
    exact ⟨o, ho, hpast.mono hle fun r hr => .inl (hout ▸ hr)⟩
  · rw [hobs]
    exact h.ordered
  · rw [hout]
    exact h.outstanding
  · rw [hout]
    intro r hr
    obtain ⟨hs, hle'⟩ := h.started r hr
    exact ⟨Nat.lt_of_lt_of_le hs hserial, hle'.trans hle⟩

/-! ### Writes -/

/-- The last cluster is not complete, or there is a fresh one after it. -/
theorem getIncompleteWriteCluster_cases (t : ByteTracker) :
    t.writeClusters = t.getIncompleteWriteCluster.1 ++ [t.getIncompleteWriteCluster.2] ∧
        t.getIncompleteWriteCluster.2.isComplete = false ∨
      t.writeClusters = t.getIncompleteWriteCluster.1 ∧ t.getIncompleteWriteCluster.2 = .fresh ∧
        ∀ c, t.writeClusters.getLast? = some c → c.isComplete = true := by
  unfold ByteTracker.getIncompleteWriteCluster
  cases hlast : t.writeClusters.getLast? with
  | none =>
    right
    exact ⟨List.getLast?_eq_none_iff.mp hlast, rfl, fun c hc => by cases hc⟩
  | some c =>
    dsimp only
    split
    · rename_i hc
      right
      refine ⟨rfl, rfl, fun d hd => ?_⟩
      cases hd
      exact hc
    · rename_i hc
      left
      exact ⟨(List.dropLast_append_getLast? c hlast).symm, Bool.eq_false_iff.mpr hc⟩

/-- The clusters before the incomplete one, with those that were erased. -/
def earlier (s : Checked) (erased : List WriteCluster) : List WriteCluster :=
  erased ++ s.tracker.getIncompleteWriteCluster.1

/-- The fresh cluster, if there is one, does not change what is kept. -/
theorem KeptWrites.incomplete (h : KeptWrites s erased) :
    Clusters s.curTick (earlier s erased ++ [s.tracker.getIncompleteWriteCluster.2]) ∧
      s.writes.Perm ((earlier s erased).flatMap (·.writes) ++ s.tracker.getIncompleteWriteCluster.2.writes) := by
  have hlog := h.log
  have hcl := h.clusters
  rcases getIncompleteWriteCluster_cases s.tracker with ⟨hcs, -⟩ | ⟨hcs, hfresh, hlast⟩
  · rw [hcs, ← append_assoc] at hlog hcl
    rw [List.flatMap_append, List.flatMap_singleton] at hlog
    exact ⟨hcl, hlog⟩
  · rw [hfresh]
    rw [hcs] at hlog
    refine ⟨⟨?_, ?_⟩, by rw [WriteCluster.fresh, List.append_nil]; exact hlog⟩
    · intro c hc
      rcases mem_append.mp hc with hc | hc
      · exact hcl.ok c (hcs ▸ hc)
      · rw [mem_singleton.mp hc]
        exact .fresh _
    · refine pairwise_append.mpr ⟨by rw [hcs] at hcl; exact hcl.pairwise, List.pairwise_singleton _ _, ?_⟩
      intro d hd d' hd'
      rw [mem_singleton.mp hd']
      refine ⟨?_, fun w hw => absurd hw not_mem_nil⟩
      -- all the clusters are complete: the last one is, and it comes after the others
      rw [earlier, ← hcs] at hd
      rcases List.eq_nil_or_concat s.tracker.writeClusters with hnil | ⟨init, last, hinit⟩
      · have herased : erased = [] := by
          by_contra hne
          obtain ⟨c, hc, -⟩ := h.past hne
          rw [hnil] at hc
          cases hc
        rw [herased, hnil] at hd
        cases hd
      · rw [List.concat_eq_append] at hinit
        have hclosed := hlast last (by rw [hinit]; exact List.getLast?_concat)
        rw [hinit, ← append_assoc] at hd
        have hpair := hcl.pairwise
        rw [hinit, ← append_assoc] at hpair
        rcases mem_append.mp hd with hd | hd
        · exact ((pairwise_append.mp hpair).2.2 d hd last (mem_singleton_self last)).1
        · rw [mem_singleton.mp hd]
          exact hclosed

theorem head_start_append {cs : List WriteCluster} {c c' : WriteCluster} (h : c'.start = c.start) :
    (cs ++ [c']).head?.map (·.start) = (cs ++ [c]).head?.map (·.start) := by
  cases cs with
  | nil => simp [h]
  | cons d ds => rfl

theorem KeptWrites.setCluster (h : KeptWrites s erased) (ht : s'.curTick < TICK_FUTURE) (hle : s.curTick ≤ s'.curTick)
    (hout : s'.tracker.outstandingReads = s.tracker.outstandingReads)
    (hcs : s'.tracker.writeClusters = s.tracker.getIncompleteWriteCluster.1 ++ [c']) (hok : c'.Ok s'.curTick)
    (hstart : ∀ w ∈ c'.writes, s.curTick ≤ w.start ∨
      ∃ v ∈ s.tracker.getIncompleteWriteCluster.2.writes, v.start = w.start)
    (hlog : s'.writes.Perm ((earlier s erased).flatMap (·.writes) ++ c'.writes))
      (hnodup : (s'.writes.map (·.serial)).Nodup)
    (hserials : ∀ w ∈ s'.writes, w.serial < s'.nextSerial)
    (hfirst : (earlier s erased ++ [c']).head?.map (·.start) = s'.firstStart)
    (hfirstTick : ∀ f, s'.firstStart = some f → f < TICK_FUTURE) : KeptWrites s' erased := by
  have hclusters : erased ++ s'.tracker.writeClusters = earlier s erased ++ [c'] := by
    rw [hcs, earlier, append_assoc]
  refine ⟨ht, ?_, hnodup, hserials, ?_, ?_, hfirstTick, ?_⟩
  · rw [hclusters, List.flatMap_append, List.flatMap_singleton]
    exact hlog
  · rw [hclusters]
    exact h.incomplete.1.setLast hle hok hstart
  · rw [hclusters]
    exact hfirst
  · intro hne
    obtain ⟨c, hc, hpast⟩ := h.past hne
    refine ⟨c, ?_, hpast.mono hle fun r hr => .inl (hout ▸ hr)⟩
    -- the first cluster is complete, so it is not the one that changes
    rw [hcs]
    rcases getIncompleteWriteCluster_cases s.tracker with ⟨hold, hopen⟩ | ⟨hold, -, -⟩
    · rw [hold] at hc
      cases hpre : s.tracker.getIncompleteWriteCluster.1 with
      | nil =>
        rw [hpre] at hc
        cases hc
        have hlt := hpast.1
        have hfut : s.tracker.getIncompleteWriteCluster.2.complete = TICK_FUTURE := by
          simpa [WriteCluster.isComplete] using hopen
        omega
      | cons d ds =>
        rw [hpre] at hc
        exact hc
    · rw [hold] at hc
      rw [List.head?_append, hc]
      rfl

theorem KeptWrites.startWrite {data : UInt8} (h : KeptWrites s erased) (ht : tick < TICK_FUTURE)
    (hle : s.curTick ≤ tick)
    (hserial : s.nextSerial ≤ serial) (hd :
      s.tracker.getIncompleteWriteCluster.2.startWrite serial tick data = .ok c') :
    KeptWrites { s with
      tracker := s.tracker.setCluster c'
      curTick := tick
      nextSerial := serial + 1
      writes := s.writes ++ [Transaction.mk serial tick TICK_FUTURE data]
      firstStart := s.firstStart.or (some tick) } erased := by
  obtain ⟨hcl, hlog⟩ := h.incomplete
  have hnew : ∀ w ∈ s.writes, w.serial ≠ serial :=
    fun w hw => Nat.ne_of_lt (Nat.lt_of_lt_of_le (h.serials w hw) hserial)
  have hnew' : ∀ w ∈ s.tracker.getIncompleteWriteCluster.2.writes, w.serial ≠ serial :=
    fun w hw => hnew w (hlog.mem_iff.mpr (mem_append_right _ hw))
  have hok := (hcl.ok _ (mem_append_right _ (mem_singleton_self _))).startWrite hle hnew' hd
  obtain ⟨hfut, rfl⟩ := startWrite_ok hnew' hd
  refine h.setCluster ht hle rfl rfl hok ?_ ?_ ?_ ?_ ?_ ?_
  · intro w hw
    rcases mem_append.mp hw with hw | hw
    · exact .inr ⟨w, hw, rfl⟩
    · rw [mem_singleton.mp hw]
      exact .inl hle
  · show (s.writes ++ [_]).Perm (_ ++ (_ ++ [_]))
    rw [← append_assoc]
    exact hlog.append_right _
  · show ((s.writes ++ [_]).map _).Nodup
    rw [List.map_append, List.nodup_append]
    refine ⟨h.nodup, List.nodup_singleton _, fun a ha b hb => ?_⟩
    obtain ⟨w, hw, rfl⟩ := mem_map.mp ha
    rw [mem_singleton.mp hb]
    exact hnew w hw
  · intro w hw
    rcases mem_append.mp hw with hw | hw
    · exact Nat.lt_succ_of_lt (Nat.lt_of_lt_of_le (h.serials w hw) hserial)
    · rw [mem_singleton.mp hw]
      exact Nat.lt_succ_self serial
  · have hfirst := h.first
    rcases getIncompleteWriteCluster_cases s.tracker with ⟨hcs, -⟩ | ⟨hcs, hfresh, -⟩
    · -- the cluster is there, and has started
      rw [hcs, ← append_assoc] at hfirst
      cases hf : s.firstStart with
      | none =>
        rw [hf] at hfirst
        simp at hfirst
      | some f =>
        rw [hf] at hfirst
        rw [Option.some_or, ← hfirst]
        show (earlier s erased ++ [_]).head?.map _ = (earlier s erased ++ [_]).head?.map _
        cases hpre : earlier s erased with
        | cons d ds => rfl
        | nil =>
          rw [show erased ++ s.tracker.getIncompleteWriteCluster.1 = [] from hpre] at hfirst
          have hstart : s.tracker.getIncompleteWriteCluster.2.start = f := Option.some.inj hfirst
          have hne : s.tracker.getIncompleteWriteCluster.2.start ≠ TICK_FUTURE :=
            hstart ▸ Nat.ne_of_lt (h.firstTick f hf)
          simp [hne]
    · rw [hcs] at hfirst
      rw [hfresh]
      cases hpre : earlier s erased with
      | nil =>
        rw [show erased ++ s.tracker.getIncompleteWriteCluster.1 = [] from hpre] at hfirst
        rw [← hfirst]
        rfl
      | cons d ds =>
        rw [show erased ++ s.tracker.getIncompleteWriteCluster.1 = d :: ds from hpre] at hfirst
        rw [← hfirst]
        rfl
  · intro f hf
    cases hold : s.firstStart with
    | none =>
      rw [hold] at hf
      cases hf
      exact ht
    | some f' =>
      rw [hold] at hf
      cases hf
      exact h.firstTick f hold

/-- A write in flight is in the incomplete cluster, and no other write has its serial. -/
theorem KeptWrites.inFlight (h : KeptWrites s erased) (hfly : s.inFlight serial = true) :
    ∃ w ∈ s.tracker.getIncompleteWriteCluster.2.writes, w.serial = serial ∧ w.complete = TICK_FUTURE ∧
      (s.tracker.getIncompleteWriteCluster.2.writes.map (·.serial)).Nodup ∧
      (∀ v ∈ (earlier s erased).flatMap (·.writes), v.serial ≠ serial) ∧
      s.tracker.writeClusters = s.tracker.getIncompleteWriteCluster.1 ++ [s.tracker.getIncompleteWriteCluster.2] := by
  obtain ⟨hcl, hlog⟩ := h.incomplete
  obtain ⟨w, hw, hboth⟩ := List.any_eq_true.mp hfly
  rw [Bool.and_eq_true, decide_eq_true_iff, decide_eq_true_iff] at hboth
  obtain ⟨hser, hfut⟩ := hboth
  have hin : w ∈ s.tracker.getIncompleteWriteCluster.2.writes := by
    rcases mem_append.mp (hlog.mem_iff.mp hw) with hw | hw
    · obtain ⟨d, hd, hwd⟩ := List.mem_flatMap.mp hw
      have hclosed := ((pairwise_append.mp hcl.pairwise).2.2 d hd _ (mem_singleton_self _)).1
      exact absurd hfut ((hcl.ok d (List.mem_append_left _ hd)).of_closed hclosed hwd).1
    · exact hw
  have hnodup := (hlog.map (·.serial)).nodup_iff.mp h.nodup
  rw [List.map_append, List.nodup_append] at hnodup
  refine ⟨w, hin, hser, hfut, hnodup.2.1, ?_, ?_⟩
  · intro v hv heq
    exact hnodup.2.2 _ (List.mem_map_of_mem hv) _ (List.mem_map_of_mem hin) (heq.trans hser.symm)
  · rcases getIncompleteWriteCluster_cases s.tracker with ⟨hcs, -⟩ | ⟨-, hfresh, -⟩
    · exact hcs
    · rw [hfresh] at hin
      cases hin

theorem serial_completed (w : Transaction) : (WriteCluster.completed serial tick w).serial = w.serial := by
  unfold WriteCluster.completed
  split <;> rfl

theorem KeptWrites.completeWrite (h : KeptWrites s erased) (ht : tick < TICK_FUTURE) (hle : s.curTick ≤ tick)
    (hfly : s.inFlight serial = true) (hd : s.tracker.getIncompleteWriteCluster.2.completeWrite serial tick = .ok c') :
    KeptWrites { s with
      tracker := s.tracker.setCluster c'
      curTick := tick
      writes := s.writes.map (WriteCluster.completed serial tick) } erased := by
  obtain ⟨hcl, hlog⟩ := h.incomplete
  obtain ⟨w, hw, hser, hfut, hn, hother, hcs⟩ := h.inFlight hfly
  have hok := (hcl.ok _ (mem_append_right _ (mem_singleton_self _))).completeWrite hle ht hn hw hser hfut hd
  obtain ⟨hwrites, hstart, -⟩ := completeWrite_ok hw hser hd
  refine h.setCluster ht hle rfl rfl hok ?_ ?_ ?_ ?_ ?_ h.firstTick
  · intro v hv
    rw [hwrites] at hv
    obtain ⟨u, hu, rfl⟩ := mem_map.mp hv
    exact .inr ⟨u, hu, (completed_start u).symm⟩
  · have hmap := hlog.map (WriteCluster.completed serial tick)
    rw [List.map_append, map_completed_of_ne hother, ← hwrites] at hmap
    exact hmap
  · show ((s.writes.map _).map _).Nodup
    rw [List.map_map, show (fun w : Transaction => w.serial) ∘ WriteCluster.completed serial tick =
      fun w => w.serial from funext serial_completed]
    exact h.nodup
  · intro v hv
    obtain ⟨u, hu, rfl⟩ := mem_map.mp hv
    rw [serial_completed]
    exact h.serials u hu
  · have hfirst := h.first
    rw [hcs, ← append_assoc] at hfirst
    exact (head_start_append hstart).trans hfirst

theorem KeptWrites.abortWrite (h : KeptWrites s erased) (ht : tick < TICK_FUTURE) (hle : s.curTick ≤ tick)
    (hfly : s.inFlight serial = true) : KeptWrites { s with
      tracker := s.tracker.abortWrite serial
      curTick := tick
      writes := s.writes.filter fun w => w.serial ≠ serial } erased := by
  obtain ⟨hcl, hlog⟩ := h.incomplete
  obtain ⟨w, hw, hser, hfut, hn, hother, hcs⟩ := h.inFlight hfly
  have hok := (hcl.ok _ (mem_append_right _ (mem_singleton_self _))).abortWrite hle hn hw hser hfut
  have hwrites : (s.tracker.getIncompleteWriteCluster.2.abortWrite serial).writes =
      s.tracker.getIncompleteWriteCluster.2.writes.filter fun w => w.serial ≠ serial := by
    rw [abortWrite_ok hw hser]
  have hstart : (s.tracker.getIncompleteWriteCluster.2.abortWrite serial).start =
      s.tracker.getIncompleteWriteCluster.2.start := by
    rw [abortWrite_ok hw hser]
  refine h.setCluster ht hle rfl rfl hok ?_ ?_ ?_ ?_ ?_ h.firstTick
  · intro v hv
    rw [hwrites] at hv
    exact .inr ⟨v, mem_of_mem_filter hv, rfl⟩
  · have hfilter := hlog.filter fun w => decide (w.serial ≠ serial)
    rw [List.filter_append, filter_serial_of_ne hother, ← hwrites] at hfilter
    exact hfilter
  · exact h.nodup.sublist (List.filter_sublist.map _)
  · exact fun v hv => h.serials v (mem_of_mem_filter hv)
  · have hfirst := h.first
    rw [hcs, ← append_assoc] at hfirst
    exact (head_start_append hstart).trans hfirst

theorem WriteCluster.Ok.rehash {now : Nat} {c : WriteCluster} {ws : List Transaction} (h : c.Ok now)
    (hws : ws.Perm c.writes) : WriteCluster.Ok now { c with writes := ws } := by
  refine ⟨fun w hw => h.complete_le w (hws.mem_iff.mp hw), h.max_le, ?_, fun hc => ?_⟩
  · show c.numIncomplete = _
    rw [h.count, hws.countP_eq]
  · obtain ⟨hmax, hne, hzero⟩ := h.closed hc
    refine ⟨hmax, fun hnil => hne ?_, hzero⟩
    rw [show ws = [] from hnil] at hws
    exact hws.symm.eq_nil

theorem KeptWrites.rehash {order : List Transaction → List Transaction} (h : KeptWrites s erased)
    (ht : tick < TICK_FUTURE)
    (hle : s.curTick ≤ tick) (horder : (s.tracker.writeClusters.all fun c => (order c.writes).isPerm c.writes) = true) :
    KeptWrites { s with
      tracker := { s.tracker with
        writeClusters := s.tracker.writeClusters.map fun c => { c with writes := order c.writes } }
      curTick := tick } erased := by
  have hperm : ∀ c ∈ s.tracker.writeClusters, (order c.writes).Perm c.writes :=
    fun c hc => List.isPerm_iff.mp (List.all_eq_true.mp horder c hc)
  obtain ⟨herased, hkept, hbetween⟩ := pairwise_append.mp h.clusters.pairwise
  constructor
  · exact ht
  · rw [List.flatMap_append, List.flatMap_map]
    refine h.log.trans ?_
    rw [List.flatMap_append]
    apply List.Perm.append_left
    exact List.Perm.flatMap_left _ fun c hc => (hperm c hc).symm
  · exact h.nodup
  · exact h.serials
  · constructor
    · intro c hc
      rcases mem_append.mp hc with hc | hc
      · exact (h.clusters.ok c (List.mem_append_left _ hc)).mono hle
      · obtain ⟨d, hd, rfl⟩ := mem_map.mp hc
        exact ((h.clusters.ok d (mem_append_right _ hd)).mono hle).rehash (hperm d hd)
    · refine pairwise_append.mpr ⟨herased, ?_, ?_⟩
      · rw [List.pairwise_map]
        refine hkept.imp_of_mem fun {c d} _ hd hcd => ⟨hcd.1, fun w hw => ?_⟩
        exact hcd.2 w ((hperm d hd).mem_iff.mp hw)
      · intro c hc d' hd'
        obtain ⟨d, hd, rfl⟩ := mem_map.mp hd'
        obtain ⟨hclosed, hlater⟩ := hbetween c hc d hd
        exact ⟨hclosed, fun w hw => hlater w ((hperm d hd).mem_iff.mp hw)⟩
  · have hfirst := h.first
    cases erased with
    | cons d ds => exact hfirst
    | nil =>
      rw [nil_append] at hfirst ⊢
      rw [List.head?_map, Option.map_map]
      exact hfirst
  · exact h.firstTick
  · intro hne
    obtain ⟨c, hc, hpast⟩ := h.past hne
    refine ⟨{ c with writes := order c.writes }, ?_, hpast.mono hle fun r hr => .inl hr⟩
    show (s.tracker.writeClusters.map _).head? = _
    rw [List.head?_map, hc]
    rfl

/-! ### Reads -/

/-- Serials go up, so a new read is the last one. -/
theorem orderedInsert_last {r : Transaction} {rs : List Transaction} (h : ∀ r' ∈ rs, r'.serial < r.serial) :
    rs.orderedInsert (fun r r' => r.serial ≤ r'.serial) r = rs ++ [r] := by
  induction rs with
  | nil => rfl
  | cons r' rs ih =>
    obtain ⟨hr', hrs⟩ := List.forall_mem_cons.mp h
    rw [List.orderedInsert_cons, if_neg (Nat.not_le.mpr hr'), ih hrs]
    rfl

theorem startRead_outstanding (tick : Nat) (h : KeptReads s old) (hserial : s.nextSerial ≤ serial) :
    (s.tracker.startRead serial tick).outstandingReads =
      s.tracker.outstandingReads ++ [⟨serial, tick, TICK_FUTURE, DATA_INITIAL⟩] := by
  have hlt : ∀ r ∈ s.tracker.outstandingReads, r.serial < serial :=
    fun r hr => Nat.lt_of_lt_of_le (h.started r hr).1 hserial
  have hany : (s.tracker.outstandingReads.any fun r => r.serial = serial) = false :=
    List.any_eq_false.mpr fun r hr => by simpa using Nat.ne_of_lt (hlt r hr)
  rw [ByteTracker.startRead]
  rw [hany]
  exact orderedInsert_last hlt

theorem KeptReads.startRead (h : KeptReads s old) (hle : s.curTick ≤ tick) (hserial : s.nextSerial ≤ serial) :
    KeptReads { s with
      tracker := s.tracker.startRead serial tick
      curTick := tick
      nextSerial := serial + 1 } old := by
  have hout := startRead_outstanding tick h hserial
  constructor
  · exact h.log
  · exact h.initial
  · intro hne
    obtain ⟨o, ho, hpast⟩ := h.past hne
    refine ⟨o, ho, hpast.mono hle fun r hr => ?_⟩
    rw [hout] at hr
    rcases mem_append.mp hr with hr | hr
    · exact .inl hr
    · rw [mem_singleton.mp hr]
      exact .inr hle
  · exact h.ordered
  · rw [hout]
    refine pairwise_append.mpr ⟨h.outstanding, List.pairwise_singleton _ _, fun r hr r' hr' => ?_⟩
    rw [mem_singleton.mp hr']
    exact (h.started r hr).2.trans hle
  · rw [hout]
    intro r hr
    rcases mem_append.mp hr with hr | hr
    · obtain ⟨hs, hr'⟩ := h.started r hr
      exact ⟨Nat.lt_succ_of_lt (Nat.lt_of_lt_of_le hs hserial), hr'.trans hle⟩
    · rw [mem_singleton.mp hr]
      exact ⟨Nat.lt_succ_self serial, le_refl tick⟩

/-- A read completes, before anything is pruned. -/
theorem KeptReads.observe {r : Transaction} (h : KeptReads s old) (serial : Serial) (data : UInt8)
    (expected : List UInt8)
    (hle : s.curTick ≤ tick) (hr : r ∈ s.tracker.outstandingReads) : KeptReads { s with
      tracker := { s.tracker with
        outstandingReads := s.tracker.outstandingReads.filter fun r => r.serial ≠ serial
        readObservations := s.tracker.readObservations ++ [Transaction.mk serial r.start tick data]
        lastExpectedData := expected }
      curTick := tick
      observations := s.observations ++ [Transaction.mk serial r.start tick data] } old := by
  constructor
  · show s.observations ++ _ = old ++ (s.tracker.readObservations ++ _)
    rw [h.log, append_assoc]
  · show (s.observations ++ _).head? = _
    rw [List.head?_append, h.initial]
    rfl
  · intro hne
    obtain ⟨o, ho, hpast⟩ := h.past hne
    refine ⟨o, ?_, hpast.mono hle fun r hr => .inl (mem_of_mem_filter hr)⟩
    show (s.tracker.readObservations ++ _).head? = _
    rw [List.head?_append, ho]
    rfl
  · intro o ho
    rcases mem_append.mp ho with ho | ho
    · exact h.ordered o ho
    · rw [mem_singleton.mp ho]
      exact (h.started r hr).2.trans hle
  · exact h.outstanding.filter _
  · intro r' hr'
    obtain ⟨hs, hr''⟩ := h.started r' (mem_of_mem_filter hr')
    exact ⟨hs, hr''.trans hle⟩

/-! ### Pruning -/

/-- What completed before the first outstanding read has started, or before now, is in the past. -/
theorem KeptReads.past_of_lt (h : KeptReads s old) (hlt : tick < s.tracker.pruneBefore s.curTick) : Past s tick := by
  have hout := h.outstanding
  have hstarted := h.started
  unfold ByteTracker.pruneBefore at hlt
  unfold Past
  cases hrs : s.tracker.outstandingReads with
  | nil =>
    rw [hrs] at hlt
    exact ⟨hlt, fun r hr => by cases hr⟩
  | cons r rs =>
    rw [hrs] at hlt hout hstarted
    refine ⟨Nat.lt_of_lt_of_le hlt (hstarted r List.mem_cons_self).2, fun r' hr' => ?_⟩
    rcases List.mem_cons.mp hr' with rfl | hr'
    · exact hlt
    · exact Nat.lt_of_lt_of_le hlt ((List.pairwise_cons.mp hout).1 r' hr')

/-- What is erased by then is followed by something in the past, if only what the list starts with is. -/
theorem past_prune {α : Type*} {complete : α → Nat} {l : List α} {erased : List α} (h : KeptReads s old)
    (hpast : erased ≠ [] → ∃ t, l.head? = some t ∧ Past s (complete t)) : ∃ erased',
      erased ++ l = erased' ++ lastCompletedTransaction complete (s.tracker.pruneBefore s.curTick) l ∧
      (erased' ≠ [] → ∃ t, (lastCompletedTransaction complete (s.tracker.pruneBefore s.curTick) l).head? = some t ∧
        Past s (complete t)) := by
  obtain ⟨more, hsplit, hmore⟩ := lastCompletedTransaction_split complete (s.tracker.pruneBefore s.curTick) l
  refine ⟨erased ++ more, by rw [append_assoc, ← hsplit], fun hne => ?_⟩
  cases more with
  | nil =>
    rw [nil_append] at hsplit
    rw [← hsplit]
    exact hpast (by simpa using hne)
  | cons x xs =>
    obtain ⟨t, ht, hlt⟩ := hmore (List.cons_ne_nil x xs)
    exact ⟨t, ht, h.past_of_lt hlt⟩

theorem kept_prune (hr : KeptReads s old) (hw : KeptWrites s erased) : ∃ erased' old',
    KeptWrites { s with tracker := s.tracker.pruneTransactions s.curTick } erased' ∧
      KeptReads { s with tracker := s.tracker.pruneTransactions s.curTick } old' := by
  obtain ⟨erased', hcs, hcspast⟩ := past_prune hr hw.past
  obtain ⟨old', hos, hospast⟩ := past_prune hr hr.past
  refine ⟨erased', old', ?_, ?_⟩
  · refine ⟨hw.tick, ?_, hw.nodup, hw.serials, ?_, ?_, hw.firstTick, hcspast⟩
    · exact hcs ▸ hw.log
    · exact hcs ▸ hw.clusters
    · exact hcs ▸ hw.first
  · exact ⟨hr.log.trans hos, hr.initial, hospast, hr.ordered, hr.outstanding, hr.started⟩

/-! ### Every run -/

/-- The tracker has what it needs. -/
def KeptAll (s : Checked) : Prop := ∃ erased old, KeptWrites s erased ∧ KeptReads s old

theorem kept_start : KeptAll .start := by
  refine ⟨[], [], ?_, ?_⟩
  · exact ⟨by decide, .refl _, List.nodup_nil, fun w hw => absurd hw not_mem_nil,
      ⟨fun c hc => absurd hc not_mem_nil, .nil⟩, rfl, nofun, fun h => absurd rfl h⟩
  · refine ⟨rfl, rfl, fun h => absurd rfl h, ?_, .nil, fun r hr => absurd hr not_mem_nil⟩
    intro o ho
    rw [mem_singleton.mp ho]

theorem KeptAll.completeRead {data : UInt8} (h : KeptAll s) (ht : tick < TICK_FUTURE) (hle : s.curTick ≤ tick)
    (happly : s.apply tick (.completeRead serial data) = some s') : KeptAll s' := by
  obtain ⟨erased, old, hw, hr⟩ := h
  obtain ⟨⟨t, b⟩, ht', rfl⟩ := Option.map_eq_some_iff.mp happly
  have hread := ok_of_toOption ht'
  rw [ByteTracker.completeRead] at hread
  rw [Checked.observed]
  cases hfind : s.tracker.outstandingReads.find? fun r => r.serial = serial with
  | none =>
    rw [hfind] at hread
    cases hread
    refine ⟨erased, old, hw.mono ht hle (fun r hr => .inl hr) (le_refl _) rfl rfl rfl, ?_⟩
    exact hr.mono hle (le_refl _) (List.append_nil _) rfl rfl
  | some r =>
    rw [hfind] at hread
    dsimp only at hread
    cases hexp : ByteTracker.inExpectedData
        { s.tracker with outstandingReads := s.tracker.outstandingReads.filter fun r => r.serial ≠ serial }
        r.start tick data with
    | error e =>
      rw [hexp] at hread
      cases hread
    | ok out =>
      rw [hexp] at hread
      cases hread
      have hobs := hr.observe serial data out.2 hle (List.mem_of_find?_eq_some hfind)
      exact kept_prune hobs (hw.mono ht hle (fun r hr => .inl (mem_of_mem_filter hr)) (le_refl _) rfl rfl rfl)

/-- **The step**: every call keeps it. -/
theorem KeptAll.step {e : Nat × CheckOp} (h : KeptAll s) (hstep : s.step e = some s') : KeptAll s' := by
  obtain ⟨tick, op⟩ := e
  simp only [Checked.step, Option.ite_none_right_eq_some] at hstep
  obtain ⟨⟨hle, ht⟩, happly⟩ := hstep
  have hkept := h
  obtain ⟨erased, old, hw, hr⟩ := h
  cases op with
  | startRead serial =>
    simp only [Checked.apply, Option.ite_none_right_eq_some] at happly
    obtain ⟨hserial, happly⟩ := happly
    cases happly
    refine ⟨erased, old, hw.mono ht hle ?_ ?_ rfl rfl rfl, hr.startRead hle hserial⟩
    · intro r hr'
      rw [startRead_outstanding tick hr hserial] at hr'
      rcases mem_append.mp hr' with hr' | hr'
      · exact .inl hr'
      · rw [mem_singleton.mp hr']
        exact .inr hle
    · exact Nat.le_succ_of_le hserial
  | completeRead serial data => exact hkept.completeRead ht hle happly
  | startWrite serial data =>
    simp only [Checked.apply, Option.ite_none_right_eq_some] at happly
    obtain ⟨hserial, happly⟩ := happly
    obtain ⟨t, hstart, rfl⟩ := Option.map_eq_some_iff.mp happly
    obtain ⟨c', hc', rfl⟩ := ok_of_map (ok_of_toOption hstart)
    refine ⟨erased, old, hw.startWrite ht hle hserial hc', hr.mono hle ?_ rfl rfl rfl⟩
    exact Nat.le_succ_of_le hserial
  | completeWrite serial =>
    simp only [Checked.apply, Option.ite_none_right_eq_some] at happly
    obtain ⟨hfly, happly⟩ := happly
    obtain ⟨t, hcomplete, rfl⟩ := Option.map_eq_some_iff.mp happly
    obtain ⟨c', hc', rfl⟩ := ok_of_map (ok_of_toOption hcomplete)
    have hw' := hw.completeWrite ht hle hfly hc'
    refine kept_prune (?_ : KeptReads _ old) hw'
    exact hr.mono hle (le_refl _) rfl rfl rfl
  | abortWrite serial =>
    simp only [Checked.apply, Option.ite_none_right_eq_some] at happly
    obtain ⟨hfly, happly⟩ := happly
    cases happly
    exact ⟨erased, old, hw.abortWrite ht hle hfly, hr.mono hle (le_refl _) rfl rfl rfl⟩
  | rehash order =>
    simp only [Checked.apply, Option.ite_none_right_eq_some] at happly
    obtain ⟨horder, happly⟩ := happly
    cases happly
    exact ⟨erased, old, hw.rehash ht hle horder, hr.mono hle (le_refl _) rfl rfl rfl⟩

theorem kept_reachable (h : byteChecker.Reachable s) : KeptAll s := by
  refine System.invariantWhen (I := KeptAll) ?_ ?_ h
  · rintro s rfl
    exact kept_start
  · intro s e s' _ hs _ hstep
    exact hs.step hstep

end Keep

/-! ## No false alarm -/

namespace Checked

/-- The last read that completed before a tick, or the initial observation. -/
def lastObservation (s : Checked) (start : Nat) : Option Transaction :=
  (lastCompletedTransaction Transaction.complete start s.observations).head?

/-- No other write lies between the completion of a write and the start of a read. -/
def Unobscured (s : Checked) (w : Transaction) (start : Nat) : Prop :=
  ∀ w' ∈ s.writes, w' ≠ w → ¬(w.complete ≤ w'.start ∧ w'.complete ≤ start)

instance (s : Checked) (w : Transaction) (start : Nat) : Decidable (s.Unobscured w start) :=
  inferInstanceAs (Decidable (∀ w' ∈ s.writes, w' ≠ w → ¬(w.complete ≤ w'.start ∧ w'.complete ≤ start)))

/-- The value is that of a write. The last observation does not come after the write, or has seen the value. -/
def Written (s : Checked) (o : Transaction) (start complete : Nat) (data : UInt8) : Prop :=
  ∃ w ∈ s.writes, w.data = data ∧ w.start < complete ∧ s.Unobscured w start ∧ (o.start ≤ w.complete ∨ o.data = data)

/-- The value may be the initial one: no write has completed before the read. It was observed, or nothing was; then the
first write, if there is one, started before the read completes. -/
def Initial (s : Checked) (o : Transaction) (start complete : Nat) (data : UInt8) : Prop :=
  (∀ w ∈ s.writes, start < w.complete) ∧
    if o.complete = TICK_INITIAL then ∀ f, s.firstStart = some f → f < complete else o.data = data

end Checked

section Alarm

variable {s : Checked} {erased : List WriteCluster} {old : List Transaction} {r o w : Transaction} {data : UInt8}

/-- What was erased does not matter for the last observation. -/
theorem KeptReads.lastObservation (h : KeptReads s old) (hr : r ∈ s.tracker.outstandingReads) :
    (lastCompletedTransaction Transaction.complete r.start s.tracker.readObservations).head? =
    s.lastObservation r.start := by
  rw [Checked.lastObservation, h.log]
  by_cases hold : old = []
  · rw [hold, nil_append]
  · obtain ⟨x, hx, hpast⟩ := h.past hold
    obtain ⟨xs, hxs⟩ := List.head?_eq_some_iff.mp hx
    rw [hxs, lastCompletedTransaction_append Transaction.complete r.start (hpast.2 r hr)]

/-- The last observation completed before the read has started. -/
theorem KeptReads.lastObservation_le (h : KeptReads s old) {start : Nat} (ho : s.lastObservation start = some o) :
    o.start ≤ o.complete ∧ o.complete ≤ start := by
  obtain ⟨before, hsplit, hpast⟩ := lastCompletedTransaction_split Transaction.complete start s.observations
  obtain ⟨xs, hxs⟩ := List.head?_eq_some_iff.mp ho
  refine ⟨h.ordered o ?_, ?_⟩
  · rw [hsplit, hxs]
    exact mem_append_right _ List.mem_cons_self
  · by_cases hnil : before = []
    · have hinit := h.initial
      rw [hsplit, hnil, nil_append, ← Checked.lastObservation, ho] at hinit
      cases hinit
      exact Nat.zero_le start
    · obtain ⟨t, ht, hlt⟩ := hpast hnil
      rw [← Checked.lastObservation, ho] at ht
      cases ht
      exact Nat.le_of_lt hlt

section

variable (h : KeptWrites s erased)
include h

theorem KeptWrites.mem_writes {c : WriteCluster} (hc : c ∈ s.tracker.writeClusters) (hw : w ∈ c.writes) :
    w ∈ s.writes :=
  h.log.mem_iff.mpr (List.mem_flatMap.mpr ⟨c, mem_append_right _ hc, hw⟩)

/-- Writes of different clusters: those of the later one are others, and start later. -/
theorem KeptWrites.pairwise : (erased ++ s.tracker.writeClusters).Pairwise fun c c' =>
    c.isComplete = true ∧ ∀ w ∈ c.writes, ∀ w' ∈ c'.writes, w' ≠ w ∧ w.complete ≤ w'.start := by
  have hnodup : ((erased ++ s.tracker.writeClusters).flatMap (·.writes)).Pairwise (· ≠ ·) :=
    h.log.nodup_iff.mp (List.Nodup.of_map _ h.nodup)
  refine (h.clusters.pairwise.and (List.pairwise_flatMap.mp hnodup).2).imp_of_mem ?_
  rintro c c' hc - ⟨⟨hclosed, hstart⟩, hne⟩
  refine ⟨hclosed, fun w hw w' hw' => ⟨(hne w hw w' hw').symm, ?_⟩⟩
  exact ((h.clusters.ok c hc).of_closed hclosed hw).2.trans (hstart w' hw')

/-- A write that nothing obscures is in a cluster, and the writes of later clusters complete after the read starts. -/
theorem KeptWrites.locate (hr : r ∈ s.tracker.outstandingReads) (hw : w ∈ s.writes) (hun : s.Unobscured w r.start) :
    ∃ pre c post, s.tracker.writeClusters = pre ++ c :: post ∧ w ∈ c.writes ∧
      ∀ c' ∈ post, ∀ w' ∈ c'.writes, r.start < w'.complete := by
  obtain ⟨c, hc, hwc⟩ := List.mem_flatMap.mp (h.log.mem_iff.mp hw)
  have hpair := h.pairwise
  rcases mem_append.mp hc with hc | hc
  · -- the cluster that comes first has a write of the past, which obscures an erased one
    obtain ⟨d, hd, hpast⟩ := h.past (List.ne_nil_of_mem hc)
    obtain ⟨ds, hds⟩ := List.head?_eq_some_iff.mp hd
    have hdin : d ∈ s.tracker.writeClusters := hds ▸ List.mem_cons_self
    have hok := h.clusters.ok d (mem_append_right _ hdin)
    have hclosed : d.isComplete = true := decide_eq_true (Nat.ne_of_lt (hpast.1.trans h.tick))
    obtain ⟨w', hw'⟩ := List.exists_mem_of_ne_nil _ (hok.closed hclosed).2.1
    obtain ⟨hne, hstart⟩ := ((pairwise_append.mp hpair).2.2 c hc d hdin).2 w hwc w' hw'
    have hcomplete := (hok.of_closed hclosed hw').2.trans (Nat.le_of_lt (hpast.2 r hr))
    exact absurd ⟨hstart, hcomplete⟩ (hun w' (h.mem_writes hdin hw') hne)
  · obtain ⟨pre, post, hsplit⟩ := List.append_of_mem hc
    refine ⟨pre, c, post, hsplit, hwc, fun c' hc' w' hw' => ?_⟩
    rw [hsplit, ← append_assoc] at hpair
    have hlater := (List.pairwise_cons.mp (pairwise_append.mp hpair).2.1).1 c' hc'
    obtain ⟨hne, hstart⟩ := hlater.2 w hwc w' hw'
    have hin : c' ∈ s.tracker.writeClusters := by
      rw [hsplit]
      exact mem_append_right _ (List.mem_cons_of_mem c hc')
    by_contra hle
    exact hun w' (h.mem_writes hin hw') hne ⟨hstart, Nat.le_of_not_lt hle⟩

/-- If no write has completed before the read, nothing was erased, and all the clusters overlap with the read. -/
theorem KeptWrites.overlap (hr : r ∈ s.tracker.outstandingReads) (hstart : r.start ≤ s.curTick)
    (hnone : ∀ w ∈ s.writes, r.start < w.complete) :
      erased = [] ∧ ∀ c ∈ s.tracker.writeClusters, r.start < c.complete := by
  have hlater : ∀ c ∈ s.tracker.writeClusters, r.start < c.complete := by
    intro c hc
    have hok := h.clusters.ok c (mem_append_right _ hc)
    by_cases hclosed : c.isComplete = true
    · obtain ⟨w, hw⟩ := List.exists_mem_of_ne_nil _ (hok.closed hclosed).2.1
      exact Nat.lt_of_lt_of_le (hnone w (h.mem_writes hc hw)) (hok.of_closed hclosed hw).2
    · have hfut : c.complete = TICK_FUTURE := by simpa [WriteCluster.isComplete] using hclosed
      rw [hfut]
      exact Nat.lt_of_le_of_lt hstart h.tick
  refine ⟨?_, hlater⟩
  by_contra hne
  obtain ⟨d, hd, hpast⟩ := h.past hne
  obtain ⟨ds, hds⟩ := List.head?_eq_some_iff.mp hd
  exact absurd (hpast.2 r hr) (Nat.not_lt.mpr (Nat.le_of_lt (hlater d (hds ▸ List.mem_cons_self))))

end

theorem checkObservation_valid {t : ByteTracker} {start complete : Nat} {sc : Scan} (hvalid : sc.lastObsValid = true)
    (ho : o.complete ≤ start) (hdata : o.data = data) :
    t.checkObservation o start complete data sc = .ok (true, sc.expected) := by
  rw [ByteTracker.checkObservation, if_pos hvalid, if_neg (Nat.not_lt.mpr ho), if_pos hdata]

/-- A write that nothing obscures is found, or the last observation has seen its value. -/
theorem inExpectedData_written {complete : Nat} (hw : KeptWrites s erased) (hk : KeptReads s old)
    (hr : r ∈ s.tracker.outstandingReads) (ho : s.lastObservation r.start = some o)
      (h : s.Written o r.start complete data) :
    ∃ expected, s.tracker.inExpectedData r.start complete data = .ok (true, expected) := by
  obtain ⟨w, hmem, hdata, -, hun, hobs⟩ := h
  obtain ⟨hoo, hos⟩ := hk.lastObservation_le ho
  rw [ByteTracker.inExpectedData, hk.lastObservation hr, ho]
  dsimp only
  by_cases hskip : o.start ≤ w.complete
  · obtain ⟨pre, c, post, hsplit, hwc, hpost⟩ := hw.locate hr hmem hun
    have hrev : s.tracker.writeClusters.reverse = post.reverse ++ c :: pre.reverse := by
      rw [hsplit, List.reverse_append, List.reverse_cons, append_assoc]
      rfl
    rw [hrev, if_pos]
    · exact ⟨_, rfl⟩
    · apply scanClusters_found hskip hdata hwc
      · intro c' hc' w' hw' _
        exact hpost c' (List.mem_reverse.mp hc') w' hw'
      · rfl
  · split
    · exact ⟨_, rfl⟩
    · have hodata := hobs.resolve_left hskip
      refine ⟨_, checkObservation_valid ?_ hos hodata⟩
      rw [scanClusters_valid]
      · have hne : o.complete ≠ TICK_INITIAL := by
          unfold TICK_INITIAL
          omega
        exact decide_eq_true hne
      · -- a write that makes the observation invalid would obscure `w`
        intro c hc w' hw' hconsidered hbefore
        by_contra hlate
        have hne : w' ≠ w := by
          rintro rfl
          exact hskip hconsidered
        refine hun w' (hw.mem_writes (List.mem_reverse.mp hc) hw') hne ⟨?_, hbefore⟩
        omega

/-- Before any write has completed, what was observed is found, and anything goes if nothing was. -/
theorem inExpectedData_initial {complete : Nat} (hw : KeptWrites s erased) (hk : KeptReads s old)
    (hr : r ∈ s.tracker.outstandingReads) (ho : s.lastObservation r.start = some o)
      (h : s.Initial o r.start complete data) :
    ∃ expected, s.tracker.inExpectedData r.start complete data = .ok (true, expected) := by
  obtain ⟨hnone, hobs⟩ := h
  obtain ⟨hoo, hos⟩ := hk.lastObservation_le ho
  obtain ⟨rfl, hoverlap⟩ := hw.overlap hr (hk.started r hr).2 hnone
  rw [ByteTracker.inExpectedData, hk.lastObservation hr, ho]
  dsimp only
  split
  · exact ⟨_, rfl⟩
  · generalize hsc : scanClusters o r.start data s.tracker.writeClusters.reverse
      ⟨false, [], true, o.complete ≠ TICK_INITIAL⟩ = sc
    have hwrite : ∀ c ∈ s.tracker.writeClusters.reverse, ∀ w ∈ c.writes, r.start < w.complete :=
      fun c hc w hwc => hnone w (hw.mem_writes (List.mem_reverse.mp hc) hwc)
    have hvalid : sc.lastObsValid = decide (o.complete ≠ TICK_INITIAL) := by
      rw [← hsc, scanClusters_valid]
      intro c hc w hwc _ hle
      exact absurd (hwrite c hc w hwc) (Nat.not_lt.mpr hle)
    have hwc : sc.wcOverlap = true := by
      rw [← hsc]
      exact scanClusters_overlap (fun c hc w hwc _ => hwrite c hc w hwc) rfl
    by_cases hinit : o.complete = TICK_INITIAL
    · rw [if_pos hinit] at hobs
      have hinvalid : ¬sc.lastObsValid = true := by simp [hvalid, hinit]
      rw [ByteTracker.checkObservation, if_neg hinvalid]
      have hfirst := hw.first
      cases hcs : s.tracker.writeClusters with
      | nil =>
        rw [hcs] at hsc
        rw [← hsc]
        refine ⟨[], ?_⟩
        show ByteTracker.checkUnobserved o _ = _
        rw [ByteTracker.checkUnobserved, if_neg (by simp [scanClusters]), if_pos hinit]
      | cons c cs =>
        rw [hcs] at hfirst hoverlap
        have hlast : (c :: cs).getLast? = some ((c :: cs).getLast (List.cons_ne_nil c cs)) :=
          List.getLast?_eq_some_getLast _
        rw [List.head?_cons, hlast]
        dsimp only
        rw [if_pos hwc, if_pos]
        · exact ⟨_, rfl⟩
        · exact ⟨hobs c.start hfirst.symm, hoverlap _ (List.getLast_mem _)⟩
    · rw [if_neg hinit] at hobs
      exact ⟨_, checkObservation_valid (hvalid.trans (decide_eq_true hinit)) hos hobs⟩

end Alarm

/-- **No false alarm**: in every run, an outstanding read that returns the value of a write that was not aborted, that
started before the read completes and that no other write obscures, is not reported, unless the last read before it
started after the write had completed and has seen another value; nor is one that returns the initial value
(`Initial`). -/
theorem no_false_alarm {s : Checked} (h : byteChecker.Reachable s) {r o : Transaction}
    (hr : r ∈ s.tracker.outstandingReads) {complete : Nat} {data : UInt8} (ho : s.lastObservation r.start = some o)
    (hvalue : s.Written o r.start complete data ∨ s.Initial o r.start complete data) :
    ∃ expected, s.tracker.inExpectedData r.start complete data = .ok (true, expected) := by
  obtain ⟨erased, old, hw, hk⟩ := kept_reachable h
  rcases hvalue with hwritten | hinitial
  · exact inExpectedData_written hw hk hr ho hwritten
  · exact inExpectedData_initial hw hk hr ho hinitial

/-- Two writes overlap and a third one is aborted; a read returns the value of the write that completed first. -/
theorem no_false_alarm_overlap : ∃ s, byteChecker.Reachable s ∧
    ∃ expected, s.tracker.inExpectedData 30 40 1 = .ok (true, expected) := by
  obtain ⟨s, hs, hr, ho, hw⟩ := System.reachable_of_replay (S := byteChecker) (show byteChecker.init .start from rfl)
    [(10, .startWrite 0 1), (12, .startWrite 1 7), (15, .startWrite 2 2), (20, .completeWrite 0), (22, .abortWrite 1),
      (25, .completeWrite 2), (30, .startRead 3)]
    (fun s => s.tracker.outstandingReads = [⟨3, 30, TICK_FUTURE, DATA_INITIAL⟩] ∧
      s.lastObservation 30 = some ⟨SERIAL_INITIAL, TICK_INITIAL, TICK_INITIAL, DATA_INITIAL⟩ ∧
      (⟨0, 10, 20, 1⟩ ∈ s.writes ∧ s.Unobscured ⟨0, 10, 20, 1⟩ 30)) (by decide +kernel)
  refine ⟨s, hs, ?_⟩
  apply no_false_alarm hs (r := ⟨3, 30, TICK_FUTURE, DATA_INITIAL⟩) (by rw [hr]; exact List.mem_cons_self) ho
  exact .inl ⟨_, hw.1, rfl, by decide, hw.2, .inl (by decide)⟩

/-- A read after both writes has seen the other value: the value that was read before is not expected any more. -/
theorem reports_older_value : ∃ s, byteChecker.Reachable s ∧ ∃ r ∈ s.tracker.outstandingReads, ∃ w ∈ s.writes,
    w.data = 1 ∧ w.start < 60 ∧ s.Unobscured w r.start ∧
      (s.tracker.inExpectedData r.start 60 1).toOption = some (false, [2]) := by
  apply System.reachable_of_replay (S := byteChecker) (show byteChecker.init .start from rfl)
    [(10, .startWrite 0 1), (15, .startWrite 1 2), (20, .completeWrite 0), (25, .completeWrite 1), (30, .startRead 2),
      (40, .completeRead 2 2), (50, .startRead 3)]
  decide +kernel

end Salam.Mem
