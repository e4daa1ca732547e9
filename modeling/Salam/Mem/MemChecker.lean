import Mathlib.Data.List.Sort

/-!
# `MemChecker`: the tracker of a byte

Writes that overlap are in one cluster. A read that completes is compared with what the byte may hold: the values of the
writes of the clusters that it overlaps, and of the one before them, and what the last read has seen.

The writes of a cluster are in an unordered map; here they are a list, of which nothing but the members is used.

* `scanClusters_found`: a write that the last observation does not hide is found in its cluster, unless a later cluster
  stops the search.
* `lastCompletedTransaction_split`: what pruning erases, and leaves.
-/

namespace Salam.Mem

abbrev Serial := Nat

def SERIAL_INITIAL : Serial := 0

def TICK_INITIAL : Nat := 0

/-- `MaxTick`. -/
def TICK_FUTURE : Nat := 18446744073709551615

def DATA_INITIAL : UInt8 := 0

structure Transaction where
  serial : Serial
  start : Nat
  complete : Nat
  data : UInt8
  deriving DecidableEq

/-- A set of writes; `numIncomplete` counts those that have not completed. -/
structure WriteCluster where
  start : Nat
  complete : Nat
  writes : List Transaction
  completeMax : Nat
  numIncomplete : Int
  deriving DecidableEq

/-- The assertions of the checker. -/
inductive CheckErr
  /-- `assert(!isComplete())`. -/
  | closed
  /-- `WriteClusters must filled in order!` -/
  | order
  /-- `assert(it->second.complete == TICK_FUTURE)`. -/
  | completed
  /-- `assert(!l->empty())`. -/
  | empty
  /-- `assert(last_obs.complete <= start)`. -/
  | lastObs
  /-- The assertion that all write clusters really overlap the read. -/
  | overlap
  /-- `assert(last_obs.complete == TICK_INITIAL)`. -/
  | unobserved
  deriving DecidableEq

namespace WriteCluster

/-- A cluster as the constructor makes it. -/
def fresh : WriteCluster := ⟨TICK_FUTURE, TICK_FUTURE, [], TICK_INITIAL, 0⟩

def isComplete (c : WriteCluster) : Bool := c.complete ≠ TICK_FUTURE

/-- `startWrite`; the branch that reopens a cluster is behind the assertion that it is not complete. -/
def startWrite (c : WriteCluster) (serial : Serial) (start : Nat) (data : UInt8) : Except CheckErr WriteCluster :=
  if c.isComplete then .error .closed
  else
    let c := if c.start = TICK_FUTURE then { c with start := start } else c
    if start < c.start then .error .order
    else
      .ok { c with
        numIncomplete := c.numIncomplete + 1
        writes :=
          if c.writes.any fun w => w.serial = serial then c.writes
          else c.writes ++ [⟨serial, start, TICK_FUTURE, data⟩] }

/-- The write with its completion tick. -/
def completed (serial : Serial) (complete : Nat) (w : Transaction) : Transaction :=
  if w.serial = serial then { w with complete := complete } else w

def completeWrite (c : WriteCluster) (serial : Serial) (complete : Nat) : Except CheckErr WriteCluster :=
  match c.writes.find? fun w => w.serial = serial with
  | none => .ok c
  | some w =>
    if w.complete ≠ TICK_FUTURE then .error .completed
    else
      let c := { c with
        writes := c.writes.map (completed serial complete)
        completeMax := if c.completeMax < complete then complete else c.completeMax
        numIncomplete := c.numIncomplete - 1 }
      .ok (if c.numIncomplete = 0 then { c with complete := c.completeMax } else c)

def abortWrite (c : WriteCluster) (serial : Serial) : WriteCluster :=
  if c.writes.any fun w => w.serial = serial then
    let c := { c with
      writes := c.writes.filter fun w => w.serial ≠ serial
      numIncomplete := c.numIncomplete - 1 }
    if c.numIncomplete = 0 ∧ c.writes ≠ [] then { c with complete := c.completeMax } else c
  else c

end WriteCluster

/-- The tracker; the outstanding reads are in the order of their serials. -/
structure ByteTracker where
  outstandingReads : List Transaction
  readObservations : List Transaction
  writeClusters : List WriteCluster
  lastExpectedData : List UInt8
  deriving DecidableEq

/-- A list from the last element that completed before a tick on; all of it if there is none. -/
def lastCompletedTransaction {α : Type*} (complete : α → Nat) (before : Nat) : List α → List α
  | [] => []
  | t :: ts => if ts.any fun t => complete t < before then lastCompletedTransaction complete before ts else t :: ts

/-! ## The search for a value -/

/-- The state of the search of `inExpectedData`. -/
structure Scan where
  found : Bool
  expected : List UInt8
  wcOverlap : Bool
  lastObsValid : Bool
  deriving DecidableEq

/-- The loop over the writes of a cluster. -/
def scanWrites (last_obs : Transaction) (start : Nat) (data : UInt8) : List Transaction → Scan → Scan
  | [], sc => sc
  | write :: ws, sc =>
    if write.complete < last_obs.start then scanWrites last_obs start data ws sc
    else if write.data = data then { sc with found := true }
    else
      let sc := { sc with expected := sc.expected ++ [write.data] }
      if start < write.complete then scanWrites last_obs start data ws sc
      else
        scanWrites last_obs start data ws { sc with
          wcOverlap := false
          lastObsValid := sc.lastObsValid && !(last_obs.complete < write.start) }

/-- The loop over the clusters, from the last one. -/
def scanClusters (last_obs : Transaction) (start : Nat) (data : UInt8) : List WriteCluster → Scan → Scan
  | [], sc => sc
  | cluster :: cs, sc =>
    if sc.wcOverlap && !sc.found then scanClusters last_obs start data cs
      (scanWrites last_obs start data cluster.writes sc)
    else sc

namespace ByteTracker

/-- A tracker as the constructor makes it. -/
def init : ByteTracker where
  outstandingReads := []
  readObservations := [⟨SERIAL_INITIAL, TICK_INITIAL, TICK_INITIAL, DATA_INITIAL⟩]
  writeClusters := []
  lastExpectedData := []

def startRead (t : ByteTracker) (serial : Serial) (start : Nat) : ByteTracker :=
  { t with
    outstandingReads :=
      if t.outstandingReads.any fun r => r.serial = serial then t.outstandingReads
      else t.outstandingReads.orderedInsert (fun r r' => r.serial ≤ r'.serial)
        ⟨serial, start, TICK_FUTURE, DATA_INITIAL⟩ }

/-- What is left once no observation is valid: no write was compared, or all that were have another value. -/
def checkUnobserved (last_obs : Transaction) (sc : Scan) : Except CheckErr (Bool × List UInt8) :=
  if sc.expected ≠ [] then .ok (false, sc.expected)
  else if last_obs.complete = TICK_INITIAL then .ok (true, [])
  else .error .unobserved

/-- What `inExpectedData` does if no write has matched. Without a valid observation, anything goes as long as all the
writes overlap with the read. -/
def checkObservation (t : ByteTracker) (last_obs : Transaction) (start complete : Nat) (data : UInt8) (sc : Scan) :
    Except CheckErr (Bool × List UInt8) :=
  if sc.lastObsValid then
    if start < last_obs.complete then .error .lastObs
    else if last_obs.data = data then .ok (true, sc.expected)
    else .ok (false, sc.expected ++ [last_obs.data])
  else
    match t.writeClusters.head?, t.writeClusters.getLast? with
    | some first, some last =>
      if sc.wcOverlap then
        if first.start < complete ∧ start < last.complete then .ok (true, sc.expected) else .error .overlap
      else checkUnobserved last_obs sc
    | _, _ => checkUnobserved last_obs sc

/-- `inExpectedData`, with what it leaves as `lastExpectedData`. -/
def inExpectedData (t : ByteTracker) (start complete : Nat) (data : UInt8) : Except CheckErr (Bool × List UInt8) :=
  match (lastCompletedTransaction Transaction.complete start t.readObservations).head? with
  | none => .error .empty
  | some last_obs =>
    let sc := scanClusters last_obs start data t.writeClusters.reverse
      ⟨false, [], true, last_obs.complete ≠ TICK_INITIAL⟩
    if sc.found then .ok (true, sc.expected) else t.checkObservation last_obs start complete data sc

/-- `before` of `pruneTransactions`: the start of the first outstanding read. -/
def pruneBefore (t : ByteTracker) (curTick : Nat) : Nat :=
  match t.outstandingReads with
  | [] => curTick
  | r :: _ => r.start

def pruneTransactions (t : ByteTracker) (curTick : Nat) : ByteTracker :=
  { t with
    readObservations := lastCompletedTransaction Transaction.complete (t.pruneBefore curTick) t.readObservations
    writeClusters := lastCompletedTransaction WriteCluster.complete (t.pruneBefore curTick) t.writeClusters }

/-- `completeRead`; a read that is not outstanding is not checked. -/
def completeRead (t : ByteTracker) (curTick : Nat) (serial : Serial) (complete : Nat) (data : UInt8) :
    Except CheckErr (ByteTracker × Bool) :=
  match t.outstandingReads.find? fun r => r.serial = serial with
  | none => .ok (t, true)
  | some r =>
    let t := { t with outstandingReads := t.outstandingReads.filter fun r => r.serial ≠ serial }
    (t.inExpectedData r.start complete data).map fun out =>
      let t := { t with
        readObservations := t.readObservations ++ [Transaction.mk serial r.start complete data]
        lastExpectedData := out.2 }
      (t.pruneTransactions curTick, out.1)

/-- `getIncompleteWriteCluster`, with the clusters before it. -/
def getIncompleteWriteCluster (t : ByteTracker) : List WriteCluster × WriteCluster :=
  match t.writeClusters.getLast? with
  | none => ([], .fresh)
  | some c => if c.isComplete then (t.writeClusters, .fresh) else (t.writeClusters.dropLast, c)

/-- What happens to the incomplete cluster. -/
def setCluster (t : ByteTracker) (c : WriteCluster) : ByteTracker :=
  { t with writeClusters := t.getIncompleteWriteCluster.1 ++ [c] }

def startWrite (t : ByteTracker) (serial : Serial) (start : Nat) (data : UInt8) : Except CheckErr ByteTracker :=
  (t.getIncompleteWriteCluster.2.startWrite serial start data).map t.setCluster

def completeWrite (t : ByteTracker) (curTick : Nat) (serial : Serial) (complete : Nat) : Except CheckErr ByteTracker :=
  (t.getIncompleteWriteCluster.2.completeWrite serial complete).map fun c => (t.setCluster c).pruneTransactions curTick

def abortWrite (t : ByteTracker) (serial : Serial) : ByteTracker :=
  t.setCluster (t.getIncompleteWriteCluster.2.abortWrite serial)

end ByteTracker

/-! ## What the search and pruning find -/

section Search

variable {o : Transaction} {start : Nat} {data : UInt8} {ws : List Transaction} {cs : List WriteCluster} {sc : Scan}

/-- A write with the value, completed not before the last observation has started. -/
theorem scanWrites_found {w : Transaction} (ho : o.start ≤ w.complete) (hdata : w.data = data) (hw : w ∈ ws)
    (sc : Scan) :
    (scanWrites o start data ws sc).found = true := by
  induction ws generalizing sc with
  | nil => cases hw
  | cons v ws ih =>
    rw [scanWrites]
    rcases List.mem_cons.mp hw with rfl | hw
    · rw [if_neg (Nat.not_lt.mpr ho), if_pos hdata]
    · split
      · exact ih hw sc
      · split
        · rfl
        · dsimp only
          split
          · exact ih hw _
          · exact ih hw _

theorem scanWrites_overlap (h : ∀ w ∈ ws, o.start ≤ w.complete → start < w.complete) (sc : Scan) :
    (scanWrites o start data ws sc).wcOverlap = sc.wcOverlap := by
  induction ws generalizing sc with
  | nil => rfl
  | cons w ws ih =>
    obtain ⟨hw, hws⟩ := List.forall_mem_cons.mp h
    rw [scanWrites]
    split
    · exact ih hws sc
    · rename_i ho
      split
      · rfl
      · dsimp only
        rw [if_pos (hw (Nat.le_of_not_lt ho))]
        exact ih hws _

theorem scanWrites_valid (h : ∀ w ∈ ws, o.start ≤ w.complete → w.complete ≤ start → w.start ≤ o.complete) (sc : Scan) :
    (scanWrites o start data ws sc).lastObsValid = sc.lastObsValid := by
  induction ws generalizing sc with
  | nil => rfl
  | cons w ws ih =>
    obtain ⟨hw, hws⟩ := List.forall_mem_cons.mp h
    rw [scanWrites]
    split
    · exact ih hws sc
    · rename_i ho
      split
      · rfl
      · dsimp only
        split
        · exact ih hws _
        · rename_i hstart
          rw [ih hws]
          have hbefore := hw (Nat.le_of_not_lt ho) (Nat.le_of_not_lt hstart)
          simp [Nat.not_lt.mpr hbefore]

theorem scanClusters_of_found (h : sc.found = true) : scanClusters o start data cs sc = sc := by
  cases cs with
  | nil => rfl
  | cons c cs =>
    rw [scanClusters, h]
    simp

/-- The cluster does not stop the search: the writes that are compared complete after the read has started. -/
def Overlapping (o : Transaction) (start : Nat) (c : WriteCluster) : Prop :=
  ∀ w ∈ c.writes, o.start ≤ w.complete → start < w.complete

/-- A write with the value is found, if no cluster after its own stops the search. -/
theorem scanClusters_found {w : Transaction} {c : WriteCluster} {later older : List WriteCluster}
    (ho : o.start ≤ w.complete)
    (hdata : w.data = data) (hw : w ∈ c.writes) (hlater : ∀ c' ∈ later, Overlapping o start c')
      (hsc : sc.wcOverlap = true) :
    (scanClusters o start data (later ++ c :: older) sc).found = true := by
  induction later generalizing sc with
  | nil =>
    rw [List.nil_append, scanClusters]
    split
    · have hfound : (scanWrites o start data c.writes sc).found = true := scanWrites_found ho hdata hw sc
      rw [scanClusters_of_found hfound]
      exact hfound
    · rename_i hstop
      simpa [hsc] using hstop
  | cons c' later ih =>
    obtain ⟨hc', hrest⟩ := List.forall_mem_cons.mp hlater
    rw [List.cons_append, scanClusters]
    split
    · apply ih hrest
      rw [scanWrites_overlap hc', hsc]
    · rename_i hstop
      simpa [hsc] using hstop

theorem scanClusters_overlap (h : ∀ c ∈ cs, Overlapping o start c) (hsc : sc.wcOverlap = true) :
    (scanClusters o start data cs sc).wcOverlap = true := by
  induction cs generalizing sc with
  | nil => exact hsc
  | cons c cs ih =>
    obtain ⟨hc, hcs⟩ := List.forall_mem_cons.mp h
    rw [scanClusters]
    split
    · apply ih hcs
      rw [scanWrites_overlap hc, hsc]
    · exact hsc

/-- The last observation stays valid, if no write that completed before the read started after it. -/
theorem scanClusters_valid (h : ∀ c ∈ cs, ∀ w ∈ c.writes, o.start ≤ w.complete → w.complete ≤ start →
    w.start ≤ o.complete) :
    (scanClusters o start data cs sc).lastObsValid = sc.lastObsValid := by
  induction cs generalizing sc with
  | nil => rfl
  | cons c cs ih =>
    obtain ⟨hc, hcs⟩ := List.forall_mem_cons.mp h
    rw [scanClusters]
    split
    · rw [ih hcs]
      exact scanWrites_valid hc sc
    · rfl

end Search

section Prune

variable {α : Type*} (complete : α → Nat) (before : Nat)

/-- If an element completed before the tick, the list now starts with such an element. -/
theorem head_lastCompletedTransaction {l : List α} (h : (l.any fun t => complete t < before) = true) :
    ∃ t, (lastCompletedTransaction complete before l).head? = some t ∧ complete t < before := by
  induction l with
  | nil => cases h
  | cons t ts ih =>
    rw [lastCompletedTransaction]
    split
    · rename_i hany
      exact ih hany
    · rename_i hnone
      rw [List.any_cons, Bool.or_eq_true, decide_eq_true_iff] at h
      exact ⟨t, rfl, h.resolve_right hnone⟩

/-- What is erased, if anything, is followed by an element that completed before the tick. -/
theorem lastCompletedTransaction_split (l : List α) : ∃ erased,
    l = erased ++ lastCompletedTransaction complete before l ∧
      (erased ≠ [] → ∃ t, (lastCompletedTransaction complete before l).head? = some t ∧ complete t < before) := by
  induction l with
  | nil => exact ⟨[], rfl, fun h => absurd rfl h⟩
  | cons t ts ih =>
    rw [lastCompletedTransaction]
    split
    · rename_i hany
      obtain ⟨erased, hsplit, -⟩ := ih
      refine ⟨t :: erased, ?_, fun _ => head_lastCompletedTransaction complete before hany⟩
      rw [List.cons_append, ← hsplit]
    · exact ⟨[], rfl, fun h => absurd rfl h⟩

/-- Erased elements do not matter, once an element after them completed before the tick. -/
theorem lastCompletedTransaction_append {t : α} {ts : List α} (h : complete t < before) (erased : List α) :
    lastCompletedTransaction complete before (erased ++ t :: ts) =
    lastCompletedTransaction complete before (t :: ts) := by
  induction erased with
  | nil => rfl
  | cons x xs ih =>
    rw [List.cons_append, lastCompletedTransaction, if_pos, ih]
    simp [h]

end Prune

end Salam.Mem
