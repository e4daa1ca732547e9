import Salam.Engine.Refine

/-!
# The pass over the compute queue

The pass looks the functional unit of `computeQueue.at(i)` up in `reservation.at(i)`. The index `i` counts the nodes
that the pass has left in the compute queue so far (`passIndex`), and the reservation table does not change meanwhile,
so the access is in range exactly when fewer nodes than the table has entries stay before the last node is looked at.

* `pass_of_computePass`: one iteration of the pass.
* `throws_of_not_fits`: a pass that does not fit ends in the exception.
-/

namespace Salam.Engine

/-- The index of the pass after nodes of the compute queue that are done (`true`) or not, from the index `i` with the
counters `k`: a node leaves the queue if it is done and gets a unit of the class `charged` at its index. -/
def passIndex (cfg : Config) (charged : Nat → FunctionalUnit) : Units → Nat → List Bool → Nat
  | _, i, [] => i
  | k, i, done :: rest =>
    let t := takeUnit cfg k (charged i)
    passIndex cfg charged t.1 (if t.2 && done then i else i + 1) rest

namespace Core

/-- `reservation.at(i)->_FunctionalUnit`. -/
def charged (c : Core) (i : Nat) : FunctionalUnit :=
  match c.reservation[i]? with
  | some r => (c.node r).functionalUnit
  | none => .other

/-- Whether an instance has been on its unit for `_MaxCycle` cycles. -/
def done (c : Core) (id : Nat) : Bool := (c.node id).maxCycle ≤ (c.heap id).currCycle

end Core

/-- The next pass over the compute queue leaves fewer nodes before the last one than the reservation table has
entries. -/
def St.passFits (s : St) (cfg : Config) : Bool :=
  s.core.computeQueue.isEmpty ||
    decide (passIndex cfg s.core.charged (fun _ => 0) 0 (s.core.computeQueue.map s.core.done).dropLast <
      s.core.reservation.length)

section Index

variable {cfg : Config} {charged : Nat → FunctionalUnit}

theorem le_passIndex (k : Units) (i : Nat) (flags : List Bool) : i ≤ passIndex cfg charged k i flags := by
  induction flags generalizing k i with
  | nil => exact Nat.le_refl i
  | cons d flags ih =>
    refine Nat.le_trans ?_ (ih _ _)
    split <;> omega

/-- Without limits the nodes that stay are those that are not done. -/
theorem passIndex_unlimited (h : cfg.unlimitedMode = true) (k : Units) (i : Nat) (flags : List Bool) :
    passIndex cfg charged k i flags = i + flags.countP (! ·) := by
  induction flags generalizing k i with
  | nil => rfl
  | cons d flags ih =>
    have ht : (takeUnit cfg k (charged i)).2 = true := by simp [takeUnit, h]
    rw [passIndex, ih, ht]
    cases d <;> simp [Nat.add_comm, Nat.add_left_comm]

end Index

/-! ## One iteration -/

namespace St

variable {P : Program} {cfg : Config} {s s' : St} {i id r : Nat}

/-- The flags of the nodes that the pass still has to look at. -/
def flagsFrom (s : St) (i : Nat) : List Bool := (s.core.computeQueue.drop i).map s.core.done

theorem charged_eq (hr : s.core.reservation[i]? = some r) : s.core.charged i = (s.core.node r).functionalUnit := by
  simp [Core.charged, hr]

theorem flagsFrom_cons (hid : s.core.computeQueue[i]? = some id) :
    s.flagsFrom i = s.core.done id :: s.flagsFrom (i + 1) := by
  obtain ⟨hi, rfl⟩ := List.getElem?_eq_some_iff.mp hid
  rw [flagsFrom, List.drop_eq_getElem_cons hi, List.map_cons]
  rfl

/-- The state after an iteration that looks at a node which is `done` or not. -/
structure Pass (cfg : Config) (s : St) (i : Nat) (done : Bool) (s' : St) : Prop where
  pc : s'.pc = .compute (if (takeUnit cfg s.units (s.core.charged i)).2 && done then i else i + 1)
  units : s'.units = (takeUnit cfg s.units (s.core.charged i)).1
  reservation : s'.core.reservation = s.core.reservation
  node : ∀ k, s'.core.node k = s.core.node k
  queue : s'.core.computeQueue.drop (if (takeUnit cfg s.units (s.core.charged i)).2 && done then i else i + 1) =
    s.core.computeQueue.drop (i + 1)
  done : ∀ k ∈ s.core.computeQueue.drop (i + 1), s'.core.done k = s.core.done k

theorem Pass.charged {d : Bool} (h : s.Pass cfg i d s') : s'.core.charged = s.core.charged := by
  funext j
  simp only [Core.charged, h.reservation, h.node]

theorem Pass.flags {d : Bool} (h : s.Pass cfg i d s') :
    s'.flagsFrom (if (takeUnit cfg s.units (s.core.charged i)).2 && d then i else i + 1) = s.flagsFrom (i + 1) := by
  rw [flagsFrom, h.queue]
  exact List.map_congr_left h.done

/-- **One iteration of the pass**, when the access to the reservation table is in range. -/
theorem pass_of_computePass (cfg : Config) (hL : s.core.Lists) (hid : s.core.computeQueue[i]? = some id)
    (hr : s.core.reservation[i]? = some r) : ∃ s', s.computePass cfg i = .ok s' ∧ s.Pass cfg i (s.core.done id) s' := by
  unfold computePass
  simp only [hid, hr, ← charged_eq hr]
  cases hk : (takeUnit cfg s.units (s.core.charged i)).2 with
  | false =>
    refine ⟨_, rfl, ?_⟩
    constructor <;> simp [hk]
  | true =>
    by_cases hd : (s.core.node id).maxCycle ≤ (s.core.heap id).currCycle
    · have hdone : s.core.done id = true := by simpa [Core.done] using hd
      have hq : (s.core.commit id).1.removeParents id = s.core.retire id := Core.commit_retire fun _ => hd
      simp only [if_true, (Core.step_commit hL hid hd).1, hq]
      refine ⟨_, rfl, by simp [hk, hdone], rfl, by simp, fun k => Core.retire_node k, ?_, ?_⟩
      · simp only [hk, hdone, Bool.and_self, if_true, Core.retire_computeQueue]
        refine List.ext_getElem? fun j => ?_
        rw [List.getElem?_drop, List.getElem?_drop, List.getElem?_eraseIdx_of_ge (by omega)]
        congr 1
        omega
      · intro k _
        simp only [Core.done, decide_eq_decide]
        simp [Core.node, Core.retire_heap]
    · have hdone : s.core.done id = false := by simpa [Core.done] using hd
      have hs := Node.returnRegister_of_onUnit (hL.onUnit id (List.mem_of_getElem? hid))
      have hnode : ∀ k, (s.core.modify id fun x => { x with currCycle := x.currCycle + 1 }).node k = s.core.node k :=
        fun k => Core.node_modify rfl k
      simp only [if_true, (Core.step_bump hL hid hd).1, Bool.false_eq_true, if_false]
      rw [Core.commit_bump hs (by omega)]
      refine ⟨_, rfl, by simp [hk, hdone], rfl, rfl, hnode, by simp [hk, hdone], fun k hk => ?_⟩
      -- the node whose cycle was counted is behind
      have hne : k ≠ id := by
        rintro rfl
        have hnodup := hL.computeQueue_nodup
        rw [← List.take_append_drop (i + 1) s.core.computeQueue] at hnodup
        refine (List.nodup_append.mp hnodup).2.2 k ?_ k hk rfl
        rw [List.take_add_one, hid]
        simp
      simp only [Core.done, decide_eq_decide]
      rw [hnode k, Core.modify_heap, if_neg hne]

theorem pass_of_step (hr : (engine P cfg).Reachable s) (hs : (engine P cfg).step s .iter = some s')
    (hpc : s.pc = .compute i) (hid : s.core.computeQueue[i]? = some id) :
    i < s.core.reservation.length ∧ s.Pass cfg i (s.core.done id) s' := by
  simp only [engine, step, hpc, tickStep] at hs
  by_cases hlt : i < s.core.reservation.length
  · obtain ⟨t, ht, hp⟩ := pass_of_computePass cfg (lists_of_reachable (core_of_reachable hr)) hid
      (List.getElem?_eq_getElem hlt)
    simp only [ht, Except.toOption, Option.some.injEq] at hs
    exact ⟨hlt, hs ▸ hp⟩
  · simp [computePass, hid, List.getElem?_eq_none (Nat.le_of_not_lt hlt), Except.toOption] at hs

/-- The rest of the pass fits. -/
def FitsFrom (s : St) (cfg : Config) (i : Nat) : Prop :=
  s.flagsFrom i = [] ∨ passIndex cfg s.core.charged s.units i (s.flagsFrom i).dropLast < s.core.reservation.length

/-- The access of a pass that fits is in range. -/
theorem FitsFrom.lt (h : s.FitsFrom cfg i) (hi : i < s.core.computeQueue.length) : i < s.core.reservation.length := by
  rcases h with h | h
  · rw [flagsFrom, List.map_eq_nil_iff, List.drop_eq_nil_iff] at h
    omega
  · exact Nat.lt_of_le_of_lt (le_passIndex _ _ _) h

/-- An iteration does not change whether the pass fits. -/
theorem fitsFrom_iff (hid : s.core.computeQueue[i]? = some id) (hr : i < s.core.reservation.length)
    (h : s.Pass cfg i (s.core.done id) s') : ∃ j, s'.pc = .compute j ∧ s'.flagsFrom j = s.flagsFrom (i + 1) ∧
      (s'.FitsFrom cfg j ↔ s.FitsFrom cfg i) := by
  refine ⟨_, h.pc, h.flags, ?_⟩
  simp only [FitsFrom, h.flags, h.units, h.reservation, h.charged, flagsFrom_cons hid]
  rcases hf : s.flagsFrom (i + 1) with _ | ⟨d, rest⟩
  · simp [passIndex, hr]
  · simp [List.dropLast, passIndex]

/-- Only the pass over the compute queue goes on with it. -/
theorem Iter.pc_compute {j : Nat} (h : Iter P cfg s s') (hpc : s'.pc = .compute j) : ∃ i, s.pc = .compute i := by
  cases h with
  | commit h₀ | bump h₀ | noUnit h₀ | computeEnd h₀ | nextBB h₀ => exact ⟨_, h₀⟩
  | @schedEnd k hpc' => cases k <;> simp at hpc
  | spin hpc' => rw [hpc'] at hpc; cases hpc
  | _ => simp [tickEnd, scheduleBB] at hpc

/-! ## The exception -/

theorem phiCompute_error {regs : Reg → Word} {type : String} {prev : Label} {junk : Word} {e : Err} :
    ∀ {incoming : List (Label × PhiVal)}, phiCompute regs type prev junk incoming = .error e → e = .stoi
  | [], h => by cases h
  | (l, v) :: rest, h => by
    simp only [phiCompute] at h
    split at h
    · split at h
      · cases h
      · split at h
        · split at h
          · cases h
          · cases h; rfl
        · exact phiCompute_error h
    · exact phiCompute_error h

theorem compute_error {c : Core} {e : Err} (h : c.compute id = .error e) : e = .stoi := by
  unfold Core.compute at h
  split at h
  · cases h
  · rename_i hv
    cases h
    unfold Inst.result at hv
    split at hv
    · cases hv
    · cases hv
    · exact phiCompute_error hv
    · cases hv

/-- The scan of the reservation table does not raise `std::out_of_range`. -/
theorem scanPass_ne_outOfRange : s.scanPass P cfg i ≠ .error .outOfRange := by
  have hzero : ∀ id, s.launchZero cfg id i ≠ .error .outOfRange := by
    intro id h
    unfold launchZero at h
    split at h
    · rename_i hc
      cases h
      cases compute_error hc
    · cases h
  have hunit : ∀ id, s.launchUnit cfg id i ≠ .error .outOfRange := by
    intro id h
    unfold launchUnit at h
    dsimp only at h
    split at h
    · split at h
      · rename_i hc
        cases h
        cases compute_error hc
      · cases h
    · cases h
  have hbranch : ∀ id, s.takeBranch P cfg id i ≠ .error .outOfRange := by
    intro id h
    unfold takeBranch at h
    split at h <;> cases h
  unfold scanPass
  grind

theorem tickStep_outOfRange (h : s.tickStep P cfg = .error .outOfRange) :
    ∃ i, s.pc = .compute i ∧ i < s.core.computeQueue.length ∧ s.core.reservation.length ≤ i := by
  unfold tickStep at h
  split at h
  · cases h
  · rename_i i hpc
    refine ⟨i, hpc, ?_⟩
    unfold computePass at h
    split at h
    · cases h
    · rename_i id hid
      split at h
      · rename_i hr
        exact ⟨(List.getElem?_eq_some_iff.mp hid).1, List.getElem?_eq_none_iff.mp hr⟩
      · dsimp only at h
        split at h
        · split at h <;> cases h
        · cases h
  · cases h
  · cases h
  · cases h
  · split at h <;> cases h
  · exact absurd h scanPass_ne_outOfRange

theorem outOfRange_of_le (hpc : s.pc = .compute i) (hi : i < s.core.computeQueue.length)
    (hr : s.core.reservation.length ≤ i) : s.tickStep P cfg = .error .outOfRange := by
  simp [tickStep, hpc, computePass, List.getElem?_eq_getElem hi, List.getElem?_eq_none hr]

/-- **A pass that does not fit ends in the exception.** -/
theorem throws_of_not_fits (hr : (engine P cfg).Reachable s) (hpc : s.pc = .compute i) (h : ¬ s.FitsFrom cfg i) :
    ∃ s', (engine P cfg).Run (fun _ _ => True) s s' ∧ s'.tickStep P cfg = .error .outOfRange := by
  generalize hf : s.flagsFrom i = flags
  induction flags generalizing s i with
  | nil => exact absurd (.inl hf) h
  | cons d rest ih =>
    have hi : i < s.core.computeQueue.length := by
      by_contra hi
      simp [flagsFrom, List.drop_eq_nil_iff.mpr (Nat.le_of_not_lt hi)] at hf
    have hid := List.getElem?_eq_getElem hi
    by_cases hlt : i < s.core.reservation.length
    · obtain ⟨s', hs', hp⟩ := pass_of_computePass cfg (lists_of_reachable (core_of_reachable hr)) hid
        (List.getElem?_eq_getElem hlt)
      obtain ⟨j, hj, hfj, hiff⟩ := fitsFrom_iff hid hlt hp
      have hstep : (engine P cfg).step s .iter = some s' := by
        simp [engine, step, hpc, tickStep, hs', Except.toOption]
      rw [flagsFrom_cons hid, List.cons.injEq] at hf
      obtain ⟨s'', hrun, he⟩ := ih (hr.step trivial hstep) hj (fun hn => h (hiff.mp hn)) (hfj.trans hf.2)
      exact ⟨s'', (System.Run.single trivial hstep).trans hrun, he⟩
    · exact ⟨s, .refl s, outOfRange_of_le hpc hi (Nat.le_of_not_lt hlt)⟩

end St

theorem fitsFrom_tickBegin {s : St} {cfg : Config} : s.tickBegin.FitsFrom cfg 0 ↔ s.passFits cfg = true := by
  simp [St.FitsFrom, St.passFits, St.flagsFrom, St.tickBegin]

/-- In a run whose ticks begin with a pass that fits, the pass fits at every iteration. -/
theorem fitsFrom_of_reachable {P : Program} {cfg : Config} {s : St}
    (h : (engine P cfg).ReachableWhen (fun s e => e = .tick → s.passFits cfg = true) s) :
    ∀ i, s.pc = .compute i → s.FitsFrom cfg i := by
  refine System.invariantWhen (I := fun s => ∀ i, s.pc = .compute i → St.FitsFrom s cfg i) ?_ ?_ h
  · rintro s ⟨s₀, entry, init, ⟨-, hq, -, -⟩, -, rfl⟩ i -
    exact .inl (by simp [St.flagsFrom, St.initializeRun, St.tickBegin, hq])
  · intro s e s' hr hI hC hs i hpc'
    cases move_of_reachable hr hs with
    | tick hpc hrun =>
      obtain rfl : 0 = i := by simpa [St.tickBegin] using hpc'
      exact fitsFrom_tickBegin.mpr (hC rfl)
    | @iter s' hne hi =>
      obtain ⟨j, hpc⟩ := hi.pc_compute hpc'
      by_cases hj : j < s.core.computeQueue.length
      · obtain ⟨hlt, hp⟩ := St.pass_of_step hr.reachable hs hpc (List.getElem?_eq_getElem hj)
        obtain ⟨i', hi', -, hiff⟩ := St.fitsFrom_iff (List.getElem?_eq_getElem hj) hlt hp
        obtain rfl : i' = i := Pc.compute.inj (hi'.symm.trans hpc')
        exact hiff.mpr (hI j hpc)
      · -- the pass is over
        simp only [engine, St.step, hpc, St.tickStep, St.computePass, List.getElem?_eq_none (Nat.le_of_not_lt hj),
          Except.toOption, Option.some.injEq] at hs
        subst hs
        split at hpc' <;> cases hpc'
    | readCommit hpc hid => rw [show _ = s.pc from rfl, hpc] at hpc'; cases hpc'
    | writeCommit hpc hid => rw [show _ = s.pc from rfl, hpc] at hpc'; cases hpc'

/-- **The accesses of `tick()` are in range** in every state of every run whose ticks begin with a pass over the compute
queue that fits; from the head of a tick with a pass that does not fit, the run goes into the exception. Without unit
limits a pass fits if fewer nodes than the reservation table has entries are unfinished, the last one aside. -/
theorem accesses_in_range (P : Program) (cfg : Config) :
    (∀ s, (engine P cfg).ReachableWhen (fun s e => e = .tick → s.passFits cfg = true) s →
      s.tickStep P cfg ≠ .error .outOfRange ∧
      ∀ i, s.pc = .compute i → i < s.core.computeQueue.length → i < s.core.reservation.length) ∧
    (∀ s, (engine P cfg).Reachable s → s.pc = .idle → s.running = true → s.passFits cfg = false →
      ∃ s', (engine P cfg).Run (fun _ _ => True) s s' ∧ s'.tickStep P cfg = .error .outOfRange) ∧
    (cfg.unlimitedMode = true → ∀ s : St, s.passFits cfg = (s.core.computeQueue.isEmpty ||
      decide ((s.core.computeQueue.map s.core.done).dropLast.countP (! ·) < s.core.reservation.length))) := by
  refine ⟨fun s h => ⟨fun he => ?_, fun i hpc hi => (fitsFrom_of_reachable h i hpc).lt hi⟩, ?_, ?_⟩
  · obtain ⟨i, hpc, hi, hle⟩ := St.tickStep_outOfRange he
    have := (fitsFrom_of_reachable h i hpc).lt hi
    omega
  · intro s h hpc hrun hfits
    have hstep : (engine P cfg).step s .tick = some s.tickBegin := by simp [engine, St.step, hpc, hrun]
    have hnot : ¬ s.tickBegin.FitsFrom cfg 0 := by rw [fitsFrom_tickBegin, hfits]; simp
    obtain ⟨s', hr, he⟩ := St.throws_of_not_fits (h.step trivial hstep) rfl hnot
    exact ⟨s', (System.Run.single trivial hstep).trans hr, he⟩
  · intro hu s
    simp only [St.passFits, passIndex_unlimited hu, Nat.zero_add]

/-- Two independent operations on a unit of class `u`, and a ret. -/
def twoOps (u : FunctionalUnit) (latency : Nat) : Program where
  bbList := [⟨"entry", [⟨"%1 = op i64 %0, 1", latency, .compute 1 8 [0] u fun ops => ops.headD 0 + 1⟩,
    ⟨"%2 = op i64 %0, 2", latency, .compute 2 8 [0] u fun ops => ops.headD 0 + 2⟩, ⟨"ret void", 0, .ret⟩]⟩]
  line_ret := by simp [Node.returnRegister]

theorem accesses_in_range_twoOps : ∃ s,
    (engine (twoOps .intAdder 1) .unlimited).ReachableWhen (fun s e => e = .tick → s.passFits .unlimited = true) s ∧
    s.pc = .compute 0 ∧ 0 < s.core.computeQueue.length ∧ 0 < s.core.reservation.length := by
  obtain ⟨s, hs, hpc, hlt⟩ := System.reachableWhen_of_replay
    (C := fun s e => decide (e ≠ .tick) || s.passFits .unlimited)
    (engine_boot (twoOps .intAdder 1) .unlimited rfl fun _ => 0) (List.replicate 10 .iter ++ [.tick])
    (fun s => (match s.pc with | .compute 0 => true | _ => false) = true ∧ 0 < s.core.computeQueue.length) (by decide)
  have hs' := hs.mono (D := fun s e => e = .tick → s.passFits .unlimited = true) fun s e h he => by simpa [he] using h
  have hpc' : s.pc = .compute 0 := by
    split at hpc
    · assumption
    · cases hpc
  exact ⟨s, hs', hpc', hlt, ((accesses_in_range (twoOps .intAdder 1) .unlimited).1 s hs').2 0 hpc' hlt⟩

/-- With a latency of 2 both operations stay in the compute queue, and the reservation table holds the ret only. -/
theorem access_out_of_range : ¬ ∀ (P : Program) (cfg : Config) (s : St), (engine P cfg).Reachable s →
    s.tickStep P cfg ≠ .error .outOfRange := by
  intro h
  obtain ⟨s, hs, hthrow⟩ := System.reachable_of_replay (engine_boot (twoOps .intAdder 2) .unlimited rfl fun _ => 0)
    (List.replicate 10 .iter ++ [.tick, .iter])
    (fun s => (match s.tickStep (twoOps .intAdder 2) .unlimited with | .error .outOfRange => true | _ => false) =
      true) (by decide)
  refine h (twoOps .intAdder 2) .unlimited s hs ?_
  split at hthrow
  · assumption
  · cases hthrow

end Salam.Engine
