import Mathlib.Algebra.Order.Group.Nat
import Salam.O3.RenameInv

/-!
# Physical registers are conserved

A run remembers the instructions that are renamed and not squashed (`Run.insts`), each with its entries of the history
buffer and the map right after it. The history buffer has the entries of those that are not committed, so that a squash
undoes exactly the squashed ones and a commit frees exactly what the committed ones replaced.

* `Run.inv_of_reachable`: the invariant of the runs.
* `Run.registers_conserved`: the result.
-/

namespace Salam.O3

variable {p : Params}

/-! ## Lists that are sorted by a condition -/

section Sorted

variable {α : Type*} {q : α → Bool} {l : List α}

/-- Where the elements with a property come first, they are the ones taken. -/
theorem takeWhile_eq_filter (h : l.Pairwise fun a b => q b = true → q a = true) :
    l.takeWhile q = l.filter q ∧ l.dropWhile q = l.filter fun a => !q a := by
  induction l with
  | nil => exact ⟨rfl, rfl⟩
  | cons a l ih =>
    obtain ⟨ha, hl⟩ := List.pairwise_cons.mp h
    obtain ⟨ih₁, ih₂⟩ := ih hl
    by_cases hq : q a = true
    · rw [List.takeWhile_cons, if_pos hq, List.dropWhile_cons, if_pos hq, List.filter_cons_of_pos hq,
        List.filter_cons_of_neg (by simpa using hq), ih₁, ih₂]
      exact ⟨rfl, rfl⟩
    · have hnone : ∀ b ∈ l, ¬ q b = true := fun b hb hqb => hq (ha b hb hqb)
      rw [List.takeWhile_cons, if_neg hq, List.dropWhile_cons, if_neg hq, List.filter_cons_of_neg hq,
        List.filter_eq_nil_iff.mpr hnone, List.filter_cons_of_pos (by simpa using hq)]
      refine ⟨rfl, congrArg _ (List.filter_eq_self.mpr fun b hb => ?_).symm⟩
      simpa using hnone b hb

end Sorted

theorem not_decide_lt (a b : Nat) : (!decide (a < b)) = decide (b ≤ a) := by
  rw [← decide_not, decide_eq_decide]
  exact not_lt

theorem not_decide_le (a b : Nat) : (!decide (a ≤ b)) = decide (b < a) := by
  rw [← decide_not, decide_eq_decide]
  exact not_le

namespace Run

variable {s s' : Run p} {n : Nat} {insts older : List Renamed} {first : Maps}

/-! ## The instructions -/

/-- The map right after the youngest of some instructions. -/
def lastMap (first : Maps) (insts : List Renamed) : Maps := (insts.head?.map Renamed.after).getD first

/-- Undoing an instruction gives the map right after the one before it. -/
def Linked (p : Params) (first : Maps) : List Renamed → Prop
  | [] => True
  | i :: insts => undoAll p i.entries i.after = lastMap first insts ∧ Linked p first insts

/-- Undoing the youngest instructions gives the map right after the one before them. -/
theorem Linked.undoAll : ∀ {younger : List Renamed}, Linked p first (younger ++ older) →
    undoAll p (younger.flatMap Renamed.entries) (lastMap first (younger ++ older)) = lastMap first older ∧
    Linked p first older := by
  intro younger
  induction younger with
  | nil => exact fun h => ⟨rfl, h⟩
  | cons i younger ih =>
    intro h
    obtain ⟨hundo, hlinked⟩ := ih h.2
    refine ⟨?_, hlinked⟩
    rw [List.flatMap_cons, undoAll_append]
    exact (congrArg _ h.1).trans hundo

/-- The entries of the instructions are those of an instruction with their sequence number. -/
def Numbered (insts : List Renamed) : Prop := ∀ i ∈ insts, ∀ e ∈ i.entries, e.instSeqNum = i.seqNum

/-- The entries by sequence number are those of the instructions. -/
theorem Numbered.filter (h : Numbered insts) (q : Nat → Bool) :
    (insts.flatMap Renamed.entries).filter (fun e => q e.instSeqNum) =
      (insts.filter fun i => q i.seqNum).flatMap Renamed.entries := by
  induction insts with
  | nil => rfl
  | cons i insts ih =>
    have hi := h i List.mem_cons_self
    rw [List.flatMap_cons, List.filter_append, ih fun j hj => h j (List.mem_cons_of_mem _ hj)]
    by_cases hq : q i.seqNum = true
    · rw [List.filter_cons, if_pos hq, List.flatMap_cons, List.filter_eq_self.mpr fun e he => (hi e he).symm ▸ hq]
    · rw [List.filter_cons, if_neg hq, List.filter_eq_nil_iff.mpr fun e he => (hi e he).symm ▸ hq]
      rfl

/-- The entries are sorted as the instructions are. -/
theorem Numbered.sorted (h : Numbered insts) (horder : insts.Pairwise fun i j => j.seqNum < i.seqNum) :
    (insts.flatMap Renamed.entries).Pairwise fun e e' => e'.instSeqNum ≤ e.instSeqNum := by
  induction insts with
  | nil => exact List.Pairwise.nil
  | cons i insts ih =>
    obtain ⟨hi, hrest⟩ := List.pairwise_cons.mp horder
    have hseq := h i List.mem_cons_self
    rw [List.flatMap_cons, List.pairwise_append]
    refine ⟨List.pairwise_of_forall_mem_list fun e he e' he' => (hseq e' he').trans_le (hseq e he).ge,
      ih (fun j hj => h j (List.mem_cons_of_mem _ hj)) hrest, fun e he e' he' => ?_⟩
    obtain ⟨j, hj, he'⟩ := List.mem_flatMap.mp he'
    rw [hseq e he, h j (List.mem_cons_of_mem _ hj) e' he']
    exact (hi j hj).le

/-! ## The invariant -/

structure Inv (s : Run p) : Prop where
  rename : s.rename.Inv
  order : s.insts.Pairwise fun i j => j.seqNum < i.seqNum
  numbered : Numbered s.insts
  history : s.rename.historyBuffer = (s.insts.filter fun i => s.committed < i.seqNum).flatMap Renamed.entries
  linked : Linked p s.first s.insts
  map : s.rename.renameMap = lastMap s.first s.insts

theorem mapAfter_eq (s : Run p) (n : Nat) : s.mapAfter n = lastMap s.first (s.insts.filter fun i => i.seqNum ≤ n) := by
  rw [mapAfter, lastMap, List.head?_filter]

/-- The instructions are the squashed ones and the ones before them. -/
theorem Inv.split (h : s.Inv) (n : Nat) :
    s.insts = (s.insts.filter fun i => n < i.seqNum) ++ s.insts.filter fun i => i.seqNum ≤ n := by
  have hdown : s.insts.Pairwise fun i j => decide (n < j.seqNum) = true → decide (n < i.seqNum) = true :=
    h.order.imp fun hij hj => decide_eq_true ((of_decide_eq_true hj).trans hij)
  obtain ⟨htake, hdrop⟩ := takeWhile_eq_filter hdown
  have hle : (s.insts.filter fun i => !decide (n < i.seqNum)) = s.insts.filter fun i => i.seqNum ≤ n :=
    List.filter_congr fun i _ => not_decide_lt _ _
  rw [← htake, ← hle, ← hdrop, List.takeWhile_append_dropWhile]

/-- A squash of instructions that are not committed undoes exactly these, where the vector mode stays. -/
theorem Inv.doSquash (h : s.Inv) (hn : s.committed ≤ n) : ∃ r, s.rename.doSquash n s.rename.vecMode = .ok r ∧ r.Inv ∧
    r.renameMap = s.mapAfter n ∧
    r.historyBuffer =
      ((s.insts.filter fun i => i.seqNum ≤ n).filter fun i => s.committed < i.seqNum).flatMap Renamed.entries := by
  obtain ⟨r, hok, hmode, hinv, hhist, hmap⟩ := h.rename.squashLoop (n := n) rfl
  have hkept : s.rename.doSquash n s.rename.vecMode = .ok r := by
    rw [DefaultRename.doSquash, hok]
    exact if_neg (not_not.mpr hmode.symm)
  have hnum : Numbered (s.insts.filter fun i => s.committed < i.seqNum) :=
    fun i hi => h.numbered i (List.mem_filter.mp hi).1
  have hsorted := hnum.sorted (h.order.sublist List.filter_sublist)
  have hdown : s.rename.historyBuffer.Pairwise fun e e' =>
      decide (n < e'.instSeqNum) = true → decide (n < e.instSeqNum) = true := by
    rw [h.history]
    exact hsorted.imp fun hle he => decide_eq_true ((of_decide_eq_true he).trans_le hle)
  obtain ⟨htake, hdrop⟩ := takeWhile_eq_filter hdown
  refine ⟨r, hkept, hinv, ?_, ?_⟩
  · have hundone : (s.rename.historyBuffer.filter fun e => n < e.instSeqNum) =
        (s.insts.filter fun i => n < i.seqNum).flatMap Renamed.entries := by
      rw [h.history, hnum.filter (fun k => decide (n < k)), List.filter_filter]
      congr 1
      refine List.filter_congr fun i _ => ?_
      have : n < i.seqNum → s.committed < i.seqNum := fun hi => hn.trans_lt hi
      by_cases hi : n < i.seqNum
      · simp [hi, this hi]
      · simp [hi]
    have hlinked := h.linked
    rw [h.split n] at hlinked
    rw [hmap, htake, hundone, mapAfter_eq, ← hlinked.undoAll.1, ← h.split n, h.map]
  · rw [hhist, hdrop, h.history, hnum.filter (fun k => !decide (n < k)), List.filter_filter, List.filter_filter]
    congr 1
    refine List.filter_congr fun i _ => ?_
    rw [not_decide_lt, Bool.and_comm]

/-- The registers that the instructions up to `n` replaced and that are not free yet, the oldest first. -/
def freed (s : Run p) (n : Nat) : List PhysRegId :=
  superseded ((s.insts.filter fun i => s.committed < i.seqNum ∧ i.seqNum ≤ n).flatMap Renamed.entries).reverse

/-- A commit frees exactly what the instructions up to it replaced. -/
theorem Inv.removeFromHistory (h : s.Inv) (n : Nat) : ∃ r, s.rename.removeFromHistory n = .ok r ∧ r.Inv ∧
    r.renameMap = s.rename.renameMap ∧
    r.historyBuffer = (s.insts.filter fun i => max s.committed n < i.seqNum).flatMap Renamed.entries ∧
    ∀ cls, r.freeList cls = s.rename.freeList cls ++ (s.freed n).filter fun r => r.classValue = cls := by
  obtain ⟨r, hok, hinv, hmap, hhist, hfree⟩ := h.rename.commitLoop (n := n) (List.reverse_reverse _).symm
  have hnum : Numbered (s.insts.filter fun i => s.committed < i.seqNum) :=
    fun i hi => h.numbered i (List.mem_filter.mp hi).1
  have hsorted := hnum.sorted (h.order.sublist List.filter_sublist)
  have hdown : s.rename.historyBuffer.reverse.Pairwise fun e e' =>
      decide (e'.instSeqNum ≤ n) = true → decide (e.instSeqNum ≤ n) = true := by
    rw [List.pairwise_reverse, h.history]
    exact hsorted.imp fun hle he => decide_eq_true (hle.trans (of_decide_eq_true he))
  obtain ⟨htake, hdrop⟩ := takeWhile_eq_filter hdown
  refine ⟨r, hok, hinv, hmap, ?_, fun cls => ?_⟩
  · rw [hhist, hdrop, List.filter_reverse, List.reverse_reverse, h.history, hnum.filter (fun k => !decide (k ≤ n)),
      List.filter_filter]
    congr 1
    refine List.filter_congr fun i _ => ?_
    rw [not_decide_le, ← Bool.decide_and, decide_eq_decide, and_comm]
    exact max_lt_iff.symm
  · rw [hfree, htake, List.filter_reverse, h.history, hnum.filter (fun k => decide (k ≤ n)), List.filter_filter, freed]
    congr 5
    refine List.filter_congr fun i _ => ?_
    rw [Bool.and_comm, Bool.decide_and]

/-- Renaming an instruction adds its entries. -/
theorem Inv.renameDestRegs (h : s.Inv) {f : RegId → RegId} {inst : DynInst}
    (hv : ∀ r ∈ inst.destRegs, Valid p s.rename.vecMode f r) (hcan : s.rename.canRename inst = true) :
      ∃ r, s.rename.renameDestRegs f inst = .ok r ∧ r.Inv ∧
    ∃ entries, r.historyBuffer = entries ++ s.rename.historyBuffer ∧ (∀ e ∈ entries, e.instSeqNum = inst.seqNum) ∧
      undoAll p entries r.renameMap = s.rename.renameMap := by
  refine DefaultRename.Inv.renameDestRegs h.rename hv fun cls hmisc => ?_
  simp only [DefaultRename.canRename, Bool.and_eq_true, decide_eq_true_eq] at hcan
  obtain ⟨⟨⟨⟨⟨hint, hfloat⟩, hvec⟩, helem⟩, hpred⟩, hcc⟩ := hcan
  cases cls with
  | IntRegClass => exact hint
  | FloatRegClass => exact hfloat
  | VecRegClass => exact hvec
  | VecElemClass => exact helem
  | VecPredRegClass => exact hpred
  | CCRegClass => exact hcc
  | MiscRegClass => exact absurd rfl hmisc

/-! ## The steps -/

theorem Inv.apply (h : s.Inv) {e : Event} (hok : s.Ok e) (hmode : s.ModeKept e) :
    ∃ s', s.apply e = .ok s' ∧ s'.Inv := by
  cases e with
  | rename f inst =>
    obtain ⟨hnewest, hcommitted, hv, hcan⟩ := hok
    obtain ⟨r, hr, hinv, entries, hhist, hseq, hundo⟩ := h.renameDestRegs hv hcan
    have htake : r.historyBuffer.take (r.historyBuffer.length - s.rename.historyBuffer.length) = entries := by
      rw [hhist, List.length_append, Nat.add_sub_cancel, List.take_left]
    refine ⟨{ s with rename := r, insts := ⟨inst.seqNum, entries, r.renameMap⟩ :: s.insts }, ?_, ?_⟩
    · rw [Run.apply, hr]
      change Except.ok _ = _
      rw [htake]
    · refine ⟨hinv, List.pairwise_cons.mpr ⟨hnewest, h.order⟩, ?_, ?_, ⟨?_, h.linked⟩, rfl⟩
      · intro i hi
        obtain rfl | hi := List.mem_cons.mp hi
        · exact hseq
        · exact h.numbered i hi
      · change r.historyBuffer = (List.filter _ (_ :: s.insts)).flatMap _
        rw [List.filter_cons, if_pos (decide_eq_true hcommitted), List.flatMap_cons, ← h.history]
        exact hhist
      · exact hundo.trans h.map
  | squash n new_mode =>
    obtain rfl : new_mode = s.rename.vecMode := hmode
    obtain ⟨r, hr, hinv, hmap, hhist⟩ := h.doSquash (n := n) hok
    refine ⟨{ s with rename := r, insts := s.insts.filter fun i => i.seqNum ≤ n }, ?_, ?_⟩
    · rw [Run.apply, hr]
      rfl
    · have hlinked := h.linked
      rw [h.split n] at hlinked
      exact ⟨hinv, h.order.sublist List.filter_sublist, fun i hi => h.numbered i (List.mem_filter.mp hi).1, hhist,
        hlinked.undoAll.2, hmap.trans (s.mapAfter_eq n)⟩
  | commit n =>
    obtain ⟨r, hr, hinv, hmap, hhist, -⟩ := h.removeFromHistory n
    refine ⟨{ s with rename := r, committed := max s.committed n }, ?_, ?_⟩
    · rw [Run.apply, hr]
      rfl
    · exact ⟨hinv, h.order, h.numbered, hhist, h.linked, hmap.trans h.map⟩

theorem init_start (p : Params) : (system p).init (start p) :=
  ⟨⟨rfl, fun cls => DefaultRename.initMap_ok (p.numRegs_le _ cls), rfl, rfl⟩, rfl, rfl, rfl⟩

theorem inv_of_reachable (h : (system p).ReachableWhen ModeKept s) : s.Inv := by
  refine System.invariantWhen ?_ ?_ h
  · rintro s ⟨hinit, hinsts, -, hfirst⟩
    refine ⟨hinit.inv, ?_, ?_, ?_, ?_, ?_⟩
    · rw [hinsts]
      exact List.Pairwise.nil
    · rw [hinsts]
      exact List.forall_mem_nil _
    · rw [hinit.2.2.2, hinsts]
      rfl
    · rw [hinsts]
      exact trivial
    · rw [hinsts, hfirst]
      rfl
  · intro s e s' _ hinv hmode hstep
    obtain ⟨hok, happly⟩ := Option.ite_none_right_eq_some.mp hstep
    obtain ⟨s₁, hs₁, hinv₁⟩ := hinv.apply hok hmode
    obtain rfl := Except.ok.inj (hs₁.symm.trans (ok_of_toOption happly))
    exact hinv₁

/-! ## The result -/

/-- The registers of the physical register file that can be renamed in a vector mode. -/
def Renamable (p : Params) (vecMode : VecMode) (r : PhysRegId) : Prop := r ∈ p.regIds vecMode r.classValue

/-- Where a register is: in the free list of its class, mapped there, or replaced by an entry of the history buffer. -/
structure InOnePlace (s : DefaultRename p) (r : PhysRegId) : Prop where
  places : (s.freeList r.classValue).count r + (s.renameMap r.classValue).count r +
    s.historyBuffer.countP (fun e => e.prevPhysReg = r ∧ e.newPhysReg ≠ e.prevPhysReg) = 1
  free : ∀ cls, r ∈ s.freeList cls → cls = r.classValue
  mapped : ∀ cls, r ∈ s.renameMap cls → cls = r.classValue

/-- **Renaming conserves the physical registers** as long as squashes keep the vector mode: each of them is in one
place, such a squash gives the map back, a commit frees what the committed instructions replaced, and no step fails. -/
theorem registers_conserved {s : Run p} (h : (system p).ReachableWhen ModeKept s) :
    (∀ r, Renamable p s.rename.vecMode r → InOnePlace s.rename r) ∧
      (∀ n, s.committed ≤ n → ∃ r, s.rename.doSquash n s.rename.vecMode = .ok r ∧ r.renameMap = s.mapAfter n) ∧
      (∀ n, ∃ r, s.rename.removeFromHistory n = .ok r ∧ r.renameMap = s.rename.renameMap ∧
        ∀ cls, r.freeList cls = s.rename.freeList cls ++ (s.freed n).filter fun r => r.classValue = cls) ∧
      ∀ e, s.Ok e → s.ModeKept e → ∃ s', s.apply e = .ok s' := by
  have hinv := inv_of_reachable h
  refine ⟨fun r hr => ?_, fun n hn => ?_, fun n => ?_, fun e hok hmode => ?_⟩
  · refine ⟨?_, fun cls hfree => (hinv.rename.freeClass cls r hfree).symm,
      fun cls hmap => (hinv.rename.mapClass cls r hmap).symm⟩
    have hplaces := hinv.rename.places r
    rw [List.count_eq_one_of_mem (p.nodup_regIds _ _) hr, places, superseded, List.count, List.countP_map,
      List.countP_filter] at hplaces
    rw [← hplaces]
    congr 1
    refine List.countP_congr fun e _ => ?_
    simp
  · obtain ⟨r, hok, -, hmap, -⟩ := hinv.doSquash hn
    exact ⟨r, hok, hmap⟩
  · obtain ⟨r, hok, -, hmap, -, hfree⟩ := hinv.removeFromHistory n
    exact ⟨r, hok, hmap, hfree⟩
  · obtain ⟨s', hs', -⟩ := hinv.apply hok hmode
    exact ⟨s', hs'⟩

/-- Two integer registers, one of them the zero register, with five physical ones, and a vector register of two elements
with two physical ones. -/
def twoRegs : Params where
  alpha := false
  NumIntRegs := 2
  NumFloatRegs := 0
  NumVecRegs := 1
  NumVecElemPerVecReg := 2
  NumVecPredRegs := 0
  NumCCRegs := 0
  NumMiscRegs := 0
  ZeroReg := 0
  numPhysicalIntRegs := 5
  numPhysicalFloatRegs := 0
  numPhysicalVecRegs := 2
  numPhysicalVecPredRegs := 0
  numPhysicalCCRegs := 0
  vecMode := .Full
  intRegs := Nat.le_add_right 2 3
  floatRegs := Nat.le_refl 0
  vecRegs := Nat.le_add_right 1 1
  vecPredRegs := Nat.le_refl 0
  ccRegs := Nat.le_refl 0

/-- An instruction is renamed, a second one is squashed, and the first one is committed. -/
theorem registers_conserved_squash : ∃ s, (system twoRegs).ReachableWhen ModeKept s ∧
    s.rename.renameMap .IntRegClass = [⟨.IntRegClass, 0, 0⟩, ⟨.IntRegClass, 2, 0⟩] ∧
    s.rename.freeList .IntRegClass = [⟨.IntRegClass, 4, 0⟩, ⟨.IntRegClass, 3, 0⟩, ⟨.IntRegClass, 1, 0⟩] ∧
    ∀ r, Renamable twoRegs s.rename.vecMode r → InOnePlace s.rename r := by
  obtain ⟨s, hs, hmap, hfree⟩ := System.reachableWhen_of_replay (C := fun s e => decide (ModeKept s e))
    (init_start twoRegs)
    [.rename id ⟨1, [⟨.IntRegClass, 1, 0, 0⟩]⟩, .rename id ⟨2, [⟨.IntRegClass, 1, 0, 0⟩, ⟨.IntRegClass, 0, 0, 0⟩]⟩,
      .squash 1 .Full, .commit 1]
    (fun s => s.rename.renameMap .IntRegClass = [⟨.IntRegClass, 0, 0⟩, ⟨.IntRegClass, 2, 0⟩] ∧
      s.rename.freeList .IntRegClass = [⟨.IntRegClass, 4, 0⟩, ⟨.IntRegClass, 3, 0⟩, ⟨.IntRegClass, 1, 0⟩]) (by decide)
  have hkept := hs.mono fun _ _ h => of_decide_eq_true h
  exact ⟨s, hkept, hmap, hfree, (registers_conserved hkept).1⟩

/-- A squash that switches to elements gives a map that no instruction left behind: it splits the mapping of the vector
register. -/
theorem mode_switch_splits : ∃ s r, (system twoRegs).Reachable s ∧ s.committed ≤ 1 ∧
    s.rename.doSquash 1 .Elem = .ok r ∧ r.renameMap ≠ s.mapAfter 1 := by
  obtain ⟨s, hs, hcommitted, hmap⟩ := System.reachable_of_replay (init_start twoRegs)
    [.rename id ⟨1, [⟨.IntRegClass, 1, 0, 0⟩]⟩, .rename id ⟨2, [⟨.VecRegClass, 0, 0, 0⟩]⟩]
    (fun s => s.committed ≤ 1 ∧ (s.rename.doSquash 1 .Elem).toOption.any fun r =>
      r.renameMap .VecElemClass ≠ s.mapAfter 1 .VecElemClass) (by decide)
  obtain ⟨r, hr, hne⟩ := (Option.any_eq_true _ _).mp hmap
  exact ⟨s, r, hs, hcommitted, ok_of_toOption hr, fun h => of_decide_eq_true hne (congrFun h _)⟩

end Run

end Salam.O3
