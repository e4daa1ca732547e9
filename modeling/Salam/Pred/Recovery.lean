import Mathlib.Algebra.Order.Group.Nat
import Mathlib.Data.List.Forall2
import Mathlib.Data.List.TakeWhile
import Salam.Pred.BPredUnit

/-!
# Recovery of the return address stack

A record of the history undoes what its branch did to the logical stack (`Kept`), as long as a return that is found to
be taken was predicted taken: else no index was recorded, and index 0 is restored.

* `Kept.undo`, `Kept.correct`: one record, in the plain squash and in the correction.
* `Recovery.ras_recovery`: a squash of all branches gives the stack back.
* `Recovery.return_not_saved`: a return that was predicted not taken.
-/

namespace Salam.Pred

open RingStack

variable {PC : Type} {p : Params PC} {bottom n : Nat} {RAS : ReturnAddrStack p}

/-! ## The stack of return addresses as a logical stack -/

namespace ReturnAddrStack

/-- The stack has these entries, the newest first. -/
def Has (bottom : Nat) (RAS : ReturnAddrStack p) (stack : List PC) : Prop :=
  RingStack.Repr p.numEntries bottom RAS.tos RAS.addrStack stack

variable {stack : List PC} {pc : PC}

theorem Has.push (h : RAS.Has bottom stack) (hlen : stack.length + 1 ≤ p.numEntries) :
    (RAS.push pc).Has bottom (pc :: stack) :=
  RingStack.Repr.push h hlen pc

theorem Has.pop (h : RAS.Has bottom (pc :: stack)) : RAS.pop.Has bottom stack := RingStack.Repr.pop h

theorem Has.restore (h : RAS.Has bottom stack) (hlen : stack.length + 1 ≤ p.numEntries) :
    (RAS.restore (slot p.numEntries bottom (stack.length + 1)) pc).Has bottom (pc :: stack) :=
  RingStack.Repr.restore h hlen pc

end ReturnAddrStack

/-! ## Records -/

/-- A record keeps what undoes its branch. -/
structure Kept (p : Params PC) (bottom : Nat) (r : PredictorHistory PC) (b : Branch PC) : Prop where
  seqNum : r.seqNum = b.seqNum
  wasReturn : r.wasReturn = b.isReturn
  used : r.usedRAS = true → b.isReturn = true ∧ b.before = r.RASTarget :: b.after
  pushed : (r.wasCall && r.pushedRAS) = true → b.isReturn = false ∧ ∃ a, b.after = a :: b.before
  same : r.usedRAS = false → (r.wasCall && r.pushedRAS) = false → b.after = b.before
  saved : r.usedRAS = true ∨ b.isReturn = true ∧ b.predTaken = true → b.before.length ≤ p.numEntries ∧
    r.RASIndex = slot p.numEntries bottom b.before.length ∧ b.before.head? = some r.RASTarget

namespace Kept

variable {r : PredictorHistory PC} {b : Branch PC} {taken : Bool}

/-- A branch that left the stack as it was. -/
theorem of_same (hseq : r.seqNum = b.seqNum) (hreturn : r.wasReturn = b.isReturn) (hused : r.usedRAS = false)
    (hpushed : (r.wasCall && r.pushedRAS) = false) (hsame : b.after = b.before)
    (hsaved : ¬ (b.isReturn = true ∧ b.predTaken = true)) : Kept p bottom r b where
  seqNum := hseq
  wasReturn := hreturn
  used h := absurd h (Bool.eq_false_iff.mp hused)
  pushed h := absurd h (Bool.eq_false_iff.mp hpushed)
  same _ _ := hsame
  saved h := absurd (h.resolve_left (Bool.eq_false_iff.mp hused)) hsaved

theorem of_push {a : PC} (hseq : r.seqNum = b.seqNum) (hreturn : r.wasReturn = b.isReturn) (hused : r.usedRAS = false)
    (hpushed : (r.wasCall && r.pushedRAS) = true) (hcall : b.isReturn = false) (hafter : b.after = a :: b.before) :
    Kept p bottom r b where
  seqNum := hseq
  wasReturn := hreturn
  used h := absurd h (Bool.eq_false_iff.mp hused)
  pushed _ := ⟨hcall, a, hafter⟩
  same _ h := absurd hpushed (Bool.eq_false_iff.mp h)
  saved h := absurd (h.resolve_left (Bool.eq_false_iff.mp hused)).1 (Bool.eq_false_iff.mp hcall)

/-- The entry that the branch popped is put back. -/
theorem restore (h : Kept p bottom r b) (hused : r.usedRAS = true) (hras : RAS.Has bottom b.after) :
    (RAS.restore r.RASIndex r.RASTarget).Has bottom b.before := by
  obtain ⟨hlen, hindex, -⟩ := h.saved (.inl hused)
  obtain ⟨-, hbefore⟩ := h.used hused
  rw [hbefore, List.length_cons] at hlen hindex
  rw [hbefore, hindex]
  exact hras.restore hlen

section

variable (h : Kept p bottom r b) (hras : RAS.Has bottom b.after)
include h hras

theorem undo : (BPredUnit.undo r RAS).Has bottom b.before := by
  rw [BPredUnit.undo]
  cases hused : r.usedRAS with
  | true => exact h.restore hused hras
  | false =>
    cases hpushed : r.wasCall && r.pushedRAS with
    | true =>
      obtain ⟨-, a, hafter⟩ := h.pushed hpushed
      exact (hafter ▸ hras).pop
    | false => exact h.same hused hpushed ▸ hras

theorem correct_false : Kept p bottom (BPredUnit.correct r RAS false).1 { b with after := b.before } ∧
      (BPredUnit.correct r RAS false).2.Has bottom b.before := by
  rw [BPredUnit.correct, if_neg Bool.false_ne_true]
  by_cases hused : r.usedRAS = true
  · obtain ⟨hreturn, -⟩ := h.used hused
    have hcall : (r.wasCall && r.pushedRAS) = true → False := fun hp => by
      rw [(h.pushed hp).1] at hreturn
      cases hreturn
    rw [if_pos hused]
    refine ⟨⟨h.seqNum, h.wasReturn, ?_, fun hp => (hcall hp).elim, fun _ _ => rfl, fun _ => h.saved (.inl hused)⟩,
      h.restore hused hras⟩
    exact fun hp => Bool.noConfusion hp
  · rw [if_neg hused]
    rw [Bool.not_eq_true] at hused
    by_cases hpushed : (r.wasCall && r.pushedRAS) = true
    · obtain ⟨hreturn, a, hafter⟩ := h.pushed hpushed
      rw [if_pos hpushed]
      refine ⟨⟨h.seqNum, h.wasReturn, fun hp => ?_, fun hp => ?_, fun _ _ => rfl, h.saved⟩, (hafter ▸ hras).pop⟩
      · exact absurd hp (hused ▸ Bool.false_ne_true)
      · rw [Bool.and_false] at hp
        cases hp
    · rw [if_neg hpushed]
      have hsame := h.same hused (Bool.not_eq_true _ ▸ hpushed)
      have hb : ({ b with after := b.before } : Branch PC) = b :=
        congrArg (fun stack => { b with after := stack }) hsame.symm
      rw [hb]
      exact ⟨h, hsame ▸ hras⟩

/-- A branch that is taken after all: if it is a return, the entry that it pops was saved. -/
theorem correct_true (hsaved : b.isReturn = true → b.predTaken = true) :
    Kept p bottom (BPredUnit.correct r RAS true).1 { b with after := Recovery.afterCorrection b true } ∧
      (BPredUnit.correct r RAS true).2.Has bottom (Recovery.afterCorrection b true) := by
  rw [BPredUnit.correct, if_pos rfl, Recovery.afterCorrection, if_pos rfl]
  by_cases hreturn : b.isReturn = true
  · rw [if_pos hreturn]
    obtain ⟨hlen, hindex, hhead⟩ := h.saved (.inr ⟨hreturn, hsaved hreturn⟩)
    have hbefore : b.before = r.RASTarget :: b.before.tail := (List.cons_head?_tail hhead).symm
    by_cases hused : r.usedRAS = true
    · -- it has popped the entry already
      obtain ⟨-, hcons⟩ := h.used hused
      have htail : b.before.tail = b.after := by rw [hcons, List.tail_cons]
      rw [if_neg (by simp [hused]), htail]
      exact ⟨h, hras⟩
    · rw [Bool.not_eq_true] at hused
      have hpushed : ¬ (r.wasCall && r.pushedRAS) = true := fun hp => by
        rw [(h.pushed hp).1] at hreturn
        cases hreturn
      have hsame := h.same hused (Bool.not_eq_true _ ▸ hpushed)
      rw [if_pos (by simp [hused, h.wasReturn, hreturn])]
      refine ⟨⟨h.seqNum, h.wasReturn, fun _ => ⟨hreturn, hbefore⟩, fun hp => absurd hp hpushed, fun hp => ?_,
        fun _ => ⟨hlen, hindex, hhead⟩⟩, ?_⟩
      · cases hp
      · rw [hsame, hbefore] at hras
        exact hras.pop
  · rw [if_neg hreturn, if_neg (by simp [h.wasReturn, hreturn])]
    exact ⟨h, hras⟩

theorem correct (hsaved : taken = true → b.isReturn = true → b.predTaken = true) :
    Kept p bottom (BPredUnit.correct r RAS taken).1 { b with after := Recovery.afterCorrection b taken } ∧
      (BPredUnit.correct r RAS taken).2.Has bottom (Recovery.afterCorrection b taken) := by
  cases taken with
  | true => exact h.correct_true hras (hsaved rfl)
  | false => exact h.correct_false hras

end

end Kept

/-! ## Sequences of branches -/

namespace Recovery

variable {s s' : Recovery p} {live : List PC} {hist base : List (PredictorHistory PC)}
  {branches : List (Branch PC)} {k d : Nat}

/-- The stack before a branch is the one after the branch before it. -/
def Linked (live : List PC) : List (Branch PC) → Prop
  | [] => True
  | b :: branches => b.before = lastStack live branches ∧ Linked live branches

/-- The plain squash undoes the branches after `k`. -/
theorem squashLoop_spec (hbase : ∀ r ∈ base, r.seqNum ≤ k) (hkept : List.Forall₂ (Kept p bottom) hist branches) :
    ∀ {RAS : ReturnAddrStack p}, Linked live branches → RAS.Has bottom (lastStack live branches) →
    ∃ hist', (BPredUnit.squashLoop k (hist ++ base) RAS).predHist = hist' ++ base ∧
      List.Forall₂ (Kept p bottom) hist' (branches.dropWhile fun b => k < b.seqNum) ∧
      Linked live (branches.dropWhile fun b => k < b.seqNum) ∧
      (BPredUnit.squashLoop k (hist ++ base) RAS).RAS.Has bottom
        (lastStack live (branches.dropWhile fun b => k < b.seqNum)) := by
  induction hkept with
  | nil =>
    intro RAS hlinked hras
    have hstop : BPredUnit.squashLoop k base RAS = ⟨base, RAS⟩ := by
      cases base with
      | nil => rfl
      | cons r base => exact if_neg (not_lt.mpr (hbase r List.mem_cons_self))
    rw [List.nil_append, hstop]
    exact ⟨[], rfl, .nil, hlinked, hras⟩
  | @cons r b hist branches hr hkept ih =>
    intro RAS hlinked hras
    by_cases hlt : k < b.seqNum
    · have hundo := hr.undo hras
      rw [hlinked.1] at hundo
      obtain ⟨hist', hhist, hkept', hlinked', hras'⟩ := ih hlinked.2 hundo
      rw [List.cons_append, BPredUnit.squashLoop, if_pos (hr.seqNum ▸ hlt), List.dropWhile_cons,
        if_pos (decide_eq_true hlt)]
      exact ⟨hist', hhist, hkept', hlinked', hras'⟩
    · rw [List.cons_append, BPredUnit.squashLoop, if_neg (hr.seqNum ▸ hlt), List.dropWhile_cons,
        if_neg (by simpa using hlt)]
      exact ⟨r :: hist, rfl, .cons hr hkept, hlinked, hras⟩

/-! ### The invariant -/

/-- The newest records keep what undoes the branches of the sequence, and the ones before them are as they were. -/
structure Inv (n bottom : Nat) (base : List (PredictorHistory PC)) (live : List PC) (s : Recovery p) : Prop where
  start : s.live = live
  linked : Linked live s.branches
  has : s.unit.RAS.Has bottom (lastStack live s.branches)
  after : ∀ b ∈ s.branches, n < b.seqNum
  hist : ∃ hist, s.unit.predHist = hist ++ base ∧ List.Forall₂ (Kept p bottom) hist s.branches

theorem wasIndirect_eq {r : PredictorHistory PC} (h : r.wasIndirect = false) (direct : Bool) :
    (if direct = true then r else { r with wasIndirect := true }) = { r with wasIndirect := !direct } := by
  cases direct with
  | true => exact congrArg (fun w => { r with wasIndirect := w }) h
  | false => rfl

theorem kept_predict {u : BPredUnit p} {stack : List PC} (inst : StaticInst) (seqNum : Nat) (pc : PC) (o : Outcome PC)
    (hras : u.RAS.Has bottom stack)
    (hreturn : BPredUnit.predTaken inst o = true → inst.isReturn = true → stack ≠ [])
    (hcall : BPredUnit.predTaken inst o = true → inst.isReturn = false → inst.isCall = true →
      stack.length + 1 ≤ p.numEntries) :
    ∃ r, (u.predict inst seqNum pc o).2.predHist = r :: u.predHist ∧
      Kept p bottom r ⟨seqNum, inst.isReturn, BPredUnit.predTaken inst o, stack, afterPrediction stack inst pc o⟩ ∧
      (u.predict inst seqNum pc o).2.RAS.Has bottom (afterPrediction stack inst pc o) := by
  rw [BPredUnit.predict, afterPrediction]
  by_cases htaken : BPredUnit.predTaken inst o = true
  · simp only [if_pos htaken]
    by_cases hr : inst.isReturn = true
    · -- a return pops the top entry, and keeps it
      obtain ⟨a, rest, rfl⟩ := List.exists_cons_of_ne_nil (hreturn htaken hr)
      have htop : u.RAS.top = a := RingStack.Repr.head hras
      simp only [if_pos hr]
      refine ⟨_, rfl, ⟨rfl, hr.symm, fun _ => ⟨hr, ?_⟩, fun hp => ?_, fun hp => ?_,
        fun _ => ⟨hras.length, hras.top, ?_⟩⟩, hras.pop⟩
      · rw [htop]
        rfl
      · cases hp
      · cases hp
      · rw [htop]
        rfl
    · rw [Bool.not_eq_true] at hr
      have hnot : ¬ (false = true ∧ BPredUnit.predTaken inst o = true) := fun h => Bool.false_ne_true h.1
      simp only [hr, Bool.false_eq_true, if_false]
      by_cases hcall' : inst.isCall = true
      · have hpush : (u.RAS.push pc).Has bottom (pc :: stack) := hras.push (hcall htaken hr hcall')
        simp only [hcall', if_true, Bool.true_and]
        rw [wasIndirect_eq rfl]
        -- a call pushes its entry, and pops it again if it is conditional and has no target
        cases o.hit with
        | some target =>
          simp only [Option.isSome_some, Bool.or_true, if_true]
          exact ⟨_, rfl, Kept.of_push (a := pc) rfl rfl rfl rfl rfl rfl, hpush⟩
        | none =>
          by_cases huncond : inst.isUncondCtrl = true
          · simp only [huncond, Bool.not_true, Bool.false_eq_true, if_false, Bool.true_or, if_true]
            exact ⟨_, rfl, Kept.of_push (a := pc) rfl rfl rfl rfl rfl rfl, hpush⟩
          · rw [Bool.not_eq_true] at huncond
            simp only [huncond, Bool.not_false, if_true, Option.isSome_none, Bool.or_self, Bool.false_eq_true, if_false]
            exact ⟨_, rfl, Kept.of_same rfl rfl rfl rfl rfl hnot, hpush.pop⟩
      · rw [Bool.not_eq_true] at hcall'
        simp only [hcall', Bool.false_eq_true, if_false, Bool.false_and]
        rw [wasIndirect_eq rfl]
        cases o.hit with
        | some target => exact ⟨_, rfl, Kept.of_same rfl rfl rfl rfl rfl hnot, hras⟩
        | none => exact ⟨_, rfl, Kept.of_same rfl rfl rfl rfl rfl hnot, hras⟩
  · rw [if_neg htaken, if_neg htaken]
    exact ⟨_, rfl, Kept.of_same rfl rfl rfl rfl rfl fun h => htaken h.2, hras⟩

/-! ### The steps -/

theorem Inv.predict (h : s.Inv n bottom base live) {inst : StaticInst} {seqNum : Nat} {pc : PC} {o : Outcome PC}
    (hseq : n < seqNum) (hdepth : s.DepthOk (.predict inst seqNum pc o) = true) :
    Inv n bottom base live { s with
      unit := (s.unit.predict inst seqNum pc o).2
      branches := ⟨seqNum, inst.isReturn, BPredUnit.predTaken inst o, s.stack, afterPrediction s.stack inst pc o⟩ ::
        s.branches } := by
  obtain ⟨hstart, hlinked, hras, hafter, hist, hhist, hkept⟩ := h
  have hstack : s.stack = lastStack live s.branches := by rw [stack, hstart]
  simp only [DepthOk, Bool.or_eq_true, Bool.not_eq_true'] at hdepth
  obtain ⟨r, hr, hkept', hras'⟩ := kept_predict inst seqNum pc o (hstack ▸ hras)
    (fun htaken hreturn hnil => by
      rw [htaken, if_pos hreturn, hnil] at hdepth
      simp at hdepth)
    (fun htaken hreturn hcall => by
      rw [htaken, if_neg (Bool.eq_false_iff.mp hreturn), hcall] at hdepth
      simpa using hdepth)
  exact ⟨hstart, ⟨hstack, hlinked⟩, hras', List.forall_mem_cons.mpr ⟨hseq, hafter⟩, r :: hist,
    hr.trans (congrArg _ hhist), .cons hkept' hkept⟩

theorem Inv.mispredict (h : s.Inv n bottom base live) (hbase : ∀ r ∈ base, r.seqNum ≤ n) {corrTarget : PC}
    {taken : Bool}
    {unit : BPredUnit p} (hk : n < k) (hsaved : s.Saved (.mispredict k corrTarget taken))
    (hok : s.unit.squashMispredicted k corrTarget taken = .ok unit) :
    Inv n bottom base live { s with unit := unit, branches := corrected k taken s.branches } := by
  obtain ⟨hstart, hlinked, hras, hafter, hist, hhist, hkept⟩ := h
  obtain ⟨hist', hhist', hkept', hlinked', hras'⟩ :=
    squashLoop_spec (fun r hr => (hbase r hr).trans hk.le) hkept hlinked hras
  have hafter' : ∀ b ∈ s.branches.dropWhile (fun b => k < b.seqNum), n < b.seqNum := fun b hb =>
    hafter b ((List.dropWhile_sublist _).subset hb)
  rw [BPredUnit.squashMispredicted, BPredUnit.squash, hhist] at hok
  rw [corrected]
  generalize BPredUnit.squashLoop k (hist ++ base) s.unit.RAS = u at hok hhist' hras'
  have hmis : mispredicted k s.branches = (s.branches.dropWhile fun b => k < b.seqNum).head? := rfl
  generalize (s.branches.dropWhile fun b => k < b.seqNum) = branches at hkept' hlinked' hras' hafter' hmis ⊢
  simp only [hhist'] at hok
  cases hkept' with
  | nil =>
    -- the mispredicted branch is not one of the sequence
    cases base with
    | nil =>
      cases Except.ok.inj hok
      exact ⟨hstart, trivial, hras', List.forall_mem_nil _, [], hhist', .nil⟩
    | cons r base =>
      have hne : ¬ r.seqNum = k := fun heq => absurd (hbase r List.mem_cons_self) (not_le.mpr (heq ▸ hk))
      rw [List.nil_append] at hok
      simp only [if_neg hne] at hok
      cases hok
  | @cons r b hist'' branches hr hrest =>
    rw [List.cons_append] at hok
    simp only at hok
    by_cases heq : r.seqNum = k
    · rw [if_pos heq] at hok
      have hkeep : Kept p bottom { r with predTaken := taken, target := p.instAddr corrTarget } b :=
        ⟨hr.seqNum, hr.wasReturn, hr.used, hr.pushed, hr.same, hr.saved⟩
      have hreturn : taken = true → b.isReturn = true → b.predTaken = true := by
        rintro rfl
        exact hsaved b (hmis ▸ rfl)
      obtain ⟨hkept', hras''⟩ := hkeep.correct hras' hreturn
      cases Except.ok.inj hok
      obtain ⟨hb, hbranches⟩ := List.forall_mem_cons.mp hafter'
      exact ⟨hstart, hlinked', hras'', List.forall_mem_cons.mpr ⟨hb, hbranches⟩, _ :: hist'', rfl, .cons hkept' hrest⟩
    · rw [if_neg heq] at hok
      cases hok

theorem Inv.step (h : s.Inv n bottom base live) (hbase : ∀ r ∈ base, r.seqNum ≤ n) {e : Event PC} (hsaved : s.Saved e)
    (hstep : s.step n e = some s') : s'.Inv n bottom base live := by
  cases e with
  | predict inst seqNum pc o =>
    obtain ⟨⟨hseq, hdepth⟩, hs'⟩ := Option.ite_none_right_eq_some.mp hstep
    cases hs'
    exact h.predict hseq hdepth
  | mispredict k corrTarget taken =>
    obtain ⟨⟨hk, -⟩, hs'⟩ := Option.ite_none_right_eq_some.mp hstep
    obtain ⟨unit, hunit, rfl⟩ := Option.map_eq_some_iff.mp hs'
    exact h.mispredict hbase hk hsaved (ok_of_toOption hunit)
  | squash k => cases hstep
  | update k => cases hstep

end Recovery

/-! ## The predictor states -/

namespace BPredUnit

variable {u u' : BPredUnit p} {RAS : ReturnAddrStack p} {r : PredictorHistory PC}

/-- The top of the stack is one of its entries, and so is what a record restores. -/
structure Bounded (u : BPredUnit p) : Prop where
  tos : 0 < p.numEntries → u.RAS.tos < p.numEntries
  index : 0 < p.numEntries → ∀ r ∈ u.predHist, r.RASIndex < p.numEntries

theorem Bounded.cons (h : u.Bounded) (htos : 0 < p.numEntries → RAS.tos < p.numEntries)
    (hr : r.RASIndex = 0 ∨ r.RASIndex = u.RAS.tos) : Bounded ⟨r :: u.predHist, RAS⟩ := by
  refine ⟨htos, fun hN => List.forall_mem_cons.mpr ⟨?_, h.index hN⟩⟩
  obtain hr | hr := hr
  · exact hr ▸ hN
  · exact hr ▸ h.tos hN

theorem Bounded.predict (h : u.Bounded) (inst : StaticInst) (seqNum : Nat) (pc : PC) (o : Outcome PC) :
    (u.predict inst seqNum pc o).2.Bounded := by
  have hpush : 0 < p.numEntries → (u.RAS.push pc).tos < p.numEntries := fun hN => incr_lt (h.tos hN)
  rw [BPredUnit.predict]
  by_cases htaken : predTaken inst o = true
  · simp only [if_pos htaken]
    by_cases hreturn : inst.isReturn = true
    · simp only [if_pos hreturn]
      exact h.cons (fun hN => decr_lt (h.tos hN)) (.inr rfl)
    · simp only [if_neg hreturn]
      cases hcall : inst.isCall with
      | true =>
        rw [Recovery.wasIndirect_eq rfl]
        cases o.hit with
        | some target => exact h.cons hpush (.inl rfl)
        | none =>
          cases inst.isUncondCtrl with
          | true => exact h.cons hpush (.inl rfl)
          | false => exact h.cons (fun hN => decr_lt (hpush hN)) (.inl rfl)
      | false =>
        rw [Recovery.wasIndirect_eq rfl]
        cases o.hit with
        | some target => exact h.cons h.tos (.inl rfl)
        | none => exact h.cons h.tos (.inl rfl)
  · rw [if_neg htaken]
    exact h.cons h.tos (.inl rfl)

/-- What undoes or corrects a record leaves the top in the stack, and the index of the record as it is. -/
theorem bounded_undo (hr : r.RASIndex < p.numEntries) (htos : RAS.tos < p.numEntries) :
    (undo r RAS).tos < p.numEntries := by
  rw [undo]
  split
  · exact hr
  · split
    · exact decr_lt htos
    · exact htos

theorem bounded_correct (taken : Bool) (hr : r.RASIndex < p.numEntries) (htos : RAS.tos < p.numEntries) :
    (correct r RAS taken).1.RASIndex < p.numEntries ∧ (correct r RAS taken).2.tos < p.numEntries := by
  rw [correct]
  split
  · split
    · exact ⟨hr, decr_lt htos⟩
    · exact ⟨hr, htos⟩
  · split
    · exact ⟨hr, hr⟩
    · split
      · exact ⟨hr, decr_lt htos⟩
      · exact ⟨hr, htos⟩

theorem Bounded.squash {k : Nat} : ∀ {hist : List (PredictorHistory PC)} {RAS : ReturnAddrStack p},
    Bounded ⟨hist, RAS⟩ → (squashLoop k hist RAS).Bounded := by
  intro hist
  induction hist with
  | nil => exact fun h => h
  | cons r hist ih =>
    intro RAS h
    rw [squashLoop]
    by_cases hlt : k < r.seqNum
    · rw [if_pos hlt]
      exact ih ⟨fun hN => bounded_undo (h.index hN r List.mem_cons_self) (h.tos hN),
        fun hN r' hr' => h.index hN r' (List.mem_cons_of_mem _ hr')⟩
    · rw [if_neg hlt]
      exact h

theorem Bounded.mispredict (h : u.Bounded) {k : Nat} {corrTarget : PC} {taken : Bool}
    (hok : u.squashMispredicted k corrTarget taken = .ok u') : u'.Bounded := by
  have hsquash : (u.squash k).Bounded := Bounded.squash h
  rw [squashMispredicted] at hok
  generalize u.squash k = v at hok hsquash
  obtain ⟨predHist, RAS⟩ := v
  cases predHist with
  | nil =>
    cases Except.ok.inj hok
    exact hsquash
  | cons r hist =>
    by_cases heq : r.seqNum = k
    · simp only [if_pos heq] at hok
      cases Except.ok.inj hok
      have hcorrect := fun hN => bounded_correct (r := { r with predTaken := taken, target := p.instAddr corrTarget })
        taken (hsquash.index hN r List.mem_cons_self) (hsquash.tos hN)
      exact ⟨fun hN => (hcorrect hN).2, fun hN => List.forall_mem_cons.mpr ⟨(hcorrect hN).1,
        fun r' hr' => hsquash.index hN r' (List.mem_cons_of_mem _ hr')⟩⟩
    · simp only [if_neg heq] at hok
      cases hok

theorem bounded_of_reachable (h : (system p).Reachable u) : u.Bounded := by
  refine System.invariantWhen ?_ ?_ h
  · rintro u rfl
    exact ⟨fun hN => hN, fun _ => List.forall_mem_nil _⟩
  · intro u e u' _ hu _ hstep
    cases e with
    | predict inst seqNum pc o =>
      cases hstep
      exact hu.predict inst seqNum pc o
    | mispredict k corrTarget taken => exact hu.mispredict (ok_of_toOption hstep)
    | squash k =>
      cases hstep
      exact Bounded.squash hu
    | update k =>
      cases hstep
      refine ⟨hu.tos, fun hN r hr => hu.index hN r ?_⟩
      exact List.mem_reverse.mp ((List.dropWhile_sublist _).subset (List.mem_reverse.mp hr))

end BPredUnit

namespace Recovery

variable {s : Recovery p} {n d : Nat}

/-- **Recovery**: in every sequence of predictions and corrections of branches after `n` that keeps the stack between
empty and full, and that does not find a return to be taken that was predicted not to be, the squash of all these
branches gives the top index and the entries on the stack back. -/
theorem ras_recovery {u : BPredUnit p} (hu : (BPredUnit.system p).Reachable u) (hn : ∀ r ∈ u.predHist, r.seqNum ≤ n)
    (hd : d ≤ p.numEntries) (h : (system p n).Run Saved (start u d) s) :
    (s.unit.squash n).RAS.tos = u.RAS.tos ∧ (s.unit.squash n).RAS.live d = u.RAS.live d ∧
      (s.unit.squash n).predHist = u.predHist := by
  obtain ⟨bottom, hbottom⟩ := repr_live u.RAS.addrStack (BPredUnit.bounded_of_reachable hu).tos hd
  have hlen : (u.RAS.live d).length = d := by
    rw [ReturnAddrStack.live, RingStack.live, List.length_map, List.length_range]
  have hinit : (start u d).Inv n bottom u.predHist (u.RAS.live d) :=
    ⟨rfl, trivial, hbottom, List.forall_mem_nil _, [], rfl, .nil⟩
  obtain ⟨-, hlinked, hras, hafter, hist, hhist, hkept⟩ :=
    h.keeps (fun s e s' hs hC hstep => hs.step hn hC hstep) hinit
  obtain ⟨hist', hhist', hkept', -, hras'⟩ := squashLoop_spec hn hkept hlinked hras
  have hnone : (s.branches.dropWhile fun b => n < b.seqNum) = [] :=
    List.dropWhile_eq_nil_iff.mpr fun b hb => decide_eq_true (hafter b hb)
  rw [hnone] at hkept' hras'
  cases hkept'
  rw [← hhist] at hhist' hras'
  refine ⟨hras'.top.trans hbottom.top.symm, ?_, hhist'⟩
  have hlive := RingStack.Repr.live_eq hras'
  rw [show (lastStack (u.RAS.live d) []).length = d from hlen] at hlive
  exact hlive

/-- Two entries, and program counters that are numbers. -/
def twoEntries : Params Nat := ⟨2, false, 0, id, fun _ ret => ret, fun pc _ => pc + 4⟩

/-- The predictor after a call, the branch 1. -/
def called : BPredUnit twoEntries :=
  ((⟨[], ReturnAddrStack.reset⟩ : BPredUnit twoEntries).predict ⟨true, true, false, true⟩ 1 100 ⟨true, some 200⟩).2

theorem called_reachable : (BPredUnit.system twoEntries).Reachable called :=
  (System.ReachableWhen.init rfl).step (a := .predict ⟨true, true, false, true⟩ 1 100 ⟨true, some 200⟩) trivial rfl

/-- A return pops the entry of the call, a second call overwrites it, and the return goes somewhere else. -/
theorem ras_recovery_overwritten : ∃ s, (system twoEntries 1).Run Saved (start called 1) s ∧
    s.unit.RAS.tos ≠ called.RAS.tos ∧
    (s.unit.squash 1).RAS.tos = called.RAS.tos ∧ (s.unit.squash 1).RAS.live 1 = [100] := by
  have hrun : ∃ s, (system twoEntries 1).Run Saved (start called 1) s ∧ s.unit.RAS.tos = 0 := by
    refine ⟨_, .tail (a := .mispredict 2 150 true)
      (.tail (a := .predict ⟨true, true, false, true⟩ 3 300 ⟨true, some 400⟩)
      (.tail (a := .predict ⟨true, false, true, false⟩ 2 200 ⟨true, none⟩) (.refl _) trivial rfl) trivial
        rfl) ?_ rfl, rfl⟩
    intro b hb _
    cases hb
    rfl
  obtain ⟨s, hrun, htos⟩ := hrun
  obtain ⟨hback, hlive, -⟩ := ras_recovery called_reachable (n := 1) (d := 1) (by decide) (by decide) hrun
  exact ⟨s, hrun, htos ▸ by decide, hback, hlive.trans (by decide)⟩

/-- A return that is predicted not taken and is found to be taken: the squash restores index 0. -/
theorem return_not_saved : ∃ (u : BPredUnit twoEntries) (s : Recovery twoEntries),
    (BPredUnit.system twoEntries).Reachable u ∧ (∀ r ∈ u.predHist, r.seqNum ≤ 1) ∧
      (system twoEntries 1).Run (fun _ _ => True) (start u 1) s ∧ (s.unit.squash 1).RAS.tos ≠ u.RAS.tos := by
  refine ⟨called, _, called_reachable, by decide, .tail (a := .mispredict 2 100 true)
    (.tail (a := .predict ⟨false, false, true, false⟩ 2 200 ⟨false, none⟩) (.refl _) trivial rfl) trivial rfl, ?_⟩
  decide

end Recovery

end Salam.Pred
