import Salam.Lib.FirstLeast

/-!
# `BRRIPRP`

The victim is the first candidate of the largest re-reference prediction, and what it lacks to saturation is added to
all candidates at once.

* `SatCounter.addAssign_increment`: an increment and an addition are one addition.
* `ageing_eq`: counting up by one until a candidate is saturated.
* `getVictim_eq_reference`: the victim search is that loop.
-/

namespace Salam.Replacement

def SatCounter.maxVal (bits : Nat) : BitVec 8 := BitVec.ofNat 8 ((1 <<< bits) - 1)

structure SatCounter (bits : Nat) where
  counter : BitVec 8
  counter_le : counter ≤ SatCounter.maxVal bits

namespace SatCounter

variable {bits : Nat}

/-- `operator++` -/
def increment (c : SatCounter bits) : SatCounter bits :=
  if h : c.counter < maxVal bits then ⟨c.counter + 1, by bv_omega⟩ else c

/-- What `saturate` returns. -/
def diff (c : SatCounter bits) : Nat := (maxVal bits - c.counter).toNat

/-- `operator+=` -/
def addAssign (c : SatCounter bits) (value : Nat) : SatCounter bits :=
  if h : value ≤ c.diff then
    ⟨c.counter + BitVec.ofNat 8 value, by
      have hle := c.counter_le
      have hlt := (maxVal bits).isLt
      rw [diff, BitVec.toNat_sub_of_le hle] at h
      rw [BitVec.le_def] at hle ⊢
      rw [BitVec.toNat_add, BitVec.toNat_ofNat, Nat.add_mod_mod, Nat.mod_eq_of_lt (by omega)]
      omega⟩
  else ⟨maxVal bits, BitVec.le_refl _⟩

def isSaturated (c : SatCounter bits) : Bool := c.counter = maxVal bits

def saturate (c : SatCounter bits) : Nat × SatCounter bits := (c.diff, ⟨maxVal bits, BitVec.le_refl _⟩)

theorem ext_toNat {c d : SatCounter bits} (h : c.counter.toNat = d.counter.toNat) : c = d := by
  cases c
  cases d
  simp only [mk.injEq]
  exact BitVec.eq_of_toNat_eq h

section

variable (c : SatCounter bits)
include c

theorem diff_eq : c.diff = (maxVal bits).toNat - c.counter.toNat :=
  BitVec.toNat_sub_of_le c.counter_le

theorem toNat_le : c.counter.toNat ≤ (maxVal bits).toNat := c.counter_le

theorem toNat_increment : c.increment.counter.toNat = min (c.counter.toNat + 1) (maxVal bits).toNat := by
  rw [increment]
  split
  · rename_i h
    rw [BitVec.lt_def] at h
    have hone : (1 : BitVec 8).toNat = 1 := rfl
    simp only [BitVec.toNat_add, hone]
    omega
  · rename_i h
    have hle := c.toNat_le
    rw [BitVec.lt_def] at h
    omega

theorem toNat_addAssign (value : Nat) :
    (c.addAssign value).counter.toNat = min (c.counter.toNat + value) (maxVal bits).toNat := by
  have hle := c.toNat_le
  have hdiff := c.diff_eq
  rw [addAssign]
  split
  · rename_i h
    simp only [BitVec.toNat_add, BitVec.toNat_ofNat]
    omega
  · simp only
    omega

theorem isSaturated_iff : c.isSaturated = true ↔ c.diff = 0 := by
  have hle := c.toNat_le
  rw [isSaturated, decide_eq_true_iff, ← BitVec.toNat_inj, diff_eq]
  omega

theorem diff_increment : c.increment.diff = c.diff - 1 := by
  rw [diff_eq, diff_eq, toNat_increment]
  omega

@[simp] theorem addAssign_zero : c.addAssign 0 = c := by
  refine ext_toNat ?_
  rw [toNat_addAssign, Nat.add_zero, Nat.min_eq_left c.toNat_le]

theorem addAssign_increment (value : Nat) : c.increment.addAssign value = c.addAssign (value + 1) := by
  refine ext_toNat ?_
  rw [toNat_addAssign, toNat_addAssign, toNat_increment]
  omega

theorem saturate_addAssign (value : Nat) : c.saturate.2.addAssign value = c.addAssign c.diff := by
  refine ext_toNat ?_
  rw [toNat_addAssign, toNat_addAssign, diff_eq, saturate]
  simp only
  omega

end

end SatCounter

structure BRRIPReplData (bits : Nat) where
  rrpv : SatCounter bits
  valid : Bool

namespace BRRIPRP

/-- There is at least one candidate. -/
abbrev ReplacementCandidates (bits n : Nat) := Vector (BRRIPReplData bits) (n + 1)

variable {bits n : Nat}

def first (n : Nat) : Fin (n + 1) := ⟨0, n.succ_pos⟩

theorem lt_succ (candidate : Fin (n + 1)) : candidate.val < n + 1 := candidate.isLt

/-- The loop over the candidates: an invalid one ends the search. -/
def scan (candidates : ReplacementCandidates bits n) (victim : Fin (n + 1)) (victim_RRPV : BitVec 8) :
    List (Fin (n + 1)) → Except (Fin (n + 1)) (Fin (n + 1))
  | [] => .ok victim
  | candidate :: rest =>
    if (candidates.get candidate).valid = false then .error candidate
    else if victim_RRPV < (candidates.get candidate).rrpv.counter then
      scan candidates candidate (candidates.get candidate).rrpv.counter rest
    else scan candidates victim victim_RRPV rest

/-- Add to the counter of every candidate. -/
def addAll (candidates : ReplacementCandidates bits n) (diff : Nat) : ReplacementCandidates bits n :=
  candidates.map fun data => { data with rrpv := data.rrpv.addAssign diff }

/-- The victim and what becomes of the candidates. -/
def getVictim (candidates : ReplacementCandidates bits n) : Fin (n + 1) × ReplacementCandidates bits n :=
  match scan candidates (first n) (candidates.get (first n)).rrpv.counter (List.finRange (n + 1)) with
  | .error candidate => (candidate, candidates)
  | .ok victim =>
    let (diff, rrpv) := (candidates.get victim).rrpv.saturate
    let candidates := candidates.set victim { candidates.get victim with rrpv := rrpv } (lt_succ victim)
    if 0 < diff then (victim, addAll candidates diff) else (victim, candidates)

/-! ## Counting up -/

/-- Every counter goes up by one. -/
def age (candidates : ReplacementCandidates bits n) : ReplacementCandidates bits n :=
  candidates.map fun data => { data with rrpv := data.rrpv.increment }

def firstSaturated (candidates : ReplacementCandidates bits n) : Option (Fin (n + 1)) :=
  (List.finRange (n + 1)).find? fun i => (candidates.get i).rrpv.isSaturated

def firstInvalid (candidates : ReplacementCandidates bits n) : Option (Fin (n + 1)) :=
  (List.finRange (n + 1)).find? fun i => !(candidates.get i).valid

/-- What candidate `i` lacks to saturation. -/
def lack (candidates : ReplacementCandidates bits n) (i : Fin (n + 1)) : Nat := (candidates.get i).rrpv.diff

theorem lack_age (cs : ReplacementCandidates bits n) (i : Fin (n + 1)) : lack (age cs) i = lack cs i - 1 := by
  have hget : (age cs).get i = { cs.get i with rrpv := (cs.get i).rrpv.increment } := Vector.getElem_map _ i.isLt
  rw [lack, lack, hget, SatCounter.diff_increment]

theorem lack_pos {cs : ReplacementCandidates bits n} (h : firstSaturated cs = none) (i : Fin (n + 1)) :
    0 < lack cs i := by
  have hi := List.find?_eq_none.mp h i (List.mem_finRange i)
  rw [SatCounter.isSaturated_iff] at hi
  exact Nat.pos_of_ne_zero hi

/-- Count up by one until a candidate is saturated, and take the first one that is. -/
def ageing (candidates : ReplacementCandidates bits n) : Fin (n + 1) × ReplacementCandidates bits n :=
  match _h : firstSaturated candidates with
  | some victim => (victim, candidates)
  | none => ageing (age candidates)
  termination_by lack candidates (first n)
  decreasing_by
    have hpos := lack_pos _h (first n)
    rw [lack_age]
    omega

/-- An invalid candidate if there is one, or the first one that saturates. -/
def reference (candidates : ReplacementCandidates bits n) : Fin (n + 1) × ReplacementCandidates bits n :=
  match firstInvalid candidates with
  | some candidate => (candidate, candidates)
  | none => ageing candidates

/-! ## One addition -/

/-- The first candidate that lacks the least. -/
def nearest (cs : ReplacementCandidates bits n) : Fin (n + 1) := firstLeast (lack cs) (List.finRange (n + 1)) (first n)

variable {cs : ReplacementCandidates bits n} {v : Fin (n + 1)}

theorem nearest_spec (cs : ReplacementCandidates bits n) (i : Fin (n + 1)) :
    lack cs (nearest cs) < lack cs i ∨ lack cs (nearest cs) = lack cs i ∧ nearest cs ≤ i := by
  exact firstLeast_spec (lack cs) (pairwise_zero_finRange n) i (List.mem_cons_of_mem _ (List.mem_finRange i))

theorem nearest_age (h : firstSaturated cs = none) : nearest (age cs) = nearest cs := by
  refine firstLeast_congr fun i j => ?_
  have hi := lack_pos h i
  rw [lack_age, lack_age]
  omega

theorem addAll_zero (cs : ReplacementCandidates bits n) : addAll cs 0 = cs := by
  refine Vector.ext fun i hi => ?_
  simp only [addAll, Vector.getElem_map, SatCounter.addAssign_zero]

theorem addAll_age (cs : ReplacementCandidates bits n) (diff : Nat) : addAll (age cs) diff = addAll cs (diff + 1) := by
  refine Vector.ext fun i hi => ?_
  simp only [addAll, age, Vector.getElem_map, SatCounter.addAssign_increment]

/-- The first one that is saturated is the first one that lacks the least, which is nothing. -/
theorem nearest_saturated (h : firstSaturated cs = some v) : nearest cs = v ∧ lack cs v = 0 := by
  obtain ⟨hv, i, hi, heq, hbefore⟩ := List.find?_eq_some_iff_getElem.mp h
  have hzero : lack cs v = 0 := (SatCounter.isSaturated_iff _).mp hv
  refine ⟨eq_of_first_least (nearest_spec cs v) ?_, hzero⟩
  rw [hzero]
  rcases Nat.eq_zero_or_pos (lack cs (nearest cs)) with hnear | hnear
  · -- those before it are not saturated
    refine .inr ⟨hnear.symm, not_lt.mp fun hlt => ?_⟩
    rw [← heq, List.getElem_finRange, Fin.lt_def] at hlt
    have hno := hbefore (nearest cs) hlt
    simp only [List.getElem_finRange, Fin.cast_mk, Fin.eta, Bool.not_eq_true'] at hno
    exact Bool.eq_false_iff.mp hno ((SatCounter.isSaturated_iff _).mpr hnear)
  · exact .inl hnear

theorem ageing_of_some (h : firstSaturated cs = some v) : ageing cs = (v, cs) := by
  rw [ageing]
  split
  · rename_i heq
    rw [h] at heq
    cases heq
    rfl
  · rename_i heq
    rw [h] at heq
    cases heq

theorem ageing_of_none (h : firstSaturated cs = none) : ageing cs = ageing (age cs) := by
  rw [ageing]
  split
  · rename_i heq
    rw [h] at heq
    cases heq
  · rfl

/-- **Counting up is one addition** of what the first of the nearest candidates lacks. -/
theorem ageing_eq (cs : ReplacementCandidates bits n) : ageing cs = (nearest cs, addAll cs (lack cs (nearest cs))) := by
  induction cs using ageing.induct with
  | case1 cs victim h =>
    obtain ⟨hv, hzero⟩ := nearest_saturated h
    rw [ageing_of_some h, hv, hzero, addAll_zero]
  | case2 cs h ih =>
    have hpos := lack_pos h (nearest cs)
    rw [ageing_of_none h, ih, nearest_age h, lack_age, addAll_age, Nat.sub_add_cancel hpos]

/-! ## The search -/

theorem lt_counter_iff (i j : Fin (n + 1)) :
    (cs.get i).rrpv.counter < (cs.get j).rrpv.counter ↔ lack cs j < lack cs i := by
  have hj := (cs.get j).rrpv.toNat_le
  rw [BitVec.lt_def, lack, lack, SatCounter.diff_eq, SatCounter.diff_eq]
  omega

/-- The scan stops at the first invalid candidate, or ends with the first one that lacks the least. -/
theorem scan_eq (cs : ReplacementCandidates bits n) (v : Fin (n + 1)) (l : List (Fin (n + 1))) :
    scan cs v (cs.get v).rrpv.counter l = match l.find? fun i => !(cs.get i).valid with
      | some candidate => .error candidate
      | none => .ok (firstLeast (lack cs) l v) := by
  induction l generalizing v with
  | nil => rfl
  | cons c l ih =>
    rw [scan, List.find?_cons]
    cases hvalid : (cs.get c).valid with
    | false => rfl
    | true =>
      rw [if_neg Bool.true_eq_false.mp]
      rw [firstLeast, List.foldl_cons, if_congr (lt_counter_iff v c) rfl rfl]
      split
      · exact ih c
      · exact ih v

/-- The victim is saturated by the addition too. -/
theorem addAll_saturate (cs : ReplacementCandidates bits n) (v : Fin (n + 1)) :
    addAll (cs.set v { cs.get v with rrpv := (cs.get v).rrpv.saturate.2 } (lt_succ v)) (lack cs v) =
    addAll cs (lack cs v) := by
  refine Vector.ext fun i hi => ?_
  simp only [addAll, Vector.getElem_map, Vector.getElem_set]
  split
  · rename_i heq
    subst heq
    rw [SatCounter.saturate_addAssign]
    rfl
  · rfl

/-- The victim that the scan finds without an invalid candidate. -/
theorem getVictim_of_ok (h : scan cs (first n) (cs.get (first n)).rrpv.counter (List.finRange (n + 1)) = .ok v) :
    getVictim cs = (v, addAll cs (lack cs v)) := by
  rw [getVictim, h]
  have hset := addAll_saturate cs v
  by_cases hdiff : 0 < lack cs v
  · exact (if_pos hdiff).trans (congrArg (Prod.mk v) hset)
  · -- nothing is added, and the victim is saturated already
    rw [Nat.eq_zero_of_not_pos hdiff, addAll_zero, addAll_zero] at hset
    rw [Nat.eq_zero_of_not_pos hdiff, addAll_zero]
    exact (if_neg hdiff).trans (congrArg (Prod.mk v) hset)

/-- **The victim search is the loop that counts up.** -/
theorem getVictim_eq_reference (candidates : ReplacementCandidates bits n) :
    getVictim candidates = reference candidates := by
  have hscan := scan_eq candidates (first n) (List.finRange (n + 1))
  rw [reference, firstInvalid]
  cases hinvalid : (List.finRange (n + 1)).find? fun i => !(candidates.get i).valid with
  | some candidate =>
    rw [hinvalid] at hscan
    rw [getVictim, hscan]
  | none =>
    rw [hinvalid] at hscan
    rw [getVictim_of_ok hscan]
    exact (ageing_eq candidates).symm

end BRRIPRP

end Salam.Replacement
