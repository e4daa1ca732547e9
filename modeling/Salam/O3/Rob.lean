import Mathlib.Algebra.BigOperators.Fin
import Mathlib.Data.List.TakeWhile
import Salam.Lib.System

/-!
# The reorder buffer of the O3 CPU

Each thread has a list of instructions, the oldest first; `head` is the oldest of all. `squash` starts a walk from the
back of the list of its thread, which `doSquash` continues, `squashWidth` instructions at a time.

An iterator is the number of its instruction, or nothing for `end()`. A step on an iterator that has become invalid is
not possible, nor is one that fails an assertion.

* `Rob.Ok`, `Rob.Ok.exec`: the counts and the head.
* `Squashing`: what a walk has done so far. `squash_marks`: the result.
-/

namespace Salam.O3.Reorder

open Function (update_of_ne update_self update)

/-! ## The buffer -/

structure DynInst where
  seqNum : Nat
  squashed : Bool
  canCommit : Bool
  deriving DecidableEq

/-- `setSquashed` and `setCanCommit` -/
def DynInst.drain (i : DynInst) : DynInst := { i with squashed := true, canCommit := true }

structure RobParams (n : Nat) where
  numEntries : Nat
  squashWidth : Nat
  activeThreads : List (Fin n)

structure Rob (n : Nat) where
  instList : Fin n → List DynInst
  threadEntries : Fin n → Nat
  numInstsInROB : Nat
  head : Option Nat
  tail : Option Nat
  squashIt : Fin n → Option Nat
  squashedSeqNum : Fin n → Nat
  doneSquashing : Fin n → Bool

namespace Rob

variable {n : Nat} (c : RobParams n) (s : Rob n) (tid : Fin n)

def resetState : Rob n := ⟨fun _ => [], fun _ => 0, 0, none, none, fun _ => none, fun _ => 0, fun _ => true⟩

/-- A turn of the loops of `updateHead` and `updateTail`: the first instruction, and then each better one. -/
def look (better : Nat → Nat → Bool) (best : Option Nat) : Option DynInst → Option Nat
  | none => best
  | some i => some (best.elim i.seqNum fun b => if better i.seqNum b then i.seqNum else b)

def updateHead : Rob n :=
  { s with head := c.activeThreads.foldl (fun h tid => look (fun i b => i < b) h (s.instList tid).head?) none }

def updateTail : Rob n :=
  { s with tail := c.activeThreads.foldl (fun t tid => look (fun i b => i > b) t (s.instList tid).getLast?) none }

def insertInst (inst : DynInst) : Option (Rob n) :=
  if s.numInstsInROB = c.numEntries then none
  else
    some { s with
      instList := Function.update s.instList tid (s.instList tid ++ [inst])
      head := if s.numInstsInROB = 0 then some inst.seqNum else s.head
      tail := some inst.seqNum
      numInstsInROB := s.numInstsInROB + 1
      threadEntries := Function.update s.threadEntries tid (s.threadEntries tid + 1) }

def retireHead : Option (Rob n) :=
  match s.instList tid with
  | [] => none
  | head_inst :: rest =>
    if 0 < s.numInstsInROB ∧ head_inst.canCommit = true then
      some ({ s with
        instList := Function.update s.instList tid rest
        numInstsInROB := s.numInstsInROB - 1
        threadEntries := Function.update s.threadEntries tid (s.threadEntries tid - 1) }.updateHead c)
    else none

/-- The instructions from an iterator on, backwards, and those after it. -/
def cut (q : Nat) (list : List DynInst) : List DynInst × List DynInst :=
  (list.reverse.dropWhile fun i => i.seqNum ≠ q, (list.reverse.takeWhile fun i => i.seqNum ≠ q).reverse)

/-- The loop of `doSquash`, backwards from the iterator: the instructions that it marks, and those at which it stops.
There are none if it comes to `begin()`. -/
def walk (num : Nat) : Nat → List DynInst → List DynInst × List DynInst
  | 0, it => ([], it)
  | _ + 1, [] => ([], [])
  | width + 1, i :: before =>
    if i.seqNum > num then (i :: (walk num width before).1, (walk num width before).2) else ([], i :: before)

/-- The instruction at which the squash goes on. -/
def stop (num : Nat) : List DynInst → Option Nat
  | [] => none
  | it :: _ => if it.seqNum ≤ num then none else some it.seqNum

/-- The iterator is at an instruction, or at the end with the squash done. -/
def goOn (it : Option Nat) : Rob n :=
  { s with
    squashIt := Function.update s.squashIt tid it
    doneSquashing := if it = none then Function.update s.doneSquashing tid true else s.doneSquashing }

def doSquash : Option (Rob n) :=
  let num := s.squashedSeqNum tid
  match s.squashIt tid with
  | none => none
  | some q =>
    match cut q (s.instList tid) with
    | ([], _) => none
    | (i :: before, after) =>
      if i.seqNum < num then some (s.goOn tid none)
      else
        let r := walk num c.squashWidth (i :: before)
        let s := { s with
          instList := Function.update s.instList tid (r.2.reverse ++ (r.1.reverse.map DynInst.drain ++ after)) }
        let s := s.goOn tid (stop num r.2)
        -- the last instruction of the list was marked, and the walk has not come to `begin()`
        some (if r.1 ≠ [] ∧ r.2 ≠ [] ∧ after = [] then s.updateTail c else s)

def squash (squash_num : Nat) : Option (Rob n) :=
  if s.threadEntries tid = 0 then some s
  else
    let s := { s with
      doneSquashing := Function.update s.doneSquashing tid false
      squashedSeqNum := Function.update s.squashedSeqNum tid squash_num }
    match (s.instList tid).getLast? with
    | none => some s
    | some i => { s with squashIt := Function.update s.squashIt tid (some i.seqNum) }.doSquash c tid

end Rob

/-! ## Runs -/

inductive RobEvent (n : Nat)
  | insertInst (tid : Fin n) (inst : DynInst)
  | retireHead (tid : Fin n)
  | squash (tid : Fin n) (squash_num : Nat)
  | doSquash (tid : Fin n)

def RobEvent.tid {n : Nat} : RobEvent n → Fin n
  | insertInst tid _ | retireHead tid | squash tid _ | doSquash tid => tid

/-- The buffer, with the number of the last instruction. -/
structure RobState (n : Nat) where
  rob : Rob n
  last : Nat

variable {n : Nat}

/-- Instructions come with increasing numbers and into active threads. -/
def RobState.exec (c : RobParams n) (s : RobState n) : RobEvent n → Option (RobState n)
  | .insertInst tid inst =>
    if s.last < inst.seqNum ∧ tid ∈ c.activeThreads then
      (s.rob.insertInst c tid inst).map fun rob => ⟨rob, inst.seqNum⟩
    else none
  | .retireHead tid => (s.rob.retireHead c tid).map fun rob => { s with rob := rob }
  | .squash tid squash_num => (s.rob.squash c tid squash_num).map fun rob => { s with rob := rob }
  | .doSquash tid => (s.rob.doSquash c tid).map fun rob => { s with rob := rob }

def robSystem (c : RobParams n) : System (RobState n) (RobEvent n) where
  init s := s = ⟨.resetState, 0⟩
  step s e := s.exec c e

/-- A squash goes on: `k` calls of `doSquash` for its thread, and any steps of other threads in between. -/
inductive Repeated (c : RobParams n) (tid : Fin n) : Nat → RobState n → RobState n → Prop
  | refl {s : RobState n} : Repeated c tid 0 s s
  | other {k : Nat} {s s' s'' : RobState n} {e : RobEvent n} (h : Repeated c tid k s s') (he : e.tid ≠ tid)
      (hs : s'.exec c e = some s'') : Repeated c tid k s s''
  | again {k : Nat} {s s' s'' : RobState n} (h : Repeated c tid k s s') (hdone : s'.rob.doneSquashing tid = false)
      (hs : s'.exec c (.doSquash tid) = some s'') : Repeated c tid (k + 1) s s''

variable {c : RobParams n} {s s' : Rob n} {tid : Fin n}

/-! ## The head -/

/-- An instruction is in a list and no instruction of the lists is older. -/
def Rob.Oldest (s : Rob n) (h : Nat) : Prop :=
  (∃ tid, ∃ i ∈ s.instList tid, i.seqNum = h) ∧ ∀ tid, ∀ i ∈ s.instList tid, h ≤ i.seqNum

/-- The list of a thread. -/
structure Rob.Thread (c : RobParams n) (last : Nat) (tid : Fin n) (list : List DynInst) : Prop where
  sorted : list.Pairwise fun a b => a.seqNum < b.seqNum
  le_last : ∀ i ∈ list, i.seqNum ≤ last
  active : list ≠ [] → tid ∈ c.activeThreads

structure Rob.Ok (c : RobParams n) (s : Rob n) (last : Nat) : Prop where
  thread : ∀ tid, Thread c last tid (s.instList tid)
  entries : ∀ tid, s.threadEntries tid = (s.instList tid).length
  count : s.numInstsInROB = ∑ tid, (s.instList tid).length
  head : s.numInstsInROB ≠ 0 → ∃ h, s.head = some h ∧ s.Oldest h

namespace Rob

/-- The loop of `updateHead` finds the least of the numbers at the heads. -/
theorem foldl_look_eq (inst : Fin n → Option DynInst) (threads : List (Fin n)) (best : Option Nat) :
    threads.foldl (fun h tid => look (fun i b => i < b) h (inst tid)) best =
      (best.toList ++ threads.filterMap fun tid => (inst tid).map fun i => i.seqNum).min? := by
  induction threads generalizing best with
  | nil => cases best <;> rfl
  | cons tid threads ih =>
    rw [List.foldl_cons, ih, List.filterMap_cons]
    cases hi : inst tid with
    | none => rfl
    | some i =>
      cases best with
      | none => rfl
      | some b =>
        have hmin : (if i.seqNum < b then i.seqNum else b) = min b i.seqNum := by
          split
          · omega
          · omega
        simp only [look, Option.elim_some, decide_eq_true_eq, Option.toList_some, List.singleton_append,
          List.min?_cons', Option.map_some, List.foldl_cons, hmin]

variable {last : Nat}

/-- The oldest of the heads is the oldest instruction. -/
theorem updateHead_oldest (hthread : ∀ tid, Thread c last tid (s.instList tid)) (hne : ∃ tid, s.instList tid ≠ []) :
    ∃ h, (s.updateHead c).head = some h ∧ s.Oldest h := by
  have hmem {tid : Fin n} {i : DynInst} {rest : List DynInst} (hlist : s.instList tid = i :: rest) :
      i.seqNum ∈ c.activeThreads.filterMap fun tid => (s.instList tid).head?.map fun i => i.seqNum := by
    refine List.mem_filterMap.mpr ⟨tid, (hthread tid).active ?_, by rw [hlist]; rfl⟩
    rw [hlist]
    exact List.cons_ne_nil _ _
  have hhead : (s.updateHead c).head = (c.activeThreads.filterMap fun tid =>
      (s.instList tid).head?.map fun i => i.seqNum).min? := foldl_look_eq _ _ none
  obtain ⟨tid, hne⟩ := hne
  obtain ⟨i, rest, hlist⟩ := List.exists_cons_of_ne_nil hne
  obtain ⟨h, hmin⟩ := Option.isSome_iff_exists.mp (List.isSome_min?_of_mem (hmem hlist))
  obtain ⟨hin, hle⟩ := List.min?_eq_some_iff.mp hmin
  refine ⟨h, hhead.trans hmin, ?_, fun t j hj => ?_⟩
  · obtain ⟨t, -, ht⟩ := List.mem_filterMap.mp hin
    obtain ⟨j, hj, rfl⟩ := Option.map_eq_some_iff.mp ht
    exact ⟨t, j, List.mem_of_head? hj, rfl⟩
  · cases ht : s.instList t with
    | nil =>
      rw [ht] at hj
      cases hj
    | cons j₀ rest =>
      have hfirst := hle _ (hmem ht)
      have hpair := (hthread t).sorted
      rw [ht] at hj hpair
      obtain rfl | hj := List.mem_cons.mp hj
      · exact hfirst
      · exact Nat.le_trans hfirst (Nat.le_of_lt ((List.pairwise_cons.mp hpair).1 j hj))

/-- A list changes: the numbers at the other threads stay. -/
theorem sum_update (f : Fin n → List DynInst) (tid : Fin n) (list : List DynInst) :
    ∑ t, (update f tid list t).length + (f tid).length = ∑ t, (f t).length + list.length := by
  rw [← Finset.add_sum_erase _ _ (Finset.mem_univ tid), ← Finset.add_sum_erase (a := tid) _ _ (Finset.mem_univ tid),
    update_self]
  have hrest : ∑ t ∈ Finset.univ.erase tid, (update f tid list t).length =
      ∑ t ∈ Finset.univ.erase tid, (f t).length :=
    Finset.sum_congr rfl fun t ht => by rw [update_of_ne (Finset.ne_of_mem_erase ht)]
  omega

theorem count_ne_zero {f : Fin n → List DynInst} : ∑ t, (f t).length ≠ 0 ↔ ∃ t, f t ≠ [] := by
  rw [Ne, Finset.sum_eq_zero_iff, not_forall]
  simp

theorem mem_update {f : Fin n → List DynInst} {list : List DynInst} {t : Fin n} {i : DynInst} :
    i ∈ update f tid list t ↔ t = tid ∧ i ∈ list ∨ t ≠ tid ∧ i ∈ f t := by
  by_cases ht : t = tid
  · simp [ht]
  · simp [ht]

theorem Ok.entries_update (h : s.Ok c last) {list : List DynInst} {k : Nat} (hk : k = list.length) (t : Fin n) :
    update s.threadEntries tid k t = (update s.instList tid list t).length := by
  by_cases ht : t = tid
  · simp [ht, hk]
  · simp [ht, h.entries]

theorem Ok.insertInst (h : s.Ok c last) {inst : DynInst} (hlast : last < inst.seqNum) (hactive : tid ∈ c.activeThreads)
    (hs : s.insertInst c tid inst = some s') : s'.Ok c inst.seqNum := by
  obtain ⟨-, hs⟩ := Option.ite_none_left_eq_some.mp hs
  obtain rfl := Option.some.inj hs
  have hsum := sum_update s.instList tid (s.instList tid ++ [inst])
  have hcount := h.count
  have hlt (t : Fin n) (i : DynInst) (hi : i ∈ s.instList t) : i.seqNum < inst.seqNum :=
    Nat.lt_of_le_of_lt ((h.thread t).le_last i hi) hlast
  refine ⟨(Function.forall_update_iff s.instList _).mpr ⟨⟨?_, fun i hi => ?_, fun _ => hactive⟩, fun t _ => ?_⟩,
    h.entries_update (by simp [h.entries]), ?_, fun _ => ?_⟩
  · refine List.pairwise_append.mpr ⟨(h.thread tid).sorted, List.pairwise_singleton _ _, fun i hi j hj => ?_⟩
    rw [List.mem_singleton.mp hj]
    exact hlt tid i hi
  · obtain hi | hi := List.mem_append.mp hi
    · exact Nat.le_of_lt (hlt tid i hi)
    · rw [List.mem_singleton.mp hi]
  · exact ⟨(h.thread t).sorted, fun i hi => Nat.le_of_lt (hlt t i hi), (h.thread t).active⟩
  · rw [List.length_append, List.length_singleton] at hsum
    show s.numInstsInROB + 1 = ∑ t, (update s.instList tid (s.instList tid ++ [inst]) t).length
    omega
  · have hin (t : Fin n) (i : DynInst) : i ∈ update s.instList tid (s.instList tid ++ [inst]) t ↔
        i ∈ s.instList t ∨ t = tid ∧ i = inst := by
      rw [mem_update, List.mem_append, List.mem_singleton]
      by_cases ht : t = tid
      · simp [ht]
      · simp [ht]
    obtain ⟨first, hfirst, hmem, hleast⟩ : ∃ first,
        (if s.numInstsInROB = 0 then some inst.seqNum else s.head) = some first ∧
        (first = inst.seqNum ∨ ∃ t, ∃ i ∈ s.instList t, i.seqNum = first) ∧
          first ≤ inst.seqNum ∧ ∀ t, ∀ i ∈ s.instList t, first ≤ i.seqNum := by
      by_cases hzero : s.numInstsInROB = 0
      · refine ⟨inst.seqNum, if_pos hzero, .inl rfl, Nat.le_refl _, fun t i hi => ?_⟩
        exact absurd (hcount ▸ hzero) (count_ne_zero.mpr ⟨t, List.ne_nil_of_mem hi⟩)
      · obtain ⟨first, hhead, ⟨t, i, hi, heq⟩, hleast⟩ := h.head hzero
        exact ⟨first, (if_neg hzero).trans hhead, .inr ⟨t, i, hi, heq⟩, heq ▸ Nat.le_of_lt (hlt t i hi), hleast⟩
    refine ⟨first, hfirst, ?_, fun t i hi => ?_⟩
    · obtain rfl | ⟨t, i, hi, heq⟩ := hmem
      · exact ⟨tid, inst, (hin _ _).mpr (.inr ⟨rfl, rfl⟩), rfl⟩
      · exact ⟨t, i, (hin _ _).mpr (.inl hi), heq⟩
    · obtain hi | ⟨-, rfl⟩ := (hin t i).mp hi
      · exact hleast.2 t i hi
      · exact hleast.1

theorem Ok.retireHead (h : s.Ok c last) (hs : s.retireHead c tid = some s') : s'.Ok c last := by
  unfold Rob.retireHead at hs
  split at hs
  · cases hs
  · rename_i head_inst rest hlist
    obtain ⟨-, hs⟩ := Option.ite_none_right_eq_some.mp hs
    obtain rfl := Option.some.inj hs
    have hsum := sum_update s.instList tid rest
    have hcount := h.count
    rw [hlist, List.length_cons] at hsum
    have hthread : ∀ t, Thread c last t (update s.instList tid rest t) := by
      have hold := h.thread tid
      rw [hlist] at hold
      refine (Function.forall_update_iff s.instList _).mpr ⟨⟨(List.pairwise_cons.mp hold.sorted).2, fun i hi => ?_,
        fun _ => hold.active (List.cons_ne_nil _ _)⟩, fun t _ => h.thread t⟩
      exact hold.le_last i (List.mem_cons_of_mem _ hi)
    have hnum : s.numInstsInROB - 1 = ∑ t, (update s.instList tid rest t).length := by omega
    refine ⟨hthread, h.entries_update (by simp [h.entries, hlist]), hnum, fun hne => ?_⟩
    exact updateHead_oldest hthread (count_ne_zero.mp (hnum ▸ hne))

/-- What a thread has stays. -/
structure Apart (t : Fin n) (s s' : Rob n) : Prop where
  instList : s'.instList t = s.instList t
  squashIt : s'.squashIt t = s.squashIt t
  squashedSeqNum : s'.squashedSeqNum t = s.squashedSeqNum t
  doneSquashing : s'.doneSquashing t = s.doneSquashing t

/-- A step of the squash of a thread: the numbers, the counts and the head stay, and so does all that other threads
have. -/
structure Quiet (tid : Fin n) (s s' : Rob n) : Prop where
  numbers : ∀ t, (s'.instList t).map (·.seqNum) = (s.instList t).map (·.seqNum)
  counts : s'.threadEntries = s.threadEntries ∧ s'.numInstsInROB = s.numInstsInROB ∧ s'.head = s.head
  other : ∀ t ≠ tid, Apart t s s'

theorem Thread.of_numbers {l l' : List DynInst} (h : Thread c last tid l) (hl : l'.map (·.seqNum) = l.map (·.seqNum)) :
    Thread c last tid l' := by
  refine ⟨?_, fun i hi => ?_, fun hne => h.active fun hnil => hne ?_⟩
  · have hsorted := List.pairwise_map.mpr h.sorted
    rw [← hl] at hsorted
    exact List.pairwise_map.mp hsorted
  · have hmem : i.seqNum ∈ l.map (·.seqNum) := hl ▸ List.mem_map_of_mem hi
    obtain ⟨j, hj, heq⟩ := List.mem_map.mp hmem
    exact heq ▸ h.le_last j hj
  · rw [hnil] at hl
    exact List.map_eq_nil_iff.mp hl

theorem Ok.quiet (h : s.Ok c last) (hq : Quiet tid s s') : s'.Ok c last := by
  obtain ⟨hentries, hnum, hhead⟩ := hq.counts
  have hlen (t : Fin n) : (s'.instList t).length = (s.instList t).length := by
    simpa using congrArg List.length (hq.numbers t)
  have hmem {t : Fin n} {k : Nat} : (∃ i ∈ s'.instList t, i.seqNum = k) ↔ ∃ i ∈ s.instList t, i.seqNum = k := by
    rw [← List.mem_map, ← List.mem_map, hq.numbers]
  refine ⟨fun t => (h.thread t).of_numbers (hq.numbers t), fun t => by rw [hentries, hlen, h.entries], ?_,
    fun hne => ?_⟩
  · rw [hnum, h.count]
    exact Finset.sum_congr rfl fun t _ => (hlen t).symm
  · obtain ⟨first, hfirst, ⟨t, hin⟩, hleast⟩ := h.head (hnum ▸ hne)
    refine ⟨first, hhead.trans hfirst, ⟨t, hmem.mpr hin⟩, fun t i hi => ?_⟩
    obtain ⟨j, hj, heq⟩ := hmem.mp ⟨i, hi, rfl⟩
    exact heq ▸ hleast t j hj

/-! ## The walk -/

theorem walk_append (num : Nat) : ∀ (width : Nat) (it : List DynInst),
    (walk num width it).1 ++ (walk num width it).2 = it
  | 0, _ => rfl
  | _ + 1, [] => rfl
  | width + 1, i :: before => by
    rw [walk]
    split
    · exact congrArg (i :: ·) (walk_append num width before)
    · rfl

theorem lt_of_mem_walk (num : Nat) : ∀ (width : Nat) (it : List DynInst), ∀ i ∈ (walk num width it).1, num < i.seqNum
  | 0, _, _, hi => nomatch hi
  | _ + 1, [], _, hi => nomatch hi
  | width + 1, j :: before, i, hi => by
    rw [walk] at hi
    split at hi
    · rename_i hlt
      obtain rfl | hi := List.mem_cons.mp hi
      · exact hlt
      · exact lt_of_mem_walk num width before i hi
    · cases hi

theorem cut_append (q : Nat) (list : List DynInst) : (cut q list).1.reverse ++ (cut q list).2 = list := by
  rw [cut, ← List.reverse_append, List.takeWhile_append_dropWhile, List.reverse_reverse]

theorem cut_eq {a b : List DynInst} {x : DynInst} (hb : ∀ i ∈ b, i.seqNum ≠ x.seqNum) :
    cut x.seqNum (a ++ x :: b) = (x :: a.reverse, b) := by
  have hskip : ∀ i ∈ b.reverse, decide (i.seqNum ≠ x.seqNum) = true :=
    fun i hi => decide_eq_true (hb i (List.mem_reverse.mp hi))
  rw [cut, List.reverse_append, List.reverse_cons, List.append_assoc, List.singleton_append,
    List.dropWhile_append_of_pos hskip, List.takeWhile_append_of_pos hskip, List.dropWhile_cons_of_neg (by simp),
    List.takeWhile_cons_of_neg (by simp), List.append_nil, List.reverse_reverse]

theorem goOn_apart {t : Fin n} (ht : t ≠ tid) (q : Option Nat) : Apart t s (s.goOn tid q) := by
  refine ⟨rfl, update_of_ne ht _ _, rfl, ?_⟩
  unfold goOn
  dsimp only
  split
  · exact update_of_ne ht _ _
  · rfl

/-- What `doSquash` does at an instruction. -/
theorem doSquash_eq {q : Nat} {i : DynInst} {before after : List DynInst} (hq : s.squashIt tid = some q)
    (hcut : cut q (s.instList tid) = (i :: before, after)) {r : List DynInst × List DynInst}
    (hr : walk (s.squashedSeqNum tid) c.squashWidth (i :: before) = r) : ∃ s', s.doSquash c tid = some s' ∧
      (i.seqNum < s.squashedSeqNum tid ∧ s' = s.goOn tid none ∨
        ¬ i.seqNum < s.squashedSeqNum tid ∧ ∃ tail, s' = { ({ s with
          instList := update s.instList tid (r.2.reverse ++ (r.1.reverse.map DynInst.drain ++ after)) } :
            Rob n).goOn tid (stop (s.squashedSeqNum tid) r.2) with tail := tail }) := by
  unfold doSquash
  simp only [hq, hcut, hr]
  by_cases hlt : i.seqNum < s.squashedSeqNum tid
  · exact ⟨_, if_pos hlt, .inl ⟨hlt, rfl⟩⟩
  · rw [if_neg hlt]
    refine ⟨_, rfl, .inr ⟨hlt, ?_⟩⟩
    split
    · exact ⟨_, rfl⟩
    · exact ⟨_, rfl⟩

theorem doSquash_quiet (hs : s.doSquash c tid = some s') : Quiet tid s s' := by
  have hat : ∃ q i before after, s.squashIt tid = some q ∧ cut q (s.instList tid) = (i :: before, after) := by
    unfold doSquash at hs
    dsimp only at hs
    split at hs
    · cases hs
    · rename_i q hq
      split at hs
      · cases hs
      · rename_i i before after hcut
        exact ⟨q, i, before, after, hq, hcut⟩
  obtain ⟨q, i, before, after, hq, hcut⟩ := hat
  obtain ⟨r, hr⟩ : ∃ r, walk (s.squashedSeqNum tid) c.squashWidth (i :: before) = r := ⟨_, rfl⟩
  obtain ⟨s₁, hs₁, hcases⟩ := doSquash_eq hq hcut hr
  obtain rfl := Option.some.inj (hs.symm.trans hs₁)
  obtain ⟨-, rfl⟩ | ⟨-, tail, rfl⟩ := hcases
  · exact ⟨fun _ => rfl, ⟨rfl, rfl, rfl⟩, fun t ht => goOn_apart ht none⟩
  · have hlist := cut_append q (s.instList tid)
    rw [hcut, ← walk_append (s.squashedSeqNum tid) c.squashWidth (i :: before), hr, List.reverse_append] at hlist
    refine ⟨fun t => ?_, ⟨rfl, rfl, rfl⟩, fun t ht => ?_⟩
    · show (update s.instList tid _ t).map _ = _
      by_cases ht : t = tid
      · rw [ht, update_self, ← hlist]
        simp [DynInst.drain, Function.comp_def]
      · rw [update_of_ne ht]
    · obtain ⟨-, h₂, h₃, h₄⟩ := goOn_apart (s := s) ht (stop (s.squashedSeqNum tid) r.2)
      exact ⟨update_of_ne ht _ _, h₂, h₃, h₄⟩

/-- The walk starts at the last instruction. -/
theorem squash_eq (h : s.Ok c last) {a : List DynInst} {x : DynInst} (hlist : s.instList tid = a ++ [x]) (num : Nat) :
    s.squash c tid num = ({ s with
      doneSquashing := update s.doneSquashing tid false
      squashedSeqNum := update s.squashedSeqNum tid num
      squashIt := update s.squashIt tid (some x.seqNum) } : Rob n).doSquash c tid := by
  rw [squash, if_neg (by rw [h.entries, hlist]; simp)]
  simp [hlist]

theorem squash_quiet (h : s.Ok c last) {num : Nat} (hs : s.squash c tid num = some s') : Quiet tid s s' := by
  obtain hnil | ⟨a, x, hlist⟩ := List.eq_nil_or_concat' (s.instList tid)
  · rw [squash, if_pos (by rw [h.entries, hnil]; rfl)] at hs
    obtain rfl := Option.some.inj hs
    exact ⟨fun _ => rfl, ⟨rfl, rfl, rfl⟩, fun _ _ => ⟨rfl, rfl, rfl, rfl⟩⟩
  · rw [squash_eq h hlist] at hs
    obtain ⟨hnumbers, hcounts, hother⟩ := doSquash_quiet hs
    refine ⟨hnumbers, hcounts, fun t ht => ?_⟩
    obtain ⟨h₁, h₂, h₃, h₄⟩ := hother t ht
    exact ⟨h₁, h₂.trans (update_of_ne ht _ _), h₃.trans (update_of_ne ht _ _),
      h₄.trans (update_of_ne ht _ _)⟩

end Rob

/-- The invariant in every run. -/
theorem Rob.Ok.exec {s s' : RobState n} {e : RobEvent n} (h : s.rob.Ok c s.last) (hs : s.exec c e = some s') :
    s'.rob.Ok c s'.last := by
  cases e with
  | insertInst tid inst =>
    obtain ⟨⟨hlast, hactive⟩, hs⟩ := Option.ite_none_right_eq_some.mp hs
    obtain ⟨rob, hrob, rfl⟩ := Option.map_eq_some_iff.mp hs
    exact h.insertInst hlast hactive hrob
  | retireHead tid =>
    obtain ⟨rob, hrob, rfl⟩ := Option.map_eq_some_iff.mp hs
    exact h.retireHead hrob
  | squash tid num =>
    obtain ⟨rob, hrob, rfl⟩ := Option.map_eq_some_iff.mp hs
    exact h.quiet (Rob.squash_quiet h hrob)
  | doSquash tid =>
    obtain ⟨rob, hrob, rfl⟩ := Option.map_eq_some_iff.mp hs
    exact h.quiet (Rob.doSquash_quiet hrob)

/-- A step of another thread. -/
theorem RobState.apart {s s' : RobState n} {e : RobEvent n} (h : s.rob.Ok c s.last)
    (hs : s.exec c e = some s') {t : Fin n}
    (ht : t ≠ e.tid) : Rob.Apart t s.rob s'.rob := by
  cases e with
  | insertInst tid inst =>
    obtain ⟨-, hs⟩ := Option.ite_none_right_eq_some.mp hs
    obtain ⟨rob, hrob, rfl⟩ := Option.map_eq_some_iff.mp hs
    obtain ⟨-, hrob⟩ := Option.ite_none_left_eq_some.mp hrob
    obtain rfl := Option.some.inj hrob
    exact ⟨update_of_ne ht _ _, rfl, rfl, rfl⟩
  | retireHead tid =>
    obtain ⟨rob, hrob, rfl⟩ := Option.map_eq_some_iff.mp hs
    unfold Rob.retireHead at hrob
    split at hrob
    · cases hrob
    · obtain ⟨-, hrob⟩ := Option.ite_none_right_eq_some.mp hrob
      obtain rfl := Option.some.inj hrob
      exact ⟨update_of_ne ht _ _, rfl, rfl, rfl⟩
  | squash tid num =>
    obtain ⟨rob, hrob, rfl⟩ := Option.map_eq_some_iff.mp hs
    exact (Rob.squash_quiet h hrob).other t ht
  | doSquash tid =>
    obtain ⟨rob, hrob, rfl⟩ := Option.map_eq_some_iff.mp hs
    exact (Rob.doSquash_quiet hrob).other t ht

/-! ## The squash of a thread -/

/-- What a squash makes of an instruction. -/
def squashed (num : Nat) (i : DynInst) : DynInst := if num < i.seqNum then i.drain else i

namespace Rob

/-- The walk is at `x`: the instructions after it are marked, those before it are not. -/
structure Walking (num : Nat) (list : List DynInst) (tid : Fin n) (s : Rob n) (a : List DynInst) (x : DynInst)
    (b : List DynInst) : Prop where
  list : list = a ++ x :: b
  instList : s.instList tid = a ++ x :: b.map DynInst.drain
  squashIt : s.squashIt tid = some x.seqNum
  squashedSeqNum : s.squashedSeqNum tid = num
  doneSquashing : s.doneSquashing tid = false
  younger : ∀ i ∈ b, num < i.seqNum

/-- What a squash has done after `k` calls: all of it, or the walk goes on. -/
def Squashing (num : Nat) (list : List DynInst) (tid : Fin n) (s : Rob n) (k : Nat) : Prop :=
  (s.doneSquashing tid = true ∧ s.instList tid = list.map (squashed num) ∧ k ≤ list.length) ∨
    ∃ a x b, Walking num list tid s a x b ∧ k + a.length < list.length

theorem le_of_walk_nil {num width : Nat} (i : DynInst) (before : List DynInst) (hwidth : 0 < width)
    (h : (walk num width (i :: before)).1 = []) : i.seqNum ≤ num := by
  obtain ⟨w, rfl⟩ := Nat.exists_eq_succ_of_ne_zero hwidth.ne'
  rw [walk] at h
  split at h
  · cases h
  · omega

theorem squashed_append {num : Nat} {l l' : List DynInst} (hold : ∀ i ∈ l, i.seqNum ≤ num)
    (hnew : ∀ i ∈ l', num < i.seqNum) : (l ++ l').map (squashed num) = l ++ l'.map DynInst.drain := by
  have hleft : l.map (squashed num) = l.map id := List.map_congr_left fun i hi => if_neg (Nat.not_lt.mpr (hold i hi))
  have hright : l'.map (squashed num) = l'.map DynInst.drain := List.map_congr_left fun i hi => if_pos (hnew i hi)
  rw [List.map_append, hleft, List.map_id, hright]

/-- **One call** of `doSquash` marks the next instructions, and is the last one or leaves fewer. -/
theorem Walking.step {num k : Nat} {list a b : List DynInst} {x : DynInst} (hw : Walking num list tid s a x b)
    (hwidth : 0 < c.squashWidth) (hsorted : list.Pairwise fun a b => a.seqNum < b.seqNum)
      (hk : k + a.length < list.length) :
    ∃ s', s.doSquash c tid = some s' ∧ Squashing num list tid s' (k + 1) := by
  obtain ⟨rfl, hlist, hit, hnum, hdone, hyounger⟩ := hw
  obtain ⟨-, hxb, hcross⟩ := List.pairwise_append.mp hsorted
  obtain ⟨hx, hb⟩ := List.pairwise_cons.mp hxb
  have hcut : cut x.seqNum (s.instList tid) = (x :: a.reverse, b.map DynInst.drain) := by
    rw [hlist]
    refine cut_eq fun i hi => ?_
    obtain ⟨j, hj, rfl⟩ := List.mem_map.mp hi
    exact (Nat.ne_of_lt (hx j hj)).symm
  have happ := walk_append num c.squashWidth (x :: a.reverse)
  have hmarked := lt_of_mem_walk num c.squashWidth (x :: a.reverse)
  have hfirst := @le_of_walk_nil num _ x a.reverse hwidth
  obtain ⟨r, hr⟩ : ∃ r, walk num c.squashWidth (x :: a.reverse) = r := ⟨_, rfl⟩
  rw [hr] at happ hmarked hfirst
  obtain ⟨s', hs', hcases⟩ := doSquash_eq hit hcut (hnum ▸ hr)
  refine ⟨s', hs', ?_⟩
  rw [hnum] at hcases
  obtain ⟨hlt, rfl⟩ | ⟨-, tail, rfl⟩ := hcases
  · -- the walk starts below the squash point
    refine .inl ⟨by simp [goOn], ?_, by omega⟩
    show s.instList tid = _
    rw [hlist, List.append_cons, List.append_cons a x b, squashed_append _ hyounger]
    intro i hi
    obtain hi | hi := List.mem_append.mp hi
    · exact Nat.le_of_lt (Nat.lt_trans (hcross i hi x List.mem_cons_self) hlt)
    · rw [List.mem_singleton.mp hi]
      exact Nat.le_of_lt hlt
  · have hparts : a ++ x :: b = r.2.reverse ++ (r.1.reverse ++ b) := by
      have hrev := congrArg List.reverse happ
      rw [List.reverse_append, List.reverse_cons, List.reverse_reverse] at hrev
      rw [List.append_cons, ← hrev, List.append_assoc]
    have hnew : ∀ i ∈ r.1.reverse ++ b, num < i.seqNum := fun i hi => (List.mem_append.mp hi).elim
      (fun hi => hmarked i (List.mem_reverse.mp hi)) (hyounger i)
    have hupdate : update s.instList tid (r.2.reverse ++ (r.1.reverse.map DynInst.drain ++ b.map DynInst.drain)) tid =
        r.2.reverse ++ (r.1.reverse ++ b).map DynInst.drain := by
      rw [update_self, List.map_append]
    rw [hparts] at hsorted hk ⊢
    -- the walk is over, or at an instruction that is younger than the squash point
    obtain ⟨hstop, hold⟩ | ⟨y, rest, hr, hy⟩ : (stop num r.2 = none ∧ ∀ i ∈ r.2.reverse, i.seqNum ≤ num) ∨
        ∃ y rest, r.2 = y :: rest ∧ num < y.seqNum := by
      cases hr : r.2 with
      | nil => exact .inl ⟨rfl, fun _ hi => nomatch hi⟩
      | cons y rest =>
        by_cases hy : y.seqNum ≤ num
        · refine .inl ⟨if_pos hy, fun i hi => ?_⟩
          rw [hr, List.reverse_cons] at hsorted
          rw [List.reverse_cons] at hi
          obtain hi | hi := List.mem_append.mp hi
          · have hpair := (List.pairwise_append.mp (List.pairwise_append.mp hsorted).1).2.2 i hi y
              (List.mem_singleton_self y)
            omega
          · rwa [List.mem_singleton.mp hi]
        · exact .inr ⟨y, rest, rfl, Nat.not_le.mp hy⟩
    · refine .inl ⟨?_, hupdate.trans (squashed_append hold hnew).symm, by omega⟩
      show (if stop num r.2 = none then update s.doneSquashing tid true else s.doneSquashing) tid = true
      rw [if_pos hstop, update_self]
    · have hstop : stop num r.2 = some y.seqNum := by
        rw [hr]
        exact if_neg (Nat.not_le.mpr hy)
      have hone : r.1 ≠ [] := fun hnil => by
        rw [hnil, hr] at happ
        have hxy : x = y := (List.cons_eq_cons.mp happ).1.symm
        have := hfirst hnil
        rw [hxy] at this
        omega
      have hlen := congrArg List.length happ
      have hpos := List.length_pos_of_ne_nil hone
      have hcons (l : List DynInst) : (y :: rest).reverse ++ l = rest.reverse ++ y :: l := by
        rw [List.reverse_cons, List.append_assoc, List.singleton_append]
      rw [hr] at hupdate hlen hk ⊢
      refine .inr ⟨rest.reverse, y, r.1.reverse ++ b, ⟨hcons _, hupdate.trans (hcons _), ?_, hnum, ?_, hnew⟩, ?_⟩
      · rw [← hr, hstop]
        exact update_self ..
      · show (if stop num (y :: rest) = none then update s.doneSquashing tid true else s.doneSquashing) tid = false
        rw [← hr, hstop, if_neg (Option.some_ne_none _)]
        exact hdone
      · simp only [List.length_append, List.length_cons, List.length_reverse] at hlen hk ⊢
        omega

theorem Squashing.apart {num k : Nat} {list : List DynInst} (h : Squashing num list tid s k) (ha : Apart tid s s') :
    Squashing num list tid s' k := by
  obtain ⟨hdone, hlist, hk⟩ | ⟨a, x, b, hw, hk⟩ := h
  · exact .inl ⟨ha.doneSquashing.trans hdone, ha.instList.trans hlist, hk⟩
  · exact .inr ⟨a, x, b, ⟨hw.list, ha.instList.trans hw.instList, ha.squashIt.trans hw.squashIt,
      ha.squashedSeqNum.trans hw.squashedSeqNum, ha.doneSquashing.trans hw.doneSquashing, hw.younger⟩, hk⟩

end Rob

/-- The invariant of a squash that goes on. -/
theorem Repeated.squashing {num : Nat} {list : List DynInst} {k : Nat} {s₁ s₂ : RobState n} (h : Repeated c tid k s₁ s₂)
    (hwidth : 0 < c.squashWidth) (hsorted : list.Pairwise fun a b => a.seqNum < b.seqNum) (hok : s₁.rob.Ok c s₁.last)
    (hs : s₁.rob.Squashing num list tid 1) : s₂.rob.Ok c s₂.last ∧ s₂.rob.Squashing num list tid (k + 1) := by
  induction h with
  | refl => exact ⟨hok, hs⟩
  | other h he hstep ih =>
    obtain ⟨hok, hsquashing⟩ := ih hok hs
    exact ⟨hok.exec hstep, hsquashing.apart (RobState.apart hok hstep he.symm)⟩
  | again h hdone hstep ih =>
    obtain ⟨hok, hsquashing⟩ := ih hok hs
    refine ⟨hok.exec hstep, ?_⟩
    obtain ⟨hd, -⟩ | ⟨a, x, b, hw, hk⟩ := hsquashing
    · rw [hdone] at hd
      cases hd
    · obtain ⟨rob, hrob, hnext⟩ := hw.step hwidth hsorted hk
      obtain ⟨rob', hrob', rfl⟩ := Option.map_eq_some_iff.mp hstep
      obtain rfl := Option.some.inj (hrob.symm.trans hrob')
      exact hnext

/-- A squash of a thread with instructions is possible, and is done after at most as many calls as the thread has
instructions, whatever other threads do in between. It has then marked the instructions that are younger than the squash
point, and no other. -/
def Marks (c : RobParams n) (s : RobState n) (tid : Fin n) (num : Nat) : Prop :=
  ∃ s₁, s.exec c (.squash tid num) = some s₁ ∧ (∀ t ≠ tid, s₁.rob.instList t = s.rob.instList t) ∧
    ∀ k s₂, Repeated c tid k s₁ s₂ → k + 1 ≤ (s.rob.instList tid).length ∧
      (s₂.rob.doneSquashing tid = true → s₂.rob.instList tid = (s.rob.instList tid).map (squashed num)) ∧
      (s₂.rob.doneSquashing tid = false → ∃ s₃, s₂.exec c (.doSquash tid) = some s₃ ∧
        ∀ t ≠ tid, s₃.rob.instList t = s₂.rob.instList t)

/-- **The squash of a thread**, in every run: the number of instructions and the head are right, and every squash marks
what it has to mark. -/
theorem squash_marks (hwidth : 0 < c.squashWidth) {s : RobState n} (h : (robSystem c).Reachable s) :
    s.rob.numInstsInROB = ∑ t, (s.rob.instList t).length ∧
    (s.rob.numInstsInROB ≠ 0 → ∃ h, s.rob.head = some h ∧ s.rob.Oldest h) ∧
    ∀ tid num, s.rob.instList tid ≠ [] → Marks c s tid num := by
  have hok : s.rob.Ok c s.last := System.invariantWhen (I := fun s : RobState n => s.rob.Ok c s.last)
    (fun s hs => by
      obtain rfl : s = ⟨.resetState, 0⟩ := hs
      exact ⟨fun _ => ⟨.nil, (fun _ hi => nomatch hi), fun hne => absurd rfl hne⟩,
        fun _ => rfl, by simp [Rob.resetState], fun hne => absurd rfl hne⟩)
    (fun s e s' _ hI _ hs => hI.exec hs) h
  refine ⟨hok.count, hok.head, fun tid num hne => ?_⟩
  obtain hnil | ⟨a, x, hlist⟩ := List.eq_nil_or_concat' (s.rob.instList tid)
  · exact absurd hnil hne
  have hsorted := (hok.thread tid).sorted
  have hstart : Rob.Walking num (s.rob.instList tid) tid { s.rob with
      doneSquashing := Function.update s.rob.doneSquashing tid false
      squashedSeqNum := Function.update s.rob.squashedSeqNum tid num
      squashIt := Function.update s.rob.squashIt tid (some x.seqNum) } a x [] :=
    ⟨hlist, hlist, Function.update_self .., Function.update_self .., Function.update_self .., fun _ hi => nomatch hi⟩
  obtain ⟨rob, hrob, hfirst⟩ := hstart.step (k := 0) hwidth hsorted (by rw [hlist]; simp)
  have hsquash : s.rob.squash c tid num = some rob := (Rob.squash_eq hok hlist num).trans hrob
  have hquiet := Rob.squash_quiet hok hsquash
  refine ⟨{ s with rob := rob }, by rw [RobState.exec, hsquash]; rfl, fun t ht => (hquiet.other t ht).instList,
    fun k s₂ hrun => ?_⟩
  obtain ⟨hok₂, hsquashing⟩ := hrun.squashing hwidth hsorted (hok.quiet hquiet) hfirst
  obtain ⟨hdone, hmarked, hk⟩ | ⟨a', x', b', hw, hk⟩ := hsquashing
  · exact ⟨hk, fun _ => hmarked, fun hnot => absurd (hdone.symm.trans hnot) Bool.noConfusion⟩
  · refine ⟨by omega, fun hdone => absurd (hdone.symm.trans hw.doneSquashing) Bool.noConfusion, fun _ => ?_⟩
    obtain ⟨rob₃, hrob₃, -⟩ := hw.step hwidth hsorted hk
    exact ⟨{ s₂ with rob := rob₃ }, by rw [RobState.exec, hrob₃]; rfl,
      fun t ht => ((Rob.doSquash_quiet hrob₃).other t ht).instList⟩

/-- Two threads, and two instructions at a time. -/
def twoThreads : RobParams 2 := ⟨8, 2, [0, 1]⟩

/-- Three of the four instructions of a thread are squashed. -/
theorem squash_marks_three : ∃ s, (robSystem twoThreads).Reachable s ∧
    (s.rob.instList 0).map (fun i => i.seqNum) = [1, 2, 4, 5] ∧
    s.rob.numInstsInROB = ∑ t, (s.rob.instList t).length ∧
    (s.rob.numInstsInROB ≠ 0 → ∃ h, s.rob.head = some h ∧ s.rob.Oldest h) ∧
    ∀ tid num, s.rob.instList tid ≠ [] → Marks twoThreads s tid num := by
  obtain ⟨s, hs, hp⟩ := System.reachable_of_replay (S := robSystem twoThreads) rfl
    [.insertInst 0 ⟨1, false, true⟩, .insertInst 0 ⟨2, false, false⟩, .insertInst 1 ⟨3, false, false⟩,
      .insertInst 0 ⟨4, false, false⟩, .insertInst 0 ⟨5, false, false⟩]
    (fun s => (s.rob.instList 0).map (fun i => i.seqNum) = [1, 2, 4, 5]) rfl
  exact ⟨s, hs, hp, squash_marks (by decide) hs⟩

end Salam.O3.Reorder
