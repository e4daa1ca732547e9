import Salam.Lib.PartialSums
import Salam.Mem.StackDistCalc

/-!
# The sums of the tree

A leaf of the tree is free until its access comes, and dead when its address was accessed again. Every node that is
there has the number of live leaves below it on each side, and where a node is missing all leaves are dead. While
`updateSum` is on its way up from the leaf `k`, the layers it has passed are right for the new leaves and the layers
above for the old ones, so `Sums` has the leaves as each layer sees them.

* `updateSum_spec`, `getSum_spec`: the way from a leaf to the root.
* `updateTree_spec`: every layer has a place for the next leaf.
-/

namespace Salam.Mem

open PartialSums

/-! ## The leaves -/

inductive Slot
  | free
  | live
  | dead
  deriving DecidableEq

def isLive (f : Nat → Slot) (k : Nat) : Bool := f k = .live

/-- All leaves below the node are dead. -/
def Dead (f : Nat → Slot) : Nat → Nat → Prop := All fun k => f k = .dead

variable {f f' : Nat → Slot} {i j k d : Nat} {F : Nat → Nat → Slot} {nd : Node}

theorem below_agree (h : ∀ k, k / 2 ^ i = j → f' k = f k) : below (isLive f') i j = below (isLive f) i j := by
  apply below_congr
  intro k hk
  rw [isLive, isLive, h k hk]

theorem Dead.agree (hd : Dead f i j) (h : ∀ k, k / 2 ^ i = j → f' k = f k) : Dead f' i j :=
  fun k hk => (h k hk).trans (hd k hk)

/-! ## The invariant of the tree -/

/-- The node `j` of layer `i + 1`. -/
structure NodeOk (f : Nat → Slot) (d i j : Nat) (nd : Node) : Prop where
  nodeIndex : nd.nodeIndex = j
  isLeftNode : nd.isLeftNode = (j % 2 == 0)
  parent : nd.parent = if i + 1 = d then none else some (i + 2, j / 2)
  sumLeft : nd.sumLeft = below (isLive f) i (2 * j)
  sumRight : nd.sumRight = below (isLive f) i (2 * j + 1)
  discardLeft : nd.discardLeft = true → Dead f i (2 * j)
  discardRight : nd.discardRight = true → Dead f i (2 * j + 1)

/-- The inner layers, with the leaves `f l` and the last leaf `m l` that layer `l` has a place for. -/
structure Sums (f : Nat → Nat → Slot) (m : Nat → Nat) (s : StackDistCalc) : Prop where
  pos : 1 ≤ s.treeDepth
  fits : ∀ i, i < s.treeDepth → m (i + 1) < 2 ^ s.treeDepth
  next : ∀ i, i < s.treeDepth → s.nextIndex (i + 1) = m (i + 1) / 2 ^ (i + 1) + 1
  node : ∀ i j nd, i < s.treeDepth → s.tree (i + 1) j = some nd →
    j ≤ m (i + 1) / 2 ^ (i + 1) ∧ NodeOk (f (i + 1)) s.treeDepth i j nd
  absent : ∀ i j, i < s.treeDepth → s.tree (i + 1) j = none → j ≤ m (i + 1) / 2 ^ (i + 1) →
    i + 1 < s.treeDepth ∧ Dead (f (i + 1)) (i + 1) j

theorem Sums.of_eq {m : Nat → Nat} {s s' : StackDistCalc} (h : Sums F m s) (hd : s'.treeDepth = s.treeDepth)
    (hn : ∀ i, s'.nextIndex (i + 1) = s.nextIndex (i + 1)) (ht : ∀ i, s'.tree (i + 1) = s.tree (i + 1)) :
      Sums F m s' := by
  constructor
  · rw [hd]
    exact h.pos
  · rw [hd]
    exact h.fits
  · intro i hi
    rw [hn]
    exact h.next i (hd ▸ hi)
  · intro i j nd hi hnd
    rw [hd] at hi ⊢
    exact h.node i j nd hi (ht i ▸ hnd)
  · intro i j hi hnd
    rw [hd] at hi ⊢
    exact h.absent i j hi (ht i ▸ hnd)

/-- The leaves and the counters of the inner layers. -/
theorem Sums.congr {F F' : Nat → Nat → Slot} {m m' : Nat → Nat} {s : StackDistCalc} (h : Sums F m s)
    (hF : ∀ i, i < s.treeDepth → F' (i + 1) = F (i + 1)) (hfits : ∀ i, i < s.treeDepth → m' (i + 1) < 2 ^ s.treeDepth)
    (hm : ∀ i, i < s.treeDepth → m' (i + 1) / 2 ^ (i + 1) = m (i + 1) / 2 ^ (i + 1)) : Sums F' m' s := by
  refine ⟨h.pos, hfits, ?_, ?_, ?_⟩
  · intro i hi
    rw [hm i hi]
    exact h.next i hi
  · intro i j nd hi hnd
    rw [hm i hi, hF i hi]
    exact h.node i j nd hi hnd
  · intro i j hi hnd
    rw [hm i hi, hF i hi]
    exact h.absent i j hi hnd

/-- A node above a leaf that is not dead is there. -/
theorem Sums.present {m : Nat → Nat} {s : StackDistCalc} (h : Sums F m s) (hi : i < s.treeDepth)
    (hk : F (i + 1) k ≠ .dead)
    (hm : k ≤ m (i + 1)) :
    ∃ nd, s.tree (i + 1) (k / 2 ^ (i + 1)) = some nd ∧ NodeOk (F (i + 1)) s.treeDepth i (k / 2 ^ (i + 1)) nd := by
  cases hnd : s.tree (i + 1) (k / 2 ^ (i + 1)) with
  | some nd => exact ⟨nd, rfl, (h.node i _ nd hi hnd).2⟩
  | none =>
    have hdead := (h.absent i _ hi hnd (Nat.div_le_div_right hm)).2
    exact absurd (hdead k rfl) hk

theorem Sums.deep {m : Nat → Nat} {s : StackDistCalc} (h : Sums F m s) : ∃ e, s.treeDepth = e + 1 :=
  ⟨s.treeDepth - 1, by have := h.pos; omega⟩

/-! ## The way up -/

/-- One leaf is different. -/
structure Changed (f f' : Nat → Slot) (k : Nat) : Prop where
  other : ∀ j, j ≠ k → f' j = f j
  alive : f k ≠ .dead

/-- The layers up to `i` have the new leaves. -/
def passed (f f' : Nat → Slot) (i : Nat) : Nat → Nat → Slot := fun l => if l ≤ i then f' else f

theorem Changed.agree (h : Changed f f' k) (hj : k / 2 ^ i ≠ j) : ∀ k', k' / 2 ^ i = j → f' k' = f k' := by
  intro k' hk'
  apply h.other
  rintro rfl
  exact hj hk'

theorem Changed.not_dead (h : Changed f f' k) : ¬ Dead f i (k / 2 ^ i) := fun hd => h.alive (hd k rfl)

theorem NodeOk.agree (h : NodeOk f d i j nd) (hc : Changed f f' k) (hj : k / 2 ^ (i + 1) ≠ j) : NodeOk f' d i j nd := by
  have hl : k / 2 ^ i ≠ 2 * j := fun he => hj (under_succ.mpr (.inl he))
  have hr : k / 2 ^ i ≠ 2 * j + 1 := fun he => hj (under_succ.mpr (.inr he))
  exact {
    nodeIndex := h.nodeIndex
    isLeftNode := h.isLeftNode
    parent := h.parent
    sumLeft := by rw [h.sumLeft, below_agree (hc.agree hl)]
    sumRight := by rw [h.sumRight, below_agree (hc.agree hr)]
    discardLeft := fun hd => (h.discardLeft hd).agree (hc.agree hl)
    discardRight := fun hd => (h.discardRight hd).agree (hc.agree hr) }

/-- The node on the way with its new values. -/
theorem NodeOk.update (h : NodeOk f d i (k / 2 ^ (i + 1)) nd) (hc : Changed f f' k) {discard : Bool}
    (hdis : discard = true → Dead f' i (k / 2 ^ i)) :
    NodeOk f' d i (k / 2 ^ (i + 1)) (nd.update (k / 2 ^ i % 2 == 0) (below (isLive f') i (k / 2 ^ i)) discard) := by
  have hdiv := div_succ k i
  rcases Nat.mod_two_eq_zero_or_one (k / 2 ^ i) with hm | hm
  · have hl : k / 2 ^ i = 2 * (k / 2 ^ (i + 1)) := by omega
    have hr : k / 2 ^ i ≠ 2 * (k / 2 ^ (i + 1)) + 1 := by omega
    refine ⟨h.nodeIndex, h.isLeftNode, h.parent, ?_, ?_, ?_, ?_⟩
    · simp [Node.update, hm, ← hl]
    · simp [Node.update, hm, h.sumRight, below_agree (hc.agree hr)]
    · intro hd
      simp only [Node.update, hm, beq_self_eq_true, Bool.true_and, Bool.or_eq_true, Bool.and_eq_true] at hd
      rw [← hl]
      rcases hd with hd | hd
      · exact absurd (hl ▸ h.discardLeft hd) hc.not_dead
      · exact hdis hd.1
    · intro hd
      simp [Node.update, hm] at hd
      exact (h.discardRight hd).agree (hc.agree hr)
  · have hl : k / 2 ^ i ≠ 2 * (k / 2 ^ (i + 1)) := by omega
    have hr : k / 2 ^ i = 2 * (k / 2 ^ (i + 1)) + 1 := by omega
    refine ⟨h.nodeIndex, h.isLeftNode, h.parent, ?_, ?_, ?_, ?_⟩
    · simp [Node.update, hm, h.sumLeft, below_agree (hc.agree hl)]
    · simp [Node.update, hm, ← hr]
    · intro hd
      simp [Node.update, hm] at hd
      exact (h.discardLeft hd).agree (hc.agree hl)
    · intro hd
      simp only [Node.update, hm, Bool.or_eq_true, Bool.and_eq_true] at hd
      rw [← hr]
      rcases hd with hd | hd
      · exact absurd (hr ▸ h.discardRight hd) hc.not_dead
      · exact hdis hd.1.2

theorem passed_of_ne {l : Nat} (h : l ≠ i + 1) : passed f f' (i + 1) l = passed f f' i l := by
  have hiff : l ≤ i + 1 ↔ l ≤ i := by omega
  simp [passed, hiff]

theorem passed_succ : passed f f' i (i + 1) = f := by simp [passed]

theorem passed_self : passed f f' (i + 1) (i + 1) = f' := by simp [passed]

/-- One layer: `x` at the place on the way. -/
theorem Sums.pass {m : Nat → Nat} {s : StackDistCalc} (h : Sums (passed f f' i) m s) (hc : Changed f f' k)
    (hm : k ≤ m (i + 1)) {x : Option Node} (hsome : ∀ nd, x = some nd → NodeOk f' s.treeDepth i (k / 2 ^ (i + 1)) nd)
    (hnone : x = none → i + 1 < s.treeDepth ∧ Dead f' (i + 1) (k / 2 ^ (i + 1))) :
    Sums (passed f f' (i + 1)) m (s.setNode (i + 1) (k / 2 ^ (i + 1)) x) := by
  refine ⟨h.pos, h.fits, h.next, ?_, ?_⟩
  · intro l j nd hl hnd
    by_cases hli : l = i
    · subst hli
      rw [passed_self]
      by_cases hj : j = k / 2 ^ (l + 1)
      · subst hj
        exact ⟨Nat.div_le_div_right hm, hsome nd (by simpa [StackDistCalc.setNode] using hnd)⟩
      · have hold := h.node l j nd hl (by simpa [StackDistCalc.setNode, hj] using hnd)
        rw [passed_succ] at hold
        exact ⟨hold.1, hold.2.agree hc (Ne.symm hj)⟩
    · rw [passed_of_ne (by omega)]
      exact h.node l j nd hl (by simpa [StackDistCalc.setNode, hli] using hnd)
  · intro l j hl hnd hjm
    by_cases hli : l = i
    · subst hli
      rw [passed_self]
      by_cases hj : j = k / 2 ^ (l + 1)
      · subst hj
        exact hnone (by simpa [StackDistCalc.setNode] using hnd)
      · have hold := h.absent l j hl (by simpa [StackDistCalc.setNode, hj] using hnd) hjm
        rw [passed_succ] at hold
        exact ⟨hold.1, hold.2.agree (hc.agree (Ne.symm hj))⟩
    · rw [passed_of_ne (by omega)]
      exact h.absent l j hl (by simpa [StackDistCalc.setNode, hli] using hnd) hjm

theorem checkSums_ok {s : StackDistCalc} (h : NodeOk f d i j nd) (hi : i < 31) : s.checkSums nd (i + 1) = .ok () := by
  unfold StackDistCalc.checkSums
  have hl : ¬ 2 ^ i < nd.sumLeft := by
    rw [h.sumLeft]
    exact Nat.not_lt.mpr (below_le i _)
  have hr : ¬ 2 ^ i < nd.sumRight := by
    rw [h.sumRight]
    exact Nat.not_lt.mpr (below_le i _)
  split
  · simp [shiftOne, panicIf, hi, hl, hr, bind, Except.bind]
  · rfl

/-- What the way up leaves alone. -/
structure Framed (s s' : StackDistCalc) : Prop where
  eq : s' = { s with tree := s'.tree }
  leaves : s'.tree 0 = s.tree 0

theorem Framed.trans {s s₁ s₂ : StackDistCalc} (h : Framed s s₁) (h₁ : Framed s₁ s₂) : Framed s s₂ :=
  ⟨by rw [h₁.eq, h.eq], h₁.leaves.trans h.leaves⟩

theorem framed_setNode (s : StackDistCalc) (l j : Nat) (x : Option Node) : Framed s (s.setNode (l + 1) j x) :=
  ⟨rfl, by funext j'; simp [StackDistCalc.setNode]⟩

theorem NodeOk.handed (h : NodeOk f d i j nd) (hi : i < 31) :
    u64 (nd.sumLeft + nd.sumRight) = below (isLive f) (i + 1) j := by
  rw [h.sumLeft, h.sumRight]
  exact u64_eq (below_le (i + 1) j) hi

theorem NodeOk.collected (h : NodeOk f d i (k / 2 ^ (i + 1)) nd) (hi : i < 31) :
    (if k / 2 ^ i % 2 == 0 then u64 (rightOf (isLive f) k i + nd.sumRight) else rightOf (isLive f) k i) =
      rightOf (isLive f) k (i + 1) := by
  have hdiv := div_succ k i
  rcases Nat.mod_two_eq_zero_or_one (k / 2 ^ i) with hm | hm
  · have hright : rightOf (isLive f) k (i + 1) = rightOf (isLive f) k i + nd.sumRight := by
      rw [rightOf, if_pos hm, h.sumRight, show 2 * (k / 2 ^ (i + 1)) + 1 = k / 2 ^ i + 1 by omega]
    rw [if_pos (by simp [hm]), hright]
    exact u64_eq (hright ▸ rightOf_le k (i + 1)) hi
  · rw [rightOf, if_neg (by simp [hm]), if_neg (by omega), Nat.add_zero]

/-- The state after a node, with the node gone or with its new values. -/
theorem Sums.update {m : Nat → Nat} {s : StackDistCalc} (h : Sums (passed f f' i) m s) (hc : Changed f f' k)
    (hi : i < s.treeDepth) (hm : k ≤ m (i + 1)) {nd nd' : Node} (hok : NodeOk f s.treeDepth i (k / 2 ^ (i + 1)) nd)
    (hok' : NodeOk f' s.treeDepth i (k / 2 ^ (i + 1)) nd') {gone : Bool}
    (hgone : gone = true → nd'.discardLeft = true ∧ nd'.discardRight = true ∧ nd.parent.isSome = true)
    {s' : StackDistCalc}
    (hs' : s' = if gone then (s.setNode (i + 1) (k / 2 ^ (i + 1)) none).setNode (i + 1) nd.nodeIndex none
      else s.setNode (i + 1) (k / 2 ^ (i + 1)) (some nd')) :
    Sums (passed f f' (i + 1)) m s' ∧ Framed s s' ∧ (gone = true → Dead f' (i + 1) (k / 2 ^ (i + 1))) := by
  cases gone with
  | false =>
    subst hs'
    refine ⟨h.pass hc hm ?_ (by simp), framed_setNode s i _ _, by simp⟩
    rintro _ ⟨⟩
    exact hok'
  | true =>
    obtain ⟨hl, hr, hparent⟩ := hgone rfl
    have hdead : Dead f' (i + 1) (k / 2 ^ (i + 1)) := all_succ.mpr ⟨hok'.discardLeft hl, hok'.discardRight hr⟩
    have hroot : i + 1 ≠ s.treeDepth := by
      intro he
      rw [hok.parent, if_pos he] at hparent
      cases hparent
    have hset : s' = s.setNode (i + 1) (k / 2 ^ (i + 1)) none := by
      rw [hs', if_pos rfl, hok.nodeIndex]
      simp only [StackDistCalc.setNode, StackDistCalc.mk.injEq, true_and, and_true]
      funext l j
      split <;> simp_all
    subst hset
    exact ⟨h.pass hc hm (by simp) (fun _ => ⟨by omega, hdead⟩), framed_setNode s i _ _, fun _ => hdead⟩

theorem updateSum_step (hc : Changed f f' k) {m : Nat → Nat} (hm : k ≤ m (i + 1)) {s : StackDistCalc} {dis : Bool}
    (hs : Sums (passed f f' i) m s) (hi : i < s.treeDepth) (h31 : s.treeDepth ≤ 31)
    (hdis : dis = true → Dead f' i (k / 2 ^ i)) (r : Nat) :
    ∃ s' gone, Sums (passed f f' (i + 1)) m s' ∧ Framed s s' ∧ (gone = true → Dead f' (i + 1) (k / 2 ^ (i + 1))) ∧
      StackDistCalc.updateSum (r + 1) s (i + 1, k / 2 ^ (i + 1)) (k / 2 ^ i % 2 == 0)
        (below (isLive f') i (k / 2 ^ i)) i
        (rightOf (isLive f) k i) dis =
      if i + 1 = s.treeDepth then .ok (s', rightOf (isLive f) k (i + 1))
      else StackDistCalc.updateSum r s' (i + 2, k / 2 ^ (i + 2)) (k / 2 ^ (i + 1) % 2 == 0)
        (below (isLive f') (i + 1) (k / 2 ^ (i + 1))) (i + 1) (rightOf (isLive f) k (i + 1)) gone := by
  obtain ⟨nd, hnd, hok⟩ := hs.present hi (by rw [passed_succ]; exact hc.alive) hm
  rw [passed_succ] at hok
  have hok' := hok.update hc hdis
  obtain ⟨nd', hnd'⟩ : ∃ nd', nd' = nd.update (k / 2 ^ i % 2 == 0) (below (isLive f') i (k / 2 ^ i)) dis := ⟨_, rfl⟩
  obtain ⟨gone, hgone⟩ : ∃ gone, gone = (nd'.discardLeft && nd'.discardRight && dis && nd.parent.isSome &&
    below (isLive f') i (k / 2 ^ i) == 0) := ⟨_, rfl⟩
  rw [← hnd'] at hok'
  have hflags : gone = true → nd'.discardLeft = true ∧ nd'.discardRight = true ∧ nd.parent.isSome = true := by
    simp +contextual [hgone]
  obtain ⟨hsums, hframe, hdead⟩ := hs.update hc hi hm hok hok' hflags rfl
  refine ⟨_, gone, hsums, hframe, hdead, ?_⟩
  have hi₃₁ : i < 31 := by omega
  simp only [StackDistCalc.updateSum, StackDistCalc.node, hnd, checkSums_ok hok hi₃₁, bind, Except.bind,
    ← hnd', ← hgone, hok.collected hi₃₁, hok'.handed hi₃₁, hok.isLeftNode]
  by_cases he : i + 1 = s.treeDepth
  · simp only [hok.parent, if_pos he]
  · simp only [hok.parent, if_neg he, div_succ k (i + 1)]

/-- From layer `i` to the root: the sums of all layers are right for the new leaves, and the distance is the number of
live leaves to the right. -/
theorem updateSum_spec (hc : Changed f f' k) {m : Nat → Nat} (hm : ∀ l, k ≤ m l) : ∀ (r i : Nat) (s : StackDistCalc)
    (dis : Bool), i + (r + 1) = s.treeDepth → s.treeDepth ≤ 31 → Sums (passed f f' i) m s →
    (dis = true → Dead f' i (k / 2 ^ i)) →
    ∃ s', StackDistCalc.updateSum (r + 1) s (i + 1, k / 2 ^ (i + 1)) (k / 2 ^ i % 2 == 0)
      (below (isLive f') i (k / 2 ^ i)) i
      (rightOf (isLive f) k i) dis = .ok (s', rightOf (isLive f) k s.treeDepth) ∧ Sums (fun _ => f') m s' ∧
        Framed s s' := by
  intro r
  induction r with
  | zero =>
    intro i s dis hd h31 hs hdis
    obtain ⟨s', gone, hsums, hframe, -, heq⟩ := updateSum_step hc (hm _) hs (by omega) h31 hdis 0
    have hdepth : s'.treeDepth = i + 1 := by rw [hframe.eq, hd]
    refine ⟨s', ?_, hsums.congr ?_ hsums.fits (fun _ _ => rfl), hframe⟩
    · rw [heq, if_pos hd, ← hd]
    · intro l hl
      rw [passed, if_pos (by omega)]
  | succ r ih =>
    intro i s dis hd h31 hs hdis
    obtain ⟨s₁, gone, hsums, hframe, hdead, heq⟩ := updateSum_step hc (hm _) hs (by omega) h31 hdis (r + 1)
    have hdepth : s₁.treeDepth = s.treeDepth := by rw [hframe.eq]
    obtain ⟨s', heq', hsums', hframe'⟩ := ih (i + 1) s₁ gone (by omega) (by omega) hsums hdead
    refine ⟨s', ?_, hsums', hframe.trans hframe'⟩
    rw [heq, if_neg (by omega), heq', hdepth]

/-- The distance on the way up, with nothing changed. -/
theorem getSum_spec {m : Nat → Nat} {s : StackDistCalc} (hs : Sums (fun _ => f) m s) (hk : f k ≠ .dead)
    (hm : ∀ l, k ≤ m l)
    (h31 : s.treeDepth ≤ 31) : ∀ (r i below level : Nat), i + (r + 1) = s.treeDepth →
    StackDistCalc.getSum (r + 1) s (i + 1, k / 2 ^ (i + 1)) (k / 2 ^ i % 2 == 0) below (rightOf (isLive f) k i) level =
      .ok (rightOf (isLive f) k s.treeDepth) := by
  intro r
  induction r with
  | zero =>
    intro i below level hd
    obtain ⟨nd, hnd, hok⟩ := hs.present (i := i) (by omega) hk (hm _)
    have hparent : nd.parent = none := by rw [hok.parent, if_pos hd]
    rw [← hd, StackDistCalc.getSum]
    simp only [StackDistCalc.node, hnd, bind, Except.bind, hok.collected (show i < 31 by omega), hparent]
  | succ r ih =>
    intro i below level hd
    obtain ⟨nd, hnd, hok⟩ := hs.present (i := i) (by omega) hk (hm _)
    have hparent : nd.parent = some (i + 2, k / 2 ^ (i + 2)) := by
      rw [hok.parent, if_neg (by omega), div_succ k (i + 1)]
    rw [StackDistCalc.getSum]
    simp only [StackDistCalc.node, hnd, bind, Except.bind, hok.collected (show i < 31 by omega), hparent,
      hok.isLeftNode]
    exact ih (i + 1) _ _ (by omega)

/-! ## A place for the next leaf -/

/-- The accesses so far are the leaves below `n`. -/
def FreeFrom (f : Nat → Slot) (n : Nat) : Prop := ∀ k, n ≤ k → f k = .free

variable {n : Nat} {root : Node}

theorem FreeFrom.below_eq (h : FreeFrom f n) (hj : n ≤ j * 2 ^ i) : below (isLive f) i j = 0 := by
  apply below_eq_zero
  rintro k rfl
  have hle := Nat.div_mul_le_self k (2 ^ i)
  simp [isLive, h k (by omega)]

/-- The layers down to `i` have a place for the leaf `n`. -/
def grown (n i : Nat) : Nat → Nat := fun l => if l ≤ i then n - 1 else n

theorem div_pred_of_dvd {w : Nat} (hn : 0 < n) (hw : n % w = 0) : (n - 1) / w + 1 = n / w := by
  have hw0 : 0 < w := by
    rcases Nat.eq_zero_or_pos w with rfl | h
    · simp at hw
      omega
    · exact h
  obtain ⟨q, rfl⟩ := Nat.dvd_of_mod_eq_zero hw
  have hq : 0 < q := Nat.pos_of_mul_pos_left hn
  rw [Nat.mul_div_cancel_left q hw0]
  obtain ⟨q, rfl⟩ : ∃ p, q = p + 1 := ⟨q - 1, by omega⟩
  rw [show w * (q + 1) - 1 = w * q + (w - 1) by rw [Nat.mul_add]; omega, Nat.mul_add_div hw0,
    Nat.div_eq_of_lt (by omega), Nat.add_zero]

theorem div_pred_of_not_dvd {w : Nat} (hw : n % w ≠ 0) : n / w = (n - 1) / w := by
  have hn : 0 < n := by
    rcases Nat.eq_zero_or_pos n with rfl | h
    · simp at hw
    · exact h
  obtain ⟨p, rfl⟩ : ∃ p, n = p + 1 := ⟨n - 1, by omega⟩
  rw [Nat.add_sub_cancel, Nat.succ_div, if_neg (by rwa [Nat.dvd_iff_mod_eq_zero]), Nat.add_zero]

theorem grown_of_ne {l : Nat} (h : l ≠ i + 1) : grown n (i + 1) l = grown n i l := by
  have hiff : l ≤ i + 1 ↔ l ≤ i := by omega
  simp [grown, hiff]

/-- The new node of layer `i + 1` above the leaf `n`. -/
def nodeAbove (n i : Nat) : Node :=
  { isLeftNode := n / 2 ^ (i + 1) % 2 == 0, parent := some (i + 2, n / 2 ^ (i + 2)), nodeIndex := n / 2 ^ (i + 1) }

theorem nodeAbove_ok (hf : FreeFrom f n) (hi : i + 1 < d) (hw : n % 2 ^ (i + 1) = 0) :
    NodeOk f d i (n / 2 ^ (i + 1)) (nodeAbove n i) := by
  have hleaf : n ≤ 2 * (n / 2 ^ (i + 1)) * 2 ^ i := by
    rw [show 2 * (n / 2 ^ (i + 1)) * 2 ^ i = n / 2 ^ (i + 1) * 2 ^ (i + 1) by ring,
      Nat.div_mul_cancel (Nat.dvd_of_mod_eq_zero hw)]
  refine ⟨rfl, rfl, ?_, (hf.below_eq hleaf).symm, (hf.below_eq ?_).symm, by simp [nodeAbove], by simp [nodeAbove]⟩
  · rw [nodeAbove, if_neg (by omega), div_succ n (i + 1)]
  · rw [Nat.add_one_mul]
    omega

theorem addINode_eq {s : StackDistCalc} (h : Sums (fun _ => f) (grown n (i + 1)) s) (hf : FreeFrom f n)
    (hi : i + 1 < s.treeDepth) (h31 : n < 2 ^ 31) (hn : 0 < n) (hw : n % 2 ^ (i + 1) = 0) :
    s.addINode (i + 1) = { s.setNode (i + 1) (n / 2 ^ (i + 1)) (some (nodeAbove n i)) with
      nextIndex := fun l => if l = i + 1 then n / 2 ^ (i + 1) + 1 else s.nextIndex l } := by
  have hnext : s.nextIndex (i + 1) = n / 2 ^ (i + 1) := by
    rw [h.next i (by omega), grown, if_pos (Nat.le_refl _), div_pred_of_dvd hn hw]
  have hup : s.nextIndex (i + 1 + 1) - 1 = n / 2 ^ (i + 1 + 1) := by
    rw [h.next (i + 1) hi, grown, if_neg (by omega), Nat.add_sub_cancel]
  have hle : n / 2 ^ (i + 1) ≤ n := Nat.div_le_self _ _
  have hu64 : u64 (n / 2 ^ (i + 1) + 1) = n / 2 ^ (i + 1) + 1 := Nat.mod_eq_of_lt (by omega)
  -- The node above it is there, since the leaf `n` below it is free.
  obtain ⟨up, htree, -⟩ := h.present hi (k := n) (by simp [hf n (Nat.le_refl n)]) (by simp [grown])
  simp only [StackDistCalc.addINode, hnext, hup, htree, hu64, Option.isSome_some, if_true,
    Nat.add_sub_cancel, nodeAbove]

theorem addINode_spec {s : StackDistCalc} (h : Sums (fun _ => f) (grown n (i + 1)) s) (hf : FreeFrom f n)
    (hi : i + 1 < s.treeDepth) (h31 : n < 2 ^ 31) (hn : 0 < n) (hw : n % 2 ^ (i + 1) = 0) :
    Sums (fun _ => f) (grown n i) (s.addINode (i + 1)) := by
  have hfits : n < 2 ^ s.treeDepth := by
    have hroot := h.fits (i + 1) hi
    rwa [grown, if_neg (by omega)] at hroot
  rw [addINode_eq h hf hi h31 hn hw]
  refine ⟨h.pos, ?_, ?_, ?_, ?_⟩
  · intro l _
    show grown n i (l + 1) < 2 ^ s.treeDepth
    unfold grown
    split <;> omega
  · intro l hl
    show (if l + 1 = i + 1 then _ else _) = _
    split
    · rename_i he
      rw [he, grown, if_neg (by omega)]
    · rename_i he
      rw [h.next l hl, grown_of_ne he]
  · intro l j nd hl hnd
    by_cases hli : l = i
    · subst hli
      rw [grown, if_neg (by omega)]
      by_cases hj : j = n / 2 ^ (l + 1)
      · subst hj
        simp only [StackDistCalc.setNode, and_self, if_true, Option.some.injEq] at hnd
        subst hnd
        exact ⟨Nat.le_refl _, nodeAbove_ok hf hi hw⟩
      · have hold := h.node l j nd hl (by simpa [StackDistCalc.setNode, hj] using hnd)
        rw [grown, if_pos (Nat.le_refl _)] at hold
        exact ⟨hold.1.trans (Nat.div_le_div_right (Nat.sub_le n 1)), hold.2⟩
    · rw [← grown_of_ne (by omega)]
      exact h.node l j nd hl (by simpa [StackDistCalc.setNode, hli] using hnd)
  · intro l j hl hnd hjm
    by_cases hli : l = i
    · subst hli
      rw [grown, if_neg (by omega)] at hjm
      have hj : j ≠ n / 2 ^ (l + 1) := by
        rintro rfl
        simp [StackDistCalc.setNode] at hnd
      refine h.absent l j hl (by simpa [StackDistCalc.setNode, hj] using hnd) ?_
      have hpred := div_pred_of_dvd hn hw
      rw [grown, if_pos (Nat.le_refl _)]
      omega
    · rw [← grown_of_ne (by omega)] at hjm
      exact h.absent l j hl (by simpa [StackDistCalc.setNode, hli] using hnd) hjm

/-- The parts that only an access changes. -/
structure Kept (s s' : StackDistCalc) : Prop where
  index : s'.index = s.index
  aiMap : s'.aiMap = s.aiMap
  stack : s'.stack = s.stack
  verifyStack : s'.verifyStack = s.verifyStack
  leaves : s'.tree 0 = s.tree 0

theorem Kept.refl (s : StackDistCalc) : Kept s s := ⟨rfl, rfl, rfl, rfl, rfl⟩

theorem Kept.trans {s s₁ s₂ : StackDistCalc} (h : Kept s s₁) (h₁ : Kept s₁ s₂) : Kept s s₂ :=
  ⟨h₁.index.trans h.index, h₁.aiMap.trans h.aiMap, h₁.stack.trans h.stack, h₁.verifyStack.trans h.verifyStack,
    h₁.leaves.trans h.leaves⟩

theorem Framed.kept {s s' : StackDistCalc} (h : Framed s s') : Kept s s' := by
  refine ⟨?_, ?_, ?_, ?_, h.leaves⟩ <;> rw [h.eq]

theorem kept_addINode (s : StackDistCalc) (i : Nat) : Kept s (s.addINode (i + 1)) :=
  ⟨rfl, rfl, rfl, rfl, by funext j; simp [StackDistCalc.addINode, StackDistCalc.setNode]⟩

theorem addINodes_spec (hf : FreeFrom f n) (h31 : n < 2 ^ 31) (hn : 0 < n) : ∀ (i : Nat) (s : StackDistCalc),
    i < s.treeDepth → (∀ l, l ≤ i → n % 2 ^ l = 0) → Sums (fun _ => f) (grown n i) s →
    Sums (fun _ => f) (grown n 0) (s.addINodes i) ∧ Kept s (s.addINodes i) ∧
    (s.addINodes i).treeDepth = s.treeDepth := by
  intro i
  induction i with
  | zero =>
    intro s _ _ h
    exact ⟨h, Kept.refl s, rfl⟩
  | succ i ih =>
    intro s hi hw h
    obtain ⟨hsums, hkept, hd⟩ := ih (s.addINode (i + 1)) (Nat.lt_of_succ_lt hi) (fun l hl => hw l (by omega))
      (addINode_spec h hf hi h31 hn (hw _ (Nat.le_refl _)))
    exact ⟨hsums, (kept_addINode s i).trans hkept, hd⟩

theorem addINodesAt_spec (hf : FreeFrom f n) (h31 : n < 2 ^ 31) (hn : 0 < n) : ∀ (i : Nat) (s : StackDistCalc),
    s.index = n → i < s.treeDepth → i < 31 → n < 2 ^ s.treeDepth → Sums (fun _ => f) (grown n i) s →
    ∃ s', s.addINodesAt i = .ok s' ∧ Sums (fun _ => f) (grown n 0) s' ∧ Kept s s' ∧ s'.treeDepth = s.treeDepth := by
  intro i
  induction i with
  | zero =>
    intro s _ _ _ _ h
    exact ⟨s, rfl, h, Kept.refl s, rfl⟩
  | succ i ih =>
    intro s hidx hi hi₃₁ hfits h
    simp only [StackDistCalc.addINodesAt, shiftOne, if_pos hi₃₁, bind, Except.bind, hidx]
    by_cases hw : n % 2 ^ (i + 1) = 0
    · rw [if_pos hw]
      obtain ⟨s', heq, hsums, hkept, hd⟩ := ih (s.addINode (i + 1)) hidx (Nat.lt_of_succ_lt hi) (by omega) hfits
        (addINode_spec h hf hi h31 hn hw)
      exact ⟨s', heq, hsums, (kept_addINode s i).trans hkept, hd⟩
    · rw [if_neg hw]
      refine ih s hidx (Nat.lt_of_succ_lt hi) (by omega) hfits (h.congr (fun _ _ => rfl) ?_ ?_)
      · intro l _
        unfold grown
        split <;> omega
      · intro l _
        by_cases hli : l = i
        · subst hli
          rw [grown, grown, if_neg (by omega), if_pos (Nat.le_refl _), div_pred_of_not_dvd hw]
        · rw [grown_of_ne (by omega)]

theorem NodeOk.under_root (h : NodeOk f (i + 1) i 0 root) :
    NodeOk f (i + 2) i 0 { root with parent := some (i + 2, 0) } :=
  ⟨h.nodeIndex, h.isLeftNode, by simp, h.sumLeft, h.sumRight, h.discardLeft, h.discardRight⟩

theorem NodeOk.new_root (h : NodeOk f (i + 1) i 0 root) (hf : FreeFrom f (2 ^ (i + 1))) (hi : i < 31) :
    NodeOk f (i + 2) (i + 1) 0
      { sumLeft := u64 (root.sumRight + root.sumLeft), discardLeft := root.discardLeft && root.discardRight } := by
  refine ⟨rfl, rfl, by simp, ?_, ?_, ?_, by simp⟩
  · rw [Nat.add_comm]
    exact h.handed hi
  · exact (hf.below_eq (by simp)).symm
  · intro hd
    rw [Bool.and_eq_true] at hd
    exact all_succ.mpr ⟨h.discardLeft hd.1, h.discardRight hd.2⟩

/-- The new root above a tree without a free leaf. -/
theorem newRoot_spec {s : StackDistCalc} (h : Sums (fun _ => f) (fun _ => n - 1) s) (hf : FreeFrom f n)
    (hn : n = 2 ^ s.treeDepth) (h31 : s.treeDepth ≤ 31) (hroot : s.tree s.treeDepth 0 = some root) :
    Sums (fun _ => f) (grown n s.treeDepth) (s.newRoot root) := by
  obtain ⟨e, hd⟩ := h.deep
  have hpos := Nat.two_pow_pos s.treeDepth
  have hzero : (n - 1) / 2 ^ (e + 1) = 0 := Nat.div_eq_of_lt (by rw [← hd]; omega)
  have htop : n / 2 ^ (s.treeDepth + 1) = 0 := Nat.div_eq_of_lt (by omega)
  have hold : ∀ l, l < s.treeDepth → grown n s.treeDepth (l + 1) = n - 1 :=
    fun l hl => by rw [grown, if_pos (Nat.succ_le_of_lt hl)]
  have hnew : grown n s.treeDepth (s.treeDepth + 1) = n := by rw [grown, if_neg (by omega)]
  obtain ⟨-, hok⟩ := h.node e 0 root (by omega) (hd ▸ hroot)
  rw [hd] at hok
  refine ⟨Nat.succ_pos _, ?_, ?_, ?_, ?_⟩
  · intro l _
    show grown n s.treeDepth (l + 1) < 2 ^ (s.treeDepth + 1)
    unfold grown
    split <;> omega
  · intro l hl
    change l < s.treeDepth + 1 at hl
    show (if l + 1 = s.treeDepth + 1 then _ else _) = _
    split
    · rename_i he
      rw [he, hnew, htop]
    · rw [h.next l (by omega), hold l (by omega)]
  · intro l j nd hl hnd
    change l < s.treeDepth + 1 at hl
    change (if l + 1 = s.treeDepth + 1 then _ else _) = _ at hnd
    show _ ∧ NodeOk f (s.treeDepth + 1) l j nd
    split at hnd
    · rename_i he
      split at hnd
      · rename_i hj
        obtain rfl : l = s.treeDepth := by omega
        cases hnd
        rw [hj, hd]
        exact ⟨Nat.zero_le _, hok.new_root (hd ▸ hn ▸ hf) (by omega)⟩
      · cases hnd
    · rename_i he
      split at hnd
      · rename_i hlj
        obtain rfl : l = e := by omega
        cases hnd
        rw [hlj.2, hd]
        exact ⟨Nat.zero_le _, hok.under_root⟩
      · rename_i hlj
        obtain ⟨hj, hnode⟩ := h.node l j nd (by omega) hnd
        have hle : l ≠ e := by
          rintro rfl
          omega
        refine ⟨by rwa [hold l (by omega)], { hnode with parent := ?_ }⟩
        rw [hnode.parent, if_neg (by omega), if_neg he]
  · intro l j hl hnd hj
    change l < s.treeDepth + 1 at hl
    change (if l + 1 = s.treeDepth + 1 then _ else _) = _ at hnd
    show l + 1 < s.treeDepth + 1 ∧ _
    split at hnd
    · rename_i he
      rw [he, hnew, htop] at hj
      rw [if_pos (by omega)] at hnd
      cases hnd
    · rename_i he
      rw [hold l (by omega)] at hj
      split at hnd
      · cases hnd
      · exact ⟨by omega, (h.absent l j (by omega) hnd hj).2⟩

theorem kept_newRoot {s : StackDistCalc} (root : Node) (hd : 1 ≤ s.treeDepth) : Kept s (s.newRoot root) := by
  refine ⟨rfl, rfl, rfl, rfl, ?_⟩
  funext j
  have h0 : ¬ (0 = s.treeDepth ∧ j = 0) := by omega
  simp [StackDistCalc.newRoot, h0]

/-- The layers are as many as the leaves need. -/
def Tight (d m : Nat) : Prop := d = 1 ∨ 2 ^ (d - 1) ≤ m

theorem Tight.depth_le {m : Nat} (h : Tight d m) (hm : m < 2 ^ 31) : d ≤ 31 := by
  rcases h with h | h
  · omega
  · have hlt := (Nat.pow_lt_pow_iff_right (show 1 < 2 by norm_num)).mp (h.trans_lt hm)
    omega

theorem Tight.eq_pow {e : Nat} (h : Tight d (n - 1)) (hn : n = 2 ^ e) (hfits : n - 1 < 2 ^ d) (hpos : 0 < n)
    (hev : n % 2 = 0) :
    n = 2 ^ d := by
  have hle : e ≤ d := by
    rw [← Nat.pow_le_pow_iff_right (show 1 < 2 by norm_num), ← hn]
    omega
  have hlt : d - 1 < e := by
    rcases h with h | h
    · rcases Nat.eq_zero_or_pos e with rfl | he
      · omega
      · omega
    · rw [← Nat.pow_lt_pow_iff_right (show 1 < 2 by norm_num), ← hn]
      omega
  rw [hn, show e = d by omega]

theorem updateTree_grow {s : StackDistCalc} (h : Sums (fun _ => f) (fun _ => n - 1) s) (hf : FreeFrom f n)
    (hidx : s.index = n) (h31 : n < 2 ^ 31) (hn : 0 < n) (hd : n = 2 ^ s.treeDepth) :
    ∃ s', s.updateTree = .ok s' ∧ Sums (fun _ => f) (fun _ => n) s' ∧ Kept s s' ∧ Tight s'.treeDepth n := by
  obtain ⟨e, hdeep⟩ := h.deep
  have hd31 : s.treeDepth < 31 := (Nat.pow_lt_pow_iff_right (show 1 < 2 by norm_num)).mp (hd ▸ h31)
  have hpow : isPowerOf2 s.index = true := (isPowerOf2_iff (by omega)).mpr ⟨_, hidx.trans hd⟩
  obtain ⟨root, hroot⟩ : ∃ root, s.tree s.treeDepth 0 = some root := by
    cases hroot : s.tree s.treeDepth 0 with
    | some root => exact ⟨root, rfl⟩
    | none =>
      have habsent := h.absent e 0 (by omega) (hdeep ▸ hroot) (Nat.zero_le _)
      omega
  have hdvd : ∀ l, l ≤ s.treeDepth → n % 2 ^ l = 0 := by
    intro l hl
    rw [hd]
    exact Nat.mod_eq_zero_of_dvd (pow_dvd_pow 2 hl)
  have hgrown := newRoot_spec h hf hd (by omega) hroot
  obtain ⟨hsums, hkept, hdepth⟩ := addINodes_spec hf h31 hn s.treeDepth (s.newRoot root)
    (Nat.lt_succ_self _) hdvd hgrown
  have hdepth' : ((s.newRoot root).addINodes s.treeDepth).treeDepth = s.treeDepth + 1 := hdepth
  refine ⟨_, ?_, hsums.congr (fun _ _ => rfl) ?_ (fun _ _ => rfl), (kept_newRoot root h.pos).trans hkept, .inr ?_⟩
  · simp only [StackDistCalc.updateTree, hpow, if_true, StackDistCalc.node, hroot, bind, Except.bind]
  · intro l _
    rw [hdepth', hd]
    exact Nat.pow_lt_pow_right (by norm_num) (Nat.lt_succ_self _)
  · rw [hdepth', hd, Nat.add_sub_cancel]

/-- `n` is even: after `updateTree` every layer has a place for the leaf `n`. -/
theorem updateTree_spec {s : StackDistCalc} (h : Sums (fun _ => f) (fun _ => n - 1) s) (hf : FreeFrom f n)
    (hidx : s.index = n) (h31 : n < 2 ^ 31) (hev : n % 2 = 0) (hbig : Tight s.treeDepth (n - 1)) :
    ∃ s', s.updateTree = .ok s' ∧ Sums (fun _ => f) (fun _ => n) s' ∧ Kept s s' ∧ Tight s'.treeDepth n := by
  obtain ⟨e, hdeep⟩ := h.deep
  have hfits : n - 1 < 2 ^ s.treeDepth := h.fits 0 (by omega)
  have h31' := hbig.depth_le (by omega)
  rcases Nat.eq_zero_or_pos n with rfl | hn
  · -- The first access: the tree has one inner node, and it stays as it is.
    have hd : s.treeDepth = 1 := by
      rcases hbig with hd | hd
      · exact hd
      · exact absurd (Nat.two_pow_pos (s.treeDepth - 1)) (by omega)
    exact ⟨s, by simp [StackDistCalc.updateTree, hidx, isPowerOf2, hd, StackDistCalc.addINodesAt], h,
      Kept.refl s, .inl hd⟩
  · by_cases hd : n = 2 ^ s.treeDepth
    · exact updateTree_grow h hf hidx h31 hn hd
    · have hpow : ¬ isPowerOf2 s.index = true := by
        rw [hidx, isPowerOf2_iff (by omega)]
        rintro ⟨e, he⟩
        exact hd (hbig.eq_pow he hfits hn hev)
      have hgrown : Sums (fun _ => f) (grown n e) s := by
        refine h.congr (fun _ _ => rfl) ?_ ?_
        · intro l _
          unfold grown
          split <;> omega
        · intro l hl
          by_cases hle : l + 1 ≤ e
          · rw [grown, if_pos hle]
          · have hroot : l + 1 = s.treeDepth := by omega
            rw [grown, if_neg hle, hroot, Nat.div_eq_of_lt hfits, Nat.div_eq_of_lt (by omega)]
      obtain ⟨s', heq, hsums, hkept, hdepth⟩ :=
        addINodesAt_spec hf h31 hn e s hidx (by omega) (by omega) (by omega) hgrown
      refine ⟨s', ?_, hsums.congr (fun _ _ => rfl) ?_ (fun _ _ => rfl), hkept, ?_⟩
      · rw [StackDistCalc.updateTree, if_neg hpow, hdeep, Nat.add_sub_cancel, heq]
      · intro l _
        rw [hdepth]
        omega
      · rw [hdepth]
        rcases hbig with hb | hb
        · exact .inl hb
        · exact .inr (hb.trans (Nat.sub_le n 1))

end Salam.Mem
