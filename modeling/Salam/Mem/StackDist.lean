import Mathlib.Data.Finset.Card
import Mathlib.Data.List.Dedup
import Salam.Mem.StackDistTree

/-!
# The stack distance calculator is an LRU stack

After the accesses `h`, the leaf `k` is live when the address of the access `k` does not come again in `h`. Mathlib's
`dedup` keeps the last of equal elements, so `h.dedup` is the stack of the addresses with the last accessed one on top,
and the live leaves to the right of a leaf are the addresses above it.

* `verifyStackDist_dedup`: the naive stack.
* `Good`: the tree, the map and the naive stack after the accesses `h`.
* `stack_distance`: the distances of every run.
-/

namespace Salam.Mem

open PartialSums

variable {h : List Addr} {a b : Addr} {k n d : Nat} {s : StackDistCalc} {leaf : Node} {f : Nat → Slot}

/-- How many addresses were accessed since the last access to `a`. -/
def distance (h : List Addr) (a : Addr) : Nat :=
  if a ∈ h then (h.reverse.takeWhile (· ≠ a)).toFinset.card else Infinity

/-- The distances of the calls after the accesses `h`. -/
def distances : List Addr → List StackDistOp → List Nat
  | _, [] => []
  | h, .access a :: ops => distance h a :: distances (h ++ [a]) ops
  | h, .lookup a _ :: ops => distance h a :: distances h ops

/-- The distances of the calls in a naive stack. -/
def naiveDistances : List Addr → List StackDistOp → List Nat
  | _, [] => []
  | stack, .access a :: ops =>
    (verifyStackDist stack a true).1 :: naiveDistances (verifyStackDist stack a true).2 ops
  | stack, .lookup a _ :: ops => (verifyStackDist stack a false).1 :: naiveDistances stack ops

/-! ## The leaves of the accesses -/

/-- The leaves after the accesses `h`. -/
def slots (h : List Addr) (k : Nat) : Slot :=
  match h.drop k with
  | [] => .free
  | a :: rest => if a ∈ rest then .dead else .live

theorem slots_freeFrom (h : List Addr) : FreeFrom (slots h) h.length := by
  intro k hk
  rw [slots, List.drop_eq_nil_of_le hk]

theorem slots_of_lt (hk : k < h.length) : slots h k = if h[k] ∈ h.drop (k + 1) then .dead else .live := by
  rw [slots, List.drop_eq_getElem_cons hk]

/-- A live leaf is the last access of its address. -/
theorem eq_append_of_live (hk : slots h k = .live) (ha : h[k]? = some a) :
    h = h.take k ++ a :: h.drop (k + 1) ∧ a ∉ h.drop (k + 1) := by
  obtain ⟨hlt, rfl⟩ := List.getElem?_eq_some_iff.mp ha
  rw [slots_of_lt hlt] at hk
  refine ⟨?_, ?_⟩
  · rw [← List.drop_eq_getElem_cons hlt, List.take_append_drop]
  · intro hmem
    rw [if_pos hmem] at hk
    cases hk

/-- An address that was accessed has a live leaf. -/
theorem exists_live : ∀ {h : List Addr}, a ∈ h → ∃ k, slots h k = .live ∧ h[k]? = some a
  | b :: t, hmem => by
    by_cases ht : a ∈ t
    · obtain ⟨k, hk, ha⟩ := exists_live ht
      exact ⟨k + 1, hk, ha⟩
    · obtain rfl : a = b := by simpa [ht] using hmem
      exact ⟨0, by simp [slots, ht], rfl⟩

/-- The leaves when the leaf of `a` is gone. -/
def taken (h : List Addr) (a : Addr) (k : Nat) : Slot :=
  if slots h k = .live ∧ h[k]? = some a then .dead else slots h k

theorem slots_append (h : List Addr) (a : Addr) (k : Nat) :
    slots (h ++ [a]) k = if k = h.length then .live else taken h a k := by
  unfold taken
  rcases Nat.lt_trichotomy k h.length with hk | rfl | hk
  · have hdrop : (h ++ [a]).drop k = h[k] :: (h.drop (k + 1) ++ [a]) := by
      rw [List.drop_append_of_le_length hk.le, List.drop_eq_getElem_cons hk, List.cons_append]
    rw [if_neg (by omega), slots, hdrop, slots_of_lt hk, List.getElem?_eq_getElem hk]
    by_cases h₁ : h[k] ∈ h.drop (k + 1)
    · simp [h₁]
    · by_cases h₂ : h[k] = a
      · simp [h₂]
      · simp [h₁, h₂]
  · simp [slots]
  · rw [if_neg (by omega), slots_freeFrom h k hk.le]
    simp [slots_freeFrom (h ++ [a]) k (by simp; omega)]

/-- The live leaves from `k` on are the addresses accessed from `k` on. -/
theorem countP_live (h : List Addr) : ∀ l k : Nat, k + l = h.length →
    (List.range' k l).countP (isLive (slots h)) = (h.drop k).dedup.length := by
  intro l
  induction l with
  | zero =>
    intro k hk
    rw [List.drop_eq_nil_of_le (by omega)]
    rfl
  | succ l ih =>
    intro k hk
    have hlt : k < h.length := by omega
    rw [List.range'_succ, List.countP_cons, ih (k + 1) (by omega), List.drop_eq_getElem_cons hlt, isLive,
      slots_of_lt hlt]
    by_cases hmem : h[k] ∈ h.drop (k + 1)
    · rw [List.dedup_cons_of_mem hmem, if_pos hmem]
      rfl
    · rw [List.dedup_cons_of_notMem hmem, if_neg hmem]
      rfl

theorem rightOf_live (hk : k < h.length) (hd : h.length ≤ 2 ^ d) :
    rightOf (isLive (slots h)) k d = (h.drop (k + 1)).dedup.length := by
  have hfree : (List.range' h.length (2 ^ d - h.length)).countP (isLive (slots h)) = 0 := by
    rw [List.countP_eq_zero]
    intro l hl
    rw [List.mem_range'_1] at hl
    simp [isLive, slots_freeFrom h l hl.1]
  have hsplit : List.range' (k + 1) (2 ^ d - (k + 1)) =
      List.range' (k + 1) (h.length - (k + 1)) ++ List.range' h.length (2 ^ d - h.length) := by
    have happ := @List.range'_append_1 (k + 1) (h.length - (k + 1)) (2 ^ d - h.length)
    rw [show k + 1 + (h.length - (k + 1)) = h.length by omega] at happ
    rw [happ]
    congr 1
    omega
  rw [rightOf_root (by omega), hsplit, List.countP_append, hfree, Nat.add_zero, countP_live h _ _ (by omega)]

theorem distance_of_live (hk : slots h k = .live) (ha : h[k]? = some a) :
    distance h a = (h.drop (k + 1)).dedup.length := by
  obtain ⟨heq, hnot⟩ := eq_append_of_live hk ha
  have htake : h.reverse.takeWhile (· ≠ a) = (h.drop (k + 1)).reverse := by
    conv_lhs => rw [heq]
    rw [List.reverse_append, List.reverse_cons, List.append_assoc, List.takeWhile_append_of_pos]
    · simp
    · intro b hb
      rw [List.mem_reverse] at hb
      simp only [decide_eq_true_eq]
      rintro rfl
      exact hnot hb
  rw [distance, if_pos (List.mem_of_getElem? ha), htake, List.toFinset_reverse, List.card_toFinset]

/-! ## The naive stack -/

theorem dedup_concat (h : List Addr) (a : Addr) : (h ++ [a]).dedup = h.dedup.filter (· ≠ a) ++ [a] := by
  induction h with
  | nil => rfl
  | cons b t ih =>
    rw [List.cons_append]
    by_cases hb : b ∈ t
    · rw [List.dedup_cons_of_mem (by simp [hb]), List.dedup_cons_of_mem hb, ih]
    · rw [List.dedup_cons_of_notMem hb]
      by_cases hba : b = a
      · rw [List.dedup_cons_of_mem (by simp [hba]), ih, List.filter_cons_of_neg (by simp [hba])]
      · rw [List.dedup_cons_of_notMem (by simp [hb, hba]), ih, List.filter_cons_of_pos (by simp [hba]),
          List.cons_append]

theorem dedup_split (p : List Addr) {rest : List Addr} (ha : a ∉ rest) :
    ∃ x, a ∉ x ∧ (p ++ a :: rest).dedup = x ++ a :: rest.dedup := by
  induction p with
  | nil => exact ⟨[], by simp, List.dedup_cons_of_notMem ha⟩
  | cons b t ih =>
    obtain ⟨x, hx, heq⟩ := ih
    rw [List.cons_append]
    by_cases hb : b ∈ t ++ a :: rest
    · exact ⟨x, hx, by rw [List.dedup_cons_of_mem hb, heq]⟩
    · refine ⟨b :: x, ?_, by rw [List.dedup_cons_of_notMem hb, heq, List.cons_append]⟩
      rintro (_ | ⟨_, hmem⟩)
      · exact hb (by simp)
      · exact hx hmem

theorem filter_ne_of_notMem {x : List Addr} (hx : a ∉ x) : x.filter (· ≠ a) = x := by
  rw [List.filter_eq_self]
  intro b hb
  simp only [decide_eq_true_eq]
  rintro rfl
  exact hx hb

theorem verifyStackDist_dedup (h : List Addr) (a : Addr) (update : Bool) :
    verifyStackDist h.dedup a update = (distance h a, if update then (h ++ [a]).dedup else h.dedup) := by
  by_cases hmem : a ∈ h
  · obtain ⟨k, hk, ha⟩ := exists_live hmem
    obtain ⟨heq, hnot⟩ := eq_append_of_live hk ha
    obtain ⟨x, hx, hded⟩ := dedup_split (h.take k) hnot
    rw [← heq] at hded
    have hnot' : a ∉ (h.drop (k + 1)).dedup := by rwa [List.mem_dedup]
    have hidx : h.dedup.reverse.findIdx? (· == a) = some (h.drop (k + 1)).dedup.length := by
      rw [hded, List.reverse_append, List.reverse_cons, List.append_assoc, List.findIdx?_append]
      have hnone : (h.drop (k + 1)).dedup.reverse.findIdx? (· == a) = none := by
        simp only [List.findIdx?_eq_none_iff, List.mem_reverse, beq_eq_false_iff_ne, ne_eq]
        rintro b hb rfl
        exact hnot' hb
      rw [hnone]
      simp [List.findIdx?_cons]
    have herase : h.dedup.eraseIdx (h.dedup.length - 1 - (h.drop (k + 1)).dedup.length) ++ [a] = (h ++ [a]).dedup := by
      rw [dedup_concat, hded, List.filter_append, List.filter_cons_of_neg (by simp), filter_ne_of_notMem hx,
        filter_ne_of_notMem hnot', List.length_append, List.length_cons,
        show x.length + ((h.drop (k + 1)).dedup.length + 1) - 1 - (h.drop (k + 1)).dedup.length = x.length by omega]
      rw [List.eraseIdx_append_of_length_le (Nat.le_refl _), Nat.sub_self, List.eraseIdx_cons_zero]
    rw [verifyStackDist, hidx, distance_of_live hk ha]
    simp only [herase]
  · have hnone : h.dedup.reverse.findIdx? (· == a) = none := by
      simp only [List.findIdx?_eq_none_iff, List.mem_reverse, List.mem_dedup, beq_eq_false_iff_ne, ne_eq]
      rintro b hb rfl
      exact hmem hb
    rw [verifyStackDist, hnone, distance, if_neg hmem, dedup_concat, filter_ne_of_notMem (by rwa [List.mem_dedup])]

theorem naiveDistances_eq : ∀ (ops : List StackDistOp) (h : List Addr), naiveDistances h.dedup ops = distances h ops
  | [], _ => rfl
  | .access a :: ops, h => by
    rw [naiveDistances, distances, verifyStackDist_dedup]
    exact congrArg _ (naiveDistances_eq ops (h ++ [a]))
  | .lookup a _ :: ops, h => by rw [naiveDistances, distances, verifyStackDist_dedup, naiveDistances_eq ops]

/-! ## The calls -/

/-- The leaf `k`, under its node of layer `1`. -/
structure LeafOk (s : StackDistCalc) (k : Nat) (leaf : Node) : Prop where
  tree : s.tree 0 k = some leaf
  isLeftNode : leaf.isLeftNode = (k % 2 == 0)
  parent : leaf.parent = some (1, k / 2)

/-- The leaf `k` changes, and the sums above it follow. -/
theorem updateSumsLeavesToRoot_spec {f f' : Nat → Slot} {m : Nat} (hs : Sums (fun _ => f) (fun _ => m) s)
    (hleaf : LeafOk s k leaf) (hc : Changed f f' k) (hm : k ≤ m) (h31 : s.treeDepth ≤ 31) {isNew : Bool}
    (hnew : f' k = if isNew then .live else .dead) : ∃ s', s.updateSumsLeavesToRoot k isNew =
        .ok (s', if isNew then Infinity else rightOf (isLive f) k s.treeDepth) ∧
      Sums (fun _ => f') (fun _ => m) s' ∧
      Framed (s.setNode 0 k (some { leaf with sumLeft := if isNew then 1 else 0 })) s' := by
  obtain ⟨e, hdeep⟩ := hs.deep
  obtain ⟨s₀, hs₀⟩ : ∃ s₀, s₀ = s.setNode 0 k (some { leaf with sumLeft := if isNew then 1 else 0 }) := ⟨_, rfl⟩
  have hd₀ : s₀.treeDepth = s.treeDepth := by rw [hs₀]; rfl
  have hsums : Sums (passed f f' 0) (fun _ => m) s₀ := by
    refine (hs.of_eq hd₀ ?_ ?_).congr ?_ ?_ (fun _ _ => rfl)
    · intro i
      rw [hs₀]
      rfl
    · intro i
      rw [hs₀]
      funext j
      simp [StackDistCalc.setNode]
    · intro i _
      simp [passed]
    · rw [hd₀]
      exact hs.fits
  have hdis : ∀ b : Bool, b = !isNew → b = true → Dead f' 0 (k / 2 ^ 0) := by
    rintro b rfl hb k' hk'
    have hkk : k' = k := by simpa using hk'
    simp only [Bool.not_eq_true'] at hb
    rw [hkk, hnew, hb]
    rfl
  obtain ⟨s', heq, hsums', hframe⟩ := updateSum_spec hc (fun _ => hm) e 0 s₀ (!isNew) (by omega) (by omega) hsums
    (hdis _ rfl)
  refine ⟨s', ?_, hsums', hs₀ ▸ hframe⟩
  have hsum : below (isLive f') 0 (k / 2 ^ 0) = if isNew then 1 else 0 := by
    cases isNew <;> simp [below, isLive, hnew]
  rw [hsum, Nat.pow_zero, Nat.div_one, Nat.zero_add, Nat.pow_one, rightOf, hs₀, ← hdeep] at heq
  unfold StackDistCalc.updateSumsLeavesToRoot
  simp only [StackDistCalc.node, hleaf.tree, hleaf.parent, hleaf.isLeftNode, bind, Except.bind]
  simp only [hleaf.parent, hleaf.isLeftNode] at heq
  cases isNew with
  | true =>
    simp only [if_true, Bool.not_true] at heq ⊢
    rw [heq]
  | false => exact heq

/-- The tree, the map and the naive stack after the accesses `h`. -/
structure Good (h : List Addr) (s : StackDistCalc) : Prop where
  index : s.index = h.length
  sums : Sums (fun _ => slots h) (fun _ => h.length - 1) s
  tight : Tight s.treeDepth (h.length - 1)
  leaf : ∀ k, slots h k = .live → ∃ leaf, LeafOk s k leaf
  aiMap : ∀ a k, s.aiMap a = some k ↔ slots h k = .live ∧ h[k]? = some a
  stack : s.verifyStack = true → s.stack = h.dedup

/-- The calculator between the two halves of an access to `a`. -/
structure Half (h : List Addr) (a : Addr) (s : StackDistCalc) : Prop where
  index : s.index = h.length
  sums : Sums (fun _ => taken h a) (fun _ => h.length - 1) s
  tight : Tight s.treeDepth (h.length - 1)
  leaf : ∀ k, taken h a k = .live → ∃ leaf, LeafOk s k leaf
  aiMap : ∀ b k, s.aiMap b = some k ↔ slots (h ++ [a]) k = .live ∧ (h ++ [a])[k]? = some b
  stack : s.verifyStack = true → s.stack = h.dedup

theorem Good.aiMap_none (hs : Good h s) : s.aiMap a = none ↔ a ∉ h := by
  constructor
  · intro hnone hmem
    obtain ⟨k, hk⟩ := exists_live hmem
    rw [(hs.aiMap a k).mpr hk] at hnone
    cases hnone
  · intro hnot
    cases hk : s.aiMap a with
    | none => rfl
    | some k => exact absurd (List.mem_of_getElem? ((hs.aiMap a k).mp hk).2) hnot

theorem Good.aiMap_access (hs : Good h s) (b : Addr) (k : Nat) :
    (if b = a then some s.index else s.aiMap b) = some k ↔ slots (h ++ [a]) k = .live ∧ (h ++ [a])[k]? = some b := by
  rw [slots_append, hs.index]
  by_cases hk : k = h.length
  · subst hk
    by_cases hb : b = a
    · simp [hb]
    · rw [if_neg hb, hs.aiMap, slots_freeFrom h _ (Nat.le_refl _)]
      simp [Ne.symm hb]
  · rw [if_neg hk, taken]
    by_cases hlt : k < h.length
    · rw [List.getElem?_append_left hlt]
      by_cases hb : b = a
      · subst hb
        rw [if_pos rfl]
        constructor
        · rintro ⟨⟩
          exact absurd rfl hk
        · rintro ⟨hlive, hb⟩
          split at hlive
          · cases hlive
          · rename_i hnot
            exact absurd ⟨hlive, hb⟩ hnot
      · rw [if_neg hb, hs.aiMap]
        constructor
        · rintro ⟨hlive, hkb⟩
          refine ⟨?_, hkb⟩
          rw [if_neg (by simp [hkb, hb])]
          exact hlive
        · rintro ⟨hlive, hkb⟩
          rw [if_neg (by simp [hkb, hb])] at hlive
          exact ⟨hlive, hkb⟩
    · have hnone : (h ++ [a])[k]? = none := List.getElem?_eq_none (by simp; omega)
      rw [hnone]
      refine ⟨?_, by simp⟩
      split
      · rintro ⟨⟩
        exact absurd rfl hk
      · rw [hs.aiMap, List.getElem?_eq_none (by omega)]
        simp

theorem taken_of_notMem (ha : a ∉ h) : taken h a = slots h := by
  funext k
  rw [taken, if_neg]
  rintro ⟨-, hk⟩
  exact ha (List.mem_of_getElem? hk)

theorem Good.changed (hs : Good h s) (hk : s.aiMap a = some k) : Changed (slots h) (taken h a) k := by
  have hlive := (hs.aiMap a k).mp hk
  refine ⟨?_, by rw [hlive.1]; simp⟩
  intro j hj
  rw [taken, if_neg]
  intro hj'
  rw [← hs.aiMap, hk] at hj'
  exact hj (Option.some.inj hj').symm

theorem Good.depth_le (hs : Good h s) (hlt : h.length ≤ 2 ^ 31) : s.treeDepth ≤ 31 :=
  hs.tight.depth_le (by omega)

theorem Good.lt_length (hs : Good h s) (hk : s.aiMap a = some k) : k < h.length :=
  (List.getElem?_eq_some_iff.mp ((hs.aiMap a k).mp hk).2).1

/-- The sums to the right of the leaf of an address. -/
theorem Good.rightOf_eq (hs : Good h s) (hk : s.aiMap a = some k) :
    rightOf (isLive (slots h)) k s.treeDepth = distance h a := by
  have hlive := (hs.aiMap a k).mp hk
  have hfits : h.length - 1 < 2 ^ s.treeDepth := hs.sums.fits 0 hs.sums.pos
  rw [rightOf_live (hs.lt_length hk) (by omega), distance_of_live hlive.1 hlive.2]

/-- With the leaf of the address gone and the address mapped to the next one, the second half can begin. -/
theorem Good.half {s s' : StackDistCalc} (hs : Good h s) (hk : s.aiMap a = some k)
    (hkept : Kept { s with aiMap := fun b => if b = a then some s.index else s.aiMap b, tree := s'.tree } s')
    (hsums : Sums (fun _ => taken h a) (fun _ => h.length - 1) s') (hd : s'.treeDepth = s.treeDepth)
    (htree : ∀ j, j ≠ k → s'.tree 0 j = s.tree 0 j) : Half h a (s'.setNode 0 k none) := by
  have hlive := (hs.aiMap a k).mp hk
  refine ⟨hkept.index.trans hs.index, hsums.of_eq rfl (fun _ => rfl) ?_, ?_, ?_, ?_, ?_⟩
  · intro i
    funext j
    simp [StackDistCalc.setNode]
  · rw [show (s'.setNode 0 k none).treeDepth = s.treeDepth from hd]
    exact hs.tight
  · intro j hj
    have hjk : j ≠ k := by
      rintro rfl
      simp [taken, hlive] at hj
    have hj' : slots h j = .live := by
      rwa [(hs.changed hk).other j hjk] at hj
    obtain ⟨nd, hnd⟩ := hs.leaf j hj'
    refine ⟨nd, ?_, hnd.isLeftNode, hnd.parent⟩
    simp only [StackDistCalc.setNode, true_and, if_neg hjk, htree j hjk]
    exact hnd.tree
  · intro b j
    rw [show (s'.setNode 0 k none).aiMap = _ from hkept.aiMap]
    exact hs.aiMap_access b j
  · intro hv
    rw [show (s'.setNode 0 k none).stack = s.stack from hkept.stack]
    exact hs.stack (hkept.verifyStack.symm.trans hv)

theorem takeLeaf_spec (hs : Good h s) (hlt : h.length ≤ 2 ^ 31) (a : Addr) :
    ∃ s' mark, s.takeLeaf a true = .ok (s', distance h a, mark) ∧ Half h a s' := by
  cases hk : s.aiMap a with
  | none =>
    have ha := hs.aiMap_none.mp hk
    refine ⟨_, _, by simp only [StackDistCalc.takeLeaf, hk, distance, if_neg ha]; rfl, ?_⟩
    have hsums := taken_of_notMem ha ▸ hs.sums
    refine ⟨hs.index, hsums.of_eq rfl (fun _ => rfl) (fun _ => rfl), hs.tight, ?_, hs.aiMap_access, hs.stack⟩
    intro k hk
    rw [taken_of_notMem ha] at hk
    obtain ⟨leaf, hleaf⟩ := hs.leaf k hk
    exact ⟨leaf, hleaf.tree, hleaf.isLeftNode, hleaf.parent⟩
  | some k =>
    have hlive := (hs.aiMap a k).mp hk
    have hklt := hs.lt_length hk
    obtain ⟨leaf, hleaf⟩ := hs.leaf k hlive.1
    obtain ⟨s₀, hs₀⟩ : ∃ s₀ : StackDistCalc,
        s₀ = { s with aiMap := fun b => if b = a then some s.index else s.aiMap b } := ⟨_, rfl⟩
    have hsums₀ : Sums (fun _ => slots h) (fun _ => h.length - 1) s₀ := by
      rw [hs₀]
      exact hs.sums.of_eq rfl (fun _ => rfl) (fun _ => rfl)
    have hleaf₀ : LeafOk s₀ k leaf := by
      rw [hs₀]
      exact ⟨hleaf.tree, hleaf.isLeftNode, hleaf.parent⟩
    have hd₀ : s₀.treeDepth = s.treeDepth := by rw [hs₀]
    obtain ⟨s', heq, hsums, hframe⟩ := updateSumsLeavesToRoot_spec hsums₀ hleaf₀ (hs.changed hk) (by omega)
      (hd₀ ▸ hs.depth_le hlt) (show taken h a k = if false then .live else .dead by simp [taken, hlive])
    have hkept := hframe.kept
    have hd : s'.treeDepth = s.treeDepth := by rw [hframe.eq, ← hd₀]; rfl
    have htree : ∀ j, s'.tree 0 j = if j = k then some { leaf with sumLeft := 0 } else s.tree 0 j := by
      intro j
      rw [hkept.leaves, hs₀]
      simp [StackDistCalc.setNode]
    refine ⟨s'.setNode 0 k none, leaf.isMarked, ?_, ?_⟩
    · simp only [StackDistCalc.takeLeaf, hk, if_true, ← hs₀]
      simp only [heq, bind, Except.bind, StackDistCalc.node, htree, if_true, hd₀, hs.rightOf_eq hk]
      rfl
    · subst hs₀
      refine hs.half hk ⟨hkept.index, hkept.aiMap, hkept.stack, hkept.verifyStack, rfl⟩ hsums hd fun j hj => ?_
      rw [htree, if_neg hj]

/-! ### The new leaf -/

/-- The loop of `sanityCheckTree` reaches the root. -/
theorem nextUp_spec {m : Nat} (hs : Sums (fun _ => f) (fun _ => m) s) (hk : f k ≠ .dead) (hm : k ≤ m) :
    ∀ r i : Nat, i + 1 + r = s.treeDepth →
    s.nextUp r (i + 1, k / 2 ^ (i + 1)) = .ok (s.treeDepth, k / 2 ^ s.treeDepth) := by
  intro r
  induction r with
  | zero =>
    intro i hi
    rw [← hi]
    rfl
  | succ r ih =>
    intro i hi
    obtain ⟨nd, hnd, hok⟩ := hs.present (show i < s.treeDepth by omega) hk hm
    have hparent : nd.parent = some (i + 2, k / 2 ^ (i + 2)) := by
      rw [hok.parent, if_neg (by omega), div_succ k (i + 1)]
    simp only [StackDistCalc.nextUp, StackDistCalc.node, hnd, bind, Except.bind, hparent]
    exact ih (i + 1) (by omega)

theorem sanityCheckTree_spec {m : Nat} (hs : Sums (fun _ => f) (fun _ => m) s) (hk : f k ≠ .dead) (hm : k ≤ m)
    (hleaf : leaf.parent = some (1, k / 2)) : s.sanityCheckTree leaf = .ok () := by
  obtain ⟨e, hdeep⟩ := hs.deep
  obtain ⟨nd, hnd, hok⟩ := hs.present (show e < s.treeDepth by omega) hk hm
  have hup := nextUp_spec hs hk hm (s.treeDepth - 1) 0 (by omega)
  have hparent : nd.parent = none := by rw [hok.parent, if_pos hdeep.symm]
  rw [← hdeep] at hnd
  rw [Nat.zero_add, Nat.pow_one] at hup
  simp only [StackDistCalc.sanityCheckTree, hleaf, hup, bind, Except.bind, StackDistCalc.node, hnd, panicIf, hparent]
  rfl

/-- A place for the leaf, at an even index by `updateTree`, and at an odd one beside the last leaf. -/
theorem place_spec (hs : Half h a s) (hlt : h.length + 1 < 2 ^ 31) :
    ∃ s', s.place = .ok s' ∧ Sums (fun _ => taken h a) (fun _ => h.length) s' ∧ Kept s s' ∧
    Tight s'.treeDepth h.length := by
  have hfree : FreeFrom (taken h a) h.length := by
    intro k hk
    rw [taken, slots_freeFrom h k hk, if_neg (by simp)]
  rw [StackDistCalc.place, hs.index]
  by_cases hev : h.length % 2 = 0
  · rw [if_pos hev]
    exact updateTree_spec hs.sums hfree hs.index (by omega) hev hs.tight
  · rw [if_neg hev]
    have hdvd : ∀ i, 2 ∣ 2 ^ (i + 1) := fun i => dvd_pow_self 2 (Nat.succ_ne_zero i)
    refine ⟨s, rfl, hs.sums.congr (fun _ _ => rfl) ?_ ?_, Kept.refl s, ?_⟩
    · intro i hi
      obtain ⟨e, hdeep⟩ := hs.sums.deep
      have hfits : h.length - 1 < 2 ^ s.treeDepth := hs.sums.fits 0 (by omega)
      have heven : 2 ∣ 2 ^ s.treeDepth := hdeep ▸ hdvd e
      omega
    · intro i _
      apply div_pred_of_not_dvd
      intro hmod
      have hdiv := (hdvd i).trans (Nat.dvd_of_mod_eq_zero hmod)
      omega
    · rcases hs.tight with ht | ht
      · exact .inl ht
      · exact .inr (by omega)

/-- The leaf of the access `n` in its place. -/
theorem addLeaf_spec (hs : Sums (fun _ => f) (fun _ => n) s) (hn : s.index = n) (hk : f n ≠ .dead) :
    ∃ leaf, LeafOk (s.addLeaf (n % 2 == 0)) n leaf ∧ Sums (fun _ => f) (fun _ => n) (s.addLeaf (n % 2 == 0)) ∧
      ∀ j, j ≠ n → (s.addLeaf (n % 2 == 0)).tree 0 j = s.tree 0 j := by
  obtain ⟨nd, hnd, -⟩ := hs.present (show 0 < s.treeDepth from hs.pos) hk (Nat.le_refl n)
  have hnext := hs.next 0 hs.pos
  rw [Nat.zero_add, Nat.pow_one] at hnd hnext
  refine ⟨{ nodeIndex := n, isLeftNode := n % 2 == 0, parent := some (1, n / 2) }, ⟨?_, rfl, rfl⟩, ?_, ?_⟩
  · simp [StackDistCalc.addLeaf, StackDistCalc.setNode, hnext, hnd, hn]
  · refine hs.of_eq rfl (fun i => ?_) (fun i => ?_)
    · simp [StackDistCalc.addLeaf]
    · funext j
      simp [StackDistCalc.addLeaf, StackDistCalc.setNode]
  · intro j hj
    simp [StackDistCalc.addLeaf, StackDistCalc.setNode, hn, hj]

theorem verifyAccess_spec (hs : Sums (fun _ => f) (fun _ => n) s) (hn : s.index = n) (hk : f n ≠ .dead)
    (htree : s.tree 0 n = some leaf) (hparent : leaf.parent = some (1, n / 2))
    (hstack : s.verifyStack = true → s.stack = h.dedup) (a : Addr) :
    ∃ stack, s.verifyAccess a (distance h a) = .ok { s with stack := stack } ∧
      (s.verifyStack = true → stack = (h ++ [a]).dedup) := by
  by_cases hv : s.verifyStack = true
  · have hsane := sanityCheckTree_spec hs hk (Nat.le_refl n) hparent
    refine ⟨(h ++ [a]).dedup, ?_, fun _ => rfl⟩
    simp [StackDistCalc.verifyAccess, hv, StackDistCalc.node, hn, htree, hsane, hstack hv,
      verifyStackDist_dedup, panicIf, bind, Except.bind]
  · exact ⟨s.stack, by rw [StackDistCalc.verifyAccess, if_neg hv], fun h => absurd h hv⟩

theorem putLeaf_spec (hs : Half h a s) (hlt : h.length + 1 < 2 ^ 31) :
    ∃ s', s.putLeaf a (distance h a) = .ok s' ∧ Good (h ++ [a]) s' := by
  obtain ⟨s₁, heq₁, hsums₁, hkept₁, htight₁⟩ := place_spec hs hlt
  have hidx₁ : s₁.index = h.length := hkept₁.index.trans hs.index
  have hfree : taken h a h.length ≠ .dead := by
    rw [taken, slots_freeFrom h _ (Nat.le_refl _), if_neg (by simp)]
    simp
  obtain ⟨leaf, hleaf, hsums₂, htree₂⟩ := addLeaf_spec hsums₁ hidx₁ hfree
  have hlast : slots (h ++ [a]) h.length = .live := by rw [slots_append, if_pos rfl]
  have hc : Changed (taken h a) (slots (h ++ [a])) h.length :=
    ⟨fun j hj => by rw [slots_append, if_neg hj], hfree⟩
  have hd₂ : (s₁.addLeaf (h.length % 2 == 0)).treeDepth = s₁.treeDepth := rfl
  obtain ⟨s₃, heq₃, hsums₃, hframe⟩ := updateSumsLeavesToRoot_spec hsums₂ hleaf hc (Nat.le_refl _)
    (hd₂ ▸ htight₁.depth_le (by omega)) (show _ = if true then Slot.live else Slot.dead from hlast)
  have hkept := hframe.kept
  have hd₃ : s₃.treeDepth = s₁.treeDepth := by rw [hframe.eq]; rfl
  have htree₃ : ∀ j, s₃.tree 0 j = if j = h.length then some { leaf with sumLeft := 1 } else s.tree 0 j := by
    intro j
    rw [hkept.leaves, ← hkept₁.leaves]
    by_cases hj : j = h.length
    · simp [StackDistCalc.setNode, hj]
    · simp [StackDistCalc.setNode, hj, htree₂ j hj]
  have hidx₃ : s₃.index = h.length := hkept.index.trans hidx₁
  have hver₃ : s₃.verifyStack = s.verifyStack := hkept.verifyStack.trans hkept₁.verifyStack
  have hstack₃ : s₃.verifyStack = true → s₃.stack = h.dedup := by
    intro hv
    rw [show s₃.stack = s.stack from hkept.stack.trans hkept₁.stack]
    exact hs.stack (hver₃ ▸ hv)
  obtain ⟨stack, heq₄, hstack⟩ := verifyAccess_spec hsums₃ hidx₃ (by rw [hlast]; simp) ((htree₃ _).trans (if_pos rfl))
    hleaf.parent hstack₃ a
  have hu64 : u64 (h.length + 1) = h.length + 1 := Nat.mod_eq_of_lt (by omega)
  have hlen : (h ++ [a]).length - 1 = h.length := by simp
  refine ⟨{ s₃ with stack := stack, index := h.length + 1 }, ?_, ?_⟩
  · unfold StackDistCalc.putLeaf
    simp only [heq₁, bind, Except.bind, hidx₁, heq₃, heq₄, hidx₃, hu64]
  · refine ⟨by simp, ?_, ?_, ?_, ?_, hstack⟩
    · rw [hlen]
      exact hsums₃.of_eq rfl (fun _ => rfl) (fun _ => rfl)
    · rw [hlen]
      exact hd₃ ▸ htight₁
    · intro j hj
      by_cases hjn : j = h.length
      · subst hjn
        exact ⟨_, (htree₃ _).trans (if_pos rfl), hleaf.isLeftNode, hleaf.parent⟩
      · rw [slots_append, if_neg hjn] at hj
        obtain ⟨nd, hnd⟩ := hs.leaf j hj
        exact ⟨nd, ((htree₃ j).trans (if_neg hjn)).trans hnd.tree, hnd.isLeftNode, hnd.parent⟩
    · intro b j
      rw [show ({ s₃ with stack := stack, index := h.length + 1 } : StackDistCalc).aiMap = s.aiMap from
        hkept.aiMap.trans hkept₁.aiMap]
      exact hs.aiMap b j

theorem calcStackDistAndUpdate_spec (hs : Good h s) (hlt : h.length + 1 < 2 ^ 31) (a : Addr) :
    ∃ s' mark, s.calcStackDistAndUpdate a true = .ok (s', distance h a, mark) ∧ Good (h ++ [a]) s' := by
  obtain ⟨s₁, mark, heq₁, hhalf⟩ := takeLeaf_spec hs (by omega) a
  obtain ⟨s', heq, hgood⟩ := putLeaf_spec hhalf hlt
  refine ⟨s', mark, ?_, hgood⟩
  simp only [StackDistCalc.calcStackDistAndUpdate, heq₁, bind, Except.bind, if_true, heq]

theorem getSumsLeavesToRoot_spec (hs : Good h s) (hlt : h.length ≤ 2 ^ 31) (hk : s.aiMap a = some k) :
    s.getSumsLeavesToRoot k = .ok (distance h a) := by
  have hlive := (hs.aiMap a k).mp hk
  have hklt := hs.lt_length hk
  obtain ⟨e, hdeep⟩ := hs.sums.deep
  obtain ⟨leaf, hleaf⟩ := hs.leaf k hlive.1
  have hsum := getSum_spec hs.sums (show slots h k ≠ .dead by rw [hlive.1]; simp) (fun _ => by omega) (hs.depth_le hlt)
    e 0 0 0 (by omega)
  rw [hs.rightOf_eq hk, Nat.zero_add, Nat.pow_zero, Nat.div_one, Nat.pow_one, rightOf, ← hdeep] at hsum
  simp only [StackDistCalc.getSumsLeavesToRoot, StackDistCalc.node, hleaf.tree, hleaf.parent, hleaf.isLeftNode, bind,
    Except.bind]
  exact hsum

theorem Good.mark (hs : Good h s) (hleaf : s.tree 0 k = some leaf) (mark : Bool) :
    Good h (s.setNode 0 k (some { leaf with isMarked := mark })) := by
  refine ⟨hs.index, hs.sums.of_eq rfl (fun _ => rfl) ?_, hs.tight, ?_, hs.aiMap, hs.stack⟩
  · intro i
    funext j
    simp [StackDistCalc.setNode]
  · intro j hj
    obtain ⟨nd, hnd⟩ := hs.leaf j hj
    by_cases hjk : j = k
    · subst hjk
      obtain rfl : leaf = nd := by simpa [hleaf] using hnd.tree
      exact ⟨{ leaf with isMarked := mark }, by simp [StackDistCalc.setNode], hnd.isLeftNode, hnd.parent⟩
    · exact ⟨nd, by simpa [StackDistCalc.setNode, hjk] using hnd.tree, hnd.isLeftNode, hnd.parent⟩

theorem calcStackDist_spec (hs : Good h s) (hlt : h.length ≤ 2 ^ 31) (a : Addr) (mark : Bool) :
    ∃ s' prev, s.calcStackDist a mark = .ok (s', distance h a, prev) ∧ Good h s' := by
  have hverify : ∀ s' : StackDistCalc, Good h s' → s'.verifyStack = true →
      panicIf (decide ((verifyStackDist s'.stack a false).1 ≠ distance h a)) = .ok () := by
    intro s' hs' hv
    rw [hs'.stack hv, verifyStackDist_dedup]
    simp [panicIf]
  cases hk : s.aiMap a with
  | none =>
    have hdist : distance h a = Infinity := if_neg (hs.aiMap_none.mp hk)
    refine ⟨s, false, ?_, hs⟩
    simp only [StackDistCalc.calcStackDist, hk, ← hdist]
    simp only [bind, Except.bind]
    split
    · rename_i hv
      rw [hverify s hs hv]
    · rfl
  | some k =>
    obtain ⟨leaf, hleaf⟩ := hs.leaf k ((hs.aiMap a k).mp hk).1
    have hmark := hs.mark hleaf.tree mark
    have hsum := getSumsLeavesToRoot_spec hmark hlt (show _ = some k from hk)
    refine ⟨_, leaf.isMarked, ?_, hmark⟩
    simp only [StackDistCalc.calcStackDist, hk, StackDistCalc.node, hleaf.tree, bind, Except.bind, hsum]
    split
    · rename_i hv
      rw [hverify _ hmark hv]
    · rfl

/-! ## Every run -/

theorem good_new (verify : Bool) : Good [] (StackDistCalc.new verify) := by
  have hone : ∀ i, i < (StackDistCalc.new verify).treeDepth → i = 0 := by
    intro i hi
    change i < 1 at hi
    omega
  have hsums : Sums (fun _ => slots []) (fun _ => 0) (StackDistCalc.new verify) := by
    refine ⟨Nat.le_refl 1, ?_, ?_, ?_, ?_⟩
    · intro i _
      exact Nat.two_pow_pos _
    · intro i hi
      obtain rfl := hone i hi
      rfl
    · intro i j nd hi hnd
      obtain rfl := hone i hi
      simp only [StackDistCalc.new, Nat.zero_add, true_and, Option.ite_none_right_eq_some, Option.some.injEq] at hnd
      obtain ⟨rfl, rfl⟩ := hnd
      exact ⟨Nat.zero_le _, rfl, rfl, rfl, rfl, rfl, by simp, by simp⟩
    · intro i j hi hnd hj
      obtain rfl := hone i hi
      simp [StackDistCalc.new] at hnd hj
      omega
  exact ⟨rfl, hsums, .inl rfl, by simp [slots], by simp [StackDistCalc.new, slots], fun _ => rfl⟩

theorem calls_spec : ∀ (ops : List StackDistOp) {h : List Addr} {s : StackDistCalc}, Good h s →
    h.length + ops.countP (·.isAccess) < 2 ^ 31 → ∃ s', s.calls ops = .ok (s', distances h ops)
  | [], _, s, _, _ => ⟨s, rfl⟩
  | .access a :: ops, h, s, hs, hlt => by
    rw [List.countP_cons_of_pos (by rfl)] at hlt
    obtain ⟨s₁, mark, heq₁, hs₁⟩ := calcStackDistAndUpdate_spec hs (by omega) a
    obtain ⟨s', heq⟩ := calls_spec ops hs₁ (by simp; omega)
    refine ⟨s', ?_⟩
    simp only [StackDistCalc.calls, StackDistCalc.call, heq₁, heq, bind, Except.bind, distances]
  | .lookup a mark :: ops, h, s, hs, hlt => by
    obtain ⟨s₁, prev, heq₁, hs₁⟩ := calcStackDist_spec hs (by omega) a mark
    obtain ⟨s', heq⟩ := calls_spec ops hs₁ hlt
    refine ⟨s', ?_⟩
    simp only [StackDistCalc.calls, StackDistCalc.call, heq₁, heq, bind, Except.bind, distances]

/-- Every run of fewer than `2 ^ 31` accesses, with look-ups between them: no null pointer is followed, no check fails,
and the values are the numbers of addresses since the last access, as the naive stack has them. -/
theorem stack_distance (verify : Bool) (ops : List StackDistOp) (hlt : ops.countP (·.isAccess) < 2 ^ 31) :
    (∃ s, (StackDistCalc.new verify).calls ops = .ok (s, distances [] ops)) ∧
    naiveDistances [] ops = distances [] ops := by
  refine ⟨calls_spec ops (good_new verify) (by simpa using hlt), ?_⟩
  exact naiveDistances_eq ops []

/-- Two addresses, one of them accessed twice before the other comes again. -/
theorem stack_distance_two_addresses :
    (∃ s, (StackDistCalc.new true).calls [.access 1, .access 2, .access 2, .lookup 1 true, .access 1, .access 3] =
      .ok (s, [Infinity, Infinity, 0, 1, 1, Infinity])) ∧
    naiveDistances [] [.access 1, .access 2, .access 2, .lookup 1 true, .access 1, .access 3] =
      [Infinity, Infinity, 0, 1, 1, Infinity] := by
  have hrun := stack_distance true [.access 1, .access 2, .access 2, .lookup 1 true, .access 1, .access 3] (by decide)
  have hdist : distances [] [.access 1, .access 2, .access 2, .lookup 1 true, .access 1, .access 3] =
      [Infinity, Infinity, 0, 1, 1, Infinity] := by decide +kernel
  rwa [hdist] at hrun

end Salam.Mem
