import Salam.Base.Trie
import Salam.Lib.PrefixTree

/-!
# The nodes of a trie as a prefix tree

`Rep t s D` says that the heap of `t` holds the nodes of the prefix tree `s`, and besides them only nodes of `D`, which
are on the way out. Each change that the functions of the trie make to the heap is one of the changes of a prefix tree.

* `addKid_spec`, `addAbove_spec`, `setValue_spec`, `unlink_spec`
-/

namespace Salam.Base.Trie

variable {w : Nat} {V : Type}

/-- The length of the prefix of a node. -/
def Node.len (n : Node w V) : Nat := maskLen n.mask

/-- The mask of a node is that of a prefix, and its key is within it. -/
structure Node.Prefixed (n : Node w V) : Prop where
  len_le : n.len ≤ w
  mask : n.mask = prefixMask n.len
  masked : n.key &&& prefixMask n.len = n.key

/-- The value of a node, if there is one. -/
def valueAt (t : Trie w V) (x : Nat) : Option V := (t.heap x).bind (·.value)

/-- A node is that of the prefix tree. -/
structure Same (s : PrefixTree w) (x : Nat) (n : Node w V) : Prop where
  prefixed : n.Prefixed
  key : s.key x = n.key
  len : s.len x = n.len
  parent : s.parent x = n.parent
  kid : s.kid x = n.kids

/-- The nodes in the heap are those of the prefix tree, and those of `D`. -/
structure Rep (t : Trie w V) (s : PrefixTree w) (D : List Nat) : Prop where
  live : ∀ x, s.live x → ∃ n, t.heap x = some n ∧ Same s x n
  dead : ∀ x, ¬ s.live x → x ∉ D → t.heap x = none
  fresh : ∀ x, s.live x → x < t.next

/-! ## Prefixes -/

section Prefixed

variable {n : Node w V} {x : BitVec w}

theorem Node.Prefixed.matches_iff (h : n.Prefixed) : n.matchesKey x = true ↔ Agree n.len n.key x := by
  rw [Node.matchesKey, beq_iff_eq, h.mask, and_prefixMask_eq_of_masked h.masked]
  constructor <;> exact Agree.symm

theorem Node.Prefixed.within_iff (h : n.Prefixed) {k : Nat} : n.mask &&& prefixMask k = n.mask ↔ n.len ≤ k := by
  rw [h.mask, prefixMask_and_eq_iff h.len_le]

theorem Node.child_len {k : Nat} (hk : k ≤ w) (a : Nat) (key : BitVec w) (val : Option V) :
    (Node.child a key (prefixMask k) val).len = k := maskLen_prefixMask hk

theorem Node.child_prefixed {k : Nat} (hk : k ≤ w) (a : Nat) (key : BitVec w) (val : Option V) :
    (Node.child a key (prefixMask k) val).Prefixed := by
  have hlen := Node.child_len hk a key val
  constructor
  · rw [hlen]
    exact hk
  · rw [hlen]
    rfl
  · rw [hlen]
    exact and_prefixMask_and k key

theorem widthMask_eq (width : Nat) : (widthMask width : BitVec w) = prefixMask width := by
  unfold widthMask
  split
  · rfl
  · rw [prefixMask_of_le (by omega)]

theorem extendMask_prefixMask (hw : 0 < w) (n : Nat) : extendMask (prefixMask n : BitVec w) = prefixMask (n + 1) :=
  prefixMask_extend hw n

end Prefixed

/-! ## The changes of the heap -/

section Changes

variable {t : Trie w V} {s : PrefixTree w} {D : List Nat} {a b : Nat} {i : Bool}

theorem node_eq {n : Node w V} (h : t.heap a = some n) : t.node a = .ok n := by rw [node, h]

theorem Rep.node_of_live (h : Rep t s D) (ha : s.live a) : ∃ n, t.heap a = some n ∧ t.node a = .ok n ∧ Same s a n := by
  obtain ⟨n, hn, hs⟩ := h.live a ha
  exact ⟨n, hn, node_eq hn, hs⟩

theorem Rep.next_not_live (h : Rep t s D) : ¬ s.live t.next := fun hl => Nat.lt_irrefl _ (h.fresh _ hl)

theorem Rep.ne_next (h : Rep t s D) (ha : s.live a) : a ≠ t.next := (h.fresh a ha).ne

theorem setValue_spec (h : Rep t s D) (ha : s.live a) (val : Option V) :
    ∃ t', t.setValue a val = .ok t' ∧ Rep t' s D ∧ ∀ x, t'.valueAt x = if x = a then val else t.valueAt x := by
  obtain ⟨n, hn, hnode, hs⟩ := h.node_of_live ha
  refine ⟨t.set a { n with value := val }, by rw [setValue, hnode]; rfl, ⟨?_, ?_, h.fresh⟩, ?_⟩
  · intro x hx
    by_cases hxa : x = a
    · subst hxa
      exact ⟨{ n with value := val }, by simp [set], ⟨hs.1.1, hs.1.2, hs.1.3⟩, hs.2, hs.3, hs.4, hs.5⟩
    · obtain ⟨m, hm, hs'⟩ := h.live x hx
      exact ⟨m, by simp [set, hxa, hm], hs'⟩
  · intro x hx hD
    have hxa : x ≠ a := by
      rintro rfl
      exact hx ha
    simp [set, hxa, h.dead x hx hD]
  · intro x
    by_cases hxa : x = a <;> simp [valueAt, set, hxa]

/-- A node whose links have changed, but not its prefix. -/
theorem Same.relink {s' : PrefixTree w} {x : Nat} {n n' : Node w V} (h : Same s x n) (hnkey : n'.key = n.key)
    (hnmask : n'.mask = n.mask) (hkey : s'.key x = s.key x) (hlen : s'.len x = s.len x)
      (hparent : s'.parent x = n'.parent)
    (hkid : s'.kid x = n'.kids) : Same s' x n' := by
  have hnlen : n'.len = n.len := by rw [Node.len, hnmask, Node.len]
  refine ⟨⟨?_, ?_, ?_⟩, ?_, ?_, hparent, hkid⟩
  · rw [hnlen]
    exact h.1.1
  · rw [hnlen, hnmask]
    exact h.1.2
  · rw [hnlen, hnkey]
    exact h.1.3
  · rw [hkey, h.key, hnkey]
  · rw [hlen, h.len, hnlen]

theorem Same.of_eq {s' : PrefixTree w} {x : Nat} {n : Node w V} (h : Same s x n) (hkey : s'.key x = s.key x)
    (hlen : s'.len x = s.len x) (hparent : s'.parent x = s.parent x) (hkid : s'.kid x = s.kid x) : Same s' x n :=
  h.relink rfl rfl hkey hlen (hparent.trans h.4) (hkid.trans h.5)

theorem addKid_spec (h : Rep t s []) (ha : s.live a) (i : Bool) (key : BitVec w) {len : Nat} (hlen : len ≤ w)
    (val : Option V) :
    ∃ t', t.addKid a i key (prefixMask len) val = .ok (t', t.next) ∧
      Rep t' (s.addKid a i t.next (key &&& prefixMask len) len) [] ∧
      ∀ x, t'.valueAt x = if x = t.next then val else t.valueAt x := by
  obtain ⟨n, hn, -, hs⟩ := h.node_of_live ha
  have hac := h.ne_next ha
  have hnode : (t.alloc (.child a key (prefixMask len) val)).node a = .ok n := node_eq (by simp [alloc, hac, hn])
  refine ⟨_, by rw [addKid, hnode]; rfl, ⟨?_, ?_, ?_⟩, ?_⟩
  · rintro x hx
    by_cases hxc : x = t.next
    · subst hxc
      refine ⟨.child a key (prefixMask len) val, by simp [set, alloc, hac.symm],
        Node.child_prefixed hlen a key val, ?_, ?_, ?_, ?_⟩
      · simp [PrefixTree.addKid, Node.child, Node.new]
      · simp only [PrefixTree.addKid, if_true]
        exact (Node.child_len hlen a key val).symm
      · simp [PrefixTree.addKid, Node.child]
      · funext j
        simp [PrefixTree.addKid, Node.child, Node.new]
    · by_cases hxa : x = a
      · subst hxa
        refine ⟨n.setKid i (some t.next), by simp [set], hs.relink rfl rfl ?_ ?_ ?_ ?_⟩
        · simp only [PrefixTree.addKid, if_neg hxc]
        · simp only [PrefixTree.addKid, if_neg hxc]
        · simp only [PrefixTree.addKid, if_neg hxc]
          exact hs.parent
        · funext j
          simp [PrefixTree.addKid, hxc, Node.setKid, Function.update_apply, hs.kid]
      · obtain ⟨m, hm, hs'⟩ := h.live x (hx.resolve_left hxc)
        refine ⟨m, by simp [set, alloc, hxa, hxc, hm], hs'.of_eq ?_ ?_ ?_ ?_⟩ <;>
          simp [PrefixTree.addKid, hxc, hxa]
  · intro x hx hD
    simp only [PrefixTree.addKid, not_or] at hx
    have hxa : x ≠ a := by
      rintro rfl
      exact hx.2 ha
    simp [set, alloc, hxa, hx.1, h.dead x hx.2 hD]
  · rintro x (rfl | hx)
    · exact Nat.lt_succ_self _
    · exact (h.fresh x hx).trans (Nat.lt_succ_self _)
  · intro x
    by_cases hxa : x = a
    · subst hxa
      simp [valueAt, set, hac, hn, Node.setKid]
    · by_cases hxc : x = t.next
      · simp [valueAt, set, alloc, hxc, hac.symm, Node.child, Node.new]
      · simp [valueAt, set, alloc, hxa, hxc]

theorem addAbove_spec (h : Rep t s []) (ha : s.live a) (hb : s.live b) (hab : a ≠ b) (i : Bool) (key : BitVec w)
    {len : Nat} (hlen : len ≤ w) :
    ∃ t', t.addAbove a i b key (prefixMask len) = .ok (t', t.next) ∧
      Rep t' (s.addAbove a i b t.next (key &&& prefixMask len) len) [] ∧
      ∀ x, t'.valueAt x = if x = t.next then none else t.valueAt x := by
  obtain ⟨n, hn, -, hs⟩ := h.node_of_live ha
  obtain ⟨m, hm, -, hsm⟩ := h.node_of_live hb
  have hac := h.ne_next ha
  have hbc := h.ne_next hb
  have h₁ : (t.alloc (.child a key (prefixMask len) none)).node b = .ok m := node_eq (by simp [alloc, hbc, hm])
  have h₂ : ((t.alloc (.child a key (prefixMask len) none)).set b { m with parent := some t.next }).node t.next =
      .ok (.child a key (prefixMask len) none) := node_eq (by simp [set, alloc, hbc.symm])
  have h₃ : (((t.alloc (.child a key (prefixMask len) none)).set b { m with parent := some t.next }).set t.next
      ((Node.child a key (prefixMask len) none).setKid false (some b))).node a = .ok n :=
    node_eq (by simp [set, alloc, hac, hab, hn])
  refine ⟨_, by simp only [addAbove, h₁, h₂, h₃, bind, Except.bind]; rfl, ⟨?_, ?_, ?_⟩, ?_⟩
  · rintro x hx
    by_cases hxc : x = t.next
    · subst hxc
      have hp := Node.child_prefixed hlen a key (none : Option V)
      refine ⟨(Node.child a key (prefixMask len) none).setKid false (some b), by simp [set, hac.symm],
        ⟨hp.1, hp.2, hp.3⟩, ?_, ?_, ?_, ?_⟩
      · simp [PrefixTree.addAbove, Node.child, Node.new, Node.setKid]
      · simp only [PrefixTree.addAbove, if_true]
        exact (Node.child_len hlen a key (none : Option V)).symm
      · simp [PrefixTree.addAbove, Node.child, Node.setKid]
      · funext j
        simp [PrefixTree.addAbove, Node.child, Node.new, Node.setKid, Function.update_apply]
    · by_cases hxa : x = a
      · subst hxa
        refine ⟨n.setKid i (some t.next), by simp [set], hs.relink rfl rfl ?_ ?_ ?_ ?_⟩
        · simp only [PrefixTree.addAbove, if_neg hxc]
        · simp only [PrefixTree.addAbove, if_neg hxc]
        · simp only [PrefixTree.addAbove, if_neg hxc, if_neg hab]
          exact hs.parent
        · funext j
          simp [PrefixTree.addAbove, hxc, Node.setKid, Function.update_apply, hs.kid]
      · by_cases hxb : x = b
        · subst hxb
          refine ⟨{ m with parent := some t.next }, by simp [set, hxc, hxa], hsm.relink rfl rfl ?_ ?_ ?_ ?_⟩
          · simp only [PrefixTree.addAbove, if_neg hxc]
          · simp only [PrefixTree.addAbove, if_neg hxc]
          · simp [PrefixTree.addAbove, hxc]
          · funext j
            simp [PrefixTree.addAbove, hxc, hxa, hsm.kid]
        · obtain ⟨l, hl, hs'⟩ := h.live x (hx.resolve_left hxc)
          refine ⟨l, by simp [set, alloc, hxa, hxb, hxc, hl], hs'.of_eq ?_ ?_ ?_ ?_⟩ <;>
            simp [PrefixTree.addAbove, hxc, hxa, hxb]
  · intro x hx hD
    simp only [PrefixTree.addAbove, not_or] at hx
    have hxa : x ≠ a := by
      rintro rfl
      exact hx.2 ha
    have hxb : x ≠ b := by
      rintro rfl
      exact hx.2 hb
    simp [set, alloc, hxa, hxb, hx.1, h.dead x hx.2 hD]
  · rintro x (rfl | hx)
    · exact Nat.lt_succ_self _
    · exact (h.fresh x hx).trans (Nat.lt_succ_self _)
  · intro x
    by_cases hxa : x = a
    · subst hxa
      simp [valueAt, set, hac, hn, Node.setKid]
    · by_cases hxc : x = t.next
      · simp [valueAt, set, hxc, hac.symm, Node.setKid, Node.child, Node.new]
      · by_cases hxb : x = b
        · subst hxb
          simp [valueAt, set, hxa, hxc, hm]
        · simp [valueAt, set, alloc, hxa, hxb, hxc]

theorem unlinkKid_spec {p : Nat} {pn : Node w V} (hsh : s.Shape) (hp : s.live p) (hs : Same s p pn)
    (hi : s.kid p i = some a) :
    ∃ pn', unlinkKid pn a (s.kid a false) = .ok pn' ∧ pn'.key = pn.key ∧ pn'.mask = pn.mask ∧ pn'.parent = pn.parent ∧
      pn'.value = pn.value ∧ (s.splice p i a).kid p = pn'.kids := by
  have hkids : pn.kids i = some a := by rw [← hs.kid, hi]
  have hfirst : pn.kids false = none → pn.kids true = none := by
    rw [← hs.kid]
    exact hsh.first p hp
  have hne : ∀ j, j ≠ i → pn.kids j ≠ some a := by
    intro j hji hj
    exact hji (hsh.kid_inj hp (by rw [hs.kid, hj]) hi)
  cases i with
  | false =>
    simp only [unlinkKid, hkids, if_true, bind, Except.bind, pure, Except.pure]
    cases hk : s.kid a false with
    | none =>
      refine ⟨_, rfl, ?_⟩
      split
      · refine ⟨rfl, rfl, rfl, rfl, ?_⟩
        funext j
        cases j <;> simp [PrefixTree.splice, hk, Node.setKid, hs.kid]
      · rename_i hc
        have htrue : pn.kids true = none := by simpa [Node.setKid] using hc
        refine ⟨rfl, rfl, rfl, rfl, ?_⟩
        funext j
        cases j <;> simp [PrefixTree.splice, hk, Node.setKid, hs.kid, htrue]
    | some k =>
      refine ⟨_, rfl, ?_⟩
      rw [if_neg (by simp [Node.setKid])]
      refine ⟨rfl, rfl, rfl, rfl, ?_⟩
      funext j
      cases j <;> simp [PrefixTree.splice, hk, Node.setKid, hs.kid]
  | true =>
    have hf : pn.kids false ≠ none := by
      intro hf
      rw [hfirst hf] at hkids
      cases hkids
    simp only [unlinkKid, if_neg (hne false (by simp)), hkids, if_true, bind, Except.bind, pure, Except.pure]
    refine ⟨_, rfl, ?_⟩
    rw [if_neg (by simp [Node.setKid, hf])]
    refine ⟨rfl, rfl, rfl, rfl, ?_⟩
    funext j
    cases j <;> simp [PrefixTree.splice, Node.setKid, hs.kid]

theorem adopt_spec {kid : Option Nat} (hkid : ∀ k, kid = some k → ∃ m, t.heap k = some m) (p : Nat) :
    ∃ t', t.adopt kid p = .ok t' ∧ t'.next = t.next ∧
      ∀ x, t'.heap x = (t.heap x).map fun m => if kid = some x then { m with parent := some p } else m := by
  cases kid with
  | none => exact ⟨t, rfl, rfl, fun x => by simp⟩
  | some k =>
    obtain ⟨m, hm⟩ := hkid k rfl
    refine ⟨t.set k { m with parent := some p }, by simp only [adopt, node_eq hm]; rfl, rfl, fun x => ?_⟩
    by_cases hx : x = k
    · subst hx
      simp [set, hm]
    · simp [set, hx, Ne.symm hx]

theorem unlink_spec (h : Rep t s D) (hsh : s.Shape) {p : Nat} (hp : s.live p) (hi : s.kid p i = some a) {n : Node w V}
    (hn : t.heap a = some n) :
    ∃ t', t.unlink a n = .ok (t', p) ∧ Rep t' (s.splice p i a) (a :: D) ∧ t'.next = t.next ∧
      ∀ x, t'.valueAt x = t.valueAt x := by
  obtain ⟨hla, hpa, hlena, -⟩ := hsh.kid p i a hp hi
  obtain ⟨n', hn', -, hs⟩ := h.node_of_live hla
  cases hn.symm.trans hn'
  obtain ⟨pn, hpn, -, hsp⟩ := h.node_of_live hp
  obtain ⟨pn', hunlink, hkey, hmask, hparent, hvalue, hkids⟩ := unlinkKid_spec hsh hp hsp hi
  have hnp : n.parent = some p := by rw [← hs.parent, hpa]
  have hkp : s.kid a false ≠ some p := by
    intro hk
    have := (hsh.kid a false p hla hk).2.2.1
    omega
  have hlive : ∀ k, n.kids false = some k → ∃ m, t.heap k = some m := by
    intro k hk
    obtain ⟨m, hm, -⟩ := h.live k (hsh.kid a false k hla (by rw [hs.kid, hk])).1
    exact ⟨m, hm⟩
  obtain ⟨t₁, ht₁, hnext, hheap⟩ := adopt_spec hlive p
  rw [← hs.kid] at hheap ht₁
  have hpn₁ : t₁.heap p = some pn := by rw [hheap, hpn, Option.map_some, if_neg hkp]
  refine ⟨t₁.set p pn', ?_, ⟨?_, ?_, ?_⟩, hnext, ?_⟩
  · simp only [unlink, hnp, ht₁, node_eq hpn₁, ← hs.kid, hunlink, bind, Except.bind]
    rfl
  · rintro x ⟨hxa, hx⟩
    by_cases hxp : x = p
    · subst hxp
      refine ⟨pn', by simp [set], hsp.relink hkey hmask rfl rfl ?_ hkids⟩
      simp only [PrefixTree.splice, if_neg hkp, hparent, hsp.parent]
    · obtain ⟨m, hm, hs'⟩ := h.live x hx
      have hkid : (s.splice p i a).kid x = s.kid x := by
        funext j
        simp [PrefixTree.splice, hxp]
      refine ⟨if s.kid a false = some x then { m with parent := some p } else m, by simp [set, hxp, hheap, hm], ?_⟩
      split
      · rename_i hk
        exact hs'.relink rfl rfl rfl rfl (by simp [PrefixTree.splice, hk]) (hkid.trans hs'.kid)
      · rename_i hk
        exact hs'.of_eq rfl rfl (by simp [PrefixTree.splice, hk]) hkid
  · intro x hx hD
    simp only [List.mem_cons, not_or] at hD
    have hdead : ¬ s.live x := fun hl => hx ⟨hD.1, hl⟩
    have hxp : x ≠ p := by
      rintro rfl
      exact hdead hp
    simp [set, hxp, hheap, h.dead x hdead hD.2]
  · intro x hx
    have := h.fresh x hx.2
    simpa [set, hnext] using this
  · intro x
    by_cases hxp : x = p
    · subst hxp
      simp [valueAt, set, hpn, hvalue]
    · simp only [valueAt, set, Function.update_of_ne hxp, hheap]
      cases t.heap x with
      | none => rfl
      | some m => simp only [Option.map_some, Option.bind_some]; split <;> rfl

theorem delete_spec (h : Rep t s (a :: D)) (ha : ¬ s.live a) :
    Rep (t.delete a) s D ∧ ∀ x, (t.delete a).valueAt x = if x = a then none else t.valueAt x := by
  refine ⟨⟨?_, ?_, h.fresh⟩, ?_⟩
  · intro x hx
    have hxa : x ≠ a := by
      rintro rfl
      exact ha hx
    obtain ⟨n, hn, hs⟩ := h.live x hx
    exact ⟨n, by simp [delete, hxa, hn], hs⟩
  · intro x hx hD
    by_cases hxa : x = a
    · simp [delete, hxa]
    · simp [delete, hxa, h.dead x hx (by simp [hxa, hD])]
  · intro x
    by_cases hxa : x = a <;> simp [valueAt, delete, hxa]

end Changes

end Salam.Base.Trie
