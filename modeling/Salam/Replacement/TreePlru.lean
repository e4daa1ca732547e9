import Mathlib.Data.List.Nodup
import Salam.Lib.PointerTree

/-!
# `TreePLRURP`

Pseudo-LRU with a tree of bits for each set, kept as an array: the node at index `i` has its children at `2 * i + 1` and
`2 * i + 2`, and the leaves, which are the entries, come after the inner nodes and have no bits. A bit that is set
points to the right child.

* `update_bits`: which bits a walk from a leaf to the root sets.
* `subtree_update`: it is the turn of the path to that leaf.
* `findLeaf_eq`: the walk from the root comes to the leaf that the tree points to.
* `tree_plru`: what a victim is after any history, and that victims that are touched go round all entries.
-/

namespace Salam.Replacement

open PointerTree

/-- The index of an inner node or a leaf, which is not the root. `std::floor` is of the integer quotient: a `double` has
every index below `2 ^ 53`. -/
def parentIndex (index : Nat) : Nat := (index - 1) / 2

def leftSubtreeIndex (index : Nat) : Nat := 2 * index + 1

def rightSubtreeIndex (index : Nat) : Nat := 2 * index + 2

def isRightSubtree (index : Nat) : Bool := index % 2 = 0

namespace TreePLRURP

abbrev PLRUTree := List Bool

structure TreePLRUReplData where
  index : Nat
  deriving DecidableEq

/-- The loops of `invalidate` and `touch`; `at` fails for an index that is not in the tree, and the index falls in each
step. -/
def update (point : Bool → Bool) : Nat → PLRUTree → Nat → Option PLRUTree
  | 0, _, _ => none
  | fuel + 1, tree, tree_index =>
    let right := isRightSubtree tree_index
    let tree_index := parentIndex tree_index
    if tree_index < tree.length then
      let tree := tree.set tree_index (point right)
      if tree_index ≠ 0 then update point fuel tree tree_index else some tree
    else none

def invalidate (tree : PLRUTree) (replacement_data : TreePLRUReplData) : Option PLRUTree :=
  update id replacement_data.index tree replacement_data.index

def touch (tree : PLRUTree) (replacement_data : TreePLRUReplData) : Option PLRUTree :=
  update not replacement_data.index tree replacement_data.index

def reset (tree : PLRUTree) (replacement_data : TreePLRUReplData) : Option PLRUTree := touch tree replacement_data

/-- The loop of `getVictim`. -/
def findLeaf (tree : PLRUTree) (tree_index : Nat) : Nat :=
  if tree_index < tree.length then
    findLeaf tree (if tree.getD tree_index false then rightSubtreeIndex tree_index else leftSubtreeIndex tree_index)
  else tree_index
  termination_by tree.length - tree_index
  decreasing_by
    unfold rightSubtreeIndex leftSubtreeIndex
    split <;> omega

def getVictim (numLeaves : Nat) (tree : PLRUTree) (candidates : List TreePLRUReplData) : Option TreePLRUReplData :=
  candidates[findLeaf tree 0 - (numLeaves - 1)]?

/-- The entry that `instantiateEntry` makes when there are `count` already. -/
def instantiateEntry (numLeaves count : Nat) : TreePLRUReplData := ⟨count % numLeaves + numLeaves - 1⟩

/-- The tree that `instantiateEntry` makes for every `numLeaves` entries. -/
def newTree (numLeaves : Nat) : PLRUTree := List.replicate (numLeaves - 1) false

/-- The entries of the tree that is made after `t` others. -/
def entries (numLeaves t : Nat) : List TreePLRUReplData :=
  (List.range numLeaves).map fun i => instantiateEntry numLeaves (t * numLeaves + i)

inductive Op
  | touch (entry : TreePLRUReplData)
  | reset (entry : TreePLRUReplData)
  | invalidate (entry : TreePLRUReplData)

def Op.entry : Op → TreePLRUReplData
  | touch entry => entry
  | reset entry => entry
  | invalidate entry => entry

def Op.apply (tree : PLRUTree) : Op → Option PLRUTree
  | touch entry => TreePLRURP.touch tree entry
  | reset entry => TreePLRURP.reset tree entry
  | invalidate entry => TreePLRURP.invalidate tree entry

/-- A history of calls. -/
def run (tree : PLRUTree) : List Op → Option PLRUTree
  | [] => some tree
  | op :: ops => (op.apply tree).bind fun tree => run tree ops

/-- Rounds of `getVictim` and `touch` of the victim. -/
def rounds (numLeaves : Nat) (candidates : List TreePLRUReplData) :
    Nat → PLRUTree → Option (List TreePLRUReplData × PLRUTree)
  | 0, tree => some ([], tree)
  | n + 1, tree => do
    let victim ← getVictim numLeaves tree candidates
    let tree ← touch tree victim
    let (victims, tree) ← rounds numLeaves candidates n tree
    return (victim :: victims, tree)

/-! ## The bits -/

section Bits

variable {dir : Bool → Bool} {fuel j k h a c x : Nat} {tree tree' : PLRUTree}

/-- The bit of the node with index `a - 1`: the children of `a` are `2 * a` and `2 * a + 1`. -/
def bit (tree : PLRUTree) (a : Nat) : Bool := tree.getD (a - 1) false

theorem bit_set_self (h : a - 1 < tree.length) (b : Bool) : bit (tree.set (a - 1) b) a = b := by
  rw [bit, List.getD_eq_getElem?_getD, List.getElem?_set_self h]
  rfl

theorem bit_set_ne (hne : a ≠ c) (ha : 0 < a) (hc : 0 < c) (b : Bool) : bit (tree.set (a - 1) b) c = bit tree c := by
  rw [bit, bit, List.getD_eq_getElem?_getD, List.getD_eq_getElem?_getD, List.getElem?_set_ne (by omega)]

/-- What a walk from leaf `j` (counted from 1) to the root does: the nodes on the path are set, the others stay. -/
structure Walked (dir : Bool → Bool) (j : Nat) (tree tree' : PLRUTree) : Prop where
  length_eq : tree'.length = tree.length
  path : ∀ e, 0 < j / 2 ^ (e + 1) → bit tree' (j / 2 ^ (e + 1)) = dir (decide (j / 2 ^ e % 2 = 1))
  others : ∀ c, 0 < c → (∀ e, j / 2 ^ (e + 1) ≠ c) → bit tree' c = bit tree c

theorem div_pow_succ (j e : Nat) : j / 2 ^ (e + 1) = j / 2 / 2 ^ e := by
  rw [Nat.pow_succ', Nat.div_div_eq_div_mul]

theorem div_pow_lt (hj : 0 < j) (e : Nat) : j / 2 ^ (e + 1) < j :=
  Nat.div_lt_self hj (Nat.one_lt_two_pow (Nat.succ_ne_zero e))

/-- **A walk to the root.** -/
theorem update_bits (dir : Bool → Bool) (hj : 2 ≤ j) (hfuel : j - 1 ≤ fuel) (hlen : j / 2 - 1 < tree.length) :
    ∃ tree', update dir fuel tree (j - 1) = some tree' ∧ Walked dir j tree tree' := by
  induction fuel generalizing j tree with
  | zero => omega
  | succ fuel ih =>
    have hparent : parentIndex (j - 1) = j / 2 - 1 := by
      unfold parentIndex
      omega
    have hright : isRightSubtree (j - 1) = decide (j % 2 = 1) := by
      rw [isRightSubtree, decide_eq_decide]
      omega
    rw [update, hparent, hright, if_pos hlen]
    have hset := bit_set_self (a := j / 2) hlen (dir (decide (j % 2 = 1)))
    by_cases hroot : j / 2 - 1 ≠ 0
    · rw [if_pos hroot]
      obtain ⟨tree', hout, hwalk⟩ := @ih (j / 2) (tree.set (j / 2 - 1) (dir (decide (j % 2 = 1)))) (by omega)
        (by omega) (by rw [List.length_set]; omega)
      refine ⟨tree', hout, by rw [hwalk.length_eq, List.length_set], fun e he => ?_, fun c hc hne => ?_⟩
      · cases e with
        | zero =>
          have hkept := hwalk.others (j / 2) (by omega) fun e => Nat.ne_of_lt (div_pow_lt (by omega) e)
          rw [Nat.zero_add, Nat.pow_one, hkept, hset, Nat.pow_zero, Nat.div_one]
        | succ e =>
          rw [div_pow_succ] at he ⊢
          rw [hwalk.path e he, ← div_pow_succ]
      · have hfirst := hne 0
        rw [Nat.zero_add, Nat.pow_one] at hfirst
        rw [hwalk.others c hc fun e => by rw [← div_pow_succ]; exact hne (e + 1), bit_set_ne hfirst (by omega) hc]
    · rw [if_neg hroot]
      have hone : j / 2 = 1 := by omega
      refine ⟨_, rfl, List.length_set, fun e he => ?_, fun c hc hne => ?_⟩
      · cases e with
        | zero => rw [Nat.zero_add, Nat.pow_one, hset, Nat.pow_zero, Nat.div_one]
        | succ e =>
          rw [div_pow_succ, hone, Nat.div_eq_of_lt (Nat.one_lt_two_pow (Nat.succ_ne_zero e))] at he
          omega
      · have hfirst := hne 0
        exact bit_set_ne hfirst (by omega) hc _

/-- The subtree below node `a`. -/
def subtree (tree : PLRUTree) : (h : Nat) → Nat → PointerTree h
  | 0, _ => .leaf
  | h + 1, a => .node (bit tree a) (subtree tree h (2 * a)) (subtree tree h (2 * a + 1))

theorem Walked.subtree_off (hw : Walked dir j tree tree') (ha : 0 < a) (hoff : ∀ e, j / 2 ^ e ≠ a) :
    subtree tree' h a = subtree tree h a := by
  induction h generalizing a with
  | zero => rfl
  | succ h ih =>
    have hchild : ∀ c, c / 2 = a → ∀ e, j / 2 ^ e ≠ c := by
      rintro c hc e rfl
      rw [Nat.div_div_eq_div_mul, ← Nat.pow_succ] at hc
      exact hoff (e + 1) hc
    rw [subtree, subtree, hw.others a ha fun e => hoff (e + 1), ih (by omega) (hchild (2 * a) (by omega)),
      ih (by omega) (hchild (2 * a + 1) (by omega))]

/-- The nodes above a leaf of one child are not the other child. -/
theorem div_pow_ne {b c : Nat} (hb : 0 < b) (hc : 0 < c) (hne : b ≠ c) (hhalf : b / 2 = c / 2)
    (hx : x < 2 ^ h) (e : Nat) :
    (b * 2 ^ h + x) / 2 ^ e ≠ c := by
  obtain hle | hlt := Nat.lt_or_ge h e
  · -- above the children
    obtain ⟨i, rfl⟩ := Nat.exists_eq_add_of_lt hle
    have hup : (b * 2 ^ h + x) / 2 ^ (h + i + 1) = b / 2 ^ (i + 1) := by
      rw [Nat.add_assoc, Nat.pow_add, ← Nat.div_div_eq_div_mul, Nat.mul_comm b, Nat.mul_add_div (Nat.two_pow_pos h),
        Nat.div_eq_of_lt hx, Nat.add_zero]
    have hless : b / 2 ^ (i + 1) ≤ b / 2 := by
      rw [div_pow_succ]
      exact Nat.div_le_self _ _
    omega
  · obtain ⟨i, rfl⟩ := Nat.exists_eq_add_of_le hlt
    have hdown : b * 2 ^ i ≤ (b * 2 ^ (e + i) + x) / 2 ^ e := by
      rw [Nat.le_div_iff_mul_le (Nat.two_pow_pos e), Nat.mul_assoc, ← Nat.pow_add, Nat.add_comm i e]
      exact Nat.le_add_right _ _
    cases i with
    | zero =>
      rw [Nat.add_zero] at hx ⊢
      rw [Nat.mul_comm b, Nat.mul_add_div (Nat.two_pow_pos e), Nat.div_eq_of_lt hx, Nat.add_zero]
      exact hne
    | succ i =>
      have hbig : b * 2 ≤ b * 2 ^ (i + 1) :=
        Nat.mul_le_mul_left b (Nat.le_self_pow (Nat.succ_ne_zero i) 2)
      omega

/-- **The path to a leaf is turned.** -/
theorem Walked.subtree_turn (hw : Walked dir j tree tree') (ha : 0 < a) (hx : x < 2 ^ h) (hj : j = a * 2 ^ h + x) :
    subtree tree' h a = (subtree tree h a).turn dir x := by
  induction h generalizing a x with
  | zero => rfl
  | succ h ih =>
    have hpow : 2 ^ (h + 1) = 2 * 2 ^ h := Nat.pow_succ'
    have hup : j / 2 ^ (h + 1) = a := by
      rw [hj, Nat.mul_comm a, Nat.mul_add_div (Nat.two_pow_pos _), Nat.div_eq_of_lt hx, Nat.add_zero]
    have hbit := hw.path h (by omega)
    rw [hup] at hbit
    rw [subtree, subtree, turn, hbit]
    by_cases hlow : x < 2 ^ h
    · have hleft : j = 2 * a * 2 ^ h + x := by rw [hj, hpow, ← Nat.mul_assoc, Nat.mul_comm a 2]
      have hdir : j / 2 ^ h = 2 * a := by
        rw [hleft, Nat.mul_comm (2 * a), Nat.mul_add_div (Nat.two_pow_pos _), Nat.div_eq_of_lt hlow, Nat.add_zero]
      have hoff : ∀ e, j / 2 ^ e ≠ 2 * a + 1 := fun e =>
        hleft ▸ div_pow_ne (by omega) (by omega) (by omega) (by omega) hlow e
      rw [if_pos hlow, hdir, decide_eq_false (by omega), ih (by omega) hlow hleft, hw.subtree_off (by omega) hoff]
    · have hright : j = (2 * a + 1) * 2 ^ h + (x - 2 ^ h) := by
        rw [hj, hpow, Nat.add_mul, ← Nat.mul_assoc, Nat.mul_comm a 2]
        omega
      have hdir : j / 2 ^ h = 2 * a + 1 := by
        rw [hright, Nat.mul_comm (2 * a + 1), Nat.mul_add_div (Nat.two_pow_pos _),
          Nat.div_eq_of_lt (by omega), Nat.add_zero]
      have hoff : ∀ e, j / 2 ^ e ≠ 2 * a := fun e =>
        hright ▸ div_pow_ne (by omega) (by omega) (by omega) (by omega) (by omega) e
      rw [if_neg hlow, hdir, decide_eq_true (by omega), ih (by omega) (by omega) hright, hw.subtree_off (by omega) hoff]

/-- **The walk from the root** comes to the leaf that the tree points to. -/
theorem findLeaf_eq (hlen : tree.length = 2 ^ k - 1) {d : Nat} (hd : d + h = k) (hlo : 2 ^ d ≤ a)
    (hhi : a < 2 ^ (d + 1)) :
    findLeaf tree (a - 1) = a * 2 ^ h - 1 + (subtree tree h a).pointed := by
  induction h generalizing a d with
  | zero =>
    have hge : ¬ a - 1 < tree.length := by
      rw [hlen, ← hd, Nat.add_zero]
      omega
    rw [findLeaf, if_neg hge, Nat.pow_zero, Nat.mul_one]
    rfl
  | succ h ih =>
    have hlt : a - 1 < tree.length := by
      have hle : 2 ^ (d + 1) ≤ 2 ^ k := Nat.pow_le_pow_right (by decide) (by omega)
      omega
    have hpowh : a * 2 ^ (h + 1) = 2 * a * 2 ^ h := by rw [Nat.pow_succ', ← Nat.mul_assoc, Nat.mul_comm a 2]
    have hah : 0 < 2 * a * 2 ^ h := Nat.mul_pos (by omega) (Nat.two_pow_pos h)
    rw [findLeaf, if_pos hlt, subtree, pointed]
    by_cases hb : bit tree a = true
    · have hchild : rightSubtreeIndex (a - 1) = 2 * a + 1 - 1 := by
        unfold rightSubtreeIndex
        omega
      rw [if_pos hb, if_pos (show tree.getD (a - 1) false = true from hb), hchild,
        ih (d := d + 1) (by omega) (by omega) (by omega), hpowh,
        Nat.add_mul]
      omega
    · have hchild : leftSubtreeIndex (a - 1) = 2 * a - 1 := by
        unfold leftSubtreeIndex
        omega
      rw [if_neg hb, if_neg (show ¬ tree.getD (a - 1) false = true from hb), hchild,
        ih (d := d + 1) (by omega) (by omega) (by omega), hpowh]

end Bits

/-! ## Victims -/

section Victims

variable {dir : Bool → Bool} {k n t w : Nat} {tree : PLRUTree}

/-- The entry of a leaf. -/
def leafEntry (k w : Nat) : TreePLRUReplData := ⟨w + 2 ^ k - 1⟩

theorem entries_eq (k t : Nat) : entries (2 ^ k) t = (List.range (2 ^ k)).map (leafEntry k) := by
  refine List.map_congr_left fun w hw => ?_
  rw [instantiateEntry, Nat.mul_comm, Nat.mul_add_mod, Nat.mod_eq_of_lt (List.mem_range.mp hw)]
  rfl

theorem leafEntry_inj {v : Nat} (h : leafEntry k v = leafEntry k w) : v = w := by
  have hpos := Nat.two_pow_pos k
  have hindex := congrArg TreePLRUReplData.index h
  simp only [leafEntry] at hindex
  omega

theorem nodup_entries (k t : Nat) : (entries (2 ^ k) t).Nodup := by
  rw [entries_eq]
  exact List.Nodup.map (fun _ _ h => leafEntry_inj h) List.nodup_range

theorem mem_entries {x : TreePLRUReplData} : x ∈ entries (2 ^ k) t ↔ ∃ w < 2 ^ k, x = leafEntry k w := by
  rw [entries_eq, List.mem_map]
  constructor
  · rintro ⟨w, hw, rfl⟩
    exact ⟨w, List.mem_range.mp hw, rfl⟩
  · rintro ⟨w, hw, rfl⟩
    exact ⟨w, List.mem_range.mpr hw, rfl⟩

theorem update_leaf (dir : Bool → Bool) (hk : 0 < k) (hlen : tree.length = 2 ^ k - 1) (hw : w < 2 ^ k) :
    ∃ tree', update dir (leafEntry k w).index tree (leafEntry k w).index = some tree' ∧ tree'.length = 2 ^ k - 1 ∧
      subtree tree' k 1 = (subtree tree k 1).turn dir w := by
  have htwo : 2 ≤ 2 ^ k := Nat.le_self_pow (Nat.ne_of_gt hk) 2
  have hindex : (leafEntry k w).index = 1 * 2 ^ k + w - 1 := by
    rw [leafEntry, Nat.one_mul, Nat.add_comm]
  rw [hindex]
  have hparent : (1 * 2 ^ k + w) / 2 - 1 < tree.length := by omega
  obtain ⟨tree', hout, hwalk⟩ := update_bits dir (by omega) (Nat.le_refl _) hparent
  exact ⟨tree', hout, by rw [hwalk.length_eq, hlen], hwalk.subtree_turn Nat.one_pos hw rfl⟩

/-- The victim is the entry of the leaf that the tree points to. -/
theorem getVictim_eq (hlen : tree.length = 2 ^ k - 1) (t : Nat) :
    getVictim (2 ^ k) tree (entries (2 ^ k) t) = some (leafEntry k (subtree tree k 1).pointed) := by
  have hleaf := findLeaf_eq (a := 1) hlen (Nat.zero_add k) (Nat.le_refl 1) (by decide)
  rw [getVictim, show (0 : Nat) = 1 - 1 from rfl, hleaf, entries_eq, Nat.one_mul, Nat.add_sub_cancel_left,
    List.getElem?_map, List.getElem?_range (pointed_lt _)]
  rfl

/-- Any history leaves a tree of the same size. -/
theorem run_length (hk : 0 < k) (hlen : tree.length = 2 ^ k - 1) {ops : List Op}
    (hops : ∀ op ∈ ops, op.entry ∈ entries (2 ^ k) t) :
      ∃ tree', run tree ops = some tree' ∧ tree'.length = 2 ^ k - 1 := by
  induction ops generalizing tree with
  | nil => exact ⟨tree, rfl, hlen⟩
  | cons op ops ih =>
    rw [List.forall_mem_cons] at hops
    have hstep : ∃ tree', op.apply tree = some tree' ∧ tree'.length = 2 ^ k - 1 := by
      obtain ⟨w, hw, hentry⟩ := mem_entries.mp hops.1
      cases op with
      | touch entry =>
        cases hentry
        obtain ⟨tree', hout, hlen', -⟩ := update_leaf not hk hlen hw
        exact ⟨tree', hout, hlen'⟩
      | reset entry =>
        cases hentry
        obtain ⟨tree', hout, hlen', -⟩ := update_leaf not hk hlen hw
        exact ⟨tree', hout, hlen'⟩
      | invalidate entry =>
        cases hentry
        obtain ⟨tree', hout, hlen', -⟩ := update_leaf id hk hlen hw
        exact ⟨tree', hout, hlen'⟩
    obtain ⟨tree', hout, hlen'⟩ := hstep
    obtain ⟨tree'', hrun, hlen''⟩ := ih hlen' hops.2
    exact ⟨tree'', by rw [run, hout]; exact hrun, hlen''⟩

/-- Rounds visit the leaves that the tree points to. -/
theorem rounds_eq (hk : 0 < k) (hlen : tree.length = 2 ^ k - 1) (t n : Nat) :
    ∃ tree', rounds (2 ^ k) (entries (2 ^ k) t) n tree =
    some ((visits n (subtree tree k 1)).map (leafEntry k), tree') := by
  induction n generalizing tree with
  | zero => exact ⟨tree, rfl⟩
  | succ n ih =>
    obtain ⟨tree', hout, hlen', hturn⟩ := update_leaf not hk hlen (subtree tree k 1).pointed_lt
    obtain ⟨tree'', hrounds⟩ := ih hlen'
    have htouch : touch tree (leafEntry k (subtree tree k 1).pointed) = some tree' := hout
    refine ⟨tree'', ?_⟩
    rw [rounds, getVictim_eq hlen]
    simp only [bind, Option.bind, htouch, hrounds]
    rw [visits, next, ← hturn]
    rfl

/-- **Tree-PLRU**: after any history on the entries of a tree the victim is one of them, an entry is the victim right
after it is invalidated and is not right after it is touched, and from any state of the tree victims that are touched go
round all entries. -/
theorem tree_plru {numLeaves : Nat} (hpow : ∃ k, numLeaves = 2 ^ k) (h2 : 2 ≤ numLeaves) (t : Nat) (ops : List Op)
    (hops : ∀ op ∈ ops, op.entry ∈ entries numLeaves t) :
    (∃ tree, run (newTree numLeaves) ops = some tree ∧
      (∃ v ∈ entries numLeaves t, getVictim numLeaves tree (entries numLeaves t) = some v) ∧
      ∀ x ∈ entries numLeaves t,
        (∃ tree', invalidate tree x = some tree' ∧ getVictim numLeaves tree' (entries numLeaves t) = some x) ∧
        ∃ tree', touch tree x = some tree' ∧
          ∃ v ∈ entries numLeaves t, getVictim numLeaves tree' (entries numLeaves t) = some v ∧ v ≠ x) ∧
    (entries numLeaves t).Nodup ∧
    ∀ tree : PLRUTree, tree.length = numLeaves - 1 → ∃ victims tree',
      rounds numLeaves (entries numLeaves t) numLeaves tree = some (victims, tree') ∧
      victims.Perm (entries numLeaves t) := by
  obtain ⟨k, rfl⟩ := hpow
  have hk : 0 < k := by
    by_contra h0
    rw [Nat.eq_zero_of_not_pos h0] at h2
    exact absurd h2 (by decide)
  refine ⟨?_, nodup_entries k t, fun tree hlen => ?_⟩
  · obtain ⟨tree, hrun, hlen⟩ := run_length hk (List.length_replicate) hops
    refine ⟨tree, hrun, ⟨_, mem_entries.mpr ⟨_, pointed_lt _, rfl⟩, getVictim_eq hlen t⟩, fun x hx => ?_⟩
    obtain ⟨w, hw, rfl⟩ := mem_entries.mp hx
    constructor
    · obtain ⟨tree', hout, hlen', hturn⟩ := update_leaf id hk hlen hw
      refine ⟨tree', hout, ?_⟩
      rw [getVictim_eq hlen', hturn, pointed_turnTo _ hw]
    · obtain ⟨tree', hout, hlen', hturn⟩ := update_leaf not hk hlen hw
      refine ⟨tree', hout, _, mem_entries.mpr ⟨_, pointed_lt _, rfl⟩, getVictim_eq hlen' t, fun heq => ?_⟩
      obtain ⟨h, rfl⟩ := Nat.exists_eq_add_of_lt hk
      rw [hturn] at heq
      exact pointed_turnAway_ne _ w (leafEntry_inj heq)
  · obtain ⟨tree', hrounds⟩ := rounds_eq hk hlen t (2 ^ k)
    refine ⟨_, tree', hrounds, ?_⟩
    rw [entries_eq]
    exact (visits_perm _).map _

/-- Four entries, after the last one is invalidated and the first one touched. -/
theorem tree_plru_four : ∃ tree, run (newTree 4) [.invalidate ⟨6⟩, .touch ⟨3⟩] = some tree ∧
    ∃ v ∈ entries 4 0, getVictim 4 tree (entries 4 0) = some v := by
  obtain ⟨⟨tree, hrun, hvictim, -⟩, -⟩ := @tree_plru 4 ⟨2, rfl⟩ (by decide) 0 [.invalidate ⟨6⟩, .touch ⟨3⟩]
    (by simp [Op.entry, entries, instantiateEntry, List.range_succ])
  exact ⟨tree, hrun, hvictim⟩

end Victims

end TreePLRURP

end Salam.Replacement
