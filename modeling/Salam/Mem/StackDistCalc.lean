import Mathlib.Data.Nat.Log
import Mathlib.Tactic.Ring

/-!
# `StackDistCalc`: the partial sum tree

The layers of the tree are maps from indices to nodes; layer `0` holds the leaves, one for every access that is still
the last one of its address, and layer `treeDepth` the root. A `Node*` is the place of the node, its layer and its
index: a node is entered at its place when it is made, it never moves, and no place is used twice. Following a pointer
to a place where no node is (a null pointer, or a node that was deleted) is an error.

`updateSum` and `getSum` follow the parent pointers, and get the number of layers as their bound.
-/

namespace Salam.Mem

abbrev Addr := BitVec 64

/-- `uint64_t` arithmetic. -/
def u64 (n : Nat) : Nat := n % 2 ^ 64

theorem u64_eq {n i : Nat} (h : n ≤ 2 ^ i) (hi : i ≤ 31) : u64 n = n := by
  have hpow : 2 ^ i ≤ 2 ^ 31 := Nat.pow_le_pow_right (by norm_num) hi
  exact Nat.mod_eq_of_lt (by omega)

/-! ## `intmath.hh` -/

/-- One line of `floorLog2`: are there bits among the upper `w` of `2 * w` bits? -/
def halveLog2 (w : Nat) (yx : Nat × Nat) : Nat × Nat :=
  if yx.2 &&& ((2 ^ w - 1) <<< w) ≠ 0 then (yx.1 + w, yx.2 >>> w) else yx

def floorLog2 (x : Nat) : Nat :=
    (halveLog2 1 <| halveLog2 2 <| halveLog2 4 <| halveLog2 8 <| halveLog2 16 <| halveLog2 32 (0, x)).1

def ceilLog2 (n : Nat) : Nat := if n = 1 then 0 else floorLog2 (n - 1) + 1

def isPowerOf2 (n : Nat) : Bool := n ≠ 0 && floorLog2 n = ceilLog2 n

theorem and_upper {x w : Nat} (hx : x / 2 ^ w < 2 ^ w) : x &&& ((2 ^ w - 1) <<< w) = (x / 2 ^ w) <<< w := by
  apply Nat.eq_of_testBit_eq
  intro b
  by_cases hb : w ≤ b
  · by_cases hb₂ : b - w < w
    · simp [Nat.testBit_div_two_pow, hb, hb₂]
    · have hhigh : (x / 2 ^ w).testBit (b - w) = false :=
        Nat.testBit_lt_two_pow (hx.trans_le (Nat.pow_le_pow_right (by norm_num) (by omega)))
      simp [hb₂, hhigh]
  · simp [hb]

theorem log_div_two_pow {x w : Nat} (h : x / 2 ^ w ≠ 0) : Nat.log 2 x = w + Nat.log 2 (x / 2 ^ w) := by
  have hpos := Nat.two_pow_pos w
  apply Nat.log_eq_of_pow_le_of_lt_pow
  · rw [pow_add, mul_comm, ← Nat.le_div_iff_mul_le hpos]
    exact Nat.pow_log_le_self 2 h
  · rw [add_assoc, pow_add, mul_comm, ← Nat.div_lt_iff_lt_mul hpos]
    exact Nat.lt_pow_succ_log_self (by norm_num) _

theorem halveLog2_spec {w : Nat} {yx : Nat × Nat} (hx : yx.2 < 2 ^ (w + w)) :
    (halveLog2 w yx).2 < 2 ^ w ∧ (halveLog2 w yx).1 + Nat.log 2 (halveLog2 w yx).2 = yx.1 + Nat.log 2 yx.2 := by
  obtain ⟨y, x⟩ := yx
  have hq : x / 2 ^ w < 2 ^ w := by
    rw [Nat.div_lt_iff_lt_mul (Nat.two_pow_pos w), ← pow_add]
    exact hx
  unfold halveLog2
  rw [and_upper hq]
  by_cases h : x / 2 ^ w = 0
  · rw [h, Nat.zero_shiftLeft, if_neg (by simp)]
    exact ⟨(Nat.div_eq_zero_iff_lt (Nat.two_pow_pos w)).mp h, rfl⟩
  · rw [if_pos (by simp [Nat.shiftLeft_eq, h])]
    simp only [Nat.shiftRight_eq_div_pow]
    exact ⟨hq, by rw [log_div_two_pow h, Nat.add_assoc]⟩

theorem floorLog2_eq {x : Nat} (hx : x < 2 ^ 64) : floorLog2 x = Nat.log 2 x := by
  have h₃₂ := @halveLog2_spec 32 (0, x) hx
  have h₁₆ := @halveLog2_spec 16 _ h₃₂.1
  have h₈ := @halveLog2_spec 8 _ h₁₆.1
  have h₄ := @halveLog2_spec 4 _ h₈.1
  have h₂ := @halveLog2_spec 2 _ h₄.1
  have h₁ := @halveLog2_spec 1 _ h₂.1
  have hsum := h₁.2.trans (h₂.2.trans (h₄.2.trans (h₈.2.trans (h₁₆.2.trans h₃₂.2))))
  rwa [Nat.log_of_lt (show _ < 2 from h₁.1), Nat.add_zero, Nat.zero_add] at hsum

theorem isPowerOf2_iff {n : Nat} (hn : n < 2 ^ 64) : isPowerOf2 n = true ↔ ∃ e, n = 2 ^ e := by
  unfold isPowerOf2 ceilLog2
  rw [Bool.and_eq_true, decide_eq_true_iff, decide_eq_true_iff, floorLog2_eq hn, floorLog2_eq (by omega)]
  constructor
  · rintro ⟨h0, h⟩
    split at h
    · rename_i h1
      exact ⟨0, h1⟩
    · obtain ⟨m, rfl⟩ : ∃ m, n = m + 1 := ⟨n - 1, by omega⟩
      refine ⟨Nat.log 2 (m + 1), ((Nat.log_lt_log_succ_iff (by norm_num) (by omega)).mp ?_).symm⟩
      rw [h]
      exact Nat.lt_succ_self _
  · rintro ⟨e, rfl⟩
    refine ⟨(Nat.two_pow_pos e).ne', ?_⟩
    cases e with
    | zero => simp
    | succ e =>
      have hpos := Nat.two_pow_pos e
      rw [if_neg (by omega), Nat.log_pow (by norm_num),
        Nat.log_eq_of_pow_le_of_lt_pow (show 2 ^ e ≤ _ by omega) (by omega)]

/-! ## The calculator -/

def Infinity : Nat := 2 ^ 64 - 1

structure Node where
  sumLeft : Nat := 0
  sumRight : Nat := 0
  discardLeft : Bool := false
  discardRight : Bool := false
  nodeIndex : Nat := 0
  parent : Option (Nat × Nat) := none
  isLeftNode : Bool := true
  isMarked : Bool := false
  deriving DecidableEq

inductive StackDistErr
  /-- A null pointer, or a pointer to a deleted node, is followed. -/
  | null
  /-- `1 << i` does not fit an `int`. -/
  | shift
  | panic
  /-- More layers than the tree has. -/
  | layers
  deriving DecidableEq

structure StackDistCalc where
  index : Nat
  tree : Nat → Nat → Option Node
  /-- `tree.size() - 1`. -/
  treeDepth : Nat
  aiMap : Addr → Option Nat
  nextIndex : Nat → Nat
  /-- The naive stack, its top at the end. -/
  stack : List Addr
  verifyStack : Bool

/-- `1 << i`. -/
def shiftOne (i : Nat) : Except StackDistErr Nat := if i < 31 then .ok (2 ^ i) else .error .shift

def panicIf (b : Bool) : Except StackDistErr Unit := if b then .error .panic else .ok ()

namespace StackDistCalc

/-- The constructor: an empty layer of leaves, and a root. -/
def new (verifyStack : Bool) : StackDistCalc where
  index := 0
  tree l j := if l = 1 ∧ j = 0 then some {} else none
  treeDepth := 1
  aiMap _ := none
  nextIndex i := if i = 1 then 1 else 0
  stack := []
  verifyStack := verifyStack

def setNode (s : StackDistCalc) (l j : Nat) (nd : Option Node) : StackDistCalc :=
  { s with tree := fun l' j' => if l' = l ∧ j' = j then nd else s.tree l' j' }

/-- The node a pointer points to. -/
def node (s : StackDistCalc) (l j : Nat) : Except StackDistErr Node :=
  match s.tree l j with
  | some nd => .ok nd
  | none => .error .null

end StackDistCalc

/-- The node with its new values: the sum of one side, and that side's flag if the child on it was discarded. -/
def Node.update (nd : Node) (fromLeft : Bool) (sumFromBelow : Nat) (discardNode : Bool) : Node :=
  { nd with
    sumLeft := if fromLeft then sumFromBelow else nd.sumLeft
    sumRight := if fromLeft then nd.sumRight else sumFromBelow
    discardLeft := nd.discardLeft || fromLeft && discardNode && sumFromBelow == 0
    discardRight := nd.discardRight || !fromLeft && discardNode && sumFromBelow == 0 }

namespace StackDistCalc

/-- The checks of `updateSum` in verification: half of the leaves below a node of the layer are on each side. -/
def checkSums (s : StackDistCalc) (nd : Node) (level : Nat) : Except StackDistErr Unit :=
  if s.verifyStack then do
    let half ← shiftOne (level - 1)
    panicIf (half < nd.sumLeft)
    panicIf (half < nd.sumRight)
  else .ok ()

def updateSum : Nat → StackDistCalc → Nat × Nat → Bool → Nat → Nat → Nat → Bool →
    Except StackDistErr (StackDistCalc × Nat)
  | 0, _, _, _, _, _, _, _ => .error .layers
  | bound + 1, s, (l, j), fromLeft, sumFromBelow, level, stackDist, discardNode => do
    let nd ← s.node l j
    s.checkSums nd (level + 1)
    let nd' := nd.update fromLeft sumFromBelow discardNode
    let stackDist := if fromLeft then u64 (stackDist + nd.sumRight) else stackDist
    -- The node goes when both sides were discarded and it is not the root.
    let discard := nd'.discardLeft && nd'.discardRight && discardNode && nd.parent.isSome && sumFromBelow == 0
    let s' := if discard then (s.setNode l j none).setNode (level + 1) nd.nodeIndex none else s.setNode l j (some nd')
    match nd.parent with
    | some up => updateSum bound s' up nd.isLeftNode (u64 (nd'.sumLeft + nd'.sumRight)) (level + 1) stackDist discard
    | none => .ok (s', stackDist)

/-- The leaf `k` gets its sum, and the sums above it follow. -/
def updateSumsLeavesToRoot (s : StackDistCalc) (k : Nat) (isNewLeaf : Bool) :
    Except StackDistErr (StackDistCalc × Nat) := do
  let leaf ← s.node 0 k
  match leaf.parent with
  | none => .error .null
  | some up =>
    if isNewLeaf then do
      let (s, _) ← updateSum s.treeDepth (s.setNode 0 k (some { leaf with sumLeft := 1 })) up
        leaf.isLeftNode 1 0 0 false
      .ok (s, Infinity)
    else
      updateSum s.treeDepth (s.setNode 0 k (some { leaf with sumLeft := 0 })) up leaf.isLeftNode 0 0 0 true

def getSum : Nat → StackDistCalc → Nat × Nat → Bool → Nat → Nat → Nat → Except StackDistErr Nat
  | 0, _, _, _, _, _, _ => .error .layers
  | bound + 1, s, (l, j), fromLeft, _, stackDist, level => do
    let nd ← s.node l j
    let stackDist := if fromLeft then u64 (stackDist + nd.sumRight) else stackDist
    match nd.parent with
    | some up => getSum bound s up nd.isLeftNode (u64 (nd.sumLeft + nd.sumRight)) stackDist (level + 1)
    | none => .ok stackDist

def getSumsLeavesToRoot (s : StackDistCalc) (k : Nat) : Except StackDistErr Nat := do
  let leaf ← s.node 0 k
  match leaf.parent with
  | none => .error .null
  | some up => getSum s.treeDepth s up leaf.isLeftNode 0 0 0

/-- The next node of layer `i`, under the last node of the layer above. -/
def addINode (s : StackDistCalc) (i : Nat) : StackDistCalc :=
  let up := s.nextIndex (i + 1) - 1
  let next := u64 (s.nextIndex i + 1)
  let newINode : Node :=
    { isLeftNode := s.nextIndex i % 2 == 0
      parent := if (s.tree (i + 1) up).isSome then some (i + 1, up) else none
      nodeIndex := next - 1 }
  { s.setNode i (next - 1) (some newINode) with nextIndex := fun l => if l = i then next else s.nextIndex l }

/-- `OP1`, the loop: a node in every layer from `i` down to `1`. -/
def addINodes (s : StackDistCalc) : Nat → StackDistCalc
  | 0 => s
  | i + 1 => addINodes (s.addINode (i + 1)) i

/-- `OP2`: a node in the layers whose nodes below the last one are all used. -/
def addINodesAt (s : StackDistCalc) : Nat → Except StackDistErr StackDistCalc
  | 0 => .ok s
  | i + 1 => do
    let width ← shiftOne (i + 1)
    addINodesAt (if s.index % width = 0 then s.addINode (i + 1) else s) i

/-- `OP1`: a new layer with a new root above the old one. -/
def newRoot (s : StackDistCalc) (root : Node) : StackDistCalc :=
  let newRootNode : Node :=
    { sumLeft := u64 (root.sumRight + root.sumLeft)
      discardLeft := root.discardLeft && root.discardRight }
  let d := s.treeDepth + 1
  { s with
    tree := fun l j =>
      if l = d then if j = 0 then some newRootNode else none
      else if l = d - 1 ∧ j = 0 then some { root with parent := some (d, 0) }
      else s.tree l j
    treeDepth := d
    nextIndex := fun i => if i = d then 1 else s.nextIndex i }

def updateTree (s : StackDistCalc) : Except StackDistErr StackDistCalc :=
  if isPowerOf2 s.index then do
    let root ← s.node s.treeDepth 0
    .ok ((s.newRoot root).addINodes s.treeDepth)
  else s.addINodesAt (s.treeDepth - 1)

/-- The loop of `sanityCheckTree`. -/
def nextUp (s : StackDistCalc) : Nat → Nat × Nat → Except StackDistErr (Nat × Nat)
  | 0, up => .ok up
  | n + 1, (l, j) => do
    let nd ← s.node l j
    match nd.parent with
    | some up => nextUp s n up
    | none => .error .panic

/-- Is the last node on the way up from the leaf the root? -/
def sanityCheckTree (s : StackDistCalc) (leaf : Node) : Except StackDistErr Unit :=
  match leaf.parent with
  | none => .error .null
  | some up => do
    let (l, j) ← s.nextUp (s.treeDepth - 1) up
    let nd ← s.node l j
    panicIf nd.parent.isSome

end StackDistCalc

/-- The distance in a naive stack, and the stack after it. -/
def verifyStackDist (stack : List Addr) (a : Addr) (updateStack : Bool) : Nat × List Addr :=
  match stack.reverse.findIdx? (· == a) with
  | some d => (d, if updateStack then stack.eraseIdx (stack.length - 1 - d) ++ [a] else stack)
  | none => (Infinity, if updateStack then stack ++ [a] else stack)

namespace StackDistCalc

/-- The first half of `calcStackDistAndUpdate`: the leaf of the last access goes. -/
def takeLeaf (s : StackDistCalc) (a : Addr) (addNewNode : Bool) : Except StackDistErr (StackDistCalc × Nat × Bool) :=
  match s.aiMap a with
  | some k => do
    let s := { s with aiMap := fun b => if b = a then if addNewNode then some s.index else none else s.aiMap b }
    let (s, stackDist) ← s.updateSumsLeavesToRoot k false
    let leaf ← s.node 0 k
    .ok (s.setNode 0 k none, stackDist, leaf.isMarked)
  | none =>
    let s := if addNewNode then { s with aiMap := fun b => if b = a then some s.index else s.aiMap b } else s
    .ok (s, Infinity, false)

/-- The leaf of an access, under the last node of layer `1`. -/
def addLeaf (s : StackDistCalc) (isLeft : Bool) : StackDistCalc :=
  let up := s.nextIndex 1 - 1
  let newLeafNode : Node :=
    { nodeIndex := s.index
      isLeftNode := isLeft
      parent := if (s.tree 1 up).isSome then some (1, up) else none }
  { s.setNode 0 s.index (some newLeafNode) with
    nextIndex := fun l => if l = 0 then u64 (s.nextIndex 0 + 1) else s.nextIndex l }

/-- The checks of an access in verification. -/
def verifyAccess (s : StackDistCalc) (a : Addr) (stackDist : Nat) : Except StackDistErr StackDistCalc :=
  if s.verifyStack then do
    let leaf ← s.node 0 s.index
    s.sanityCheckTree leaf
    panicIf ((verifyStackDist s.stack a true).1 ≠ stackDist)
    .ok { s with stack := (verifyStackDist s.stack a true).2 }
  else .ok s

/-- At an even index the new leaf needs a new node above it. -/
def place (s : StackDistCalc) : Except StackDistErr StackDistCalc := if s.index % 2 = 0 then s.updateTree else .ok s

/-- The second half: the leaf of this access comes. -/
def putLeaf (s : StackDistCalc) (a : Addr) (stackDist : Nat) : Except StackDistErr StackDistCalc := do
  let s ← s.place
  let (s, _) ← (s.addLeaf (s.index % 2 == 0)).updateSumsLeavesToRoot s.index true
  let s ← s.verifyAccess a stackDist
  .ok { s with index := u64 (s.index + 1) }

def calcStackDistAndUpdate (s : StackDistCalc) (a : Addr) (addNewNode : Bool) :
    Except StackDistErr (StackDistCalc × Nat × Bool) := do
  let (s, stackDist, mark) ← s.takeLeaf a addNewNode
  let s ← if addNewNode then s.putLeaf a stackDist else .ok s
  .ok (s, stackDist, mark)

def calcStackDist (s : StackDistCalc) (a : Addr) (mark : Bool) : Except StackDistErr (StackDistCalc × Nat × Bool) := do
  let (s, stackDist, prevMark) ← match s.aiMap a with
    | some k => do
      let leaf ← s.node 0 k
      let s := s.setNode 0 k (some { leaf with isMarked := mark })
      let stackDist ← s.getSumsLeavesToRoot k
      .ok (s, stackDist, leaf.isMarked)
    | none => .ok (s, Infinity, false)
  if s.verifyStack then panicIf ((verifyStackDist s.stack a false).1 ≠ stackDist)
  .ok (s, stackDist, prevMark)

end StackDistCalc

/-! ## Runs -/

inductive StackDistOp
  /-- `calcStackDistAndUpdate(a, true)`. -/
  | access (a : Addr)
  /-- `calcStackDist(a, mark)`. -/
  | lookup (a : Addr) (mark : Bool)
  deriving DecidableEq

def StackDistCalc.call (s : StackDistCalc) : StackDistOp → Except StackDistErr (StackDistCalc × Nat × Bool)
  | .access a => s.calcStackDistAndUpdate a true
  | .lookup a mark => s.calcStackDist a mark

/-- The calls one after the other, with the distances they return. -/
def StackDistCalc.calls : StackDistCalc → List StackDistOp → Except StackDistErr (StackDistCalc × List Nat)
  | s, [] => .ok (s, [])
  | s, op :: ops => do
    let (s, stackDist, _) ← s.call op
    let (s, dists) ← calls s ops
    .ok (s, stackDist :: dists)

def StackDistOp.isAccess : StackDistOp → Bool
  | .access _ => true
  | .lookup _ _ => false

end Salam.Mem
