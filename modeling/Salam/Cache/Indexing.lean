import Mathlib.Data.Nat.Log
import Mathlib.Logic.Function.Iterate
import Salam.Base.Bitfield

/-!
# The indexing policies

Where the entry of an address may be: `SetAssociative` takes the set from the address, `SkewedAssociative` another one
in each way, hashed from the set bits and as many bits of the tag.

* `deskew_skew`: a skewing function is undone, half of them by running the shift register of `hash` on.
* `extractSet_inj`: a tag and the set in one way determine the address, up to its offset in the entry.
* `regenerateAddr_extract`: it is the address that is regenerated.
-/

namespace Salam.Cache

open Base (Addr)
open Base.Bitfield

/-! ## The shift register -/

/-- `SkewedAssociative::hash` -/
def hash (msbShift : Nat) (addr : Addr) : Addr :=
  let lsb := bits addr 0 0
  let msb := bits addr msbShift msbShift
  let xor_bit := msb ^^^ lsb
  insertBits (addr >>> 1) msbShift msbShift xor_bit

/-- `SkewedAssociative::dehash` -/
def dehash (msbShift : Nat) (addr : Addr) : Addr :=
  let msb := bits addr (msbShift - 1) (msbShift - 1)
  let xor_bit := bits addr msbShift msbShift
  let lsb := msb ^^^ xor_bit
  let addr_no_msb := mbits addr (msbShift - 1) 0
  insertBits (addr_no_msb <<< 1) 0 0 lsb

/-- The word has no bits from the `n`-th on. -/
def Within (n : Nat) (x : Addr) : Prop := ∀ i, n ≤ i → x.getLsbD i = false

section Register

variable {m : Nat} {x y : Addr}

theorem getLsbD_hash (hm : m < 64) {i : Nat} :
    (hash m x).getLsbD i = if i = m then x.getLsbD m ^^ x.getLsbD 0 else x.getLsbD (i + 1) := by
  rw [hash, getLsbD_insertBit hm, BitVec.getLsbD_xor, getLsbD_bits le_rfl hm, getLsbD_bits le_rfl (by decide),
    BitVec.getLsbD_ushiftRight, Nat.add_comm 1 i]
  simp

theorem getLsbD_dehash (h0 : 0 < m) (hm : m < 64) {i : Nat} :
    (dehash m x).getLsbD i = if i = 0 then x.getLsbD (m - 1) ^^ x.getLsbD m
      else decide (i ≤ m) && x.getLsbD (i - 1) := by
  change (insertBits _ ((0 : Nat) : Int) 0 _).getLsbD i = _
  rw [getLsbD_insertBit (by decide), BitVec.getLsbD_xor, getLsbD_bits le_rfl (by omega), getLsbD_bits le_rfl hm,
    BitVec.getLsbD_shiftLeft, mbits, BitVec.getLsbD_and, BitVec.getLsbD_and, BitVec.getLsbD_not,
    getLsbD_mask (by omega), getLsbD_mask (by decide)]
  by_cases hi : i = 0
  · simp [hi]
  · rw [if_neg hi, if_neg hi]
    by_cases him : i ≤ m
    · have h1 : i < 64 := by omega
      have h2 : ¬ i < 1 := by omega
      have h3 : i - 1 < m - 1 + 1 := by omega
      have h4 : i - 1 < 64 := by omega
      simp [h1, h2, h3, h4, him]
    · have h3 : ¬ i - 1 < m - 1 + 1 := by omega
      simp [h3, him]

theorem within_hash (hm : m < 64) (hx : Within (m + 1) x) : Within (m + 1) (hash m x) := by
  intro i hi
  rw [getLsbD_hash hm, if_neg (by omega)]
  exact hx _ (by omega)

theorem within_dehash (h0 : 0 < m) (hm : m < 64) : Within (m + 1) (dehash m x) := by
  intro i hi
  rw [getLsbD_dehash h0 hm, if_neg (by omega), decide_eq_false (by omega), Bool.false_and]

theorem Within.xor {n : Nat} (hx : Within n x) (hy : Within n y) : Within n (x ^^^ y) := by
  intro i hi
  rw [BitVec.getLsbD_xor, hx i hi, hy i hi]
  rfl

theorem Within.ext {n : Nat} (hx : Within n x) (hy : Within n y) (h : ∀ i < n, x.getLsbD i = y.getLsbD i) : x = y := by
  apply BitVec.eq_of_getLsbD_eq
  intro i _
  by_cases hi : i < n
  · exact h i hi
  · rw [hx i (by omega), hy i (by omega)]

theorem dehash_hash (h0 : 0 < m) (hm : m < 64) (hx : Within (m + 1) x) : dehash m (hash m x) = x := by
  apply (within_dehash h0 hm).ext hx
  intro i hi
  rw [getLsbD_dehash h0 hm]
  by_cases hi0 : i = 0
  · rw [if_pos hi0, getLsbD_hash hm, getLsbD_hash hm, if_neg (by omega), if_pos rfl, Nat.sub_add_cancel h0, hi0]
    cases x.getLsbD m <;> cases x.getLsbD 0 <;> rfl
  · rw [if_neg hi0, getLsbD_hash hm, if_neg (by omega), Nat.sub_add_cancel (by omega), decide_eq_true (by omega),
      Bool.true_and]

theorem hash_dehash (h0 : 0 < m) (hm : m < 64) (hx : Within (m + 1) x) : hash m (dehash m x) = x := by
  apply (within_hash hm (within_dehash h0 hm)).ext hx
  intro i hi
  rw [getLsbD_hash hm]
  by_cases him : i = m
  · subst him
    rw [if_pos rfl, getLsbD_dehash h0 hm, getLsbD_dehash h0 hm, if_neg (by omega), if_pos rfl]
    cases x.getLsbD (i - 1) <;> cases x.getLsbD i <;> simp
  · rw [if_neg him, getLsbD_dehash h0 hm, if_neg (by omega), Nat.add_sub_cancel, decide_eq_true (by omega),
      Bool.true_and]

section

variable (hm : m < 64)
include hm

theorem hash_xor : hash m (x ^^^ y) = hash m x ^^^ hash m y := by
  apply BitVec.eq_of_getLsbD_eq
  intro i _
  rw [BitVec.getLsbD_xor, getLsbD_hash hm, getLsbD_hash hm, getLsbD_hash hm]
  simp only [BitVec.getLsbD_xor]
  by_cases him : i = m
  · simp only [if_pos him]
    cases x.getLsbD m <;> cases x.getLsbD 0 <;> cases y.getLsbD m <;> cases y.getLsbD 0 <;> rfl
  · simp only [if_neg him]

theorem iterate_hash_xor (n : Nat) : (hash m)^[n] (x ^^^ y) = (hash m)^[n] x ^^^ (hash m)^[n] y := by
  induction n generalizing x y with
  | zero => rfl
  | succ n ih =>
      rw [Function.iterate_succ_apply, Function.iterate_succ_apply, Function.iterate_succ_apply, hash_xor hm, ih]

theorem within_iterate_hash (hx : Within (m + 1) x) (n : Nat) : Within (m + 1) ((hash m)^[n] x) := by
  induction n generalizing x with
  | zero => exact hx
  | succ n ih => exact ih (within_hash hm hx)

/-- A bit comes to the end after as many steps. -/
theorem getLsbD_iterate_hash {i : Nat} (hi : i ≤ m) : ((hash m)^[i] x).getLsbD 0 = x.getLsbD i := by
  induction i generalizing x with
  | zero => rfl
  | succ i ih =>
    rw [Function.iterate_succ_apply, ih (by omega), getLsbD_hash hm, if_neg (by omega)]

/-- **What the register satisfies**: the bit that comes in is the sum of the last one and the first one. -/
theorem iterate_hash_succ (hx : Within (m + 1) x) : (hash m)^[m + 1] x = (hash m)^[m] x ^^^ x := by
  have hstep : ∀ y : Addr, ((hash m)^[m + 1] y).getLsbD 0 = (((hash m)^[m] y).getLsbD 0 ^^ y.getLsbD 0) := by
    intro y
    rw [Function.iterate_succ_apply, getLsbD_iterate_hash hm le_rfl, getLsbD_iterate_hash hm le_rfl,
      getLsbD_hash hm, if_pos rfl]
  apply (within_iterate_hash hm hx _).ext ((within_iterate_hash hm hx _).xor hx)
  intro i hi
  rw [BitVec.getLsbD_xor]
  -- each bit is the last one of the register after as many steps
  have hswap : ∀ n, ((hash m)^[n] ((hash m)^[i] x)).getLsbD 0 = ((hash m)^[n] x).getLsbD i := by
    intro n
    rw [← Function.iterate_add_apply, Nat.add_comm, Function.iterate_add_apply, getLsbD_iterate_hash hm (by omega)]
  have hbit := hstep ((hash m)^[i] x)
  rwa [hswap, hswap, getLsbD_iterate_hash hm (by omega)] at hbit

/-- The sum of a word and its successor is undone by running on. -/
theorem iterate_hash_sum (hx : Within (m + 1) x) : (hash m)^[m] (hash m x ^^^ x) = x := by
  rw [iterate_hash_xor hm, ← Function.iterate_succ_apply, iterate_hash_succ hm hx, BitVec.xor_comm _ x,
    BitVec.xor_assoc, BitVec.xor_self, BitVec.xor_zero]

end

end Register

/-! ## Skewing -/

/-- The function of a way, of the set bits and of the bits of the tag next to them. -/
def skewWith (msbShift way : Nat) (addr1 addr2 : Addr) : Addr :=
  match way % 8 with
  | 0 => hash msbShift addr1 ^^^ hash msbShift addr2 ^^^ addr2
  | 1 => hash msbShift addr1 ^^^ hash msbShift addr2 ^^^ addr1
  | 2 => hash msbShift addr1 ^^^ dehash msbShift addr2 ^^^ addr2
  | 3 => hash msbShift addr1 ^^^ dehash msbShift addr2 ^^^ addr1
  | 4 => dehash msbShift addr1 ^^^ hash msbShift addr2 ^^^ addr2
  | 5 => dehash msbShift addr1 ^^^ hash msbShift addr2 ^^^ addr1
  | 6 => dehash msbShift addr1 ^^^ dehash msbShift addr2 ^^^ addr2
  | _ => dehash msbShift addr1 ^^^ dehash msbShift addr2 ^^^ addr1

def deskewWith (msbShift way : Nat) (addr1 addr2 : Addr) : Addr :=
  match way % 8 with
  | 0 => dehash msbShift (addr1 ^^^ hash msbShift addr2 ^^^ addr2)
  | 1 => (hash msbShift)^[msbShift] (addr1 ^^^ hash msbShift addr2)
  | 2 => dehash msbShift (addr1 ^^^ dehash msbShift addr2 ^^^ addr2)
  | 3 => (hash msbShift)^[msbShift] (addr1 ^^^ dehash msbShift addr2)
  | 4 => hash msbShift (addr1 ^^^ hash msbShift addr2 ^^^ addr2)
  | 5 => (hash msbShift)^[msbShift + 1] (addr1 ^^^ hash msbShift addr2)
  | 6 => hash msbShift (addr1 ^^^ dehash msbShift addr2 ^^^ addr2)
  | _ => (hash msbShift)^[msbShift + 1] (addr1 ^^^ dehash msbShift addr2)

/-- `SkewedAssociative::skew` -/
def skew (msbShift : Nat) (addr : Addr) (way : Nat) : Addr :=
  let addr1 := bits addr msbShift 0
  let addr2 := bits addr (2 * (msbShift + 1) - 1) (msbShift + 1)
  (hash msbShift)^[way / 8] (skewWith msbShift way addr1 addr2)

/-- `SkewedAssociative::deskew` -/
def deskew (msbShift : Nat) (addr : Addr) (way : Nat) : Addr :=
  let addr1 := bits addr msbShift 0
  let addr2 := bits addr (2 * (msbShift + 1) - 1) (msbShift + 1)
  deskewWith msbShift way (if 8 ≤ way then (dehash msbShift)^[way / 8] addr1 else addr1) addr2

section Skew

variable {m way : Nat} {addr1 addr2 : Addr}

theorem xor_cancel_two (x y z : Addr) : x ^^^ y ^^^ z ^^^ y ^^^ z = x := by
  rw [BitVec.xor_assoc x y z, BitVec.xor_assoc _ y z, BitVec.xor_assoc x, BitVec.xor_self, BitVec.xor_zero]

theorem xor_cancel_mid (x y z : Addr) : x ^^^ y ^^^ z ^^^ y = x ^^^ z := by
  rw [BitVec.xor_assoc x y z, BitVec.xor_comm y z, ← BitVec.xor_assoc x z y, BitVec.xor_assoc _ y y, BitVec.xor_self,
    BitVec.xor_zero]

/-- **A skewing function is undone.** -/
theorem deskewWith_skewWith (h0 : 0 < m) (hm : m < 64) (h1 : Within (m + 1) addr1) :
    deskewWith m way (skewWith m way addr1 addr2) addr2 = addr1 := by
  have hsum : (hash m)^[m + 1] (dehash m addr1 ^^^ addr1) = addr1 := by
    rw [Function.iterate_succ_apply, hash_xor hm, hash_dehash h0 hm h1, BitVec.xor_comm, iterate_hash_sum hm h1]
  unfold deskewWith skewWith
  generalize way % 8 = w
  match w with
  | 0 => exact (congrArg (dehash m) (xor_cancel_two _ _ _)).trans (dehash_hash h0 hm h1)
  | 1 => exact (congrArg (hash m)^[m] (xor_cancel_mid _ _ _)).trans (iterate_hash_sum hm h1)
  | 2 => exact (congrArg (dehash m) (xor_cancel_two _ _ _)).trans (dehash_hash h0 hm h1)
  | 3 => exact (congrArg (hash m)^[m] (xor_cancel_mid _ _ _)).trans (iterate_hash_sum hm h1)
  | 4 => exact (congrArg (hash m) (xor_cancel_two _ _ _)).trans (hash_dehash h0 hm h1)
  | 5 => exact (congrArg (hash m)^[m + 1] (xor_cancel_mid _ _ _)).trans hsum
  | 6 => exact (congrArg (hash m) (xor_cancel_two _ _ _)).trans (hash_dehash h0 hm h1)
  | _ + 7 => exact (congrArg (hash m)^[m + 1] (xor_cancel_mid _ _ _)).trans hsum

theorem within_skewWith (way : Nat) (h0 : 0 < m) (hm : m < 64) (h1 : Within (m + 1) addr1) (h2 : Within (m + 1) addr2) :
    Within (m + 1) (skewWith m way addr1 addr2) := by
  have hh1 := within_hash hm h1
  have hh2 := within_hash hm h2
  have hd1 := within_dehash (x := addr1) h0 hm
  have hd2 := within_dehash (x := addr2) h0 hm
  unfold skewWith
  split
  · exact (hh1.xor hh2).xor h2
  · exact (hh1.xor hh2).xor h1
  · exact (hh1.xor hd2).xor h2
  · exact (hh1.xor hd2).xor h1
  · exact (hd1.xor hh2).xor h2
  · exact (hd1.xor hh2).xor h1
  · exact (hd1.xor hd2).xor h2
  · exact (hd1.xor hd2).xor h1

theorem iterate_dehash_hash (h0 : 0 < m) (hm : m < 64) (h1 : Within (m + 1) addr1) (n : Nat) :
    (dehash m)^[n] ((hash m)^[n] addr1) = addr1 := by
  induction n with
  | zero => rfl
  | succ n ih =>
    rw [Function.iterate_succ_apply, Function.iterate_succ_apply', dehash_hash h0 hm (within_iterate_hash hm h1 n), ih]

/-- The piles of hashes of the ways from the eighth on are undone as well. -/
theorem unpile (h0 : 0 < m) (hm : m < 64) (h1 : Within (m + 1) addr1) :
    (if 8 ≤ way then (dehash m)^[way / 8] ((hash m)^[way / 8] addr1) else (hash m)^[way / 8] addr1) = addr1 := by
  split
  · exact iterate_dehash_hash h0 hm h1 _
  · rename_i hway
    rw [Nat.div_eq_of_lt (Nat.lt_of_not_le hway)]
    rfl

end Skew

/-! ## The policies -/

/-- The parameters of `BaseIndexingPolicy`. -/
structure IndexingParams where
  entry_size : Nat
  assoc : Nat
  numSets : Nat
  entry_size_pos : 0 < entry_size
  entry_size_lt : entry_size < 2 ^ 31
  assoc_pos : 0 < assoc
  numSets_pow : ∃ k, numSets = 2 ^ k
  numSets_lt : numSets < 2 ^ 32

inductive IndexingPolicy
  | setAssociative
  | skewedAssociative
  deriving DecidableEq

namespace IndexingParams

variable (I : IndexingParams)

def setShift : Nat := Nat.log 2 I.entry_size

def setMask : Addr := BitVec.ofNat 64 (I.numSets - 1)

def setBits : Nat := Nat.log 2 I.numSets

def tagShift : Nat := I.setShift + I.setBits

def msbShift : Nat := I.setBits - 1

/-- What the constructor of `SkewedAssociative` checks. -/
def Accepts : IndexingPolicy → Prop
  | .setAssociative => True
  | .skewedAssociative => 2 < I.numSets ∧ I.setShift + 2 * (I.msbShift + 1) ≤ 64

instance : DecidablePred I.Accepts
  | .setAssociative => inferInstanceAs (Decidable True)
  | .skewedAssociative => inferInstanceAs (Decidable (_ ∧ _))

def extractTag (addr : Addr) : Addr := addr >>> I.tagShift

def extractSet (policy : IndexingPolicy) (addr : Addr) (way : Nat) : Addr :=
  match policy with
  | .setAssociative => (addr >>> I.setShift) &&& I.setMask
  | .skewedAssociative => skew I.msbShift (addr >>> I.setShift) way &&& I.setMask

/-- The set of an entry is an `uint32_t`, and `SetAssociative` shifts it as one. -/
def regenerateAddr (policy : IndexingPolicy) (tag : Addr) (set : BitVec 32) (way : Nat) : Addr :=
  match policy with
  | .setAssociative => (tag <<< I.tagShift) ||| (set <<< I.setShift).setWidth 64
  | .skewedAssociative =>
    let addr_set := (tag <<< (I.msbShift + 1)) ||| set.setWidth 64
    (tag <<< I.tagShift) ||| ((deskew I.msbShift addr_set way &&& I.setMask) <<< I.setShift)

variable {I} {policy : IndexingPolicy} {addr addr' : Addr} {way : Nat}

theorem numSets_eq : I.numSets = 2 ^ I.setBits := by
  obtain ⟨k, hk⟩ := I.numSets_pow
  rw [setBits, hk, Nat.log_pow (by decide)]

theorem setBits_lt : I.setBits < 32 := by
  have hlt := I.numSets_lt
  rw [numSets_eq] at hlt
  exact (Nat.pow_lt_pow_iff_right (by decide)).mp hlt

theorem setShift_lt : I.setShift < 31 := Nat.log_lt_of_lt_pow I.entry_size_pos.ne' I.entry_size_lt

theorem getLsbD_setMask {i : Nat} : I.setMask.getLsbD i = decide (i < I.setBits) := by
  have hlt := setBits_lt (I := I)
  rw [setMask, numSets_eq, BitVec.getLsbD_ofNat, Nat.testBit_two_pow_sub_one]
  by_cases hi : i < I.setBits
  · have hi64 : i < 64 := by omega
    simp [hi, hi64]
  · simp [hi]

theorem Accepts.two_le (h : I.Accepts .skewedAssociative) : 2 ≤ I.setBits := by
  have hlt := h.1
  rw [numSets_eq] at hlt
  by_contra hge
  have hle : 2 ^ I.setBits ≤ 2 ^ 1 := Nat.pow_le_pow_right (by decide) (by omega)
  omega

theorem Accepts.msbShift_succ (h : I.Accepts .skewedAssociative) : I.msbShift + 1 = I.setBits := by
  have := h.two_le
  unfold msbShift
  omega

theorem within_extractSet : Within I.setBits (I.extractSet policy addr way) := by
  intro i hi
  cases policy with
  | setAssociative => rw [extractSet, BitVec.getLsbD_and, getLsbD_setMask, decide_eq_false (by omega), Bool.and_false]
  | skewedAssociative =>
      rw [extractSet, BitVec.getLsbD_and, getLsbD_setMask, decide_eq_false (by omega), Bool.and_false]

theorem extractSet_lt : (I.extractSet policy addr way).toNat < I.numSets := by
  rw [numSets_eq]
  apply Nat.lt_pow_two_of_testBit
  intro i hi
  exact within_extractSet i hi

/-- The set bits come back from the tag and the set of the way. -/
theorem deskew_extractSet (addr : Addr) (way : Nat) (h : I.Accepts .skewedAssociative) :
    deskew I.msbShift ((I.extractTag addr <<< (I.msbShift + 1)) ||| I.extractSet .skewedAssociative addr way) way =
      bits (addr >>> I.setShift) I.msbShift 0 := by
  have hset := h.msbShift_succ
  have hlt := setBits_lt (I := I)
  have h0 : 0 < I.msbShift := by
    have := h.two_le
    omega
  have hm : I.msbShift < 64 := by omega
  have hin1 : Within (I.msbShift + 1) (bits (addr >>> I.setShift) I.msbShift 0) := by
    intro i hi
    rw [getLsbD_bits (Nat.zero_le _) hm, decide_eq_false (by omega), Bool.false_and]
  have hin2 : Within (I.msbShift + 1) (bits (addr >>> I.setShift) (2 * (I.msbShift + 1) - 1) (I.msbShift + 1)) := by
    intro i hi
    rw [getLsbD_bits (by omega) (by omega), decide_eq_false (by omega), Bool.false_and]
  have hskew := within_iterate_hash hm (within_skewWith way h0 hm hin1 hin2) (way / 8)
  -- the set is what was skewed, and the bits of the tag beside it are the ones it was skewed with
  have hlow : bits ((I.extractTag addr <<< (I.msbShift + 1)) ||| I.extractSet .skewedAssociative addr way)
    I.msbShift 0 =
      skew I.msbShift (addr >>> I.setShift) way := by
    apply Within.ext (n := I.msbShift + 1) ?_ hskew
    · intro i hi
      rw [getLsbD_bits (Nat.zero_le _) hm, BitVec.getLsbD_or, BitVec.getLsbD_shiftLeft, Nat.zero_add, extractSet,
        BitVec.getLsbD_and, getLsbD_setMask]
      have h3 : i ≤ I.msbShift := by omega
      have h4 : i < I.setBits := by omega
      simp only [Nat.sub_zero, h3, h4, hi, decide_true, Bool.true_and, Bool.not_true, Bool.and_false, Bool.false_and,
        Bool.false_or, Bool.and_true]
      rfl
    · intro i hi
      rw [getLsbD_bits (Nat.zero_le _) hm, decide_eq_false (by omega), Bool.false_and]
  have hhigh : bits ((I.extractTag addr <<< (I.msbShift + 1)) ||| I.extractSet .skewedAssociative addr way)
      (2 * (I.msbShift + 1) - 1) (I.msbShift + 1) =
        bits (addr >>> I.setShift) (2 * (I.msbShift + 1) - 1) (I.msbShift + 1) := by
    apply BitVec.eq_of_getLsbD_eq
    intro i _
    rw [getLsbD_bits (by omega) (by omega), getLsbD_bits (by omega) (by omega), BitVec.getLsbD_or,
      BitVec.getLsbD_shiftLeft,
      within_extractSet _ (by omega), Bool.or_false, extractTag, BitVec.getLsbD_ushiftRight, BitVec.getLsbD_ushiftRight]
    by_cases hi : i ≤ 2 * (I.msbShift + 1) - 1 - (I.msbShift + 1)
    · have h3 : I.msbShift + 1 + i < 64 := by omega
      have h4 : ¬ I.msbShift + 1 + i < I.msbShift + 1 := by omega
      have h5 : I.tagShift + i = I.setShift + (I.msbShift + 1 + i) := by
        unfold tagShift
        omega
      simp [h3, h4, h5]
    · simp [hi]
  rw [deskew]
  simp only [hlow, hhigh]
  rw [skew, unpile h0 hm (within_skewWith way h0 hm hin1 hin2), deskewWith_skewWith h0 hm hin1]

/-- **The tag and the set in a way determine the entry's address.** -/
theorem extractSet_inj (h : I.Accepts policy) (htag : I.extractTag addr = I.extractTag addr')
    (hset : I.extractSet policy addr way = I.extractSet policy addr' way) :
      addr >>> I.setShift = addr' >>> I.setShift := by
  have hbits : ∀ i < I.setBits, (addr >>> I.setShift).getLsbD i = (addr' >>> I.setShift).getLsbD i := by
    intro i hi
    cases policy with
    | setAssociative =>
      have := congrArg (fun x => x.getLsbD i) hset
      simpa [extractSet, getLsbD_setMask, hi] using this
    | skewedAssociative =>
      have hlow := deskew_extractSet addr way h
      rw [htag, hset, deskew_extractSet addr' way h] at hlow
      have hle := h.msbShift_succ
      have hlt := setBits_lt (I := I)
      have hi' : i ≤ I.msbShift := by omega
      have := congrArg (fun x => x.getLsbD i) hlow
      simp only [getLsbD_bits (Nat.zero_le _) (show I.msbShift < 64 by omega), Nat.sub_zero, hi', decide_true,
        Bool.true_and, Nat.zero_add] at this
      exact this.symm
  apply BitVec.eq_of_getLsbD_eq
  intro i _
  by_cases hi : i < I.setBits
  · exact hbits i hi
  · have := congrArg (fun x => x.getLsbD (i - I.setBits)) htag
    have heq : I.tagShift + (i - I.setBits) = I.setShift + i := by
      unfold tagShift
      omega
    simpa [extractTag, BitVec.getLsbD_ushiftRight, heq] using this

/-- Only the address of the entry matters for the tag and the set. -/
theorem extract_congr (policy : IndexingPolicy) (way : Nat) (h : addr >>> I.setShift = addr' >>> I.setShift) :
    I.extractTag addr = I.extractTag addr' ∧ I.extractSet policy addr way = I.extractSet policy addr' way := by
  constructor
  · rw [extractTag, extractTag, tagShift, BitVec.shiftRight_add, BitVec.shiftRight_add, h]
  · cases policy with
    | setAssociative => rw [extractSet, extractSet, h]
    | skewedAssociative => rw [extractSet, extractSet, h]

/-- **The address of an entry is regenerated** from its tag and position. With `SetAssociative` the set shifted to its
place has to fit in 32 bits. -/
theorem regenerateAddr_extract (h : I.Accepts policy)
    (hfit : policy = .setAssociative → (I.extractSet policy addr way).toNat * 2 ^ I.setShift < 2 ^ 32) :
    I.regenerateAddr policy (I.extractTag addr) ((I.extractSet policy addr way).setWidth 32) way =
      (addr >>> I.setShift) <<< I.setShift := by
  have hlt := setBits_lt (I := I)
  have hin : Within I.setBits (I.extractSet policy addr way) := within_extractSet
  -- the set bits, at their place
  have hplace : ∀ v : Addr, (∀ i, v.getLsbD i = (decide (i < I.setBits) && (addr >>> I.setShift).getLsbD i)) →
      (I.extractTag addr <<< I.tagShift) ||| (v <<< I.setShift) = (addr >>> I.setShift) <<< I.setShift := by
    intro v hv
    apply BitVec.eq_of_getLsbD_eq
    intro i hi
    rw [BitVec.getLsbD_or, BitVec.getLsbD_shiftLeft, BitVec.getLsbD_shiftLeft, BitVec.getLsbD_shiftLeft, hv, extractTag,
      BitVec.getLsbD_ushiftRight, BitVec.getLsbD_ushiftRight, decide_eq_true hi, Bool.true_and, Bool.true_and]
    by_cases h1 : i < I.setShift
    · have h2 : i < I.tagShift := Nat.lt_add_right _ h1
      simp [h1, h2]
    · by_cases h2 : i < I.tagShift
      · have h3 : i - I.setShift < I.setBits := by
          unfold tagShift at h2
          omega
        simp [h1, h2, h3]
      · have h3 : ¬ i - I.setShift < I.setBits := by
          unfold tagShift at h2
          omega
        have h4 : I.tagShift + (i - I.tagShift) = I.setShift + (i - I.setShift) := by
          omega
        simp [h1, h2, h3, h4]
  have hwide : ∀ x : Addr, Within I.setBits x → (x.setWidth 32).setWidth 64 = x := by
    intro x hx
    apply BitVec.eq_of_getLsbD_eq
    intro i hi
    rw [BitVec.getLsbD_setWidth, BitVec.getLsbD_setWidth]
    by_cases h32 : i < 32
    · simp [hi, h32]
    · rw [hx i (by omega), Bool.and_false, Bool.and_false]
  cases policy with
  | setAssociative =>
    rw [regenerateAddr]
    have hshifted : ((I.extractSet .setAssociative addr way).setWidth 32 <<< I.setShift).setWidth 64 =
        I.extractSet .setAssociative addr way <<< I.setShift := by
      have hfit := hfit rfl
      have hx32 : (I.extractSet .setAssociative addr way).toNat < 2 ^ 32 :=
        (Nat.le_mul_of_pos_right _ (Nat.two_pow_pos _)).trans_lt hfit
      apply BitVec.eq_of_toNat_eq
      rw [BitVec.toNat_setWidth, BitVec.toNat_shiftLeft, BitVec.toNat_setWidth, BitVec.toNat_shiftLeft,
        Nat.shiftLeft_eq, Nat.shiftLeft_eq, Nat.mod_eq_of_lt hx32, Nat.mod_eq_of_lt hfit]
    rw [hshifted]
    apply hplace
    intro i
    rw [extractSet, BitVec.getLsbD_and, getLsbD_setMask, Bool.and_comm]
  | skewedAssociative =>
    rw [regenerateAddr, hwide _ hin, deskew_extractSet _ _ h]
    apply hplace
    intro i
    have hle := h.msbShift_succ
    rw [BitVec.getLsbD_and, getLsbD_setMask, getLsbD_bits (Nat.zero_le _) (by omega), Nat.zero_add, Nat.sub_zero]
    by_cases hi : i < I.setBits
    · have h3 : i ≤ I.msbShift := by omega
      simp [hi, h3]
    · simp [hi]

end IndexingParams

end Salam.Cache
