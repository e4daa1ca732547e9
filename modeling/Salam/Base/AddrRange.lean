import Mathlib.Algebra.Order.Group.Nat

/-!
# `AddrRange`

A range of addresses, with `masks` that select the addresses of an interleaved range: bit `i` of `sel` is the parity of
the address under mask `i`, and the address is in the range if `sel` is `intlvMatch`. `end_` is not part of the range.

* `key`, `less_iff`: the order of the ranges.
* `isSubset_one_iff`: when `isSubset` of a range of one address says the same as `contains`.
-/

namespace Salam.Base

abbrev Addr := BitVec 64

inductive RangeErr
  /-- `Cannot test intersection of %s and %s`, `Cannot test subset of interleaved range %s`. -/
  | panic
  /-- A shift by the width of the type or more, as `ULL(1) << 64`. -/
  | shift
  /-- An iterator to an entry that was erased is followed. -/
  | dangling
  deriving DecidableEq

/-! ## `bitfield.hh` -/

def popCount (val : Addr) : Nat := (List.range 64).countP fun i => val.getLsbD i

def ctz64 (value : Addr) : Nat := ((List.range 64).find? fun i => value.getLsbD i).getD 64

theorem ctz64_lt {value : Addr} (h : value ≠ 0) : ctz64 value < 64 := by
  obtain ⟨i, hi, hbit⟩ : ∃ i, i < 64 ∧ value.getLsbD i = true := by
    by_contra hnone
    refine h (BitVec.eq_of_getLsbD_eq fun i hi => ?_)
    cases hbit : value.getLsbD i with
    | false => simp
    | true => exact absurd ⟨i, hi, hbit⟩ hnone
  unfold ctz64
  cases hfind : (List.range 64).find? fun i => value.getLsbD i with
  | none =>
    have hnot := List.find?_eq_none.mp hfind i (List.mem_range.mpr hi)
    exact absurd hbit hnot
  | some k => exact List.mem_range.mp (List.mem_of_find?_eq_some hfind)

/-! ## The range -/

structure AddrRange where
  start : Addr
  end_ : Addr
  masks : List Addr
  intlvMatch : BitVec 8
  /-- `Match value %d does not fit in %d interleaving bits`. -/
  fits : masks ≠ [] → intlvMatch.toNat < 2 ^ masks.length
  deriving DecidableEq

/-- The range without interleaving. -/
def rangeEx (start end_ : Addr) : AddrRange := ⟨start, end_, [], 0, fun h => absurd rfl h⟩

def rangeSize (start size : Addr) : AddrRange := rangeEx start (start + size)

namespace AddrRange

def interleaved (r : AddrRange) : Bool := 0 < r.masks.length

def size (r : AddrRange) : Addr := (r.end_ - r.start) >>> r.masks.length

/-- The loop of `granularity`; `combined_mask` is an `int`. -/
def combinedMask (r : AddrRange) : BitVec 32 := r.masks.foldl (fun combined mask => combined ||| mask.setWidth 32) 0

def granularity (r : AddrRange) : Except RangeErr Nat :=
  if r.interleaved then
    let lowestBit := ctz64 (r.combinedMask.signExtend 64)
    if lowestBit < 64 then .ok (2 ^ lowestBit) else .error .shift
  else .ok r.size.toNat

def mergesWith (r r' : AddrRange) : Bool := r'.start = r.start && r'.end_ = r.end_ && r'.masks = r.masks

/-- The loop of `contains` from bit `i` on; `sel` is an `int`, so there is no bit for a mask after the thirty-second. -/
def selInt (a : Addr) : Nat → List Addr → BitVec 32 → Except RangeErr (BitVec 32)
  | _, [], sel => .ok sel
  | i, mask :: masks, sel =>
    if i < 32 then selInt a (i + 1) masks (sel ||| BitVec.ofNat 32 (popCount (a &&& mask) % 2) <<< i)
    else .error .shift

def contains (r : AddrRange) (a : Addr) : Except RangeErr Bool :=
  if r.start ≤ a ∧ a < r.end_ then do
    let sel ← selInt a 0 r.masks 0
    .ok (sel = r.intlvMatch.setWidth 32)
  else .ok false

/-- `size` of a range that may have 64 masks or more. -/
def sizeInt (r : AddrRange) : Except RangeErr Addr := if r.masks.length < 64 then .ok r.size else .error .shift

def intersects (r r' : AddrRange) : Except RangeErr Bool :=
  if r'.end_ ≤ r.start ∨ r.end_ ≤ r'.start then .ok false
  else if !r.interleaved && !r'.interleaved then .ok true
  else
    match r'.sizeInt with
    | .error e => .error e
    | .ok size =>
      if size = 1 then r.contains r'.start
      else if r.mergesWith r' then .ok (r.intlvMatch = r'.intlvMatch)
      else .error .panic

def isSubset (r r' : AddrRange) : Except RangeErr Bool :=
  if r.interleaved then .error .panic
  else if r'.interleaved then
    match r'.contains r.start with
    | .ok true =>
      match r'.contains (r.end_ - 1) with
      | .ok true => r'.granularity.map fun g => decide (r.size.toNat ≤ g)
      | v => v
    | v => v
  else .ok (r'.start ≤ r.start && r.end_ ≤ r'.end_)

/-- `operator<`. -/
def less (r r' : AddrRange) : Bool :=
  if r.start ≠ r'.start then r.start < r'.start else r.intlvMatch < r'.intlvMatch

/-- The order of the ranges as an order of numbers. -/
def key (r : AddrRange) : Nat := r.start.toNat * 256 + r.intlvMatch.toNat

theorem less_iff {r r' : AddrRange} : r.less r' = true ↔ r.key < r'.key := by
  unfold less key
  by_cases h : r.start = r'.start
  · rw [if_neg (by simpa using h), h, decide_eq_true_iff, BitVec.lt_def]
    omega
  · have hne : r.start.toNat ≠ r'.start.toNat := fun he => h (BitVec.eq_of_toNat_eq he)
    rw [if_pos h, decide_eq_true_iff, BitVec.lt_def]
    omega

theorem mergesWith_iff {r r' : AddrRange} :
    r.mergesWith r' = true ↔ r.start = r'.start ∧ r.end_ = r'.end_ ∧ r.masks = r'.masks := by
  simp only [mergesWith, Bool.and_eq_true, decide_eq_true_eq, and_assoc]
  constructor <;> rintro ⟨h₁, h₂, h₃⟩ <;> exact ⟨h₁.symm, h₂.symm, h₃.symm⟩

theorem mergesWith_trans {r r' r'' : AddrRange} (h : r.mergesWith r' = true) (h' : r'.mergesWith r'' = true) :
    r.mergesWith r'' = true := by
  rw [mergesWith_iff] at *
  exact ⟨h.1.trans h'.1, h.2.1.trans h'.2.1, h.2.2.trans h'.2.2⟩

theorem mergesWith_symm {r r' : AddrRange} (h : r.mergesWith r' = true) : r'.mergesWith r = true := by
  rw [mergesWith_iff] at *
  exact ⟨h.1.symm, h.2.1.symm, h.2.2.symm⟩

/-! ## The addresses of a range -/

/-- The address is in the range. -/
def Holds (r : AddrRange) (a : Addr) : Prop := r.contains a = .ok true

instance (r : AddrRange) (a : Addr) : Decidable (r.Holds a) := inferInstanceAs (Decidable (_ = _))

variable {r : AddrRange} {a : Addr}

theorem holds_iff_selInt :
    r.Holds a ↔ (r.start ≤ a ∧ a < r.end_) ∧ selInt a 0 r.masks 0 = .ok (r.intlvMatch.setWidth 32) := by
  unfold Holds contains
  split
  · rename_i hin
    cases selInt a 0 r.masks 0 <;> simp [bind, Except.bind, hin]
  · simp [*]

theorem holds_plain (hr : r.interleaved = false) : r.Holds a ↔ r.start ≤ a ∧ a < r.end_ ∧ r.intlvMatch = 0 := by
  have hmasks : r.masks = [] := by simpa [interleaved] using hr
  have hmatch : (0 : BitVec 32) = r.intlvMatch.setWidth 32 ↔ r.intlvMatch = 0 := by
    rw [← BitVec.toNat_inj, ← BitVec.toNat_inj, BitVec.toNat_setWidth, Nat.mod_eq_of_lt (by omega)]
    exact eq_comm
  rw [holds_iff_selInt, hmasks, selInt, Except.ok.injEq, hmatch, and_assoc]

/-- Where `contains` does not say yes it says no, or has too many masks. -/
theorem contains_eq_false_iff (h : ¬ r.Holds a) : r.contains a = .ok false ↔ r.contains a ≠ .error .shift := by
  have herr : ∀ i masks sel err, selInt a i masks sel = .error err → err = .shift := by
    intro i masks
    induction masks generalizing i with
    | nil => intro sel err h; cases h
    | cons m masks ih =>
      intro sel err h
      rw [selInt] at h
      split at h
      · exact ih _ _ _ h
      · cases h
        rfl
  unfold Holds at h
  cases hc : r.contains a with
  | ok b => cases b <;> simp_all
  | error err =>
    unfold contains at hc
    split at hc
    · cases hs : selInt a 0 r.masks 0 with
      | ok v => rw [hs] at hc; cases hc
      | error e =>
        rw [hs] at hc
        cases hc
        simp [herr _ _ _ _ hs]
    · cases hc

/-- No address is in both ranges. -/
def Disjoint (r r' : AddrRange) : Prop := ∀ a, ¬ (r.Holds a ∧ r'.Holds a)

theorem Disjoint.symm {r r' : AddrRange} (h : r.Disjoint r') : r'.Disjoint r := fun a ha => h a ⟨ha.2, ha.1⟩

/-- Ranges with no common address between their ends, and ranges of one group with different match values. -/
theorem disjoint_of_apart {r r' : AddrRange}
    (h : (r.mergesWith r' = true ∧ r.intlvMatch ≠ r'.intlvMatch) ∨ r.end_ ≤ r'.start ∨ r'.end_ ≤ r.start) :
      r.Disjoint r' := by
  rintro a ⟨ha, ha'⟩
  obtain ⟨⟨h₁, h₂⟩, hsel⟩ := holds_iff_selInt.mp ha
  obtain ⟨⟨h₁', h₂'⟩, hsel'⟩ := holds_iff_selInt.mp ha'
  simp only [BitVec.le_def, BitVec.lt_def] at h₁ h₂ h₁' h₂'
  rcases h with ⟨hm, hne⟩ | h | h
  · rw [(mergesWith_iff.mp hm).2.2, hsel', Except.ok.injEq, ← BitVec.toNat_inj, BitVec.toNat_setWidth,
      BitVec.toNat_setWidth, Nat.mod_eq_of_lt (by omega), Nat.mod_eq_of_lt (by omega)] at hsel
    exact hne (BitVec.eq_of_toNat_eq hsel.symm)
  · rw [BitVec.le_def] at h
    omega
  · rw [BitVec.le_def] at h
    omega

/-! ## One address -/

/-- `isSubset` of the range of the address `a` says whether `r` holds it. -/
structure Plain (a : Addr) (r : AddrRange) : Prop where
  /-- `start + 1` is `0` for the last address. -/
  last : a = BitVec.allOnes 64 → r.interleaved = true
  zero : r.interleaved = false → r.start ≤ a → a < r.end_ → r.intlvMatch = 0
  /-- `contains` shifts the `int`. -/
  shift : r.contains a ≠ .error .shift
  low : r.Holds a → r.interleaved = true → ∃ mask ∈ r.masks, mask.setWidth 32 ≠ 0#32

theorem foldl_or_eq_zero : ∀ (masks : List Addr) (c : BitVec 32),
    masks.foldl (fun combined mask => combined ||| mask.setWidth 32) c = 0#32 ↔
      c = 0#32 ∧ ∀ mask ∈ masks, mask.setWidth 32 = 0#32
  | [], c => by simp
  | mask :: masks, c => by
    rw [List.foldl_cons, foldl_or_eq_zero masks, BitVec.or_eq_zero_iff, and_assoc, List.forall_mem_cons]

theorem signExtend_ne_zero {v : BitVec 32} (h : v ≠ 0#32) : v.signExtend 64 ≠ 0 := by
  intro h0
  refine h (BitVec.eq_of_getLsbD_eq fun i hi => ?_)
  have hbit := congrArg (fun w : BitVec 64 => w.getLsbD i) h0
  simp only [BitVec.getLsbD_signExtend, hi, if_true] at hbit
  simpa [show i < 64 by omega] using hbit

/-- The granularity of an interleaved range is at least one where it is defined. -/
theorem granularity_eq (hr : r.interleaved = true) (h : ∃ mask ∈ r.masks, mask.setWidth 32 ≠ 0#32) :
    ∃ g, r.granularity = .ok g ∧ 1 ≤ g := by
  have hne : r.combinedMask ≠ 0#32 := by
    intro h0
    obtain ⟨mask, hmem, hmask⟩ := h
    exact hmask (((foldl_or_eq_zero _ _).mp h0).2 mask hmem)
  refine ⟨2 ^ ctz64 (r.combinedMask.signExtend 64), ?_, Nat.two_pow_pos _⟩
  rw [granularity, if_pos hr, if_pos (ctz64_lt (signExtend_ne_zero hne))]

theorem granularity_error (hr : r.interleaved = true) (h : ¬ ∃ mask ∈ r.masks, mask.setWidth 32 ≠ 0#32) :
    r.granularity = .error .shift := by
  have h0 : r.combinedMask = 0#32 := by
    refine (foldl_or_eq_zero _ _).mpr ⟨rfl, fun mask hmem => ?_⟩
    by_contra hmask
    exact h ⟨mask, hmem, hmask⟩
  rw [granularity, if_pos hr, h0]
  rfl

theorem isSubset_one (hr : r.interleaved = false) (a : Addr) :
    (rangeSize a 1).isSubset r = .ok (r.start ≤ a && a + 1 ≤ r.end_) := by
  have hint : (rangeSize a 1).interleaved = false := rfl
  rw [isSubset, if_neg (by rw [hint]; decide), if_neg (by rw [hr]; decide)]
  rfl

theorem isSubset_interleaved {r r' : AddrRange} (hr : r.interleaved = false) (hr' : r'.interleaved = true) :
    r.isSubset r' =
      if r'.Holds r.start then
        if r'.Holds (r.end_ - 1) then r'.granularity.map fun g => decide (r.size.toNat ≤ g)
          else r'.contains (r.end_ - 1)
      else r'.contains r.start := by
  rw [isSubset, if_neg (by rw [hr]; decide), if_pos hr']
  split
  · rename_i hfirst
    rw [if_pos (show r'.Holds r.start from hfirst)]
    split
    · rename_i hlast
      rw [if_pos (show r'.Holds (r.end_ - 1) from hlast)]
    · rename_i hlast
      rw [if_neg (show ¬ r'.Holds (r.end_ - 1) from hlast)]
  · rename_i hfirst
    rw [if_neg (show ¬ r'.Holds r.start from hfirst)]

theorem isSubset_one_interleaved (hr : r.interleaved = true) (a : Addr) : (rangeSize a 1).isSubset r =
      if r.Holds a then r.granularity.map fun g => decide (1 ≤ g) else r.contains a := by
  have hend : (rangeSize a 1).end_ - 1 = a := BitVec.add_sub_cancel a 1
  have hsize : (rangeSize a 1).size = 1 := by
    show (a + 1 - a) >>> 0 = 1
    rw [BitVec.ushiftRight_zero, BitVec.add_comm, BitVec.add_sub_cancel]
  rw [isSubset_interleaved rfl hr, hend, hsize, show (rangeSize a 1).start = a from rfl]
  by_cases h : r.Holds a
  · rw [if_pos h, if_pos h, if_pos h]
    rfl
  · rw [if_neg h, if_neg h]

theorem succ_le_iff {a e : Addr} (ha : a ≠ BitVec.allOnes 64) : a + 1 ≤ e ↔ a < e := by
  have hlt : a.toNat + 1 < 2 ^ 64 := by
    by_contra hge
    refine ha (BitVec.eq_of_toNat_eq ?_)
    rw [BitVec.toNat_allOnes]
    omega
  rw [BitVec.le_def, BitVec.lt_def, BitVec.toNat_add, Nat.mod_eq_of_lt (by simpa using hlt)]
  exact Nat.succ_le_iff

/-- An address of the range is never missed. -/
theorem not_holds_of_isSubset (h : (rangeSize a 1).isSubset r = .ok false) : ¬ r.Holds a := by
  intro ha
  cases hr : r.interleaved with
  | false =>
    obtain ⟨h₁, h₂, -⟩ := (holds_plain hr).mp ha
    have hne : a ≠ BitVec.allOnes 64 := by
      rintro rfl
      rw [BitVec.lt_def, BitVec.toNat_allOnes] at h₂
      omega
    rw [isSubset_one hr, decide_eq_true h₁, decide_eq_true ((succ_le_iff hne).mpr h₂)] at h
    cases h
  | true =>
    rw [isSubset_one_interleaved hr, if_pos ha] at h
    by_cases hlow : ∃ mask ∈ r.masks, mask.setWidth 32 ≠ 0#32
    · obtain ⟨g, hg, hpos⟩ := granularity_eq hr hlow
      rw [hg, Except.map, decide_eq_true hpos] at h
      cases h
    · rw [granularity_error hr hlow] at h
      cases h

theorem isSubset_one_iff : (rangeSize a 1).isSubset r = .ok (r.Holds a) ↔ Plain a r := by
  cases hr : r.interleaved with
  | false =>
    have hmasks : r.masks = [] := by simpa [interleaved] using hr
    have hshift : r.contains a ≠ .error .shift := by
      unfold contains
      split <;> simp [hmasks, selInt, bind, Except.bind]
    rw [isSubset_one hr, Except.ok.injEq, Bool.eq_iff_iff, Bool.and_eq_true, decide_eq_true_iff, decide_eq_true_iff,
      decide_eq_true_iff, holds_plain hr]
    by_cases ha : a = BitVec.allOnes 64
    · subst ha
      constructor
      · intro h
        have hlast := (h.mp ⟨by simp [BitVec.le_def]; omega, by simp [BitVec.le_def]⟩).2.1
        rw [BitVec.lt_def, BitVec.toNat_allOnes] at hlast
        omega
      · intro h
        have := h.last rfl
        rw [hr] at this
        cases this
    · rw [succ_le_iff ha]
      constructor
      · intro h
        exact ⟨fun h => absurd h ha, fun _ h₁ h₂ => (h.mp ⟨h₁, h₂⟩).2.2, hshift, fun _ h => by rw [hr] at h; cases h⟩
      · intro h
        exact ⟨fun h' => ⟨h'.1, h'.2, h.zero hr h'.1 h'.2⟩, fun h' => ⟨h'.1, h'.2.1⟩⟩
  | true =>
    have hplain : Plain a r ↔ r.contains a ≠ .error .shift ∧ (r.Holds a → ∃ mask ∈ r.masks, mask.setWidth 32 ≠ 0#32) :=
      ⟨fun h => ⟨h.shift, fun ha => h.low ha hr⟩, fun h => ⟨fun _ => hr, by simp [hr], h.1, fun ha _ => h.2 ha⟩⟩
    rw [isSubset_one_interleaved hr, hplain]
    by_cases ha : r.Holds a
    · have hshift : r.contains a ≠ .error .shift := by simp [show r.contains a = .ok true from ha]
      rw [if_pos ha, decide_eq_true ha]
      by_cases hlow : ∃ mask ∈ r.masks, mask.setWidth 32 ≠ 0#32
      · obtain ⟨g, hg, hpos⟩ := granularity_eq hr hlow
        rw [hg, Except.map, decide_eq_true hpos]
        simp [hshift, hlow]
      · rw [granularity_error hr hlow]
        exact ⟨fun h => absurd h (by simp [Except.map]), fun h => absurd (h.2 ha) hlow⟩
    · rw [if_neg ha, decide_eq_false ha]
      simp only [ha, false_imp_iff, and_true]
      exact contains_eq_false_iff ha

end AddrRange

end Salam.Base
