import Mathlib.Data.List.Pairwise
import Mathlib.Data.List.Sort
import Salam.Base.Bitfield
import Salam.Lib.BitPlaces

/-!
# Interleaving bits

`removeIntlvBits` takes the lowest bit of every mask out of an address, `addIntlvBits` puts them back and sets each of
them so that the address matches.

* `removed`: what is left is the address without the lowest bits of the masks.
* `eq_of_removed`: what is left and the selected bits determine the address.
-/

namespace Salam.Base

open BitPlaces

open Bitfield

namespace AddrRange

/-! ## The range -/

/-- `masks_lsb` after the sort. -/
def masksLsb (r : AddrRange) : List Nat := (r.masks.map ctz64).insertionSort (· ≤ ·)

/-- Step `i` of `removeIntlvBits`. -/
def removeBit (i intlv_bit : Nat) (a : Addr) : Except RangeErr Addr :=
  if 0 < intlv_bit then checkedInsertBits (a >>> 1) (intlv_bit - i - 1) 0 a else .ok (a >>> 1)

def removeFrom : Nat → List Nat → Addr → Except RangeErr Addr
  | _, [], a => .ok a
  | i, intlv_bit :: lsbs, a => do
    let a ← removeBit i intlv_bit a
    removeFrom (i + 1) lsbs a

def removeIntlvBits (r : AddrRange) (a : Addr) : Except RangeErr Addr := removeFrom 0 r.masksLsb a

/-- Step `i` of the first loop of `addIntlvBits`. -/
def addBit (i intlv_bit : Nat) (a : Addr) : Except RangeErr Addr :=
  if 0 < intlv_bit then checkedInsertBits (a <<< 1) (intlv_bit + i - 1) 0 a else .ok (a <<< 1)

def addFrom : Nat → List Nat → Addr → Except RangeErr Addr
  | _, [], a => .ok a
  | i, intlv_bit :: lsbs, a => do
    let a ← addBit i intlv_bit a
    addFrom (i + 1) lsbs a

/-- `~(1 << lsb)`, where `1` is an `int`. -/
def clearMask (lsb : Nat) : Except RangeErr Addr :=
  if lsb < 32 then .ok ((~~~(1#32 <<< lsb)).signExtend 64) else .error .shift

/-- Step `i` of the second loop of `addIntlvBits`. -/
def setBit (intlvMatch : BitVec 8) (i : Nat) (mask a : Addr) : Except RangeErr Addr := do
  let lsb := ctz64 mask
  let intlv_bit ← checkedBit intlvMatch i
  let clear ← clearMask lsb
  let masked := a &&& mask &&& clear
  checkedInsertBits a lsb lsb (intlv_bit ^^^ BitVec.ofNat 64 (popCount masked))

def setFrom (intlvMatch : BitVec 8) : Nat → List Addr → Addr → Except RangeErr Addr
  | _, [], a => .ok a
  | i, mask :: masks, a => do
    let a ← setBit intlvMatch i mask a
    setFrom intlvMatch (i + 1) masks a

def addIntlvBits (r : AddrRange) (a : Addr) : Except RangeErr Addr := do
  let a ← addFrom 0 r.masksLsb a
  setFrom r.intlvMatch 0 r.masks a

/-! ## The lowest bits -/

/-- Masks with a lowest bit, which no other mask has. -/
structure Apart (r : AddrRange) : Prop where
  nonzero : ∀ mask ∈ r.masks, mask ≠ 0
  disjoint : r.masks.Pairwise fun mask mask' => mask &&& mask' = 0

theorem getLsbD_ctz64 {value : Addr} (h : value ≠ 0) : value.getLsbD (ctz64 value) = true := by
  have hlt := ctz64_lt h
  unfold ctz64 at hlt ⊢
  cases hfind : (List.range 64).find? fun i => value.getLsbD i with
  | none => simp [hfind] at hlt
  | some k => exact List.find?_some hfind

theorem getLsbD_of_lt_ctz64 {value : Addr} {i : Nat} (h : i < ctz64 value) : value.getLsbD i = false := by
  by_cases hi : i < 64
  · unfold ctz64 at h
    cases hfind : (List.range 64).find? fun i => value.getLsbD i with
    | none => simpa using List.find?_eq_none.mp hfind i (List.mem_range.mpr hi)
    | some k =>
      rw [hfind, Option.getD_some] at h
      simpa using (List.find?_range_eq_some.mp hfind).2.2 i h
  · exact BitVec.getLsbD_of_ge value i (by omega)

section Apart

variable {r : AddrRange} {m m' : Addr}

section

variable (h : r.Apart) (hm : m ∈ r.masks)
include h hm

theorem Apart.and_eq_zero (hm' : m' ∈ r.masks) (hne : m ≠ m') : m &&& m' = 0 := by
  have hsymm : Std.Symm fun mask mask' : Addr => mask &&& mask' = 0 := ⟨fun x y hxy => by rwa [BitVec.and_comm]⟩
  exact h.disjoint.forall hm hm' hne

/-- The lowest bit of a mask is in no other mask. -/
theorem Apart.eq_of_bit (hm' : m' ∈ r.masks) (hbit : m'.getLsbD (ctz64 m) = true) : m = m' := by
  by_contra hne
  have hand := congrArg (fun v : Addr => v.getLsbD (ctz64 m)) (h.and_eq_zero hm hm' hne)
  simp [getLsbD_ctz64 (h.nonzero m hm), hbit] at hand

theorem Apart.other_bit {k : Nat} (hbit : m.getLsbD k = true) (hk : k ≠ ctz64 m) : k ∉ r.masks.map ctz64 := by
  intro hmem
  obtain ⟨m', hm', rfl⟩ := List.mem_map.mp hmem
  exact hk (congrArg ctz64 (h.eq_of_bit hm' hm hbit))

end

theorem Apart.nodup (h : r.Apart) : (r.masks.map ctz64).Nodup := by
  refine List.pairwise_map.mpr (h.disjoint.imp_of_mem fun {m m'} hm hm' hand he => ?_)
  have heq := h.eq_of_bit hm hm' (he ▸ getLsbD_ctz64 (h.nonzero m' hm'))
  rw [← heq, BitVec.and_self] at hand
  exact h.nonzero m hm hand

theorem Apart.lt (h : r.Apart) {k : Nat} (hk : k ∈ r.masks.map ctz64) : k < 64 := by
  obtain ⟨m, hm, rfl⟩ := List.mem_map.mp hk
  exact ctz64_lt (h.nonzero m hm)

theorem mem_masksLsb {k : Nat} : k ∈ r.masksLsb ↔ k ∈ r.masks.map ctz64 := List.mem_insertionSort _

theorem length_masksLsb : r.masksLsb.length = r.masks.length := by
  rw [masksLsb, List.length_insertionSort, List.length_map]

theorem Apart.sorted (h : r.Apart) : r.masksLsb.Pairwise (· < ·) := by
  have hle : r.masksLsb.Pairwise (· ≤ ·) := List.pairwise_insertionSort _ _
  have hne : r.masksLsb.Nodup := (List.perm_insertionSort _ _).nodup_iff.mpr h.nodup
  exact hle.imp₂ (fun _ _ hle hne => Nat.lt_of_le_of_ne hle hne) hne

end Apart

/-! ## The bits that are left -/

section Removed

variable {r : AddrRange} {a b : Addr}

theorem removed_step {ps : List Nat} {l : Nat} (h : Without ps a b) (hnd : ps.Nodup) (hps : ∀ p ∈ ps, p < l)
    (hl : l < 64) :
    ∃ c, removeBit ps.length l b = .ok c ∧ Without (l :: ps) a c := by
  have hplace := place_of_above hnd hps
  have hmem : l ∉ ps := fun hin => absurd (hps l hin) (Nat.lt_irrefl l)
  by_cases hpos : 0 < l
  · obtain ⟨c, hc, hbits⟩ := checkedInsertBits_spec 0 (place ps l) (by omega) (by decide) (b >>> 1) b
    have hfirst : (l : Int) - ps.length - 1 = ((0 : Nat) : Int) + (place ps l : Nat) - 1 := by omega
    refine ⟨c, by rw [removeBit, if_pos hpos, hfirst, hc], h.step hmem hl fun j => ?_⟩
    by_cases hj : j < 64
    · rw [hbits j hj, Nat.sub_zero, BitVec.getLsbD_ushiftRight, Nat.add_comm 1 j, Nat.zero_add]
      simp only [Nat.zero_le, true_and]
    · rw [BitVec.getLsbD_of_ge c j (by omega), BitVec.getLsbD_of_ge b j (by omega),
        BitVec.getLsbD_of_ge b (j + 1) (by omega), ite_self]
  · refine ⟨b >>> 1, by rw [removeBit, if_neg hpos], h.step hmem hl fun j => ?_⟩
    rw [if_neg (by omega), BitVec.getLsbD_ushiftRight, Nat.add_comm]

theorem removeFrom_spec {lsbs ps : List Nat} (h : Without ps a b) (hnd : ps.Nodup) (hsorted : lsbs.Pairwise (· < ·))
    (hps : ∀ p ∈ ps, ∀ l ∈ lsbs, p < l) (hlt : ∀ l ∈ lsbs, l < 64) :
    ∃ c, removeFrom ps.length lsbs b = .ok c ∧ Without (lsbs.reverse ++ ps) a c := by
  induction lsbs generalizing ps b with
  | nil => exact ⟨b, rfl, h⟩
  | cons l lsbs ih =>
    have hpl : ∀ p ∈ ps, p < l := fun p hp => hps p hp l List.mem_cons_self
    have hmem : l ∉ ps := fun hin => absurd (hpl l hin) (Nat.lt_irrefl l)
    obtain ⟨hhead, hsorted⟩ := List.pairwise_cons.mp hsorted
    obtain ⟨c, hc, hstep⟩ := removed_step h hnd hpl (hlt l List.mem_cons_self)
    have hps' : ∀ p ∈ l :: ps, ∀ l' ∈ lsbs, p < l' := by
      intro p hp l' hl'
      rcases List.mem_cons.mp hp with rfl | hp
      · exact hhead l' hl'
      · exact hps p hp l' (List.mem_cons_of_mem l hl')
    obtain ⟨v, hv, hw⟩ := ih hstep (List.nodup_cons.mpr ⟨hmem, hnd⟩) hsorted hps'
      fun l' hl' => hlt l' (List.mem_cons_of_mem l hl')
    refine ⟨v, ?_, by simpa using hw⟩
    rw [removeFrom, hc]
    exact hv

/-- **What is left is the address without the lowest bits of the masks.** -/
theorem removed (h : r.Apart) (a : Addr) : ∃ c, r.removeIntlvBits a = .ok c ∧ Without (r.masks.map ctz64) a c := by
  obtain ⟨c, hc, hw⟩ := removeFrom_spec (Without.refl a) List.nodup_nil h.sorted
    (fun p hp => absurd hp List.not_mem_nil)
    fun l hl => h.lt (mem_masksLsb.mp hl)
  exact ⟨c, hc, hw.congr fun j => by simp [mem_masksLsb]⟩

theorem removed_iff (h : r.Apart) {c : Addr} : r.removeIntlvBits a = .ok c ↔ Without (r.masks.map ctz64) a c := by
  obtain ⟨c', hc, hw⟩ := removed h a
  rw [hc, Except.ok.injEq]
  exact ⟨fun he => he ▸ hw, fun hw' => hw.unique hw'⟩

theorem top_of_without (h : r.Apart) (hw : Without (r.masks.map ctz64) a b) (j : Nat) (hj : 64 ≤ j + r.masks.length) :
    b.getLsbD j = false := by
  have hplace := place_of_above h.nodup fun p hp => h.lt hp
  rw [List.length_map] at hplace
  exact hw.top j (by omega)

end Removed

/-! ## The selected bits -/

section Selected

variable {r : AddrRange} {a b : Addr} {masks : List Addr}

/-- The bit of `sel` of a mask. -/
def selected (a mask : Addr) : Bool := popCount (a &&& mask) % 2 = 1

/-- `sel` from bit `i` on, as a number. -/
def selFrom (a : Addr) : Nat → List Addr → Nat
  | _, [] => 0
  | i, mask :: masks => (popCount (a &&& mask) % 2) <<< i ||| selFrom a (i + 1) masks

theorem odd_eq_iff {v v' : Addr} {l : Nat} (h : ∀ i, i ≠ l → v.getLsbD i = v'.getLsbD i) (hl : l < 64) :
    decide (popCount v % 2 = 1) = decide (popCount v' % 2 = 1) ↔ v.getLsbD l = v'.getLsbD l := by
  rw [decide_eq_decide, ← countP_mod_two_eq_iff h hl]
  change _ ↔ popCount v % 2 = popCount v' % 2
  omega

theorem testBit_selFrom (a : Addr) (masks : List Addr) (i k : Nat) :
    (selFrom a i masks).testBit k = (decide (i ≤ k) && masks[k - i]?.any (selected a)) := by
  induction masks generalizing i with
  | nil => simp [selFrom]
  | cons m masks ih =>
    rw [selFrom, Nat.testBit_or, Nat.testBit_shiftLeft, ih]
    rcases Nat.lt_trichotomy k i with hlt | rfl | hgt
    · simp [show ¬ i ≤ k by omega, show ¬ i + 1 ≤ k by omega]
    · simp only [Nat.le_refl, decide_true, Nat.sub_self, Nat.testBit_zero, Nat.mod_mod, Bool.true_and,
        List.getElem?_cons_zero, Option.any_some, selected, show ¬ k + 1 ≤ k by omega, decide_false, Bool.false_and,
        Bool.or_false]
    · obtain ⟨d, rfl⟩ : ∃ d, k = i + 1 + d := ⟨k - (i + 1), by omega⟩
      have hzero : (popCount (a &&& m) % 2).testBit (d + 1) = false := by
        refine Nat.testBit_lt_two_pow ?_
        have : 2 ≤ 2 ^ (d + 1) := Nat.le_self_pow (by omega) 2
        omega
      simp [show i + 1 + d - i = d + 1 by omega, show i ≤ i + 1 + d by omega, hzero]

theorem selFrom_lt (a : Addr) (masks : List Addr) : selFrom a 0 masks < 2 ^ masks.length := by
  refine Nat.lt_pow_two_of_testBit _ fun k hk => ?_
  rw [testBit_selFrom, Nat.sub_zero, List.getElem?_eq_none (by omega)]
  simp

theorem selFrom_eq_iff : selFrom a 0 masks = selFrom b 0 masks ↔ ∀ m ∈ masks, selected a m = selected b m := by
  constructor
  · intro h m hm
    obtain ⟨k, hk, rfl⟩ := List.mem_iff_getElem.mp hm
    have hbit := congrArg (fun n => n.testBit k) h
    simpa [testBit_selFrom, hk] using hbit
  · intro h
    refine Nat.eq_of_testBit_eq fun k => ?_
    rw [testBit_selFrom, testBit_selFrom]
    cases hk : masks[k - 0]? with
    | none => rfl
    | some m => rw [Option.any_some, Option.any_some, h m (List.mem_of_getElem? hk)]

/-- **What is left and the selected bits determine the address.** -/
theorem eq_of_removed (h : r.Apart) {c : Addr} (ha : Without (r.masks.map ctz64) a c)
    (hb : Without (r.masks.map ctz64) b c)
    (hsel : ∀ m ∈ r.masks, selected a m = selected b m) : a = b := by
  refine BitVec.eq_of_getLsbD_eq fun k _ => ?_
  by_cases hk : k ∈ r.masks.map ctz64
  · obtain ⟨m, hm, rfl⟩ := List.mem_map.mp hk
    have hagree : ∀ i, i ≠ ctz64 m → (a &&& m).getLsbD i = (b &&& m).getLsbD i := by
      intro i hi
      rw [BitVec.getLsbD_and, BitVec.getLsbD_and]
      cases hbit : m.getLsbD i with
      | false => simp
      | true => rw [ha.agree hb (h.other_bit hm hbit hi)]
    have hlow := (odd_eq_iff hagree (ctz64_lt (h.nonzero m hm))).mp (hsel m hm)
    simpa [getLsbD_ctz64 (h.nonzero m hm)] using hlow
  · exact ha.agree hb hk

end Selected

/-! ## The `int` of `contains` -/

section Contains

variable {r : AddrRange} {a : Addr}

theorem selInt_eq (masks : List Addr) (i : Nat) (sel : BitVec 32) (h : i + masks.length ≤ 32) :
    selInt a i masks sel = .ok (sel ||| BitVec.ofNat 32 (selFrom a i masks)) := by
  induction masks generalizing i sel with
  | nil => simp [selInt, selFrom]
  | cons m masks ih =>
    rw [List.length_cons] at h
    rw [selInt, if_pos (by omega), ih (i + 1) _ (by omega), selFrom, BitVec.or_assoc]
    congr 2
    apply BitVec.eq_of_toNat_eq
    simp [Nat.shiftLeft_eq, Nat.mod_mul_mod]

theorem selInt_error (masks : List Addr) (i : Nat) (sel : BitVec 32) (hi : i ≤ 32) (h : 32 < i + masks.length) :
    selInt a i masks sel = .error .shift := by
  induction masks generalizing i sel with
  | nil =>
    rw [List.length_nil] at h
    omega
  | cons m masks ih =>
    rw [List.length_cons] at h
    rw [selInt]
    split
    · exact ih (i + 1) _ (by omega) (by omega)
    · rfl

/-- With at most 32 masks the `int` is wide enough. -/
theorem holds_iff : r.Holds a ↔ r.masks.length ≤ 32 ∧ r.start ≤ a ∧ a < r.end_ ∧
    selFrom a 0 r.masks = r.intlvMatch.toNat := by
  rw [holds_iff_selInt]
  by_cases h : r.masks.length ≤ 32
  · have hlt : selFrom a 0 r.masks < 2 ^ 32 :=
      Nat.lt_of_lt_of_le (selFrom_lt a r.masks) (Nat.pow_le_pow_right (by decide) h)
    have hsel : (0 ||| BitVec.ofNat 32 (selFrom a 0 r.masks) = r.intlvMatch.setWidth 32) ↔
        selFrom a 0 r.masks = r.intlvMatch.toNat := by
      rw [← BitVec.toNat_inj, BitVec.toNat_or, BitVec.toNat_ofNat, BitVec.toNat_setWidth, Nat.mod_eq_of_lt hlt,
        Nat.mod_eq_of_lt (by omega)]
      exact Eq.congr_left (Nat.zero_or _)
    rw [selInt_eq r.masks 0 0 (by omega), Except.ok.injEq, hsel, and_assoc]
    simp [h]
  · rw [selInt_error r.masks 0 0 (by decide) (by omega)]
    simp [h]

theorem contains_of_out (h : ¬ (r.start ≤ a ∧ a < r.end_)) : r.contains a = .ok false := by
  rw [contains, if_neg h]

theorem contains_error (h : 32 < r.masks.length) (ha : r.start ≤ a ∧ a < r.end_) : r.contains a = .error .shift := by
  rw [contains, if_pos ha, selInt_error r.masks 0 0 (by decide) (by omega)]
  rfl

theorem holds_or (h : r.masks.length ≤ 32) : r.Holds a ∨ r.contains a = .ok false := by
  refine or_iff_not_imp_left.mpr fun ha => (contains_eq_false_iff ha).mpr ?_
  unfold contains
  split
  · rw [selInt_eq r.masks 0 0 (by omega)]
    simp [bind, Except.bind]
  · simp

end Contains

end AddrRange

end Salam.Base
