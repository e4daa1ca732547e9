import Mathlib.Data.Fintype.Card
import Mathlib.Data.Fintype.Prod
import Mathlib.Data.Set.Function
import Salam.Base.Interleave

/-!
# Offsets in an interleaved range

`getOffset` numbers the addresses of a range from 0 on, without the interleaving bits.

* `exists_of_removed`: every rest and every match value are those of an address.
* `le_iff_removed`: taking the bits out keeps the order to an aligned address.
* `getOffset_bijective`: the offsets of a range are the numbers below its size, each once.
-/

namespace Salam.Base

open BitPlaces

/-- `MaxAddr`. -/
def maxAddr : Addr := BitVec.allOnes 64

namespace AddrRange

def getOffset (r : AddrRange) (a : Addr) : Except RangeErr Addr :=
  if ¬ (r.start ≤ a ∧ a < r.end_) then .ok maxAddr
  else if r.interleaved then do
    let offset ← r.removeIntlvBits a
    let first ← r.removeIntlvBits r.start
    .ok (offset - first)
  else .ok (a - r.start)

variable {r : AddrRange} {a b c d x : Addr} {k m : Nat}

/-! ## Every rest and every match value -/

theorem removed_lt (h : r.Apart) (hw : Without (r.masks.map ctz64) a c) : c.toNat < 2 ^ (64 - r.masks.length) := by
  refine Nat.lt_pow_two_of_testBit _ fun j hj => ?_
  exact top_of_without h hw j (by omega)

/-- **Every rest and every match value are those of an address**: there are as many addresses as pairs of them. -/
theorem exists_of_removed (h : r.Apart) (hx : x.toNat < 2 ^ (64 - r.masks.length)) (hm : m < 2 ^ r.masks.length) :
    ∃ a, Without (r.masks.map ctz64) a x ∧ selFrom a 0 r.masks = m := by
  choose f _ hw using removed h
  let g : Fin (2 ^ 64) → Fin (2 ^ (64 - r.masks.length)) × Fin (2 ^ r.masks.length) := fun i =>
    (⟨(f (BitVec.ofFin i)).toNat, removed_lt h (hw _)⟩, ⟨selFrom (BitVec.ofFin i) 0 r.masks, selFrom_lt _ _⟩)
  have hinj : Function.Injective g := by
    intro i j hij
    obtain ⟨hrest, hsel⟩ := Prod.mk.inj hij
    have hf : f (BitVec.ofFin i) = f (BitVec.ofFin j) := BitVec.eq_of_toNat_eq (Fin.mk.inj hrest)
    have heq := eq_of_removed h (hw (BitVec.ofFin i)) (hf ▸ hw (BitVec.ofFin j)) (selFrom_eq_iff.mp (Fin.mk.inj hsel))
    exact congrArg BitVec.toFin heq
  have hplace := place_of_above h.nodup fun p hp => h.lt hp
  rw [List.length_map] at hplace
  have hcard : Fintype.card (Fin (2 ^ 64)) =
    Fintype.card (Fin (2 ^ (64 - r.masks.length)) × Fin (2 ^ r.masks.length)) := by
    rw [Fintype.card_prod, Fintype.card_fin, Fintype.card_fin, Fintype.card_fin, ← Nat.pow_add,
      Nat.sub_add_cancel (by omega)]
  obtain ⟨i, hi⟩ := ((Fintype.bijective_iff_injective_and_card g).mpr ⟨hinj, hcard⟩).2 (⟨x.toNat, hx⟩, ⟨m, hm⟩)
  obtain ⟨hrest, hsel⟩ := Prod.mk.inj hi
  have hf : f (BitVec.ofFin i) = x := BitVec.eq_of_toNat_eq (Fin.mk.inj hrest)
  exact ⟨BitVec.ofFin i, hf ▸ hw (BitVec.ofFin i), Fin.mk.inj hsel⟩

/-! ## Aligned addresses -/

section Aligned

section

variable (h : r.Apart) (hk : ∀ p ∈ r.masks.map ctz64, p < k) (hw : Without (r.masks.map ctz64) a c)
include h hk hw

theorem removed_div : c.toNat / 2 ^ (k - r.masks.length) = a.toNat / 2 ^ k := by
  refine Nat.eq_of_testBit_eq fun i => ?_
  have hplace : ∀ j, k ≤ j → place (r.masks.map ctz64) j + r.masks.length = j := fun j hj => by
    have habove := place_of_above h.nodup fun p hp => Nat.lt_of_lt_of_le (hk p hp) hj
    rwa [List.length_map] at habove
  have hi := hplace (i + k) (by omega)
  rw [Nat.testBit_div_two_pow, Nat.testBit_div_two_pow, BitVec.testBit_toNat, BitVec.testBit_toNat,
    show i + (k - r.masks.length) = place (r.masks.map ctz64) (i + k) by have := hplace k (Nat.le_refl k); omega]
  by_cases h64 : i + k < 64
  · exact hw.kept (i + k) h64 fun hin => by
      have := hk _ hin
      omega
  · rw [hw.top _ (place_mono (by omega)), BitVec.getLsbD_of_ge a _ (by omega)]

theorem removed_mod (ha : 2 ^ k ∣ a.toNat) : c.toNat % 2 ^ (k - r.masks.length) = 0 := by
  refine Nat.eq_of_testBit_eq fun i => ?_
  rw [Nat.testBit_mod_two_pow, Nat.zero_testBit, BitVec.testBit_toNat, Bool.and_eq_false_iff, decide_eq_false_iff_not]
  refine or_iff_not_imp_left.mpr fun hi => ?_
  have hplace := place_of_above h.nodup hk
  rw [List.length_map] at hplace
  obtain ⟨j, hj, hmem, rfl⟩ := exists_place (show i < place (r.masks.map ctz64) k by omega)
  by_cases h64 : j < 64
  · obtain ⟨q, hq⟩ := ha
    rw [hw.kept j h64 hmem, ← BitVec.testBit_toNat, hq, Nat.testBit_two_pow_mul, decide_eq_false (by omega),
      Bool.false_and]
  · exact hw.top _ (place_mono (by omega))

theorem removed_aligned (ha : 2 ^ k ∣ a.toNat) : c.toNat * 2 ^ r.masks.length = a.toNat := by
  have hdiv := removed_div h hk hw
  have hmod := removed_mod h hk hw ha
  have hplace := place_of_above h.nodup hk
  rw [List.length_map] at hplace
  have hpow : 2 ^ (k - r.masks.length) * 2 ^ r.masks.length = 2 ^ k := by
    rw [← Nat.pow_add]
    congr 1
    omega
  calc c.toNat * 2 ^ r.masks.length
      = 2 ^ (k - r.masks.length) * (c.toNat / 2 ^ (k - r.masks.length)) * 2 ^ r.masks.length := by
        rw [Nat.mul_div_cancel' (Nat.dvd_of_mod_eq_zero hmod)]
    _ = 2 ^ k * (a.toNat / 2 ^ k) := by rw [hdiv, ← hpow, Nat.mul_right_comm]
    _ = a.toNat := Nat.mul_div_cancel' ha

end

/-- **Taking the bits out keeps the order to an aligned address.** -/
theorem le_iff_removed (h : r.Apart) (hk : ∀ p ∈ r.masks.map ctz64, p < k) (ha : Without (r.masks.map ctz64) a c)
    (hb : Without (r.masks.map ctz64) b d) (hbk : 2 ^ k ∣ b.toNat) : b.toNat ≤ a.toNat ↔ d.toNat ≤ c.toNat := by
  have hadiv := removed_div h hk ha
  have hbdiv := removed_div h hk hb
  have hd := Nat.dvd_of_mod_eq_zero (removed_mod h hk hb hbk)
  obtain ⟨q, hq⟩ := hbk
  obtain ⟨e, he⟩ := hd
  have hqe : e = q := by
    rw [he, hq, Nat.mul_div_cancel_left _ (Nat.two_pow_pos _), Nat.mul_div_cancel_left _ (Nat.two_pow_pos _)] at hbdiv
    exact hbdiv
  rw [hq, he, hqe, Nat.mul_comm, Nat.mul_comm (2 ^ (k - r.masks.length)), ← Nat.le_div_iff_mul_le (Nat.two_pow_pos _),
    ← Nat.le_div_iff_mul_le (Nat.two_pow_pos _), hadiv]

end Aligned

/-! ## The numbering -/

/-- Every bit of a mask is below bit `k`, and the ends of the range are multiples of `2 ^ k`. -/
structure Aligned (r : AddrRange) (k : Nat) : Prop where
  below : ∀ mask ∈ r.masks, ∀ i, mask.getLsbD i = true → i < k
  start : 2 ^ k ∣ r.start.toNat
  end_ : 2 ^ k ∣ r.end_.toNat

section Numbering

theorem Aligned.lsb_lt (ha : r.Aligned k) (h : r.Apart) : ∀ p ∈ r.masks.map ctz64, p < k := by
  intro p hp
  obtain ⟨m, hm, rfl⟩ := List.mem_map.mp hp
  exact ha.below m hm _ (getLsbD_ctz64 (h.nonzero m hm))

/-- The addresses between the ends are those whose rest is. -/
theorem inRange_iff (h : r.Apart) (hk : r.Aligned k) {s e : Addr} (hs : Without (r.masks.map ctz64) r.start s)
    (he : Without (r.masks.map ctz64) r.end_ e) (ha : Without (r.masks.map ctz64) a c) :
    (r.start ≤ a ∧ a < r.end_) ↔ s.toNat ≤ c.toNat ∧ c.toNat < e.toNat := by
  have hlow := le_iff_removed h (hk.lsb_lt h) ha hs hk.start
  have hhigh := le_iff_removed h (hk.lsb_lt h) ha he hk.end_
  rw [BitVec.le_def, BitVec.lt_def]
  omega

theorem size_removed (h : r.Apart) (hk : r.Aligned k) (hv : r.start ≤ r.end_) {s e : Addr}
    (hs : Without (r.masks.map ctz64) r.start s) (he : Without (r.masks.map ctz64) r.end_ e) :
    s.toNat + r.size.toNat = e.toNat := by
  have hs' := removed_aligned h (hk.lsb_lt h) hs hk.start
  have he' := removed_aligned h (hk.lsb_lt h) he hk.end_
  have hle : s.toNat ≤ e.toNat := (le_iff_removed h (hk.lsb_lt h) he hs hk.start).mp hv
  have hsize : r.size.toNat = e.toNat - s.toNat := by
    rw [size, BitVec.toNat_ushiftRight, BitVec.toNat_sub_of_le hv, Nat.shiftRight_eq_div_pow, ← hs', ← he',
      ← Nat.sub_mul, Nat.mul_div_cancel _ (Nat.two_pow_pos _)]
  omega

theorem getOffset_eq (hr : r.interleaved = true) {s : Addr} (hs : r.removeIntlvBits r.start = .ok s)
    (ha : r.removeIntlvBits a = .ok c) (hin : r.start ≤ a ∧ a < r.end_) : r.getOffset a = .ok (c - s) := by
  rw [getOffset, if_neg (not_not_intro hin), if_pos hr, ha, hs]
  rfl

/-- The offsets of a range are the numbers below its size, each once. -/
theorem bijOn_getOffset (hr : r.interleaved = true) (h : r.Apart) (hk : r.Aligned k) (hv : r.start ≤ r.end_)
    (hn : r.masks.length ≤ 32) : Set.BijOn r.getOffset {a | r.contains a = .ok true}
      {v | ∃ o, v = .ok o ∧ o < r.size} := by
  obtain ⟨s, hs, hsw⟩ := removed h r.start
  obtain ⟨e, -, hew⟩ := removed h r.end_
  have hsize := size_removed h hk hv hsw hew
  have hmem : ∀ a, r.contains a = .ok true → ∃ c, Without (r.masks.map ctz64) a c ∧ r.getOffset a = .ok (c - s) ∧
      s.toNat ≤ c.toNat ∧ c.toNat < e.toNat := by
    intro a ha
    obtain ⟨c, hc, hw⟩ := removed h a
    obtain ⟨-, hlow, hhigh, -⟩ := holds_iff.mp ha
    obtain ⟨hsc, hce⟩ := (inRange_iff h hk hsw hew hw).mp ⟨hlow, hhigh⟩
    exact ⟨c, hw, getOffset_eq hr hs hc ⟨hlow, hhigh⟩, hsc, hce⟩
  refine ⟨fun a ha => ?_, fun a ha b hb hab => ?_, ?_⟩
  · obtain ⟨c, -, hoff, hsc, hce⟩ := hmem a ha
    refine ⟨c - s, hoff, ?_⟩
    rw [BitVec.lt_def, BitVec.toNat_sub_of_le hsc]
    omega
  · obtain ⟨c, hc, hoff, hsc, -⟩ := hmem a ha
    obtain ⟨d, hd, hoff', hsd, -⟩ := hmem b hb
    have hcd : c = d := by
      have heq := congrArg BitVec.toNat (Except.ok.inj (hoff.symm.trans (hab.trans hoff')))
      rw [BitVec.toNat_sub_of_le hsc, BitVec.toNat_sub_of_le hsd] at heq
      refine BitVec.eq_of_toNat_eq ?_
      omega
    refine eq_of_removed h hc (hcd ▸ hd) (selFrom_eq_iff.mp ?_)
    rw [(holds_iff.mp ha).2.2.2, (holds_iff.mp hb).2.2.2]
  · rintro v ⟨o, rfl, ho⟩
    rw [BitVec.lt_def] at ho
    have he64 := removed_lt h hew
    have hsum : (s + o).toNat = s.toNat + o.toNat := by
      refine BitVec.toNat_add_of_lt (Nat.lt_of_lt_of_le (show s.toNat + o.toNat < e.toNat by omega)
        (Nat.le_of_lt e.isLt))
    obtain ⟨a, hw, hsel⟩ := exists_of_removed h (x := s + o) (by omega) (r.fits (by
      rintro hnil
      simp [interleaved, hnil] at hr))
    have hin := (inRange_iff h hk hsw hew hw).mpr ⟨by omega, by omega⟩
    refine ⟨a, holds_iff.mpr ⟨hn, hin.1, hin.2, hsel⟩, ?_⟩
    rw [getOffset_eq hr hs ((removed_iff h).mpr hw) hin, BitVec.add_comm, BitVec.add_sub_cancel]

/-- **The controllers of a region give every address one controller and one offset, and every offset below their size to
one address each.** -/
theorem getOffset_bijective (hr : r.interleaved = true) (h : r.Apart) (hk : r.Aligned k) (hv : r.start ≤ r.end_)
    (hn : r.masks.length ≤ 32) :
    Set.BijOn r.getOffset {a | r.contains a = .ok true} {v | ∃ o, v = .ok o ∧ o < r.size} ∧
      ∀ ctrl : Fin (2 ^ r.masks.length) → AddrRange,
        (∀ i, r.mergesWith (ctrl i) = true ∧ (ctrl i).intlvMatch.toNat = i) →
          (∀ a, r.start ≤ a → a < r.end_ →
            ∃! p : Fin (2 ^ r.masks.length) × Addr, (ctrl p.1).contains a = .ok true ∧
            (ctrl p.1).getOffset a = .ok p.2) ∧
          ∀ p : Fin (2 ^ r.masks.length) × Addr, p.2 < r.size →
            ∃! a, (ctrl p.1).contains a = .ok true ∧ (ctrl p.1).getOffset a = .ok p.2 := by
  refine ⟨bijOn_getOffset hr h hk hv hn, fun ctrl hctrl => ?_⟩
  have hsame : ∀ i, (ctrl i).start = r.start ∧ (ctrl i).end_ = r.end_ ∧ (ctrl i).masks = r.masks := fun i => by
    obtain ⟨hs, he, hm⟩ := mergesWith_iff.mp (hctrl i).1
    exact ⟨hs.symm, he.symm, hm.symm⟩
  have hbij : ∀ i, Set.BijOn (ctrl i).getOffset {a | (ctrl i).contains a = .ok true}
    {v | ∃ o, v = .ok o ∧ o < r.size} := by
    intro i
    obtain ⟨hs, he, hm⟩ := hsame i
    have hsize : (ctrl i).size = r.size := by rw [size, size, hs, he, hm]
    rw [← hsize]
    refine bijOn_getOffset (k := k) ?_ ⟨?_, ?_⟩ ⟨?_, ?_, ?_⟩ ?_ ?_
    · rwa [interleaved, hm]
    · rw [hm]
      exact h.nonzero
    · rw [hm]
      exact h.disjoint
    · rw [hm]
      exact hk.below
    · rw [hs]
      exact hk.start
    · rw [he]
      exact hk.end_
    · rwa [hs, he]
    · rwa [hm]
  refine ⟨fun a hlow hhigh => ?_, fun p hp => ?_⟩
  · -- the controller is the one that the selected bits name
    have hin : ∀ i : Fin (2 ^ r.masks.length), (ctrl i).contains a = .ok true ↔ selFrom a 0 r.masks = i := by
      intro i
      obtain ⟨hs, he, hm⟩ := hsame i
      rw [← Holds, holds_iff, hs, he, hm, (hctrl i).2]
      exact ⟨fun hc => hc.2.2.2, fun hsel => ⟨hn, hlow, hhigh, hsel⟩⟩
    have hself := (hin ⟨_, selFrom_lt a r.masks⟩).mpr rfl
    obtain ⟨o, ho, -⟩ := (hbij ⟨_, selFrom_lt a r.masks⟩).mapsTo hself
    refine ⟨(⟨_, selFrom_lt a r.masks⟩, o), ⟨hself, ho⟩, fun p hp => ?_⟩
    have hi : p.1 = ⟨_, selFrom_lt a r.masks⟩ := Fin.ext ((hin p.1).mp hp.1).symm
    have hoff := hp.2
    rw [hi, ho] at hoff
    exact Prod.ext hi (Except.ok.inj hoff).symm
  · obtain ⟨a, ha, hoff⟩ := (hbij p.1).surjOn ⟨p.2, rfl, hp⟩
    exact ⟨a, ⟨ha, hoff⟩, fun b hb => (hbij p.1).injOn hb.1 ha (hb.2.trans hoff.symm)⟩

end Numbering

theorem fourBanks_fits : [5#64, 10#64] ≠ [] → (1#8).toNat < 2 ^ [5#64, 10#64].length := fun _ => by decide

def fourBanks : AddrRange := ⟨16, 64, [5, 10], 1, fourBanks_fits⟩

theorem fourBanks_below : ∀ mask ∈ fourBanks.masks, ∀ i, mask.getLsbD i = true → i < 4 := by
  intro mask hmask i hi
  by_contra hge
  have hlt : mask.toNat < 2 ^ i := by
    have h4 : 2 ^ 4 ≤ 2 ^ i := Nat.pow_le_pow_right (by decide) (by omega)
    simp only [fourBanks, List.mem_cons, List.not_mem_nil, or_false] at hmask
    rcases hmask with rfl | rfl <;> exact Nat.lt_of_lt_of_le (by decide) h4
  rw [← BitVec.testBit_toNat, Nat.testBit_lt_two_pow hlt] at hi
  cases hi

theorem getOffset_fourBanks :
    Set.BijOn fourBanks.getOffset {a | fourBanks.contains a = .ok true} {v | ∃ o, v = .ok o ∧ o < fourBanks.size} :=
  (getOffset_bijective rfl ⟨by simp [fourBanks], by simp [fourBanks]⟩ ⟨fourBanks_below, ⟨1, rfl⟩, ⟨4, rfl⟩⟩
    (by simp [fourBanks, BitVec.le_def]) (by simp [fourBanks])).1

theorem backwards_fits : [1#64] ≠ [] → (0#8).toNat < 2 ^ [1#64].length := fun _ => by decide

def backwards : AddrRange := ⟨2, 0, [1], 0, backwards_fits⟩

def oneBits : List Addr := (List.range 33).map fun i => 1#64 <<< i

theorem manyMasks_fits : oneBits ≠ [] → (1#8).toNat < 2 ^ oneBits.length := fun _ => by decide

def manyMasks : AddrRange := ⟨0, 1 <<< 33, oneBits, 1, manyMasks_fits⟩

theorem getLsbD_oneBit (i j : Nat) : (1#64 <<< i).getLsbD j = (decide (j < 64) && decide (j = i)) := by
  by_cases hji : j = i
  · simp [hji]
  · simp [hji]
    omega

theorem manyMasks_apart : manyMasks.Apart := by
  constructor
  · intro mask hmask hzero
    obtain ⟨i, hi, rfl⟩ := List.mem_map.mp hmask
    have hbit := getLsbD_oneBit i i
    rw [hzero] at hbit
    simp at hbit
    have := List.mem_range.mp hi
    omega
  · refine List.pairwise_map.mpr (List.pairwise_lt_range.imp fun {i j} hij => ?_)
    refine BitVec.eq_of_getLsbD_eq fun b hb => ?_
    simp
    omega

theorem manyMasks_aligned : manyMasks.Aligned 33 := by
  refine ⟨fun mask hmask j hj => ?_, ⟨0, rfl⟩, ⟨1, rfl⟩⟩
  obtain ⟨i, hi, rfl⟩ := List.mem_map.mp hmask
  rw [getLsbD_oneBit] at hj
  simp at hj
  rw [hj.2]
  exact List.mem_range.mp hi

theorem not_bijOn (hno : ∀ a, r.contains a ≠ .ok true) (hsize : 0 < r.size) :
    ¬ Set.BijOn r.getOffset {a | r.contains a = .ok true} {v | ∃ o, v = .ok o ∧ o < r.size} := by
  intro h
  obtain ⟨a, ha, -⟩ := h.surjOn ⟨0, rfl, hsize⟩
  exact hno a ha

/-- A range that ends before it starts is empty, but has a size. With 33 masks the `int` is shifted by 32. -/
theorem offsets_missing :
    (backwards.Apart ∧ backwards.Aligned 1 ∧
      ¬ Set.BijOn backwards.getOffset {a | backwards.contains a = .ok true} {v | ∃ o, v = .ok o ∧ o < backwards.size}) ∧
    manyMasks.Apart ∧ manyMasks.Aligned 33 ∧ manyMasks.contains 0 = .error .shift ∧
      ¬ Set.BijOn manyMasks.getOffset {a | manyMasks.contains a = .ok true}
        {v | ∃ o, v = .ok o ∧ o < manyMasks.size} := by
  have hempty : ∀ a, backwards.contains a ≠ .ok true := by
    intro a ha
    have hlt := (holds_iff.mp ha).2.2.1
    exact Nat.not_lt_zero _ hlt
  have hlen : manyMasks.masks.length = 33 := by rfl
  have hshift : ∀ a, manyMasks.contains a ≠ .ok true := by
    intro a ha
    have := (holds_iff.mp ha).1
    omega
  refine ⟨⟨⟨by simp [backwards], by simp [backwards]⟩, ⟨?_, ⟨1, rfl⟩, ⟨0, rfl⟩⟩, not_bijOn hempty (by decide)⟩,
    manyMasks_apart, manyMasks_aligned, contains_error (by omega) (by decide), not_bijOn hshift (by decide)⟩
  intro mask hmask i hi
  obtain rfl : mask = 1#64 := by simpa [backwards] using hmask
  simp at hi
  omega

end AddrRange

end Salam.Base
