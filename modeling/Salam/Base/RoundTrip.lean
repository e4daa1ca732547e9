import Salam.Base.Interleave
import Salam.Lib.System

/-!
# Taking the interleaving bits out and putting them back

* `added`: with at most two masks `addIntlvBits` puts the bits in at their places.
* `setFrom_spec`: what the bits are set to.
* `third_lost`: with a third mask a bit of the address is lost.
* `roundTrips_iff`: when `addIntlvBits` and `removeIntlvBits` undo each other.
-/

namespace Salam.Base.AddrRange

open BitPlaces Bitfield

variable {r : AddrRange} {a b c x m : Addr}

/-! ## Making room for the bits -/

theorem addBit_spec {i l : Nat} (h : l + i ≤ 64) (b : Addr) :
    ∃ c, addBit i l b = .ok c ∧ ∀ j < 64, c.getLsbD j = if 0 < l ∧ j < l + i then b.getLsbD j
      else (b <<< 1).getLsbD j := by
  by_cases hl : 0 < l
  · obtain ⟨c, hc, hbits⟩ := checkedInsertBits_spec 0 (l + i) (by omega) (by decide) (b <<< 1) b
    have hfirst : (l : Int) + i - 1 = ((0 : Nat) : Int) + (l + i : Nat) - 1 := by omega
    refine ⟨c, by rw [addBit, if_pos hl, hfirst, hc], fun j hj => ?_⟩
    rw [hbits j hj, Nat.sub_zero, Nat.zero_add]
    simp only [Nat.zero_le, true_and, hl]
  · exact ⟨b <<< 1, by rw [addBit, if_neg hl], fun j _ => by rw [if_neg fun h => hl h.1]⟩

theorem addFrom_concat (lsbs : List Nat) (i l : Nat) (b : Addr) :
    addFrom i (lsbs ++ [l]) b = (addFrom i lsbs b).bind (addBit (i + lsbs.length) l) := by
  induction lsbs generalizing i b with
  | nil =>
    simp only [List.nil_append, addFrom, List.length_nil, Nat.add_zero]
    cases hb : addBit i l b <;> simp [bind, Except.bind, hb]
  | cons l' lsbs ih =>
    rw [List.cons_append, addFrom, addFrom]
    cases hb : addBit i l' b with
    | error e => rfl
    | ok c =>
      have hlen : i + 1 + lsbs.length = i + (l' :: lsbs).length := by
        rw [List.length_cons]
        omega
      rw [← hlen]
      exact ih (i + 1) c

/-- A step moves the bits up by one place at most. -/
theorem addFrom_top {lsbs : List Nat} {i n : Nat} (hlsbs : ∀ l ∈ lsbs, l + i + lsbs.length ≤ 64)
    (hb : ∀ j, n ≤ j → b.getLsbD j = false) :
    ∃ c, addFrom i lsbs b = .ok c ∧ ∀ j, n + lsbs.length ≤ j → c.getLsbD j = false := by
  induction lsbs generalizing i n b with
  | nil => exact ⟨b, rfl, hb⟩
  | cons l lsbs ih =>
    have hl := hlsbs l List.mem_cons_self
    obtain ⟨c, hc, hbits⟩ := addBit_spec (i := i) (l := l) (by omega) b
    have hctop : ∀ j, n + 1 ≤ j → c.getLsbD j = false := by
      intro j hj
      by_cases hj64 : j < 64
      · rw [hbits j hj64]
        split
        · exact hb j (by omega)
        · rw [BitVec.getLsbD_shiftLeft, hb (j - 1) (by omega), Bool.and_false]
      · exact BitVec.getLsbD_of_ge c j (by omega)
    obtain ⟨v, hv, hvtop⟩ := ih (i := i + 1) (fun l' hl' => by
      have := hlsbs l' (List.mem_cons_of_mem l hl')
      rw [List.length_cons] at this
      omega) hctop
    refine ⟨v, ?_, fun j hj => hvtop j ?_⟩
    · rw [addFrom, hc]
      exact hv
    · rw [List.length_cons] at hj
      omega

/-- The first and the second bit are put in at their places. -/
theorem added_step {ps : List Nat} {l : Nat} (h : Without ps b x) (hlen : ps.length ≤ 1)
    (hps : ∀ p ∈ ps, p < l) (hl : l < 64)
    (hx : ∀ j, place (l :: ps) 64 ≤ j → x.getLsbD j = false) :
      ∃ c, addBit ps.length l b = .ok c ∧ Without (l :: ps) c x := by
  obtain ⟨c, hc, hbits⟩ := addBit_spec (i := ps.length) (l := l) (by omega) b
  refine ⟨c, hc, h.insert hps (fun k hk hne => ?_) hx⟩
  rw [hbits k hk]
  by_cases hkl : k < l
  · rw [if_pos hkl, if_pos (by omega)]
  · rw [if_neg hkl, if_neg (by omega), BitVec.getLsbD_shiftLeft]
    simp [hk, show ¬ k < 1 by omega]

theorem addFrom_spec {lsbs ps : List Nat} (h : Without ps b x) (hlen : ps.length + lsbs.length ≤ 2) (hnd : ps.Nodup)
    (hsorted : lsbs.Pairwise (· < ·)) (hps : ∀ p ∈ ps, ∀ l ∈ lsbs, p < l) (hpt : ∀ p ∈ ps, p < 64)
      (hlt : ∀ l ∈ lsbs, l < 64)
    (hx : ∀ j, 64 ≤ j + (ps.length + lsbs.length) → x.getLsbD j = false) :
    ∃ c, addFrom ps.length lsbs b = .ok c ∧ Without (lsbs.reverse ++ ps) c x := by
  induction lsbs generalizing ps b with
  | nil => exact ⟨b, rfl, h⟩
  | cons l lsbs ih =>
    rw [List.length_cons] at hlen hx
    have hl := hlt l List.mem_cons_self
    have hpl : ∀ p ∈ ps, p < l := fun p hp => hps p hp l List.mem_cons_self
    have hnd' : (l :: ps).Nodup := List.nodup_cons.mpr ⟨fun hin => absurd (hpl l hin) (Nat.lt_irrefl l), hnd⟩
    have hpt' : ∀ p ∈ l :: ps, p < 64 := List.forall_mem_cons.mpr ⟨hl, hpt⟩
    have hplace := place_of_above hnd' hpt'
    obtain ⟨hhead, hsorted⟩ := List.pairwise_cons.mp hsorted
    obtain ⟨c, hc, hstep⟩ := added_step h (by omega) hpl hl fun j hj => hx j (by
      rw [List.length_cons] at hplace
      omega)
    have hps' : ∀ p ∈ l :: ps, ∀ l' ∈ lsbs, p < l' :=
      List.forall_mem_cons.mpr ⟨hhead, fun p hp l' hl' => hps p hp l' (List.mem_cons_of_mem l hl')⟩
    obtain ⟨v, hv, hw⟩ := ih hstep (by rw [List.length_cons]; omega) hnd' hsorted hps' hpt'
      (fun l' hl' => hlt l' (List.mem_cons_of_mem l hl')) fun j hj => hx j (by rw [List.length_cons] at hj; omega)
    refine ⟨v, ?_, by simpa using hw⟩
    rw [addFrom, hc]
    exact hv

/-- With at most two masks the bits are put in at their places. -/
theorem added (h : r.Apart) (hlen : r.masks.length ≤ 2) (hx : ∀ j, 64 ≤ j + r.masks.length → x.getLsbD j = false) :
    ∃ c, addFrom 0 r.masksLsb x = .ok c ∧ Without (r.masks.map ctz64) c x := by
  obtain ⟨c, hc, hw⟩ := addFrom_spec (Without.refl x) (by rw [length_masksLsb]; simpa using hlen) List.nodup_nil
    h.sorted (fun p hp => absurd hp List.not_mem_nil) (fun p hp => absurd hp List.not_mem_nil)
    (fun l hl => h.lt (mem_masksLsb.mp hl)) fun j hj => hx j (by rw [length_masksLsb] at hj; simpa using hj)
  exact ⟨c, hc, hw.congr fun j => by simp [mem_masksLsb]⟩

/-! ## Setting the bits -/

/-- The parity of the bits of a mask above its lowest. -/
def others (a mask : Addr) : Bool := popCount (a &&& mask &&& ~~~(1#64 <<< ctz64 mask)) % 2 = 1

theorem getLsbD_not_bit {l j : Nat} (hl : l < 64) (hj : j < 64) : (~~~(1#64 <<< l)).getLsbD j = decide (j ≠ l) := by
  by_cases h : j = l
  · subst h
    simp
  · simp [hj, h]
    omega

theorem popCount_mask (hm : m ≠ 0) (a : Addr) :
    popCount (a &&& m) = popCount (a &&& m &&& ~~~(1#64 <<< ctz64 m)) + (a.getLsbD (ctz64 m)).toNat := by
  have hl := ctz64_lt hm
  have hagree : ∀ i, i ≠ ctz64 m → (a &&& m).getLsbD i = (a &&& m &&& ~~~(1#64 <<< ctz64 m)).getLsbD i := by
    intro i hi
    by_cases h64 : i < 64
    · rw [BitVec.getLsbD_and (x := a &&& m), getLsbD_not_bit hl h64]
      simp [hi]
    · rw [BitVec.getLsbD_of_ge _ i (by omega), BitVec.getLsbD_of_ge _ i (by omega)]
  have hcount := countP_range_of_agree hagree 64
  rw [if_pos hl, if_pos hl, BitVec.getLsbD_and (x := a &&& m), getLsbD_not_bit hl hl, BitVec.getLsbD_and (x := a),
    getLsbD_ctz64 hm] at hcount
  simp only [ne_eq, not_true_eq_false, decide_false, Bool.and_false, Bool.toNat_false, Nat.add_zero,
    Bool.and_true] at hcount
  exact hcount

theorem selected_eq (hm : m ≠ 0) (a : Addr) : selected a m = (a.getLsbD (ctz64 m) ^^ others a m) := by
  rw [selected, others, popCount_mask hm]
  generalize popCount (a &&& m &&& ~~~(1#64 <<< ctz64 m)) = n
  rcases Nat.mod_two_eq_zero_or_one n with hn | hn <;> cases a.getLsbD (ctz64 m) <;> simp [Nat.add_mod, hn]

theorem others_congr (h : ∀ k, k ≠ ctz64 m → m.getLsbD k = true → a.getLsbD k = b.getLsbD k) :
    others a m = others b m := by
  have heq : a &&& m &&& ~~~(1#64 <<< ctz64 m) = b &&& m &&& ~~~(1#64 <<< ctz64 m) := by
    refine BitVec.eq_of_getLsbD_eq fun k hk => ?_
    by_cases hkm : m.getLsbD k = true
    · by_cases hkl : k = ctz64 m
      · simp [hkl]
      · simp only [BitVec.getLsbD_and, h k hkl hkm]
    · simp [hkm]
  rw [others, others, heq]

/-- The bit that is put in for a mask: with the lowest bit 31, `~(1 << lsb)` has none of the bits above. -/
def putBit (intlvMatch : BitVec 8) (i : Nat) (a mask : Addr) : Bool :=
  intlvMatch.getLsbD i ^^ (decide (ctz64 mask < 31) && others a mask)

theorem getLsbD_clearMask {l : Nat} (hl : l < 32) :
    ∃ v, clearMask l = .ok v ∧ ∀ j < 64, v.getLsbD j = decide (j ≠ l ∧ (j < 32 ∨ l < 31)) := by
  refine ⟨_, by rw [clearMask, if_pos hl], fun j hj => ?_⟩
  have hbit : ∀ k < 32, (~~~(1#32 <<< l)).getLsbD k = decide (k ≠ l) := by
    intro k hk
    by_cases h : k = l
    · subst h
      simp
    · simp [hk, h]
      omega
  rw [BitVec.getLsbD_signExtend]
  by_cases h32 : j < 32
  · rw [if_pos h32, hbit j h32]
    simp [hj, h32]
  · rw [if_neg h32, BitVec.msb_eq_getLsbD_last, hbit 31 (by decide)]
    simp only [hj, decide_true, Bool.true_and, decide_eq_decide]
    omega

theorem masked_parity {v : Addr} (hl : ctz64 m < 32)
    (hv : ∀ j < 64, v.getLsbD j = decide (j ≠ ctz64 m ∧ (j < 32 ∨ ctz64 m < 31))) (a : Addr) :
    decide (popCount (a &&& m &&& v) % 2 = 1) = (decide (ctz64 m < 31) && others a m) := by
  by_cases h31 : ctz64 m < 31
  · have heq : a &&& m &&& v = a &&& m &&& ~~~(1#64 <<< ctz64 m) := by
      refine BitVec.eq_of_getLsbD_eq fun j hj => ?_
      rw [BitVec.getLsbD_and, BitVec.getLsbD_and (y := ~~~(1#64 <<< ctz64 m)), hv j hj, getLsbD_not_bit (by omega) hj]
      simp [h31]
    rw [heq, decide_eq_true h31, Bool.true_and, others]
  · have heq : a &&& m &&& v = 0 := by
      refine BitVec.eq_of_getLsbD_eq fun j hj => ?_
      rw [BitVec.getLsbD_and, hv j hj, BitVec.getLsbD_and]
      rcases Nat.lt_trichotomy j (ctz64 m) with hlt | heq | hgt
      · simp [getLsbD_of_lt_ctz64 hlt]
      · simp [heq]
      · simp [show ¬ j < 32 by omega, h31]
    rw [heq, decide_eq_false h31, Bool.false_and]
    decide

theorem setBit_spec (intlvMatch : BitVec 8) {i : Nat} (hi : i < 32) (hl : ctz64 m < 32) (a : Addr) :
    ∃ c, setBit intlvMatch i m a = .ok c ∧ (∀ k, k ≠ ctz64 m → c.getLsbD k = a.getLsbD k) ∧
      c.getLsbD (ctz64 m) = putBit intlvMatch i a m := by
  obtain ⟨v, hv, hvbits⟩ := getLsbD_clearMask hl
  obtain ⟨c, hc, hbits⟩ := checkedInsertBits_spec (ctz64 m) 1 (by omega) (by omega) a
    (((intlvMatch >>> i).setWidth 64 &&& 1) ^^^ BitVec.ofNat 64 (popCount (a &&& m &&& v)))
  have hfirst : ((ctz64 m : Nat) : Int) + (1 : Nat) - 1 = (ctz64 m : Nat) := by omega
  rw [hfirst] at hc
  refine ⟨c, ?_, fun k hk => ?_, ?_⟩
  · rw [setBit, checkedBit, if_pos hi, hv]
    exact hc
  · by_cases hk64 : k < 64
    · rw [hbits k hk64, if_neg (by omega)]
    · rw [BitVec.getLsbD_of_ge c k (by omega), BitVec.getLsbD_of_ge a k (by omega)]
  · rw [hbits _ (by omega), if_pos (by omega), Nat.sub_self, putBit, ← masked_parity hl hvbits, BitVec.getLsbD_xor,
      BitVec.getLsbD_ofNat, Nat.testBit_zero]
    simp
    omega

theorem Apart.pairwise (h : r.Apart) :
    r.masks.Pairwise fun mask mask' => mask'.getLsbD (ctz64 mask) = false ∧ ctz64 mask ≠ ctz64 mask' := by
  refine h.disjoint.imp_of_mem fun {m m'} hm hm' hand => ?_
  have hbit : m'.getLsbD (ctz64 m) = false := by
    have hzero := congrArg (fun v : Addr => v.getLsbD (ctz64 m)) hand
    simpa [getLsbD_ctz64 (h.nonzero m hm)] using hzero
  refine ⟨hbit, fun he => ?_⟩
  rw [he, getLsbD_ctz64 (h.nonzero m' hm')] at hbit
  cases hbit

/-- The other bits of the masks are not touched, so a bit that is put in depends on the address before the loop only. -/
theorem setFrom_spec (intlvMatch : BitVec 8) {masks : List Addr} {i : Nat} (hlen : i + masks.length ≤ 32)
    (hl : ∀ m ∈ masks, ctz64 m < 32)
    (hd : masks.Pairwise fun mask mask' => mask'.getLsbD (ctz64 mask) = false ∧ ctz64 mask ≠ ctz64 mask') (a : Addr) :
    ∃ c, setFrom intlvMatch i masks a = .ok c ∧ (∀ k, k ∉ masks.map ctz64 → c.getLsbD k = a.getLsbD k) ∧
      ∀ j m, masks[j]? = some m → c.getLsbD (ctz64 m) = putBit intlvMatch (i + j) a m := by
  induction masks generalizing i a with
  | nil => exact ⟨a, rfl, fun _ _ => rfl, fun j m hj => by simp at hj⟩
  | cons m masks ih =>
    rw [List.length_cons] at hlen
    obtain ⟨hhead, hd⟩ := List.pairwise_cons.mp hd
    obtain ⟨b, hb, hbits, hput⟩ := setBit_spec intlvMatch (i := i) (by omega) (hl m List.mem_cons_self) a
    obtain ⟨c, hc, hkeep, hset⟩ := ih (i := i + 1) (by omega) (fun m' hm' => hl m' (List.mem_cons_of_mem m hm')) hd b
    refine ⟨c, by rw [setFrom, hb]; exact hc, fun k hk => ?_, fun j m' hj => ?_⟩
    · rw [List.map_cons, List.mem_cons, not_or] at hk
      rw [hkeep k hk.2, hbits k hk.1]
    · cases j with
      | zero =>
        obtain rfl : m = m' := by simpa using hj
        have hout : ctz64 m ∉ masks.map ctz64 := by
          intro hin
          obtain ⟨m', hm', he⟩ := List.mem_map.mp hin
          exact (hhead m' hm').2 he.symm
        rw [hkeep _ hout, hput, Nat.add_zero]
      | succ j =>
        have hj' : masks[j]? = some m' := by simpa using hj
        have hothers : others b m' = others a m' := by
          refine others_congr fun k hk hbit => hbits k fun he => ?_
          rw [he, (hhead m' (List.mem_of_getElem? hj')).1] at hbit
          cases hbit
        rw [hset j m' hj', putBit, putBit, hothers, show i + 1 + j = i + (j + 1) by omega]

theorem setFrom_low {intlvMatch : BitVec 8} {masks : List Addr} {i : Nat} (h : setFrom intlvMatch i masks a = .ok c) :
    ∀ m ∈ masks, ctz64 m < 32 := by
  induction masks generalizing i a with
  | nil => exact fun m hm => absurd hm List.not_mem_nil
  | cons m masks ih =>
    obtain ⟨b, hb, hrest⟩ := ok_of_bind h
    obtain ⟨_, -, hb⟩ := ok_of_bind hb
    obtain ⟨v, hv, -⟩ := ok_of_bind hb
    refine List.forall_mem_cons.mpr ⟨?_, ih hrest⟩
    by_contra hge
    have herr : clearMask (ctz64 m) = .error .shift := if_neg hge
    cases herr.symm.trans hv

theorem length_le_of_low (h : r.Apart) (hl : ∀ m ∈ r.masks, ctz64 m < 32) : r.masks.length ≤ 32 := by
  have hplace := place_of_above (k := 32) h.nodup fun p hp => by
    obtain ⟨m, hm, rfl⟩ := List.mem_map.mp hp
    exact hl m hm
  rw [List.length_map] at hplace
  omega

theorem addIntlvBits_eq (h : r.Apart) (hl : ∀ m ∈ r.masks, ctz64 m < 32) (hb : addFrom 0 r.masksLsb x = .ok b) :
    ∃ c, r.addIntlvBits x = .ok c ∧ (∀ k, k ∉ r.masks.map ctz64 → c.getLsbD k = b.getLsbD k) ∧
      ∀ j m, r.masks[j]? = some m → c.getLsbD (ctz64 m) = putBit r.intlvMatch j c m := by
  have hlen := length_le_of_low h hl
  obtain ⟨c, hc, hkeep, hset⟩ := setFrom_spec r.intlvMatch (i := 0) (by omega) hl h.pairwise b
  refine ⟨c, by rw [addIntlvBits, hb]; exact hc, hkeep, fun j m hj => ?_⟩
  have hothers : others c m = others b m :=
    others_congr fun k hk hbit => hkeep k (h.other_bit (List.mem_of_getElem? hj) hbit hk)
  rw [hset j m hj, putBit, putBit, hothers, Nat.zero_add]

/-! ## There and back -/

/-- `addIntlvBits` and `removeIntlvBits` undo each other. -/
structure RoundTrips (r : AddrRange) : Prop where
  add_remove : ∀ a, r.contains a = .ok true → (r.removeIntlvBits a).bind r.addIntlvBits = .ok a
  remove_add : ∀ x : Addr, x.toNat < 2 ^ (64 - r.masks.length) → (r.addIntlvBits x).bind r.removeIntlvBits = .ok x

/-- At most two masks, with lowest bits that the `int` `1 << lsb` has. It is negative for bit 31. -/
structure Restorable (r : AddrRange) : Prop where
  two : r.masks.length ≤ 2
  low : ∀ m ∈ r.masks, ctz64 m ≤ 31
  even : ∀ m ∈ r.masks, ctz64 m = 31 → ∀ a, r.contains a = .ok true → others a m = false

theorem selected_of_holds (h : r.Holds a) {j : Nat} (hj : r.masks[j]? = some m) :
    selected a m = r.intlvMatch.getLsbD j := by
  have hbit := congrArg (fun n => n.testBit j) (holds_iff.mp h).2.2.2
  rw [← BitVec.testBit_toNat]
  simpa [testBit_selFrom, hj] using hbit

theorem top_of_lt (hx : x.toNat < 2 ^ (64 - r.masks.length)) (j : Nat) (hj : 64 ≤ j + r.masks.length) :
    x.getLsbD j = false := by
  exact Nat.testBit_lt_two_pow (Nat.lt_of_lt_of_le hx (Nat.pow_le_pow_right (by decide) (by omega)))

theorem two_added (h : r.Apart) (hr : r.Restorable) (hx : ∀ j, 64 ≤ j + r.masks.length → x.getLsbD j = false) :
    ∃ c, r.addIntlvBits x = .ok c ∧ Without (r.masks.map ctz64) c x ∧
      ∀ j m, r.masks[j]? = some m → c.getLsbD (ctz64 m) = putBit r.intlvMatch j c m := by
  obtain ⟨b, hb, hw⟩ := added h hr.two hx
  obtain ⟨c, hc, hkeep, hset⟩ := addIntlvBits_eq h (fun m hm => Nat.lt_succ_of_le (hr.low m hm)) hb
  exact ⟨c, hc, hw.of_agree hkeep, hset⟩

theorem roundTrips_of (h : r.Apart) (hr : r.Restorable) : r.RoundTrips := by
  constructor
  · intro a ha
    obtain ⟨x, hx, hw⟩ := removed h a
    obtain ⟨c, hc, hwc, hset⟩ := two_added h hr (top_of_without h hw)
    have heq : c = a := by
      refine eq_of_removed h hwc hw fun m hm => ?_
      obtain ⟨j, hj⟩ := List.mem_iff_getElem?.mp hm
      have hothers : others c m = others a m :=
        others_congr fun k hk hbit => hwc.agree hw (h.other_bit hm hbit hk)
      rw [selected_of_holds ha hj, selected_eq (h.nonzero m hm), hset j m hj, putBit, hothers]
      rcases Nat.lt_or_eq_of_le (hr.low m hm) with hlt | heq
      · rw [decide_eq_true hlt, Bool.true_and, Bool.xor_assoc, Bool.xor_self, Bool.xor_false]
      · rw [hr.even m hm heq a ha, Bool.and_false, Bool.xor_false, Bool.xor_false]
    rw [hx]
    exact heq ▸ hc
  · intro x hx
    obtain ⟨c, hc, hwc, -⟩ := two_added h hr (top_of_lt hx)
    rw [hc]
    exact (removed_iff h).mpr hwc

/-- **With a third mask a bit of the address is lost.** -/
theorem third_lost (h : r.Apart) (hl : ∀ m ∈ r.masks, ctz64 m < 32) (h3 : 3 ≤ r.masks.length) :
    ∃ x c : Addr, x.toNat < 2 ^ (64 - r.masks.length) ∧ r.addIntlvBits x = .ok c ∧
    ¬ Without (r.masks.map ctz64) c x := by
  obtain hnil | ⟨lsbs, l, hlsbs⟩ := List.eq_nil_or_concat r.masksLsb
  · have := length_masksLsb (r := r)
    rw [hnil, List.length_nil] at this
    omega
  rw [List.concat_eq_append] at hlsbs
  have hlen : lsbs.length + 1 = r.masks.length := by
    rw [← length_masksLsb, hlsbs, List.length_append, List.length_singleton]
  have hbelow : ∀ p ∈ lsbs, p < l := by
    have hsorted := h.sorted
    rw [hlsbs, List.pairwise_append] at hsorted
    exact fun p hp => hsorted.2.2 p hp l (List.mem_singleton_self l)
  have hmem : ∀ k, k ∈ r.masks.map ctz64 ↔ k ∈ lsbs ∨ k = l := by
    intro k
    rw [← mem_masksLsb, hlsbs, List.mem_append, List.mem_singleton]
  have hl32 : l < 32 := by
    obtain ⟨m, hm, hlm⟩ := List.mem_map.mp ((hmem l).mpr (Or.inr rfl))
    exact hlm ▸ hl m hm
  have hplace := place_of_above (k := l + 1) h.nodup fun p hp => by
    rcases (hmem p).mp hp with hp | rfl
    · exact Nat.lt_succ_of_lt (hbelow p hp)
    · exact Nat.lt_succ_self p
  rw [List.length_map] at hplace
  -- the bit of `x` that belongs right above the highest bit that is put in
  obtain ⟨e, he⟩ : ∃ e, e = place (r.masks.map ctz64) (l + 1) := ⟨_, rfl⟩
  have hx : ∀ j, (1#64 <<< e).getLsbD j = decide (j = e) := by
    intro j
    by_cases hje : j = e
    · simp [hje]
      omega
    · simp [hje]
      omega
  obtain ⟨y, hy, hytop⟩ := addFrom_top (i := 0) (n := e + 1) (b := 1#64 <<< e)
    (fun p hp => by have := hbelow p hp; omega) fun j hj => by rw [hx]; exact decide_eq_false (by omega)
  obtain ⟨b, hb, hbits⟩ := addBit_spec (i := lsbs.length) (l := l) (by omega) y
  have hpos : 0 < l := by
    obtain ⟨p, hp⟩ := List.exists_mem_of_length_pos (l := lsbs) (by omega)
    exact Nat.lt_of_le_of_lt (Nat.zero_le p) (hbelow p hp)
  have hadd : addFrom 0 r.masksLsb (1#64 <<< e) = .ok b := by
    rw [hlsbs, addFrom_concat, hy, Nat.zero_add]
    exact hb
  obtain ⟨c, hc, hkeep, -⟩ := addIntlvBits_eq h hl hadd
  have hout : l + 1 ∉ r.masks.map ctz64 := by
    intro hin
    rcases (hmem (l + 1)).mp hin with hin | hin
    · have := hbelow (l + 1) hin
      omega
    · omega
  refine ⟨1#64 <<< e, c, ?_, hc, fun hw => ?_⟩
  · have hpow : 2 ^ e < 2 ^ (64 - r.masks.length) := Nat.pow_lt_pow_right (by decide) (by omega)
    rw [BitVec.toNat_shiftLeft, BitVec.toNat_ofNat, Nat.one_mod_two_pow_eq_one.mpr (by decide), Nat.one_shiftLeft]
    exact Nat.lt_of_le_of_lt (Nat.mod_le _ _) hpow
  · have hkept := hw.kept (l + 1) (by omega) hout
    rw [← he, hx, hkeep _ hout, hbits _ (by omega), if_pos ⟨hpos, by omega⟩, hytop _ (by omega)] at hkept
    simp at hkept

/-- **The interleaving bits come back exactly if there are at most two of them, below the sign bit of an `int`.** -/
theorem roundTrips_iff (h : r.Apart) : r.RoundTrips ↔ r.Restorable := by
  refine ⟨fun hr => ?_, roundTrips_of h⟩
  have hlow : ∀ m ∈ r.masks, ctz64 m < 32 := by
    obtain ⟨c, hc, -⟩ := ok_of_bind (hr.remove_add 0 (Nat.two_pow_pos _))
    obtain ⟨b, -, hset⟩ := ok_of_bind hc
    exact setFrom_low hset
  refine ⟨?_, fun m hm => Nat.le_of_lt_succ (hlow m hm), fun m hm h31 a ha => ?_⟩
  · by_contra h3
    obtain ⟨x, c, hx, hc, hw⟩ := third_lost h hlow (by omega)
    have hback := hr.remove_add x hx
    rw [hc] at hback
    exact hw ((removed_iff h).mp hback)
  · obtain ⟨x, hx, hadd⟩ := ok_of_bind (hr.add_remove a ha)
    obtain ⟨b, hb, -⟩ := ok_of_bind hadd
    obtain ⟨c, hc, -, hset⟩ := addIntlvBits_eq h hlow hb
    obtain rfl : c = a := Except.ok.inj (hc.symm.trans hadd)
    obtain ⟨j, hj⟩ := List.mem_iff_getElem?.mp hm
    have hsel := selected_of_holds ha hj
    rw [selected_eq (h.nonzero m hm), hset j m hj, putBit, h31] at hsel
    cases hodd : others c m with
    | false => rfl
    | true =>
      rw [hodd] at hsel
      cases hbit : r.intlvMatch.getLsbD j <;> simp [hbit] at hsel

theorem twoMasks_fits : [0x2040#64, 0x80#64] ≠ [] → (2#8).toNat < 2 ^ [0x2040#64, 0x80#64].length := fun _ => by decide

def twoMasks : AddrRange := ⟨0, 0x10000, [0x2040, 0x80], 2, twoMasks_fits⟩

theorem roundTrips_twoMasks : twoMasks.RoundTrips := by
  have hlow : ∀ m ∈ twoMasks.masks, ctz64 m < 31 := by
    have h₀ : ctz64 0x2040#64 = 6 := by decide
    have h₁ : ctz64 0x80#64 = 7 := by decide
    simp [twoMasks, h₀, h₁]
  refine (roundTrips_iff ⟨by simp [twoMasks], by simp [twoMasks]⟩).mpr
    ⟨Nat.le_refl 2, fun m hm => ?_, fun m hm h31 => ?_⟩
  · exact Nat.le_of_lt (hlow m hm)
  · exact absurd h31 (Nat.ne_of_lt (hlow m hm))

theorem threeMasks_fits : [1#64, 2#64, 4#64] ≠ [] → (0#8).toNat < 2 ^ [1#64, 2#64, 4#64].length := fun _ => by decide

def threeMasks : AddrRange := ⟨0, 16, [1, 2, 4], 0, threeMasks_fits⟩

/-- Address 8 of the range comes back as 0. -/
theorem bit_lost : threeMasks.Apart ∧ threeMasks.contains 8 = .ok true ∧
    (threeMasks.removeIntlvBits 8).bind threeMasks.addIntlvBits = .ok 0 ∧ ¬ threeMasks.RoundTrips := by
  have hback : (threeMasks.removeIntlvBits 8).bind threeMasks.addIntlvBits = .ok 0 := by rfl
  have hin : threeMasks.contains 8 = .ok true := by rfl
  refine ⟨⟨by simp [threeMasks], by simp [threeMasks]⟩, hin, hback, fun h => ?_⟩
  have heq := Except.ok.inj (hback.symm.trans (h.add_remove 8 hin))
  revert heq
  decide

end Salam.Base.AddrRange
