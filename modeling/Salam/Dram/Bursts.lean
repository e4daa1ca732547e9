import Salam.Dram.Queues

/-!
# The bursts of a packet

* `split_burstsFrom`: as many bursts as the bytes of a packet need cover them, one after the other, each within one
  burst of the DRAM (`Split`).
* `split_bursts_iff`: so a packet is split well if and only if `dram_pkt_count` is the number of bursts that its bytes
  need at the address of the controller (`Fits`).
-/

namespace Salam.Dram.Queues

open Base (Addr)

/-- Bursts that cover the bytes from `start` to `end_`, one after the other, none of which crosses a boundary. -/
def Split (b : Nat) : Nat → Nat → List (Addr × BitVec 32) → Prop
  | start, end_, [] => start = end_
  | start, end_, burst :: rest =>
    burst.1.toNat = start ∧ 0 < burst.2.toNat ∧ start / b = (start + burst.2.toNat - 1) / b ∧
      Split b (start + burst.2.toNat) end_ rest

instance decidableSplit (b : Nat) : ∀ (start end_ : Nat) (bursts : List (Addr × BitVec 32)),
    Decidable (Split b start end_ bursts)
  | start, end_, [] => inferInstanceAs (Decidable (start = end_))
  | start, end_, burst :: rest =>
    have := decidableSplit b (start + burst.2.toNat) end_ rest
    inferInstanceAs (Decidable (_ ∧ _ ∧ _ ∧ _))

theorem Split.size_ne_zero {b start end_ : Nat} {bursts : List (Addr × BitVec 32)} (h : Split b start end_ bursts)
    {burst : Addr × BitVec 32} (hmem : burst ∈ bursts) : burst.2 ≠ 0 := by
  induction bursts generalizing start with
  | nil => cases hmem
  | cons first rest ih =>
    obtain ⟨-, hpos, -, hrest⟩ := h
    obtain rfl | hmem := List.mem_cons.mp hmem
    · intro h0
      rw [h0] at hpos
      exact absurd hpos (by decide)
    · exact ih hrest hmem

namespace Params

variable {c : Params} {a : Addr}

theorem toNat_burstSize : c.burstSize.toNat = 2 ^ c.burstBits.1 := by
  have hlt : 2 ^ c.burstBits.1 < 2 ^ 32 := Nat.pow_lt_pow_right (by decide) c.burstBits.2
  rw [burstSize, BitVec.toNat_shiftLeft, Nat.shiftLeft_eq]
  change 1 * 2 ^ c.burstBits.1 % 2 ^ 32 = _
  rw [Nat.one_mul, Nat.mod_eq_of_lt hlt]

theorem toNat_burstMask : c.burstMask.toNat = 2 ^ c.burstBits.1 - 1 := by
  have hlt : 2 ^ c.burstBits.1 < 2 ^ 32 := Nat.pow_lt_pow_right (by decide) c.burstBits.2
  have hpos := Nat.two_pow_pos c.burstBits.1
  have h1 : (1 : BitVec 32).toNat = 1 := rfl
  rw [burstMask, BitVec.toNat_setWidth, BitVec.toNat_sub, toNat_burstSize, h1]
  omega

theorem or_two_pow_sub_one (x k : Nat) : (x ||| (2 ^ k - 1)) + 1 = (x / 2 ^ k + 1) * 2 ^ k := by
  have hpos := Nat.two_pow_pos k
  have hr : x % 2 ^ k < 2 ^ k := Nat.mod_lt _ hpos
  have hor : x % 2 ^ k ||| (2 ^ k - 1) = 2 ^ k - 1 := by
    have hlt : x % 2 ^ k ||| (2 ^ k - 1) < 2 ^ k := Nat.or_lt_two_pow hr (by omega)
    have hle : 2 ^ k - 1 ≤ x % 2 ^ k ||| (2 ^ k - 1) := Nat.right_le_or
    omega
  have hx : x = 2 ^ k * (x / 2 ^ k) ||| x % 2 ^ k := by
    rw [← Nat.two_pow_add_eq_or_of_lt hr, Nat.div_add_mod]
  calc (x ||| (2 ^ k - 1)) + 1
      = (2 ^ k * (x / 2 ^ k) ||| (x % 2 ^ k ||| (2 ^ k - 1))) + 1 := by rw [← Nat.or_assoc, ← hx]
    _ = 2 ^ k * (x / 2 ^ k) + (2 ^ k - 1) + 1 := by rw [hor, ← Nat.two_pow_add_eq_or_of_lt (by omega)]
    _ = (x / 2 ^ k + 1) * 2 ^ k := by rw [Nat.add_mul, Nat.mul_comm]; omega

theorem toNat_next (h : a.toNat ≤ 2 ^ 63) :
    ((a ||| c.burstMask) + 1).toNat = (a.toNat / 2 ^ c.burstBits.1 + 1) * 2 ^ c.burstBits.1 := by
  have hlt : 2 ^ c.burstBits.1 < 2 ^ 32 := Nat.pow_lt_pow_right (by decide) c.burstBits.2
  have h1 : (1 : Addr).toNat = 1 := rfl
  have hdiv := Nat.div_mul_le_self a.toNat (2 ^ c.burstBits.1)
  rw [BitVec.toNat_add, BitVec.toNat_or, toNat_burstMask, h1, or_two_pow_sub_one, Nat.mod_eq_of_lt]
  rw [Nat.add_mul]
  omega

end Params

/-! ## Splitting -/

variable {c : Params} {pkt : Packet}

/-- The controller has an address for the packet, and `dram_pkt_count` is the number of bursts that it has to be
there. -/
def Fits (c : Params) (pkt : Packet) : Prop :=
  c.badShift pkt.addr = false ∧ (Ctrl.dramPktCount c pkt).toNat =
    ((c.getCtrlAddr pkt.addr).toNat % c.burstSize.toNat + pkt.size.toNat + c.burstSize.toNat - 1) / c.burstSize.toNat

instance : DecidablePred (Fits c) := fun _ => inferInstanceAs (Decidable (_ ∧ _))

/-- The bytes of the first burst from an address on. -/
theorem toNat_firstSize {end_ addr : Addr} (hend : end_.toNat ≤ 2 ^ 63) (hlt : addr.toNat < end_.toNat) :
    (((if ((addr ||| c.burstMask) + 1).toNat ≤ end_.toNat then (addr ||| c.burstMask) + 1 else end_) -
      addr).setWidth 32).toNat =
      min ((addr.toNat / 2 ^ c.burstBits.1 + 1) * 2 ^ c.burstBits.1) end_.toNat - addr.toNat := by
  have hnext : ((addr ||| c.burstMask) + 1).toNat = _ := Params.toNat_next (c := c) (hlt.le.trans hend)
  have hpow : 2 ^ c.burstBits.1 < 2 ^ 32 := Nat.pow_lt_pow_right (by decide) c.burstBits.2
  have hmod := Nat.div_add_mod' addr.toNat (2 ^ c.burstBits.1)
  have hmul := Nat.add_one_mul (addr.toNat / 2 ^ c.burstBits.1) (2 ^ c.burstBits.1)
  rw [hnext, hmul, BitVec.toNat_setWidth, BitVec.toNat_sub]
  split
  · rw [hnext, hmul]
    omega
  · omega

/-- After the end of a packet there are no more bursts. -/
theorem split_end_iff {end_ addr : Addr} (hend : end_.toNat ≤ 2 ^ 63) {cnt : Nat} {b : Nat} :
    Split b end_.toNat end_.toNat (Ctrl.burstsFrom c end_ cnt addr) ↔ cnt = 0 := by
  cases cnt with
  | zero => exact iff_of_true rfl rfl
  | succ cnt =>
    refine iff_of_false ?_ (Nat.succ_ne_zero cnt)
    rintro ⟨haddr, hpos, -, -⟩
    obtain rfl : addr = end_ := BitVec.eq_of_toNat_eq haddr
    have hnext := Params.toNat_next (c := c) hend
    have hr := Nat.lt_div_mul_add (Nat.two_pow_pos c.burstBits.1) (a := addr.toNat)
    have hgt : ¬ ((addr ||| c.burstMask) + 1).toNat ≤ addr.toNat := by
      rw [hnext, Nat.add_mul, Nat.one_mul]
      omega
    rw [if_neg hgt, BitVec.sub_self] at hpos
    exact absurd hpos (by simp)

/-- As many bursts as the bytes need cover them, and no other number does. -/
theorem split_burstsFrom {end_ : Addr} (hend : end_.toNat ≤ 2 ^ 63) {cnt : Nat} {addr : Addr}
    (hlt : addr.toNat < end_.toNat) :
    Split (2 ^ c.burstBits.1) addr.toNat end_.toNat (Ctrl.burstsFrom c end_ cnt addr) ↔
      cnt = (addr.toNat % 2 ^ c.burstBits.1 + (end_.toNat - addr.toNat) - 1) / 2 ^ c.burstBits.1 + 1 := by
  have hpos := Nat.two_pow_pos c.burstBits.1
  induction cnt generalizing addr with
  | zero => exact iff_of_false (fun h => hlt.ne h) (Nat.succ_ne_zero _).symm
  | succ cnt ih =>
    have hsize := toNat_firstSize (c := c) hend hlt
    have hnext := Params.toNat_next (c := c) (hlt.le.trans hend)
    have hmod := Nat.div_add_mod' addr.toNat (2 ^ c.burstBits.1)
    have hmul := Nat.add_one_mul (addr.toNat / 2 ^ c.burstBits.1) (2 ^ c.burstBits.1)
    obtain ⟨e, he⟩ : ∃ e, min ((addr.toNat / 2 ^ c.burstBits.1 + 1) * 2 ^ c.burstBits.1) end_.toNat = e := ⟨_, rfl⟩
    have hfirst : addr.toNat < e := by omega
    have hsame : addr.toNat / 2 ^ c.burstBits.1 = (e - 1) / 2 ^ c.burstBits.1 :=
      (Nat.div_eq_of_lt_le (by omega) (by omega)).symm
    rw [Ctrl.burstsFrom, Split, hsize, he, Nat.add_sub_cancel' hfirst.le, and_iff_right rfl,
      and_iff_right (Nat.sub_pos_of_lt hfirst), and_iff_right hsame, ← he]
    by_cases hin : (addr.toNat / 2 ^ c.burstBits.1 + 1) * 2 ^ c.burstBits.1 < end_.toNat
    · -- the packet goes on after the end of the burst
      have hlt' : ((addr ||| c.burstMask) + 1).toNat < end_.toNat := by
        rw [hnext]
        exact hin
      rw [min_eq_left hin.le, ← hnext]
      refine (ih hlt').trans ?_
      rw [hnext, Nat.mul_mod_left, Nat.zero_add]
      have hsplit : addr.toNat % 2 ^ c.burstBits.1 + (end_.toNat - addr.toNat) - 1 =
          end_.toNat - (addr.toNat / 2 ^ c.burstBits.1 + 1) * 2 ^ c.burstBits.1 - 1 + 2 ^ c.burstBits.1 := by omega
      rw [hsplit, Nat.add_div_right _ hpos]
      omega
    · -- it ends in this burst
      rw [min_eq_right (not_lt.mp hin), split_end_iff hend, Nat.div_eq_of_lt (by omega)]
      omega

/-- **Splitting**: the bursts cover exactly the bytes of the packet if and only if there are as many as these need. -/
theorem split_bursts_iff (hsize : pkt.size ≠ 0) (hshift : c.badShift pkt.addr = false)
    (hend : (c.getCtrlAddr pkt.addr).toNat + pkt.size.toNat ≤ 2 ^ 63) :
    Split c.burstSize.toNat (c.getCtrlAddr pkt.addr).toNat ((c.getCtrlAddr pkt.addr).toNat + pkt.size.toNat)
      (Ctrl.bursts c pkt) ↔ Fits c pkt := by
  have hpos : 0 < pkt.size.toNat := by
    rw [Nat.pos_iff_ne_zero]
    exact fun h0 => hsize (BitVec.eq_of_toNat_eq h0)
  have hsum : (c.getCtrlAddr pkt.addr + pkt.size.setWidth 64).toNat =
      (c.getCtrlAddr pkt.addr).toNat + pkt.size.toNat := by
    rw [BitVec.toNat_add, BitVec.toNat_setWidth]
    omega
  have hlt : (c.getCtrlAddr pkt.addr).toNat < (c.getCtrlAddr pkt.addr + pkt.size.setWidth 64).toNat := by omega
  have hiff : Split _ _ _ (Ctrl.bursts c pkt) ↔ (Ctrl.dramPktCount c pkt).toNat = _ :=
    split_burstsFrom (hsum.trans_le hend) hlt
  have hb := Nat.two_pow_pos c.burstBits.1
  have hdiv : ((c.getCtrlAddr pkt.addr).toNat % 2 ^ c.burstBits.1 + pkt.size.toNat + 2 ^ c.burstBits.1 - 1) / 2 ^
    c.burstBits.1 =
      ((c.getCtrlAddr pkt.addr).toNat % 2 ^ c.burstBits.1 + pkt.size.toNat - 1) / 2 ^ c.burstBits.1 + 1 := by
    rw [← Nat.add_div_right _ hb]
    congr 1
    omega
  rw [hsum, Nat.add_sub_cancel_left] at hiff
  rw [Fits, Params.toNat_burstSize, hdiv, and_iff_right hshift]
  exact hiff

end Salam.Dram.Queues
