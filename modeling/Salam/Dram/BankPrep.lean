import Mathlib.Data.List.ProdSigma
import Mathlib.Data.List.FinRange
import Mathlib.Logic.Function.Basic
import Salam.Dram.Packet
import Salam.Dram.Queues

/-!
# `DRAMCtrl::minBankPrep`

Of the banks that packets wait for, those that can issue a burst without a gap after the one before, or if there are
none those that can be activated the earliest, are put into a mask of 32 bits for each rank. Banks are looked up by a
number of 16 bits.

* `Best`: which banks these are.
* `Seen.visit`: what one bank does to the masks.
* `minBankPrep_spec`: the masks have the best banks.
* `exists_best`: there is one if a packet waits for any bank.
-/

namespace Salam.Dram.FrFcfs

open Queues (BusState)
open Bool (and_eq_true false_ne_true or_eq_true)
open List (forall_mem_cons mem_cons mem_cons_of_mem mem_cons_self)

abbrev Tick := BitVec 64

def MaxTick : Tick := BitVec.allOnes 64

/-- `std::max` -/
def Tick.max (a b : Tick) : Tick := if a < b then b else a

structure Params where
  ranksPerChannel : Nat
  banksPerRank : Nat
  tRCD : Tick
  tRP : Tick

abbrev Params.Packet (p : Params) := DRAMPacket p.ranksPerChannel p.banksPerRank

structure Bank where
  openRow : BitVec 32
  rdAllowedAt : Tick
  wrAllowedAt : Tick
  preAllowedAt : Tick
  actAllowedAt : Tick

structure Rank (p : Params) where
  /-- `refreshState` is `REF_IDLE`. -/
  inRefIdleState : Bool
  banks : Fin p.banksPerRank → Bank

structure DRAMCtrl (p : Params) where
  ranks : Fin p.ranksPerChannel → Rank p
  busState : BusState
  nextBurstAt : Tick

inductive Err
  | assertion
  deriving DecidableEq

/-- `replaceBits(val, bit, bit, 1)` -/
def replaceBits (val : BitVec 32) (bit : Nat) : BitVec 32 :=
  let bmask := 1#32 <<< bit
  ((1#32 <<< bit) &&& bmask) ||| (val &&& ~~~bmask)

/-- `bits(val, bit, bit)` -/
def bits (val : BitVec 32) (bit : Nat) : BitVec 32 := (val >>> bit) &&& 1#32

theorem getLsbD_replaceBits (val : BitVec 32) {bit : Nat} (hbit : bit < 32) (k : Nat) :
    (replaceBits val bit).getLsbD k = (decide (k = bit) || val.getLsbD k) := by
  rw [replaceBits]
  by_cases hk : k = bit
  · subst hk
    simp [hbit]
  · by_cases hlt : k < 32
    · have hone : k - bit = 0 → k < bit := by omega
      by_cases hb : k < bit <;> simp_all
    · have hge : val.getLsbD k = false := BitVec.getLsbD_of_ge val k (by omega)
      simp [hk, hlt, hge]

theorem bits_ne_zero (val : BitVec 32) (bit : Nat) : bits val bit ≠ 0#32 ↔ val.getLsbD bit = true := by
  have hone : ∀ k, (bits val bit).getLsbD k = (val.getLsbD (bit + k) && decide (k = 0)) := by
    intro k
    rw [bits, BitVec.getLsbD_and, BitVec.getLsbD_ushiftRight, BitVec.getLsbD_one, decide_eq_true (by decide),
      Bool.true_and]
  constructor
  · intro hne
    by_contra hno
    refine hne (BitVec.eq_of_getLsbD_eq fun k _ => ?_)
    rw [hone, BitVec.getLsbD_zero]
    by_cases hk : k = 0
    · rw [hk, Nat.add_zero, eq_false_of_ne_true hno, Bool.false_and]
    · rw [decide_eq_false hk, Bool.and_false]
  · intro hbit hzero
    have h := hone 0
    rw [hzero, Nat.add_zero, hbit] at h
    cases h

namespace DRAMCtrl

variable {p : Params} (s : DRAMCtrl p) (queue : List p.Packet) (min_col_at curTick : Tick)

def available (dram_pkt : p.Packet) : Bool := (s.ranks dram_pkt.rank).inRefIdleState

/-- `got_waiting[bank_id]` -/
def gotWaiting (bank_id : BitVec 16) : Bool :=
  queue.any fun dram_pkt => s.available dram_pkt && bankId dram_pkt.rank dram_pkt.bank = bank_id

/-- A bank of a rank. -/
abbrev At (p : Params) := Fin p.ranksPerChannel × Fin p.banksPerRank

def bank (x : At p) : Bank := (s.ranks x.1).banks x.2

/-- `act_at` -/
def actAt (x : At p) : Tick :=
  if (s.bank x).openRow = NO_ROW then Tick.max (s.bank x).actAllowedAt curTick
  else Tick.max (s.bank x).preAllowedAt curTick + p.tRP

/-- `col_at` -/
def colAt (x : At p) : Tick :=
  Tick.max (if s.busState = .READ then (s.bank x).rdAllowedAt else (s.bank x).wrAllowedAt) (s.actAt curTick x + p.tRCD)

/-- What the loop of `minBankPrep` has found so far. -/
structure Prep (p : Params) where
  min_act_at : Tick
  bank_mask : Fin p.ranksPerChannel → BitVec 32
  found_seamless_bank : Bool
  hidden_bank_prep : Bool

/-- The loop of `minBankPrep`, for one bank. -/
def visit (prep : Prep p) (x : At p) : Except Err (Prep p) :=
  if s.gotWaiting queue (bankId x.1 x.2) then
    if (s.ranks x.1).inRefIdleState then
      let hidden_act_max := Tick.max (min_col_at - p.tRCD) curTick
      let act_at := s.actAt curTick x
      let new_seamless_bank : Bool := s.colAt curTick x ≤ min_col_at
      if new_seamless_bank || (!prep.found_seamless_bank && act_at ≤ prep.min_act_at) then
        let bank_mask :=
          if !prep.found_seamless_bank && (new_seamless_bank || act_at < prep.min_act_at) then fun _ => 0
            else prep.bank_mask
        .ok
          { min_act_at := act_at
            bank_mask := Function.update bank_mask x.1 (replaceBits (bank_mask x.1) x.2)
            found_seamless_bank := prep.found_seamless_bank || new_seamless_bank
            hidden_bank_prep := act_at ≤ hidden_act_max }
      else .ok prep
    else .error .assertion
  else .ok prep

def allBanks (p : Params) : List (At p) := List.product (List.finRange p.ranksPerChannel) (List.finRange p.banksPerRank)

/-- The masks, and `hidden_bank_prep`. -/
def minBankPrep : Except Err ((Fin p.ranksPerChannel → BitVec 32) × Bool) := do
  let prep ← (allBanks p).foldlM (s.visit queue min_col_at curTick) ⟨MaxTick, fun _ => 0, false, false⟩
  return (prep.bank_mask, prep.hidden_bank_prep)

section Prep

variable {s queue min_col_at curTick} {done : List (At p)} {x y : At p} {prep prep' : Prep p}

/-- A packet waits for the bank, as far as the number of the bank tells. -/
def Waiting (s : DRAMCtrl p) (queue : List p.Packet) (x : At p) : Prop := s.gotWaiting queue (bankId x.1 x.2) = true

/-- Of the banks `done`, bank `x` can issue without a gap, or none that packets wait for can and none is activated
earlier. -/
def Best (s : DRAMCtrl p) (queue : List p.Packet) (min_col_at curTick : Tick) (done : List (At p)) (x : At p) : Prop :=
  x ∈ done ∧ Waiting s queue x ∧ (s.colAt curTick x ≤ min_col_at ∨
    ∀ y ∈ done, Waiting s queue y → ¬ s.colAt curTick y ≤ min_col_at ∧ s.actAt curTick x ≤ s.actAt curTick y)

/-- After the banks `done`. -/
structure Seen (s : DRAMCtrl p) (queue : List p.Packet) (min_col_at curTick : Tick) (done : List (At p))
    (prep : Prep p) : Prop where
  mask : ∀ y, (prep.bank_mask y.1).getLsbD y.2 = true ↔ Best s queue min_col_at curTick done y
  seamless : prep.found_seamless_bank = true ↔ ∃ y ∈ done, Waiting s queue y ∧ s.colAt curTick y ≤ min_col_at
  least : prep.found_seamless_bank = false → ∀ y ∈ done, Waiting s queue y → prep.min_act_at ≤ s.actAt curTick y
  attained : prep.found_seamless_bank = false →
    (∃ y ∈ done, Waiting s queue y ∧ s.actAt curTick y = prep.min_act_at) ∨
      prep.min_act_at = MaxTick ∧ ∀ y ∈ done, ¬ Waiting s queue y

theorem Seen.start : Seen s queue min_col_at curTick [] ⟨MaxTick, fun _ => 0, false, false⟩ := by
  refine ⟨fun y => ?_, ?_, fun _ y hy => ?_, fun _ => .inr ⟨rfl, fun y hy => ?_⟩⟩
  · refine iff_of_false ?_ fun h => List.not_mem_nil h.1
    rw [show ((0 : BitVec 32)) = 0#32 from rfl, BitVec.getLsbD_zero]
    exact false_ne_true
  · refine iff_of_false false_ne_true ?_
    rintro ⟨y, hy, -⟩
    cases hy
  · cases hy
  · cases hy

theorem Seen.skip (h : Seen s queue min_col_at curTick done prep) (hx : ¬ Waiting s queue x) :
    Seen s queue min_col_at curTick (x :: done) prep := by
  have hall : ∀ {P : At p → Prop}, (∀ y ∈ x :: done, Waiting s queue y → P y) ↔
    ∀ y ∈ done, Waiting s queue y → P y := by
    intro P
    rw [forall_mem_cons]
    exact and_iff_right fun hw => absurd hw hx
  refine ⟨fun y => ?_, ?_, fun hno => hall.mpr (h.least hno), fun hno => ?_⟩
  · rw [h.mask, Best, Best, hall, mem_cons]
    constructor
    · rintro ⟨hy, hrest⟩
      exact ⟨.inr hy, hrest⟩
    · rintro ⟨rfl | hy, hrest⟩
      · exact absurd hrest.1 hx
      · exact ⟨hy, hrest⟩
  · rw [h.seamless]
    constructor
    · rintro ⟨y, hy, hrest⟩
      exact ⟨y, mem_cons_of_mem x hy, hrest⟩
    · rintro ⟨y, hy, hrest⟩
      rcases mem_cons.mp hy with rfl | hy
      · exact absurd hrest.1 hx
      · exact ⟨y, hy, hrest⟩
  · rcases h.attained hno with ⟨y, hy, hrest⟩ | ⟨hmax, hnone⟩
    · exact .inl ⟨y, mem_cons_of_mem x hy, hrest⟩
    · exact .inr ⟨hmax, forall_mem_cons.mpr ⟨hx, hnone⟩⟩

theorem le_maxTick (t : Tick) : ¬ MaxTick < t := by
  have hmax : MaxTick.toNat = 2 ^ 64 - 1 := rfl
  rw [BitVec.lt_def]
  omega

/-- Without a gap nothing is found when no bank can. -/
theorem Seen.not_found (h : Seen s queue min_col_at curTick done prep)
    (hno : ∀ y ∈ done, Waiting s queue y → ¬ s.colAt curTick y ≤ min_col_at) : prep.found_seamless_bank = false := by
  refine eq_false_of_ne_true fun hfound => ?_
  obtain ⟨y, hy, hwait, hgap⟩ := h.seamless.mp hfound
  exact hno y hy hwait hgap

section

variable (h : Seen s queue min_col_at curTick done prep) (hwait : Waiting s queue x)
include h hwait

theorem Seen.worse (hgap : ¬ s.colAt curTick x ≤ min_col_at)
    (hlate : prep.found_seamless_bank = false → prep.min_act_at < s.actAt curTick x) :
    Seen s queue min_col_at curTick (x :: done) prep := by
  have hbefore : prep.found_seamless_bank = false →
      ∃ y ∈ done, Waiting s queue y ∧ s.actAt curTick y = prep.min_act_at := by
    intro hno
    rcases h.attained hno with hy | ⟨hmax, -⟩
    · exact hy
    · exact absurd (hmax ▸ hlate hno) (le_maxTick _)
  refine ⟨fun y => ?_, ?_, fun hno => ?_, fun hno => ?_⟩
  · rw [h.mask]
    constructor
    · rintro ⟨hy, hwaity, hbest⟩
      refine ⟨mem_cons_of_mem x hy, hwaity, hbest.imp_right fun hall => ?_⟩
      have hno := h.not_found fun z hz hwaitz => (hall z hz hwaitz).1
      obtain ⟨z, hz, hwaitz, hact⟩ := hbefore hno
      have hle := (hall z hz hwaitz).2
      have hlt := hlate hno
      refine forall_mem_cons.mpr ⟨fun _ => ⟨hgap, ?_⟩, hall⟩
      bv_omega
    · rintro ⟨hy, hwaity, hbest⟩
      rcases mem_cons.mp hy with rfl | hy
      · -- it has a gap, and another one is earlier
        have hall := hbest.resolve_left hgap
        have hno := h.not_found fun z hz hwaitz => (hall z (mem_cons_of_mem y hz) hwaitz).1
        obtain ⟨z, hz, hwaitz, hact⟩ := hbefore hno
        have hle := (hall z (mem_cons_of_mem y hz) hwaitz).2
        have hlt := hlate hno
        bv_omega
      · exact ⟨hy, hwaity, hbest.imp_right fun hall z hz => hall z (mem_cons_of_mem x hz)⟩
  · rw [h.seamless]
    constructor
    · rintro ⟨y, hy, hrest⟩
      exact ⟨y, mem_cons_of_mem x hy, hrest⟩
    · rintro ⟨y, hy, hrest⟩
      rcases mem_cons.mp hy with rfl | hy
      · exact absurd hrest.2 hgap
      · exact ⟨y, hy, hrest⟩
  · have hlt := hlate hno
    exact forall_mem_cons.mpr ⟨fun _ => by bv_omega, h.least hno⟩
  · obtain ⟨y, hy, hrest⟩ := hbefore hno
    exact .inl ⟨y, mem_cons_of_mem x hy, hrest⟩

/-- A bank that is better than those found. -/
theorem Seen.better (hno : prep.found_seamless_bank = false)
    (hbetter : s.colAt curTick x ≤ min_col_at ∨ s.actAt curTick x < prep.min_act_at)
    (hmask : ∀ y : At p, (prep'.bank_mask y.1).getLsbD y.2 = true ↔ y = x) (hact : prep'.min_act_at = s.actAt curTick x)
    (hfound : prep'.found_seamless_bank = true ↔ s.colAt curTick x ≤ min_col_at) :
    Seen s queue min_col_at curTick (x :: done) prep' := by
  have hgaps : ∀ y ∈ done, Waiting s queue y → ¬ s.colAt curTick y ≤ min_col_at := by
    intro y hy hwaity hgap
    have hyes := h.seamless.mpr ⟨y, hy, hwaity, hgap⟩
    rw [hno] at hyes
    cases hyes
  have hearly : ¬ s.colAt curTick x ≤ min_col_at →
      ∀ y ∈ done, Waiting s queue y → s.actAt curTick x < s.actAt curTick y := by
    intro hgap y hy hwaity
    have hlt := hbetter.resolve_left hgap
    have hle := h.least hno y hy hwaity
    bv_omega
  refine ⟨fun y => ?_, ?_, fun hno' => ?_, fun _ => .inl ⟨x, mem_cons_self, hwait, hact.symm⟩⟩
  · rw [hmask]
    constructor
    · rintro rfl
      refine ⟨mem_cons_self, hwait, or_iff_not_imp_left.mpr fun hgap => ?_⟩
      refine forall_mem_cons.mpr ⟨fun _ => ⟨hgap, BitVec.le_refl _⟩, fun z hz hwaitz => ⟨hgaps z hz hwaitz, ?_⟩⟩
      have hlt := hearly hgap z hz hwaitz
      bv_omega
    · rintro ⟨hy, hwaity, hbest⟩
      rcases mem_cons.mp hy with rfl | hy
      · rfl
      · exfalso
        have hall := hbest.resolve_left (hgaps y hy hwaity)
        obtain ⟨hgap, hle⟩ := hall x mem_cons_self hwait
        have hlt := hearly hgap y hy hwaity
        bv_omega
  · rw [hfound]
    constructor
    · intro hgap
      exact ⟨x, mem_cons_self, hwait, hgap⟩
    · rintro ⟨y, hy, hwaity, hgap⟩
      rcases mem_cons.mp hy with rfl | hy
      · exact hgap
      · exact absurd hgap (hgaps y hy hwaity)
  · have hgap : ¬ s.colAt curTick x ≤ min_col_at := by
      rw [← hfound, hno']
      exact false_ne_true
    rw [hact]
    refine forall_mem_cons.mpr ⟨fun _ => BitVec.le_refl _, fun y hy hwaity => ?_⟩
    have hlt := hearly hgap y hy hwaity
    bv_omega

theorem Seen.equal
    (hequal : if prep.found_seamless_bank = true then s.colAt curTick x ≤ min_col_at
      else ¬ s.colAt curTick x ≤ min_col_at ∧ s.actAt curTick x = prep.min_act_at)
    (hmask : ∀ y : At p, (prep'.bank_mask y.1).getLsbD y.2 = true ↔ y = x ∨ (prep.bank_mask y.1).getLsbD y.2 = true)
    (hact : prep'.min_act_at = s.actAt curTick x) (hfound : prep'.found_seamless_bank = prep.found_seamless_bank) :
    Seen s queue min_col_at curTick (x :: done) prep' := by
  cases hbool : prep.found_seamless_bank with
  | true =>
    rw [if_pos hbool] at hequal
    obtain ⟨z, hz, hwaitz, hgapz⟩ := h.seamless.mp hbool
    rw [hbool] at hfound
    refine ⟨fun y => ?_, iff_of_true hfound ⟨x, mem_cons_self, hwait, hequal⟩, fun hno => ?_, fun hno => ?_⟩
    · rw [hmask, h.mask]
      constructor
      · rintro (rfl | ⟨hy, hwaity, hbest⟩)
        · exact ⟨mem_cons_self, hwait, .inl hequal⟩
        · exact ⟨mem_cons_of_mem x hy, hwaity, .inl (hbest.resolve_right fun hall => (hall z hz hwaitz).1 hgapz)⟩
      · rintro ⟨hy, hwaity, hbest⟩
        rcases mem_cons.mp hy with rfl | hy
        · exact .inl rfl
        · exact .inr ⟨hy, hwaity, .inl (hbest.resolve_right fun hall => (hall z (mem_cons_of_mem x hz) hwaitz).1 hgapz)⟩
    · rw [hfound] at hno
      cases hno
    · rw [hfound] at hno
      cases hno
  | false =>
    rw [if_neg (by rw [hbool]; exact false_ne_true)] at hequal
    obtain ⟨hgap, heq⟩ := hequal
    have hleast := h.least hbool
    have hgaps : ∀ y ∈ done, Waiting s queue y → ¬ s.colAt curTick y ≤ min_col_at := by
      intro y hy hwaity hgapy
      have hyes := h.seamless.mpr ⟨y, hy, hwaity, hgapy⟩
      rw [hbool] at hyes
      cases hyes
    rw [hbool] at hfound
    refine ⟨fun y => ?_, ?_, fun _ => ?_, fun _ => .inl ⟨x, mem_cons_self, hwait, hact.symm⟩⟩
    · rw [hmask, h.mask]
      constructor
      · rintro (rfl | ⟨hy, hwaity, hbest⟩)
        · refine ⟨mem_cons_self, hwait, .inr (forall_mem_cons.mpr ⟨fun _ => ⟨hgap, BitVec.le_refl _⟩, ?_⟩)⟩
          exact fun z hz hwaitz => ⟨hgaps z hz hwaitz, heq ▸ hleast z hz hwaitz⟩
        · have hall := hbest.resolve_left (hgaps y hy hwaity)
          refine ⟨mem_cons_of_mem x hy, hwaity, .inr (forall_mem_cons.mpr ⟨fun _ => ⟨hgap, ?_⟩, hall⟩)⟩
          rcases h.attained hbool with ⟨z, hz, hwaitz, hactz⟩ | ⟨-, hnone⟩
          · have hle := (hall z hz hwaitz).2
            rw [hactz, ← heq] at hle
            exact hle
          · exact absurd hwaity (hnone y hy)
      · rintro ⟨hy, hwaity, hbest⟩
        rcases mem_cons.mp hy with rfl | hy
        · exact .inl rfl
        · exact .inr ⟨hy, hwaity, hbest.imp_right fun hall z hz => hall z (mem_cons_of_mem x hz)⟩
    · refine iff_of_false (by rw [hfound]; exact false_ne_true) ?_
      rintro ⟨y, hy, hwaity, hgapy⟩
      rcases mem_cons.mp hy with rfl | hy
      · exact hgap hgapy
      · exact hgaps y hy hwaity hgapy
    · rw [hact, heq]
      exact forall_mem_cons.mpr ⟨fun _ => by rw [heq]; exact BitVec.le_refl _, hleast⟩

end

theorem getLsbD_update (hbanks : p.banksPerRank ≤ 32) (mask : Fin p.ranksPerChannel → BitVec 32) (x y : At p) :
    (Function.update mask x.1 (replaceBits (mask x.1) x.2) y.1).getLsbD y.2 = true ↔ y = x ∨
    (mask y.1).getLsbD y.2 = true := by
  have hlt : x.2.val < 32 := Nat.lt_of_lt_of_le x.2.isLt hbanks
  by_cases hrank : y.1 = x.1
  · rw [hrank, Function.update_self, getLsbD_replaceBits _ hlt, or_eq_true, decide_eq_true_iff, Prod.ext_iff,
      Fin.ext_iff, Fin.ext_iff, hrank]
    exact or_congr_left (and_iff_right rfl).symm
  · rw [Function.update_of_ne hrank]
    refine (or_iff_right ?_).symm
    rintro rfl
    exact hrank rfl

/-- **One bank.** -/
theorem Seen.visit (hbanks : p.banksPerRank ≤ 32) (h : Seen s queue min_col_at curTick done prep)
    (havail : Waiting s queue x → (s.ranks x.1).inRefIdleState = true) :
    ∃ prep', s.visit queue min_col_at curTick prep x = .ok prep' ∧
    Seen s queue min_col_at curTick (x :: done) prep' := by
  by_cases hwait : Waiting s queue x
  · have hnone : ∀ y : At p, (0 : BitVec 32).getLsbD y.2 = true ↔ False := by
      intro y
      rw [show (0 : BitVec 32) = 0#32 from rfl, BitVec.getLsbD_zero]
      exact iff_of_false false_ne_true id
    have hgot : s.gotWaiting queue (bankId x.1 x.2) = true := hwait
    rw [DRAMCtrl.visit, if_pos hgot, if_pos (havail hwait)]
    dsimp only
    split
    · rename_i hadd
      refine ⟨_, rfl, ?_⟩
      simp only [or_eq_true, and_eq_true, Bool.not_eq_true', decide_eq_true_iff] at hadd
      split
      · rename_i hreset
        simp only [or_eq_true, and_eq_true, Bool.not_eq_true', decide_eq_true_iff] at hreset
        refine h.better hwait hreset.1 hreset.2 (fun y => ?_) rfl ?_
        · rw [getLsbD_update hbanks, hnone, or_false]
        · simp only [hreset.1, Bool.false_or, decide_eq_true_iff]
      · rename_i hkeep
        simp only [or_eq_true, and_eq_true, Bool.not_eq_true', decide_eq_true_iff, not_and_or, not_or] at hkeep
        refine h.equal hwait ?_ (fun y => getLsbD_update hbanks _ _ _) rfl ?_
        · cases hbool : prep.found_seamless_bank with
          | true =>
            simpa [hbool] using hadd
          | false =>
            have hgap := hkeep.resolve_left fun hno => hno hbool
            have hle := (hadd.resolve_left hgap.1).2
            exact ⟨hgap.1, BitVec.le_antisymm hle (BitVec.not_lt.mp hgap.2)⟩
        · cases hbool : prep.found_seamless_bank with
          | true => rfl
          | false =>
            have hgap := hkeep.resolve_left fun hno => hno hbool
            simp only [Bool.false_or, decide_eq_false_iff_not]
            exact hgap.1
    · rename_i hno
      simp only [or_eq_true, and_eq_true, Bool.not_eq_true', decide_eq_true_iff, not_or, not_and] at hno
      exact ⟨prep, rfl, h.worse hwait hno.1 fun hfound => BitVec.not_le.mp (hno.2 hfound)⟩
  · have hgot : ¬ s.gotWaiting queue (bankId x.1 x.2) = true := hwait
    refine ⟨prep, ?_, h.skip hwait⟩
    rw [DRAMCtrl.visit, if_neg hgot]

theorem Seen.run (hbanks : p.banksPerRank ≤ 32) {l : List (At p)} (h : Seen s queue min_col_at curTick done prep)
    (havail : ∀ x : At p, Waiting s queue x → (s.ranks x.1).inRefIdleState = true) :
    ∃ prep', l.foldlM (s.visit queue min_col_at curTick) prep = .ok prep' ∧
      Seen s queue min_col_at curTick (l.reverse ++ done) prep' := by
  induction l generalizing done prep with
  | nil => exact ⟨prep, rfl, h⟩
  | cons x l ih =>
    obtain ⟨prep₁, hvisit, h₁⟩ := h.visit hbanks (havail x)
    obtain ⟨prep', hrun, h'⟩ := ih h₁
    refine ⟨prep', ?_, ?_⟩
    · rw [List.foldlM_cons, hvisit]
      exact hrun
    · rw [List.reverse_cons, List.append_assoc]
      exact h'

theorem best_congr {l l' : List (At p)} (hmem : ∀ y, y ∈ l ↔ y ∈ l') :
    Best s queue min_col_at curTick l x ↔ Best s queue min_col_at curTick l' x := by
  simp only [Best, hmem]

theorem mem_allBanks (x : At p) : x ∈ allBanks p := List.mem_product.mpr ⟨List.mem_finRange _, List.mem_finRange _⟩

/-- Some bank is among the best if a packet waits for any. -/
theorem Seen.exists_best (h : Seen s queue min_col_at curTick done prep) (hx : x ∈ done) (hwait : Waiting s queue x) :
    ∃ y, Best s queue min_col_at curTick done y := by
  cases hfound : prep.found_seamless_bank with
  | true =>
    obtain ⟨y, hy, hwaity, hgap⟩ := h.seamless.mp hfound
    exact ⟨y, hy, hwaity, .inl hgap⟩
  | false =>
    rcases h.attained hfound with ⟨y, hy, hwaity, hact⟩ | ⟨-, hnone⟩
    · refine ⟨y, hy, hwaity, .inr fun z hz hwaitz => ⟨fun hgap => ?_, hact ▸ h.least hfound z hz hwaitz⟩⟩
      rw [h.seamless.mpr ⟨z, hz, hwaitz, hgap⟩] at hfound
      cases hfound
    · exact absurd hwait (hnone x hx)

end Prep

/-- **The masks have the best banks**, if the ranks of the banks that packets wait for are available. -/
theorem minBankPrep_spec (hbanks : p.banksPerRank ≤ 32)
    (havail : ∀ x : At p, Waiting s queue x → (s.ranks x.1).inRefIdleState = true) :
    ∃ bank_mask hidden_bank_prep, s.minBankPrep queue min_col_at curTick = .ok (bank_mask, hidden_bank_prep) ∧
      (∀ x : At p, (bank_mask x.1).getLsbD x.2 = true ↔ Best s queue min_col_at curTick (allBanks p) x) ∧
      ((∃ x, Waiting s queue x) → ∃ x, Best s queue min_col_at curTick (allBanks p) x) := by
  obtain ⟨prep, hrun, h⟩ := Seen.start.run (l := allBanks p) hbanks havail
  have hbest : ∀ x, Best s queue min_col_at curTick ((allBanks p).reverse ++ []) x ↔
      Best s queue min_col_at curTick (allBanks p) x :=
    fun x => best_congr fun y => by rw [List.append_nil, List.mem_reverse]
  refine ⟨prep.bank_mask, prep.hidden_bank_prep, ?_, fun x => (h.mask x).trans (hbest x), ?_⟩
  · rw [minBankPrep, hrun]
    rfl
  · rintro ⟨x, hwait⟩
    obtain ⟨y, hy⟩ := h.exists_best (List.mem_append_left [] (List.mem_reverse.mpr (mem_allBanks x))) hwait
    exact ⟨y, (hbest y).mp hy⟩

end DRAMCtrl

end Salam.Dram.FrFcfs
