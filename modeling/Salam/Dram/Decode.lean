import Mathlib.Data.Nat.Prime.Basic
import Salam.Dram.Packet
import Salam.Lib.MixedRadix
import Salam.Lib.System
import Salam.Mem.StackDistCalc

/-!
# `DRAMCtrl::decodeAddr`

The number of a burst is taken apart from its lowest place: columns, banks, ranks and rows, or the lower columns, banks,
ranks, the upper columns and rows. The sizes are of 32 bits, the rank and the bank of 8.

* `decodeAddr_eq`: the rank, the bank and the row of an address, as numbers.
* `located_iff`: they are digits of the number of its burst.
* `decodeAddr_partition`: every rank, bank and row has `columnsPerRowBuffer` bursts.
* `not_decoded`: sizes that leave no column, or do not fit into 32 bits.
-/

namespace Salam.Dram.Decode

open Mem (ceilLog2 isPowerOf2)

/-- `Enums::AddrMap` -/
inductive AddrMap
  | RoRaBaChCo
  | RoRaBaCoCh
  | RoCoRaBaCh
  deriving DecidableEq

structure Params where
  addrMapping : AddrMap
  /-- `AbstractMemory::size()` -/
  size : BitVec 64
  burstSize : BitVec 32
  rowBufferSize : BitVec 32
  columnsPerStripe : BitVec 32
  ranksPerChannel : BitVec 32
  banksPerRank : BitVec 32
  ranks_pow : isPowerOf2 ranksPerChannel.toNat = true
  burst_pow : isPowerOf2 burstSize.toNat = true

/-- What `decodeAddr` passes to the constructor of `DRAMPacket`. -/
structure Decoded where
  rank : BitVec 8
  bank : BitVec 8
  row : BitVec 32
  bankId : BitVec 16
  deriving DecidableEq

inductive Err
  | assertion
  | divisionByZero
  deriving DecidableEq

def div {w : Nat} (a b : BitVec w) : Except Err (BitVec w) := if b = 0#w then .error .divisionByZero else .ok (a / b)

def mod {w : Nat} (a b : BitVec w) : Except Err (BitVec w) := if b = 0#w then .error .divisionByZero else .ok (a % b)

namespace Params

variable (c : Params)

def columnsPerRowBuffer : BitVec 32 := c.rowBufferSize / c.burstSize

def capacity : BitVec 64 := 1#64 <<< ceilLog2 c.size.toNat

/-- The constructor computes it. -/
def rowsPerBank : Except Err (BitVec 32) := do
  let rows ← div c.capacity ((c.rowBufferSize * c.banksPerRank * c.ranksPerChannel).setWidth 64)
  return rows.setWidth 32

/-- `rank`, `bank` and `row`. -/
def place (addr : BitVec 64) : Except Err (BitVec 8 × BitVec 8 × BitVec 64) := do
  let rowsPerBank ← c.rowsPerBank
  if c.addrMapping = .RoRaBaChCo ∨ c.addrMapping = .RoRaBaCoCh then
    let addr ← div addr (c.columnsPerRowBuffer.setWidth 64)
    let bank ← mod addr (c.banksPerRank.setWidth 64)
    let addr ← div addr (c.banksPerRank.setWidth 64)
    let rank ← mod addr (c.ranksPerChannel.setWidth 64)
    let addr ← div addr (c.ranksPerChannel.setWidth 64)
    let row ← mod addr (rowsPerBank.setWidth 64)
    return (rank.setWidth 8, bank.setWidth 8, row)
  else
    let addr ← div addr (c.columnsPerStripe.setWidth 64)
    let bank ← mod addr (c.banksPerRank.setWidth 64)
    let addr ← div addr (c.banksPerRank.setWidth 64)
    let rank ← mod addr (c.ranksPerChannel.setWidth 64)
    let addr ← div addr (c.ranksPerChannel.setWidth 64)
    let columns ← div c.columnsPerRowBuffer c.columnsPerStripe
    let addr ← div addr (columns.setWidth 64)
    let row ← mod addr (rowsPerBank.setWidth 64)
    return (rank.setWidth 8, bank.setWidth 8, row)

def decodeAddr (dramPktAddr : BitVec 64) : Except Err Decoded := do
  let addr ← div dramPktAddr (c.burstSize.setWidth 64)
  let (rank, bank, row) ← c.place addr
  let rowsPerBank ← c.rowsPerBank
  if rank.setWidth 32 < c.ranksPerChannel ∧ bank.setWidth 32 < c.banksPerRank ∧ row < rowsPerBank.setWidth 64 ∧
      row < NO_ROW.setWidth 64 then
    return ⟨rank, bank, row.setWidth 32, (c.banksPerRank * rank.setWidth 32 + bank.setWidth 32).setWidth 16⟩
  else .error .assertion

/-- **What `decodeAddr` gives is a packet** with a rank, a bank and a row of the controller. -/
theorem decodeAddr_packet {c : Params} {dramPktAddr : BitVec 64} {d : Decoded}
    (h : c.decodeAddr dramPktAddr = .ok d) (id : Nat)
    (isRead : Bool) : ∃ dram_pkt : DRAMPacket c.ranksPerChannel.toNat c.banksPerRank.toNat,
      dram_pkt.id = id ∧ dram_pkt.isRead = isRead ∧ dram_pkt.rank.1 = d.rank.toNat ∧ dram_pkt.bank.1 = d.bank.toNat ∧
      dram_pkt.row = d.row ∧ bankId dram_pkt.rank dram_pkt.bank = d.bankId ∧ dram_pkt.row ≠ NO_ROW := by
  obtain ⟨addr, -, h⟩ := ok_of_bind h
  obtain ⟨⟨rank, bank, row⟩, -, h⟩ := ok_of_bind h
  obtain ⟨rows, -, h⟩ := ok_of_bind h
  split at h
  · rename_i hlt
    obtain ⟨hrank, hbank, -, hrow⟩ := hlt
    cases h
    simp only [BitVec.lt_def, BitVec.toNat_setWidth] at hrank hbank hrow
    refine ⟨⟨id, isRead, ⟨rank.toNat, by omega⟩, ⟨bank.toNat, by omega⟩, row.setWidth 32⟩, rfl, rfl, rfl,
      rfl, rfl, ?_, ?_⟩
    · apply BitVec.eq_of_toNat_eq
      simp only [bankId, BitVec.toNat_ofNat, BitVec.toNat_setWidth, BitVec.toNat_add, BitVec.toNat_mul]
      rw [Nat.mod_eq_of_lt (show rank.toNat < 2 ^ 32 by omega)]
      omega
    · intro heq
      have := congrArg BitVec.toNat heq
      rw [BitVec.toNat_setWidth] at this
      have hno : NO_ROW.toNat = 2 ^ 32 - 1 := rfl
      omega
  · cases h

/-- The rank, the bank and the row of a burst. -/
def located (n : Nat) : Option (Nat × Nat × Nat) :=
  match c.decodeAddr (BitVec.ofNat 64 (n * c.burstSize.toNat)) with
  | .ok d => some (d.rank.toNat, d.bank.toNat, d.row.toNat)
  | .error _ => none

/-- The rank, the bank and the row as digits of the number of a burst. -/
def digits (rows n : Nat) : Nat × Nat × Nat :=
  let banks := c.banksPerRank.toNat
  let ranks := c.ranksPerChannel.toNat
  if c.addrMapping = .RoRaBaChCo ∨ c.addrMapping = .RoRaBaCoCh then
    let n := n / c.columnsPerRowBuffer.toNat
    (n / banks % ranks, n % banks, n / banks / ranks % rows)
  else
    let n := n / c.columnsPerStripe.toNat
    (n / banks % ranks, n % banks,
      n / banks / ranks / (c.columnsPerRowBuffer.toNat / c.columnsPerStripe.toNat) % rows)

end Params

section Decode

variable {c : Params} {rows : BitVec 32}

/-- The sizes fit: there is a column, and a row, in each direction. -/
structure Sized (c : Params) (rows : BitVec 32) : Prop where
  rowsPerBank : c.rowsPerBank = .ok rows
  rows_pos : 0 < rows.toNat
  columns_pos : 0 < c.columnsPerRowBuffer.toNat
  stripe : c.columnsPerStripe.toNat ∣ c.columnsPerRowBuffer.toNat
  banks_pos : 0 < c.banksPerRank.toNat
  ranks_pos : 0 < c.ranksPerChannel.toNat
  banks_le : c.banksPerRank.toNat ≤ 256
  ranks_le : c.ranksPerChannel.toNat ≤ 256

theorem ne_zero_of_pos {w : Nat} {b : BitVec w} (hb : 0 < b.toNat) : b ≠ 0#w := by
  rintro rfl
  exact absurd hb (lt_irrefl 0)

theorem div_ok {w : Nat} (a : BitVec w) {b : BitVec w} (hb : 0 < b.toNat) :
    ∃ q, div a b = .ok q ∧ q.toNat = a.toNat / b.toNat :=
  ⟨a / b, if_neg (ne_zero_of_pos hb), BitVec.toNat_udiv⟩

theorem mod_ok {w : Nat} (a : BitVec w) {b : BitVec w} (hb : 0 < b.toNat) :
    ∃ r, mod a b = .ok r ∧ r.toNat = a.toNat % b.toNat :=
  ⟨a % b, if_neg (ne_zero_of_pos hb), BitVec.toNat_umod⟩

theorem toNat_widen (b : BitVec 32) : (b.setWidth 64).toNat = b.toNat := by
  rw [BitVec.toNat_setWidth]
  exact Nat.mod_eq_of_lt (b.isLt.trans (by decide))

theorem toNat_narrow {x : BitVec 64} {m : Nat} (hx : x.toNat < m) (hm : m ≤ 256) : (x.setWidth 8).toNat = x.toNat := by
  exact Nat.mod_eq_of_lt (by omega)

section

variable (h : Sized c rows)
include h

/-- The banks and the ranks, which both mappings take out in this order. -/
theorem Sized.banks_ranks (n : BitVec 64) : ∃ bank n₁ rank n₂,
    mod n (c.banksPerRank.setWidth 64) = .ok bank ∧ div n (c.banksPerRank.setWidth 64) = .ok n₁ ∧
      mod n₁ (c.ranksPerChannel.setWidth 64) = .ok rank ∧ div n₁ (c.ranksPerChannel.setWidth 64) = .ok n₂ ∧
      (bank.setWidth 8).toNat = n.toNat % c.banksPerRank.toNat ∧
      (rank.setWidth 8).toNat = n.toNat / c.banksPerRank.toNat % c.ranksPerChannel.toNat ∧
      n₂.toNat = n.toNat / c.banksPerRank.toNat / c.ranksPerChannel.toNat := by
  have hbanks : 0 < (c.banksPerRank.setWidth 64).toNat := by
    exact h.banks_pos
  have hranks : 0 < (c.ranksPerChannel.setWidth 64).toNat := by
    exact h.ranks_pos
  obtain ⟨bank, hbank, ebank⟩ := mod_ok n hbanks
  obtain ⟨n₁, h₁, e₁⟩ := div_ok n hbanks
  obtain ⟨rank, hrank, erank⟩ := mod_ok n₁ hranks
  obtain ⟨n₂, h₂, e₂⟩ := div_ok n₁ hranks
  rw [toNat_widen] at ebank e₁ erank e₂
  refine ⟨bank, n₁, rank, n₂, hbank, h₁, hrank, h₂, ?_, ?_, ?_⟩
  · rw [toNat_narrow (ebank ▸ Nat.mod_lt _ h.banks_pos) h.banks_le, ebank]
  · rw [toNat_narrow (erank ▸ Nat.mod_lt _ h.ranks_pos) h.ranks_le, erank, e₁]
  · rw [e₂, e₁]

theorem Sized.stripe_pos : 0 < c.columnsPerStripe.toNat := Nat.pos_of_dvd_of_pos h.stripe h.columns_pos

/-- The rank, the bank and the row are the digits. -/
theorem place_eq (n : BitVec 64) : ∃ rank bank row, c.place n = .ok (rank, bank, row) ∧
    (rank.toNat, bank.toNat, row.toNat) = c.digits rows.toNat n.toNat := by
  have hrows : 0 < (rows.setWidth 64).toNat := by
    exact h.rows_pos
  rw [Params.place, Params.digits, h.rowsPerBank]
  simp only [bind, Except.bind]
  by_cases hmap : c.addrMapping = .RoRaBaChCo ∨ c.addrMapping = .RoRaBaCoCh
  · have hcolumns : 0 < (c.columnsPerRowBuffer.setWidth 64).toNat := by
      exact h.columns_pos
    obtain ⟨n₁, h₁, e₁⟩ := div_ok n hcolumns
    obtain ⟨bank, n₂, rank, n₃, hbank, h₂, hrank, h₃, ebank, erank, e₃⟩ := h.banks_ranks n₁
    obtain ⟨row, hrow, erow⟩ := mod_ok n₃ hrows
    rw [toNat_widen] at e₁ erow
    rw [if_pos hmap, if_pos hmap]
    simp only [h₁, hbank, h₂, hrank, h₃, hrow]
    refine ⟨_, _, _, rfl, ?_⟩
    rw [ebank, erank, erow, e₃, e₁]
  · have hstripe : 0 < (c.columnsPerStripe.setWidth 64).toNat := by
      exact h.stripe_pos
    obtain ⟨columns, hcolumns, ecolumns⟩ := div_ok c.columnsPerRowBuffer h.stripe_pos
    have hcolumns_pos : 0 < (columns.setWidth 64).toNat := by
      rw [toNat_widen, ecolumns]
      exact Nat.div_pos (Nat.le_of_dvd h.columns_pos h.stripe) h.stripe_pos
    obtain ⟨n₁, h₁, e₁⟩ := div_ok n hstripe
    obtain ⟨bank, n₂, rank, n₃, hbank, h₂, hrank, h₃, ebank, erank, e₃⟩ := h.banks_ranks n₁
    obtain ⟨n₄, h₄, e₄⟩ := div_ok n₃ hcolumns_pos
    obtain ⟨row, hrow, erow⟩ := mod_ok n₄ hrows
    rw [toNat_widen] at e₁ e₄ erow
    rw [if_neg hmap, if_neg hmap]
    simp only [h₁, hbank, h₂, hrank, h₃, hcolumns, h₄, hrow]
    refine ⟨_, _, _, rfl, ?_⟩
    rw [ebank, erank, erow, e₄, e₃, e₁, ecolumns]

theorem digits_lt (n : Nat) : (c.digits rows.toNat n).1 < c.ranksPerChannel.toNat ∧
    (c.digits rows.toNat n).2.1 < c.banksPerRank.toNat ∧ (c.digits rows.toNat n).2.2 < rows.toNat := by
  rw [Params.digits]
  split <;> exact ⟨Nat.mod_lt _ h.ranks_pos, Nat.mod_lt _ h.banks_pos, Nat.mod_lt _ h.rows_pos⟩

/-- **An address**: no assertion fails, and it is taken apart into the digits. -/
theorem decodeAddr_eq (hburst : 0 < c.burstSize.toNat) (a : BitVec 64) : ∃ d, c.decodeAddr a = .ok d ∧
    (d.rank.toNat, d.bank.toNat, d.row.toNat) = c.digits rows.toNat (a.toNat / c.burstSize.toNat) := by
  have hwide : 0 < (c.burstSize.setWidth 64).toNat := by
    exact hburst
  obtain ⟨n, hn, en⟩ := div_ok a hwide
  obtain ⟨rank, bank, row, hplace, heq⟩ := place_eq h n
  rw [toNat_widen] at en
  rw [en] at heq
  obtain ⟨hrank, hbank, hrow⟩ := digits_lt h (a.toNat / c.burstSize.toNat)
  rw [← heq] at hrank hbank hrow
  have hlast : row.toNat < NO_ROW.toNat := by
    have hno : NO_ROW.toNat = 2 ^ 32 - 1 := rfl
    have hrow' : row.toNat < rows.toNat := hrow
    omega
  have hrow32 : (row.setWidth 32).toNat = row.toNat := by
    exact Nat.mod_eq_of_lt (hrow.trans rows.isLt)
  have hcheck : rank.setWidth 32 < c.ranksPerChannel ∧ bank.setWidth 32 < c.banksPerRank ∧ row < rows.setWidth 64 ∧
      row < NO_ROW.setWidth 64 := by
    refine ⟨?_, ?_, ?_, ?_⟩
    · rw [BitVec.lt_def, BitVec.toNat_setWidth, Nat.mod_eq_of_lt (by omega)]
      exact hrank
    · rw [BitVec.lt_def, BitVec.toNat_setWidth, Nat.mod_eq_of_lt (by omega)]
      exact hbank
    · rw [BitVec.lt_def, toNat_widen]
      exact hrow
    · rw [BitVec.lt_def, toNat_widen]
      exact hlast
  refine ⟨⟨rank, bank, row.setWidth 32, (c.banksPerRank * rank.setWidth 32 + bank.setWidth 32).setWidth 16⟩, ?_, ?_⟩
  · rw [Params.decodeAddr, hn, h.rowsPerBank]
    simp only [bind, Except.bind, hplace]
    rw [if_pos hcheck]
    rfl
  · rw [hrow32]
    exact heq

end

/-! ## The bursts of a row -/

open MixedRadix in
/-- The places of the number of a burst, with the digits of a rank, a bank and a row. -/
def places (c : Params) (rows : Nat) (d : Nat × Nat × Nat) : List Place :=
  if c.addrMapping = .RoRaBaChCo ∨ c.addrMapping = .RoRaBaCoCh then
    [⟨c.columnsPerRowBuffer.toNat, none⟩, ⟨c.banksPerRank.toNat, some d.2.1⟩, ⟨c.ranksPerChannel.toNat, some d.1⟩,
      ⟨rows, some d.2.2⟩]
  else
    [⟨c.columnsPerStripe.toNat, none⟩, ⟨c.banksPerRank.toNat, some d.2.1⟩, ⟨c.ranksPerChannel.toNat, some d.1⟩,
      ⟨c.columnsPerRowBuffer.toNat / c.columnsPerStripe.toNat, none⟩, ⟨rows, some d.2.2⟩]

theorem fits_places (rows n : Nat) (d : Nat × Nat × Nat) :
    MixedRadix.Fits (places c rows d) n ↔ c.digits rows n = d := by
  rw [places, Params.digits]
  split <;>
    · simp only [MixedRadix.Fits, MixedRadix.Place.Fits, Option.mem_def, reduceCtorEq, false_implies, implies_true,
        Option.some.injEq, forall_eq', true_and, and_true, Prod.ext_iff]
      exact and_left_comm

theorem places_lt {rows rank bank row : Nat} (hrank : rank < c.ranksPerChannel.toNat)
    (hbank : bank < c.banksPerRank.toNat)
    (hrow : row < rows) : ∀ p ∈ places c rows (rank, bank, row), ∀ d ∈ p.digit, d < p.radix := by
  rw [places]
  split <;>
    · simp only [List.forall_mem_cons, List.not_mem_nil, false_implies, implies_true, Option.mem_def, reduceCtorEq,
        Option.some.injEq, forall_eq', and_true, true_and]
      exact ⟨hbank, hrank, hrow⟩

theorem size_places (h : c.columnsPerStripe.toNat ∣ c.columnsPerRowBuffer.toNat) (rows : Nat) (d : Nat × Nat × Nat) :
    MixedRadix.size (places c rows d) =
      c.columnsPerRowBuffer.toNat * (c.banksPerRank.toNat * (c.ranksPerChannel.toNat * rows)) := by
  rw [places]
  split
  · simp only [MixedRadix.size, Nat.mul_one]
  · have hcolumns := Nat.mul_div_cancel' h
    simp only [MixedRadix.size, Nat.mul_one]
    calc _ = c.columnsPerStripe.toNat * (c.columnsPerRowBuffer.toNat / c.columnsPerStripe.toNat) *
          (c.banksPerRank.toNat * (c.ranksPerChannel.toNat * rows)) := by ring
      _ = _ := by rw [hcolumns]

theorem free_places (h : c.columnsPerStripe.toNat ∣ c.columnsPerRowBuffer.toNat) (rows : Nat) (d : Nat × Nat × Nat) :
    MixedRadix.free (places c rows d) = c.columnsPerRowBuffer.toNat := by
  rw [places]
  split
  · simp only [MixedRadix.free, Nat.mul_one]
  · simp only [MixedRadix.free, Nat.mul_one]
    exact Nat.mul_div_cancel' h

/-- The bytes of one row in all banks. -/
def Params.stripe (c : Params) : Nat := c.rowBufferSize.toNat * c.banksPerRank.toNat * c.ranksPerChannel.toNat

theorem rowsPerBank_eq (hpos : 0 < c.stripe) (hfit : c.stripe < 2 ^ 32) (hrows : c.capacity.toNat < c.stripe * 2 ^ 32) :
    ∃ rows, c.rowsPerBank = .ok rows ∧ rows.toNat = c.capacity.toNat / c.stripe := by
  have hproduct : (c.rowBufferSize * c.banksPerRank * c.ranksPerChannel).toNat = c.stripe := by
    rw [BitVec.toNat_mul, BitVec.toNat_mul, Nat.mod_mul_mod]
    exact Nat.mod_eq_of_lt hfit
  have hwide : ((c.rowBufferSize * c.banksPerRank * c.ranksPerChannel).setWidth 64).toNat = c.stripe := by
    rw [toNat_widen, hproduct]
  obtain ⟨q, hq, eq⟩ := div_ok c.capacity (hwide ▸ hpos)
  refine ⟨q.setWidth 32, ?_, ?_⟩
  · rw [Params.rowsPerBank, hq]
    rfl
  · rw [BitVec.toNat_setWidth, eq, hwide]
    exact Nat.mod_eq_of_lt (Nat.div_lt_of_lt_mul hrows)

theorem capacity_eq (c : Params) : c.capacity.toNat = 0 ∨ ∃ k, c.capacity.toNat = 2 ^ k := by
  have hone : (1#64).toNat = 1 := rfl
  rw [Params.capacity, BitVec.toNat_shiftLeft, Nat.shiftLeft_eq, hone, Nat.one_mul]
  by_cases hlt : ceilLog2 c.size.toNat < 64
  · exact .inr ⟨_, Nat.mod_eq_of_lt (Nat.pow_lt_pow_right (by decide) hlt)⟩
  · exact .inl (Nat.mod_eq_zero_of_dvd (Nat.pow_dvd_pow 2 (not_lt.mp hlt)))

theorem columns_mul (hdiv : c.stripe ∣ c.capacity.toNat) (hpos : 0 < c.capacity.toNat)
    (hcolumns : c.burstSize.toNat ≤ c.rowBufferSize.toNat) :
    c.columnsPerRowBuffer.toNat * c.burstSize.toNat = c.rowBufferSize.toNat := by
  obtain ⟨k, hk⟩ := (capacity_eq c).resolve_left hpos.ne'
  have hrow : c.rowBufferSize.toNat ∣ 2 ^ k := by
    rw [← hk]
    exact (Dvd.intro _ (Nat.mul_assoc _ _ _).symm).trans hdiv
  obtain ⟨i, -, hi⟩ := (Nat.dvd_prime_pow Nat.prime_two).mp hrow
  obtain ⟨j, hj⟩ := (Mem.isPowerOf2_iff (c.burstSize.isLt.trans (by decide))).mp c.burst_pow
  have hdvd : c.burstSize.toNat ∣ c.rowBufferSize.toNat := by
    rw [hi, hj] at hcolumns ⊢
    exact Nat.pow_dvd_pow 2 ((Nat.pow_le_pow_iff_right (by decide)).mp hcolumns)
  exact Nat.div_mul_cancel hdvd

/-- The rows, columns, banks and ranks make up the bursts. -/
theorem bursts_eq {rows : Nat} (hcolumns : c.columnsPerRowBuffer.toNat * c.burstSize.toNat = c.rowBufferSize.toNat)
    (hcapacity : c.capacity.toNat = c.stripe * rows) (hburst : 0 < c.burstSize.toNat) :
      c.capacity.toNat / c.burstSize.toNat =
      c.columnsPerRowBuffer.toNat * (c.banksPerRank.toNat * (c.ranksPerChannel.toNat * rows)) := by
  refine Nat.div_eq_of_eq_mul_left hburst ?_
  rw [hcapacity, Params.stripe, ← hcolumns]
  ring

theorem located_iff (h : Sized c rows) (hburst : 0 < c.burstSize.toNat) {n : Nat}
    (hn : n < c.capacity.toNat / c.burstSize.toNat) (d : Nat × Nat × Nat) :
    c.located n = some d ↔ c.digits rows.toNat n = d := by
  have hlt : n * c.burstSize.toNat < 2 ^ 64 :=
    calc n * c.burstSize.toNat < c.capacity.toNat / c.burstSize.toNat * c.burstSize.toNat :=
          Nat.mul_lt_mul_of_pos_right hn hburst
      _ ≤ c.capacity.toNat := Nat.div_mul_le_self _ _
      _ < 2 ^ 64 := c.capacity.isLt
  obtain ⟨pkt, hpkt, heq⟩ := decodeAddr_eq h hburst (BitVec.ofNat 64 (n * c.burstSize.toNat))
  rw [BitVec.toNat_ofNat, Nat.mod_eq_of_lt hlt, Nat.mul_div_cancel n hburst] at heq
  rw [Params.located, hpkt, ← heq]
  exact Option.some_inj

end Decode

/-- **The addresses are a partition**: every address below the capacity is taken apart, and every rank, bank and row has
`columnsPerRowBuffer` bursts. -/
theorem decodeAddr_partition (c : Params) (hdiv : c.stripe ∣ c.capacity.toNat)
    (hstripe : c.columnsPerStripe.toNat ∣ c.columnsPerRowBuffer.toNat)
    (hbanks : c.banksPerRank.toNat ≤ 256) (hranks : c.ranksPerChannel.toNat ≤ 256)
    (hcolumns : c.burstSize.toNat ≤ c.rowBufferSize.toNat) (hfit : c.stripe < 2 ^ 32)
    (hrows : c.capacity.toNat < c.stripe * 2 ^ 32) :
    ∃ rows, c.rowsPerBank = .ok rows ∧ (∀ a, a < c.capacity → ∃ d, c.decodeAddr a = .ok d) ∧
      ∀ rank bank row, rank < c.ranksPerChannel.toNat → bank < c.banksPerRank.toNat → row < rows.toNat →
        ((Finset.range (c.capacity.toNat / c.burstSize.toNat)).filter fun n =>
          c.located n = some (rank, bank, row)).card = c.columnsPerRowBuffer.toNat := by
  have hstripe_pos : 0 < c.stripe := Nat.pos_of_mul_pos_right (Nat.zero_lt_of_lt hrows)
  obtain ⟨rows, hok, hrow⟩ := rowsPerBank_eq hstripe_pos hfit hrows
  refine ⟨rows, hok, ?_⟩
  rcases Nat.eq_zero_or_pos c.capacity.toNat with hzero | hpos
  · -- nothing is in range
    rw [hzero, Nat.zero_div] at hrow
    refine ⟨fun a ha => ?_, fun rank bank row _ _ hlt => ?_⟩
    · rw [BitVec.lt_def, hzero] at ha
      exact absurd ha (Nat.not_lt_zero _)
    · rw [hrow] at hlt
      exact absurd hlt (Nat.not_lt_zero _)
  · have hmul := columns_mul hdiv hpos hcolumns
    have hcapacity : c.capacity.toNat = c.stripe * rows.toNat := by
      rw [hrow, Nat.mul_div_cancel' hdiv]
    have hburst : 0 < c.burstSize.toNat := by
      obtain ⟨j, hj⟩ := (Mem.isPowerOf2_iff (c.burstSize.isLt.trans (by decide))).mp c.burst_pow
      rw [hj]
      exact Nat.two_pow_pos j
    have hsized : Sized c rows :=
      { rowsPerBank := hok
        rows_pos := Nat.pos_of_mul_pos_left (hcapacity ▸ hpos)
        columns_pos := Nat.div_pos hcolumns hburst
        stripe := hstripe
        banks_pos := Nat.pos_of_mul_pos_left (Nat.pos_of_mul_pos_right hstripe_pos)
        ranks_pos := Nat.pos_of_mul_pos_left hstripe_pos
        banks_le := hbanks
        ranks_le := hranks }
    refine ⟨fun a _ => ?_, fun rank bank row hrank hbank hrow => ?_⟩
    · obtain ⟨d, hd, -⟩ := decodeAddr_eq hsized hburst a
      exact ⟨d, hd⟩
    · have hfits := MixedRadix.card_fits _ (places_lt (c := c) hrank hbank hrow)
      rw [size_places hstripe, free_places hstripe, ← bursts_eq hmul hcapacity hburst] at hfits
      rw [← hfits]
      refine congrArg Finset.card (Finset.filter_congr fun n hn => ?_)
      rw [located_iff hsized hburst (Finset.mem_range.mp hn), fits_places]

/-- 4 columns in two stripes, 2 ranks of 2 banks and 4 rows. -/
def fourRows : Params := ⟨.RoCoRaBaCh, 4096, 64, 256, 2, 2, 2, by decide, by decide⟩

theorem decodeAddr_partition_fourRows :
    ((Finset.range 64).filter fun n => fourRows.located n = some (1, 0, 3)).card = 4 := by
  obtain ⟨rows, hrows, -, hcard⟩ := decodeAddr_partition fourRows (by decide) (by decide) (by decide)
    (by decide) (by decide)
    (by decide) (by decide)
  obtain rfl : 4 = rows := Except.ok.inj hrows
  exact hcard 1 0 3 (by decide) (by decide) (by decide)

/-- A row buffer that is smaller than a burst. -/
def noColumn : Params := ⟨.RoRaBaCoCh, 4096, 128, 64, 1, 1, 1, by decide, by decide⟩

/-- Rows of 4 GiB in 256 ranks of 256 banks. -/
def wideRows : Params := ⟨.RoRaBaCoCh, 2 ^ 33, 64, 2 ^ 16, 1, 256, 256, by decide, by decide⟩

/-- One bank with `2 ^ 32` rows. -/
def manyRows : Params := ⟨.RoRaBaCoCh, 2 ^ 38, 64, 64, 1, 1, 1, by decide, by decide⟩

/-- What the configuration is asked for: the sizes divide each other, and the banks and the ranks can be counted in a
byte. -/
def Params.Divides (c : Params) : Prop :=
  c.stripe ∣ c.capacity.toNat ∧ c.columnsPerStripe.toNat ∣ c.columnsPerRowBuffer.toNat ∧ c.banksPerRank.toNat ≤ 256 ∧
    c.ranksPerChannel.toNat ≤ 256

instance (c : Params) : Decidable c.Divides := by
  unfold Params.Divides
  infer_instance

/-- The sizes divide each other, but no address is taken apart: there is a division by zero, for the second in the
constructor. -/
theorem not_decoded : (noColumn.Divides ∧ wideRows.Divides ∧ manyRows.Divides) ∧
    (0 < noColumn.capacity ∧ noColumn.decodeAddr 0 = .error .divisionByZero) ∧
    (0 < wideRows.capacity ∧ wideRows.decodeAddr 0 = .error .divisionByZero) ∧
    (0 < manyRows.capacity ∧ manyRows.decodeAddr 0 = .error .divisionByZero) :=
  ⟨⟨by decide, by decide, by decide⟩, by decide, by decide, by decide⟩

end Salam.Dram.Decode
