import Mathlib.Data.BitVec

/-!
# The packets of the DRAM controller

What `decodeAddr` puts into a `DRAMPacket`. The accesses, `minBankPrep` and `chooseNextFRFCFS` work with these packets;
`decodeAddr_packet` (`Dram/Decode`) says that they are the ones that `decodeAddr` gives.
-/

namespace Salam.Dram

/-- `Bank::NO_ROW`, `(uint32_t)-1`. -/
def NO_ROW : BitVec 32 := BitVec.allOnes 32

/-- A packet is compared as a pointer (`id`). -/
structure DRAMPacket (ranksPerChannel banksPerRank : Nat) where
  id : Nat
  isRead : Bool
  rank : Fin ranksPerChannel
  bank : Fin banksPerRank
  row : BitVec 32
  deriving DecidableEq

/-- `bank_id` -/
def bankId {ranksPerChannel banksPerRank : Nat} (rank : Fin ranksPerChannel) (bank : Fin banksPerRank) : BitVec 16 :=
  BitVec.ofNat 16 (banksPerRank * rank + bank)

end Salam.Dram
