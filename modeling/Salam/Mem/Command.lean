import Mathlib.Data.List.Basic

/-!
# `MemCmd`

The commands of the packets, with the table `commandInfo` of their attributes and responses. The texts of the table are
left out, and so are the commands that it lists as deprecated, which have no name.
-/

namespace Salam.Mem

inductive MemCmd
  | InvalidCmd
  | ReadReq
  | ReadResp
  | ReadRespWithInvalidate
  | WriteReq
  | WriteResp
  | WritebackDirty
  | WritebackClean
  | WriteClean
  | CleanEvict
  | SoftPFReq
  | SoftPFExReq
  | HardPFReq
  | SoftPFResp
  | HardPFResp
  | WriteLineReq
  | UpgradeReq
  | SCUpgradeReq
  | UpgradeResp
  | SCUpgradeFailReq
  | UpgradeFailResp
  | ReadExReq
  | ReadExResp
  | ReadCleanReq
  | ReadSharedReq
  | LoadLockedReq
  | StoreCondReq
  | StoreCondFailReq
  | StoreCondResp
  | SwapReq
  | SwapResp
  | MemFenceReq
  | MemFenceResp
  | CleanSharedReq
  | CleanSharedResp
  | CleanInvalidReq
  | CleanInvalidResp
  | InvalidDestError
  | BadAddressError
  | FunctionalReadError
  | FunctionalWriteError
  | PrintReq
  | FlushReq
  | InvalidateReq
  | InvalidateResp
  deriving DecidableEq

inductive Attribute
  | IsRead
  | IsWrite
  | IsUpgrade
  | IsInvalidate
  | IsClean
  | NeedsWritable
  | IsRequest
  | IsResponse
  | NeedsResponse
  | IsEviction
  | IsSWPrefetch
  | IsHWPrefetch
  | IsLlsc
  | HasData
  | IsError
  | IsPrint
  | IsFlush
  | FromCache
  deriving DecidableEq

namespace MemCmd

open Attribute

/-- `commandInfo`: the attributes of a command, and its response. -/
def commandInfo : MemCmd → List Attribute × MemCmd
  | InvalidCmd => ([], InvalidCmd)
  | ReadReq => ([IsRead, IsRequest, NeedsResponse], ReadResp)
  | ReadResp => ([IsRead, IsResponse, HasData], InvalidCmd)
  | ReadRespWithInvalidate => ([IsRead, IsResponse, HasData, IsInvalidate], InvalidCmd)
  | WriteReq => ([IsWrite, NeedsWritable, IsRequest, NeedsResponse, HasData], WriteResp)
  | WriteResp => ([IsWrite, IsResponse], InvalidCmd)
  | WritebackDirty => ([IsWrite, IsRequest, IsEviction, HasData, FromCache], InvalidCmd)
  | WritebackClean => ([IsWrite, IsRequest, IsEviction, HasData, FromCache], InvalidCmd)
  | WriteClean => ([IsWrite, IsRequest, HasData, FromCache], InvalidCmd)
  | CleanEvict => ([IsRequest, IsEviction, FromCache], InvalidCmd)
  | SoftPFReq => ([IsRead, IsRequest, IsSWPrefetch, NeedsResponse], SoftPFResp)
  | SoftPFExReq => ([IsRead, NeedsWritable, IsInvalidate, IsRequest, IsSWPrefetch, NeedsResponse], SoftPFResp)
  | HardPFReq => ([IsRead, IsRequest, IsHWPrefetch, NeedsResponse, FromCache], HardPFResp)
  | SoftPFResp => ([IsRead, IsResponse, IsSWPrefetch, HasData], InvalidCmd)
  | HardPFResp => ([IsRead, IsResponse, IsHWPrefetch, HasData], InvalidCmd)
  | WriteLineReq => ([IsWrite, NeedsWritable, IsRequest, NeedsResponse, HasData], WriteResp)
  | UpgradeReq => ([IsInvalidate, NeedsWritable, IsUpgrade, IsRequest, NeedsResponse, FromCache], UpgradeResp)
  | SCUpgradeReq => ([IsInvalidate, NeedsWritable, IsUpgrade, IsLlsc, IsRequest, NeedsResponse, FromCache], UpgradeResp)
  | UpgradeResp => ([IsUpgrade, IsResponse], InvalidCmd)
  | SCUpgradeFailReq =>
    ([IsRead, NeedsWritable, IsInvalidate, IsLlsc, IsRequest, NeedsResponse, FromCache], UpgradeFailResp)
  | UpgradeFailResp => ([IsRead, IsResponse, HasData], InvalidCmd)
  | ReadExReq => ([IsRead, NeedsWritable, IsInvalidate, IsRequest, NeedsResponse, FromCache], ReadExResp)
  | ReadExResp => ([IsRead, IsResponse, HasData], InvalidCmd)
  | ReadCleanReq => ([IsRead, IsRequest, NeedsResponse, FromCache], ReadResp)
  | ReadSharedReq => ([IsRead, IsRequest, NeedsResponse, FromCache], ReadResp)
  | LoadLockedReq => ([IsRead, IsLlsc, IsRequest, NeedsResponse], ReadResp)
  | StoreCondReq => ([IsWrite, NeedsWritable, IsLlsc, IsRequest, NeedsResponse, HasData], StoreCondResp)
  | StoreCondFailReq => ([IsWrite, NeedsWritable, IsLlsc, IsRequest, NeedsResponse, HasData], StoreCondResp)
  | StoreCondResp => ([IsWrite, IsLlsc, IsResponse], InvalidCmd)
  | SwapReq => ([IsRead, IsWrite, NeedsWritable, IsRequest, HasData, NeedsResponse], SwapResp)
  | SwapResp => ([IsRead, IsWrite, IsResponse, HasData], InvalidCmd)
  | MemFenceReq => ([IsRequest, NeedsResponse], MemFenceResp)
  | MemFenceResp => ([IsResponse], InvalidCmd)
  | CleanSharedReq => ([IsRequest, IsClean, NeedsResponse, FromCache], CleanSharedResp)
  | CleanSharedResp => ([IsResponse, IsClean], InvalidCmd)
  | CleanInvalidReq => ([IsRequest, IsInvalidate, IsClean, NeedsResponse, FromCache], CleanInvalidResp)
  | CleanInvalidResp => ([IsResponse, IsInvalidate, IsClean], InvalidCmd)
  | InvalidDestError => ([IsResponse, IsError], InvalidCmd)
  | BadAddressError => ([IsResponse, IsError], InvalidCmd)
  | FunctionalReadError => ([IsRead, IsResponse, IsError], InvalidCmd)
  | FunctionalWriteError => ([IsWrite, IsResponse, IsError], InvalidCmd)
  | PrintReq => ([IsRequest, IsPrint], InvalidCmd)
  | FlushReq => ([IsRequest, IsFlush, NeedsWritable], InvalidCmd)
  | InvalidateReq => ([IsInvalidate, IsRequest, NeedsWritable, NeedsResponse, FromCache], InvalidateResp)
  | InvalidateResp => ([IsInvalidate, IsResponse], InvalidCmd)

def testCmdAttrib (cmd : MemCmd) (attrib : Attribute) : Bool := cmd.commandInfo.1.contains attrib

def isRead (cmd : MemCmd) : Bool := cmd.testCmdAttrib IsRead

def isWrite (cmd : MemCmd) : Bool := cmd.testCmdAttrib IsWrite

def isUpgrade (cmd : MemCmd) : Bool := cmd.testCmdAttrib IsUpgrade

def isRequest (cmd : MemCmd) : Bool := cmd.testCmdAttrib IsRequest

def isResponse (cmd : MemCmd) : Bool := cmd.testCmdAttrib IsResponse

def needsWritable (cmd : MemCmd) : Bool := cmd.testCmdAttrib NeedsWritable

def needsResponse (cmd : MemCmd) : Bool := cmd.testCmdAttrib NeedsResponse

def isInvalidate (cmd : MemCmd) : Bool := cmd.testCmdAttrib IsInvalidate

def isEviction (cmd : MemCmd) : Bool := cmd.testCmdAttrib IsEviction

def isClean (cmd : MemCmd) : Bool := cmd.testCmdAttrib IsClean

def fromCache (cmd : MemCmd) : Bool := cmd.testCmdAttrib FromCache

/-- A writeback is an eviction that carries data. -/
def isWriteback (cmd : MemCmd) : Bool := cmd.testCmdAttrib IsEviction && cmd.testCmdAttrib HasData

def hasData (cmd : MemCmd) : Bool := cmd.testCmdAttrib HasData

def isLLSC (cmd : MemCmd) : Bool := cmd.testCmdAttrib IsLlsc

def responseCommand (cmd : MemCmd) : MemCmd := cmd.commandInfo.2

/-- `Packet::hasRespData`. -/
def hasRespData (cmd : MemCmd) : Bool := cmd.responseCommand.hasData

end MemCmd

/-- `Packet::matchAddr`, of the address and the security of the two packets. -/
def matchAddr {A : Type} [DecidableEq A] (addr : A) (is_secure : Bool) (addr' : A) (is_secure' : Bool) : Bool :=
  addr = addr' && is_secure = is_secure'

end Salam.Mem
