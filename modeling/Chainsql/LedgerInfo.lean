import Chainsql.Digest

/-!
# The ledger header

`LedgerInfo` of `ripple/ledger/ReadView.h`, the hash that authenticates it (`calculateLedgerHash`)
and the archive functions `save` / `load` of `peersafe/serialization/LedgerInfo.h` that carry it
inside HotStuff messages.
-/

namespace Chainsql

structure LedgerInfo where
  seq : UInt32 := 0
  parentCloseTime : UInt32 := 0
  hash : HashValue := zeroHash
  txHash : HashValue := zeroHash
  accountHash : HashValue := zeroHash
  parentHash : HashValue := zeroHash
  bloom : Nat := 0
  drops : Int64 := 0
  validated : Bool := false
  accepted : Bool := false
  bloomEnabled : Bool := false
  -- A C `int`; only its low byte is hashed.
  closeFlags : Int := 0
  closeTimeResolution : UInt32 := 0
  closeTime : UInt32 := 0
deriving DecidableEq, Repr, Inhabited

def hashPrefixLedgerMaster : UInt32 := 0x4C575200

namespace LedgerInfo

/-- The fields `calculateLedgerHash` streams: the bloom filter takes part only when it is enabled. -/
def hashItems (info : LedgerInfo) : List HashItem :=
  if info.bloomEnabled then
    [.hashPrefix hashPrefixLedgerMaster, .u32 info.seq, .u64 info.drops.toUInt64,
      .u256 info.parentHash, .u256 info.txHash, .u256 info.accountHash, .u2048 info.bloom,
      .u32 info.parentCloseTime, .u32 info.closeTime,
      .u8 info.closeTimeResolution.toUInt8, .u8 (UInt8.ofInt info.closeFlags)]
  else
    [.hashPrefix hashPrefixLedgerMaster, .u32 info.seq, .u64 info.drops.toUInt64,
      .u256 info.parentHash, .u256 info.txHash, .u256 info.accountHash,
      .u32 info.parentCloseTime, .u32 info.closeTime,
      .u8 info.closeTimeResolution.toUInt8, .u8 (UInt8.ofInt info.closeFlags)]

def calculateLedgerHash (h : Hasher) (info : LedgerInfo) : HashValue := h info.hashItems

end LedgerInfo

structure LedgerRef where
  id : HashValue := zeroHash
  seq : UInt32 := 0
deriving DecidableEq, Repr

structure LedgerInfoArchive where
  seq : UInt32
  parentCloseTime : UInt32
  hash : HashValue
  txHash : HashValue
  accountHash : HashValue
  parentHash : HashValue
  drops : Int64
  closeTimeResolution : UInt32
  closeTime : UInt32
deriving DecidableEq, Repr

namespace LedgerInfo

def save (info : LedgerInfo) : LedgerInfoArchive where
  seq := info.seq
  parentCloseTime := info.parentCloseTime
  hash := info.hash
  txHash := info.txHash
  accountHash := info.accountHash
  parentHash := info.parentHash
  drops := info.drops
  closeTimeResolution := info.closeTimeResolution
  closeTime := info.closeTime

/-- `load` fills a default constructed header, so a field that was not written keeps its default. -/
def load (ar : LedgerInfoArchive) : LedgerInfo where
  seq := ar.seq
  parentCloseTime := ar.parentCloseTime
  hash := ar.hash
  txHash := ar.txHash
  accountHash := ar.accountHash
  parentHash := ar.parentHash
  drops := ar.drops
  closeTimeResolution := ar.closeTimeResolution
  closeTime := ar.closeTime

def roundTrip (info : LedgerInfo) : LedgerInfo := load (save info)

end LedgerInfo

end Chainsql
