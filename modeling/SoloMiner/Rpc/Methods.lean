import SoloMiner.Stratum.Json

/-!
# What the node reports

The parts of the node's answers that the programs look at.
-/

namespace SoloMiner

/-- The part of `validateaddress` that is used. -/
structure AddressInfo where
  /-- Whether the address is well-formed and belongs to this network. -/
  isValid : Bool
  /-- Its script, in hex. Absent when it is not valid. -/
  scriptPubkey : Option Str

/-- The part of `getblockchaininfo` that decides whether to mine. -/
structure BlockchainInfo where
  /-- The name of the network. -/
  chain : Str
  /-- The height of the chain that is validated. -/
  blocks : UInt32
  /-- The height of the highest header that is known. -/
  headers : UInt32
  /-- Whether the node is still catching up. -/
  initialBlockDownload : Bool
  /-- The timestamp of the tip. -/
  time : UInt64

end SoloMiner
