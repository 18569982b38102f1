import BtcParser.Library.Bytes
import BtcParser.Library.Dict
import BtcParser.Rpc.BlockParser
import Mathlib.Data.List.Infix

/-!
`rpc/mining_pools.py`: the pool a block is attributed to, by the tags in its coinbase script and
then by the addresses that are paid.

A text is the list of its characters where it is searched, and a `String` where it is only compared.
-/

namespace BtcParser.Pools

open BlockParser (PoolMatch unknownMatch)

/-- `PoolInfo`. -/
structure PoolInfo where
  poolId : Option ℤ
  name : String
  link : Option String
  deriving DecidableEq

/-- An object of the dataset; `none` is a key that is absent or `null`. -/
structure Pool where
  id : Option ℤ
  name : Option String
  link : Option String
  tags : Option (List (List Char))
  addresses : Option (List String)

/-- The `PoolInfo` of an object. -/
def Pool.info (pool : Pool) : PoolInfo where
  poolId := pool.id
  name := match pool.name with
    | some name => if name = "" then "Unknown" else name
    | none => "Unknown"
  link := pool.link

/-- `bytes.decode("latin1")`. -/
def latin1 (bytes : List UInt8) : List Char := bytes.map fun b => Char.ofNat b.toNat

/-- `coinbase_hex_to_ascii`. -/
def coinbaseHexToAscii : Option String → List Char
  | none => []
  | some coinbaseHex =>
      match fromHex coinbaseHex.toList with
      | some bytes => latin1 bytes
      | none => []

/-- `in`, of a text in a text. -/
def occursIn {α : Type} [DecidableEq α] (part whole : List α) : Bool := decide (part <:+: whole)

/-- The two indexes of a `PoolMatcher`. -/
structure PoolMatcher where
  tagIndex : List (List Char × PoolInfo)
  addressIndex : Dict String PoolInfo

namespace PoolMatcher

/-- One round of the loop in `__init__`. -/
def addPool (m : PoolMatcher) (pool : Pool) : PoolMatcher where
  tagIndex := m.tagIndex ++ ((pool.tags.getD []).filter (· ≠ [])).map fun tag => (tag, pool.info)
  addressIndex := ((pool.addresses.getD []).filter (· ≠ "")).foldl
    (fun index address => index.set address pool.info) m.addressIndex

/-- `__init__`. -/
def init (pools : List Pool) : PoolMatcher := pools.foldl addPool ⟨[], .empty⟩

/-- A match by a tag. -/
def byTag (info : PoolInfo) : PoolMatch := ⟨info.poolId, some info.name, info.link, "tag"⟩

/-- A match by an address. -/
def byAddress (info : PoolInfo) : PoolMatch := ⟨info.poolId, some info.name, info.link, "address"⟩

/-- `match`. -/
def matchPool (m : PoolMatcher) (coinbaseHex : Option String) (payoutAddresses : List String) :
    PoolMatch :=
  let coinbaseAscii := coinbaseHexToAscii coinbaseHex
  match m.tagIndex.find? fun p => occursIn p.1 coinbaseAscii with
  | some p => byTag p.2
  | none =>
      match payoutAddresses.findSome? m.addressIndex.get? with
      | some info => byAddress info
      | none => unknownMatch

end PoolMatcher

end BtcParser.Pools
