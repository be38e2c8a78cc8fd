import Pttp.Bytes
import Pttp.Curve
import Pttp.Lib.Covering
import Pttp.Lib.Greedy
import Pttp.Lib.Runs
import Pttp.PasswordTools
import Pttp.Messages
import Pttp.Process
import Pttp.Process.Soundness
import Pttp.Process.Bounds
import Pttp.Chain.Transaction
import Pttp.Process.Completeness
import Pttp.Chain.Validators
import Pttp.Chain.BlockChain
import Pttp.Lib.Accounts
import Pttp.Chain.Ledger
import Pttp.Chain.Runs
import Pttp.SetReconsiler
import Pttp.Connections
import Pttp.Gossip
import Pttp.Gossip.Delivery
import Pttp.BloomFilter
import Pttp.Lib.BitPacking
import Pttp.BloomFilter.Wire
import Pttp.CachedDB
import Pttp.Chain.BlockChainReconsiler
import Pttp.Chain.BlockHeader
import Pttp.Chain.Reserialise
import Pttp.Ingest
import Pttp.Lib.StructLayout
import Pttp.Messages.Reply
import Pttp.Server
import Pttp.Server.Envelope
import Pttp.Server.Exchange
import Pttp.SetReconsiler.Filter
import Pttp.BloomFilter.Runs
import Pttp.Server.Untrusted
import Pttp.Cuckoo.Coherence
import Pttp.Chain.Mining
import Pttp.Lib.Forest
import Pttp.Chain.MarkBlocks
import Pttp.Hex
import Pttp.PasswordTools.RoundTrip
import Pttp.Lib.LowBits
import Pttp.Bitset
import Pttp.WordTools
import Pttp.Lib.XorChecksum
import Pttp.Bech32
import Pttp.Bech32.RoundTrip
import Pttp.Lib.Scaling
import Pttp.Bech32.Regroup
import Pttp.Bech32.Output
import Pttp.BloomFilter.Occupancy
import Pttp.Lib.PriorityQueue
import Pttp.Gtd
import Pttp.Curve.Closing
import Pttp.Lib.Heap
import Pttp.Cuckoo.Memory
import Pttp.Chain.Authorised
import Pttp.Chain.Supply
import Pttp.Lib.Spreading
import Pttp.Discovery
import Pttp.Discovery.Invariant
import Pttp.Discovery.Knowledge
import Pttp.Discovery.Rounds
import Pttp.Discovery.Listing
import Pttp.Manager
import Pttp.Manager.Pacing
import Pttp.Manager.Progress
import Pttp.Server.Turn
import Pttp.Node
import Pttp.Gossip.Reach
import Pttp.Bech32.Acceptance
import Pttp.Bech32.Errors
import Pttp.PasswordTools.Sealed
import Pttp.Bech32.Segwit
import Pttp.Socket
import Pttp.Chain.Replicas
