import Zerium.Lib.BigEndian
import Zerium.Lib.KVStore
import Zerium.Lib.EState
import Zerium.Rlp.Value
import Zerium.Rlp.Encode
import Zerium.Rlp.Deferred
import Zerium.Rlp.Emit
import Zerium.Rlp.Frames
import Zerium.Rlp.Stream
import Zerium.Rlp.Reading
import Zerium.Rlp.Decode
import Zerium.Rlp.RoundTrip
import Zerium.Rlp.Inversion
import Zerium.Rlp.Canonical
import Zerium.Rlp.Raw
import Zerium.Trie.Encoding
import Zerium.Trie.Node
import Zerium.Trie.Hasher
import Zerium.Trie.Tree
import Zerium.Trie.TreeInsert
import Zerium.Trie.TreeDelete
import Zerium.Trie.TreeUnique
import Zerium.Trie.TreeHash
import Zerium.Trie.Expand
import Zerium.Trie.HasherSpec
import Zerium.Trie.DecodeSpec
import Zerium.Trie.TrieGet
import Zerium.Trie.TrieUpdate
import Zerium.Trie.Run
import Zerium.Trie.RunSpec
import Zerium.Trie.Sync
import Zerium.Clique.Snapshot
import Zerium.Clique.Voting
import Zerium.Core.StateTransition
import Zerium.Core.GasAccounting
import Zerium.Lib.Slice
import Zerium.Lib.Ctr
import Zerium.Lib.Sim
import Zerium.Lib.Search
import Zerium.Abthash.Algorithm
import Zerium.Abthash.Seal
import Zerium.Core.BlockChain
import Zerium.Core.Canonical
import Zerium.Core.ChainIndexer
import Zerium.Core.ChainIndexerSpec
import Zerium.Lib.GoMap
import Zerium.State.StateDB
import Zerium.State.Journal
import Zerium.State.Commit
import Zerium.State.Observe
import Zerium.Lib.UndoLog
import Zerium.State.Revert
import Zerium.State.Refine
import Zerium.Abi.Pack
import Zerium.Abi.Unpack
import Zerium.Abi.RoundTrip
import Zerium.Abi.Untrusted
import Zerium.Swarm.Chunker
import Zerium.Swarm.RoundTrip
import Zerium.Swarm.Pyramid
import Zerium.Trie.Iterator
import Zerium.Trie.IteratorSpec
import Zerium.Core.GasLimit
import Zerium.Vm.Gas
import Zerium.Vm.GasSpec
import Zerium.Vm.MemorySpec
import Zerium.Vm.Analysis
import Zerium.Vm.AnalysisSpec
import Zerium.Vm.Instructions
import Zerium.Vm.InstructionsSpec
import Zerium.Core.GasSettlement
import Zerium.Vm.Contracts
import Zerium.Vm.ContractsSpec
import Zerium.Lib.Heap
import Zerium.Types.Transaction
import Zerium.Types.TransactionSpec
import Zerium.Clique.Engine
import Zerium.Clique.Checkpoint
import Zerium.Core.BloomBits
import Zerium.Types.Signing
import Zerium.Core.TxList
import Zerium.Core.TxListSpec
import Zerium.Lib.Prque
import Zerium.Zrm.Fetcher
import Zerium.Zrm.FetcherSpec
import Zerium.Zrm.HeaderQueue
import Zerium.Zrm.HeaderQueueSpec
import Zerium.P2p.Table
import Zerium.P2p.Node
import Zerium.P2p.Buckets
import Zerium.Zaeapi.Api
import Zerium.P2p.Peer
import Zerium.P2p.PeerSpec
import Zerium.P2p.Rlpx
import Zerium.P2p.RlpxSpec
import Zerium.P2p.RlpxConn
import Zerium.Swarm.PyramidSpec
import Zerium.P2p.BucketsSpec
import Zerium.Compression.Rle
import Zerium.Whisper.Message
import Zerium.Whisper.Envelope
import Zerium.Whisper.RoundTrip
import Zerium.Bitutil.Compress
import Zerium.Lib.MsbBits
import Zerium.Hexutil.Quantity
import Zerium.Vm.OpCodes
import Zerium.Asm.Lexer
import Zerium.Asm.Compiler
import Zerium.Merkletree.Hasher
import Zerium.Merkletree.SplitWrite
import Zerium.Trie.RunMap
import Zerium.P2p.Dial
import Zerium.P2p.Server
import Zerium.P2p.DialSpec
import Zerium.P2p.ServerSpec
