import BitcoinAbc.Lib.ExceptRefine
import BitcoinAbc.Lib.Bitmask
import BitcoinAbc.Lib.Simulation
import BitcoinAbc.Lib.AListSum
import BitcoinAbc.Lib.Updates
import BitcoinAbc.Lib.Halving
import BitcoinAbc.Lib.Ledger
import BitcoinAbc.Lib.Slots
import BitcoinAbc.Script.Types
import BitcoinAbc.Script.ScriptNum
import BitcoinAbc.Script.NumEncoding
import BitcoinAbc.Script.Parse
import BitcoinAbc.Script.Push
import BitcoinAbc.Script.SigEncoding
import BitcoinAbc.Script.SigHash
import BitcoinAbc.Script.Machine
import BitcoinAbc.Script.ConditionStack
import BitcoinAbc.Script.Interpreter
import BitcoinAbc.Script.Conversion
import BitcoinAbc.Script.SchnorrMultisig
import BitcoinAbc.Script.SoftFork
import BitcoinAbc.Script.Safety
import BitcoinAbc.Primitives.Transaction
import BitcoinAbc.Consensus.Merkle
import BitcoinAbc.Consensus.Amount
import BitcoinAbc.Coins.Cache
import BitcoinAbc.Coins.View
import BitcoinAbc.Coins.Refinement
import BitcoinAbc.Validation.BlockUndo
import BitcoinAbc.Consensus.TxCheck
import BitcoinAbc.Validation.Connect
import BitcoinAbc.Validation.Disconnect
import BitcoinAbc.Validation.Subsidy
import BitcoinAbc.Validation.ConnectBlock
import BitcoinAbc.Util.Asmap
import BitcoinAbc.Avalanche.Proof
import BitcoinAbc.Net.BlockEncodings
import BitcoinAbc.Avalanche.VoteRecord
import BitcoinAbc.Lib.Limbs
import BitcoinAbc.Arith.BaseUint
import BitcoinAbc.Arith.BaseUintVal
import BitcoinAbc.Arith.BaseUintDiv
import BitcoinAbc.Arith.Compact
import BitcoinAbc.Avalanche.PeerManager
import BitcoinAbc.Lib.LittleEndian
import BitcoinAbc.Serialize.Integers
import BitcoinAbc.Coins.Compressor
import BitcoinAbc.Coins.ScriptCompression
import BitcoinAbc.Lib.SearchTree
import BitcoinAbc.Avalanche.ProofPool
import BitcoinAbc.Lib.FixedPoint
import BitcoinAbc.Pow.Asert
import BitcoinAbc.Lib.Decimal
import BitcoinAbc.Util.MoneyStr
import BitcoinAbc.Util.FixedPoint
import BitcoinAbc.Lib.CarryBuffer
import BitcoinAbc.Util.Base58
import BitcoinAbc.Lib.Regroup
import BitcoinAbc.Util.StrEncodings
import BitcoinAbc.Lib.Lfsr
import BitcoinAbc.CashAddr.Codec
import BitcoinAbc.CashAddr.Content
import BitcoinAbc.Script.Standard
import BitcoinAbc.Radix.Tree
import BitcoinAbc.Radix.Sharing
import BitcoinAbc.Radix.Steps
import BitcoinAbc.Radix.Leaves
import BitcoinAbc.Radix.Refinement
import BitcoinAbc.BlockFilter.Gcs
import BitcoinAbc.Script.IntMath
import BitcoinAbc.Lib.TreeWalk
import BitcoinAbc.Wallet.CoinSelection
import BitcoinAbc.Wallet.BnBWalk
import BitcoinAbc.Wallet.BnBRefinement
import BitcoinAbc.Wallet.BnBSpec
import BitcoinAbc.Net.MerkleBlock
import BitcoinAbc.Net.MerkleBlockTree
import BitcoinAbc.Net.MerkleBlockSpec
import BitcoinAbc.Net.TxOutProof
import BitcoinAbc.Lib.BitString
import BitcoinAbc.Serialize.BitStream
import BitcoinAbc.Util.GolombRice
import BitcoinAbc.Crypto.SipHash
import BitcoinAbc.BlockFilter.GcsFilter
import BitcoinAbc.BlockFilter.GcsSpec
import BitcoinAbc.BlockFilter.BasicFilter
