import SuperNet.Lib.IntervalCoding
import SuperNet.Lib.Words
import SuperNet.Utils.Huffstream
import SuperNet.Utils.Ramcoder
import SuperNet.Utils.RamcoderRenorm
import SuperNet.Utils.RamcoderTable
import SuperNet.Utils.RamcoderRoundTrip
import SuperNet.Coins.Cointx
import SuperNet.Coins.CointxScan
import SuperNet.Coins.CointxRoundTrip
import SuperNet.Coins.CointxSafety
import SuperNet.Games.Pangea
import SuperNet.Games.PangeaPots
import SuperNet.Games.PangeaBet
import SuperNet.Games.PangeaPayout
import SuperNet.Games.PangeaSidepots
import SuperNet.Games.PangeaRake
import SuperNet.Games.PangeaChips
import SuperNet.Games.PangeaConservation
import SuperNet.Games.PangeaFairBet
import SuperNet.Games.PangeaRound
import SuperNet.Games.PangeaAntes
import SuperNet.Games.PangeaClosure
import SuperNet.Games.PangeaRakeCap
import SuperNet.Lib.BitCodec
import SuperNet.Utils.HuffstreamBits
import SuperNet.Peggy.Serdes777
import SuperNet.Peggy.Serdes777Tx
import SuperNet.Peggy.Serdes777Fields
import SuperNet.Peggy.Serdes777Records
import SuperNet.Peggy.Serdes777Walk
import SuperNet.Peggy.Serdes777Stream
import SuperNet.Peggy.Serdes777RoundTrip
import SuperNet.Common.Hostnet777
import SuperNet.Games.PangeaZbuf
import SuperNet.Games.PangeaSummary
import SuperNet.Lib.LogField
import SuperNet.Lib.Sharing
import SuperNet.Utils.Libgfshare
import SuperNet.Utils.LibgfshareField
import SuperNet.Games.Cards777
import SuperNet.Peggy.Serdes777Cosign
import SuperNet.Utils.Bits777
import SuperNet.Lib.RecordLog
import SuperNet.KV.Kv777
import SuperNet.KV.Kv777Init
import SuperNet.KV.Kv777Durable
import SuperNet.Lib.SwapRemove
import SuperNet.Peggy.Accts777
import SuperNet.Peggy.Peggy777
import SuperNet.Peggy.PeggyBank
import SuperNet.Peggy.PeggyReserves
import SuperNet.Peggy.PeggyLiability
import SuperNet.Peggy.PeggyDeposits
import SuperNet.Peggy.Peggytx
import SuperNet.Peggy.PeggytxSend
import SuperNet.Peggy.PeggytxAtomic
import SuperNet.Lib.Flows
import SuperNet.Peggy.PeggytxValue
import SuperNet.Games.Cards777Deal
import SuperNet.Lib.Radix
import SuperNet.Utils.NXT777
import SuperNet.Utils.SaM
import SuperNet.Common.Txnet777
import SuperNet.Common.Txnet777Sig
import SuperNet.Common.Txnet777Keys
import SuperNet.Common.Hostnet777Register
import SuperNet.Games.PangeaSeats
import SuperNet.Lib.Mutex
import SuperNet.KV.KvLocks
import SuperNet.Agents.Shuffle777Validate
import SuperNet.Agents.Shuffle777Ring
import SuperNet.Utils.HuffPatterns
import SuperNet.Utils.HuffCodes
import SuperNet.Utils.Huffcompress
import SuperNet.Utils.HuffRoundTrip
import SuperNet.Common.Txnet777Weights
import SuperNet.Mgw.MgwStatus
import SuperNet.Mgw.MgwDeposits
import SuperNet.Mgw.AssetTransfers
import SuperNet.Mgw.MgwOpreturn
import SuperNet.Mgw.MgwWithdraw
import SuperNet.Coins.Coin777
import SuperNet.Coins.Coin777Add
import SuperNet.Coins.Coin777Addrtx
import SuperNet.Coins.Coin777Book
import SuperNet.Coins.Coin777Bsearch
import SuperNet.Coins.Coin777Ledger
import SuperNet.Coins.Coin777Scripts
import SuperNet.Coins.Coin777Runs
import SuperNet.Utils.Vsha256
import SuperNet.Coins.Coin777Replay
import SuperNet.Mgw.MgwRedeem
import SuperNet.Mgw.MgwUnspentmap
import SuperNet.InstantDEX.Quotes
import SuperNet.Lib.Masks
import SuperNet.Games.Poker
import SuperNet.Games.PokerKinds
import SuperNet.Games.PokerBest
import SuperNet.Peggy.PeggyConsensus
import SuperNet.Peggy.PeggytxTune
import SuperNet.KV.Dkv777
import SuperNet.Common.Hostnet777Message
import SuperNet.Common.Txind777
import SuperNet.Common.Txind777Restart
import SuperNet.Common.Opreturn777
import SuperNet.Common.Opreturn777Entries
import SuperNet.Common.Opreturn777Lookback
import SuperNet.InstantDEX.PendingSwaps
import SuperNet.Peggy.PeggyClone
import SuperNet.InstantDEX.Subatomic
import SuperNet.InstantDEX.SwapFunc
import SuperNet.Games.PokerWords
import SuperNet.Games.PokerStraights
import SuperNet.Games.PokerFlush
import SuperNet.Games.PokerFive
import SuperNet.Games.PokerEvaluators
import SuperNet.Games.Holdem
import SuperNet.Games.PokerRanking
import SuperNet.Games.PokerCardstr
import SuperNet.Agents.Shuffle777Cointx
import SuperNet.Lib.TopSets
import SuperNet.Mgw.MgwInputs
import SuperNet.Games.PangeaDispsummary
import SuperNet.Games.PangeaSufficient
import SuperNet.Peggy.PeggyEarly
import SuperNet.Peggy.Accts777Match
import SuperNet.Peggy.PeggyLock
import SuperNet.Lib.Shares
import SuperNet.Peggy.PeggyGamblers
import SuperNet.Lib.Averages
import SuperNet.Peggy.PeggyValuation
import SuperNet.Peggy.Quotes777
import SuperNet.Peggy.PeggySmoothing
import SuperNet.Utils.LibgfshareSharenrs
import SuperNet.Agents.Shuffle777Strings
import SuperNet.Lib.Packing
import SuperNet.Utils.SaMNonce
import SuperNet.Utils.NumberSets
import SuperNet.KV.Ramkv777
import SuperNet.Games.Tourney777
import SuperNet.Games.Cards777Shuffle
import SuperNet.Utils.HuffstreamValues
import SuperNet.Peggy.Serdes777Numbers
import SuperNet.InstantDEX.Substr128
import SuperNet.InstantDEX.SubatomicFunding
import SuperNet.Utils.RamcoderInvariant
import SuperNet.Utils.Utils777
import SuperNet.Lib.Primality
import SuperNet.Lib.MontgomeryCurve
import SuperNet.Lib.MontgomeryLadder
import SuperNet.Utils.Curve25519Prime
import SuperNet.Utils.Curve25519Limbs
import SuperNet.Utils.Curve25519
import SuperNet.Utils.Curve25519Ladder
import SuperNet.Lib.IteratedHash
import SuperNet.Lib.Sha256
import SuperNet.Utils.Vsha256Compress
import SuperNet.Utils.Vsha256Standard
import SuperNet.Lib.ReedSolomon
import SuperNet.Games.Cards777Secrecy
import SuperNet.Lib.Decimal
import SuperNet.Utils.CJSON
import SuperNet.Utils.CJSONRoundTrip
