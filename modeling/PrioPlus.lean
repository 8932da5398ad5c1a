import PrioPlus.Lib.Dft
import PrioPlus.Lib.CoeffList
import PrioPlus.Lib.WirePass
import PrioPlus.Lib.LinearCheck
import PrioPlus.Lib.Runs
import PrioPlus.Lib.TwoParty
import PrioPlus.Lib.Dual
import PrioPlus.Lib.Rounds
import PrioPlus.Lib.Lockstep
import PrioPlus.Lib.Pool
import PrioPlus.Lib.FirstWins
import PrioPlus.Lib.FlatLoop
import PrioPlus.Lib.WordSum
import PrioPlus.Lib.RippleCarry
import PrioPlus.Lib.Views
import PrioPlus.Lib.CountMin
import PrioPlus.Lib.MultiplyShift
import PrioPlus.Lib.Triangle
import PrioPlus.Lib.XorFold
import PrioPlus.Lib.Memory
import PrioPlus.Lib.Buffers
import PrioPlus.Lib.Bytes
import PrioPlus.Lib.ReturnCode
import PrioPlus.Constants
import PrioPlus.Utils
import PrioPlus.Share.LocalBits
import PrioPlus.Poly.RootTables
import PrioPlus.Poly.Fft
import PrioPlus.Poly.Batch
import PrioPlus.Poly.Once
import PrioPlus.Poly.Tables
import PrioPlus.Poly.Scratch
import PrioPlus.Poly.Interpolant
import PrioPlus.Circuit
import PrioPlus.Circuit.Checks
import PrioPlus.Circuit.SolveLinReg
import PrioPlus.Circuit.Language
import PrioPlus.Snip.SharePolynomials
import PrioPlus.Snip.Checker
import PrioPlus.Snip.Verdict
import PrioPlus.Snip.Completeness
import PrioPlus.Client.Packets
import PrioPlus.Snip.Soundness
import PrioPlus.Snip.WireShares
import PrioPlus.NetShare
import PrioPlus.NetShare.RoundTrip
import PrioPlus.NetShare.Framing
import PrioPlus.NetShare.Scalars
import PrioPlus.NetShare.RecvIn
import PrioPlus.NetShare.Returns
import PrioPlus.Ot
import PrioPlus.Ot.IntSum
import PrioPlus.Ot.Hiding
import PrioPlus.Server.Net
import PrioPlus.Correlated
import PrioPlus.Correlated.Store
import PrioPlus.Ot.BitSum
import PrioPlus.Correlated.Synced
import PrioPlus.Correlated.Triples
import PrioPlus.Correlated.Adder
import PrioPlus.Correlated.Generate
import PrioPlus.Correlated.Convert
import PrioPlus.Server.Common
import PrioPlus.Server.BitSum
import PrioPlus.Client.Xor
import PrioPlus.Server.XorOp
import PrioPlus.Server.MaxOp
import PrioPlus.Server.MaxBounds
import PrioPlus.Server.Accumulate
import PrioPlus.Server.FreqShare
import PrioPlus.Server.BatchCheck
import PrioPlus.Server.Freq
import PrioPlus.Hash
import PrioPlus.Hash.Pairwise
import PrioPlus.Client.Guard
import PrioPlus.Client.Heavy
import PrioPlus.Client.PublicKeys
import PrioPlus.Server.HeavyQuery
import PrioPlus.Server.HeavySearch
import PrioPlus.Server.HeavyDomain
import PrioPlus.Server.HeavyLayout
import PrioPlus.Server.Sketch
import PrioPlus.Server.HonestTable
import PrioPlus.Server.HeavyComplete
import PrioPlus.Server.CountMinComplete
import PrioPlus.Server.Snips
import PrioPlus.Server.SnipOp
import PrioPlus.Server.Var
import PrioPlus.Server.LinReg
import PrioPlus.Server.NoSurvivor
import PrioPlus.Server.ConvertCall
import PrioPlus.Server.IntSum
import PrioPlus.Server.Strides
import PrioPlus.Server.Agreement
import PrioPlus.Server.EvalPoint
import PrioPlus.Server.Script
import PrioPlus.Server.Kinds
import PrioPlus.Server.Duality
import PrioPlus.Server.Accept
import PrioPlus.Server.HonestRun
import PrioPlus.Client.LinReg
import PrioPlus.Server.LinRegHonest
import PrioPlus.Server.LinRegComplete
import PrioPlus.Server.RangeChecks
import PrioPlus.Snip.ZeroKnowledge
import PrioPlus.Lib.UnionBound
import PrioPlus.Snip.Batch
import PrioPlus.Server.SnipSound
import PrioPlus.Correlated.Failures
import PrioPlus.Client.Var
import PrioPlus.Server.VarComplete
import PrioPlus.Lib.LeastSquares
import PrioPlus.Lib.WordRows
import PrioPlus.Server.LeastSquares
import PrioPlus.Server.FreqHistogram
import PrioPlus.Lib.Transcript
import PrioPlus.Lib.XorMask
import PrioPlus.Server.Messages
import PrioPlus.Server.XorPrivacy
import PrioPlus.Server.MaxPrivacy
import PrioPlus.Server.BitSumPrivacy
import PrioPlus.Lib.Collisions
import PrioPlus.Lib.Overestimate
import PrioPlus.Hash.Collisions
import PrioPlus.Server.SketchErrors
import PrioPlus.Lib.OnWire
import PrioPlus.NetShare.Lengths
import PrioPlus.Server.WireFormat
import PrioPlus.Server.OnWire
import PrioPlus.Lib.Sessions
import PrioPlus.Server.Sessions
import PrioPlus.NetShare.Structs
import PrioPlus.Server.Submissions
import PrioPlus.Server.Requests
