import ProofBook.Lib.Runs
import ProofBook.Lib.Totals
import ProofBook.Lib.ProRata
import ProofBook.Lib.Checked
import ProofBook.Lib.TokenLedger
import ProofBook.Lib.Merkle
import ProofBook.Lib.Coverage
import ProofBook.Addresses
import ProofBook.OracleWire
import ProofBook.State
import ProofBook.PayoutMath
import ProofBook.OracleAdapter
import ProofBook.Chain
import ProofBook.Instructions.Betting
import ProofBook.Instructions.Settlement
import ProofBook.Instructions.Payments
import ProofBook.Instructions.PropVaults
import ProofBook.Program
import ProofBook.Steps
import ProofBook.StepCases
import ProofBook.Solvency
import ProofBook.MarketRuns
import ProofBook.WinnerPayouts
import ProofBook.Lifecycle
import ProofBook.ComboRule
import ProofBook.Escrow
import ProofBook.Liveness
import ProofBook.MockOracle
import ProofBook.OracleSound
import ProofBook.Binding
import ProofBook.Settleable
import ProofBook.Mirror
import ProofBook.VerifierSound
import ProofBook.CoverageChecks
import ProofBook.Positions
import ProofBook.Leader
import ProofBook.Faucet
import ProofBook.PgStore
import ProofBook.Lib.WriteBehind
import ProofBook.WriteThrough
import ProofBook.ProvenScores
import ProofBook.TwoWriters
import ProofBook.Backstop
import ProofBook.Finalisation
import ProofBook.StreamGaps
import ProofBook.Multiproof
import ProofBook.ReceiptDay
import ProofBook.Lib.Binary64
import ProofBook.Lib.Tiling
import ProofBook.Catalogue
import ProofBook.CatalogueSound
import ProofBook.ClaimedOutcome
import ProofBook.Lib.Components
import ProofBook.Standings
import ProofBook.GroupTables
import ProofBook.StandingsFaithful
import ProofBook.Feed
import ProofBook.Lib.Layout
import ProofBook.AccountsFit
import ProofBook.Projection
import ProofBook.SettledReceipts
import ProofBook.ReceiptRows
import ProofBook.MultiproofLoop
import ProofBook.InFlight
import ProofBook.Theater
import ProofBook.MarketPages
import ProofBook.RpcProxy
import ProofBook.Keys
import ProofBook.EventLog
import ProofBook.AuditTrail
import ProofBook.Returns
import ProofBook.Agreement
import ProofBook.CatalogueCheck
import ProofBook.V3Proof
import ProofBook.ScoresStream
import ProofBook.MatchWinner
import ProofBook.JsonStore
import ProofBook.StandingsPage
import ProofBook.BracketPage
import ProofBook.Seeding
import ProofBook.Staking
import ProofBook.WritersInOrder
