import CostBasis.CommandLine
import CostBasis.Main
import CostBasis.Reconciler.Recovery
import CostBasis.Reconciler.Service
import CostBasis.Proofs.Decimal.Exact
import CostBasis.Proofs.Decimal.Fit
import CostBasis.Proofs.Position.Apply
import CostBasis.Proofs.Position.Exact
import CostBasis.Proofs.Position.ExactStep
import CostBasis.Proofs.Position.Tally
import CostBasis.Proofs.Position.Conservation
import CostBasis.Proofs.Position.Amount
import CostBasis.Proofs.Position.Share
import CostBasis.Proofs.Position.Envelope
import CostBasis.Proofs.Position.Bounds
import CostBasis.Proofs.Position.SafeRun
import CostBasis.Proofs.Position.Ideal
import CostBasis.Proofs.Position.Deviation
import CostBasis.Proofs.Position.UnitCost
import CostBasis.Proofs.Position.Exposure
import CostBasis.Proofs.Position.Totals
import CostBasis.Proofs.History.Select
import CostBasis.Proofs.Reconciler.Pending
import CostBasis.Proofs.Reconciler.Step
import CostBasis.Proofs.Reconciler.Task
import CostBasis.Proofs.Reconciler.Run
import CostBasis.Proofs.Reconciler.Shift
import CostBasis.Proofs.Reconciler.Books
import CostBasis.Proofs.Reconciler.Coverage
import CostBasis.Proofs.Reconciler.Leftover
import CostBasis.Proofs.Reconciler.Schedule
import CostBasis.Proofs.Reconciler.EventLog
import CostBasis.Proofs.Reconciler.Drain
import CostBasis.Proofs.Reconciler.Registration
import CostBasis.Proofs.Reconciler.Recovery
import CostBasis.Proofs.Replay.Run
import CostBasis.Proofs.Replay.Checkpoints
import CostBasis.Proofs.Replay.Batching
import CostBasis.Proofs.Replay.Agreement
import CostBasis.Proofs.Replay.RoundTrip
import CostBasis.Proofs.Reconciler.Delivery
import CostBasis.Proofs.Reconciler.Signal
import CostBasis.Proofs.Decimal.TrailingZeros
import CostBasis.Proofs.Decimal.DoubleRounding
import CostBasis.Proofs.Decimal.Sign
import CostBasis.Proofs.Text.Digits
import CostBasis.Proofs.Text.Utf8
import CostBasis.Proofs.Decimal.Text
import CostBasis.Proofs.Position.TrailingZeros
import CostBasis.Proofs.Position.Reversal
import CostBasis.Proofs.Position.AverageCost
import CostBasis.Proofs.Position.Mirror
import CostBasis.Proofs.Replay.Admission
import CostBasis.Proofs.Replay.Division
import CostBasis.Proofs.Report.Totals
import CostBasis.Proofs.Replay.TrailingZeros
import CostBasis.Proofs.Report.TrailingZeros
import CostBasis.Proofs.History.SameSet
import CostBasis.Proofs.History.Contract
import CostBasis.Proofs.History.Paging
import CostBasis.Proofs.Report.Window
import CostBasis.Proofs.Report.Refusal
import CostBasis.Proofs.History.Answers
import CostBasis.Proofs.Reconciler.TrailingZeros
import CostBasis.Proofs.Csv.Lines
import CostBasis.Proofs.Binary64.OfDecimal
import CostBasis.Proofs.Binary64.Shortest
import CostBasis.Proofs.Binary64.Text
import CostBasis.Proofs.Csv.Export
import CostBasis.Proofs.Csv.RowLine
import CostBasis.Proofs.Json.Decimal
import CostBasis.Proofs.Json.Reader
import CostBasis.Proofs.Json.Record
import CostBasis.Proofs.Json.Trade
import CostBasis.Proofs.Config.Currencies
