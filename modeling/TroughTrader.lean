import TroughTrader.Record.JsonForms
import TroughTrader.Settings.Document
import TroughTrader.Trade.Description
import TroughTrader.Trade.Run
import TroughTrader.Proofs.Binary64.Lesser
import TroughTrader.Proofs.Market.Agreement
import TroughTrader.Proofs.Trade.Flight
import TroughTrader.Proofs.Trade.Spacing
import TroughTrader.Proofs.Trade.Desk
import TroughTrader.Proofs.Trade.Refinement
import TroughTrader.Proofs.Trade.Idle
import TroughTrader.Proofs.Trade.Remainder
import TroughTrader.Proofs.Trade.Stages
import TroughTrader.Proofs.Trade.Feed
import TroughTrader.Proofs.Trade.Stake
import TroughTrader.Proofs.Trade.Rollback
import TroughTrader.Proofs.Trade.Audit
import TroughTrader.Proofs.Trade.Independence
import TroughTrader.Proofs.Market.Detection
import TroughTrader.Proofs.Binary64.Value
import TroughTrader.Proofs.Settings.Ranges
import TroughTrader.Proofs.Trade.Relabelling
import TroughTrader.Proofs.Market.Checked
import TroughTrader.Proofs.Trade.Checked
import TroughTrader.Proofs.Binary64.Rounding
import TroughTrader.Proofs.Decimal.Written
import TroughTrader.Proofs.Json.Scan
import TroughTrader.Proofs.Json.ReadBack
import TroughTrader.Proofs.Calendar.Written
import TroughTrader.Proofs.Record.Fields
import TroughTrader.Proofs.Record.Records
import TroughTrader.Proofs.Market.Locality
import TroughTrader.Proofs.Sizing.Units
import TroughTrader.Proofs.Sizing.Spent
import TroughTrader.Proofs.Sizing.Growth
import TroughTrader.Proofs.Binary64.Sums
import TroughTrader.Proofs.Market.Warmup
import TroughTrader.Proofs.Market.Blocks
import TroughTrader.Proofs.Settings.Canonical
import TroughTrader.Proofs.Toml.Words
import TroughTrader.Proofs.Toml.Lines
import TroughTrader.Proofs.Settings.Given
