import DoubleEntry.Account
import DoubleEntry.Amount
import DoubleEntry.Booking.Balance
import DoubleEntry.Booking.Basic
import DoubleEntry.Booking.Interpolation
import DoubleEntry.Booking.Padding
import DoubleEntry.Checked
import DoubleEntry.CommandLine
import DoubleEntry.Cost
import DoubleEntry.Date
import DoubleEntry.Decimal.Arithmetic
import DoubleEntry.Decimal.Basic
import DoubleEntry.Decimal.Rounding
import DoubleEntry.Decimal.Text
import DoubleEntry.Directive
import DoubleEntry.Files.Basic
import DoubleEntry.Files.Path
import DoubleEntry.Files.Snapshot
import DoubleEntry.Files.Tree
import DoubleEntry.Flag
import DoubleEntry.Holdings
import DoubleEntry.Inventory
import DoubleEntry.Journal.Basic
import DoubleEntry.Journal.Entry
import DoubleEntry.Journal.Expression
import DoubleEntry.Journal.Line
import DoubleEntry.Journal.Posting
import DoubleEntry.Journal.SyntaxError
import DoubleEntry.Journal.Value
import DoubleEntry.Ledger
import DoubleEntry.Loading.Basic
import DoubleEntry.Loading.Problem
import DoubleEntry.Loading.Source
import DoubleEntry.Main
import DoubleEntry.Metadata
import DoubleEntry.NumberStyle
import DoubleEntry.Proofs.AccountTable
import DoubleEntry.Proofs.AccountTree
import DoubleEntry.Proofs.AccountUse
import DoubleEntry.Proofs.Booking.Agreement
import DoubleEntry.Proofs.Booking.Completion
import DoubleEntry.Proofs.Booking.OpenPosting
import DoubleEntry.Proofs.Booking.PostingOrder
import DoubleEntry.Proofs.Booking.Refusal
import DoubleEntry.Proofs.Booking.Residual
import DoubleEntry.Proofs.Booking.Reversal
import DoubleEntry.Proofs.Booking.Review
import DoubleEntry.Proofs.Booking.SideBySide
import DoubleEntry.Proofs.Booking.Weights
import DoubleEntry.Proofs.Conservation
import DoubleEntry.Proofs.Decimal.Digits
import DoubleEntry.Proofs.Decimal.Division
import DoubleEntry.Proofs.Decimal.Magnitude
import DoubleEntry.Proofs.Decimal.Nearest
import DoubleEntry.Proofs.Decimal.Places
import DoubleEntry.Proofs.Decimal.Rounding
import DoubleEntry.Proofs.Decimal.Text
import DoubleEntry.Proofs.Decimal.Value
import DoubleEntry.Proofs.Ends
import DoubleEntry.Proofs.Holdings
import DoubleEntry.Proofs.Inclusion
import DoubleEntry.Proofs.Inventory
import DoubleEntry.Proofs.InventoryHistory
import DoubleEntry.Proofs.IterationOrder
import DoubleEntry.Proofs.Journal.Alone
import DoubleEntry.Proofs.Journal.Blanked
import DoubleEntry.Proofs.Journal.BrokenLines
import DoubleEntry.Proofs.Journal.CommodityCodes
import DoubleEntry.Proofs.Journal.Composition
import DoubleEntry.Proofs.Journal.CutFormulas
import DoubleEntry.Proofs.Journal.Expression
import DoubleEntry.Proofs.Journal.Formula
import DoubleEntry.Proofs.Journal.FormulaBlanks
import DoubleEntry.Proofs.Journal.FormulaLayouts
import DoubleEntry.Proofs.Journal.FormulaPlaces
import DoubleEntry.Proofs.Journal.FormulaTexts
import DoubleEntry.Proofs.Journal.JoinedSigns
import DoubleEntry.Proofs.Journal.Lexeme
import DoubleEntry.Proofs.Journal.LineEndings
import DoubleEntry.Proofs.Journal.Lines
import DoubleEntry.Proofs.Journal.Loops
import DoubleEntry.Proofs.Journal.MetadataKeys
import DoubleEntry.Proofs.Journal.MetadataScopes
import DoubleEntry.Proofs.Journal.Moved
import DoubleEntry.Proofs.Journal.NumberTokens
import DoubleEntry.Proofs.Journal.Progress
import DoubleEntry.Proofs.Journal.Pushes
import DoubleEntry.Proofs.Journal.QuotedStrings
import DoubleEntry.Proofs.Journal.Reads
import DoubleEntry.Proofs.Journal.ReadsBlock
import DoubleEntry.Proofs.Journal.ReadsEntry
import DoubleEntry.Proofs.Journal.RelocatedBlock
import DoubleEntry.Proofs.Journal.RelocatedEntry
import DoubleEntry.Proofs.Journal.Scan
import DoubleEntry.Proofs.Journal.Scopes
import DoubleEntry.Proofs.Journal.Spans
import DoubleEntry.Proofs.Journal.Statements
import DoubleEntry.Proofs.Journal.TagScopes
import DoubleEntry.Proofs.Journal.Tiling
import DoubleEntry.Proofs.Journal.TransactionTexts
import DoubleEntry.Proofs.Journal.Transactions
import DoubleEntry.Proofs.Journal.WrittenNumbers
import DoubleEntry.Proofs.Lifetimes
import DoubleEntry.Proofs.LoadOrder
import DoubleEntry.Proofs.Located
import DoubleEntry.Proofs.NoOverflow
import DoubleEntry.Proofs.NumberStyle
import DoubleEntry.Proofs.Operations
import DoubleEntry.Proofs.Order
import DoubleEntry.Proofs.Padding.Assertion
import DoubleEntry.Proofs.Padding.Fillings
import DoubleEntry.Proofs.Padding.Frame
import DoubleEntry.Proofs.Padding.Measure
import DoubleEntry.Proofs.Padding.Place
import DoubleEntry.Proofs.Padding.Run
import DoubleEntry.Proofs.Padding.Unused
import DoubleEntry.Proofs.Positions
import DoubleEntry.Proofs.PostingLines
import DoubleEntry.Proofs.Printed.Costs
import DoubleEntry.Proofs.Printed.Formatted
import DoubleEntry.Proofs.Printed.Layout
import DoubleEntry.Proofs.Printed.Lexemes
import DoubleEntry.Proofs.Printed.Numerals
import DoubleEntry.Proofs.Printed.Reading
import DoubleEntry.Proofs.Printed.Same
import DoubleEntry.Proofs.Printed.Transactions
import DoubleEntry.Proofs.Printed.Words
import DoubleEntry.Proofs.Printed.Written
import DoubleEntry.Proofs.Realized
import DoubleEntry.Proofs.Report.Balances
import DoubleEntry.Proofs.Report.Decoding
import DoubleEntry.Proofs.Report.JsonReader
import DoubleEntry.Proofs.Report.Walk
import DoubleEntry.Proofs.Sample
import DoubleEntry.Proofs.Settings
import DoubleEntry.Proofs.StartOfDay
import DoubleEntry.Proofs.Subtree
import DoubleEntry.Proofs.Summary.FilledIn
import DoubleEntry.Proofs.Summary.LastLives
import DoubleEntry.Proofs.Summary.Parts
import DoubleEntry.Proofs.Summary.Words
import DoubleEntry.Proofs.Tolerance
import DoubleEntry.Proofs.Traversal
import DoubleEntry.Proofs.Validation
import DoubleEntry.Proofs.WrittenAmounts
import DoubleEntry.Report.Balances
import DoubleEntry.Report.Basic
import DoubleEntry.Report.JsonValue
import DoubleEntry.Settings
import DoubleEntry.Summary.AutomaticAmounts
import DoubleEntry.Summary.Basic
import DoubleEntry.Summary.Flagged
import DoubleEntry.Summary.Registry
import DoubleEntry.Summary.Vocabulary
import DoubleEntry.Token.Basic
import DoubleEntry.Token.Lexer
import DoubleEntry.Transaction
import DoubleEntry.Unicode.Case
import DoubleEntry.Unicode.Category
import DoubleEntry.Unicode.Space
import DoubleEntry.Validation.Basic
import DoubleEntry.Validation.Problem
