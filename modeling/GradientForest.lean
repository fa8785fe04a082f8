import GradientForest.Binary64.Arithmetic
import GradientForest.Binary64.Basic
import GradientForest.Binary64.Order
import GradientForest.Binary64.Rounding
import GradientForest.Binary64.Units
import GradientForest.Data.Catalog
import GradientForest.Data.Csv
import GradientForest.Data.Dataset
import GradientForest.Data.Matrix
import GradientForest.Data.Task
import GradientForest.Decimal.Layout
import GradientForest.Decimal.Literal
import GradientForest.Decimal.Shortest
import GradientForest.Error
import GradientForest.Forest.Agreement
import GradientForest.Forest.Basic
import GradientForest.Forest.Binary
import GradientForest.Forest.File
import GradientForest.Forest.History
import GradientForest.Forest.Json
import GradientForest.Forest.Metrics
import GradientForest.Forest.Objective
import GradientForest.Forest.Table
import GradientForest.Forest.TableText
import GradientForest.Forest.Training
import GradientForest.Format.Csv
import GradientForest.Format.Json.Reader
import GradientForest.Format.Json.Value
import GradientForest.Format.Json.Writer
import GradientForest.Format.LittleEndian
import GradientForest.Format.Toml.Document
import GradientForest.Format.Toml.Lexer
import GradientForest.Format.Toml.Value
import GradientForest.Proofs.Binary64.Nearest
import GradientForest.Proofs.Binary64.SignedZeros
import GradientForest.Proofs.Binary64.Whole
import GradientForest.Proofs.Decimal.ReadBack
import GradientForest.Proofs.Forest.Assembly
import GradientForest.Proofs.Forest.BinaryRoundTrip
import GradientForest.Proofs.Forest.JsonRoundTrip
import GradientForest.Proofs.Forest.ModelFile
import GradientForest.Proofs.Forest.TableRewriting
import GradientForest.Proofs.Forest.TableRoundTrip
import GradientForest.Proofs.Format.Json.Document
import GradientForest.Proofs.Format.Json.Number
import GradientForest.Proofs.Format.LittleEndian
import GradientForest.Proofs.Growth.Expansion
import GradientForest.Proofs.Growth.FullBinary
import GradientForest.Proofs.Growth.LeafValues
import GradientForest.Proofs.Growth.OneByOne
import GradientForest.Proofs.Growth.Partition
import GradientForest.Proofs.Growth.Placement
import GradientForest.Proofs.Growth.Routing
import GradientForest.Proofs.Growth.RowOrder
import GradientForest.Proofs.Growth.Size
import GradientForest.Proofs.Growth.Walk
import GradientForest.Proofs.Outcome
import GradientForest.Proofs.Scalar.Exact
import GradientForest.Proofs.Scalar.Median
import GradientForest.Proofs.Scalar.Multiples
import GradientForest.Proofs.Scalar.Ordered
import GradientForest.Proofs.Scalar.SignedZeros
import GradientForest.Proofs.Scalar.Sorted
import GradientForest.Proofs.Split.AddedColumn
import GradientForest.Proofs.Split.Exhaustive
import GradientForest.Proofs.Split.Multiples
import GradientForest.Proofs.Split.Ranking
import GradientForest.Proofs.Split.Rational
import GradientForest.Proofs.Split.RowOrder
import GradientForest.Proofs.Split.Scan
import GradientForest.Proofs.Split.SignedZeros
import GradientForest.Proofs.Text.Utf8
import GradientForest.Proofs.Training.AddedColumn
import GradientForest.Proofs.Training.AffineLabels
import GradientForest.Proofs.Training.Majority
import GradientForest.Proofs.Training.Rational
import GradientForest.Proofs.Training.Replay
import GradientForest.Proofs.Training.Rounds
import GradientForest.Proofs.Training.RowOrder
import GradientForest.Proofs.Training.Saved
import GradientForest.Proofs.Training.SquaredError
import GradientForest.Proofs.Training.Success
import GradientForest.Proofs.Tree.Layout
import GradientForest.Proofs.Tree.Nested
import GradientForest.Proofs.Tree.NodeNumber
import GradientForest.Proofs.Tree.Record
import GradientForest.Proofs.Tree.Trail
import GradientForest.Proofs.Tree.Traversal
import GradientForest.Proofs.Tree.Validation
import GradientForest.Scalar.Basic
import GradientForest.Scalar.Binary64
import GradientForest.Scalar.Exact
import GradientForest.Scalar.Sorting
import GradientForest.Scalar.Sorting.Blocks
import GradientForest.Scalar.Sorting.Partition
import GradientForest.Scalar.Sorting.Runs
import GradientForest.Scalar.Statistics
import GradientForest.Settings.Basic
import GradientForest.Settings.Environment
import GradientForest.Settings.File
import GradientForest.Settings.KeyValue
import GradientForest.Split.Ranking
import GradientForest.Split.Score
import GradientForest.Split.Search
import GradientForest.Split.Threshold
import GradientForest.Text.Blank
import GradientForest.Text.FileName
import GradientForest.Text.Utf8
import GradientForest.Tree.Basic
import GradientForest.Tree.Frontier
import GradientForest.Tree.Growth
import GradientForest.Tree.Mask
import GradientForest.Tree.Node
import GradientForest.Tree.Record
import GradientForest.Tree.Text
import GradientForest.Tree.Walk
import GradientForest.Proofs.Binary64.Levels
import GradientForest.Proofs.Binary64.Midpoint
import GradientForest.Proofs.Split.Separation
import GradientForest.Proofs.Split.Selection
import GradientForest.Proofs.Split.LeastSquares
import GradientForest.Proofs.Growth.Objective
import GradientForest.Proofs.Tree.RoundedRecord
import GradientForest.Proofs.Forest.AcceptedTrees
import GradientForest.Proofs.Forest.TableText
import GradientForest.Proofs.Forest.Truncation
import GradientForest.Proofs.Forest.RankSum
import GradientForest.Proofs.Forest.MissingValue
import GradientForest.Proofs.Data.CsvColumns
import GradientForest.Proofs.Settings.Environment
import GradientForest.Proofs.Settings.File
import GradientForest.Proofs.Settings.KeyValue
import GradientForest.Proofs.Forest.BestRound
import GradientForest.Proofs.Binary64.Average
import GradientForest.Proofs.Training.CentralLabels
import GradientForest.Proofs.Split.Reduction
import GradientForest.Proofs.Tree.Partitions
