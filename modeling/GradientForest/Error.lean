import GradientForest.Decimal.Literal

/-!
# Errors

What can go wrong, kept as causes.  An `Error` has one constructor per
category, and most categories have an inductive type of their own for what
happened.  The wording lives in the `message` functions alone.

Each family ends in a constructor for a cause given as free text.
-/

namespace GradientForest

/-- What can be wrong with settings and their files. -/
inductive SettingsFault where
  /-- A word that names no task. -/
  | unknownTask (word : String)
  /-- A value that cannot be read as the kind of value its key needs. -/
  | unreadableValue (key value : String)
  /-- A settings file that is neither JSON nor TOML by its name. -/
  | unsupportedFile
  /-- A settings file that is missing or not text. -/
  | unreadableFile
  /-- A text that is not a TOML document of settings. -/
  | malformedToml
  /-- A count that TOML cannot hold. -/
  | unwritableToml
  /-- Another cause. -/
  | other (text : String)
deriving DecidableEq, Repr

/-- What can be wrong with training data. -/
inductive DatasetFault where
  /-- There are no rows. -/
  | empty
  /-- Features and labels have different numbers of rows. -/
  | rowMismatch (features labels : Nat)
  /-- The label matrix does not have one column. -/
  | labelColumns (columns : Nat)
  /-- There are more or fewer feature kinds than columns. -/
  | catalogLength (expected actual : Nat)
  /-- A categorical column holds something other than 0 and 1. -/
  | nonIndicator (column : Nat) (value : String)
  /-- A named column is absent. -/
  | missingColumn (name : String)
  /-- A field of a data file is not a number. -/
  | unreadableField (field : String) (row : Nat) (column : String)
  /-- A regression label is undefined or infinite. -/
  | nonFiniteLabel
  /-- There are more rows or columns than positions can count. -/
  | tooLarge (rows columns : Nat)
  /-- Another cause. -/
  | other (text : String)
deriving DecidableEq, Repr

/-- Which sizes disagree. -/
inductive DimensionFault where
  /-- Residuals or hessians do not match the rows. -/
  | gradients (rows residuals hessians : Nat)
  /-- A split tests a feature beyond the row.  `needed` is the number of
  features that would be enough, as far as it is a word. -/
  | features (needed : UInt64) (available : Nat)
  /-- A table of nodes does not have six rows and a column. -/
  | nodeTable (rows columns : Nat)
  /-- Another pair of sizes. -/
  | other (expected actual : String)
deriving DecidableEq, Repr

/-- What can be wrong with the shape of a tree. -/
inductive TreeFault where
  /-- There are no nodes. -/
  | noNodes (treeId : UInt64)
  /-- The first node is not the root. -/
  | notRooted (treeId firstId : UInt64)
  /-- A node belongs to another tree. -/
  | foreignNode (nodeId treeId expected : UInt64)
  /-- The children would lie outside the table. -/
  | childrenOutside (nodeId : UInt64) (column : Nat) (offset : UInt64) (size : Nat)
  /-- The nodes at the children's columns are not the children. -/
  | notItsChildren (nodeId : UInt64)
  /-- Another cause. -/
  | other (text : String)
deriving DecidableEq, Repr

/-- How a walk through a tree can fail. -/
inductive WalkFault where
  /-- The walk left the table. -/
  | noColumn (treeId column : UInt64)
  /-- The walk met a split without children. -/
  | childless (nodeId treeId : UInt64)
  /-- The walk did not end. -/
  | noLeaf (treeId : UInt64)
  /-- Another cause. -/
  | other (text : String)
deriving DecidableEq, Repr

/-- What can be wrong with a stored model. -/
inductive FormatFault where
  /-- A record does not have six fields. -/
  | fieldCount (count : Nat)
  /-- A record has node id zero. -/
  | zeroId
  /-- A field is not a natural number that is exact in binary64. -/
  | notInteger (field value : String)
  /-- A leaf has a feature or children. -/
  | leafFields (nodeId : UInt64)
  /-- A split has no feature or no children. -/
  | splitFields (nodeId : UInt64)
  /-- A kind code is unknown. -/
  | kindCode (code nodeId : UInt64)
  /-- A column of a table is not a node record. -/
  | inColumn (column : Nat) (cause : FormatFault)
  /-- A node stands before the first root. -/
  | beforeRoot (column : Nat) (nodeId : UInt64)
  /-- A field of a table text is not a number. -/
  | tableValue (field : String) (cause : NumberFault)
  /-- The starting prediction is undefined or infinite. -/
  | nonFiniteBias (value : String)
  /-- A file name tells no model format. -/
  | unknownFormat (path : String)
  /-- Another cause. -/
  | other (text : String)
deriving DecidableEq, Repr

/-- What can be wrong with delimited text. -/
inductive CsvFault where
  /-- A record does not have as many fields as the first one.  The position is
  the number of the record, its line from 1 and its byte. -/
  | unequalLengths (record line byte found expected : Nat)
  /-- A field is not UTF-8. -/
  | notUtf8
deriving DecidableEq, Repr

/-- Everything that can go wrong, by category. -/
inductive Error where
  /-- Settings or a settings file. -/
  | settings (cause : SettingsFault)
  /-- Training data. -/
  | dataset (cause : DatasetFault)
  /-- Sizes that disagree. -/
  | dimensions (cause : DimensionFault)
  /-- A parameter out of its range. -/
  | parameter (name value reason : String)
  /-- A feature value that a split cannot route. -/
  | featureValue (feature : UInt64) (value reason : String)
  /-- The shape of a tree. -/
  | tree (cause : TreeFault)
  /-- A walk through a tree. -/
  | walk (cause : WalkFault)
  /-- A stored model. -/
  | format (cause : FormatFault)
  /-- A file that cannot be opened. -/
  | file (text : String)
  /-- Delimited text. -/
  | csv (cause : CsvFault)
  /-- A JSON document. -/
  | json
  /-- A binary document. -/
  | binary
  /-- Worker threads. -/
  | threads (text : String)
  /-- A column or a node number left the 64-bit words.  A run ends there. -/
  | overflow
deriving DecidableEq, Repr

namespace SettingsFault

/-- The wording of a fault. -/
def message : SettingsFault → String
  | .unknownTask word => s!"Invalid mode: {word}"
  | .unreadableValue key value => s!"Invalid {key}: {value}"
  | .unsupportedFile => "Unsupported config file format. Use .json or .toml"
  | .unreadableFile => "Failed to read config file"
  | .malformedToml => "Failed to parse TOML config"
  | .unwritableToml => "Failed to serialize TOML config"
  | .other text => text

end SettingsFault

namespace DatasetFault

/-- The wording of a fault. -/
def message : DatasetFault → String
  | .empty => "Empty dataset provided"
  | .rowMismatch features labels =>
    s!"Row count mismatch: features have {features} rows, labels have {labels}"
  | .labelColumns columns => s!"Label matrix must have exactly one column, got {columns}"
  | .catalogLength expected actual =>
    s!"Feature type vector has {actual} entries, matrix has {expected} columns"
  | .nonIndicator column value =>
    s!"Categorical feature {column} has value {value} outside " ++ "\x7b0, 1\x7d"
  | .missingColumn name => s!"Column '{name}' not found"
  | .unreadableField field row column =>
    s!"Unparseable value '{field}' at row {row}, column '{column}'"
  | .nonFiniteLabel => "regression labels must be finite"
  | .tooLarge rows columns => s!"{rows} rows and {columns} columns are too many"
  | .other text => text

end DatasetFault

namespace DimensionFault

/-- The wording of a fault: what was expected and what was found. -/
def message : DimensionFault → String
  | .gradients rows residuals hessians =>
    s!"expected {rows} residuals and hessians, got {residuals} residuals, {hessians} hessians"
  | .features needed available =>
    s!"expected at least {needed} features, got {available} features"
  | .nodeTable rows columns =>
    s!"expected 6 rows and at least 1 column, got {rows} rows and {columns} columns"
  | .other expected actual => s!"expected {expected}, got {actual}"

end DimensionFault

namespace TreeFault

/-- The wording of a fault. -/
def message : TreeFault → String
  | .noNodes treeId => s!"tree {treeId} has no nodes"
  | .notRooted treeId firstId =>
    s!"tree {treeId} does not start at the root (first id {firstId})"
  | .foreignNode nodeId treeId expected =>
    s!"node {nodeId} belongs to tree {treeId}, expected {expected}"
  | .childrenOutside nodeId column offset size =>
    s!"node {nodeId} at column {column} has child offset {offset} outside a {size}-node tree"
  | .notItsChildren nodeId => s!"node {nodeId} does not point at its children"
  | .other text => text

end TreeFault

namespace WalkFault

/-- The wording of a fault. -/
def message : WalkFault → String
  | .noColumn treeId column => s!"tree {treeId} has no column {column}"
  | .childless nodeId treeId => s!"split node {nodeId} in tree {treeId} has no children"
  | .noLeaf treeId => s!"traversal of tree {treeId} did not reach a leaf"
  | .other text => text

end WalkFault

namespace FormatFault

/-- What a stored model's fault is announced with. -/
def heading : String := "Serialization error: "

/-- The wording of a fault. -/
def message : FormatFault → String
  | .fieldCount count => s!"node record has {count} fields, expected 6"
  | .zeroId => "node_id must be at least 1"
  | .notInteger field value => s!"{field} must be a non-negative integer, got {value}"
  | .leafFields nodeId => s!"leaf node {nodeId} carries a feature index or child offset"
  | .splitFields nodeId => s!"split node {nodeId} lacks a feature index or child offset"
  | .kindCode code nodeId => s!"unknown feature_type_code {code} on node {nodeId}"
  | .inColumn column cause => s!"column {column}: " ++ heading ++ cause.message
  | .beforeRoot column nodeId => s!"column {column} holds node {nodeId} before any root"
  | .tableValue field cause => s!"invalid table value '{field}': " ++ cause.message
  | .nonFiniteBias value => s!"non-finite bias {value}"
  | .unknownFormat path =>
    s!"Cannot detect model format of {path}; use .json, .bin or .bincode"
  | .other text => text

end FormatFault

namespace CsvFault

/-- The wording of a fault. -/
def message : CsvFault → String
  | .unequalLengths record line byte found expected =>
    s!"CSV error: record {record} (line: {line}, byte: {byte}): found record with {found} " ++
      s!"fields, but the previous record has {expected} fields"
  | .notUtf8 => "CSV error: a field is not UTF-8"

end CsvFault

namespace Error

/-- A file or folder that is not there. -/
def notFound : Error := .file "No such file or directory (os error 2)"

/-- The name of the category of an error. -/
def category : Error → String
  | .settings _ => "config"
  | .dataset _ => "dataset"
  | .dimensions _ => "dimension_mismatch"
  | .parameter .. => "invalid_parameter"
  | .featureValue .. => "invalid_feature_value"
  | .tree _ => "tree_construction"
  | .walk _ => "prediction"
  | .format _ => "serialization"
  | .file _ => "io"
  | .csv _ => "csv"
  | .json => "json"
  | .binary => "bincode"
  | .threads _ => "threading"
  | .overflow => "panic"

/-- An error is recoverable when another tree, row or pool may do better. -/
def recoverable : Error → Bool
  | .tree _ | .walk _ | .threads _ => true
  | _ => false

/-- The wording of an error. -/
def message : Error → String
  | .settings cause => "Configuration error: " ++ cause.message
  | .dataset cause => "Dataset error: " ++ cause.message
  | .dimensions cause => "Dimension mismatch: " ++ cause.message
  | .parameter name value reason => s!"Invalid parameter: {name} = {value}, {reason}"
  | .featureValue feature value reason =>
    s!"Invalid value {value} for feature {feature}: {reason}"
  | .tree cause => "Tree construction error: " ++ cause.message
  | .walk cause => "Prediction error: " ++ cause.message
  | .format cause => FormatFault.heading ++ cause.message
  | .file text => "I/O error: " ++ text
  | .csv cause => "CSV parsing error: " ++ cause.message
  | .json => "JSON error: not the expected document"
  | .binary => "Bincode error: not the expected document"
  | .threads text => "Threading error: " ++ text
  | .overflow => "a column or a node number overflows"

/-- Whether the wording of an error is settled.  Faults of whole documents and
files are told by their category alone. -/
def hasMessage : Error → Bool
  | .file _ | .json | .binary | .csv .notUtf8 | .overflow => false
  | _ => true

end Error

end GradientForest
