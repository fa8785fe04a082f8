import GradientForest.Error

/-!
# Feature kinds

Every column of a feature matrix is either scalar or a categorical indicator.
A `Catalog` lists the kinds in column order.  Columns beyond its end read as
scalar.
-/

namespace GradientForest

/-- How a column is split. -/
inductive FeatureKind where
  /-- Ordered numbers, split at a threshold. -/
  | scalar
  /-- An indicator of 0 and 1, split on equality with 1. -/
  | categorical
deriving DecidableEq, Repr, Inhabited

/-- The name of a feature kind. -/
def FeatureKind.name : FeatureKind → String
  | .scalar => "scalar"
  | .categorical => "categorical"

/-- The feature kind with exactly this name. -/
def FeatureKind.ofName? (s : String) : Option FeatureKind :=
  if s = "scalar" then some .scalar
  else if s = "categorical" then some .categorical
  else none

/-- The kinds of all columns, in order. -/
structure Catalog where
  /-- The kinds. -/
  kinds : List FeatureKind
deriving DecidableEq, Repr

namespace Catalog

/-- A catalog of scalar columns. -/
def allScalar (n : Nat) : Catalog := ⟨List.replicate n .scalar⟩

/-- A catalog whose listed columns are categorical and whose other columns are
scalar.  Positions beyond the end are ignored. -/
def withCategorical (n : Nat) (categorical : List Nat) : Catalog :=
  ⟨categorical.foldl (fun kinds j => kinds.set j .categorical) (List.replicate n .scalar)⟩

/-- The kind of a column. -/
def kind (c : Catalog) (j : Nat) : FeatureKind := c.kinds.getD j .scalar

/-- The number of columns. -/
def length (c : Catalog) : Nat := c.kinds.length

/-- Whether there are no columns. -/
def isEmpty (c : Catalog) : Bool := c.kinds.isEmpty

/-- The positions of the categorical columns, in ascending order. -/
def categorical (c : Catalog) : List Nat :=
  (List.range c.length).filter fun j => c.kind j = .categorical

/-- Fails unless the catalog has exactly `n` columns. -/
def checkLength (c : Catalog) (n : Nat) : Except Error Unit :=
  if c.length = n then .ok () else .error (.dataset (.catalogLength n c.length))

end Catalog

end GradientForest
