import GradientForest.Decimal.Layout
import GradientForest.Tree.Basic

/-!
# Trees as text

One line per node, indented by its level.  Numbers are shown with six places.
-/

namespace GradientForest

/-- A node in one line. -/
def Node.describe (n : Node Binary64) : String :=
  match n.kind with
  | .leaf value => s!"Leaf(id={n.id}, value=" ++ Layout.fixedSix value ++ ")"
  | .scalar feature threshold =>
    s!"Split(id={n.id}, x[{feature}] < " ++ Layout.fixedSix threshold ++
      s!", offset={n.childOffset})"
  | .categorical feature => s!"Split(id={n.id}, x[{feature}] == 1, offset={n.childOffset})"

/-- A tree, one node per line below a heading.  The subtraction stops at 0: a node with
the number 0, which stands on no level, is not indented. -/
def Tree.describe (t : Tree Binary64) : String :=
  let heading := s!"Tree {t.id} ({t.size} nodes)\n"
  let line := fun (n : Node Binary64) =>
    String.ofList (List.replicate (2 * (n.level - 1)) ' ') ++ n.describe ++ "\n"
  heading ++ String.join (t.nodes.toList.map line)

end GradientForest
