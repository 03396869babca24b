import RobinHood.Map.Bulk
import RobinHood.Proofs.Map.Lookup
import RobinHood.Proofs.Table.Merge

/-!
# Merging maps

The larger map is copied and the smaller one inserted into the copy. Which of the two that is cannot
be told from the entries of the result: each key has the value of the map that holds it, or what the
merge makes of the first map's value and the second one's.
-/

namespace RobinHood

namespace DenseMap

open Table

variable {K V : Type} {m other : DenseMap K V}

theorem distinctKeys_of_eq {keys keys' : KeySemantics K} {entries : Array (K × V)}
    (heq : keys.eq = keys'.eq) (h : DistinctKeys keys entries) : DistinctKeys keys' entries := by
  unfold DistinctKeys at h ⊢
  rwa [← heq]

theorem value?_of_eq {keys keys' : KeySemantics K} (heq : keys.eq = keys'.eq)
    (entries : Array (K × V)) (key : K) : value? keys' entries key = value? keys entries key := by
  rw [value?, value?, position?, position?, heq]

theorem shared_of_eq {keys keys' : KeySemantics K} (heq : keys.eq = keys'.eq)
    (entries : Array (K × V)) (l : List (K × V)) :
    shared keys' entries l = shared keys entries l := by
  unfold shared
  congr 1
  funext e
  rw [value?_of_eq heq]

end DenseMap

end RobinHood
