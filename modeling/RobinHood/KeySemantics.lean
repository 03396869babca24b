import RobinHood.Hash.Fnv

/-!
# Key semantics

Maps and sets hash and compare keys through a pair of functions. The pair is meant to be
consistent, so that equal keys have equal hashes; operations are defined, and have their
answers, also where it is not.
-/

namespace RobinHood

/-- A named way of hashing keys. -/
structure HashBuilder (K : Type) where
  /-- What the builder is called. -/
  name : String
  /-- The hash of a key. -/
  hash : K → UInt64

/-- The builder that hashes with FNV-1a. -/
def HashBuilder.fnv {K : Type} [HashBytes K] : HashBuilder K := ⟨"Fnv", Fnv.hash⟩

/-- How keys are hashed and compared. -/
structure KeySemantics (K : Type) where
  /-- The hash of a key. -/
  hash : K → UInt64
  /-- Whether two keys count as one. -/
  eq : K → K → Bool
  /-- The builder's name, if the hash is a builder's and equality that of the key type. -/
  builder : Option String

namespace KeySemantics

variable {K : Type}

/-- The key type's own equality, hashed by a builder. -/
def standard [BEq K] (builder : HashBuilder K) : KeySemantics K :=
  ⟨builder.hash, (· == ·), some builder.name⟩

/-- The semantics of maps for which nothing else is said. -/
def default [BEq K] [HashBytes K] : KeySemantics K := standard .fnv

/-- A given pair of functions. -/
def ofFunctions (hash : K → UInt64) (eq : K → K → Bool) : KeySemantics K := ⟨hash, eq, none⟩

/-- The semantics in words. Functions have no text. -/
def text (s : KeySemantics K) : String :=
  match s.builder with
  | some name => "Standard \x7b hash_builder: " ++ name ++ " \x7d"
  | none => "FnHasher \x7b .. \x7d"

/-- Equality is an equivalence, and equal keys have equal hashes. -/
structure Consistent (s : KeySemantics K) : Prop where
  refl : ∀ a, s.eq a a = true
  symm : ∀ a b, s.eq a b = true → s.eq b a = true
  trans : ∀ a b c, s.eq a b = true → s.eq b c = true → s.eq a c = true
  hash_eq : ∀ a b, s.eq a b = true → s.hash a = s.hash b

/-- Comparing keys for sameness is consistent with every hash. -/
theorem consistent_beq [BEq K] [LawfulBEq K] (hash : K → UInt64) :
    (ofFunctions hash (· == ·)).Consistent where
  refl := beq_self_eq_true
  symm := fun _ _ hab ↦ beq_iff_eq.mpr (beq_iff_eq.mp hab).symm
  trans := fun _ _ _ hab hbc ↦ beq_iff_eq.mpr ((beq_iff_eq.mp hab).trans (beq_iff_eq.mp hbc))
  hash_eq := fun _ _ hab ↦ congrArg hash (beq_iff_eq.mp hab)

/-- Comparing keys by something that is read off them is consistent with hashing just that. -/
theorem consistent_on {L : Type} [BEq L] [LawfulBEq L] (read : K → L) (hash : L → UInt64) :
    (ofFunctions (fun k ↦ hash (read k)) fun a b ↦ read a == read b).Consistent where
  refl := fun a ↦ beq_self_eq_true (read a)
  symm := fun _ _ hab ↦ beq_iff_eq.mpr (beq_iff_eq.mp hab).symm
  trans := fun _ _ _ hab hbc ↦ beq_iff_eq.mpr ((beq_iff_eq.mp hab).trans (beq_iff_eq.mp hbc))
  hash_eq := fun _ _ hab ↦ congrArg hash (beq_iff_eq.mp hab)

end KeySemantics

end RobinHood
