import RobinHood.Text.Quoted

/-!
# Texts of keys and values

How a key, a value or an element is written inside the text of a larger value: numbers in
decimal, texts in quotes.
-/

namespace RobinHood

/-- Values with a text for inspection. -/
class Inspect (α : Type) where
  /-- The text of a value. -/
  inspect : α → String

instance : Inspect Nat := ⟨fun n => String.ofList (Nat.toDigits 10 n)⟩

instance : Inspect UInt64 := ⟨fun n => Inspect.inspect n.toNat⟩

instance : Inspect Int64 :=
  ⟨fun n => (if n < 0 then "-" else "") ++ Inspect.inspect n.toInt.natAbs⟩

instance : Inspect String := ⟨Text.quote⟩

end RobinHood
