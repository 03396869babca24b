import RobinHood.Proofs.Table.Indexed
import RobinHood.Proofs.Table.Searchable

/-!
# Well-formed tables

A table is well-formed for key semantics if store and index agree, each row keeps the scrambled hash
of its key, no two stored keys are equal, and no chain is broken. In a well-formed table lookups
find what a search through the store finds.
-/

namespace RobinHood

namespace Table

open Index

variable {K V : Type}

/-- Store and index agree, rows keep the hashes of their keys, stored keys differ, and each row is
in reach of a walk from its home. -/
structure WellFormed (keys : KeySemantics K) (t : Table K V) : Prop extends t.Indexed where
  hashed : Hashed keys t.rows t.entries
  distinct : DistinctKeys keys t.entries
  chained : Chained t.rows

variable {keys : KeySemantics K} {t t' : Table K V} {key : K} {value : V} {entry pos : Nat}

namespace WellFormed

theorem searchable (h : t.WellFormed keys) : t.Searchable keys :=
  ⟨h.paired, h.hashed, h.distinct, h.chained⟩

/-- A searchable table with the sizes that its capacity asks for is well-formed. -/
theorem of_searchable (h : t.Searchable keys) (hrows : t.rows.size = rowCount t.capacity)
    (hsize : t.size ≤ t.capacity) : t.WellFormed keys :=
  ⟨⟨hrows, hsize, h.paired⟩, h.hashed, h.distinct, h.chained⟩

/-! ### Lookups -/

/-- Lookups find what a search through the store finds. -/
theorem find?_eq (h : t.WellFormed keys) (hk : keys.Consistent) (key : K) :
    t.find? (keys.hash key) (keys.eq key) = position? keys t.entries key :=
  h.searchable.find?_eq hk key

/-- An insertion finds a key where a search through the store finds it. -/
theorem findSpot_eq_held_iff (h : t.WellFormed keys) (hk : keys.Consistent) :
    findSpot t.rows (scramble (keys.hash key)) (t.holdsAt (keys.eq key)) = .held entry ↔
      position? keys t.entries key = some entry := by
  rw [findSpot_eq_held_iff_find?, h.find?_eq hk]

/-! ### What operations keep -/

theorem blank (capacity : Nat) : (Table.blank capacity : Table K V).WellFormed keys where
  toIndexed := .blank capacity
  hashed := by
    intro row hrow
    rw [Table.blank, liveRows_blank] at hrow
    cases hrow
  distinct := by
    intro i j a b ha
    simp [Table.blank] at ha
  chained := .blank _

theorem clear (h : t.WellFormed keys) : t.clear.WellFormed keys where
  toIndexed := h.toIndexed.clear
  hashed := by
    intro row hrow
    rw [Table.clear, liveRows_blank] at hrow
    cases hrow
  distinct := by
    intro i j a b ha
    simp [Table.clear] at ha
  chained := .blank _

theorem of_grown (h : t.WellFormed keys) (hg : Grown t t') : t'.WellFormed keys := by
  have hc : Chained t'.rows := by
    rcases hg.layout with hsame | hfresh
    · rw [hsame]
      exact h.chained
    · exact hfresh.chained
  have hs := searchable_of_perm h.paired h.hashed h.distinct hg.perm hc t'.capacity t'.indexMask
  rw [← hg.entries_eq] at hs
  exact of_searchable hs hg.rows_size (h.toIndexed.of_grown hg).size_le

theorem modifyValue (h : t.WellFormed keys) (entry : Nat) (f : V → V) :
    (t.modifyValue entry f).WellFormed keys where
  toIndexed := h.toIndexed.modifyValue entry f
  hashed := by
    intro row hrow e he
    rw [Table.modifyValue, Array.getElem?_modify] at he
    split at he
    · obtain ⟨e', he', rfl⟩ := Option.map_eq_some_iff.mp he
      exact h.hashed row hrow e' he'
    · exact h.hashed row hrow e he
  distinct := h.distinct.modify entry f
  chained := h.chained

/-- A new row that has the hash of the new key leaves each row with the hash of its key. -/
theorem hashed_push (h : t.WellFormed keys) (hfits : t.size < Row.entryBound) {rows : Index}
    (hp : (liveRows rows).Perm (Row.live (scramble (keys.hash key)) t.size :: liveRows t.rows)) :
    Hashed keys rows (t.entries.push (key, value)) := by
  intro row hrow e he
  rw [Array.getElem?_push, ← size] at he
  rcases List.mem_cons.mp (hp.mem_iff.mp hrow) with rfl | hold
  · rw [Row.entry_live _ hfits, if_pos rfl] at he
    cases he
    rw [Row.hash_live]
  · obtain ⟨hl, pos, -, rfl⟩ := mem_liveRows_iff.mp hold
    have hlt := h.entry_lt hl
    rw [if_neg (Nat.ne_of_lt hlt)] at he
    exact h.hashed _ hold e he

/-- A key that is not stored is added with a row that leaves the chains unbroken. -/
theorem push (h : t.WellFormed keys) (hk : keys.Consistent)
    (hnew : position? keys t.entries key = none) {rows : Index} (hroom : t.size < t.capacity)
    (hfits : t.size < Row.entryBound) (hsize : rows.size = t.rows.size)
    (hp : (liveRows rows).Perm (Row.live (scramble (keys.hash key)) t.size :: liveRows t.rows))
    (hc : Chained rows) :
    ({ t with rows := rows, entries := t.entries.push (key, value) } : Table K V).WellFormed
      keys where
  toIndexed := h.toIndexed.push hroom hfits hsize hp
  hashed := h.hashed_push hfits hp
  distinct := h.distinct.push hk hnew value
  chained := hc

end WellFormed

end Table

end RobinHood
