import RobinHood.Proofs.Index.Lookup
import RobinHood.Proofs.Table.Pairing
import RobinHood.Proofs.Table.Unrepeated

/-!
# Lookups are exact

Lookups ask little of a table: rows and entries are paired, each row keeps the scrambled hash of its
key, no two stored keys are equal, and no chain is broken. Such a table is `Searchable`. How many
rows it has, how many entries it has room for and whether any row is empty does not matter: a lookup
finds the position of a key that is stored, and nothing for any other key.
-/

namespace RobinHood

namespace Table

open Index

variable {K V : Type}

/-- Each row keeps the scrambled hash of the key that it stands for. -/
def Hashed (keys : KeySemantics K) (rows : Index) (entries : Array (K × V)) : Prop :=
  ∀ row ∈ liveRows rows, ∀ e ∈ entries[row.entry]?, row.hash = scramble (keys.hash e.1)

instance (keys : KeySemantics K) (rows : Index) (entries : Array (K × V)) :
    Decidable (Hashed keys rows entries) :=
  inferInstanceAs (Decidable (∀ row ∈ liveRows rows, ∀ e ∈ entries[row.entry]?,
    row.hash = scramble (keys.hash e.1)))

/-- Rows and entries are paired, rows keep the hashes of their keys, stored keys differ, and each
row is in reach of a walk from its home. -/
structure Searchable (keys : KeySemantics K) (t : Table K V) : Prop where
  paired : t.Paired
  hashed : Hashed keys t.rows t.entries
  distinct : DistinctKeys keys t.entries
  chained : Chained t.rows

variable {keys : KeySemantics K} {t : Table K V} {key : K} {entry pos : Nat}

theorem holdsAt_iff {eq : K → Bool} :
    t.holdsAt eq entry = true ↔ ∃ e, t.entries[entry]? = some e ∧ eq e.1 = true := by
  unfold holdsAt
  rw [Option.any_eq_true]

/-- On any table, a lookup answers with the position of an entry, whose key it was to find. -/
theorem exists_getElem?_of_find? {hash : UInt64} {eq : K → Bool}
    (h : t.find? hash eq = some entry) : ∃ e, t.entries[entry]? = some e ∧ eq e.1 = true := by
  obtain ⟨pos, hfound, rfl⟩ := Option.map_eq_some_iff.mp h
  exact holdsAt_iff.mp (find?_eq_some hfound).1.holds_entry

/-- Wherever the rows of a table are put, lookups work if no chain is broken there. -/
theorem searchable_of_perm (hp : t.Paired) (hh : Hashed keys t.rows t.entries)
    (hd : DistinctKeys keys t.entries) {rows : Index}
    (hperm : (liveRows rows).Perm (liveRows t.rows)) (hc : Chained rows)
    (capacity indexMask : Nat) :
    (⟨rows, t.entries, capacity, indexMask⟩ : Table K V).Searchable keys where
  paired := (hperm.map Row.entry).trans hp
  hashed := fun row hrow ↦ hh row (hperm.mem_iff.mp hrow)
  distinct := hd
  chained := hc

namespace Searchable

/-- The rows that match a key are those of the entry whose key is equal to it. -/
private theorem matches_iff (h : t.Searchable keys) (hk : keys.Consistent) :
    Matches (rowAt t.rows pos) (scramble (keys.hash key)) (t.holdsAt (keys.eq key)) ↔
      (rowAt t.rows pos).isLive = true ∧
        position? keys t.entries key = some (rowAt t.rows pos).entry := by
  constructor
  · intro hm
    obtain ⟨e, he, heq⟩ := holdsAt_iff.mp hm.holds_entry
    exact ⟨hm.isLive (scramble_ne_zero _), h.distinct.position?_eq hk he heq⟩
  · rintro ⟨hl, hp⟩
    obtain ⟨e, he, heq⟩ := position?_eq_some hp
    have hhash := h.hashed _ (rowAt_mem_liveRows hl) e he
    rw [hk.hash_eq _ _ heq]
    exact ⟨hhash, (Row.isLive_iff.mp hl).2, holdsAt_iff.mpr ⟨e, he, heq⟩⟩

/-- The row of a key is found exactly if the key is stored. -/
theorem findRow?_eq_some_iff (h : t.Searchable keys) (hk : keys.Consistent) :
    t.findRow? (scramble (keys.hash key)) (keys.eq key) = some pos ↔
      (rowAt t.rows pos).isLive = true ∧
        position? keys t.entries key = some (rowAt t.rows pos).entry := by
  rw [← h.matches_iff hk]
  constructor
  · intro hf
    exact (find?_eq_some hf).1
  · intro hm
    apply h.chained.find?_eq_some_of_unique (scramble_ne_zero _) hm
    intro other hother
    obtain ⟨hl, hp⟩ := (h.matches_iff hk).mp hm
    obtain ⟨hl', hp'⟩ := (h.matches_iff hk).mp hother
    rw [hp] at hp'
    exact eq_of_entry_eq h.paired.nodup hl' hl (Option.some.inj hp').symm

/-- Lookups find what a search through the store finds. -/
theorem find?_eq (h : t.Searchable keys) (hk : keys.Consistent) (key : K) :
    t.find? (keys.hash key) (keys.eq key) = position? keys t.entries key := by
  unfold find?
  cases hf : t.findRow? (scramble (keys.hash key)) (keys.eq key) with
  | some pos =>
    rw [((h.findRow?_eq_some_iff hk).mp hf).2]
    rfl
  | none =>
    cases hp : position? keys t.entries key with
    | none => rfl
    | some entry =>
      obtain ⟨pos, hl, hentry⟩ := h.paired.exists_row (lt_size_of_position? hp)
      rw [(h.findRow?_eq_some_iff hk).mpr ⟨hl, by rw [hp, hentry]⟩] at hf
      cases hf

/-- A lookup finds the position of the entry whose key is equal to the one looked for. -/
theorem find?_eq_some_iff (h : t.Searchable keys) (hk : keys.Consistent) :
    t.find? (keys.hash key) (keys.eq key) = some entry ↔
      ∃ e, t.entries[entry]? = some e ∧ keys.eq key e.1 = true := by
  rw [h.find?_eq hk, h.distinct.position?_eq_some_iff hk]

/-- A lookup finds nothing exactly if no stored key is equal to the one looked for. -/
theorem find?_eq_none_iff (h : t.Searchable keys) (hk : keys.Consistent) :
    t.find? (keys.hash key) (keys.eq key) = none ↔ ∀ e ∈ t.entries, keys.eq key e.1 = false := by
  rw [h.find?_eq hk, position?_eq_none_iff]

end Searchable

/-! ### Every layout -/

/-- In every table that is `Searchable`, with any number of tombstones and with or without an empty
row, a lookup finds position `i` exactly if the entry there has an equal key, and nothing exactly if
no entry has. The row that it stops at is the live row of that entry: no row on the way bars a
stored key, and a tombstone is never taken for the row of a key. -/
theorem lookup_iff_stored (h : t.Searchable keys) (hk : keys.Consistent) (key : K) :
    (∀ i, t.find? (keys.hash key) (keys.eq key) = some i ↔
      ∃ e, t.entries[i]? = some e ∧ keys.eq key e.1 = true) ∧
    (t.find? (keys.hash key) (keys.eq key) = none ↔ ∀ e ∈ t.entries, keys.eq key e.1 = false) ∧
    ∀ pos, t.findRow? (scramble (keys.hash key)) (keys.eq key) = some pos ↔
      (rowAt t.rows pos).isLive = true ∧
        ∃ e, t.entries[(rowAt t.rows pos).entry]? = some e ∧ keys.eq key e.1 = true := by
  refine ⟨fun i ↦ h.find?_eq_some_iff hk, h.find?_eq_none_iff hk, fun pos ↦ ?_⟩
  rw [h.findRow?_eq_some_iff hk, h.distinct.position?_eq_some_iff hk]

/-- Ten numbers each share a hash. -/
def tens : KeySemantics Nat := .ofFunctions (fun k ↦ (k / 10).toUInt64) (· == ·)

/-- Four rows without an empty one: two live rows and two tombstones. -/
def crowded : Table Nat Nat where
  rows := #[(Row.live 7 1).toTombstone, Row.live 7 1, (Row.live 8 2).toTombstone, Row.live 7 0]
  entries := #[(70, 0), (72, 2)]
  capacity := 3
  indexMask := 3

theorem crowded_searchable : crowded.Searchable tens where
  paired := by decide +kernel
  hashed := by decide +kernel
  distinct := Unrepeated.distinctKeys (KeySemantics.consistent_beq _) (by decide)
  chained := by decide +kernel

/-- The theorem at a table without an empty row: one of two keys of a hash is found past a tombstone
of that hash, and a third one is not. -/
theorem lookup_iff_stored_in_crowded :
    (∀ pos < crowded.rows.size, (rowAt crowded.rows pos).isEmpty = false) ∧
      crowded.find? (tens.hash 72) (tens.eq 72) = some 1 ∧
      crowded.find? (tens.hash 71) (tens.eq 71) = none := by
  have hk : tens.Consistent := KeySemantics.consistent_beq _
  obtain ⟨hsome, -, -⟩ := lookup_iff_stored crowded_searchable hk 72
  obtain ⟨-, hnone, -⟩ := lookup_iff_stored crowded_searchable hk 71
  refine ⟨by decide +kernel, ?_, ?_⟩
  · exact (hsome 1).mpr ⟨(72, 2), rfl, rfl⟩
  · exact hnone.mpr (by decide)

end Table

end RobinHood
