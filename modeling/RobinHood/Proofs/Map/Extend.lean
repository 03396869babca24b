import RobinHood.Proofs.Map.Tidy
import RobinHood.Proofs.Table.Jam
import RobinHood.Proofs.Table.Overlay

/-!
# Extending maps

A map without tombstones that is extended by pairs ends up with the pairs put over its entries, as
long as that list stays below the ceiling. How much room was made at the start, how often the table
grew on the way and where hashes put the rows cannot be told from the entries.
-/

namespace RobinHood

namespace DenseMap

open Table Index

variable {K V : Type} {m : DenseMap K V}

/-- The map is tidy, and has at least the capacity that tables have when made. -/
structure Growable (m : DenseMap K V) : Prop extends m.Tidy where
  minCapacity_le : minCapacity ≤ m.capacity

/-- What putting pairs into a map makes, if its entries become the given ones. -/
structure PutInto (m : DenseMap K V) (entries : List (K × V)) (r : DenseMap K V) : Prop where
  growable : r.Growable
  keys_eq : r.keys = m.keys
  entries_eq : r.entries.toList = entries

namespace Growable

theorem built (h : m.Growable) : m.table.Built :=
  ⟨h.table.toIndexed, h.minCapacity_le, h.capacity_le⟩

/-- A map of a built table is growable if it is well-formed and without tombstones. -/
theorem of_built {table : Table K V} {keys : KeySemantics K} (hb : table.Built)
    (hw : table.WellFormed keys) (hk : keys.Consistent) (hp : Pristine table.rows) :
    (⟨table, keys⟩ : DenseMap K V).Growable :=
  ⟨⟨⟨hk, hw, hb.le_maxCapacity⟩, hp⟩, hb.minCapacity_le⟩

theorem empty {keys : KeySemantics K} (hk : keys.Consistent) :
    (DenseMap.empty keys : DenseMap K V).Growable :=
  have hmin : minCapacity ≤ defaultCapacity := by decide
  have hmax : defaultCapacity ≤ maxCapacity := by decide
  of_built ⟨.blank _, hmin, hmax⟩ (.blank _) hk (.blank _)

/-- The room that an extension makes at the start is never refused. -/
theorem exists_reserve (h : m.Growable) (hint : Nat) :
    ∃ r, m.reserve (min hint (maxCapacity - m.size)) = .ok r ∧ PutInto m m.entries.toList r := by
  have hle := h.size_le
  rcases reserve_cases h.table.rows_size h.table.length_liveRows_le
    (min hint (maxCapacity - m.size)) with ⟨table, hok, hg, -, -⟩ | ⟨hgt, -⟩
  · refine ⟨⟨table, m.keys⟩,
      bind_eq_ok_iff.mpr ⟨table, Halt.within_eq_ok_iff.mpr hok, rfl⟩, ?_, rfl, ?_⟩
    · exact of_built (h.built.reserve hok) (h.table.of_grown hg) h.consistent
        (hg.pristine h.pristine)
    · exact congrArg Array.toList hg.entries_eq
  · change m.table.size ≤ maxCapacity at hle
    change maxCapacity < m.table.size + min hint (maxCapacity - m.table.size) at hgt
    omega

/-- Below the ceiling one more pair can be put into the map. -/
theorem exists_put (h : m.Growable) (hlt : m.size < maxCapacity) (pair : K × V) :
    ∃ r, m.put pair.1 pair.2 = .ok r ∧
      PutInto m (EntryList.insertWith m.keys m.entries pair.1 pair.2 fun _ new ↦ new).2.toList r
      := by
  have hb := h.built
  have htidy := h.toTidy
  obtain ⟨table, keys⟩ := m
  obtain ⟨after, hok, hw, hp, hentries⟩ := htidy.table.exists_insertWith_of_pristine hb
    htidy.consistent htidy.pristine hlt pair.1 pair.2 fun _ new ↦ new
  refine ⟨⟨after, keys⟩, ?_, of_built (hb.insertWith hok) hw htidy.consistent hp, rfl, ?_⟩
  · rw [put, insert, insertWith, hok]
    rfl
  · exact congrArg Array.toList hentries

/-- Pairs can be put into the map one by one as long as all of them fit. -/
theorem exists_putAll {pairs : List (K × V)} (h : m.Growable)
    (hlt : (EntryList.overlay m.keys.eq m.entries.toList pairs).length < maxCapacity) :
    ∃ r, pairs.foldlM (fun m pair ↦ m.put pair.1 pair.2) m = .ok r ∧
      PutInto m (EntryList.overlay m.keys.eq m.entries.toList pairs) r := by
  induction pairs generalizing m with
  | nil =>
    refine ⟨m, rfl, h, rfl, ?_⟩
    rw [EntryList.overlay_nil]
  | cons pair pairs ih =>
    have hsize : m.size < maxCapacity := by
      rw [size_eq_length]
      exact Nat.lt_of_le_of_lt EntryList.length_le_length_overlay hlt
    obtain ⟨next, hput, hnext⟩ := h.exists_put hsize pair
    have hcons : EntryList.overlay m.keys.eq m.entries.toList (pair :: pairs) =
        EntryList.overlay next.keys.eq next.entries.toList pairs := by
      rw [hnext.keys_eq, hnext.entries_eq]
      exact EntryList.overlay_cons h.consistent h.table.distinct
    rw [hcons] at hlt ⊢
    obtain ⟨r, hrest, hr⟩ := ih hnext.growable hlt
    refine ⟨r, ?_, hr.growable, hr.keys_eq.trans hnext.keys_eq, hr.entries_eq⟩
    rw [List.foldlM_cons]
    exact bind_eq_ok_iff.mpr ⟨next, hput, hrest⟩

/-- An extension succeeds if the pairs fit, however many of them are expected. -/
theorem exists_extend {pairs : List (K × V)} (h : m.Growable)
    (hlt : (EntryList.overlay m.keys.eq m.entries.toList pairs).length < maxCapacity)
    (hint : Nat) : ∃ r, m.extend hint pairs = .ok r ∧
      PutInto m (EntryList.overlay m.keys.eq m.entries.toList pairs) r := by
  obtain ⟨roomy, hreserve, hroomy⟩ := h.exists_reserve hint
  rw [← hroomy.keys_eq, ← hroomy.entries_eq] at hlt ⊢
  obtain ⟨r, hputs, hr⟩ := hroomy.growable.exists_putAll hlt
  exact ⟨r, bind_eq_ok_iff.mpr ⟨roomy, hreserve, hputs⟩, hr.growable,
    hr.keys_eq.trans hroomy.keys_eq, hr.entries_eq⟩

end Growable

/-- A tidy map is extended by any pairs that leave it below the ceiling, whatever number of pairs is
expected. Its entries keep their order, keys without an entry follow in the order in which they come
first, as they are written there, and each key has the value that comes last for it. So the entries
do not depend on the room there was, on the number of pairs expected or on how keys are hashed, and
a map made of pairs alone has them over no entries. -/
theorem extend_overlays_entries (hm : m.Growable) (pairs : List (K × V))
    (hlt : (EntryList.overlay m.keys.eq m.entries.toList pairs).length < maxCapacity) :
    (∀ hint, ∃ r, m.extend hint pairs = .ok r ∧
      PutInto m (EntryList.overlay m.keys.eq m.entries.toList pairs) r) ∧
    (∀ other : DenseMap K V, other.Growable → other.keys.eq = m.keys.eq →
      other.entries = m.entries → ∀ hint hint', ∃ r r', m.extend hint pairs = .ok r ∧
        other.extend hint' pairs = .ok r' ∧ r'.entries = r.entries) ∧
    (m.entries = #[] → ∃ r, ofList m.keys pairs = .ok r ∧
      r.entries.toList = EntryList.overlay m.keys.eq [] pairs ∧
      ∀ hint, ∃ r', (DenseMap.empty m.keys).extend hint pairs = .ok r' ∧
        r'.entries = r.entries) := by
  refine ⟨hm.exists_extend hlt, fun other ho hkeys hentries hint hint' ↦ ?_, fun hempty ↦ ?_⟩
  · obtain ⟨r, hok, hr⟩ := hm.exists_extend hlt hint
    rw [← hkeys, ← hentries] at hlt
    obtain ⟨r', hok', hr'⟩ := ho.exists_extend hlt hint'
    refine ⟨r, r', hok, hok', Array.toList_inj.mp ?_⟩
    rw [hr'.entries_eq, hr.entries_eq, hkeys, hentries]
  · rw [hempty] at hlt
    have hextend := (Growable.empty hm.consistent).exists_extend hlt
    obtain ⟨r, hok, hr⟩ := hextend pairs.length
    refine ⟨r, Halt.forget_eq_ok_iff.mpr hok, hr.entries_eq, fun hint ↦ ?_⟩
    obtain ⟨r', hok', hr'⟩ := hextend hint
    exact ⟨r', hok', Array.toList_inj.mp (hr'.entries_eq.trans hr.entries_eq.symm)⟩

/-- Numbers that differ in the last digit only count as one, and a hundred of them share a hash. -/
private def byTens : KeySemantics Nat :=
  .ofFunctions (fun k ↦ (k / 10 / 10).toUInt64) fun a b ↦ a / 10 == b / 10

/-- Two keys of one hash, the second of them pushed round the end of the index. -/
private def wrapped : DenseMap Nat Nat where
  table :=
    { rows := #[.live 7 1, .empty, .empty, .empty, .empty, .empty, .empty, .live 7 0]
      entries := #[(700, 0), (710, 10)]
      capacity := 4
      indexMask := 7 }
  keys := byTens

private theorem wrapped_growable : wrapped.Growable := by
  have hk : wrapped.keys.Consistent :=
    KeySemantics.consistent_on (· / 10) fun l : Nat ↦ (l / 10).toUInt64
  have hs : wrapped.table.Searchable wrapped.keys :=
    { paired := by decide +kernel
      hashed := by decide +kernel
      distinct := Unrepeated.distinctKeys hk (by decide)
      chained := by decide +kernel }
  refine ⟨⟨⟨hk, .of_searchable hs (by decide +kernel) (by decide), by decide⟩, ?_⟩, by decide⟩
  rw [pristine_iff]
  decide +kernel

/-- The theorem at a map of two keys, when far more pairs are expected than come: one of them is for
a stored key, and the others are for one new key. -/
theorem extend_overlays_entries_of_wrapped :
    ∃ r, wrapped.extend 1000 [(725, 5), (718, 11), (721, 6)] = .ok r ∧
      r.entries.toList = [(700, 0), (710, 11), (725, 6)] := by
  obtain ⟨hextend, -⟩ := extend_overlays_entries wrapped_growable [(725, 5), (718, 11), (721, 6)]
    (by decide)
  obtain ⟨r, hok, hr⟩ := hextend 1000
  exact ⟨r, hok, hr.entries_eq.trans (by decide)⟩

end DenseMap

end RobinHood
