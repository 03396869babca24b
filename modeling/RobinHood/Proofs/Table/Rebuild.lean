import RobinHood.Proofs.Table.Insert

/-!
# What growth restores

When growth takes another number of rows, it reads nothing off the old index but which rows are
live: each is placed again in a blank index. So it does not matter where the rows stood before, nor
what tombstones there were. If rows and entries are paired, every stored key is found afterwards. As
twice the capacity takes twice the rows, a full table below half the ceiling always grows that way.
-/

namespace RobinHood

namespace Table

open Index

variable {K V : Type}

/-- Wherever its rows stand, growth that takes another number of rows leaves a searchable table with
the same entries and without tombstones. -/
theorem Paired.exists_grow [WalkLimit] {t : Table K V} (h : t.Paired) (hsize : t.size ≤ t.capacity)
    {capacity : Nat} (hlt : t.capacity < capacity) (hmax : capacity ≤ maxCapacity)
    (hne : rowCount capacity ≠ t.rows.size) :
    ∃ t', t.grow capacity = .ok t' ∧ t'.entries = t.entries ∧ t'.capacity = capacity ∧
      t'.rows.size = rowCount capacity ∧ Pristine t'.rows ∧
      ∀ keys : KeySemantics K, Hashed keys t.rows t.entries → DistinctKeys keys t.entries →
        t'.Searchable keys := by
  have hfit : (liveRows t.rows).length < rowCount capacity := by
    have hcount := lt_rowCount capacity
    rw [h.length_liveRows]
    omega
  obtain ⟨rows, -, hok, hfresh, hrows, hperm⟩ := exists_rebuilt hlt hmax hne hfit
  refine ⟨_, hok, rfl, rfl, hrows, hfresh.pristine, fun keys hh hd ↦ ?_⟩
  exact searchable_of_perm h hh hd hperm hfresh.chained capacity _

/-- Where rows and entries are paired, wherever the rows stand, growth that takes another number of
rows succeeds, keeps the entries and drops every tombstone; and where rows have the hashes of their
keys and no two keys are equal, a lookup afterwards finds each stored key at its own position and no
other key. Twice the capacity takes twice the rows, so an insertion into a full table, with at most
half the capacity that there can be, puts its key into such a new index. -/
theorem growth_restores_lookups [WalkLimit] (keys : KeySemantics K) (t : Table K V) :
    (t.Paired → t.size ≤ t.capacity → ∀ capacity, t.capacity < capacity → capacity ≤ maxCapacity →
      rowCount capacity ≠ t.rows.size →
      ∃ t', t.grow capacity = .ok t' ∧ t'.entries = t.entries ∧ t'.capacity = capacity ∧
        t'.rows.size = rowCount capacity ∧ tombstones t'.rows = 0 ∧
        (keys.Consistent → Hashed keys t.rows t.entries → DistinctKeys keys t.entries →
          ∀ key i, t'.find? (keys.hash key) (keys.eq key) = some i ↔
            ∃ e, t.entries[i]? = some e ∧ keys.eq key e.1 = true)) ∧
    (∀ capacity, minCapacity ≤ capacity → capacity ≤ maxCapacity / 2 →
      rowCount (2 * capacity) = 2 * rowCount capacity) ∧
    (t.size = t.capacity → minCapacity ≤ t.capacity → t.capacity ≤ maxCapacity / 2 →
      t.rows.size = rowCount t.capacity →
      ∃ rows, rebuild? (2 * t.rows.size) (liveRows t.rows) = some rows ∧
        rows.size = 2 * t.rows.size ∧ tombstones rows = 0 ∧
        ∀ hash key value eq merge, t.insertWith hash key value eq merge =
          put ⟨rows, t.entries, 2 * t.capacity, rows.size - 1⟩ (scramble hash) key value eq
            merge) := by
  refine ⟨fun hp hsize capacity hlt hmax hne ↦ ?_, fun capacity hmin _ ↦ ?_,
    fun hfull hmin hmax hrows ↦ ?_⟩
  · obtain ⟨t', hok, hentries, hcap, hrows, hpristine, hsearch⟩ := hp.exists_grow hsize hlt hmax hne
    refine ⟨t', hok, hentries, hcap, hrows, pristine_iff.mp hpristine, fun hk hh hd key i ↦ ?_⟩
    rw [(hsearch keys hh hd).find?_eq_some_iff hk, hentries]
  · exact rowCount_two_mul (Nat.lt_of_lt_of_le (by decide) hmin)
  · obtain ⟨rows, hre, hok, hfresh, hsize, -⟩ := exists_doubled hfull hmin hmax hrows
    refine ⟨rows, hre, hsize, pristine_iff.mp hfresh.pristine, fun hash key value eq merge ↦ ?_⟩
    exact insertWith_of_reserveOne hok

/-- A full table whose rows stand where no lookup finds them. -/
private def scattered : Table Nat Nat where
  rows := #[.live 7 3, (Row.live 9 9).toTombstone, .live 7 0, .empty, .live 8 1, .live 8 2, .empty,
    .empty]
  entries := #[(70, 0), (80, 1), (81, 2), (71, 3)]
  capacity := 4
  indexMask := 7

/-- The theorem at a table whose rows stand anywhere: the first key is not found before it grows,
and is found where it is stored afterwards; and an insertion puts its key into sixteen rows. -/
theorem growth_restores_lookups_scattered :
    scattered.find? (tens.hash 70) (tens.eq 70) = none ∧
    (∃ t, scattered.grow 8 = .ok t ∧ tombstones t.rows = 0 ∧
      t.find? (tens.hash 70) (tens.eq 70) = some 0 ∧
      ∀ i, t.find? (tens.hash 72) (tens.eq 72) ≠ some i) ∧
    ∃ rows : Index, rows.size = 16 ∧
      scattered.insertWith (tens.hash 90) 90 4 tens.eq (fun _ n ↦ n) =
        put ⟨rows, scattered.entries, 8, 15⟩ (scramble (tens.hash 90)) 90 4 tens.eq
          fun _ n ↦ n := by
  have hk : tens.Consistent := KeySemantics.consistent_beq _
  have hpaired : scattered.Paired := by decide +kernel
  have hhashed : Hashed tens scattered.rows scattered.entries := by decide +kernel
  have hdistinct : DistinctKeys tens scattered.entries := Unrepeated.distinctKeys hk (by decide)
  obtain ⟨hgrow, -, hfull⟩ := growth_restores_lookups tens scattered
  obtain ⟨t, hok, -, -, -, htombs, hfind⟩ :=
    hgrow hpaired (by decide) 8 (by decide) (by decide) (by decide +kernel)
  obtain ⟨rows, -, hsize, -, hinsert⟩ := hfull rfl (by decide) (by decide) (by decide +kernel)
  have hfind' := hfind hk hhashed hdistinct
  refine ⟨by decide +kernel, ⟨t, hok, htombs, (hfind' 70 0).mpr ⟨(70, 0), rfl, rfl⟩, fun i hi ↦ ?_⟩,
    rows, hsize, ?_⟩
  · obtain ⟨e, he, heq⟩ := (hfind' 72 i).mp hi
    have hnone : ∀ e ∈ scattered.entries, tens.eq 72 e.1 = false := by decide
    rw [hnone e (Array.mem_of_getElem? he)] at heq
    cases heq
  · have hput := hinsert (tens.hash 90) 90 4 tens.eq fun _ n ↦ n
    rw [hsize] at hput
    exact hput

end Table

end RobinHood
