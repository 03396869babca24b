import RobinHood.Proofs.Refusal
import RobinHood.Proofs.Table.Indexed
import RobinHood.Table.Bulk

/-!
# Entries taken out of a table

The rows of a table list its entries, and a table made of some of them never runs out of room or
rows.
-/

namespace RobinHood

namespace Table

open Index

variable {K V : Type} {t : Table K V} {capacity : Nat}

/-- A row with the entry that it stands for. -/
theorem mem_entriesByRow {e : Row × K × V} (he : e ∈ t.entriesByRow) :
    e.1.isLive = true ∧ t.entries[e.1.entry]? = some e.2 := by
  obtain ⟨row, hrow, hentry⟩ := List.mem_filterMap.mp he
  obtain ⟨stored, hstored, rfl⟩ := Option.map_eq_some_iff.mp hentry
  exact ⟨(mem_liveRows_iff.mp hrow).1, hstored⟩

theorem length_entriesByRow_le (t : Table K V) : t.entriesByRow.length ≤ (liveRows t.rows).length :=
  List.length_filterMap_le _ _

private theorem filterMap_range_getElem? {α : Type} (l : List α) :
    (List.range l.length).filterMap (fun i ↦ l[i]?) = l := by
  induction l with
  | nil => rfl
  | cons a l ih =>
    rw [List.length_cons, List.range_succ_eq_map, List.filterMap_cons, List.filterMap_map]
    simp only [List.getElem?_cons_zero, List.cons.injEq, true_and]
    exact ih

/-- Rows list every entry once. -/
theorem Paired.entriesByRow_perm (h : t.Paired) :
    (t.entriesByRow.map Prod.snd).Perm t.entries.toList := by
  have hmap : t.entriesByRow.map Prod.snd =
      ((liveRows t.rows).map Row.entry).filterMap fun entry ↦ t.entries.toList[entry]? := by
    unfold entriesByRow
    rw [List.map_filterMap, List.filterMap_map]
    congr 1
    funext row
    simp [Option.map_map, Function.comp_def]
  have hperm := List.Perm.filterMap (fun entry ↦ t.entries.toList[entry]?) h
  rw [hmap]
  rwa [size, ← Array.length_toList, filterMap_range_getElem?] at hperm

theorem Indexed.entriesByRow_perm (h : t.Indexed) :
    (t.entriesByRow.map Prod.snd).Perm t.entries.toList :=
  h.paired.entriesByRow_perm

/-- An indexed table lists as many entries by row as it has. -/
theorem Indexed.length_entriesByRow (h : t.Indexed) : t.entriesByRow.length = t.size := by
  rw [← List.length_map Prod.snd, h.entriesByRow_perm.length_eq, Array.length_toList, size]

/-- What pushing entries one by one into an empty table keeps. -/
private structure Pushed (kept : List (Row × K × V)) (t : Table K V) : Prop where
  indexed : t.Indexed
  fresh : Fresh t.rows
  entries_eq : t.entries.toList = kept.map Prod.snd
  hash_eq : ∀ row ∈ liveRows t.rows, ∀ e ∈ kept[row.entry]?, row.hash = e.1.hash

private theorem Pushed.size_eq {kept : List (Row × K × V)} (h : Pushed kept t) :
    t.size = kept.length := by
  rw [size, ← Array.length_toList, h.entries_eq, List.length_map]

private theorem Pushed.push [WalkLimit] {kept : List (Row × K × V)} (h : Pushed kept t) (key : K)
    (value : V) (hroom : kept.length < t.capacity) (hle : t.capacity ≤ maxCapacity) {row : Row}
    (hl : row.isLive = true) : ∃ t', t.pushNew row.hash key value = .ok t' ∧
      t'.capacity = t.capacity ∧ Pushed (kept ++ [(row, key, value)]) t' := by
  have hsize := h.size_eq
  have hne := Row.hash_ne_of_isLive hl
  have he : t.size < Row.entryBound := lt_entryBound (by omega)
  have hfree : (liveRows t.rows).length < t.rows.size := by
    have hcount := lt_rowCount t.capacity
    rw [h.indexed.length_liveRows, h.indexed.rows_size]
    omega
  obtain ⟨rows, hplace, hfresh, hrows, hperm⟩ := h.fresh.placeHome? hfree hne he
  have hpush : t.pushNew row.hash key value =
      .ok { t with rows := rows, entries := t.entries.push (key, value) } :=
    append_of_place? hplace
  refine ⟨_, hpush, rfl, ?_, hfresh, ?_, ?_⟩
  · exact h.indexed.push (by omega) he hrows hperm
  · simp [h.entries_eq]
  · intro r hr e hmem
    rcases List.mem_cons.mp (hperm.mem_iff.mp hr) with rfl | hold
    · rw [Row.entry_live _ he, hsize, List.getElem?_concat_length] at hmem
      cases hmem
      exact Row.hash_live _ _
    · obtain ⟨hlive, pos, -, rfl⟩ := mem_liveRows_iff.mp hold
      have hlt := h.indexed.entry_lt hlive
      rw [List.getElem?_append_left (by omega)] at hmem
      exact h.hash_eq _ hold e hmem

private theorem exists_pushAll [WalkLimit] {kept done : List (Row × K × V)} (h : Pushed done t)
    (hlive : ∀ e ∈ kept, e.1.isLive = true) (hlen : done.length + kept.length ≤ t.capacity)
    (hle : t.capacity ≤ maxCapacity) :
    ∃ t', kept.foldlM
        (fun t (row, key, value) ↦ Halt.forget (t.pushNew row.hash key value)) t = .ok t' ∧
      t'.capacity = t.capacity ∧ Pushed (done ++ kept) t' := by
  induction kept generalizing t done with
  | nil =>
    rw [List.append_nil]
    exact ⟨t, rfl, rfl, h⟩
  | cons e kept ih =>
    obtain ⟨row, key, value⟩ := e
    rw [List.length_cons] at hlen
    obtain ⟨next, hpush, hcap, hnext⟩ := h.push key value (by omega) hle
      (hlive _ List.mem_cons_self)
    obtain ⟨t', hfold, hcap', hp⟩ := ih hnext (fun e he ↦ hlive e (List.mem_cons_of_mem _ he))
      (by rw [hcap, List.length_append, List.length_singleton]; omega) (by rw [hcap]; exact hle)
    refine ⟨t', ?_, hcap'.trans hcap, ?_⟩
    · rw [List.foldlM_cons]
      exact bind_eq_ok_iff.mpr ⟨next, Halt.forget_eq_ok_iff.mpr hpush, hfold⟩
    · rwa [List.append_assoc, List.singleton_append] at hp

/-- A table of given entries is made without fail, and holds them in the given order, each under the
hash of its row. -/
theorem exists_ofRows [WalkLimit] {kept : List (Row × K × V)}
    (hlive : ∀ e ∈ kept, e.1.isLive = true) (hlen : kept.length ≤ capacity)
    (hle : capacity ≤ maxCapacity) :
    ∃ t, ofRows capacity kept = .ok t ∧ t.Indexed ∧ Fresh t.rows ∧
      t.capacity = max capacity minCapacity ∧ t.entries.toList = kept.map Prod.snd ∧
      ∀ row ∈ liveRows t.rows, ∀ e ∈ kept[row.entry]?, row.hash = e.1.hash := by
  have hblank : Pushed [] (Table.blank (max capacity minCapacity) : Table K V) := by
    refine ⟨.blank _, .blank _, rfl, fun row hrow ↦ ?_⟩
    rw [Table.blank, liveRows_blank] at hrow
    cases hrow
  have hbound : max capacity minCapacity ≤ maxCapacity := by
    unfold minCapacity maxCapacity at *
    omega
  obtain ⟨t, hfold, hcap, hp⟩ := exists_pushAll hblank hlive
    (by rw [List.length_nil, Nat.zero_add]; exact Nat.le_trans hlen (Nat.le_max_left _ _)) hbound
  refine ⟨t, ?_, hp.indexed, hp.fresh, hcap, hp.entries_eq, hp.hash_eq⟩
  rw [ofRows, withCapacity, if_neg (Nat.not_lt.mpr hle)]
  exact bind_eq_ok_iff.mpr ⟨_, rfl, hfold⟩

/-- The entries in a block of rows are entries of the table, in the same order. -/
theorem entriesByRow_block_sublist (t : Table K V) {rows : Index} {parts : Nat}
    (h : rows ∈ blocks t.rows parts) :
    (entriesByRow { t with rows := rows }).Sublist t.entriesByRow := by
  obtain ⟨p, -, rfl⟩ := List.mem_map.mp h
  unfold entriesByRow liveRows
  apply List.Sublist.filterMap
  apply List.Sublist.filter
  rw [Array.toList_extract]
  exact (List.take_sublist _ _).trans (List.drop_sublist _ _)

end Table

end RobinHood
