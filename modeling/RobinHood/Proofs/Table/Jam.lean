import RobinHood.Proofs.Index.Fill
import RobinHood.Proofs.Table.Insert
import RobinHood.Proofs.Table.Reachable
import RobinHood.Proofs.Table.Remove

/-!
# Insertion into tables with tombstones

Below the ceiling, an insertion into a well-formed table changes the value of a stored key or
appends an entry, and leaves a well-formed table, unless the key is new and its walk runs into a
jam. Then the insertion is given up, or it leaves a stored key that lookups do not find.
-/

namespace RobinHood

namespace Table

open Index

variable {K V : Type} {keys : KeySemantics K} {t t' : Table K V} {key : K} {value : V}
  {merge : V → V → V} {entry : Nat}

/-- The key is not stored, and once there is room its hash meets a jam. -/
structure JamsOn (t : Table K V) (keys : KeySemantics K) (key : K) : Prop where
  absent : position? keys t.entries key = none
  jammed : ∃ grown, t.reserveOne = .ok grown ∧ Jammed grown.rows (scramble (keys.hash key))

/-- No key runs into a jam while some row is empty. -/
theorem not_jamsOn_of_isEmpty {grown : Table K V} (hr : t.reserveOne = .ok grown)
    (he : ∃ pos < grown.rows.size, (rowAt grown.rows pos).isEmpty = true) :
    ¬ t.JamsOn keys key := by
  rintro ⟨-, grown', hr', g, hj⟩
  rw [hr] at hr'
  cases hr'
  obtain ⟨pos, hpos, hempty⟩ := he
  obtain ⟨i, hi, rfl⟩ := exists_walkPos (scramble (keys.hash key)) 0 hpos
  rw [hj.isEmpty_eq_false] at hempty
  cases hempty

/-- Below the ceiling there is room for one more entry, or room is made. -/
theorem Built.exists_reserveOne (h : t.Built) (hlt : t.size < maxCapacity) :
    ∃ grown, t.reserveOne = .ok grown ∧ Grown t grown ∧ grown.Built ∧
      grown.size < grown.capacity := by
  rcases reserveOne_cases h.indexed.rows_size h.indexed.length_liveRows_le h.indexed.size_le with
    ⟨grown, hok, hg, -⟩ | ⟨hfull, hmax, -⟩
  · obtain ⟨hbuilt, -, hroom⟩ := h.reserveOne hok
    exact ⟨grown, hok, hg, hbuilt, hroom⟩
  · omega

namespace WellFormed

/-- Below the ceiling, a stored key has its value changed. -/
private theorem exists_insertWith_of_present (h : t.WellFormed keys) (hb : t.Built)
    (hk : keys.Consistent) (hlt : t.size < maxCapacity)
    (hp : position? keys t.entries key = some entry) :
    ∃ t', t.insertWith (keys.hash key) key value keys.eq merge =
        .ok ((t.entries[entry]?).map Prod.snd, t') ∧ t'.WellFormed keys ∧
      t'.entries = t.entries.modify entry fun e ↦ (e.1, merge e.2 value) := by
  obtain ⟨grown, hr, hg, -, -⟩ := hb.exists_reserveOne hlt
  refine ⟨grown.modifyValue entry fun stored ↦ merge stored value, ?_, ?_, ?_⟩
  · rw [h.insertWith_of_stored hk hr hg hp, value?, hp]
    rfl
  · exact (h.of_grown hg).modifyValue entry _
  · rw [Table.modifyValue, hg.entries_eq]

/-- In a table with room, a new key is appended without breaking a chain exactly if there is no jam.
-/
private theorem exists_chained_fill?_iff (h : t.WellFormed keys) (hb : t.Built)
    (hk : keys.Consistent) (hnew : position? keys t.entries key = none) :
    (∃ rows, (findSpot t.rows (scramble (keys.hash key)) (t.holdsAt (keys.eq key))).fill? t.rows
        (scramble (keys.hash key)) t.size = some rows ∧ Chained rows) ↔
      ¬ Jammed t.rows (scramble (keys.hash key)) := by
  obtain ⟨n, hends⟩ := h.findSpot_ends hk hnew
  have hfree : (liveRows t.rows).length < t.rows.size := by
    have hcount := lt_rowCount t.capacity
    have hsize := h.size_le
    rw [h.length_liveRows, h.rows_size]
    omega
  exact hends.exists_chained_fill?_iff h.chained (scramble_ne_zero _) (lt_entryBound hb.size_le)
    hfree

/-- Below the ceiling and without a jam, a new key is appended. -/
private theorem exists_insertWith_of_absent (h : t.WellFormed keys) (hb : t.Built)
    (hk : keys.Consistent) (hlt : t.size < maxCapacity) (hnew : position? keys t.entries key = none)
    (hj : ¬ t.JamsOn keys key) :
    ∃ t', t.insertWith (keys.hash key) key value keys.eq merge = .ok (none, t') ∧
      t'.WellFormed keys ∧ t'.entries = t.entries.push (key, value) := by
  obtain ⟨grown, hr, hg, hbuilt, hroom⟩ := hb.exists_reserveOne hlt
  have hnew' : position? keys grown.entries key = none := by rw [hg.entries_eq, hnew]
  have hno : ¬ Jammed grown.rows (scramble (keys.hash key)) := fun hjam ↦ hj ⟨hnew, grown, hr, hjam⟩
  obtain ⟨rows, hfill, hchained⟩ :=
    ((h.of_grown hg).exists_chained_fill?_iff hbuilt hk hnew').mpr hno
  obtain ⟨t', hw, hentries, -, hok⟩ := h.exists_insertWith_of_fill? hk hr hg hroom
    (lt_entryBound hbuilt.size_le) hnew' hfill hchained
  exact ⟨t', hok merge, hw, hentries⟩

/-- Below the ceiling and without a jam, an insertion does to the store what it does to a list. -/
theorem exists_insertWith_of_not_jamsOn (h : t.WellFormed keys) (hb : t.Built)
    (hk : keys.Consistent) (hlt : t.size < maxCapacity) (hj : ¬ t.JamsOn keys key) (value : V)
    (merge : V → V → V) :
    ∃ t', t.insertWith (keys.hash key) key value keys.eq merge =
        .ok ((EntryList.insertWith keys t.entries key value merge).1, t') ∧ t'.WellFormed keys ∧
      t'.entries = (EntryList.insertWith keys t.entries key value merge).2 := by
  unfold EntryList.insertWith
  cases hp : position? keys t.entries key with
  | some entry => exact h.exists_insertWith_of_present hb hk hlt hp
  | none => exact h.exists_insertWith_of_absent hb hk hlt hp hj

/-- Below the ceiling and without tombstones, an insertion does to the store what it does to a list,
and leaves no tombstone. -/
theorem exists_insertWith_of_pristine (h : t.WellFormed keys) (hb : t.Built) (hk : keys.Consistent)
    (hp : Pristine t.rows) (hlt : t.size < maxCapacity) (key : K) (value : V) (merge : V → V → V) :
    ∃ t', t.insertWith (keys.hash key) key value keys.eq merge =
        .ok ((EntryList.insertWith keys t.entries key value merge).1, t') ∧ t'.WellFormed keys ∧
      Pristine t'.rows ∧
      t'.entries = (EntryList.insertWith keys t.entries key value merge).2 := by
  obtain ⟨grown, hr, hg, hbuilt, hroom⟩ := hb.exists_reserveOne hlt
  have hclean := hg.pristine hp
  have hfree : (liveRows grown.rows).length < grown.rows.size := by
    have hcount := lt_rowCount grown.capacity
    rw [hbuilt.indexed.length_liveRows, hbuilt.indexed.rows_size]
    omega
  have hj : ¬ t.JamsOn keys key := not_jamsOn_of_isEmpty hr (hclean.exists_isEmpty hfree)
  obtain ⟨t', hok, hw, he⟩ := h.exists_insertWith_of_not_jamsOn hb hk hlt hj value merge
  refine ⟨t', hok, hw, ?_, he⟩
  -- Once there is room, the same insertion is one into a table with room.
  obtain ⟨after, hafter, -, hpristine⟩ := (h.of_grown hg).exists_insertWith hk hclean hroom
    (lt_entryBound hbuilt.size_le) key value merge
  rw [insertWith_of_lt hroom, ← insertWith_of_reserveOne hr, hok] at hafter
  obtain ⟨-, rfl⟩ := Prod.mk.inj (Except.ok.inj hafter)
  exact hpristine

/-- An insertion that runs into a jam and returns leaves a stored key that lookups do not find. -/
theorem exists_lost_of_jamsOn (h : t.WellFormed keys) (hb : t.Built) (hk : keys.Consistent)
    (hj : t.JamsOn keys key) {answer : Option V}
    (hi : t.insertWith (keys.hash key) key value keys.eq merge = .ok (answer, t')) :
    ∃ e ∈ t'.entries, t'.find? (keys.hash e.1) (keys.eq e.1) = none := by
  have hindexed := (hb.insertWith hi).indexed
  obtain ⟨hnew, grown, hr, hjam⟩ := hj
  obtain ⟨hbuilt, -, -⟩ := hb.reserveOne hr
  have hg := grown_of_reserveOne h.rows_size h.length_liveRows_le h.size_le hr
  have hgrown := h.of_grown hg
  have hnew' : position? keys grown.entries key = none := by rw [hg.entries_eq, hnew]
  have hfits : grown.size < Row.entryBound := lt_entryBound hbuilt.size_le
  have hbad := mt (hgrown.exists_chained_fill?_iff hbuilt hk hnew').mp (not_not_intro hjam)
  rw [insertWith_of_reserveOne hr] at hi
  rcases put_cases hi with ⟨entry, hheld, -⟩ | ⟨rows, -, hfill, -, rfl⟩
  · exact absurd hheld (hgrown.findSpot_ne_held hk hnew' entry)
  · obtain ⟨n, hends⟩ := hgrown.findSpot_ends hk hnew'
    have hperm := hends.liveRows_fill? hgrown.rows_pos (scramble_ne_zero _) hfits hfill
    have hdistinct := hgrown.distinct.push hk hnew' value
    have hlost := mt (chained_of_find? hindexed (hgrown.hashed_push hfits hperm) hdistinct)
      fun hchained ↦ hbad ⟨rows, hfill, hchained⟩
    simp only [ne_eq, Classical.not_forall, Classical.not_not, exists_prop] at hlost
    exact hlost

end WellFormed

end Table

end RobinHood
