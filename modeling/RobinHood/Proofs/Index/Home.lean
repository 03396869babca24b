import RobinHood.Proofs.Index.Displacement

/-!
# Placing a row from its home

In a chained index with an empty row, whatever its other rows are, a placement from home ends within
one round. All that changes is that one row comes to life, which was empty or a tombstone: the live
rows on the way to it may have moved, and no other row has. So it is for every number of rows; the
walk among a power of two of them goes by a mask, see `maskedBy_two_pow`.
-/

namespace RobinHood

namespace Index

/-- What the live rows say: their hashes and entries, in order of position. -/
def contents (rows : Index) : List (UInt32 × Nat) :=
  (liveRows rows).map fun row ↦ (row.hash, row.entry)

/-- The second index has one live row more than the first: row `free`, which was empty or a
tombstone. Rows elsewhere are live where they were live, and the same where they were not. -/
structure FillsOne (rows rows' : Index) (free : Nat) : Prop where
  size_eq : rows'.size = rows.size
  free_lt : free < rows.size
  was_free : (rowAt rows free).isEmpty = true ∨ (rowAt rows free).isTombstone = true
  isLive_free : (rowAt rows' free).isLive = true
  isLive_eq : ∀ pos ≠ free, (rowAt rows' pos).isLive = (rowAt rows pos).isLive
  rowAt_eq : ∀ pos ≠ free, (rowAt rows pos).isLive = false → rowAt rows' pos = rowAt rows pos

variable {rows rows' mid : Index} {free entry limit : Nat} {row : Row} {hash : UInt32}

/-- Exchanging live rows and then writing a live row over one that is not live brings that one to
life. -/
theorem Reshuffled.fillsOne (h : Reshuffled rows mid) (hfree : free < mid.size)
    (hdead : (rowAt mid free).isLive = false) (hl : row.isLive = true) :
    FillsOne rows (mid.setIfInBounds free row) free where
  size_eq := by rw [size_set, h.size_eq]
  free_lt := by rwa [← h.size_eq]
  was_free := by
    rw [h.isLive_eq] at hdead
    cases he : (rowAt rows free).isEmpty with
    | true => exact .inl rfl
    | false => simpa [Row.isLive, he] using hdead
  isLive_free := by rwa [rowAt_set_self hfree]
  isLive_eq := by
    intro pos hpos
    rw [rowAt_set_ne mid hpos.symm, h.isLive_eq]
  rowAt_eq := by
    intro pos hpos hl
    rw [rowAt_set_ne mid hpos.symm, h.rowAt_eq pos hl]

/-- A walk that settles brings one row to life. -/
theorem Placement.Valid.exists_fillsOne {p : Placement} (hv : p.Valid)
    (h : p.settle? limit = some rows') : ∃ free, FillsOne p.rows rows' free := by
  obtain ⟨mid, free, row, hsame, hfree, hdead, hl, rfl⟩ := hv.fills h
  exact ⟨free, hsame.fillsOne hfree hdead hl⟩

/-- A walk that settles adds what its row says. -/
theorem Placement.Valid.contents_settle? {p : Placement} (hv : p.Valid)
    (h : p.settle? limit = some rows') :
    (contents rows').Perm ((p.hash, p.entry) :: contents p.rows) := by
  have hperm := (hv.liveRows_settle? h).map fun row ↦ (row.hash, row.entry)
  rwa [List.map_cons, inHand, Row.hash_live, Row.entry_live p.hash hv.entry_lt] at hperm

/-- In a chained index with an empty row, among any live rows and tombstones, a walk that carries a
new row from its home settles after looking at no more rows than there are. One empty row or
tombstone has become live then, the live rows say what they said before and what the new row says,
all other empty rows and tombstones are where they were, and the index is chained. -/
theorem placeHome?_fills_one [WalkLimit] (hc : Chained rows)
    (hempty : ∃ pos < rows.size, (rowAt rows pos).isEmpty = true) (hne : hash ≠ 0)
    (hentry : entry < 2 ^ 31) :
    ∃ rows' free,
      (Placement.start rows hash entry (home rows.size hash)).settle? rows.size = some rows' ∧
      placeHome? rows hash entry = some rows' ∧
      FillsOne rows rows' free ∧
      (contents rows').Perm ((hash, entry) :: contents rows) ∧
      Chained rows' := by
  have hsize : 0 < rows.size := by
    obtain ⟨pos, hpos, -⟩ := hempty
    omega
  have hsound : (Placement.start rows hash entry (home rows.size hash)).Sound :=
    Placement.sound_start hc hsize hne hentry
  obtain ⟨rows', hsettle, hchained⟩ := hsound.settles_of_exists_isEmpty hempty
  obtain ⟨free, hfills⟩ := hsound.valid.exists_fillsOne hsettle
  exact ⟨rows', free, hsettle, place?_of_settle? (Nat.le_succ rows.size) hsettle, hfills,
    hsound.valid.contents_settle? hsettle, hchained⟩

/-- Two live rows in their homes, a tombstone and an empty row. -/
private def frayed : Index := #[.live 4 0, .live 5 1, (Row.live 5 2).toTombstone, .empty]

/-- What becomes of them when the second one is displaced. -/
private def mended : Index := #[.live 4 0, .live 8 2, .live 5 1, .empty]

/-- The theorem at a new row that displaces another one, which ends in the place of a tombstone. -/
theorem placeHome?_fills_one_in_frayed : placeHome? frayed 8 2 = some mended ∧
    FillsOne frayed mended 2 ∧ (contents mended).Perm ((8, 2) :: contents frayed) ∧
      Chained mended := by
  have hplaced : placeHome? frayed 8 2 = some mended := by decide +kernel
  have hchained : Chained frayed := by decide +kernel
  have hempty : ∃ pos < frayed.size, (rowAt frayed pos).isEmpty = true :=
    ⟨3, by decide, by decide +kernel⟩
  have hne : (8 : UInt32) ≠ 0 := by decide
  have hentry : 2 < 2 ^ 31 := by decide
  obtain ⟨rows', free, -, hp, hfills, hperm, hchained'⟩ :=
    placeHome?_fills_one hchained hempty hne hentry
  rw [hplaced] at hp
  obtain rfl := Option.some.inj hp
  have hfree : free = 2 := by
    have hdead : (rowAt frayed 2).isLive = false := by decide +kernel
    have hlive : (rowAt mended 2).isLive = true := by decide +kernel
    by_contra hother
    rw [hfills.isLive_eq 2 (Ne.symm hother), hdead] at hlive
    cases hlive
  rw [hfree] at hfills
  exact ⟨hplaced, hfills, hperm, hchained'⟩

end Index

end RobinHood
