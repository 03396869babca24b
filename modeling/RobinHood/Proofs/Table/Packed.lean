import RobinHood.Proofs.Index.Packed
import RobinHood.Proofs.Table.Overrun

/-!
# What tables write into their index

Tables hand a hash and the position of an entry to each row that they pack. The hash is a scrambled
one or that of a live row, and so never zero, and the position is one of the store, which is far
below what a row has room for. So what is read off the rows of a table is what was packed, and each
of them is of one kind.
-/

namespace RobinHood

namespace Table

open Index Placement

variable {K V : Type} {t t' : Table K V} {capacity : Nat}

/-! ### Growth -/

-- The induction is over the rows still to be placed, on any packed index.
private theorem packed_placeAll [WalkLimit] {live : List Row}
    (hlive : ∀ row ∈ live, (Row.live row.hash row.entry).Written) {start rows : Index}
    (hs : Packed start)
    (h : live.foldlM (fun rows row ↦ placeHome? rows row.hash row.entry) start = some rows) :
    Packed rows := by
  induction live generalizing start with
  | nil =>
    cases h
    exact hs
  | cons row live ih =>
    rw [List.foldlM_cons] at h
    obtain ⟨next, hplace, hrest⟩ := Option.bind_eq_some_iff.mp h
    have hnext := hs.place? (hlive row List.mem_cons_self) hplace
    exact ih (fun r hr ↦ hlive r (List.mem_cons_of_mem row hr)) hnext hrest

theorem packed_rebuild? [WalkLimit] {rows rows' : Index} {size : Nat} (h : Packed rows)
    (hr : rebuild? size (liveRows rows) = some rows') : Packed rows' := by
  refine packed_placeAll (fun row hrow ↦ ?_) (Packed.blank size) hr
  obtain ⟨hl, pos, hpos, rfl⟩ := mem_liveRows_iff.mp hrow
  exact (h _ (rowAt_mem hpos)).again (Row.hash_ne_of_isLive hl)

theorem packed_grow [WalkLimit] (h : Packed t.rows) (hg : t.grow capacity = .ok t') :
    Packed t'.rows := by
  obtain ⟨-, ⟨-, rfl⟩ | ⟨-, ⟨-, rfl⟩ | ⟨-, rows, hr, rfl⟩⟩⟩ := grow_cases hg
  · exact h
  · exact h
  · exact packed_rebuild? h hr

theorem packed_reserve [WalkLimit] {additional : Nat} (h : Packed t.rows)
    (hr : t.reserve additional = .ok t') : Packed t'.rows := by
  rcases reserve_eq_ok hr with rfl | ⟨capacity, hg⟩
  · exact h
  · exact packed_grow h hg

theorem packed_reserveOne [WalkLimit] (h : Packed t.rows) (hr : t.reserveOne = .ok t') :
    Packed t'.rows := by
  rcases reserveOne_eq_ok hr with rfl | ⟨capacity, hg⟩
  · exact h
  · exact packed_grow h hg

/-! ### Insertion and removal -/

/-- A new row is packed for the position after the last entry. -/
theorem Built.packed_insertWith [WalkLimit] (hb : t.Built) (h : Packed t.rows) {hash : UInt64}
    {key : K} {value : V} {eq : K → K → Bool} {merge : V → V → V} {answer : Option V}
    (hi : t.insertWith hash key value eq merge = .ok (answer, t')) : Packed t'.rows := by
  obtain ⟨grown, hr, hp⟩ := bind_eq_ok_iff.mp hi
  have hgrown := packed_reserveOne h hr
  obtain ⟨hbuilt, -, hroom⟩ := hb.reserveOne hr
  rcases put_cases hp with ⟨entry, -, -, rfl⟩ | ⟨rows, -, hfill, -, rfl⟩
  · exact hgrown
  · have hfits : grown.size < maxCapacity := Nat.lt_of_lt_of_le hroom hbuilt.le_maxCapacity
    exact hgrown.fill? (.live (scramble_ne_zero hash) hfits) hfill

/-- A removal marks one live row, and packs another one for the position that the first one had. -/
theorem Built.packed_remove (hb : t.Built) (h : Packed t.rows) (hash : UInt64) (eq : K → Bool)
    (hasher : K → UInt64) : Packed (t.remove hash eq hasher).2.rows := by
  cases hfound : t.findRow? (scramble hash) eq with
  | none =>
    rw [Table.remove, hfound]
    exact h
  | some pos =>
    have hwritten {p : Nat} (hl : (rowAt t.rows p).isLive = true) :
        (rowAt t.rows p).Written ∧ (rowAt t.rows p).hash ≠ 0 :=
      ⟨h _ (rowAt_mem (lt_size_of_isLive hl)), Row.hash_ne_of_isLive hl⟩
    have hl := isLive_of_findRow? hfound
    obtain ⟨hw, hne⟩ := hwritten hl
    rw [remove_of_findRow? hfound]
    rcases hb.indexed.paired.rows_removeRow_cases hl hasher with
      ⟨-, hrows⟩ | ⟨owner, -, hlive, -, hrows⟩
    · rw [hrows]
      exact h.set (hw.entomb hne)
    · rw [hrows]
      have hmoved : ((rowAt t.rows owner).withEntry (rowAt t.rows pos).entry).Written :=
        .live (hwritten hlive).2 (hw.entry_lt hne)
      exact (h.set hmoved).set (hw.entomb hne)

/-! ### Whole tables -/

theorem Built.packed_mergeWith [WalkLimit] (hb : t.Built) (h : Packed t.rows) {other : Table K V}
    {m : Merged K V} {hasher : K → UInt64} {eq : K → K → Bool} {merge : V → V → V}
    (hm : t.mergeWith other hasher eq merge = .ok m) : Packed m.table.rows := by
  obtain ⟨grown, hg, hloop⟩ := bind_eq_ok_iff.mp hm
  have hgrow := Halt.forget_eq_ok_iff.mp hg
  have hgrown : grown.Built ∧ Packed grown.rows := ⟨hb.grow hgrow, packed_grow h hgrow⟩
  refine (foldlM_keeps (P := fun m : Merged K V ↦ m.table.Built ∧ Packed m.table.rows) ?_ hgrown
    hloop).2
  intro m e _ m' ⟨hbuilt, hpacked⟩ hinsert
  obtain ⟨⟨answer, table⟩, hi, hok⟩ := bind_eq_ok_iff.mp hinsert
  cases hok
  have hone := Halt.forget_eq_ok_iff.mp hi
  exact ⟨hbuilt.insertWith hone, hbuilt.packed_insertWith hpacked hone⟩

theorem packed_pushNew [WalkLimit] {hash : UInt32} {key : K} {value : V} (h : Packed t.rows)
    (hne : hash ≠ 0) (hroom : t.size < maxCapacity) (hp : t.pushNew hash key value = .ok t') :
    Packed t'.rows ∧ t'.size = t.size + 1 := by
  obtain ⟨rows, hplace, rfl⟩ := append_eq_ok hp
  exact ⟨h.place? (.live hne hroom) hplace, Array.size_push _⟩

-- The induction is over the entries still to be pushed, onto any table with room for them.
private theorem packed_pushAll [WalkLimit] {kept : List (Row × K × V)}
    (hlive : ∀ e ∈ kept, e.1.hash ≠ 0) (hroom : t.size + kept.length ≤ maxCapacity)
    (h : Packed t.rows)
    (hp : kept.foldlM
      (fun t (row, key, value) ↦ Halt.forget (t.pushNew row.hash key value)) t = .ok t') :
    Packed t'.rows := by
  induction kept generalizing t with
  | nil =>
    cases hp
    exact h
  | cons e kept ih =>
    rw [List.length_cons] at hroom
    rw [List.foldlM_cons] at hp
    obtain ⟨next, hpush, hrest⟩ := bind_eq_ok_iff.mp hp
    obtain ⟨hnext, hsize⟩ := packed_pushNew h (hlive e List.mem_cons_self) (by omega)
      (Halt.forget_eq_ok_iff.mp hpush)
    exact ih (fun e he ↦ hlive e (List.mem_cons_of_mem _ he)) (by omega) hnext hrest

theorem Built.packed_ofRows [WalkLimit] (hb : t.Built) {kept : List (Row × K × V)}
    (hkept : kept.Sublist t.entriesByRow) (ho : Table.ofRows capacity kept = .ok t') :
    Packed t'.rows := by
  obtain ⟨empty, hempty, hpush⟩ := bind_eq_ok_iff.mp ho
  have hlive (e : Row × K × V) (he : e ∈ kept) : e.1.hash ≠ 0 :=
    Row.hash_ne_of_isLive (mem_entriesByRow (hkept.subset he)).1
  have hle : kept.length ≤ maxCapacity :=
    Nat.le_trans (Nat.le_trans hkept.length_le hb.length_entriesByRow_le) hb.size_le
  obtain ⟨-, rfl⟩ := withCapacity_eq_ok hempty
  exact packed_pushAll hlive (by rwa [Table.blank, size, Array.size_empty, Nat.zero_add])
    (Packed.blank _) hpush

theorem Built.packed_select [WalkLimit] {W : Type} (hb : t.Built) {other : Table K W}
    {hasher : K → UInt64} {eq : K → K → Bool} {found : Bool}
    (hs : t.select other hasher eq found = .ok t') :
    Packed t'.rows :=
  hb.packed_ofRows List.filter_sublist hs

theorem Built.packed_split [WalkLimit] (hb : t.Built) (h : Packed t.rows) {parts : Nat}
    {ts : List (Table K V)} (hs : t.split parts = .ok ts) (ht : t' ∈ ts) : Packed t'.rows := by
  unfold Table.split at hs
  split at hs
  · cases hs
    cases ht
  · cases hs
    rw [List.mem_singleton.mp ht]
    exact h
  · obtain ⟨kept, hkept, hok⟩ := mem_of_mapM_eq_ok hs ht
    obtain ⟨rows, hrows, rfl⟩ := List.mem_map.mp (List.mem_of_mem_filter hkept)
    exact hb.packed_ofRows (entriesByRow_block_sublist t hrows) hok

/-- Whatever functions a program hands in, the tables that it gets hold of are packed. -/
theorem Reachable.packed [WalkLimit] {t : Table K V} (h : Reachable t) : Packed t.rows := by
  induction h with
  | withCapacity h =>
    obtain ⟨-, rfl⟩ := withCapacity_eq_ok h
    exact .blank _
  | insertWith hr hi ih => exact hr.built.packed_insertWith ih hi
  | remove hash eq hasher hr ih => exact hr.built.packed_remove ih hash eq hasher
  | reserve _ hr ih => exact packed_reserve ih hr
  | modifyValue entry f _ ih => exact ih
  | clear _ ih => exact .blank _
  | mergeWith hr _ hm ih _ => exact hr.built.packed_mergeWith ih hm
  | select hr _ hs _ _ => exact hr.built.packed_select hs
  | split hr hs ht ih => exact hr.built.packed_split ih hs ht

/-- The fields of a row fill its word side by side. The row packed for a hash other than zero and a
position that fits reads as live, with that hash and that position; its tombstone reads as a
tombstone, with the same two; and a live row that is packed again for another position reads as live
with its own hash and that position. A row passes exactly one of the tests for its kind exactly if
it is marked as a tombstone only with a hash. No key is packed with the hash zero, no walk writes a
row of another form than tables write, whether it settles or not, and all rows of each table that a
program gets hold of are of those forms, so that each passes one test. -/
theorem rows_read_as_packed [WalkLimit] :
    (∀ r : Row, r.word.toNat =
      r.hash.toNat + 2 ^ 32 * r.entry + 2 ^ 63 * r.isTombstone.toNat) ∧
    (∀ hash entry, hash ≠ 0 → entry < Row.entryBound →
      (Row.live hash entry).Reads hash entry .live ∧
      (Row.live hash entry).toTombstone.Reads hash entry .tombstone) ∧
    (∀ r : Row, r.isLive = true → ∀ entry < Row.entryBound,
      (r.withEntry entry).Reads r.hash entry .live) ∧
    (∀ r : Row, (∃! kind, r.passes kind = true) ↔ (r.isTombstone = true → r.hash ≠ 0)) ∧
    (∀ hash, scramble hash ≠ 0) ∧
    (∀ rows hash entry pos n q, Packed rows → hash ≠ 0 → entry < maxCapacity →
      Reaches (start rows hash entry pos) n q → Packed q.rows) ∧
    ∀ (K V : Type) (t : Table K V), Reachable t →
      ∀ row ∈ t.rows, row.Written ∧ (row.isTombstone = true → row.hash ≠ 0) := by
  refine ⟨Row.word_toNat, fun hash entry hne he ↦ ⟨Row.reads_live hne he, ?_⟩,
    fun r hl entry he ↦ Row.reads_withEntry hl he, fun r ↦ Row.existsUnique_passes_iff,
    scramble_ne_zero, fun rows hash entry pos n q h hne he hr ↦ ?_, fun K V t h row hrow ↦ ?_⟩
  · have hread := Row.reads_live hne he
    have htomb := Row.reads_toTombstone (r := Row.live hash entry) (by rwa [hread.hash_eq])
    rwa [hread.hash_eq, hread.entry_eq] at htomb
  · exact (Packed.reaches (p := start rows hash entry pos) h (.live hne he) hr).2
  · have hw := h.packed row hrow
    exact ⟨hw, hw.hash_ne⟩

/-- Two rows, the second of which is displaced by a new row of the hash of the first. -/
private def pair : Index := #[.empty, .live 1 0, .live 2 1, .empty]

/-- Three keys in two homes, the first of which is removed. -/
private def vacated : List (Call Nat Nat) :=
  [.insert 70 0, .insert 71 1, .insert 80 2, .remove 70]

/-- The theorem at the row whose hash and position have all bits set, at a walk that has changed
places with a row and not settled yet, and at a table with a tombstone and a row packed twice. -/
theorem rows_read_as_packed_full :
    (Row.live 0xffffffff 0x7fffffff).Reads 0xffffffff 0x7fffffff .live ∧
    (Row.live 0xffffffff 0x7fffffff).toTombstone.Reads 0xffffffff 0x7fffffff .tombstone ∧
    ((Row.live 0xffffffff 0x7fffffff).withEntry 0).Reads 0xffffffff 0 .live ∧
    (∃ q, Reaches (start pair 1 2 1) 2 q ∧ q.inHand = .live 2 1 ∧ Packed q.rows) ∧
    ∃ t : Table Nat Nat, Reachable t ∧ rowAt t.rows 7 = (Row.live 7 0).toTombstone ∧
      rowAt t.rows 1 = .live 8 0 ∧ ∀ row ∈ t.rows, row.Written := by
  obtain ⟨-, hread, hagain, -, -, hwalk, htable⟩ := rows_read_as_packed
  obtain ⟨hlive, htomb⟩ := hread 0xffffffff 0x7fffffff (by decide) (by decide)
  have hmoved := hagain (Row.live 0xffffffff 0x7fffffff) (by decide +kernel) 0 (by decide)
  rw [hlive.hash_eq] at hmoved
  refine ⟨hlive, htomb, hmoved, ?_, ?_⟩
  · have hr : Reaches (start pair 1 2 1) 2 (start pair 1 2 1).pass.swap := by
      refine .onward (.onward (.refl _) (step_of_le ?_ ?_)) (step_of_lt ?_ ?_ ?_) <;>
        decide +kernel
    have hpacked : Packed pair := by decide +kernel
    exact ⟨_, hr, by decide +kernel, hwalk _ _ _ _ _ _ hpacked (by decide) (by decide) hr⟩
  · have hrows : (build tens 4 vacated).map (fun t ↦ (rowAt t.rows 7, rowAt t.rows 1)) =
        .ok ((Row.live 7 0).toTombstone, .live 8 0) := by
      decide +kernel
    cases ht : build tens 4 vacated with
    | error e =>
      rw [ht] at hrows
      cases hrows
    | ok t =>
      rw [ht] at hrows
      obtain ⟨htombstone, hpacked⟩ := Prod.mk.inj (Except.ok.inj hrows)
      have hreach := reachable_of_build ht
      exact ⟨t, hreach, htombstone, hpacked, fun row hrow ↦ (htable _ _ t hreach row hrow).1⟩

end Table

end RobinHood
