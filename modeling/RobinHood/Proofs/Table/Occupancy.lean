import RobinHood.Proofs.Table.Filling
import RobinHood.Table.Stats

/-!
# What the order of insertion leaves no trace of

Where rows stand and how far from home depends on the hashes alone as long as there are no
tombstones. So the histogram of distances and the occupancy figures of a table do not tell in which
order its keys were put in, although the layout of the rows may.
-/

namespace RobinHood

namespace Table

open Index

variable {K V V' : Type} {t : Table K V} {t' : Table K V'}

/-- The distances of a table are those of its live rows, position by position. -/
theorem distances_eq (t : Table K V) : t.distances = (List.range t.rows.size).filterMap fun pos ↦
    if (rowAt t.rows pos).isLive then some (distAt t.rows pos) else none := by
  have hzip : t.rows.toList.zipIdx =
      (List.range t.rows.size).map fun pos ↦ (rowAt t.rows pos, pos) := by
    apply List.ext_getElem
    · simp
    · intro i h1 h2
      simp [toList_eq_map_rowAt]
  rw [distances, hzip, List.filterMap_map]
  rfl

/-- Tables with alike indexes have the same histogram. -/
theorem histogram_eq_of_alike (h : Alike t.rows t'.rows) : t.histogram = t'.histogram := by
  have hdist : t.distances = t'.distances := by
    rw [distances_eq, distances_eq, h.size_eq]
    congr 1
    funext pos
    rcases h.row pos with ⟨hem, hem'⟩ | ⟨hl, hl', hd⟩
    · simp [Row.isLive_of_isEmpty hem, Row.isLive_of_isEmpty hem']
    · simp [hl, hl', hd]
  rw [histogram, histogram, hdist]

/-- Tables of one size and capacity with alike indexes have the same figures, if none of them has a
tombstone. -/
theorem stats_eq_of_alike (h : Alike t.rows t'.rows) (hp : Pristine t.rows)
    (hp' : Pristine t'.rows) (hsize : t.size = t'.size) (hcap : t.capacity = t'.capacity)
    (entryBytes : Nat) : t.stats entryBytes = t'.stats entryBytes := by
  unfold stats
  rw [hsize, hcap, h.size_eq, pristine_iff.mp hp, pristine_iff.mp hp', histogram_eq_of_alike h]

namespace Filled

variable {hash : K → UInt64} {capacity : Nat} {l : List (K × V)} {l' : List (K × V')}

/-- Some row of a filled table stays empty. -/
theorem exists_isEmpty (h : Filled hash capacity l t) :
    ∃ pos < t.rows.size, (rowAt t.rows pos).isEmpty = true := by
  apply h.fresh.pristine.exists_isEmpty
  have hcount := lt_rowCount t.capacity
  have hsize := h.built.indexed.size_le
  rw [h.built.indexed.length_liveRows, h.built.indexed.rows_size]
  omega

/-- Filling with equally many keys leads to equally many rows. -/
theorem size_rows_eq (h : Filled hash capacity l t) (h' : Filled hash capacity l' t')
    (hlen : l'.length = l.length) : t'.rows.size = t.rows.size := by
  rw [h.built.indexed.rows_size, h'.built.indexed.rows_size, h.capacity_eq, h'.capacity_eq, hlen]

/-- Filling with the same keys leads to rows with the same hashes. -/
theorem hashes_perm_of_perm (h : Filled hash capacity l t) (h' : Filled hash capacity l' t')
    (hperm : (l'.map Prod.fst).Perm (l.map Prod.fst)) : (hashes t'.rows).Perm (hashes t.rows) := by
  have hkeys := hperm.map fun key ↦ scramble (hash key)
  rw [List.map_map, List.map_map] at hkeys
  exact (h'.hashes_perm.trans hkeys).trans h.hashes_perm.symm

/-- Filling with the same keys leads to alike indexes. -/
theorem alike (h : Filled hash capacity l t) (h' : Filled hash capacity l' t')
    (hperm : (l'.map Prod.fst).Perm (l.map Prod.fst)) : Alike t.rows t'.rows :=
  alike_of_hashes_perm h.fresh.chained h'.fresh.chained h.fresh.pristine h'.fresh.pristine
    (h.size_rows_eq h' (by simpa using hperm.length_eq)) h.exists_isEmpty h'.exists_isEmpty
    (h.hashes_perm_of_perm h' hperm)

end Filled

/-- Chained indexes of one size, without tombstones and with an empty row in each, are alike if
their live rows have the same hashes. So tables of one starting capacity into which the same
new keys are put, in any two orders and under any values, end with the same histogram and the
same occupancy figures; and where the keys are too many, either order is refused. -/
theorem occupancy_forgets_order :
    (∀ rows rows' : Index, Chained rows → Chained rows' → tombstones rows = 0 →
      tombstones rows' = 0 → rows'.size = rows.size →
      (∃ pos < rows.size, (rowAt rows pos).isEmpty = true) →
      (∃ pos < rows'.size, (rowAt rows' pos).isEmpty = true) →
      ((liveRows rows').map Row.hash).Perm ((liveRows rows).map Row.hash) → Alike rows rows') ∧
    ∀ {K V V' : Type} (hash : K → UInt64) (eq : K → K → Bool) (merge : V → V → V)
      (merge' : V' → V' → V') (capacity : Nat) (l : List (K × V)) (l' : List (K × V')),
      capacity ≤ maxCapacity → AllNew eq (l.map Prod.fst) →
      (l'.map Prod.fst).Perm (l.map Prod.fst) →
      if l.length ≤ maxCapacity then ∃ t t',
        ofEntries hash eq merge capacity l = .ok t ∧
        ofEntries hash eq merge' capacity l' = .ok t' ∧
        Alike t.rows t'.rows ∧ t.histogram = t'.histogram ∧
        ∀ entryBytes, t.stats entryBytes = t'.stats entryBytes
      else
        ofEntries hash eq merge capacity l =
          .error (.capacityExceeded (maxCapacity + 1) maxCapacity) ∧
        ofEntries hash eq merge' capacity l' =
          .error (.capacityExceeded (maxCapacity + 1) maxCapacity) := by
  constructor
  · intro rows rows' hc hc' hp hp' hsize he he' hperm
    exact alike_of_hashes_perm hc hc' (pristine_iff.mpr hp) (pristine_iff.mpr hp') hsize he he'
      hperm
  · intro K V V' hash eq merge merge' capacity l l' hmax hnew hperm
    have hlen : l'.length = l.length := by simpa using hperm.length_eq
    have hnew' : AllNew eq (l'.map Prod.fst) := (hperm.pairwise_iff And.symm).mpr hnew
    split
    · next hle =>
      obtain ⟨t, hok, ht⟩ := exists_ofEntries hmax hle hnew hash merge
      obtain ⟨t', hok', ht'⟩ := exists_ofEntries hmax (by rwa [hlen]) hnew' hash merge'
      have halike := ht.alike ht' hperm
      refine ⟨t, t', hok, hok', halike, histogram_eq_of_alike halike, ?_⟩
      apply stats_eq_of_alike halike ht.fresh.pristine ht'.fresh.pristine
      · rw [ht.size_eq, ht'.size_eq, hlen]
      · rw [ht.capacity_eq, ht'.capacity_eq, hlen]
    · next hgt =>
      have hover := Nat.not_le.mp hgt
      exact ⟨ofEntries_eq_error hmax hover hnew hash merge,
        ofEntries_eq_error hmax (by rwa [hlen]) hnew' hash merge'⟩

/-- Five keys of two hashes. -/
private def shuffled : List (Nat × Nat) := [(70, 0), (71, 1), (80, 2), (72, 3), (81, 4)]

/-- The theorem at five keys that are put into a table of capacity four, in one order and in the
reverse order: the rows differ, and yet the indexes are alike. -/
theorem occupancy_forgets_order_reversed : ∃ t t' : Table Nat Nat,
    ofEntries (fun k ↦ (k / 10).toUInt64) (· == ·) (fun _ new ↦ new) 4 shuffled = .ok t ∧
    ofEntries (fun k ↦ (k / 10).toUInt64) (· == ·) (fun _ new ↦ new) 4 shuffled.reverse = .ok t' ∧
    t.rows ≠ t'.rows ∧ Alike t.rows t'.rows ∧ t.histogram = t'.histogram := by
  have hmax : 4 ≤ maxCapacity := by decide
  have hlen : shuffled.length ≤ maxCapacity := by decide
  have hnew : AllNew (· == ·) (shuffled.map Prod.fst) := by
    rw [AllNew]
    decide
  have hnew' : AllNew (· == ·) (shuffled.reverse.map Prod.fst) := by
    rw [AllNew]
    decide
  have hperm : (shuffled.reverse.map Prod.fst).Perm (shuffled.map Prod.fst) :=
    shuffled.reverse_perm.map _
  have hdiffer : (ofEntries (fun k ↦ (k / 10).toUInt64) (· == ·) (fun _ new ↦ new) 4
        shuffled).map Table.rows ≠
      (ofEntries (fun k ↦ (k / 10).toUInt64) (· == ·) (fun _ new ↦ new) 4
        shuffled.reverse).map Table.rows := by
    decide +kernel
  obtain ⟨t, hok, ht⟩ := exists_ofEntries hmax hlen hnew (fun k ↦ (k / 10).toUInt64) fun _ new ↦ new
  obtain ⟨t', hok', ht'⟩ := exists_ofEntries (l := shuffled.reverse) hmax
    (by rwa [List.length_reverse]) hnew' (fun k ↦ (k / 10).toUInt64) fun _ new ↦ new
  obtain ⟨hindexes, hruns⟩ := occupancy_forgets_order
  have hrun := hruns (fun k ↦ (k / 10).toUInt64) (· == ·) (fun _ new ↦ new) (fun _ new ↦ new) 4
    shuffled shuffled.reverse hmax hnew hperm
  rw [if_pos hlen, hok, hok'] at hrun
  obtain ⟨_, _, hsame, hsame', -, hhistogram, -⟩ := hrun
  cases hsame
  cases hsame'
  refine ⟨t, t', hok, hok', ?_, ?_, hhistogram⟩
  · intro hrows
    rw [hok, hok'] at hdiffer
    exact hdiffer (congrArg Except.ok hrows)
  · exact hindexes t.rows t'.rows ht.fresh.chained ht'.fresh.chained
      (pristine_iff.mp ht.fresh.pristine) (pristine_iff.mp ht'.fresh.pristine)
      (ht.size_rows_eq ht' (by simp)) ht.exists_isEmpty ht'.exists_isEmpty
      (ht.hashes_perm_of_perm ht' hperm)

end Table

end RobinHood
