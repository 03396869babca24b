import RobinHood.Proofs.Index.Pristine
import RobinHood.Proofs.Refusal
import RobinHood.Proofs.Table.WellFormed

/-!
# Insertion into well-formed tables

With room for one more entry, the insertion of a stored key changes its value and nothing else. That
of a new key appends an entry, and leaves a well-formed table if the row for it can be placed
without breaking a chain. Without tombstones it always can.
-/

namespace RobinHood

namespace Table

open Index

variable {K V : Type} {keys : KeySemantics K} {t t' : Table K V} {key : K} {value : V}
  {merge : V → V → V} {entry : Nat} {rows : Index} {halt : Halt (Table K V)}

theorem reserveOne_of_lt [WalkLimit] (h : t.size < t.capacity) : t.reserveOne = .ok t := by
  rw [reserveOne, if_pos h]

theorem insertWith_of_reserveOne [WalkLimit] {hash : UInt64} {eq : K → K → Bool}
    (h : t.reserveOne = .ok t') :
    t.insertWith hash key value eq merge = t'.put (scramble hash) key value eq merge := by
  unfold insertWith
  rw [h]
  rfl

/-- A table with room does not grow. -/
theorem insertWith_of_lt [WalkLimit] {hash : UInt64} {eq : K → K → Bool}
    (hroom : t.size < t.capacity) :
    t.insertWith hash key value eq merge = t.put (scramble hash) key value eq merge :=
  insertWith_of_reserveOne (reserveOne_of_lt hroom)

/-- An insertion that is refused changes nothing, unless it is a walk that is given up. -/
theorem left_insertWith [WalkLimit] {hash : UInt64} {eq : K → K → Bool}
    (h : t.insertWith hash key value eq merge = .error halt) (hne : halt.error ≠ .noFreeRow) :
    halt.left = t := by
  rcases bind_eq_error_iff.mp h with hreserve | ⟨grown, -, hput⟩
  · exact left_reserveOne hreserve
  · obtain ⟨pos, walk, -, -, rfl⟩ := put_eq_error hput
    exact absurd rfl hne

/-- Where there is room, an insertion changes the value of the key that a lookup finds. -/
theorem insertWith_of_find?_eq_some [WalkLimit] {hash : UInt64} {eq : K → K → Bool}
    (hroom : t.size < t.capacity) (h : t.find? hash (eq key) = some entry) :
    t.insertWith hash key value eq merge = .ok ((t.entries[entry]?).map Prod.snd,
      t.modifyValue entry fun stored ↦ merge stored value) := by
  rw [insertWith_of_lt hroom]
  exact put_of_held (findSpot_eq_held_iff_find?.mpr h)

/-- Where there is room, an insertion appends a key that a lookup does not find. -/
theorem insertWith_of_find?_eq_none [WalkLimit] {hash : UInt64} {eq : K → K → Bool}
    (hroom : t.size < t.capacity) (h : t.find? hash (eq key) = none) :
    t.insertWith hash key value eq merge =
      match (findSpot t.rows (scramble hash) (t.holdsAt (eq key))).fill t.rows (scramble hash)
        t.size with
      | .settled rows =>
        .ok (none, { t with rows := rows, entries := t.entries.push (key, value) })
      | .onward walk => .error
        ⟨.noFreeRow, { t with rows := walk.rows, entries := t.entries.push (key, value) }⟩ := by
  rw [insertWith_of_lt hroom]
  apply put_of_absent
  intro entry hheld
  rw [findSpot_eq_held_iff_find?, h] at hheld
  cases hheld

/-- What an insertion makes of a table: the key has the merged value, and other keys have theirs. -/
structure Inserted (keys : KeySemantics K) (t : Table K V) (key : K) (value : V)
    (merge : V → V → V) (t' : Table K V) : Prop where
  wellFormed : t'.WellFormed keys
  capacity_eq : t'.capacity = t.capacity
  value?_eq : ∀ other, value? keys t'.entries other =
    if keys.eq other key then
      some ((value? keys t.entries key).elim value fun stored ↦ merge stored value)
    else value? keys t.entries other
  size_eq : t'.size = t.size + if (value? keys t.entries key).isSome then 0 else 1

namespace WellFormed

/-- No scan finds a new key. -/
theorem findSpot_ne_held (h : t.WellFormed keys) (hk : keys.Consistent)
    (hnew : position? keys t.entries key = none) (entry : Nat) :
    findSpot t.rows (scramble (keys.hash key)) (t.holdsAt (keys.eq key)) ≠ .held entry := by
  intro hheld
  rw [h.findSpot_eq_held_iff hk, hnew] at hheld
  cases hheld

/-- The spot found for a new key is one where the scan for it ends. -/
theorem findSpot_ends (h : t.WellFormed keys) (hk : keys.Consistent)
    (hnew : position? keys t.entries key = none) :
    ∃ n, Ends t.rows (scramble (keys.hash key)) t.size n
      (findSpot t.rows (scramble (keys.hash key)) (t.holdsAt (keys.eq key))) :=
  Index.findSpot_ends t.size (h.findSpot_ne_held hk hnew)

/-- A spot filled without breaking a chain leaves a well-formed table. -/
theorem fill [WalkLimit] (h : t.WellFormed keys) (hk : keys.Consistent)
    (hnew : position? keys t.entries key = none) (hroom : t.size < t.capacity)
    (hfits : t.size < Row.entryBound)
    (hfill : (findSpot t.rows (scramble (keys.hash key)) (t.holdsAt (keys.eq key))).fill? t.rows
      (scramble (keys.hash key)) t.size = some rows) (hc : Chained rows) :
    ({ t with rows := rows, entries := t.entries.push (key, value) } : Table K V).WellFormed
      keys := by
  obtain ⟨n, hends⟩ := h.findSpot_ends hk hnew
  have hne := scramble_ne_zero (keys.hash key)
  exact h.push hk hnew hroom hfits (Spot.size_fill? hfill)
    (hends.liveRows_fill? h.rows_pos hne hfits hfill) hc

/-- A stored key has its value changed. -/
theorem put_of_present [WalkLimit] (h : t.WellFormed keys) (hk : keys.Consistent)
    (hp : position? keys t.entries key = some entry) :
    t.put (scramble (keys.hash key)) key value keys.eq merge =
      .ok (value? keys t.entries key, t.modifyValue entry fun stored ↦ merge stored value) := by
  rw [put_of_held ((h.findSpot_eq_held_iff hk).mpr hp), value?, hp]
  rfl

/-- Once there is room, a stored key has its value changed. -/
theorem insertWith_of_stored [WalkLimit] {grown : Table K V} (h : t.WellFormed keys)
    (hk : keys.Consistent) (hr : t.reserveOne = .ok grown) (hg : Grown t grown)
    (hp : position? keys t.entries key = some entry) :
    t.insertWith (keys.hash key) key value keys.eq merge =
      .ok (value? keys t.entries key, grown.modifyValue entry fun stored ↦ merge stored value) := by
  have hentries := hg.entries_eq
  rw [← hentries] at hp ⊢
  rw [insertWith_of_reserveOne hr, (h.of_grown hg).put_of_present hk hp]

/-- Once there is room, a new key is appended if the spot for it can be filled without breaking a
chain. Its merge has no part in that. -/
theorem exists_insertWith_of_fill? [WalkLimit] {grown : Table K V} (h : t.WellFormed keys)
    (hk : keys.Consistent) (hr : t.reserveOne = .ok grown) (hg : Grown t grown)
    (hroom : grown.size < grown.capacity) (hfits : grown.size < Row.entryBound)
    (hnew : position? keys grown.entries key = none)
    (hfill : (findSpot grown.rows (scramble (keys.hash key)) (grown.holdsAt (keys.eq key))).fill?
      grown.rows (scramble (keys.hash key)) grown.size = some rows) (hc : Chained rows) :
    ∃ t', t'.WellFormed keys ∧ t'.entries = t.entries.push (key, value) ∧
      t'.capacity = grown.capacity ∧ ∀ merge,
        t.insertWith (keys.hash key) key value keys.eq merge = .ok (none, t') := by
  have hgrown := h.of_grown hg
  refine ⟨{ grown with rows := rows, entries := grown.entries.push (key, value) },
    hgrown.fill hk hnew hroom hfits hfill hc, ?_, rfl, fun merge ↦ ?_⟩
  · rw [hg.entries_eq]
  · rw [insertWith_of_reserveOne hr, put_of_fill? (hgrown.findSpot_ne_held hk hnew) hfill]

theorem inserted_of_present (h : t.WellFormed keys) (hk : keys.Consistent)
    (hp : position? keys t.entries key = some entry) :
    Inserted keys t key value merge (t.modifyValue entry fun stored ↦ merge stored value) := by
  obtain ⟨e, he, -⟩ := position?_eq_some hp
  have hvalue : value? keys t.entries key = some e.2 := by
    rw [value?, hp, Option.bind_some, he, Option.map_some]
  refine ⟨h.modifyValue entry _, rfl, fun other ↦ ?_, ?_⟩
  · rw [Table.modifyValue, value?_modify h.distinct hk hp other fun stored ↦ merge stored value,
      hvalue]
    split
    · next heq =>
      rw [value?_congr hk heq, hvalue]
      rfl
    · rfl
  · rw [hvalue]
    exact Array.size_modify

theorem inserted_of_absent (hk : keys.Consistent) (hnew : position? keys t.entries key = none)
    (h : ({ t with rows := rows, entries := t.entries.push (key, value) } : Table K V).WellFormed
      keys) :
    Inserted keys t key value merge
      { t with rows := rows, entries := t.entries.push (key, value) } := by
  have hvalue := value?_eq_none_iff.mpr hnew
  refine ⟨h, rfl, fun other ↦ ?_, ?_⟩
  · rw [value?_push, hvalue]
    split
    · next heq =>
      rw [value?_congr hk heq, hvalue]
      rfl
    · rw [Option.or_none]
  · rw [hvalue]
    exact Array.size_push _

/-- Without tombstones, an insertion into a table with room succeeds. -/
theorem exists_insertWith [WalkLimit] (h : t.WellFormed keys) (hk : keys.Consistent)
    (hp : Pristine t.rows) (hroom : t.size < t.capacity) (hfits : t.size < Row.entryBound)
    (key : K) (value : V) (merge : V → V → V) :
    ∃ t', t.insertWith (keys.hash key) key value keys.eq merge =
      .ok (value? keys t.entries key, t') ∧
      Inserted keys t key value merge t' ∧ Pristine t'.rows := by
  rw [insertWith_of_lt hroom]
  cases hpos : position? keys t.entries key with
  | some entry =>
    exact ⟨_, h.put_of_present hk hpos, h.inserted_of_present hk hpos, hp⟩
  | none =>
    obtain ⟨n, hends⟩ := h.findSpot_ends hk hpos
    have hne := scramble_ne_zero (keys.hash key)
    have hfree : (liveRows t.rows).length < t.rows.size := by
      have hcount := lt_rowCount t.capacity
      rw [h.length_liveRows, h.rows_size]
      omega
    obtain ⟨rows, hfill, hfresh⟩ := Fresh.fill? ⟨h.chained, hp⟩ hfree hne hfits hends
    refine ⟨{ t with rows := rows, entries := t.entries.push (key, value) }, ?_,
      inserted_of_absent hk hpos (h.fill hk hpos hroom hfits hfill hfresh.chained), hfresh.pristine⟩
    rw [put_of_fill? (h.findSpot_ne_held hk hpos) hfill, value?_eq_none_iff.mpr hpos]

end WellFormed

end Table

end RobinHood
