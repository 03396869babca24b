import RobinHood.Proofs.Table.WellFormed

/-!
# Removal keeps lookups exact

A removal changes two rows at most, and neither its hash: the removed row becomes a tombstone, and
the row of the last entry stands for the freed position. So no chain is broken, and the store
after it is the store with the entry swap-removed.
-/

namespace RobinHood

namespace Table

open Index

variable {K V : Type} {keys : KeySemantics K} {t : Table K V} {key : K} {entry pos : Nat}

namespace Searchable

/-- The rows keep the hashes of their keys: the last entry brings its hash along. -/
private theorem hashed_removeRow (h : t.Searchable keys) (hl : (rowAt t.rows pos).isLive = true)
    (hasher : K → UInt64) :
    Hashed keys (t.removeRow pos hasher).rows (t.removeRow pos hasher).entries := by
  have hentry := h.paired.entry_lt hl
  intro row hrow e he
  obtain ⟨hlive, other, -, rfl⟩ := mem_liveRows_iff.mp hrow
  rw [entries_removeRow, getElem?_swapRemove hentry] at he
  split at he
  · rw [h.paired.rowAt_removeRow hl] at hlive he ⊢
    by_cases hp : other = pos
    · rw [if_pos hp, Row.isLive_toTombstone] at hlive
      cases hlive
    · rw [if_neg hp] at hlive he ⊢
      split at he
      · next hmoved =>
        rw [if_pos hmoved, Row.withEntry, Row.hash_live]
        rw [Row.withEntry, Row.entry_live _ (Row.entry_lt _), if_pos rfl] at he
        apply h.hashed _ (rowAt_mem_liveRows hmoved.1) e
        rw [hmoved.2]
        exact he
      · next hkept =>
        rw [if_neg hkept] at hlive ⊢
        have hne : (rowAt t.rows other).entry ≠ (rowAt t.rows pos).entry := by
          intro heq
          exact hp (eq_of_entry_eq h.paired.nodup hlive hl heq)
        rw [if_neg hne] at he
        exact h.hashed _ (rowAt_mem_liveRows hlive) e he
  · cases he

theorem removeRow (h : t.Searchable keys) (hl : (rowAt t.rows pos).isLive = true)
    (hasher : K → UInt64) : (t.removeRow pos hasher).Searchable keys where
  paired := h.paired.removeRow hl hasher
  hashed := h.hashed_removeRow hl hasher
  distinct := by
    rw [entries_removeRow]
    exact h.distinct.swapRemove (h.paired.entry_lt hl)
  chained := by
    apply h.chained.of_hash_eq (h.paired.size_rows_removeRow hl hasher)
    · intro other
      rw [h.paired.rowAt_removeRow hl]
      split
      · next hp => rw [hp, Row.hash_toTombstone]
      · split
        · rw [Row.withEntry, Row.hash_live]
        · rfl
    · intro other hlive
      rw [h.paired.rowAt_removeRow hl] at hlive
      split at hlive
      · rw [Row.isLive_toTombstone] at hlive
        cases hlive
      · split at hlive
        · next hmoved => exact hmoved.1
        · exact hlive

/-- The removal of a stored key takes away its entry and the live row of that entry. -/
theorem remove_of_present (h : t.Searchable keys) (hk : keys.Consistent)
    (hp : position? keys t.entries key = some entry) (hasher : K → UInt64) :
    ∃ pos, (rowAt t.rows pos).isLive = true ∧ (rowAt t.rows pos).entry = entry ∧
      t.remove (keys.hash key) (keys.eq key) hasher =
        (t.entries[entry]?, t.removeRow pos hasher) := by
  obtain ⟨pos, hl, hentry⟩ := h.paired.exists_row (lt_size_of_position? hp)
  have hfound := (h.findRow?_eq_some_iff hk).mpr ⟨hl, by rw [hp, hentry]⟩
  refine ⟨pos, hl, hentry, ?_⟩
  rw [remove_of_findRow? hfound, hentry]

/-- The removal of a key that is not stored changes nothing. -/
theorem remove_of_absent (h : t.Searchable keys) (hk : keys.Consistent)
    (hp : position? keys t.entries key = none) (hasher : K → UInt64) :
    t.remove (keys.hash key) (keys.eq key) hasher = (none, t) := by
  have hfind := h.find?_eq hk key
  rw [hp, find?, Option.map_eq_none_iff] at hfind
  rw [remove, hfind]

end Searchable

namespace WellFormed

theorem removeRow (h : t.WellFormed keys) (hl : (rowAt t.rows pos).isLive = true)
    (hasher : K → UInt64) : (t.removeRow pos hasher).WellFormed keys :=
  have hi := h.toIndexed.removeRow hl hasher
  of_searchable (h.searchable.removeRow hl hasher) hi.rows_size hi.size_le

/-- The removal of a stored key. -/
theorem remove_of_present (h : t.WellFormed keys) (hk : keys.Consistent)
    (hp : position? keys t.entries key = some entry) :
    ∃ t', t.remove (keys.hash key) (keys.eq key) keys.hash = (t.entries[entry]?, t') ∧
      t'.WellFormed keys ∧ t'.entries = swapRemove t.entries entry := by
  obtain ⟨pos, hl, hentry, hok⟩ := h.searchable.remove_of_present hk hp keys.hash
  refine ⟨t.removeRow pos keys.hash, hok, h.removeRow hl keys.hash, ?_⟩
  rw [entries_removeRow, hentry]

end WellFormed

/-! ### The hasher -/

/-- A removal from a table whose rows and entries are paired does not depend on the hasher, however
little it has to do with the hashes in the rows: the answer and the whole table after it are the
same. The removed entry is there, and if it is not the last one, every hasher leads to the row of
the last one; only the start of that search varies. -/
theorem remove_ignores_hasher (h : t.Paired) (hash : UInt64) (eq : K → Bool) :
    (∀ hasher hasher', t.remove hash eq hasher = t.remove hash eq hasher') ∧
    ∀ pos, t.findRow? (scramble hash) eq = some pos →
      ∃ e, t.entries[(rowAt t.rows pos).entry]? = some e ∧
        (∀ hasher, t.remove hash eq hasher = (some e, t.removeRow pos hasher)) ∧
        ((rowAt t.rows pos).entry ≠ t.size - 1 →
          ∃ owner, standsFor (rowAt t.rows owner) (t.size - 1) = true ∧
            ∀ hasher, t.movedRow? (rowAt t.rows pos).entry hasher = some owner) := by
  constructor
  · intro hasher hasher'
    cases hfound : t.findRow? (scramble hash) eq with
    | none => rw [remove, remove, hfound]
    | some pos =>
      rw [remove_of_findRow? hfound, remove_of_findRow? hfound,
        h.removeRow_congr (isLive_of_findRow? hfound) hasher hasher']
  · intro pos hfound
    have hentry := h.entry_lt (isLive_of_findRow? hfound)
    have he := Array.getElem?_eq_getElem hentry
    refine ⟨_, he, fun hasher ↦ ?_, fun hne ↦ ?_⟩
    · rw [remove_of_findRow? hfound, he]
    · have hlast : t.size - 1 < t.size := by omega
      obtain ⟨owner, hl, howner⟩ := h.exists_row hlast
      refine ⟨owner, ?_, h.movedRow?_eq hentry hne hl howner⟩
      rw [standsFor, hl, howner, Bool.true_and, beq_self_eq_true]

/-- The theorem at a table without an empty row: the search for the row that has to stand for
another entry begins in different places for the two hashers, and both removals are the same. -/
theorem remove_ignores_hasher_in_crowded :
    home 4 (scramble 2) ≠ home 4 (scramble 72) ∧
      crowded.remove (tens.hash 70) (tens.eq 70) (fun _ ↦ 2) =
        crowded.remove (tens.hash 70) (tens.eq 70) Nat.toUInt64 ∧
      ∃ owner, standsFor (rowAt crowded.rows owner) 1 = true ∧
        ∀ hasher, crowded.movedRow? 0 hasher = some owner := by
  have hpaired : crowded.Paired := by decide +kernel
  obtain ⟨hsame, hfound⟩ := remove_ignores_hasher hpaired (tens.hash 70) (tens.eq 70)
  obtain ⟨e, -, -, howner⟩ := hfound 3 (by decide +kernel)
  exact ⟨by decide +kernel, hsame _ _, howner (by decide)⟩

/-! ### Broken chains -/

/-- Where each stored key is found, no chain is broken. -/
theorem chained_of_find? (hi : t.Indexed) (hh : Hashed keys t.rows t.entries)
    (hd : DistinctKeys keys t.entries)
    (hf : ∀ e ∈ t.entries, t.find? (keys.hash e.1) (keys.eq e.1) ≠ none) : Chained t.rows := by
  intro pos hl
  have hs := lt_size_of_isLive hl
  obtain ⟨e, he⟩ : ∃ e, t.entries[(rowAt t.rows pos).entry]? = some e :=
    ⟨_, Array.getElem?_eq_getElem (hi.entry_lt hl)⟩
  have hfound := hf e (Array.mem_of_getElem? he)
  rw [find?, ne_eq, Option.map_eq_none_iff] at hfound
  obtain ⟨other, hother⟩ := Option.ne_none_iff_exists'.mp hfound
  obtain ⟨hm, d, hw, hclear⟩ := find?_eq_some hother
  obtain ⟨e', he', heq⟩ := holdsAt_iff.mp hm.holds_entry
  have hsame := hd _ _ e e' he he' heq
  obtain rfl := eq_of_entry_eq hi.nodup hl (hm.isLive (scramble_ne_zero _)) hsame
  rw [← hh _ (rowAt_mem_liveRows hl) e he] at hw hclear
  -- The walk that finds the row has come as far as the row stands from its home, or once round.
  have hdist : distAt t.rows pos ≤ d := by
    rcases Nat.eq_or_lt_of_le hclear.le_size with heq | hlt
    · have hless : distAt t.rows pos < t.rows.size := distAt_lt (by omega)
      omega
    · have hround := distance_walkPos (rowAt t.rows pos).hash hlt
      rw [← hw] at hround
      exact Nat.le_of_eq hround
  apply (hclear.mono hdist).succ
  rw [walkPos_distAt hs, bars_eq_false_iff]
  exact ⟨(Row.isLive_iff.mp hl).1, Nat.le_refl _⟩

end Table

end RobinHood
