import RobinHood.Proofs.Index.Contents
import RobinHood.Proofs.Row
import RobinHood.Proofs.Text.Reading
import RobinHood.Table.Layout

/-!
# What the layout of a table tells

The text of a row tells its kind and its hash, and of a live row the entry that it stands for;
nothing else of a row is written. Rows cannot be taken for one another or run together, although
their texts vary in length, so the layout of a table tells its counts and all that is written of
its rows.
-/

namespace RobinHood

namespace Row

/-- What follows the hash of a row in its text. -/
private def mark (r : Row) : List Char :=
  if r.isTombstone then ['x'] else Nat.toDigits 10 r.entry

variable {r r' : Row} {c : Char}

/-- The text of a row depends on its kind, its hash and, where it is live, its entry. -/
private theorem text_eq_match (r : Row) : r.text = match r.kind with
    | .empty => "........"
    | .tombstone => r.hexHash ++ "@x"
    | .live => r.hexHash ++ "@" ++ toString r.entry := by
  unfold text kind
  split
  · rfl
  · split
    · rfl
    · rfl

private theorem toList_text_of_isEmpty (h : r.isEmpty = true) :
    r.text.toList = List.replicate 8 '.' := by
  rw [text, if_pos h]
  rfl

private theorem toList_text (h : r.isEmpty = false) :
    r.text.toList = r.hexHash.toList ++ '@' :: r.mark := by
  unfold text mark
  rw [if_neg (by simp [h])]
  split
  · simp
  · simp

private theorem toList_hexHash (r : Row) :
    r.hexHash.toList = (Nat.toDigits 16 r.hash.toNat).leftpad 8 '0' := by
  rw [hexHash, String.toList_ofList]

private theorem mem_digitChars_of_mem_hexHash (h : c ∈ r.hexHash.toList) :
    c ∈ Text.digitChars := by
  rw [toList_hexHash, List.leftpad, List.mem_append, List.mem_replicate] at h
  rcases h with ⟨-, rfl⟩ | h
  · decide
  · exact Text.mem_digitChars (by decide) (by decide) h

private theorem mem_of_mem_mark (h : c ∈ r.mark) : c = 'x' ∨ c ∈ Text.digitChars := by
  unfold mark at h
  split at h
  · exact .inl (List.mem_singleton.mp h)
  · exact .inr (Text.mem_digitChars (by decide) (by decide) h)

/-! ### What is read off the text of a row -/

/-- Only the rows that hold something have a hash in their text. -/
private theorem mem_text_iff : '@' ∈ r.text.toList ↔ r.isEmpty = false := by
  cases he : r.isEmpty with
  | true =>
    rw [toList_text_of_isEmpty he]
    decide
  | false =>
    rw [toList_text he]
    simp

private theorem hash_eq_of_hexHash (h : r.hexHash.toList = r'.hexHash.toList) :
    r.hash = r'.hash := by
  have hread (r : Row) : Text.readDigits 16 r.hexHash.toList = r.hash.toNat := by
    rw [toList_hexHash, Text.readDigits_leftpad,
      Text.readDigits_toDigits (by decide) (by decide)]
  apply UInt32.toNat_inj.mp
  rw [← hread r, h, hread r']

private theorem mem_mark_iff : 'x' ∈ r.mark ↔ r.isTombstone = true := by
  unfold mark
  split
  · next ht => simp [ht]
  · next ht =>
    have hx : 'x' ∉ Nat.toDigits 10 r.entry :=
      fun hm ↦ absurd (Text.mem_digitChars (by decide) (by decide) hm) (by decide)
    simp [ht, hx]

private theorem isTombstone_eq_of_mark (h : r.mark = r'.mark) :
    r.isTombstone = r'.isTombstone := by
  rw [Bool.eq_iff_iff, ← mem_mark_iff, h, mem_mark_iff]

private theorem entry_eq_of_mark (h : r.mark = r'.mark) (ht : r.isTombstone = false) :
    r.entry = r'.entry := by
  have ht' := isTombstone_eq_of_mark h
  rw [ht] at ht'
  rw [mark, mark, if_neg (by simp [ht]), if_neg (by simp [← ht'])] at h
  exact Text.toDigits_inj (by decide) (by decide) h

private theorem isTombstone_of_kind_eq_live (h : r.kind = .live) : r.isTombstone = false := by
  unfold kind at h
  split at h
  · cases h
  · split at h
    · cases h
    · next ht => simpa using ht

/-- Rows have one text exactly if they are of one kind, with one hash, and stand for one entry if
they are live. -/
theorem text_eq_iff : r.text = r'.text ↔
    r.kind = r'.kind ∧ r.hash = r'.hash ∧ (r.kind = .live → r.entry = r'.entry) := by
  constructor
  · intro h
    have hempty : r.isEmpty = r'.isEmpty := by
      rw [← Bool.not_inj_iff, Bool.eq_iff_iff, Bool.not_eq_true', Bool.not_eq_true',
        ← mem_text_iff, h, mem_text_iff]
    cases he : r.isEmpty with
    | true =>
      have he' := hempty.symm.trans he
      refine ⟨?_, ?_, fun hl ↦ ?_⟩
      · rw [kind, kind, if_pos he, if_pos he']
      · rw [eq_of_beq he, eq_of_beq he']
      · rw [kind, if_pos he] at hl
        cases hl
    | false =>
      have he' := hempty.symm.trans he
      have hat (r : Row) : '@' ∉ r.hexHash.toList :=
        fun hm ↦ absurd (mem_digitChars_of_mem_hexHash hm) (by decide)
      -- The first '@' ends the hash, and the rest is the mark.
      have hlist := congrArg String.toList h
      rw [toList_text he, toList_text he'] at hlist
      obtain ⟨hhash, -, hmark⟩ := Text.eq_of_append_cons_eq (hat r) (hat r') hlist
      refine ⟨?_, hash_eq_of_hexHash hhash, fun hl ↦ ?_⟩
      · rw [kind, kind, hempty, isTombstone_eq_of_mark hmark]
      · exact entry_eq_of_mark hmark (isTombstone_of_kind_eq_live hl)
  · rintro ⟨hkind, hhash, hentry⟩
    rw [text_eq_match, text_eq_match, ← hkind, hexHash, hexHash, hhash]
    cases hk : r.kind with
    | empty => rfl
    | tombstone => rfl
    | live => rw [hentry hk]

/-- The text of a row can be told from what surrounds it in a list. -/
theorem plain_text (r : Row) : Text.Plain r.text.toList := by
  have hchars : ∀ c ∈ r.text.toList, c ∈ '.' :: '@' :: 'x' :: Text.digitChars := by
    intro c hc
    cases he : r.isEmpty with
    | true =>
      rw [toList_text_of_isEmpty he] at hc
      rw [List.eq_of_mem_replicate hc]
      exact List.mem_cons_self
    | false =>
      rw [toList_text he, List.mem_append, List.mem_cons] at hc
      rcases hc with hc | rfl | hc
      · have hdigit := mem_digitChars_of_mem_hexHash hc
        simp [hdigit]
      · simp
      · rcases mem_of_mem_mark hc with rfl | hdigit
        · simp
        · simp [hdigit]
  refine ⟨?_, fun hc ↦ absurd (hchars _ hc) (by decide), fun hc ↦ absurd (hchars _ hc) (by decide)⟩
  cases he : r.isEmpty with
  | true =>
    rw [toList_text_of_isEmpty he]
    decide
  | false =>
    rw [toList_text he]
    simp

end Row

namespace Table

open Index

variable {K V K' V' : Type} {t : Table K V} {t' : Table K' V'}

/-- Two tables have the same counts and, position by position, rows of one kind and one hash, which
stand for the same entries where they are live. -/
structure SameLayout (t : Table K V) (t' : Table K' V') : Prop where
  size_eq : t.size = t'.size
  capacity_eq : t.capacity = t'.capacity
  rows_size_eq : t.rows.size = t'.rows.size
  kind_eq : ∀ pos < t.rows.size, (rowAt t.rows pos).kind = (rowAt t'.rows pos).kind
  hash_eq : ∀ pos < t.rows.size, (rowAt t.rows pos).hash = (rowAt t'.rows pos).hash
  entry_eq : ∀ pos < t.rows.size, (rowAt t.rows pos).kind = .live →
    (rowAt t.rows pos).entry = (rowAt t'.rows pos).entry

/-- The texts of the rows, in order of position. -/
private def rowTexts (t : Table K V) : List (List Char) := t.rows.toList.map fun r ↦ r.text.toList

private theorem toList_layout_line (t : Table K V) : (t.layout .line).toList =
    "HashTable \x7b populated: ".toList ++ (Nat.toDigits 10 t.size ++
      ',' :: (" capacity: ".toList ++ (Nat.toDigits 10 t.capacity ++
        ',' :: (" rows: [".toList ++ ([',', ' '].intercalate t.rowTexts ++
          ']' :: " \x7d".toList))))) := by
  have hrows := Text.toList_list_line (t.rows.toList.map Row.text)
  rw [List.map_map] at hrows
  simp [layout, Text.Style.record, Text.Style.enclose, Inspect.inspect, hrows, rowTexts]
  rfl

private theorem rowTexts_eq_iff : t.rowTexts = t'.rowTexts ↔ t.rows.size = t'.rows.size ∧
    ∀ pos < t.rows.size, (rowAt t.rows pos).text = (rowAt t'.rows pos).text := by
  have htext {pos : Nat} : (rowAt t.rows pos).text.toList = (rowAt t'.rows pos).text.toList ↔
      (rowAt t.rows pos).text = (rowAt t'.rows pos).text := String.toList_inj
  unfold rowTexts
  rw [toList_eq_map_rowAt, toList_eq_map_rowAt, List.map_map, List.map_map]
  constructor
  · intro h
    have hsize : t.rows.size = t'.rows.size := by simpa using congrArg List.length h
    rw [← hsize, List.map_inj_left] at h
    exact ⟨hsize, fun pos hpos ↦ htext.mp (h pos (List.mem_range.mpr hpos))⟩
  · rintro ⟨hsize, h⟩
    rw [← hsize, List.map_inj_left]
    exact fun pos hpos ↦ htext.mpr (h pos (List.mem_range.mp hpos))

/-- The layouts of two tables on one line, whatever their keys and values are, are equal exactly if
the tables have equally many entries, one capacity, and equally many rows, and at each position
rows of one kind with one hash, which stand for the same entry if they are live. -/
theorem layout_tells_rows : t.layout .line = t'.layout .line ↔ SameLayout t t' := by
  rw [← String.toList_inj, toList_layout_line, toList_layout_line]
  constructor
  · intro h
    obtain ⟨hsize, h⟩ := Text.eq_of_toDigits_append_comma (List.append_cancel_left h)
    obtain ⟨hcapacity, h⟩ := Text.eq_of_toDigits_append_comma (List.append_cancel_left h)
    obtain ⟨hrows, -⟩ := Text.eq_of_intercalate_append_bracket
      (List.forall_mem_map.mpr fun r _ ↦ r.plain_text)
      (List.forall_mem_map.mpr fun r _ ↦ r.plain_text) (List.append_cancel_left h)
    obtain ⟨hcount, htexts⟩ := rowTexts_eq_iff.mp hrows
    exact ⟨hsize, hcapacity, hcount, fun pos hpos ↦ (Row.text_eq_iff.mp (htexts pos hpos)).1,
      fun pos hpos ↦ (Row.text_eq_iff.mp (htexts pos hpos)).2.1,
      fun pos hpos ↦ (Row.text_eq_iff.mp (htexts pos hpos)).2.2⟩
  · intro h
    have hrows : t.rowTexts = t'.rowTexts := rowTexts_eq_iff.mpr ⟨h.rows_size_eq, fun pos hpos ↦
      Row.text_eq_iff.mpr ⟨h.kind_eq pos hpos, h.hash_eq pos hpos, h.entry_eq pos hpos⟩⟩
    rw [h.size_eq, h.capacity_eq, hrows]

end Table

end RobinHood
