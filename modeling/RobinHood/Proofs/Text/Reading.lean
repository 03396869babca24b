import RobinHood.Text.Layout

/-!
# Texts that can be read back

Digits tell which number was written, whatever zeros stand in front of it. What stands in front of
a character is read off a text as long as it does not contain that character; so the items of a list
on one line are read off it, if no item contains a comma or the bracket that closes the list.
-/

namespace RobinHood

namespace Text

/-! ### Digits -/

/-- The characters that numbers are written with, by their value. -/
def digitChars : List Char := "0123456789abcdef".toList

/-- The number that digits stand for, the most significant one first. -/
def readDigits (base : Nat) (digits : List Char) : Nat :=
  digits.foldl (fun n c ↦ base * n + digitChars.idxOf c) 0

variable {base n m : Nat} {c : Char}

private theorem idxOf_digitChar : ∀ d < 16, digitChars.idxOf d.digitChar = d := by decide

private theorem digitChar_mem : ∀ d < 16, d.digitChar ∈ digitChars := by decide

/-- A number is read back in the base that it was written in. -/
theorem readDigits_toDigits (hb : 1 < base) (hle : base ≤ 16) (n : Nat) :
    readDigits base (Nat.toDigits base n) = n := by
  induction n using Nat.strongRecOn with
  | ind n ih =>
    rcases Nat.lt_or_ge n base with hlt | hge
    · rw [Nat.toDigits_of_lt_base hlt, readDigits, List.foldl_cons, List.foldl_nil,
        idxOf_digitChar n (by omega)]
      omega
    · have hmod := Nat.mod_lt n (by omega : 0 < base)
      have hdiv : n / base < n := Nat.div_lt_self (by omega) hb
      have hrest := ih (n / base) hdiv
      unfold readDigits at hrest
      rw [Nat.toDigits_of_base_le hb hge, readDigits, List.foldl_append, hrest, List.foldl_cons,
        List.foldl_nil, idxOf_digitChar (n % base) (by omega)]
      exact Nat.div_add_mod n base

/-- Different numbers have different digits. -/
theorem toDigits_inj (hb : 1 < base) (hle : base ≤ 16)
    (h : Nat.toDigits base n = Nat.toDigits base m) : n = m := by
  rw [← readDigits_toDigits hb hle n, h, readDigits_toDigits hb hle]

/-- Zeros in front of a number change nothing. -/
theorem readDigits_leftpad (base width : Nat) (digits : List Char) :
    readDigits base (digits.leftpad width '0') = readDigits base digits := by
  have hzeros (k : Nat) : (List.replicate k '0').foldl
      (fun n c ↦ base * n + digitChars.idxOf c) 0 = 0 := by
    induction k with
    | zero => rfl
    | succ k ih => exact ih
  rw [readDigits, List.leftpad, List.foldl_append, hzeros, readDigits]

/-- Numbers are written in digits. -/
theorem mem_digitChars (hb : 1 < base) (hle : base ≤ 16) (h : c ∈ Nat.toDigits base n) :
    c ∈ digitChars := by
  induction n using Nat.strongRecOn with
  | ind n ih =>
    rcases Nat.lt_or_ge n base with hlt | hge
    · rw [Nat.toDigits_of_lt_base hlt, List.mem_singleton] at h
      rw [h]
      exact digitChar_mem n (by omega)
    · have hmod := Nat.mod_lt n (by omega : 0 < base)
      rw [Nat.toDigits_of_base_le hb hge, List.mem_append, List.mem_singleton] at h
      rcases h with h | rfl
      · exact ih (n / base) (Nat.div_lt_self (by omega) hb) h
      · exact digitChar_mem (n % base) (by omega)

/-! ### Where texts are cut -/

/-- What stands in front of a character is read off a text, if it does not contain the character. -/
theorem eq_of_append_cons_eq {front front' rest rest' : List Char} {c c' : Char}
    (hc : c' ∉ front) (hc' : c ∉ front') (h : front ++ c :: rest = front' ++ c' :: rest') :
    front = front' ∧ c = c' ∧ rest = rest' := by
  induction front generalizing front' with
  | nil =>
    cases front' with
    | nil => exact ⟨rfl, List.cons.inj h⟩
    | cons b front' =>
      obtain ⟨rfl, -⟩ := List.cons.inj h
      exact absurd List.mem_cons_self hc'
  | cons a front ih =>
    cases front' with
    | nil =>
      obtain ⟨rfl, -⟩ := List.cons.inj h
      exact absurd List.mem_cons_self hc
    | cons b front' =>
      obtain ⟨rfl, htail⟩ := List.cons.inj h
      obtain ⟨rfl, hrest⟩ := ih (fun hm ↦ hc (List.mem_cons_of_mem _ hm))
        (fun hm ↦ hc' (List.mem_cons_of_mem _ hm)) htail
      exact ⟨rfl, hrest⟩

/-- A decimal number is read off a text in which a comma follows it. -/
theorem eq_of_toDigits_append_comma {rest rest' : List Char}
    (h : Nat.toDigits 10 n ++ ',' :: rest = Nat.toDigits 10 m ++ ',' :: rest') :
    n = m ∧ rest = rest' := by
  have hcomma (k : Nat) : ',' ∉ Nat.toDigits 10 k :=
    fun hm ↦ absurd (mem_digitChars (by decide) (by decide) hm) (by decide)
  obtain ⟨hdigits, -, hrest⟩ := eq_of_append_cons_eq (hcomma n) (hcomma m) h
  exact ⟨toDigits_inj (by decide) (by decide) hdigits, hrest⟩

/-! ### Lists on one line -/

/-- An item of a list that is neither missed nor taken for more than one. -/
structure Plain (item : List Char) : Prop where
  ne_nil : item ≠ []
  comma_notMem : ',' ∉ item
  bracket_notMem : ']' ∉ item

/-- The items between a pair of brackets, a comma and a blank between any two of them. -/
theorem toList_list_line (items : List String) : (Style.line.list items).toList =
    '[' :: ([',', ' '].intercalate (items.map String.toList) ++ [']']) := by
  cases items with
  | nil => rfl
  | cons item items => simp [Style.list, Style.enclose]

/-- What follows an item: the other items, each after a comma and a blank, and the closing
bracket. -/
private def following (rest : List Char) : List (List Char) → List Char
  | [] => ']' :: rest
  | item :: items => ',' :: ' ' :: (item ++ following rest items)

private theorem intercalate_cons_append (item : List Char) (items : List (List Char))
    (rest : List Char) :
    [',', ' '].intercalate (item :: items) ++ ']' :: rest = item ++ following rest items := by
  induction items generalizing item with
  | nil => rw [List.intercalate_singleton, following]
  | cons next items ih => simp [List.intercalate_cons_cons, ih, following]

private theorem exists_following (rest : List Char) (items : List (List Char)) :
    ∃ c tail, following rest items = c :: tail ∧ (c = ',' ∨ c = ']') := by
  cases items with
  | nil => exact ⟨_, _, rfl, .inr rfl⟩
  | cons item items => exact ⟨_, _, rfl, .inl rfl⟩

variable {items items' : List (List Char)} {item item' rest rest' : List Char}

private theorem Plain.notMem (h : Plain item) (hc : c = ',' ∨ c = ']') : c ∉ item := by
  rcases hc with rfl | rfl
  · exact h.comma_notMem
  · exact h.bracket_notMem

private theorem Plain.eq_of_append_following (h : Plain item) (h' : Plain item')
    (heq : item ++ following rest items = item' ++ following rest' items') :
    item = item' ∧ following rest items = following rest' items' := by
  obtain ⟨c, tail, htail, hc⟩ := exists_following rest items
  obtain ⟨c', tail', htail', hc'⟩ := exists_following rest' items'
  rw [htail, htail'] at heq ⊢
  obtain ⟨hitem, rfl, rfl⟩ := eq_of_append_cons_eq (h.notMem hc') (h'.notMem hc) heq
  exact ⟨hitem, rfl⟩

private theorem following_inj (h : ∀ item ∈ items, Plain item) (h' : ∀ item ∈ items', Plain item)
    (heq : following rest items = following rest' items') : items = items' ∧ rest = rest' := by
  -- The first character tells whether there is another item.
  induction items generalizing items' with
  | nil =>
    cases items' with
    | nil => exact ⟨rfl, (List.cons.inj heq).2⟩
    | cons item' items' => exact absurd (List.cons.inj heq).1 (by decide)
  | cons item items ih =>
    cases items' with
    | nil => exact absurd (List.cons.inj heq).1 (by decide)
    | cons item' items' =>
      rw [List.forall_mem_cons] at h h'
      obtain ⟨rfl, htail⟩ :=
        h.1.eq_of_append_following h'.1 (List.cons.inj (List.cons.inj heq).2).2
      obtain ⟨rfl, hrest⟩ := ih h.2 h'.2 htail
      exact ⟨rfl, hrest⟩

/-- No item stands in front of the bracket that closes a list without items. -/
private theorem Plain.append_ne_bracket (h : Plain item) : item ++ rest ≠ ']' :: rest' := by
  intro heq
  cases item with
  | nil => exact h.ne_nil rfl
  | cons c item =>
    obtain ⟨rfl, -⟩ := List.cons.inj heq
    exact h.bracket_notMem List.mem_cons_self

/-- The items of a list are read off a text up to the bracket that closes the list. -/
theorem eq_of_intercalate_append_bracket (h : ∀ item ∈ items, Plain item)
    (h' : ∀ item ∈ items', Plain item)
    (heq : [',', ' '].intercalate items ++ ']' :: rest =
      [',', ' '].intercalate items' ++ ']' :: rest') : items = items' ∧ rest = rest' := by
  cases items with
  | nil =>
    cases items' with
    | nil => exact ⟨rfl, (List.cons.inj heq).2⟩
    | cons item' items' =>
      rw [intercalate_cons_append item' items'] at heq
      exact absurd heq.symm (h' item' List.mem_cons_self).append_ne_bracket
  | cons item items =>
    rw [intercalate_cons_append] at heq
    cases items' with
    | nil => exact absurd heq (h item List.mem_cons_self).append_ne_bracket
    | cons item' items' =>
      rw [intercalate_cons_append] at heq
      rw [List.forall_mem_cons] at h h'
      obtain ⟨rfl, htail⟩ := h.1.eq_of_append_following h'.1 heq
      obtain ⟨rfl, hrest⟩ := following_inj h.2 h'.2 htail
      exact ⟨rfl, hrest⟩

end Text

end RobinHood
