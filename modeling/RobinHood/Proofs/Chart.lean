import Mathlib.Algebra.Order.Floor.Div
import RobinHood.Proofs.Histogram
import RobinHood.Proofs.Text.Reading

/-!
# How a histogram is drawn

A bar is measured by the blocks that it is drawn with, in eighths of a block. The lengths of the
bars are in proportion to the counts, rounded up: the longest one has sixty blocks, and only that of
an empty bin has none. A product of a count and sixty blocks need not fit into 64 bits, so it is
taken and divided in 128 bits; the quotient fits again.
-/

namespace RobinHood

namespace Histogram

/-! ### Bars -/

/-- How many eighths of a block a character fills. -/
def blockEighths : Char → Nat
  | '▏' => 1
  | '▎' => 2
  | '▍' => 3
  | '▌' => 4
  | '▋' => 5
  | '▊' => 6
  | '▉' => 7
  | '█' => 8
  | _ => 0

/-- The length of what is drawn, in eighths of a block. -/
def drawnEighths (blocks : List Char) : Nat := (blocks.map blockEighths).sum

/-- A bar of the given length in eighths: full blocks, and after them at most one block, which is
neither blank nor full. -/
structure IsBar (blocks : List Char) (eighths : Nat) : Prop where
  drawn_eq : drawnEighths blocks = eighths
  tapered : ∃ full rest, blocks = List.replicate full '█' ++ rest ∧ rest.length ≤ 1 ∧
    ∀ c ∈ rest, 0 < blockEighths c ∧ blockEighths c < 8

variable {blocks : List Char} {eighths n : Nat}

private theorem drawnEighths_partialBlock : ∀ n < 8, drawnEighths (partialBlock n) = n ∧
    (partialBlock n).length ≤ 1 ∧
      (partialBlock n).all fun c ↦ decide (0 < blockEighths c ∧ blockEighths c < 8) := by
  -- Blocks are tested one by one; a quantifier over characters might be decided by trying them all.
  decide

theorem drawnEighths_replicate_append (full : Nat) (rest : List Char) :
    drawnEighths (List.replicate full '█' ++ rest) = 8 * full + drawnEighths rest := by
  simp [drawnEighths, blockEighths, Nat.mul_comm]

/-- The bar drawn for a length has that length. -/
theorem isBar_bar (eighths : Nat) : IsBar (bar eighths) eighths := by
  obtain ⟨hdrawn, hlength, hblocks⟩ :=
    drawnEighths_partialBlock (eighths % 8) (Nat.mod_lt eighths (by decide))
  simp only [List.all_eq_true, decide_eq_true_eq] at hblocks
  refine ⟨?_, eighths / 8, partialBlock (eighths % 8), rfl, hlength, hblocks⟩
  rw [bar, drawnEighths_replicate_append, hdrawn, Nat.div_add_mod]

namespace IsBar

/-- What follows the full blocks of a bar is nothing, or one block of one to seven eighths. -/
private theorem exists_full (h : IsBar blocks eighths) : ∃ full rest,
    blocks = List.replicate full '█' ++ rest ∧
      (rest = [] ∧ eighths = 8 * full ∨
        rest.length = 1 ∧ 8 * full < eighths ∧ eighths < 8 * full + 8) := by
  obtain ⟨hdrawn, full, rest, rfl, hlength, hblocks⟩ := h
  rw [drawnEighths_replicate_append] at hdrawn
  refine ⟨full, rest, rfl, ?_⟩
  match rest, hlength with
  | [], _ => exact .inl ⟨rfl, hdrawn.symm⟩
  | [c], _ =>
    have hc := hblocks c List.mem_cons_self
    have hone : drawnEighths [c] = blockEighths c := by simp [drawnEighths]
    exact .inr ⟨rfl, by omega, by omega⟩

/-- A bar is blank exactly if it has no length. -/
theorem eq_nil_iff (h : IsBar blocks eighths) : blocks = [] ↔ eighths = 0 := by
  obtain ⟨full, rest, rfl, ⟨rfl, he⟩ | ⟨hone, hlt, -⟩⟩ := h.exists_full
  · rw [List.append_nil, List.replicate_eq_nil_iff]
    omega
  · have hne : rest ≠ [] := by
      rintro rfl
      cases hone
    simp only [List.append_eq_nil_iff, hne, and_false, false_iff]
    omega

/-- A bar has no more blocks than its length takes. -/
theorem length_le (h : IsBar blocks eighths) (hle : eighths ≤ 8 * n) : blocks.length ≤ n := by
  obtain ⟨full, rest, rfl, ⟨rfl, he⟩ | ⟨hone, hlt, -⟩⟩ := h.exists_full
  · rw [List.append_nil, List.length_replicate]
    omega
  · rw [List.length_append, List.length_replicate, hone]
    omega

/-- A bar whose length is a number of blocks is drawn with full blocks. -/
theorem eq_replicate (h : IsBar blocks (8 * n)) : blocks = List.replicate n '█' := by
  obtain ⟨full, rest, rfl, ⟨rfl, he⟩ | ⟨-, hlt, hlt'⟩⟩ := h.exists_full
  · rw [List.append_nil, show full = n by omega]
  · omega

end IsBar

/-! ### Lengths -/

variable {count count' highest : Nat}

/-- Lengths are in proportion to the counts, rounded up. -/
theorem barEighths_eq_ceilDiv (hpos : 0 < highest) :
    barEighths count highest = (480 * count) ⌈/⌉ highest := by
  rw [Nat.ceilDiv_eq_add_pred_div, barEighths, fullBar]
  congr 1
  omega

theorem barEighths_eq_zero_iff (hpos : 0 < highest) : barEighths count highest = 0 ↔ count = 0 := by
  rw [barEighths_eq_ceilDiv hpos, ← Nat.le_zero, ceilDiv_le_iff_le_mul hpos]
  omega

theorem barEighths_le (hpos : 0 < highest) (hle : count ≤ highest) :
    barEighths count highest ≤ 480 := by
  rw [barEighths_eq_ceilDiv hpos, ceilDiv_le_iff_le_mul hpos, Nat.mul_comm]
  exact Nat.mul_le_mul_right 480 hle

theorem barEighths_self (hpos : 0 < highest) : barEighths highest highest = 480 := by
  rw [barEighths_eq_ceilDiv hpos, Nat.mul_comm, ← smul_eq_mul, smul_ceilDiv hpos]

theorem barEighths_mono (hle : count ≤ count') :
    barEighths count highest ≤ barEighths count' highest :=
  Nat.div_le_div_right (Nat.add_le_add_right (Nat.mul_le_mul_right fullBar hle) _)

/-! ### Words -/

/-- The product of a count and the length of the longest bar, in a word of 128 bits. -/
def wideProduct (count : UInt64) : BitVec 128 := count.toBitVec.setWidth 128 * 480#128

/-- The product divided by the largest count: one is added to the quotient unless there is no
remainder. -/
def wideQuotient (count highest : UInt64) : BitVec 128 :=
  let divisor := highest.toBitVec.setWidth 128
  if wideProduct count % divisor = 0#128 then wideProduct count / divisor
  else wideProduct count / divisor + 1#128

/-- The length of a bar as a word of 64 bits. -/
def barWord (count highest : UInt64) : UInt64 := ⟨(wideQuotient count highest).setWidth 64⟩

private theorem toNat_widen (word : UInt64) : (word.toBitVec.setWidth 128).toNat = word.toNat := by
  have hlt : word.toNat < 2 ^ 64 := word.toNat_lt
  rw [BitVec.toNat_setWidth, UInt64.toNat_toBitVec]
  exact Nat.mod_eq_of_lt (by omega)

theorem toNat_wideProduct (count : UInt64) : (wideProduct count).toNat = 480 * count.toNat := by
  have hlt : count.toNat < 2 ^ 64 := count.toNat_lt
  rw [wideProduct, BitVec.toNat_mul, toNat_widen, BitVec.toNat_ofNat, Nat.mul_comm]
  exact Nat.mod_eq_of_lt (by omega)

/-- A quotient rounded up is one more than the quotient unless there is no remainder. -/
private theorem ceilDiv_eq_ite {a b : Nat} (hpos : 0 < b) :
    a ⌈/⌉ b = if a % b = 0 then a / b else a / b + 1 := by
  have hdiv := Nat.div_add_mod a b
  have hmod := Nat.mod_lt a hpos
  rw [Nat.ceilDiv_eq_add_pred_div]
  split
  · exact Nat.div_eq_of_lt_le (by rw [Nat.mul_comm]; omega)
      (by rw [Nat.mul_comm, Nat.mul_add_one]; omega)
  · exact Nat.div_eq_of_lt_le (by rw [Nat.mul_comm, Nat.mul_add_one]; omega)
      (by rw [Nat.mul_comm, Nat.mul_add_one, Nat.mul_add_one]; omega)

theorem toNat_wideQuotient (count highest : UInt64) (hpos : 0 < highest.toNat) :
    (wideQuotient count highest).toNat = barEighths count.toNat highest.toNat := by
  have hlt : count.toNat < 2 ^ 64 := count.toNat_lt
  have hle : 480 * count.toNat / highest.toNat ≤ 480 * count.toNat := Nat.div_le_self ..
  rw [barEighths_eq_ceilDiv hpos, ceilDiv_eq_ite hpos]
  simp only [wideQuotient, apply_ite BitVec.toNat, ← BitVec.toNat_inj, BitVec.toNat_umod,
    BitVec.toNat_udiv, BitVec.toNat_add, BitVec.toNat_ofNat, toNat_wideProduct, toNat_widen]
  -- The carry of rounding up stays within 128 bits.
  congr 1
  exact Nat.mod_eq_of_lt (by omega)

/-- The cast to 64 bits leaves a length as it is: no bar is longer than the longest one. -/
theorem toNat_barWord {count highest : UInt64} (hpos : 0 < highest) (hle : count ≤ highest) :
    (barWord count highest).toNat = barEighths count.toNat highest.toNat := by
  have hpos : 0 < highest.toNat := UInt64.lt_iff_toNat_lt.mp hpos
  have hbound := barEighths_le hpos (UInt64.le_iff_toNat_le.mp hle)
  rw [barWord, UInt64.toNat_ofBitVec, BitVec.toNat_setWidth, toNat_wideQuotient _ _ hpos]
  exact Nat.mod_eq_of_lt (by omega)

/-! ### The largest count -/

variable {h : Histogram}

/-- The largest count of a histogram that has bins is one of its counts. -/
theorem isGreatest_highest (hne : h.bins ≠ #[]) : IsGreatest {c | c ∈ h.bins} h.highest := by
  have hmax : h.highest = h.bins.max hne := by
    rw [highest, Array.foldl_max_eq_max hne, Nat.zero_max]
  rw [hmax]
  exact ⟨Array.max_mem hne, fun c hc ↦ Array.le_max_of_mem hc⟩

/-! ### Lines -/

/-- The bar of a bin of the given count. -/
def barOf (h : Histogram) (count : Nat) : List Char := bar (barEighths count h.highest)

/-- The line above the bars. -/
def headline (total : Nat) : String := s!"probe histogram ({total} entries):"

/-- The line of the bin at distance `d`, with the bar between its label and its count. -/
def binLine (d count : Nat) (blocks : List Char) : String :=
  String.ofList ((Nat.toDigits 10 d).leftpad 3 ' ') ++ " | " ++ String.ofList blocks
    ++ s!" ({count})"

/-- The text is made of these lines, each of them closed by a line break and without one inside. -/
structure MadeOf (text : String) (lines : List String) : Prop where
  eq_join : text = String.join (lines.map (· ++ "\n"))
  newline_notMem : ∀ line ∈ lines, '\n' ∉ line.toList

/-- How long the bars of a histogram are. -/
structure Scaled (h : Histogram) : Prop where
  /-- Their lengths are in proportion to the counts, rounded up to eighths of a block. -/
  isBar : ∀ c ∈ h.bins, IsBar (h.barOf c) ((480 * c) ⌈/⌉ h.highest)
  blank_iff : ∀ c ∈ h.bins, h.barOf c = [] ↔ c = 0
  length_le : ∀ c ∈ h.bins, (h.barOf c).length ≤ 60
  eq_full : ∀ c ∈ h.bins, (∀ c' ∈ h.bins, c' ≤ c) → h.barOf c = List.replicate 60 '█'
  mono : ∀ c ∈ h.bins, ∀ c' ∈ h.bins, c ≤ c' →
    drawnEighths (h.barOf c) ≤ drawnEighths (h.barOf c')

theorem scaled (hpos : 0 < h.highest) : h.Scaled where
  isBar := by
    intro c _
    rw [← barEighths_eq_ceilDiv hpos]
    exact isBar_bar _
  blank_iff := by
    intro c _
    rw [barOf, (isBar_bar _).eq_nil_iff, barEighths_eq_zero_iff hpos]
  length_le := by
    intro c hc
    have hle := (isGreatest_highest (Array.ne_empty_of_mem hc)).2 hc
    exact (isBar_bar _).length_le (barEighths_le hpos hle)
  eq_full := by
    intro c hc hall
    obtain ⟨hmem, hle⟩ := isGreatest_highest (Array.ne_empty_of_mem hc)
    have hbar := isBar_bar (barEighths c h.highest)
    rw [Nat.le_antisymm (hle hc) (hall _ hmem), barEighths_self hpos] at hbar
    rw [barOf, Nat.le_antisymm (hle hc) (hall _ hmem), barEighths_self hpos]
    exact hbar.eq_replicate
  mono := by
    intro c _ c' _ hle
    rw [barOf, barOf, (isBar_bar _).drawn_eq, (isBar_bar _).drawn_eq]
    exact barEighths_mono hle

/-- A bar is drawn with blocks only. -/
private theorem newline_notMem_bar (eighths : Nat) : '\n' ∉ bar eighths := by
  obtain ⟨full, rest, hbar, -, hrest⟩ := (isBar_bar eighths).tapered
  rw [hbar, List.mem_append, List.mem_replicate]
  rintro (⟨-, h⟩ | h)
  · exact absurd h (by decide)
  · exact absurd (hrest _ h).1 (by decide)

private theorem newline_notMem_toDigits (n : Nat) : '\n' ∉ Nat.toDigits 10 n :=
  fun hm ↦ absurd (Text.mem_digitChars (by decide) (by decide) hm) (by decide)

private theorem newline_notMem_toString (n : Nat) : '\n' ∉ (toString n).toList := by
  rw [Nat.toString_eq_ofList_toDigits, String.toList_ofList]
  exact newline_notMem_toDigits n

private theorem newline_notMem_headline (total : Nat) : '\n' ∉ (headline total).toList := by
  unfold headline
  rw [String.toList_append, String.toList_append, List.mem_append, List.mem_append]
  rintro ((h | h) | h)
  · exact absurd h (by decide)
  · exact newline_notMem_toString total h
  · exact absurd h (by decide)

private theorem newline_notMem_binLine (d count eighths : Nat) :
    '\n' ∉ (binLine d count (bar eighths)).toList := by
  unfold binLine
  simp only [String.toList_append, String.toList_ofList, List.leftpad, List.mem_append,
    List.mem_replicate]
  rintro ((((⟨-, h⟩ | h) | h) | h) | ((h | h) | h))
  · exact absurd h (by decide)
  · exact newline_notMem_toDigits d h
  · exact absurd h (by decide)
  · exact newline_notMem_bar eighths h
  · exact absurd h (by decide)
  · exact newline_notMem_toString count h
  · exact absurd h (by decide)

private theorem line_eq (highest d count : Nat) :
    line highest d count = binLine d count (bar (barEighths count highest)) ++ "\n" := by
  unfold line binLine
  simp only [String.append_assoc]
  rfl

private theorem headline_eq (total : Nat) :
    s!"probe histogram ({total} entries):\n" = headline total ++ "\n" := by
  unfold headline
  simp only [String.append_assoc]
  rfl

/-! ### The whole chart -/

/-- All lines: the headline, and below it one line for each bin. -/
def chart (h : Histogram) : List String :=
  headline h.bins.sum :: h.bins.toList.zipIdx.map fun (c, d) ↦ binLine d c (h.barOf c)

private theorem total_eq (hsum : h.bins.sum < 2 ^ 64) : h.total = .ok h.bins.sum := by
  have hle : h.bins.foldl (· + ·) 0 ≤ maxCount := by
    rw [← Array.sum_eq_foldl, maxCount, UInt64.size]
    omega
  simp only [total, if_pos hle, Array.sum_eq_foldl]

private theorem text_eq (hpos : 0 < h.highest) (hsum : h.bins.sum < 2 ^ 64) :
    h.text = .ok (String.join (h.chart.map (· ++ "\n"))) := by
  have hlines : h.bins.toList.zipIdx.map (fun (c, d) ↦ line h.highest d c) =
      (h.bins.toList.zipIdx.map fun (c, d) ↦ binLine d c (h.barOf c)).map (· ++ "\n") := by
    rw [List.map_map]
    exact List.map_congr_left fun (c, d) _ ↦ line_eq h.highest d c
  unfold text
  simp only [if_neg (Nat.ne_of_gt hpos), total_eq hsum, hlines, headline_eq]
  rfl

private theorem madeOf_chart (h : Histogram) :
    MadeOf (String.join (h.chart.map (· ++ "\n"))) h.chart := by
  refine ⟨rfl, fun line hline ↦ ?_⟩
  obtain rfl | hline := List.mem_cons.mp hline
  · exact newline_notMem_headline _
  · obtain ⟨⟨c, d⟩, -, rfl⟩ := List.mem_map.mp hline
    exact newline_notMem_binLine _ _ _

/-- A histogram that counts something, and no more than a word holds, is drawn: a headline and one
line for each bin. The bars are in proportion to the counts; in words of 128 bits the product is
exact for every count, and so is the length after the cast to 64 bits. -/
theorem text_draws_bars (hbin : ∃ c ∈ h.bins, c ≠ 0) (hsum : h.bins.sum < 2 ^ 64) :
    (∃ s, h.text = .ok s ∧ MadeOf s h.chart) ∧
    IsGreatest {c | c ∈ h.bins} h.highest ∧ h.Scaled ∧
    ∀ count highest : UInt64, 0 < highest → count ≤ highest →
      (wideProduct count).toNat = 480 * count.toNat ∧
      (barWord count highest).toNat = barEighths count.toNat highest.toNat := by
  obtain ⟨c, hc, hne⟩ := hbin
  have hgreatest := isGreatest_highest (Array.ne_empty_of_mem hc)
  have hpos : 0 < h.highest := Nat.lt_of_lt_of_le (Nat.pos_of_ne_zero hne) (hgreatest.2 hc)
  refine ⟨⟨_, text_eq hpos hsum, madeOf_chart h⟩, hgreatest, scaled hpos, ?_⟩
  intro count highest hhighest hle
  exact ⟨toNat_wideProduct count, toNat_barWord hhighest hle⟩

/-- Counts that together are the largest word. -/
private def towering : Histogram := ⟨#[2 ^ 63, 2 ^ 63 - 2, 0, 1]⟩

/-- The theorem at bins that a word barely counts: the shortest bar is an eighth of a block. -/
theorem text_draws_bars_towering :
    towering.bins.sum = 2 ^ 64 - 1 ∧ (∃ s, towering.text = .ok s ∧ MadeOf s towering.chart) ∧
    towering.barOf (2 ^ 63) = List.replicate 60 '█' ∧ towering.barOf 0 = [] ∧
    drawnEighths (towering.barOf 1) = 1 ∧ (barWord 1 (.ofNat (2 ^ 63))).toNat = 1 := by
  have hsum : towering.bins.sum = 2 ^ 64 - 1 := by decide
  have htall : 2 ^ 63 ∈ towering.bins := by decide +kernel
  have hzero : 0 ∈ towering.bins := by decide +kernel
  have hone : 1 ∈ towering.bins := by decide +kernel
  have hmax : ∀ c ∈ towering.bins, c ≤ 2 ^ 63 := by decide
  obtain ⟨htext, -, hscaled, hwords⟩ := text_draws_bars ⟨1, hone, by decide⟩ (by omega)
  have hdrawn := (hscaled.isBar 1 hone).drawn_eq
  have hword := (hwords 1 (.ofNat (2 ^ 63)) (by decide +kernel) (by decide +kernel)).2
  exact ⟨hsum, htext, hscaled.eq_full _ htall hmax, (hscaled.blank_iff 0 hzero).mpr rfl,
    hdrawn.trans (by decide), hword.trans (by decide +kernel)⟩

end Histogram

end RobinHood
