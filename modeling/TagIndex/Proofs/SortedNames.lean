import TagIndex.Proofs.CtagsOrder

/-!
# Tag lines sorted by name

The full name of a tag is its qualifier, a dot and its name in one text, so lines that are split
differently can have equal full names: `a.b` and `c`, `a` and `b.c`. What sorting does to such lines
is part of the order: they stay as they were. With this there is only one way to sort, and neither
sorting again nor sorting parts of the lines beforehand makes a difference.

- `TagLine.IsSorting`: the lines in the byte order of their full names, equal names left in order.
- `TagLine.isSorting_iff`: `sort` gives these and nothing else does.
- `Text.utf8_lt_iff_codePoints`: byte order is the lexicographic order of the code points.
- `TagLine.sort_determined`: all of it, down to the text of a tags file.
-/

namespace TagIndex

open scoped List

namespace Text

def codePoints (s : String) : List Nat :=
  s.toList.map Char.toNat

theorem lex_map_toNat_iff {cs ds : List Char} :
    List.Lex (· < ·) (cs.map Char.toNat) (ds.map Char.toNat) ↔ cs < ds := by
  induction cs generalizing ds with
  | nil =>
    cases ds with
    | nil => simp
    | cons d ds => exact iff_of_true .nil (List.nil_lt_cons d ds)
  | cons c cs ih =>
    cases ds with
    | nil => simp
    | cons d ds =>
      rw [List.map_cons, List.map_cons, List.cons_lex_cons_iff, List.cons_lt_cons_iff, ih,
        Char.toNat_inj]
      rfl

theorem utf8_lt_iff_codePoints {s t : String} :
    utf8 s.toList < utf8 t.toList ↔ List.Lex (· < ·) (codePoints s) (codePoints t) :=
  utf8_lt_iff.trans lex_map_toNat_iff.symm

end Text

namespace TagLine

/-- The same lines in the byte order of their full names, where lines with one full name stand in
the order in which they were. -/
structure IsSorting (lines sorted : List TagLine) : Prop where
  perm : sorted ~ lines
  ordered : sorted.Pairwise fun a b => Ctags.nameBytes a ≤ Ctags.nameBytes b
  stable : ∀ name : String,
    sorted.filter (fun l => l.fullName = name) = lines.filter fun l => l.fullName = name

theorem le_and_le_eq (a b : TagLine) :
    (decide (a.fullName ≤ b.fullName) && decide (b.fullName ≤ a.fullName)) =
      decide (b.fullName = a.fullName) := by
  rw [← Bool.decide_and, decide_eq_decide]
  constructor
  · rintro ⟨hab, hba⟩
    exact String.le_antisymm hba hab
  · intro h
    exact ⟨h ▸ String.le_refl _, h ▸ String.le_refl _⟩

theorem eq_sort_iff {lines sorted : List TagLine} :
    sorted = sort lines ↔ sorted.Pairwise (fun a b => a.fullName ≤ b.fullName) ∧
      ∀ a : TagLine, sorted.filter (fun l => l.fullName = a.fullName) =
        lines.filter fun l => l.fullName = a.fullName := by
  have h : sorted = sort lines ↔ _ := eq_mergeSort_iff le_trans le_total
  simp only [le_and_le_eq, decide_eq_true_eq] at h
  exact h

theorem isSorting_iff {lines sorted : List TagLine} :
    IsSorting lines sorted ↔ sorted = sort lines := by
  constructor
  · intro h
    exact eq_sort_iff.mpr ⟨h.ordered.imp Ctags.nameBytes_le_iff.mp, fun a => h.stable a.fullName⟩
  · rintro rfl
    refine ⟨List.mergeSort_perm .., ?_, fun name => ?_⟩
    · exact (eq_sort_iff.mp rfl).1.imp Ctags.nameBytes_le_iff.mpr
    · refine filter_mergeSort le_trans le_total lines fun a b ha hb => ?_
      simp only [decide_eq_true_eq] at ha hb ⊢
      have hnames : a.fullName = b.fullName := ha.trans hb.symm
      exact hnames ▸ String.le_refl _

theorem sort_flatten_map (parts : List (List TagLine)) :
    sort (parts.map sort).flatten = sort parts.flatten :=
  mergeSort_flatten_map le_trans le_total parts

theorem sort_append (a b : List TagLine) : sort (a ++ b) = sort (sort a ++ sort b) := by
  simpa using (sort_flatten_map [a, b]).symm

theorem sort_sort (lines : List TagLine) : sort (sort lines) = sort lines := by
  simpa using sort_flatten_map [lines]

/-- Sorting puts tag lines into the one order in which the bytes of the full names do not decrease
and lines with equal full names stay as they were. The order of the bytes is that of the code
points. Sorting again or sorting parts first leads to the same lines, and to the same tags file. -/
theorem sort_determined :
    (∀ lines sorted : List TagLine, IsSorting lines sorted ↔ sorted = sort lines) ∧
    (∀ s t : String, Text.utf8 s.toList < Text.utf8 t.toList ↔
      List.Lex (· < ·) (Text.codePoints s) (Text.codePoints t)) ∧
    (∀ a b : List TagLine, sort (a ++ b) = sort (sort a ++ sort b)) ∧
    ∀ (f : TagFile) (parts : List (List TagLine)),
      f.render (sort (sort parts.flatten)) = f.render (sort parts.flatten) ∧
      f.render (sort (parts.map sort).flatten) = f.render (sort parts.flatten) := by
  refine ⟨fun _ _ => isSorting_iff, fun _ _ => Text.utf8_lt_iff_codePoints, sort_append,
    fun f parts => ?_⟩
  rw [sort_sort, sort_flatten_map]
  exact ⟨rfl, rfl⟩

end TagLine

end TagIndex
