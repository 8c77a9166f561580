import Mathlib.Data.List.DropRight
import TagIndex.Proofs.ByteOrder
import TagIndex.Tree.Place

/-!
# Positions in a source

The parser tells where a node starts in three ways: by its offset, by its row, and by its column in
bytes. Where the three agree with the source and the offset cuts no character, the position of the
node is found by counting line breaks and characters: neither the byte column nor a number beyond 32
bits shows, and positions are in the order of offsets.

- `Text.place`: the row and the column that a text ends at, in whatever its columns are counted.
- `Text.place_lt_place`: a longer text ends at a later place.
- `Text.afterLast_utf8`, `Text.count_utf8`: the last line and the line breaks in bytes and in
  characters.
- `Text.slice?_append`: slices on character boundaries.
- `Node.Placed`: a node whose place is that of its first byte.
- `Node.position_placed`: the position of such a node, and the order of positions.
-/

namespace TagIndex

namespace Text

open String (utf8EncodeChar)

/-! ### Where a text ends -/

section Places

variable {α : Type} [DecidableEq α]

def afterLast (sep : α) (cs : List α) : List α :=
  cs.rtakeWhile (· ≠ sep)

/-- The row and the column where a text ends whose lines end with `sep`. -/
def place (sep : α) (cs : List α) : Nat × Nat :=
  (cs.count sep, (afterLast sep cs).length)

theorem afterLast_concat (sep : α) (cs : List α) (c : α) :
    afterLast sep (cs ++ [c]) = if c = sep then [] else afterLast sep cs ++ [c] := by
  rw [afterLast, List.rtakeWhile_concat]
  by_cases h : c = sep <;> simp [h, afterLast]

theorem afterLast_append {sep : α} {ds : List α} (h : sep ∉ ds) (cs : List α) :
    afterLast sep (cs ++ ds) = afterLast sep cs ++ ds := by
  induction ds using List.reverseRecOn with
  | nil => rw [List.append_nil, List.append_nil]
  | append_singleton ds d ih =>
    rw [List.mem_append, List.mem_singleton, not_or] at h
    rw [← List.append_assoc, afterLast_concat, if_neg (Ne.symm h.2), ih h.1, List.append_assoc]

/-- One more character leads to the next column, or to the next row. -/
theorem place_concat (sep : α) (cs : List α) (c : α) :
    place sep (cs ++ [c]) =
      if c = sep then ((place sep cs).1 + 1, 0)
      else ((place sep cs).1, (place sep cs).2 + 1) := by
  rw [place, afterLast_concat, List.count_append, List.count_singleton]
  by_cases h : c = sep <;> simp [h, place]

/-- A longer text ends at a later place. -/
theorem place_lt_place (sep : α) (cs : List α) {ds : List α} (h : ds ≠ []) :
    Prod.Lex (· < ·) (· < ·) (place sep cs) (place sep (cs ++ ds)) := by
  induction ds using List.reverseRecOn with
  | nil => exact absurd rfl h
  | append_singleton ds d ih =>
    rw [← List.append_assoc, place_concat, Prod.lex_def]
    -- what `ds` adds is nothing or makes the place later; `d` then makes it later
    have hds : place sep cs = place sep (cs ++ ds) ∨
        Prod.Lex (· < ·) (· < ·) (place sep cs) (place sep (cs ++ ds)) := by
      rcases List.eq_nil_or_concat ds with rfl | ⟨es, e, rfl⟩
      · exact .inl (by rw [List.append_nil])
      · exact .inr (ih (by simp))
    rw [Prod.lex_def, Prod.ext_iff] at hds
    split <;> omega

end Places

/-! ### Line breaks in bytes and in characters -/

theorem utf8_append (cs ds : List Char) : utf8 (cs ++ ds) = utf8 cs ++ utf8 ds :=
  List.flatMap_append

theorem utf8_singleton (c : Char) : utf8 [c] = utf8EncodeChar c :=
  List.flatMap_singleton ..

/-- No other character has the byte of a line break in it. -/
theorem newline_mem_utf8EncodeChar_iff {c : Char} : 10 ∈ utf8EncodeChar c ↔ c = '\n' := by
  have hbyte {m : Nat} (hm : m < 256) : (10 : UInt8) = .ofNat m ↔ m = 10 := by
    rw [← UInt8.toNat_inj, UInt8.toNat_ofNat_of_lt' hm]
    exact eq_comm
  have hc : c = '\n' ↔ c.toNat = 10 := Char.toNat_inj.symm
  rcases utf8EncodeChar_cases c with ⟨h, hcs⟩ | ⟨_, h, hcs⟩ | ⟨_, h, hcs⟩ | ⟨_, h, hcs⟩ <;>
  rw [hcs, hc] <;>
  simp (disch := omega) only [List.mem_cons, List.not_mem_nil, or_false, hbyte] <;>
  omega

/-- The last line of the bytes is the last line of the characters. -/
theorem afterLast_utf8 (cs : List Char) : afterLast 10 (utf8 cs) = utf8 (afterLast '\n' cs) := by
  induction cs using List.reverseRecOn with
  | nil => rfl
  | append_singleton cs c ih =>
    rw [utf8_append, utf8_singleton, afterLast_concat]
    by_cases h : c = '\n'
    · subst h
      rw [if_pos rfl]
      exact (afterLast_concat 10 (utf8 cs) 10).trans (if_pos rfl)
    · have hbyte : 10 ∉ utf8EncodeChar c := newline_mem_utf8EncodeChar_iff.not.mpr h
      rw [if_neg h, afterLast_append hbyte, ih, utf8_append, utf8_singleton]

theorem count_utf8 (cs : List Char) : (utf8 cs).count 10 = cs.count '\n' := by
  induction cs with
  | nil => rfl
  | cons c cs ih =>
    rw [utf8_cons, List.count_append, ih]
    by_cases h : c = '\n'
    · subst h
      rw [List.count_cons_self, Nat.add_comm]
      rfl
    · have hbyte : 10 ∉ utf8EncodeChar c := newline_mem_utf8EncodeChar_iff.not.mpr h
      rw [List.count_eq_zero_of_not_mem hbyte, List.count_cons_of_ne h, Nat.zero_add]

theorem length_le_length_utf8 (cs : List Char) : cs.length ≤ (utf8 cs).length := by
  induction cs with
  | nil => exact Nat.le_refl _
  | cons c cs ih =>
    have hc := c.utf8Size_pos
    rw [utf8_cons, List.length_append, String.length_utf8EncodeChar, List.length_cons]
    omega

theorem eq_nil_of_length_utf8 {cs : List Char} (h : (utf8 cs).length = 0) : cs = [] := by
  have hle := length_le_length_utf8 cs
  exact List.eq_nil_of_length_eq_zero (by omega)

/-! ### Slices -/

theorem dropBytes_cons (n : Nat) (c : Char) (cs : List Char) :
    dropBytes (c.utf8Size + n) (c :: cs) = dropBytes n cs := by
  obtain ⟨k, hk⟩ := Nat.exists_eq_succ_of_ne_zero c.utf8Size_pos.ne'
  have hsum : c.utf8Size + n = k + n + 1 := by omega
  rw [hsum, dropBytes, if_pos (by omega)]
  congr 1
  omega

theorem takeBytes_cons (n : Nat) (c : Char) (cs : List Char) :
    takeBytes (c.utf8Size + n) (c :: cs) = (takeBytes n cs).map (c :: ·) := by
  obtain ⟨k, hk⟩ := Nat.exists_eq_succ_of_ne_zero c.utf8Size_pos.ne'
  have hsum : c.utf8Size + n = k + n + 1 := by omega
  rw [hsum, takeBytes, if_pos (by omega)]
  congr 2
  omega

theorem dropBytes_append (cs ds : List Char) : dropBytes (utf8 cs).length (cs ++ ds) = some ds := by
  induction cs with
  | nil => exact dropBytes.eq_1 ds
  | cons c cs ih =>
    rw [utf8_cons, List.length_append, String.length_utf8EncodeChar, List.cons_append,
      dropBytes_cons, ih]

theorem takeBytes_append (cs ds : List Char) : takeBytes (utf8 cs).length (cs ++ ds) = some cs := by
  induction cs with
  | nil => exact takeBytes.eq_1 ds
  | cons c cs ih =>
    rw [utf8_cons, List.length_append, String.length_utf8EncodeChar, List.cons_append,
      takeBytes_cons, ih, Option.map_some]

/-- Between two offsets on character boundaries stands the text between them. -/
theorem slice?_append (cs ds es : List Char) :
    slice? (utf8 cs).length ((utf8 cs).length + (utf8 ds).length) (cs ++ (ds ++ es)) = some ds := by
  rw [slice?, if_pos (Nat.le_add_right ..), dropBytes_append, Option.bind_some,
    Nat.add_sub_cancel_left, takeBytes_append]

/-! ### Beginnings of one text -/

section Beginnings

variable {src as bs : List Char}

theorem exists_append_of_length_le (has : as <+: src) (hbs : bs <+: src)
    (h : (utf8 as).length ≤ (utf8 bs).length) : ∃ ds, bs = as ++ ds := by
  rcases List.prefix_or_prefix_of_prefix has hbs with ⟨ds, rfl⟩ | ⟨ds, rfl⟩
  · exact ⟨ds, rfl⟩
  · rw [utf8_append, List.length_append] at h
    have hnil : ds = [] := eq_nil_of_length_utf8 (by omega)
    exact ⟨[], by rw [hnil, List.append_nil, List.append_nil]⟩

theorem eq_of_length_eq (has : as <+: src) (hbs : bs <+: src)
    (h : (utf8 as).length = (utf8 bs).length) : as = bs := by
  obtain ⟨ds, rfl⟩ := exists_append_of_length_le has hbs h.le
  rw [utf8_append, List.length_append] at h
  have hnil : ds = [] := eq_nil_of_length_utf8 (by omega)
  rw [hnil, List.append_nil]

theorem place_lt_of_length_lt (has : as <+: src) (hbs : bs <+: src)
    (h : (utf8 as).length < (utf8 bs).length) :
    Prod.Lex (· < ·) (· < ·) (place '\n' as) (place '\n' bs) := by
  obtain ⟨ds, rfl⟩ := exists_append_of_length_le has hbs h.le
  apply place_lt_place
  rintro rfl
  rw [List.append_nil] at h
  exact Nat.lt_irrefl _ h

end Beginnings

end Text

/-! ### Positions -/

/-- A position counts from one where a place counts from zero. -/
def Position.IsPlace (p : Position) (place : Nat × Nat) : Prop :=
  p.line.toNat = 1 + place.1 ∧ p.column.toNat = 1 + place.2

instance : Std.OrientedOrd Position :=
  inferInstanceAs
    (Std.OrientedCmp (compareLex (compareOn Position.line) (compareOn Position.column)))

namespace Position.IsPlace

variable {p q : Position} {x y : Nat × Nat}

theorem compare_eq_lt (hp : p.IsPlace x) (hq : q.IsPlace y)
    (h : Prod.Lex (· < ·) (· < ·) x y) : compare p q = .lt := by
  obtain ⟨hpl, hpc⟩ := hp
  obtain ⟨hql, hqc⟩ := hq
  have hlt : p.line.toNat < q.line.toNat ∨
      p.line.toNat = q.line.toNat ∧ p.column.toNat < q.column.toNat := by
    rw [Prod.lex_def] at h
    omega
  rw [← UInt32.lt_iff_toNat_lt, UInt32.toNat_inj, ← UInt32.lt_iff_toNat_lt] at hlt
  refine Ordering.then_eq_lt.mpr ?_
  rwa [Std.compare_eq_lt, Std.compare_eq_eq_iff_eq, Std.compare_eq_lt]

theorem compare_eq_eq (hp : p.IsPlace x) (hq : q.IsPlace x) : compare p q = .eq := by
  have hline : p.line = q.line := UInt32.toNat_inj.mp (hp.1.trans hq.1.symm)
  have hcolumn : p.column = q.column := UInt32.toNat_inj.mp (hp.2.trans hq.2.symm)
  refine Ordering.then_eq_eq.mpr ?_
  rw [Std.compare_eq_eq_iff_eq, Std.compare_eq_eq_iff_eq]
  exact ⟨hline, hcolumn⟩

end Position.IsPlace

namespace Node

/-- A node that cuts no character where it starts, with the row and the column, in bytes, of its
first byte. -/
structure Placed (src : List Char) (n : Node) : Prop where
  boundary : ∃ before, before <+: src ∧ (Text.utf8 before).length = n.start
  place : (n.row, n.column) = Text.place 10 ((Text.utf8 src).take n.start)

theorem placed_iff {src : List Char} {n : Node} :
    n.Placed src ↔ (∃ k < src.length + 1, (Text.utf8 (src.take k)).length = n.start) ∧
      (n.row, n.column) = Text.place 10 ((Text.utf8 src).take n.start) := by
  constructor
  · rintro ⟨⟨before, hbefore, hstart⟩, hplace⟩
    have hle : before.length ≤ src.length := hbefore.length_le
    refine ⟨⟨before.length, by omega, ?_⟩, hplace⟩
    rwa [← List.prefix_iff_eq_take.mp hbefore]
  · rintro ⟨⟨k, -, hstart⟩, hplace⟩
    exact ⟨⟨src.take k, List.take_prefix k src, hstart⟩, hplace⟩

instance (src : List Char) (n : Node) : Decidable (n.Placed src) :=
  decidable_of_iff _ placed_iff.symm

/-- What stands before the node, and its place told by that. -/
structure Follows (src before : List Char) (n : Node) : Prop where
  isPrefix : before <+: src
  start : (Text.utf8 before).length = n.start
  row : n.row = before.count '\n'
  column : n.column = (Text.utf8 (Text.afterLast '\n' before)).length

theorem Placed.exists_follows {src : List Char} {n : Node} (h : n.Placed src) :
    ∃ before, n.Follows src before := by
  obtain ⟨before, ⟨after, rfl⟩, hstart⟩ := h.boundary
  have hplace := h.place
  rw [Text.utf8_append, List.take_left' hstart, Text.place, Text.afterLast_utf8,
    Text.count_utf8] at hplace
  obtain ⟨hrow, hcolumn⟩ := Prod.mk.inj hplace
  exact ⟨before, ⟨List.prefix_append before after, hstart, hrow, hcolumn⟩⟩

namespace Follows

variable {src before : List Char} {n : Node} (h : n.Follows src before)
include h

/-- The slice from the start of the line is there. -/
theorem slice?_eq :
    Text.slice? (n.start - n.column) n.start src = some (Text.afterLast '\n' before) := by
  obtain ⟨⟨after, rfl⟩, hstart, -, hcolumn⟩ := h
  obtain ⟨lines, hlines⟩ : Text.afterLast '\n' before <:+ before := List.rtakeWhile_suffix ..
  have hlength := congrArg (fun cs => (Text.utf8 cs).length) hlines
  simp only [Text.utf8_append, List.length_append] at hlength
  have hslice := Text.slice?_append lines (Text.afterLast '\n' before) after
  rwa [← List.append_assoc, hlines, hlength, hstart,
    show (Text.utf8 lines).length = n.start - n.column by omega] at hslice

theorem charColumn_eq : n.charColumn src = (Text.afterLast '\n' before).length := by
  rw [charColumn, h.slice?_eq]
  rfl

theorem start_le : n.start ≤ (Text.utf8 src).length := by
  obtain ⟨after, rfl⟩ := h.isPrefix
  rw [← h.start, Text.utf8_append, List.length_append]
  exact Nat.le_add_right ..

/-- Neither the row nor the column of a node reaches the end of the 32-bit numbers if its offset
does not. -/
theorem lt_size_of_start (hstart : n.start + 1 < UInt32.size) :
    n.row + 1 < UInt32.size ∧ n.charColumn src + 1 < UInt32.size := by
  have hchars := Text.length_le_length_utf8 before
  have hline : (Text.afterLast '\n' before).length ≤ before.length :=
    (List.rtakeWhile_suffix ..).length_le
  have hcount : before.count '\n' ≤ before.length := List.count_le_length
  rw [h.row, h.charColumn_eq]
  rw [h.start] at hchars
  omega

theorem lt_size (hsize : (Text.utf8 src).length < UInt32.size - 1) :
    n.row + 1 < UInt32.size ∧ n.charColumn src + 1 < UInt32.size := by
  have hle := h.start_le
  exact h.lt_size_of_start (by omega)

theorem isPlace_of_start (hstart : n.start + 1 < UInt32.size) :
    (n.position src).IsPlace (Text.place '\n' before) := by
  obtain ⟨hrow, hcolumn⟩ := h.lt_size_of_start hstart
  have hnext {k : Nat} (hk : k + 1 < UInt32.size) : (k.toUInt32 + 1).toNat = 1 + k := by
    have hnat : k.toUInt32.toNat = k := UInt32.toNat_ofNat_of_lt' (by omega)
    rw [UInt32.toNat_add, hnat, Nat.add_comm 1 k]
    exact Nat.mod_eq_of_lt hk
  refine ⟨(hnext hrow).trans ?_, (hnext hcolumn).trans ?_⟩
  · rw [h.row]
    rfl
  · rw [h.charColumn_eq]
    rfl

theorem isPlace (hsize : (Text.utf8 src).length < UInt32.size - 1) :
    (n.position src).IsPlace (Text.place '\n' before) := by
  have hle := h.start_le
  exact h.isPlace_of_start (by omega)

end Follows

/-- The position of a node that has its place tells the line breaks before it and the characters
between the last of them and the node. The slice of its line is there, no number wraps around, and
positions compare as offsets do. -/
theorem position_placed {src : List Char} (hsize : (Text.utf8 src).length < UInt32.size - 1)
    {n : Node} (hn : n.Placed src) :
    (∃ before after, src = before ++ after ∧ (Text.utf8 before).length = n.start ∧
      (n.position src).line.toNat = 1 + before.count '\n' ∧
      (n.position src).column.toNat = 1 + (Text.afterLast '\n' before).length ∧
      Text.slice? (n.start - n.column) n.start src = some (Text.afterLast '\n' before) ∧
      n.row + 1 < UInt32.size ∧ n.charColumn src + 1 < UInt32.size) ∧
    ∀ m : Node, m.Placed src →
      compare (m.position src) (n.position src) = compare m.start n.start := by
  obtain ⟨before, hbefore⟩ := hn.exists_follows
  have hposition := hbefore.isPlace hsize
  constructor
  · obtain ⟨after, hafter⟩ := hbefore.isPrefix
    exact ⟨before, after, hafter.symm, hbefore.start, hposition.1, hposition.2, hbefore.slice?_eq,
      hbefore.lt_size hsize⟩
  · intro m hm
    obtain ⟨other, hother⟩ := hm.exists_follows
    have hm := hother.isPlace hsize
    rw [← hother.start, ← hbefore.start]
    rcases Nat.lt_trichotomy (Text.utf8 other).length (Text.utf8 before).length with
      hlt | heq | hgt
    · have hplace := Text.place_lt_of_length_lt hother.isPrefix hbefore.isPrefix hlt
      rw [Nat.compare_eq_lt.mpr hlt]
      exact hm.compare_eq_lt hposition hplace
    · obtain rfl := Text.eq_of_length_eq hother.isPrefix hbefore.isPrefix heq
      rw [Nat.compare_eq_eq.mpr rfl]
      exact hm.compare_eq_eq hposition
    · have hplace := Text.place_lt_of_length_lt hbefore.isPrefix hother.isPrefix hgt
      rw [Nat.compare_eq_gt.mpr hgt]
      exact Std.OrientedCmp.gt_iff_lt.mpr (hposition.compare_eq_lt hm hplace)

/-- Characters of one to four bytes, a byte order mark and an empty line. -/
theorem position_placed_multibyte :
    let src := "\ufeffé\n\nλ😀x".toList
    let accented : Node := .plain "identifier" (some "name") 3 5
    let last : Node := { Node.plain "identifier" (some "name") 13 14 with row := 2, column := 6 }
    (Text.utf8 src).length < UInt32.size - 1 ∧ accented.Placed src ∧ last.Placed src ∧
      accented.position src = ⟨1, 2⟩ ∧ last.position src = ⟨3, 3⟩ ∧
      compare (accented.position src) (last.position src) = .lt := by
  intro src accented last
  have hsize : (Text.utf8 src).length < UInt32.size - 1 := by decide +kernel
  have haccented : accented.Placed src :=
    ⟨⟨"\ufeff".toList, by decide, by decide⟩, by decide +kernel⟩
  have hlast : last.Placed src :=
    ⟨⟨"\ufeffé\n\nλ😀".toList, by decide, by decide⟩, by decide +kernel⟩
  refine ⟨hsize, haccented, hlast, by decide +kernel, by decide +kernel, ?_⟩
  exact (position_placed hsize hlast).2 accented haccented

end Node

end TagIndex
