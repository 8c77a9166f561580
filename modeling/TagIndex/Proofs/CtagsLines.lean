import TagIndex.TagFile.Basic
import TagIndex.Text.Decimal
import TagIndex.Text.Fields
import TagIndex.Text.Suffix

/-!
# Ctags lines can be read back

The ctags format has no escapes: a line is cut at its tabs and a file at its line breaks, whatever
the texts between them look like. A tag line whose texts have neither is read back from its line.

- `Ctags.textLines?`, `Ctags.Entry.ofText?`, `Ctags.read?`: a reader of tags files. It takes the
  first three fields of a line by their place and the others by their keys.
- `Ctags.IsField`, `TagLine.Fits`: texts and tag lines that the format can carry.
- `Ctags.fields_line`: where the fields of a line begin and end.
- `Ctags.ofText?_line`: the line of a tag says what the tag says.
- `TagFile.textLines?_render`, `TagFile.read?_render`: a whole file.
-/

namespace TagIndex

namespace Ctags

/-! ### Reading -/

structure Entry where
  fullName : String
  file : String
  line : Nat
  column : Nat
  isLocal : Bool
  language : String
deriving DecidableEq, Repr

/-- The lines of a text in which every line ends with a line break. -/
def textLines? (text : List Char) : Option (List (List Char)) :=
  let fields := Text.fields '\n' text
  if fields.getLast? = some [] then some fields.dropLast else none

def address? (text : List Char) : Option (Nat × Nat) :=
  match Text.fields 'G' text with
  | [line, rest] =>
    match Text.fields '|' rest with
    | [column, [';', '\x22']] => do return (← Text.decimal? line, ← Text.decimal? column)
    | _ => none
  | _ => none

/-- The value of the first field `key:value` with the given key. -/
def extension? (key : String) (fields : List (List Char)) : Option (List Char) :=
  fields.findSome? (Text.stripStart? (key.toList ++ [':']))

/-- What a line says. A tag is file-local if the line has a field `file`. -/
def Entry.ofText? (text : List Char) : Option Entry :=
  match Text.fields '\t' text with
  | name :: file :: place :: extensions => do
    let (line, column) ← address? place
    let language ← extension? "language" extensions
    return {
      fullName := .ofList name, file := .ofList file, line, column
      isLocal := (extension? "file" extensions).isSome, language := .ofList language }
  | _ => none

/-- What a tags file says, behind its four pseudo-tags if it has them. -/
def read? (header : Bool) (text : List Char) : Option (List Entry) := do
  let lines ← textLines? text
  (if header then lines.drop 4 else lines).mapM Entry.ofText?

def Entry.ofLine (l : TagLine) : Entry :=
  { fullName := l.fullName, file := l.file, line := l.tag.position.line.toNat
    column := l.tag.position.column.toNat, isLocal := l.tag.isLocal, language := l.language }

/-- A text that fits into one field of one line. -/
def IsField (s : String) : Prop :=
  '\t' ∉ s.toList ∧ '\n' ∉ s.toList

instance (s : String) : Decidable (IsField s) :=
  inferInstanceAs (Decidable (_ ∧ _))

end Ctags

/-- A tag line whose text is a single line that starts with its full name. -/
structure TagLine.OneLine (l : TagLine) : Prop where
  qualifier : ∀ q, l.tag.qualifier = some q → Ctags.IsField q
  name : Ctags.IsField l.tag.name
  file : Ctags.IsField l.file
  newline_notMem_language : '\n' ∉ l.language.toList

/-- A tag line that the ctags format can carry: none of its texts has a tab or a line break. -/
structure TagLine.Fits (l : TagLine) : Prop extends l.OneLine where
  tab_notMem_language : '\t' ∉ l.language.toList

namespace Ctags

/-! ### The fields of a line -/

theorem notMem_toDigits {c : Char} (hc : c.isDigit = false) (n : Nat) :
    c ∉ Nat.toDigits 10 n := by
  intro hmem
  have hdigit : c.isDigit = true := Nat.isDigit_of_mem_toDigits (by decide) (by decide) hmem
  rw [hc] at hdigit
  cases hdigit

theorem toList_address (p : Position) :
    (address p).toList =
      Nat.toDigits 10 p.line.toNat ++ 'G' ::
        (Nat.toDigits 10 p.column.toNat ++ '|' :: [';', '\x22']) := by
  simp [address]

theorem notMem_address {c : Char} (hdigit : c.isDigit = false) (hc : c ∉ ['G', '|', ';', '\x22'])
    (p : Position) : c ∉ (address p).toList := by
  have hline := notMem_toDigits hdigit p.line.toNat
  have hcolumn := notMem_toDigits hdigit p.column.toNat
  simp only [List.mem_cons, List.not_mem_nil, or_false, not_or] at hc
  simp [toList_address, hline, hcolumn, hc]

theorem address?_address (p : Position) :
    address? (address p).toList = some (p.line.toNat, p.column.toNat) := by
  have hline : 'G' ∉ Nat.toDigits 10 p.line.toNat := notMem_toDigits rfl _
  have hcolumn : '|' ∉ Nat.toDigits 10 p.column.toNat := notMem_toDigits rfl _
  have hrest : 'G' ∉ Nat.toDigits 10 p.column.toNat ++ '|' :: [';', '\x22'] := by
    simp [notMem_toDigits (c := 'G') rfl]
  have hend : Text.fields '|' [';', '\x22'] = [[';', '\x22']] := rfl
  rw [address?, toList_address, Text.fields_append hline, Text.fields_of_notMem hrest]
  simp only
  rw [Text.fields_append hcolumn, hend]
  simp only [Text.decimal?_toDigits]
  rfl

def lineFields (l : TagLine) : List (List Char) :=
  l.fullName.toList :: l.file.toList :: (address l.tag.position).toList ::
    ((if l.tag.isLocal then ["file:".toList ++ l.file.toList] else []) ++
      ["language:".toList ++ l.language.toList])

theorem toList_line (l : TagLine) : (line l).toList = Text.joinFields '\t' (lineFields l) := by
  unfold line lineFields
  cases l.tag.isLocal <;> simp [Text.joinFields]

theorem notMem_fullName {c : Char} (hc : c ≠ '.') {l : TagLine}
    (hqualifier : ∀ q, l.tag.qualifier = some q → c ∉ q.toList) (hname : c ∉ l.tag.name.toList) :
    c ∉ l.fullName.toList := by
  rw [TagLine.fullName, Tag.fullName]
  split
  · next q hq => simp [hqualifier q hq, hname, hc]
  · exact hname

theorem tab_notMem_fullName {l : TagLine} (h : l.OneLine) : '\t' ∉ l.fullName.toList :=
  notMem_fullName (by decide) (fun q hq => (h.qualifier q hq).1) h.name.1

theorem newline_notMem_line {l : TagLine} (h : l.OneLine) : '\n' ∉ (line l).toList := by
  have hname : '\n' ∉ l.fullName.toList :=
    notMem_fullName (by decide) (fun q hq => (h.qualifier q hq).2) h.name.2
  have haddress : '\n' ∉ (address l.tag.position).toList := notMem_address rfl (by decide) _
  have hfile := h.file.2
  have hlanguage := h.newline_notMem_language
  unfold line
  cases l.tag.isLocal <;> simp [hname, haddress, hfile, hlanguage]

theorem tab_notMem_lineFields {l : TagLine} (h : l.Fits) : ∀ f ∈ lineFields l, '\t' ∉ f := by
  have hname := tab_notMem_fullName h.toOneLine
  have haddress : '\t' ∉ (address l.tag.position).toList := notMem_address rfl (by decide) _
  have hfile := h.file.1
  have hlanguage := h.tab_notMem_language
  unfold lineFields
  cases l.tag.isLocal <;> simp [hname, haddress, hfile, hlanguage]

theorem fields_line {l : TagLine} (h : l.Fits) :
    Text.fields '\t' (line l).toList = lineFields l := by
  rw [toList_line]
  exact Text.fields_joinFields (List.cons_ne_nil _ _) (tab_notMem_lineFields h)

/-! ### Lines and files -/

section Extensions

variable (isLocal : Bool) (file language : List Char)

/-- The path in the field `file` may look like a field itself, but it stands behind its key. -/
theorem extension?_language :
    extension? "language" ((if isLocal then ["file:".toList ++ file] else []) ++
      ["language:".toList ++ language]) = some language := by
  cases isLocal <;> rfl

theorem isSome_extension?_file :
    (extension? "file" ((if isLocal then ["file:".toList ++ file] else []) ++
      ["language:".toList ++ language])).isSome = isLocal := by
  cases isLocal <;> rfl

end Extensions

theorem ofText?_line {l : TagLine} (h : l.Fits) :
    Entry.ofText? (line l).toList = some (Entry.ofLine l) := by
  rw [Entry.ofText?, fields_line h, lineFields]
  simp only [address?_address, extension?_language, isSome_extension?_file, Option.bind_eq_bind,
    Option.bind_some, String.ofList_toList]
  rfl

def headerLines : List (List Char) :=
  header.map String.toList

def tagLines (lines : List TagLine) : List (List Char) :=
  lines.map fun l => (line l).toList

theorem newline_notMem_headerLines : ∀ text ∈ headerLines, '\n' ∉ text := by
  decide +kernel

theorem mapM_ofText?_tagLines {lines : List TagLine} (h : ∀ l ∈ lines, l.Fits) :
    (tagLines lines).mapM Entry.ofText? = some (lines.map Entry.ofLine) := by
  induction lines with
  | nil => rfl
  | cons l lines ih =>
    have hl := ofText?_line (h l List.mem_cons_self)
    have hlines := ih fun m hm => h m (List.mem_cons_of_mem l hm)
    rw [tagLines, List.map_cons, List.mapM_cons, hl, ← tagLines, hlines]
    rfl

theorem line_eq_of_ofLine_eq {a b : TagLine} (h : Entry.ofLine a = Entry.ofLine b) :
    line a = line b := by
  obtain ⟨hname, hfile, hline, hcolumn, hlocal, hlanguage⟩ := Entry.mk.inj h
  unfold line address
  rw [hname, hfile, hline, hcolumn, hlocal, hlanguage]

end Ctags

namespace TagFile

def ctagsLines (header : Bool) (lines : List TagLine) : List (List Char) :=
  (if header then Ctags.headerLines else []) ++ Ctags.tagLines lines

theorem toList_render_ctags (header : Bool) (lines : List TagLine) :
    (render ⟨.ctags, header⟩ lines).toList =
      (ctagsLines header lines).flatMap (· ++ ['\n']) := by
  cases header <;>
    simp [render, pieces, Piece.line, ctagsLines, Ctags.headerLines, Ctags.tagLines,
      List.flatMap_map]

/-- A file is cut into the lines that were written. -/
theorem textLines?_render (header : Bool) {lines : List TagLine}
    (h : ∀ l ∈ lines, l.OneLine) :
    Ctags.textLines? (render ⟨.ctags, header⟩ lines).toList = some (ctagsLines header lines) := by
  have hlines : ∀ text ∈ ctagsLines header lines, '\n' ∉ text := by
    intro text htext
    rcases List.mem_append.mp htext with htext | htext
    · cases header with
      | false => cases htext
      | true => exact Ctags.newline_notMem_headerLines text htext
    · obtain ⟨l, hl, rfl⟩ := List.mem_map.mp htext
      exact Ctags.newline_notMem_line (h l hl)
  rw [Ctags.textLines?, toList_render_ctags, Text.fields_flatMap hlines]
  simp

theorem drop_ctagsLines (header : Bool) (lines : List TagLine) :
    (if header then (ctagsLines header lines).drop 4 else ctagsLines header lines) =
      Ctags.tagLines lines := by
  cases header <;> rfl

/-- A tags file in the ctags format, with or without a header, says of each tag line all there is
to say, if the format can carry it. Two such tag lines have one text only if they say the same. -/
theorem read?_render :
    (∀ (header : Bool) (lines : List TagLine), (∀ l ∈ lines, l.Fits) →
      Ctags.read? header (render ⟨.ctags, header⟩ lines).toList =
        some (lines.map Ctags.Entry.ofLine)) ∧
    ∀ a b : TagLine, a.Fits → b.Fits →
      (Ctags.line a = Ctags.line b ↔ Ctags.Entry.ofLine a = Ctags.Entry.ofLine b) := by
  constructor
  · intro header lines h
    have hlines := textLines?_render header fun l hl => (h l hl).toOneLine
    rw [Ctags.read?, hlines, Option.bind_eq_bind, Option.bind_some, drop_ctagsLines]
    exact Ctags.mapM_ofText?_tagLines h
  · intro a b ha hb
    refine ⟨fun heq => ?_, Ctags.line_eq_of_ofLine_eq⟩
    have hread := Ctags.ofText?_line ha
    rw [heq, Ctags.ofText?_line hb] at hread
    exact (Option.some.inj hread).symm

/-- Texts that look like other fields, numbers at both ends of their range, and empty texts. -/
theorem read?_render_lookalikes :
    let a : TagLine :=
      { tag := { qualifier := some "1G2|;\"", name := "language:x", isLocal := true
                 position := ⟨4294967295, 0⟩ }
        file := "file:a G.scala", language := "file:" }
    let b : TagLine :=
      { tag := { qualifier := some "", name := "", isLocal := false, position := ⟨0, 10⟩ }
        file := "", language := "" }
    a.Fits ∧ b.Fits ∧
      Ctags.read? true (render ⟨.ctags, true⟩ [a, b]).toList =
        some [⟨"1G2|;\".language:x", "file:a G.scala", 4294967295, 0, true, "file:"⟩,
          ⟨".", "", 0, 10, false, ""⟩] ∧
      Ctags.line a ≠ Ctags.line b := by
  intro a b
  have ha : a.Fits := ⟨⟨by rintro q ⟨⟩; decide, by decide, by decide, by decide⟩, by decide⟩
  have hb : b.Fits := ⟨⟨by rintro q ⟨⟩; decide, by decide, by decide, by decide⟩, by decide⟩
  refine ⟨ha, hb, read?_render.1 true [a, b] ?_, fun h => ?_⟩
  · rintro l hl
    simp only [List.mem_cons, List.not_mem_nil, or_false] at hl
    rcases hl with rfl | rfl
    · exact ha
    · exact hb
  · have hlocal := congrArg Ctags.Entry.isLocal ((read?_render.2 a b ha hb).mp h)
    cases hlocal

end TagFile

end TagIndex
