import TagIndex.Proofs.CtagsLines
import TagIndex.Proofs.Selection

/-!
# The names of tag lines

A tag line has the name that a node of the tree spells, without its backticks. Nothing else is done
to it, so what the format makes of a name is decided by the text of the node. A token that the
parser put in has no text, and inside backticks a name may have a tab.

- `Name.unquote_cases`: a text with and without backticks.
- `Name.IsWritable`, `Ctags.isName_unquote_iff`: the texts whose names the ctags format can carry.
- `Tag.mem_map_toName_ofTree`: the tags of a tree and the names that they are tags of.
- `Indexer.names_source`: the names of all tag lines of a source.
-/

namespace TagIndex

namespace Name

/-- Backticks are taken away as a pair only. -/
theorem unquote_cases (text : List Char) :
    (∃ inner, text = '\x60' :: (inner ++ ['\x60']) ∧ unquote text = inner) ∨
    (∀ inner, text ≠ '\x60' :: (inner ++ ['\x60'])) ∧ unquote text = text := by
  unfold unquote
  split
  · next rest =>
    by_cases hlast : rest.getLast? = some '\x60'
    · obtain ⟨inner, rfl⟩ := List.getLast?_eq_some_iff.mp hlast
      refine .inl ⟨inner, rfl, ?_⟩
      rw [if_pos hlast, List.dropLast_concat]
    · refine .inr ⟨fun inner heq => hlast ?_, if_neg hlast⟩
      rw [(List.cons.inj heq).2, List.getLast?_concat]
  · next hquote =>
    exact .inr ⟨fun inner heq => hquote _ heq, rfl⟩

theorem mem_unquote_iff {c : Char} (hc : c ≠ '\x60') {text : List Char} :
    c ∈ unquote text ↔ c ∈ text := by
  obtain ⟨inner, rfl, heq⟩ | ⟨-, heq⟩ := unquote_cases text
  · simp [heq, hc]
  · rw [heq]

theorem unquote_eq_nil_iff {text : List Char} :
    unquote text = [] ↔ text = [] ∨ text = ['\x60', '\x60'] := by
  obtain ⟨inner, rfl, heq⟩ | ⟨hne, heq⟩ := unquote_cases text
  · rw [heq]
    cases inner <;> simp
  · rw [heq]
    refine ⟨.inl, fun h => h.resolve_right fun hpair => hne [] hpair⟩

/-- A text that spells a name for the ctags format: there is something in it besides backticks, and
it has no tab and no line break. -/
def IsWritable (text : List Char) : Prop :=
  text ≠ [] ∧ text ≠ ['\x60', '\x60'] ∧ '\t' ∉ text ∧ '\n' ∉ text

end Name

namespace Ctags

/-- A text that can be the name of a tag in a ctags line. -/
def IsName (s : String) : Prop :=
  s ≠ "" ∧ IsField s

theorem isName_unquote_iff {text : List Char} :
    IsName (.ofList (Name.unquote text)) ↔ Name.IsWritable text := by
  have hempty : String.ofList (Name.unquote text) = "" ↔ text = [] ∨ text = ['\x60', '\x60'] := by
    rw [← Name.unquote_eq_nil_iff, ← String.toList_inj, String.toList_ofList]
    rfl
  have htab : '\t' ∈ Name.unquote text ↔ '\t' ∈ text := Name.mem_unquote_iff (by decide)
  have hnewline : '\n' ∈ Name.unquote text ↔ '\n' ∈ text := Name.mem_unquote_iff (by decide)
  rw [IsName, IsField, String.toList_ofList, ne_eq, hempty, htab, hnewline, not_or, and_assoc]
  rfl

end Ctags

/-! ### Tags and their names -/

def Tag.toName (t : Tag) : Name :=
  { value := t.name, position := t.position }

theorem Tagged.mem_map_toName_iff {names : List Name} {tags : List Tag} (h : Tagged names tags)
    {name : Name} : name ∈ tags.map Tag.toName ↔ name ∈ names := by
  induction h with
  | nil => rfl
  | plain first isLocal _ ih =>
    have hfirst : (Tag.plain isLocal first).toName = first := rfl
    rw [List.map_cons, List.mem_cons, List.mem_cons, ih, hfirst]
  | paired first isLocal q _ ih =>
    have hfirst : (Tag.plain isLocal first).toName = first := rfl
    -- a qualified tag has the same name and position as the plain one after it
    have hqualified : Tag.toName
        { qualifier := some q, name := first.value, isLocal, position := first.position } =
          first := rfl
    simp only [List.map_cons, List.mem_cons, ih, hfirst, hqualified, or_self_left]

/-- The tags of a tree are tags of its declared names, and every declared name has one. -/
theorem Tag.mem_map_toName_ofTree {src : List Char} {root : Tree} {name : Name} :
    name ∈ (Tag.ofTree src root).map toName ↔
      name ∈ (root.declaredNames src).map (Name.ofNode src) := by
  have htagged := Tagged.flatMap (Tree.named root.children) fun t _ =>
    tagged_namesAt src .package none t
  rw [ofTree_eq_flatMap, Tree.declaredNames, htagged.mem_map_toName_iff, List.map_flatMap]

namespace Indexer

/-- Where the tag lines of a source come from, in a strict and in a tolerant indexer. -/
theorem exists_of_source_eq_ok {ix : Indexer} {file source : String} {lines : List TagLine}
    (h : ix.source file source = .ok lines) :
    ∃ grammar root, ix.registry.forFile? file = some grammar ∧ grammar.parse source = .ok root ∧
      lines = (Tag.ofTree source.toList root).map fun tag =>
        { tag, file, language := grammar.name } := by
  cases hfile : ix.registry.forFile? file with
  | none =>
    rw [Indexer.source, hfile] at h
    cases h
  | some grammar =>
    rw [source_eq hfile] at h
    cases hparse : grammar.parse source with
    | error message =>
      rw [parsed, hparse] at h
      cases h
    | ok root =>
      refine ⟨grammar, root, rfl, hparse, ?_⟩
      rw [parsed_eq hparse] at h
      cases hfault : (if ix.tolerant then none
          else (root.diagnostic? source.toList).map (Failure.parse file)) with
      | none =>
        rw [hfault] at h
        exact (Except.ok.inj h).symm
      | some failure =>
        rw [hfault] at h
        cases h

/-- Each tag line of a source has the name that a node of the tree spells, and the ctags format can
carry it exactly if it can carry what the node spells. So it can carry all tag lines of the source
exactly if all declared names of the tree are spelled so. -/
theorem names_source {ix : Indexer} {file source : String} {lines : List TagLine}
    (h : ix.source file source = .ok lines) :
    ∃ grammar root, ix.registry.forFile? file = some grammar ∧ grammar.parse source = .ok root ∧
      (∀ l ∈ lines, ∃ n ∈ root.declaredNames source.toList,
        l.tag.name = .ofList (Name.unquote (n.text source.toList)) ∧
        l.tag.position = n.position source.toList ∧
        (Ctags.IsName l.tag.name ↔ Name.IsWritable (n.text source.toList))) ∧
      ((∀ l ∈ lines, Ctags.IsName l.tag.name) ↔
        ∀ n ∈ root.declaredNames source.toList, Name.IsWritable (n.text source.toList)) := by
  obtain ⟨grammar, root, hfile, hparse, rfl⟩ := exists_of_source_eq_ok h
  have hnode : ∀ tag ∈ Tag.ofTree source.toList root, ∃ n ∈ root.declaredNames source.toList,
      Name.ofNode source.toList n = tag.toName := fun tag htag =>
    List.mem_map.mp (Tag.mem_map_toName_ofTree.mp (List.mem_map_of_mem htag))
  refine ⟨grammar, root, hfile, hparse, ?_, ?_⟩
  · rw [List.forall_mem_map]
    intro tag htag
    obtain ⟨n, hn, heq⟩ := hnode tag htag
    obtain ⟨hname, hposition⟩ := Name.mk.inj heq
    refine ⟨n, hn, hname.symm, hposition.symm, ?_⟩
    rw [← hname]
    exact Ctags.isName_unquote_iff
  · rw [List.forall_mem_map]
    constructor
    · intro hall n hn
      obtain ⟨tag, htag, heq⟩ :=
        List.mem_map.mp (Tag.mem_map_toName_ofTree.mpr (List.mem_map_of_mem hn))
      have hisName := hall tag htag
      rw [(Name.mk.inj heq).1] at hisName
      exact Ctags.isName_unquote_iff.mp hisName
    · intro hall tag htag
      obtain ⟨n, hn, heq⟩ := hnode tag htag
      rw [← (Name.mk.inj heq).1]
      exact Ctags.isName_unquote_iff.mpr (hall n hn)

/-- A name with a blank and an `é` between its backticks. -/
theorem names_source_quoted :
    let root : Tree :=
      .mk (.plain "compilation_unit" none 0 14)
        [.mk (.plain "function_definition" none 0 14)
          [.token "def" 0 3, .leaf "identifier" "name" 4 10, .token "=" 11 12,
            .leaf "integer_literal" "body" 13 14]]
    let ix : Indexer := { registry := .scala fun _ => .ok root, tolerant := false }
    let line : TagLine :=
      { tag := { qualifier := none, name := "é x", isLocal := false, position := ⟨1, 5⟩ }
        file := "A.scala", language := "scala" }
    ix.source "A.scala" "def `é x` = 1" = .ok [line] ∧ Ctags.IsName line.tag.name := by
  intro root ix line
  have hok : ix.source "A.scala" "def `é x` = 1" = .ok [line] := by rfl
  obtain ⟨grammar, tree, hfile, hparse, -, hall⟩ := names_source hok
  obtain rfl : Grammar.scala (fun _ => .ok root) = grammar := Option.some.inj hfile
  obtain rfl : root = tree := Except.ok.inj hparse
  have hnames : root.declaredNames "def `é x` = 1".toList =
      [.plain "identifier" (some "name") 4 10] := by
    simp [root, Tree.leaf, Tree.token, Node.plain, Tree.declaredNames, Tree.named,
      List.filter_cons, Tree.namesAt_eq, Tree.ownNames, Tree.statements, Tree.inField?]
  refine ⟨hok, hall.mpr ?_ line List.mem_cons_self⟩
  rw [hnames]
  intro n hn
  cases List.mem_singleton.mp hn
  exact ⟨by decide, by decide, by decide, by decide⟩

/-- A tab between backticks, and a name that the parser put in for one that is missing. -/
theorem source_unwritable :
    let quoted : Tree :=
      .mk (.plain "compilation_unit" none 0 13)
        [.mk (.plain "function_definition" none 0 13)
          [.token "def" 0 3, .leaf "identifier" "name" 4 9, .token "=" 10 11,
            .leaf "integer_literal" "body" 12 13]]
    let nameless : Tree :=
      .mk { Node.plain "compilation_unit" none 0 14 with hasError := true }
        [.mk { Node.plain "package_object" none 0 14 with hasError := true }
          [.token "package" 0 7, .token "object" 8 14,
            .mk { Node.plain "identifier" (some "name") 14 14 with hasError := true } []]]
    let strict : Indexer := { registry := .scala fun _ => .ok quoted, tolerant := false }
    let tolerant : Indexer := { registry := .scala fun _ => .ok nameless, tolerant := true }
    let tabbed : TagLine :=
      { tag := { qualifier := none, name := "a\tb", isLocal := false, position := ⟨1, 5⟩ }
        file := "A.scala", language := "scala" }
    let empty : TagLine :=
      { tag := { qualifier := none, name := "", isLocal := false, position := ⟨1, 15⟩ }
        file := "A.scala", language := "scala" }
    (strict.source "A.scala" "def `a\tb` = 1" = .ok [tabbed] ∧ ¬ Ctags.IsName tabbed.tag.name) ∧
      tolerant.source "A.scala" "package object" = .ok [empty] ∧ ¬ Ctags.IsName empty.tag.name := by
  intro quoted nameless strict tolerant tabbed empty
  refine ⟨⟨rfl, fun h => ?_⟩, rfl, fun h => ?_⟩
  · exact h.2.1 (by decide)
  · exact h.1 rfl

end Indexer

end TagIndex
