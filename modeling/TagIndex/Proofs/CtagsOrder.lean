import TagIndex.Proofs.ByteOrder
import TagIndex.Proofs.CtagsLines
import TagIndex.Proofs.StableSort

/-!
# The order of a tags file

Editors look a tag up by binary search, so a tags file says of itself that it is sorted. The
pseudo-tags stand first whatever the names of the tags are. They are in order among themselves, and
so are the lines of the tags; but a tag whose name comes before theirs, such as the operator `!`,
does not stand before them.

- `Ctags.lookupKey`, `Ctags.InOrder`: what a line is looked up by, and the order that a search needs.
- `Ctags.inOrder_sort`: the lines of sorted tags.
- `Ctags.inOrder_header_append_iff`: when the pseudo-tags and the lines after them are in order.
- `TagFile.inOrder_render_sort`: a whole file.
-/

namespace TagIndex

namespace Ctags

/-- What a line is looked up by: the bytes before its first tab. -/
def lookupKey (line : List Char) : List UInt8 :=
  Text.utf8 (line.takeWhile (· ≠ '\t'))

/-- Lines in the order that a binary search needs. -/
def InOrder (lines : List (List Char)) : Prop :=
  lines.Pairwise fun a b => lookupKey a ≤ lookupKey b

instance (lines : List (List Char)) : Decidable (InOrder lines) :=
  inferInstanceAs (Decidable (lines.Pairwise _))

def nameBytes (l : TagLine) : List UInt8 :=
  Text.utf8 l.fullName.toList

/-- What the last of the pseudo-tags is looked up by. No other has a greater key. -/
def lastPseudoTag : List UInt8 :=
  Text.utf8 "!_TAG_PROGRAM_VERSION".toList

theorem lookupKey_headerLines :
    headerLines.map lookupKey =
      [Text.utf8 "!_TAG_FILE_FORMAT".toList, Text.utf8 "!_TAG_FILE_SORTED".toList,
        Text.utf8 "!_TAG_PROGRAM_NAME".toList, lastPseudoTag] := by
  decide +kernel

theorem inOrder_headerLines : InOrder headerLines := by
  have hkeys : (headerLines.map lookupKey).Pairwise (· ≤ ·) := by
    rw [lookupKey_headerLines]
    decide +kernel
  exact List.pairwise_map.mp hkeys

theorem lookupKey_le_lastPseudoTag : ∀ text ∈ headerLines, lookupKey text ≤ lastPseudoTag := by
  have hkeys : ∀ key ∈ headerLines.map lookupKey, key ≤ lastPseudoTag := by
    rw [lookupKey_headerLines]
    decide +kernel
  exact List.forall_mem_map.mp hkeys

theorem exists_lookupKey_eq_lastPseudoTag :
    ∃ text ∈ headerLines, lookupKey text = lastPseudoTag := by
  have hlast : lastPseudoTag ∈ headerLines.map lookupKey := by
    rw [lookupKey_headerLines]
    simp
  exact List.mem_map.mp hlast

theorem lookupKey_line {l : TagLine} (h : '\t' ∉ l.fullName.toList) :
    lookupKey (line l).toList = nameBytes l := by
  have hname : ∀ c ∈ l.fullName.toList, decide (c ≠ '\t') = true := by
    rintro c hc
    refine decide_eq_true fun heq => h ?_
    rwa [← heq]
  rw [lookupKey, toList_line, lineFields, Text.joinFields, List.takeWhile_append_of_pos hname,
    List.takeWhile_cons_of_neg (by decide), List.append_nil]
  · rfl
  · exact List.cons_ne_nil _ _

theorem nameBytes_le_iff {a b : TagLine} : nameBytes a ≤ nameBytes b ↔ a.fullName ≤ b.fullName :=
  not_congr Text.utf8_lt_iff

theorem inOrder_sort {lines : List TagLine} (h : ∀ l ∈ lines, l.OneLine) :
    InOrder (tagLines (TagLine.sort lines)) := by
  have hsorted : (TagLine.sort lines).Pairwise fun a b => a.fullName ≤ b.fullName :=
    (List.pairwise_mergeSort TagLine.le_trans TagLine.le_total lines).imp of_decide_eq_true
  rw [InOrder, tagLines, List.pairwise_map]
  refine hsorted.imp_of_mem fun {a b} ha hb hle => ?_
  have ha := tab_notMem_fullName (h a (List.mem_mergeSort.mp ha))
  have hb := tab_notMem_fullName (h b (List.mem_mergeSort.mp hb))
  rw [lookupKey_line ha, lookupKey_line hb]
  exact nameBytes_le_iff.mpr hle

/-- Behind the pseudo-tags only the last of them matters. -/
theorem inOrder_header_append_iff {lines : List (List Char)} (h : InOrder lines) :
    InOrder (headerLines ++ lines) ↔ ∀ text ∈ lines, lastPseudoTag ≤ lookupKey text := by
  constructor
  · intro hall text htext
    obtain ⟨last, hlast, hkey⟩ := exists_lookupKey_eq_lastPseudoTag
    rw [← hkey]
    exact (List.pairwise_append.mp hall).2.2 last hlast text htext
  · intro hlast
    refine List.pairwise_append.mpr ⟨inOrder_headerLines, h, fun a ha b hb => ?_⟩
    exact List.le_trans (lookupKey_le_lastPseudoTag a ha) (hlast b hb)

end Ctags

namespace TagFile

/-- A file of sorted tags has its pseudo-tags first, in order, and then its tags, in order. All of
its lines together are in order exactly if no tag has a name before the last of the pseudo-tags. -/
theorem inOrder_render_sort {lines : List TagLine} (h : ∀ l ∈ lines, l.OneLine) :
    let tags := Ctags.tagLines (TagLine.sort lines)
    Ctags.textLines? (render ⟨.ctags, true⟩ (TagLine.sort lines)).toList =
        some (Ctags.headerLines ++ tags) ∧
      Ctags.InOrder Ctags.headerLines ∧ Ctags.InOrder tags ∧
      (Ctags.InOrder (Ctags.headerLines ++ tags) ↔
        ∀ l ∈ lines, Ctags.lastPseudoTag ≤ Ctags.nameBytes l) := by
  intro tags
  have hsort : ∀ l ∈ TagLine.sort lines, l.OneLine := fun l hl => h l (List.mem_mergeSort.mp hl)
  have htags := Ctags.inOrder_sort h
  refine ⟨?_, Ctags.inOrder_headerLines, htags, ?_⟩
  · rw [textLines?_render true hsort]
    rfl
  · rw [Ctags.inOrder_header_append_iff htags]
    simp only [Ctags.tagLines, List.forall_mem_map]
    refine ⟨fun hle l hl => ?_, fun hle l hl => ?_⟩
    · rw [← Ctags.lookupKey_line (Ctags.tab_notMem_fullName (h l hl))]
      exact hle l (List.mem_mergeSort.mpr hl)
    · rw [Ctags.lookupKey_line (Ctags.tab_notMem_fullName (hsort l hl))]
      exact hle l (List.mem_mergeSort.mp hl)

/-- The tags of an operator and of a qualified name: they are in order, but the operator is not
before the pseudo-tags. -/
theorem inOrder_render_sort_operator :
    let lines : List TagLine :=
      [{ tag := { qualifier := some "Main", name := "run", isLocal := false, position := ⟨3, 7⟩ }
         file := "Main.scala", language := "scala" },
       { tag := { qualifier := none, name := "!=", isLocal := true, position := ⟨5, 15⟩ }
         file := "Main.scala", language := "scala" }]
    (∀ l ∈ lines, l.OneLine) ∧ Ctags.InOrder (Ctags.tagLines (TagLine.sort lines)) ∧
      ¬ Ctags.InOrder (Ctags.headerLines ++ Ctags.tagLines (TagLine.sort lines)) := by
  intro lines
  have hlines : ∀ l ∈ lines, l.OneLine := by
    intro l hl
    simp only [lines, List.mem_cons, List.not_mem_nil, or_false] at hl
    rcases hl with rfl | rfl
    · exact ⟨by rintro q ⟨⟩; decide, by decide, by decide, by decide⟩
    · exact ⟨by rintro q ⟨⟩, by decide, by decide, by decide⟩
  obtain ⟨-, -, htags, hall⟩ := inOrder_render_sort hlines
  refine ⟨hlines, htags, fun h => ?_⟩
  have hoperator := hall.mp h _ (List.mem_cons_of_mem _ List.mem_cons_self)
  exact absurd hoperator (by decide +kernel)

/-- The operator `!` comes before the pseudo-tags, and a language of two lines makes a line that
starts with no name. -/
theorem not_inOrder_render_sort :
    let bang : TagLine :=
      { tag := { qualifier := none, name := "!", isLocal := false, position := ⟨1, 5⟩ }
        file := "A.scala", language := "scala" }
    let twoLines : TagLine :=
      { tag := { qualifier := none, name := "b", isLocal := false, position := ⟨1, 5⟩ }
        file := "A.scala", language := "scala\nA" }
    (∀ l ∈ [bang, twoLines], l.tag.qualifier = none ∧ Ctags.IsField l.tag.name ∧
      Ctags.IsField l.file) ∧
    (∃ lines, Ctags.textLines? (render ⟨.ctags, true⟩ (TagLine.sort [bang])).toList = some lines ∧
      ¬ Ctags.InOrder lines) ∧
    ∃ lines, Ctags.textLines? (render ⟨.ctags, true⟩ (TagLine.sort [twoLines])).toList =
        some lines ∧ ¬ Ctags.InOrder (lines.drop 4) := by
  intro bang twoLines
  have hbang : bang.OneLine := ⟨by rintro q ⟨⟩, by decide, by decide, by decide⟩
  have hone : TagLine.sort [bang] = [bang] := List.mergeSort_singleton bang
  have htwo : TagLine.sort [twoLines] = [twoLines] := List.mergeSort_singleton twoLines
  rw [hone, htwo]
  refine ⟨by decide, ⟨_, textLines?_render true (List.forall_mem_singleton.mpr hbang), ?_⟩, ?_⟩
  · intro h
    have hle := (Ctags.inOrder_header_append_iff (List.pairwise_singleton _ _)).mp h _
      List.mem_cons_self
    exact absurd hle (by decide +kernel)
  · rw [toList_render_ctags]
    exact ⟨Ctags.headerLines ++ ["b\tA.scala\t1G5|;\"\tlanguage:scala".toList, ['A']],
      by decide +kernel, by decide +kernel⟩

end TagFile

end TagIndex
