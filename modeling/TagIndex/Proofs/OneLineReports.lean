import Mathlib.Data.List.DropRight
import TagIndex.Proofs.CtagsLines
import TagIndex.Proofs.Faults
import TagIndex.Proofs.Generation

/-!
# One line for each syntax error

A diagnostic is made from source text that may have line breaks, carriage returns and blanks
anywhere, and it is reported among other failures. It stays one line all the same: only the first
line of the text is quoted, without the blanks around it and cut to a fixed length.

- `Text.IsTrimOf`: a line without the blanks around it.
- `IsSnippet`, `Explains`: what may be quoted of a line, and what is said about it.
- `Node.explains_complaint`: the message of an error node.
- `Tree.newline_notMem_message`: no message has a line break if no kind of node has one.
- `Failure.textLines?_reports`: the lines in which some failures are told.
- `diagnostics_oneLine`: the messages of all trees, and the reports of a run.
-/

namespace TagIndex

/-! ### Trimming -/

namespace Text

/-- The first text is the second without the blanks around it. -/
structure IsTrimOf (trimmed line : List Char) : Prop where
  around : ∃ left right, line = left ++ trimmed ++ right ∧ ∀ c ∈ left ++ right, isBlank c = true
  head : ∀ c, trimmed.head? = some c → isBlank c = false
  last : ∀ c, trimmed.getLast? = some c → isBlank c = false

theorem isBlank_head_dropWhile {cs : List Char} {c : Char}
    (h : (cs.dropWhile isBlank).head? = some c) : isBlank c = false := by
  have hhead := List.head?_dropWhile_not isBlank cs
  rw [h] at hhead
  exact hhead

theorem head?_of_isPrefix {cs ds : List Char} (h : cs <+: ds) {c : Char}
    (hc : cs.head? = some c) : ds.head? = some c := by
  obtain ⟨rest, rfl⟩ := h
  rw [List.head?_append, hc]
  rfl

theorem isTrimOf_trim (line : List Char) : IsTrimOf (trim line) line := by
  -- trimming on the right is `rdropWhile`, so what it takes away is `rtakeWhile`
  have hright : trim line = (trimLeft line).rdropWhile isBlank := rfl
  refine ⟨⟨line.takeWhile isBlank, (trimLeft line).rtakeWhile isBlank, ?_, ?_⟩, ?_, ?_⟩
  · rw [hright, List.append_assoc, List.rdropWhile_append_rtakeWhile, trimLeft,
      List.takeWhile_append_dropWhile]
  · intro c hc
    rcases List.mem_append.mp hc with hc | hc
    · exact List.mem_takeWhile_imp hc
    · exact List.mem_rtakeWhile_imp hc
  · intro c hc
    rw [hright] at hc
    exact isBlank_head_dropWhile (head?_of_isPrefix (List.rdropWhile_prefix ..) hc)
  · intro c hc
    rw [trim, trimRight, List.getLast?_reverse] at hc
    exact isBlank_head_dropWhile hc

namespace IsTrimOf

variable {trimmed line : List Char} (h : IsTrimOf trimmed line)
include h

theorem subset : trimmed ⊆ line := by
  obtain ⟨left, right, rfl, -⟩ := h.around
  intro c hc
  simp [hc]

theorem eq_nil_iff : trimmed = [] ↔ ∀ c ∈ line, isBlank c = true := by
  constructor
  · rintro rfl
    obtain ⟨left, right, rfl, haround⟩ := h.around
    simpa using haround
  · intro hall
    cases trimmed with
    | nil => rfl
    | cons c rest =>
      have hblank := hall c (h.subset List.mem_cons_self)
      rw [h.head c rfl] at hblank
      cases hblank

end IsTrimOf

end Text

/-! ### Messages -/

/-- What may be quoted of a line: what is left without the blanks around it, or the beginning of
that if it is long. -/
structure IsSnippet (s line : List Char) : Prop where
  ne_nil : s ≠ []
  length_le : s.length ≤ 24
  head : ∀ c, s.head? = some c → Text.isBlank c = false
  quotes : ∃ trimmed, Text.IsTrimOf trimmed line ∧ s <+: trimmed ∧ (s.length < 24 → s = trimmed)

/-- What is said about a text that does not fit in and starts with the given line. -/
structure Explains (message : String) (line : List Char) : Prop where
  quotes : message = "syntax error" ∨
    ∃ s, message = "unexpected `" ++ String.ofList s ++ "`" ∧ IsSnippet s line
  blank_iff : message = "syntax error" ↔ ∀ c ∈ line, Text.isBlank c = true

theorem snippet_eq_nil_iff (text : List Char) :
    snippet text = [] ↔ ∀ c ∈ text.takeWhile (· ≠ '\n'), Text.isBlank c = true := by
  rw [← (Text.isTrimOf_trim _).eq_nil_iff, snippet, List.take_eq_nil_iff]
  simp [snippetLength]

theorem isSnippet_snippet {text : List Char} (h : snippet text ≠ []) :
    IsSnippet (snippet text) (text.takeWhile (· ≠ '\n')) := by
  have htrim := Text.isTrimOf_trim (text.takeWhile (· ≠ '\n'))
  have hstart : snippet text <+: Text.trim (text.takeWhile (· ≠ '\n')) := List.take_prefix ..
  refine ⟨h, List.length_take_le .., fun c hc => ?_, _, htrim, hstart, fun hshort => ?_⟩
  · exact htrim.head c (Text.head?_of_isPrefix hstart hc)
  · rw [snippet, snippetLength, List.length_take] at hshort
    rw [snippet, snippetLength]
    exact List.take_of_length_le (by omega)

theorem unexpected_ne (s : String) : "unexpected `" ++ s ++ "`" ≠ "syntax error" := by
  intro h
  have hhead := congrArg (fun m : String => m.toList.head?) h
  simp at hhead

theorem Node.explains_complaint {n : Node} (h : n.isMissing = false) (src : List Char) :
    Explains (n.complaint src) ((n.text src).takeWhile (· ≠ '\n')) := by
  have hblank := snippet_eq_nil_iff (n.text src)
  rw [complaint, if_neg (by simp [h])]
  split
  · next hnil => exact ⟨.inl rfl, by simpa using hblank.mp hnil⟩
  · next hne =>
    refine ⟨.inr ⟨_, rfl, isSnippet_snippet hne⟩, ?_⟩
    rw [← hblank]
    exact iff_of_false (unexpected_ne _) hne

theorem Explains.newline_notMem {message : String} {line : List Char} (h : Explains message line)
    (hline : '\n' ∉ line) : '\n' ∉ message.toList := by
  rcases h.quotes with rfl | ⟨s, rfl, hs⟩
  · decide
  · obtain ⟨trimmed, htrim, hstart, -⟩ := hs.quotes
    have hnot : '\n' ∉ s := fun hmem => hline (htrim.subset (hstart.subset hmem))
    simp [hnot]

theorem Node.newline_notMem_complaint {n : Node} (hkind : '\n' ∉ n.kind.toList)
    (src : List Char) : '\n' ∉ (n.complaint src).toList := by
  cases h : n.isMissing with
  | true => simp [complaint, h, hkind]
  | false =>
    refine (explains_complaint h src).newline_notMem fun hmem => ?_
    simpa using List.mem_takeWhile_imp hmem

namespace Tree

def PlainKinds (t : Tree) : Prop :=
  ∀ n ∈ t.preorder, '\n' ∉ n.kind.toList

instance (t : Tree) : Decidable t.PlainKinds :=
  inferInstanceAs (Decidable (∀ n ∈ t.preorder, _))

theorem Shows.mem_preorder {t : Tree} {m : Node} (h : t.Shows m) : m ∈ t.preorder := by
  induction h with
  | here => exact List.mem_cons_self
  | deeper _ ht _ ih =>
    rw [preorder, preorderAll_eq_flatMap]
    exact List.mem_cons_of_mem _ (List.mem_flatMap.mpr ⟨_, ht, ih⟩)

theorem newline_notMem_message {t : Tree} (ht : t.PlainKinds) {src : List Char} {d : Diagnostic}
    (hd : t.diagnostic? src = some d) : '\n' ∉ d.message.toList := by
  obtain ⟨n, hn, rfl⟩ := Option.map_eq_some_iff.mp hd
  exact Node.newline_notMem_complaint (ht n (shows_of_firstFault? hn).mem_preorder) src

end Tree

/-! ### Reports -/

namespace Failure

def reportLines (f : Failure) : List (List Char) :=
  Text.fields '\n' ("error: " ++ f.message).toList

theorem textLines?_reports (failures : List Failure) :
    Ctags.textLines? (String.join (failures.map report)).toList =
      some (failures.flatMap reportLines) := by
  have htext : (String.join (failures.map report)).toList =
      (failures.map fun f => ("error: " ++ f.message).toList).flatMap (· ++ ['\n']) := by
    simp [report, List.flatMap_map]
  have hlines : Text.fields '\n' (String.join (failures.map report)).toList =
      failures.flatMap reportLines ++ [[]] := by
    rw [htext, Text.fields_flatMap_sep, List.flatMap_map]
    rfl
  rw [Ctags.textLines?, hlines]
  simp

theorem reportLines_parse {path : String} {d : Diagnostic} (hpath : '\n' ∉ path.toList)
    (hd : '\n' ∉ d.message.toList) :
    (parse path d).reportLines = [("error: " ++ (path ++ ":" ++ d.text)).toList] := by
  have hline : '\n' ∉ Nat.toDigits 10 d.position.line.toNat := Ctags.notMem_toDigits rfl _
  have hcolumn : '\n' ∉ Nat.toDigits 10 d.position.column.toNat := Ctags.notMem_toDigits rfl _
  have hnot : '\n' ∉ ("error: " ++ (path ++ ":" ++ d.text)).toList := by
    unfold Diagnostic.text
    simp [hpath, hd, hline, hcolumn]
  exact Text.fields_of_notMem hnot

end Failure

/-- A file is refused for the first syntax error of its tree. -/
theorem View.diagnostic_of_failure? {v : View} {parse : String → Tree} {tolerant : Bool}
    {file path : String} {d : Diagnostic}
    (h : v.failure? parse tolerant file = some (.parse path d)) :
    ∃ source, v.read path = .ok source ∧
      (parse source).diagnostic? source.toList = some d := by
  unfold failure? at h
  split at h
  · cases h
  · next source hsource =>
    split at h
    · cases h
    · obtain ⟨d', hd', heq⟩ := Option.map_eq_some_iff.mp h
      cases heq
      exact ⟨source, hsource, hd'⟩

theorem Walked.diagnostic_of_mem_told {w : Walker} {v : View} {parse : String → Tree}
    {o : Options} {path : String} {d : Diagnostic}
    (h : .parse path d ∈ (w.walkAll v o.paths).told v parse o) :
    ∃ source, v.read path = .ok source ∧
      (parse source).diagnostic? source.toList = some d := by
  rcases List.mem_append.mp h with hwalk | hfile
  · obtain ⟨fault, heq⟩ := Walker.failure_of_mem_walkAll hwalk
    cases heq
  · obtain ⟨file, -, hfile⟩ := List.mem_filterMap.mp hfile
    exact View.diagnostic_of_failure? hfile

/-- The first syntax error of a tree is told in a message without a line break. For text that does
not fit in, the message quotes a snippet of its first line, unless that line is blank. In a run each
failure is told in lines of its own, and a syntax error of a file whose path has no line break in
exactly one. -/
theorem diagnostics_oneLine :
    (∀ (src : List Char) (root : Tree), root.PlainKinds →
      ∀ d, root.diagnostic? src = some d →
        '\n' ∉ d.message.toList ∧
        ∃ n, root.firstFault? = some n ∧
          (n.isMissing = false →
            Explains d.message ((n.text src).takeWhile (· ≠ '\n')))) ∧
    ∀ (v : View) (t : FileTree) (parse : String → Tree) (o : Options) (walker : Walker),
      Walker.make (.total parse) o.excludes (!o.noIgnore) = .ok walker →
      let walked := walker.walkAll v o.paths
      let batch := Indexer.files ⟨.total parse, o.tolerant⟩ v.read walked.files
      let failures := walked.failures ++ batch.failures
      Ctags.textLines? (generateBy v t (.total parse) o).stderr.toList =
          some (failures.flatMap Failure.reportLines) ∧
        ∀ path d, .parse path d ∈ failures → '\n' ∉ path.toList →
          (∀ source, v.read path = .ok source → (parse source).PlainKinds) →
          Failure.reportLines (.parse path d) =
            [("error: " ++ (path ++ ":" ++ d.text)).toList] := by
  constructor
  · intro src root hkinds d hd
    refine ⟨Tree.newline_notMem_message hkinds hd, ?_⟩
    obtain ⟨n, hn, rfl⟩ := Option.map_eq_some_iff.mp hd
    exact ⟨n, hn, fun hmissing => n.explains_complaint hmissing src⟩
  · intro v t parse o walker hmake walked batch failures
    have hgenerated := generated v t hmake
    have hfailures : failures = walked.told v parse o := hgenerated.recorded
    refine ⟨?_, fun path d hmem hpath hkinds => ?_⟩
    · rw [hgenerated.stderr, hfailures]
      exact Failure.textLines?_reports _
    · rw [hfailures] at hmem
      obtain ⟨source, hsource, hd⟩ := Walked.diagnostic_of_mem_told hmem
      exact Failure.reportLines_parse hpath (Tree.newline_notMem_message (hkinds source hsource) hd)

/-- Text of two lines, the first of which ends with a blank and a carriage return. -/
theorem diagnostics_oneLine_return :
    let source := ") \r\n ]"
    let error : Node := { Node.plain "ERROR" none 0 6 with isError := true, hasError := true }
    let root : Tree :=
      .mk { Node.plain "compilation_unit" none 0 6 with hasError := true }
        [.mk error
          [.token ")" 0 1,
            .mk { Node.plain "]" none 5 6 with isNamed := false, row := 1, column := 1 } []]]
    let t : FileTree :=
      { top := .directory [("A.scala", .file source.toUTF8)], workingDirectory := [] }
    let o : Options :=
      { paths := ["A.scala"], output := "-", format := .ctags, noHeader := true, excludes := []
        noIgnore := true, tolerant := false, progress := false }
    root.PlainKinds ∧ root.firstFault? = some error ∧
      Explains "unexpected `)`" ") \r".toList ∧
      Ctags.textLines? (generate t (.total fun _ => root) o).stderr.toList =
        some ["error: A.scala:1:1: unexpected `)`".toList] := by
  intro source error root t o
  have hkinds : root.PlainKinds := by decide
  have hd : root.diagnostic? source.toList = some ⟨"unexpected `)`", ⟨1, 1⟩⟩ := by decide +kernel
  obtain ⟨hmessages, hreports⟩ := diagnostics_oneLine
  obtain ⟨-, n, hn, hexplains⟩ := hmessages source.toList root hkinds _ hd
  obtain rfl : error = n := Option.some.inj hn
  have hline : (error.text source.toList).takeWhile (· ≠ '\n') = ") \r".toList := by
    decide +kernel
  rw [hline] at hexplains
  have hresolve : t.resolve "A.scala" = .ok ["A.scala"] := by
    have he : t.entry? ([] ++ ["A.scala"]) = some (.file source.toUTF8) := rfl
    show (t.follow FileTree.maxLinks [] ["A.scala"]).map (·.location) = _
    rw [FileTree.follow_file (by decide) (by decide) (by decide) he]
    rfl
  have hread : t.view.read "A.scala" = .ok source := by
    have htext : String.fromUTF8? source.toUTF8 = some source := dif_pos source.isValidUTF8
    have hbytes : t.readBytes "A.scala" = .ok source.toUTF8 := by
      rw [FileTree.readBytes, hresolve]
      rfl
    simp only [FileTree.view, FileTree.readText, hbytes, bind, Except.bind, htext]
  have hfile : t.view.isFile "A.scala" = true := by
    show (t.readBytes "A.scala").isOk = true
    rw [FileTree.readBytes, hresolve]
    rfl
  let walker : Walker := ⟨.total fun _ => root, [], false⟩
  have hwants : walker.wants "A.scala" = true := by decide
  have hfiles : (walker.walkAll t.view o.paths).files = ["A.scala"] := by
    simp [Walker.walkAll, Walker.arrange, Walker.gather, o, Walker.files_walk, hfile, hwants,
      Walker.dropRepeats]
  have hwalk : (walker.walkAll t.view o.paths).failures = [] := by
    simp [Walker.walkAll, Walker.arrange, Walker.gather, o, Walker.failures_walk, hfile]
  have hfailures : (Indexer.files ⟨.total fun _ => root, false⟩ t.view.read ["A.scala"]).failures =
      [.parse "A.scala" ⟨"unexpected `)`", ⟨1, 1⟩⟩] := by
    rw [Indexer.failures_files_total (List.forall_mem_singleton.mpr (by decide))]
    simp [View.failure?, hread, hd]
  obtain ⟨hlines, hone⟩ := hreports t.view t (fun _ => root) o walker rfl
  rw [hfiles, hwalk, List.nil_append, hfailures] at hlines hone
  have hreport := hone "A.scala" _ List.mem_cons_self (by decide) fun _ _ => hkinds
  rw [List.flatMap_singleton, hreport] at hlines
  exact ⟨hkinds, hn, hexplains rfl, hlines⟩

end TagIndex
