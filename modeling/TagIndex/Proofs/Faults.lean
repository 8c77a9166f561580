import TagIndex.Index

/-!
# Which syntax errors are found

The parser flags every node that has an error somewhere below. The search for an error follows the
flags down, but it can only stop at a node that is an error or a missing token itself. A token that
the parser put in without a node of its own leaves flags that lead nowhere, and the search finds
nothing there.

- `Tree.Shows`: the errors that the flags lead to.
- `Tree.firstFault?_isSome_iff`: the search finds one if there is one.
- `Indexer.source_strict`: a strict indexer refuses exactly the sources that show an error.
-/

namespace TagIndex

/-- A node that is a syntax error: text that does not fit in, or a token that is missing. -/
def Node.isFault (n : Node) : Bool :=
  n.isError || n.isMissing

namespace Tree

/-- The tree has the error `m`, and all nodes above it are flagged. -/
inductive Shows : Tree → Node → Prop where
  | here {n : Node} {cs : List Tree} (hfault : n.isFault = true) : Shows (mk n cs) n
  | deeper {n m : Node} {cs : List Tree} {t : Tree} (hflag : n.hasError = true) (ht : t ∈ cs)
      (h : Shows t m) : Shows (mk n cs) m

mutual

theorem shows_of_firstFault? {m : Node} : ∀ {t : Tree}, t.firstFault? = some m → t.Shows m
  | mk n cs, h => by
    rw [firstFault?] at h
    split at h
    · next hfault =>
      cases h
      exact .here hfault
    · split at h
      · next hflag =>
        obtain ⟨t, ht, hshows⟩ := exists_shows_of_firstFaultAmong? h
        exact .deeper hflag ht hshows
      · cases h

theorem exists_shows_of_firstFaultAmong? {m : Node} :
    ∀ {ts : List Tree}, firstFaultAmong? ts = some m → ∃ t ∈ ts, t.Shows m
  | t :: ts, h => by
    rw [firstFaultAmong?, Option.or_eq_some_iff] at h
    rcases h with h | ⟨-, h⟩
    · exact ⟨t, List.mem_cons_self, shows_of_firstFault? h⟩
    · obtain ⟨u, hu, hshows⟩ := exists_shows_of_firstFaultAmong? h
      exact ⟨u, List.mem_cons_of_mem t hu, hshows⟩

end

theorem firstFaultAmong?_isSome {ts : List Tree} {t : Tree} (ht : t ∈ ts)
    (h : t.firstFault?.isSome = true) : (firstFaultAmong? ts).isSome = true := by
  induction ts with
  | nil => cases ht
  | cons u ts ih =>
    rw [firstFaultAmong?, Option.isSome_or, Bool.or_eq_true]
    rcases List.mem_cons.mp ht with rfl | ht
    · exact .inl h
    · exact .inr (ih ht)

theorem Shows.isSome {t : Tree} {m : Node} (h : t.Shows m) : t.firstFault?.isSome = true := by
  induction h with
  | here hfault =>
    unfold Node.isFault at hfault
    rw [firstFault?, if_pos hfault]
    rfl
  | deeper hflag ht _ ih =>
    rw [firstFault?, if_pos hflag]
    split
    · rfl
    · exact firstFaultAmong?_isSome ht ih

theorem firstFault?_isSome_iff {t : Tree} : t.firstFault?.isSome = true ↔ ∃ m, t.Shows m := by
  constructor
  · intro h
    obtain ⟨m, hm⟩ := Option.isSome_iff_exists.mp h
    exact ⟨m, shows_of_firstFault? hm⟩
  · rintro ⟨m, h⟩
    exact h.isSome

theorem diagnostic?_isSome_iff (src : List Char) (t : Tree) :
    (t.diagnostic? src).isSome = true ↔ ∃ m, t.Shows m := by
  rw [diagnostic?, Option.isSome_map, firstFault?_isSome_iff]

end Tree

namespace Indexer

/-- A strict indexer refuses a source exactly if its tree shows an error. Otherwise it gives the
tag lines of the tree, whether the root is flagged or not. -/
theorem source_strict {registry : Registry} {file source : String} {grammar : Grammar} {root : Tree}
    (hfile : registry.forFile? file = some grammar) (hparse : grammar.parse source = .ok root) :
    let strict : Indexer := { registry, tolerant := false }
    ((root.diagnostic? source.toList).isSome = true ↔ ∃ n, root.Shows n) ∧
    ((∃ d, strict.source file source = .error (.parse file d)) ↔ ∃ n, root.Shows n) ∧
    (strict.source file source = .ok ((Tag.ofTree source.toList root).map fun tag =>
      { tag, file, language := grammar.name }) ↔ ¬ ∃ n, root.Shows n) := by
  intro strict
  have hsource : strict.source file source =
      ((root.diagnostic? source.toList).map (Failure.parse file)).elim _ .error :=
    (source_eq hfile source).trans (parsed_eq hparse file)
  have hshows := Tree.diagnostic?_isSome_iff source.toList root
  refine ⟨hshows, ?_⟩
  rw [← hshows, hsource]
  cases root.diagnostic? source.toList with
  | none => simp
  | some d => simp

/-- A parenthesis that is opened and not closed. -/
theorem source_strict_unclosed :
    let root : Tree :=
      .mk { Node.plain "compilation_unit" none 0 6 with hasError := true }
        [.mk (.plain "function_declaration" none 0 5)
            [.token "def" 0 3, .leaf "identifier" "name" 4 5],
          .mk { Node.plain "ERROR" none 5 6 with isError := true, hasError := true }
            [.token "(" 5 6]]
    let registry : Registry := .scala fun _ => .ok root
    let strict : Indexer := { registry, tolerant := false }
    root.node.hasError = true ∧ registry.forFile? "A.scala" = some (.scala fun _ => .ok root) ∧
      ∃ d, strict.source "A.scala" "def f(" = .error (.parse "A.scala" d) := by
  intro root registry strict
  have hfile : registry.forFile? "A.scala" = some (.scala fun _ => .ok root) := rfl
  have hshows : ∃ n, root.Shows n :=
    ⟨_, .deeper rfl (List.mem_cons_of_mem _ List.mem_cons_self) (.here rfl)⟩
  exact ⟨rfl, hfile, (source_strict hfile rfl).2.1.mpr hshows⟩

/-- A value whose right-hand side is missing. The parser put an identifier there, and only its flag
tells so: no error is found, and the source is indexed. -/
theorem source_strict_unfinished :
    let root : Tree :=
      .mk { Node.plain "compilation_unit" none 0 8 with hasError := true }
        [.mk { Node.plain "val_definition" none 0 7 with hasError := true }
          [.token "val" 0 3, .leaf "identifier" "pattern" 4 5, .token "=" 6 7,
            .mk { Node.plain "identifier" (some "value") 7 7 with hasError := true } []]]
    let strict : Indexer := { registry := .scala fun _ => .ok root, tolerant := false }
    root.node.hasError = true ∧ root.diagnostic? "val x = ".toList = none ∧
      strict.source "A.scala" "val x = " =
        .ok [{ tag := { qualifier := none, name := "x", isLocal := false, position := ⟨1, 5⟩ }
               file := "A.scala", language := "scala" }] := by
  intro root strict
  exact ⟨rfl, rfl, rfl⟩

end Indexer

end TagIndex
