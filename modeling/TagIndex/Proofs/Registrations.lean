import TagIndex.Proofs.Naming

/-!
# Histories of registrations

A registry is what its registrations made of it, and the last of them decide. A name leads to the
grammar that was registered under it last. An extension leads to a name first, that of the last
registration that declared it, and from there to the grammar that the name stands for now. So an
extension that was declared once is never lost, and it may lead to a grammar that does not declare
it: the one that took the name over.

- `Grammar.last?`: the last registration with a property, where it stands in a history, and when
  there is none.
- `Registry.byName?_registerAll`, `Registry.owner?_registerAll`: what some registrations change.
- `Registry.registerAll_lookups`: every look-up after every history.
- `Grammar.FoundFor`, `Indexer.indexed_foundFor`: the grammar that a file is indexed with.
-/

namespace TagIndex

namespace Grammar

/-- The last of some registrations that has a property. -/
def last? (p : Grammar → Prop) [DecidablePred p] (history : List Grammar) : Option Grammar :=
  (history.filter p).getLast?

section Last

variable {p : Grammar → Prop} [DecidablePred p]

theorem last?_cons (g : Grammar) (history : List Grammar) :
    last? p (g :: history) = (last? p history).or (if p g then some g else none) := by
  unfold last?
  by_cases hg : p g
  · rw [List.filter_cons_of_pos (by simpa using hg), if_pos hg, List.getLast?_cons]
    cases (history.filter fun g => decide (p g)).getLast? <;> rfl
  · rw [List.filter_cons_of_neg (by simpa using hg), if_neg hg, Option.or_none]

theorem last?_append (history later : List Grammar) :
    last? p (history ++ later) = (last? p later).or (last? p history) := by
  rw [last?, List.filter_append, List.getLast?_append]
  rfl

theorem last?_eq_none_iff {history : List Grammar} :
    last? p history = none ↔ ∀ g ∈ history, ¬ p g := by
  simp [last?]

theorem last?_eq_some_iff {history : List Grammar} {g : Grammar} :
    last? p history = some g ↔
      ∃ before after, history = before ++ g :: after ∧ p g ∧ ∀ x ∈ after, ¬ p x := by
  induction history with
  | nil => simp [last?]
  | cons h history ih =>
    rw [last?_cons, Option.or_eq_some_iff, ih, last?_eq_none_iff]
    constructor
    · rintro (⟨before, after, rfl, hg, hafter⟩ | ⟨hnone, hh⟩)
      · exact ⟨h :: before, after, rfl, hg, hafter⟩
      · obtain ⟨hp, heq⟩ := Option.ite_none_right_eq_some.mp hh
        cases heq
        exact ⟨[], history, rfl, hp, hnone⟩
    · rintro ⟨before, after, heq, hg, hafter⟩
      cases before with
      | nil =>
        obtain ⟨rfl, rfl⟩ := List.cons.inj heq
        exact .inr ⟨hafter, if_pos hg⟩
      | cons b before =>
        obtain ⟨rfl, rfl⟩ := List.cons.inj heq
        exact .inl ⟨before, after, rfl, hg, hafter⟩

theorem mem_of_last? {history : List Grammar} {g : Grammar} (h : last? p history = some g) :
    g ∈ history :=
  (List.mem_filter.mp (List.mem_of_getLast? h)).1

theorem isSome_last?_iff {history : List Grammar} :
    (last? p history).isSome = true ↔ ∃ g ∈ history, p g := by
  simp [last?]

end Last

end Grammar

namespace Registry

open Grammar (last? last?_cons mem_of_last? isSome_last?_iff)

def owner? (r : Registry) (extension : String) : Option String :=
  r.owners.lookup extension

def registerAll (r : Registry) (gs : List Grammar) : Registry :=
  gs.foldl register r

/-! ### One registration -/

theorem byName?_register (r : Registry) (g : Grammar) (name : String) :
    (r.register g).byName? name = (if g.name = name then some g else none).or (r.byName? name) := by
  by_cases h : g.name = name
  · subst h
    rw [if_pos rfl, byName?, register, List.lookup_cons, beq_self_eq_true]
    rfl
  · rw [if_neg h, byName?, register, List.lookup_cons, beq_false_of_ne (Ne.symm h)]
    rfl

theorem lookup_extensions (extension name : String) (extensions : List String) :
    (extensions.map (·, name)).lookup extension =
      if extension ∈ extensions then some name else none := by
  induction extensions with
  | nil => rfl
  | cons e extensions ih =>
    rw [List.map_cons, List.lookup_cons]
    by_cases h : extension = e
    · rw [beq_iff_eq.mpr h, if_pos (h ▸ List.mem_cons_self)]
    · rw [beq_false_of_ne h, ih]
      simp only [List.mem_cons, h, false_or]

theorem owner?_register (r : Registry) (g : Grammar) (extension : String) :
    (r.register g).owner? extension =
      (if extension ∈ g.extensions then some g.name else none).or (r.owner? extension) := by
  rw [owner?, register, List.lookup_append, lookup_extensions]
  rfl

/-! ### Many registrations -/

theorem byName?_registerAll (r : Registry) (gs : List Grammar) (name : String) :
    (r.registerAll gs).byName? name = (last? (·.name = name) gs).or (r.byName? name) := by
  induction gs generalizing r with
  | nil => rfl
  | cons g gs ih =>
    rw [last?_cons, Option.or_assoc, ← byName?_register]
    exact ih (r.register g)

theorem owner?_registerAll (r : Registry) (gs : List Grammar) (extension : String) :
    (r.registerAll gs).owner? extension =
      ((last? (extension ∈ ·.extensions) gs).map Grammar.name).or (r.owner? extension) := by
  induction gs generalizing r with
  | nil => rfl
  | cons g gs ih =>
    have hg : (if extension ∈ g.extensions then some g else none).map Grammar.name =
        if extension ∈ g.extensions then some g.name else none := by
      split <;> rfl
    rw [last?_cons, Option.map_or, Option.or_assoc, hg, ← owner?_register]
    exact ih (r.register g)

theorem registerAll_append (r : Registry) (gs more : List Grammar) :
    (r.registerAll gs).registerAll more = r.registerAll (gs ++ more) :=
  List.foldl_append.symm

section History

variable (history : List Grammar)

theorem byName?_history (name : String) :
    (empty.registerAll history).byName? name = last? (·.name = name) history := by
  rw [byName?_registerAll]
  exact Option.or_none

theorem owner?_history (extension : String) :
    (empty.registerAll history).owner? extension =
      (last? (extension ∈ ·.extensions) history).map Grammar.name := by
  rw [owner?_registerAll]
  exact Option.or_none

/-- The name of the last registration that declared the extension leads to the grammar. -/
theorem byExtension?_history (extension : String) :
    (empty.registerAll history).byExtension? extension =
      (last? (extension ∈ ·.extensions) history).bind fun d =>
        last? (·.name = d.name) history := by
  have howner := owner?_history history extension
  unfold owner? at howner
  rw [byExtension?, howner, Option.bind_map]
  congr 1
  funext d
  exact byName?_history history d.name

/-- The name that an extension belongs to was registered, so it leads to a grammar. -/
theorem exists_byExtension?_history {history : List Grammar} {extension : String} {d : Grammar}
    (h : last? (extension ∈ ·.extensions) history = some d) :
    ∃ g, (empty.registerAll history).byExtension? extension = some g ∧
      last? (·.name = d.name) history = some g := by
  have hname : ∃ g ∈ history, g.name = d.name := ⟨d, mem_of_last? h, rfl⟩
  obtain ⟨g, hg⟩ := Option.isSome_iff_exists.mp (isSome_last?_iff.mpr hname)
  refine ⟨g, ?_, hg⟩
  rw [byExtension?_history, h, Option.bind_some, hg]

theorem isSome_byExtension?_history {extension : String} :
    ((empty.registerAll history).byExtension? extension).isSome = true ↔
      ∃ g ∈ history, extension ∈ g.extensions := by
  rw [← isSome_last?_iff (p := (extension ∈ ·.extensions))]
  cases hlast : last? (extension ∈ ·.extensions) history with
  | none => rw [byExtension?_history, hlast, Option.bind_none]
  | some d =>
    obtain ⟨g, hg, -⟩ := exists_byExtension?_history hlast
    rw [hg, Option.isSome_some, Option.isSome_some]

theorem byExtension?_history_eq_none_iff {extension : String} :
    (empty.registerAll history).byExtension? extension = none ↔
      ∀ g ∈ history, extension ∉ g.extensions := by
  rw [← Option.not_isSome_iff_eq_none, isSome_byExtension?_history]
  simp

theorem supports_history {path : String} :
    (empty.registerAll history).supports path = true ↔
      ∃ e, Path.extension? path = some e ∧ ∃ g ∈ history, e ∈ g.extensions := by
  rw [supports, forFile?]
  cases Path.extension? path with
  | none => simp
  | some e => simp [isSome_byExtension?_history]

/-- An extension that was declared stays known. -/
theorem isSome_byExtension?_append {extension : String}
    (h : ((empty.registerAll history).byExtension? extension).isSome = true) (more : List Grammar) :
    ((empty.registerAll (history ++ more)).byExtension? extension).isSome = true := by
  obtain ⟨g, hg, he⟩ := (isSome_byExtension?_history history).mp h
  exact (isSome_byExtension?_history _).mpr ⟨g, List.mem_append_left more hg, he⟩

theorem supports_append {path : String} (h : (empty.registerAll history).supports path = true)
    (more : List Grammar) : (empty.registerAll (history ++ more)).supports path = true := by
  obtain ⟨e, hpath, g, hg, he⟩ := (supports_history history).mp h
  exact (supports_history _).mpr ⟨e, hpath, g, List.mem_append_left more hg, he⟩

end History

/-- Every look-up after the registration of Scala and those that follow it, and what stays so
whatever is registered after them. -/
theorem registerAll_lookups (parse : String → Except String Tree) (later : List Grammar) :
    let history := Grammar.scala parse :: later
    let r := (Registry.scala parse).registerAll later
    (∀ name, r.byName? name = last? (·.name = name) history) ∧
    (∀ e, r.byExtension? e = none ↔ ∀ g ∈ history, e ∉ g.extensions) ∧
    (∀ e d, last? (e ∈ ·.extensions) history = some d →
      ∃ g, r.byExtension? e = some g ∧ last? (·.name = d.name) history = some g) ∧
    (∀ path g, r.forFile? path = some g ↔
      ∃ e, Path.extension? path = some e ∧ r.byExtension? e = some g) ∧
    (∀ path, r.supports path = true ↔
      ∃ e, Path.extension? path = some e ∧ ∃ g ∈ history, e ∈ g.extensions) ∧
    ∀ more,
      (∀ e, (r.byExtension? e).isSome = true →
        ((r.registerAll more).byExtension? e).isSome = true) ∧
      ∀ path, r.supports path = true → (r.registerAll more).supports path = true := by
  intro history r
  refine ⟨byName?_history history, fun e => byExtension?_history_eq_none_iff history,
    fun e d => exists_byExtension?_history, fun path g => Option.bind_eq_some_iff,
    fun path => supports_history history, fun more => ?_⟩
  have hmore : r.registerAll more = empty.registerAll (history ++ more) := registerAll_append ..
  rw [hmore]
  exact ⟨fun e h => isSome_byExtension?_append history h more,
    fun path h => supports_append history h more⟩

end Registry

/-! ### The grammar that a file is indexed with -/

/-- What is known of a grammar that an extension leads to: it was registered last under the name of
the registration that declared the extension last. It is that registration's own grammar, and
declares the extension itself, unless the name was registered again since. -/
def Grammar.FoundFor (history : List Grammar) (extension : String) (g : Grammar) : Prop :=
  ∃ before d after, history = before ++ d :: after ∧ extension ∈ d.extensions ∧
    (∀ x ∈ after, extension ∉ x.extensions) ∧ g.name = d.name ∧
    last? (·.name = d.name) history = some g ∧ ((∀ x ∈ after, x.name ≠ d.name) → g = d) ∧
    (extension ∈ g.extensions ↔ ∀ x ∈ after, x.name ≠ d.name)

/-- The tag lines are those of the source, as the grammar reads it and under its name. -/
def Grammar.Indexes (g : Grammar) (file source : String) (lines : List TagLine) : Prop :=
  ∃ root, g.parse source = .ok root ∧
    lines = (Tag.ofTree source.toList root).map fun tag => { tag, file, language := g.name }

namespace Registry

open Grammar (last? last?_append last?_cons last?_eq_none_iff last?_eq_some_iff mem_of_last?)

theorem foundFor_of_byExtension? {history : List Grammar} {extension : String} {g : Grammar}
    (h : (empty.registerAll history).byExtension? extension = some g) :
    g.FoundFor history extension := by
  rw [byExtension?_history] at h
  obtain ⟨d, hd, hg⟩ := Option.bind_eq_some_iff.mp h
  obtain ⟨before, after, rfl, hdeclares, hafter⟩ := last?_eq_some_iff.mp hd
  obtain ⟨-, -, -, hname, -⟩ := last?_eq_some_iff.mp hg
  refine ⟨before, d, after, rfl, hdeclares, hafter, hname, hg, ?_⟩
  -- the name leads past `d` exactly if something after `d` has it, and nothing there declares
  have hpast : (last? (·.name = d.name) after).or (some d) = some g := by
    rw [← hg, last?_append, last?_cons, if_pos rfl, Option.or_assoc, Option.some_or]
  cases hlast : last? (·.name = d.name) after with
  | none =>
    rw [hlast, Option.none_or] at hpast
    cases hpast
    exact ⟨fun _ => rfl, iff_of_true hdeclares (last?_eq_none_iff.mp hlast)⟩
  | some x =>
    rw [hlast, Option.some_or] at hpast
    cases hpast
    have hagain : ¬ ∀ x ∈ after, x.name ≠ d.name := fun hnone =>
      hnone g (mem_of_last? hlast) hname
    exact ⟨fun hnone => absurd hnone hagain,
      iff_of_false (hafter g (mem_of_last? hlast)) hagain⟩

end Registry

namespace Indexer

/-- A file that is indexed is indexed as a source under its own name. -/
theorem exists_of_file_eq_ok {ix : Indexer} {read : String → Except IoFault String} {path : String}
    {lines : List TagLine} (h : ix.file read path = .ok lines) :
    ∃ source, read path = .ok source ∧ ix.source path source = .ok lines := by
  unfold Indexer.file at h
  split at h
  · next grammar hgrammar =>
    split at h
    · next source hread =>
      refine ⟨source, hread, ?_⟩
      rw [source_eq hgrammar, h]
    · cases h
  · cases h

theorem exists_of_source_history (history : List Grammar) {tolerant : Bool} {file source : String}
    {lines : List TagLine}
    (h : Indexer.source ⟨.registerAll .empty history, tolerant⟩ file source = .ok lines) :
    ∃ e g, Path.extension? file = some e ∧
      (Registry.empty.registerAll history).byExtension? e = some g ∧
      g.FoundFor history e ∧ g.Indexes file source lines := by
  obtain ⟨g, root, hg, hindexes⟩ := exists_of_source_eq_ok h
  obtain ⟨e, hextension, hg⟩ := Option.bind_eq_some_iff.mp hg
  exact ⟨e, g, hextension, hg, Registry.foundFor_of_byExtension? hg, root, hindexes⟩

/-- An extension leads to the current grammar of the name that claimed it last, and whatever is
indexed is indexed with the grammar of its extension. The grammar claims the extension itself
exactly if its name was not registered again after that. -/
theorem indexed_foundFor (parse : String → Except String Tree) (later : List Grammar)
    (tolerant : Bool) :
    let history := Grammar.scala parse :: later
    let ix : Indexer := { registry := (Registry.scala parse).registerAll later, tolerant }
    (∀ e g, ix.registry.byExtension? e = some g → g.FoundFor history e) ∧
    (∀ file source lines, ix.source file source = .ok lines →
      ∃ e g, Path.extension? file = some e ∧ ix.registry.byExtension? e = some g ∧
        g.FoundFor history e ∧ g.Indexes file source lines) ∧
    ∀ read path lines, ix.file read path = .ok lines →
      ∃ source e g, read path = .ok source ∧ Path.extension? path = some e ∧
        ix.registry.byExtension? e = some g ∧
        g.FoundFor history e ∧ g.Indexes path source lines := by
  intro history ix
  refine ⟨fun e g h => Registry.foundFor_of_byExtension? h,
    fun file source lines h => exists_of_source_history history h, fun read path lines h => ?_⟩
  obtain ⟨source, hread, h⟩ := exists_of_file_eq_ok h
  obtain ⟨e, g, hg⟩ := exists_of_source_history history h
  exact ⟨source, e, g, hread, hg⟩

/-- After `scala` is registered again for build files only, the extension `scala` still leads to it,
and such a source is indexed with it. -/
theorem indexed_undeclared :
    let root : Tree :=
      .mk (.plain "compilation_unit" none 0 9)
        [.mk (.plain "object_definition" none 0 8)
          [.token "object" 0 6, .leaf "identifier" "name" 7 8]]
    let builds : Grammar := { name := "scala", extensions := ["sbt"], parse := fun _ => .ok root }
    let registry := (Registry.scala fun _ => .ok root).registerAll [builds]
    let strict : Indexer := { registry, tolerant := false }
    registry.byExtension? "scala" = some builds ∧ "scala" ∉ builds.extensions ∧
      registry.forFile? "A.scala" = some builds ∧
      strict.source "A.scala" "object O\n" =
        .ok [{ tag := { qualifier := none, name := "O", isLocal := false, position := ⟨1, 8⟩ }
               file := "A.scala", language := "scala" }] := by
  intro root builds registry strict
  exact ⟨rfl, by decide, rfl, rfl⟩

end Indexer

end TagIndex
