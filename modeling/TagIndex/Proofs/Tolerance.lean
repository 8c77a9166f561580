import TagIndex.Proofs.Batches

/-!
# Tolerant indexing

A tolerant indexer differs from a strict one on sources with syntax errors only, and there it has
tag lines where the strict one has a failure.

- `Relaxed`: what tolerance makes of the outcome of one file.
- `parsed_relaxed`, `file_relaxed`: the outcomes of one source and of one file are so related.
- `tolerant_adds`: the lines of a strict batch stand in the same order in the tolerant one.
-/

namespace TagIndex

open scoped List

def Failure.isParse : Failure → Bool
  | .parse _ _ => true
  | _ => false

/-- What a strict and a tolerant indexer make of the same file. -/
inductive Relaxed : Except Failure (List TagLine) → Except Failure (List TagLine) → Prop where
  | indexed (lines : List TagLine) : Relaxed (.ok lines) (.ok lines)
  | recovered (path : String) (d : Diagnostic) (lines : List TagLine) :
      Relaxed (.error (.parse path d)) (.ok lines)
  | failed (f : Failure) : f.isParse = false → Relaxed (.error f) (.error f)

namespace Relaxed

theorem eq_ok {strict tolerant : Except Failure (List TagLine)} (h : Relaxed strict tolerant)
    {lines : List TagLine} (hok : strict = .ok lines) : tolerant = .ok lines := by
  cases h with
  | indexed => exact hok
  | recovered => cases hok
  | failed => cases hok

theorem ne_parse {strict tolerant : Except Failure (List TagLine)} (h : Relaxed strict tolerant)
    (path : String) (d : Diagnostic) : tolerant ≠ .error (.parse path d) := by
  cases h with
  | indexed => simp
  | recovered => simp
  | failed f hf =>
    rintro ⟨⟩
    cases hf

section Lists

variable {strict tolerant : String → Except Failure (List TagLine)}
  (h : ∀ path, Relaxed (strict path) (tolerant path)) (paths : List String)
include h

theorem indexed_sublist : ((paths.map strict).filterMap Except.toOption).flatten <+
    ((paths.map tolerant).filterMap Except.toOption).flatten := by
  induction paths with
  | nil => exact .refl _
  | cons path paths ih =>
    have hpath := h path
    rw [List.map_cons, List.map_cons]
    generalize strict path = a, tolerant path = b at hpath
    cases hpath with
    | indexed lines => exact ih.append_left lines
    | recovered _ _ lines => exact ih.trans (List.sublist_append_right lines _)
    | failed => exact ih

theorem failures_eq_filter : (Indexer.collect (paths.map tolerant)).failures =
    (Indexer.collect (paths.map strict)).failures.filter (!·.isParse) := by
  induction paths with
  | nil => rfl
  | cons path paths ih =>
    have hpath := h path
    rw [List.map_cons, List.map_cons]
    generalize strict path = a, tolerant path = b at hpath
    cases hpath with
    | indexed lines => exact ih
    | recovered _ _ lines => exact ih
    | failed f hf =>
      rw [Indexer.failures_collect_error, Indexer.failures_collect_error, ih,
        List.filter_cons_of_pos (by simp [hf])]

end Lists

end Relaxed

namespace Indexer

variable (registry : Registry)

theorem parsed_relaxed (grammar : Grammar) (file source : String) :
    Relaxed (Indexer.parsed ⟨registry, false⟩ grammar file source)
      (Indexer.parsed ⟨registry, true⟩ grammar file source) := by
  rw [parsed, parsed]
  cases grammar.parse source with
  | error message => exact .failed (.grammar message) rfl
  | ok root =>
    have hroot : (Except.ok root : Except String Tree).mapError Failure.grammar = .ok root := rfl
    simp only [hroot, bind, Except.bind]
    cases root.diagnostic? source.toList with
    | none => exact .indexed _
    | some d => exact .recovered file d _

theorem source_relaxed (file source : String) :
    Relaxed (Indexer.source ⟨registry, false⟩ file source)
      (Indexer.source ⟨registry, true⟩ file source) := by
  simp only [Indexer.source]
  cases registry.forFile? file with
  | none => exact .failed (.unsupported file) rfl
  | some grammar => exact parsed_relaxed registry grammar file source

theorem file_relaxed (read : String → Except IoFault String) (path : String) :
    Relaxed (Indexer.file ⟨registry, false⟩ read path)
      (Indexer.file ⟨registry, true⟩ read path) := by
  simp only [file]
  cases registry.forFile? path with
  | none => exact .failed (.unsupported path) rfl
  | some grammar =>
    cases read path with
    | error fault => exact .failed (.read path fault) rfl
    | ok source => exact parsed_relaxed registry grammar path source

/-- A tolerant batch has all lines of the strict one in the same order, and its failures except
those for syntax errors. -/
theorem tolerant_adds (read : String → Except IoFault String) (paths : List String) :
    let strict : Indexer := { registry, tolerant := false }
    let tolerant : Indexer := { registry, tolerant := true }
    (strict.files read paths).lines <+ (tolerant.files read paths).lines ∧
    (tolerant.files read paths).failures =
      (strict.files read paths).failures.filter (!·.isParse) ∧
    (∀ path lines, strict.file read path = .ok lines → tolerant.file read path = .ok lines) ∧
    (∀ path p d, tolerant.file read path ≠ .error (.parse p d)) ∧
    ∀ file source p d, tolerant.source file source ≠ .error (.parse p d) := by
  intro strict tolerant
  have hfile := file_relaxed registry read
  refine ⟨TagLine.sort_sublist (Relaxed.indexed_sublist hfile paths),
    Relaxed.failures_eq_filter hfile paths, fun path lines => (hfile path).eq_ok,
    fun path => (hfile path).ne_parse, fun file source => ?_⟩
  exact (source_relaxed registry file source).ne_parse

end Indexer

end TagIndex
