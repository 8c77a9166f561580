import TagIndex.Index
import TagIndex.Proofs.ByteOrder
import TagIndex.Proofs.StableSort

/-!
# What is in a batch

Whatever comes of each file, a batch accounts for all of them.

- `PlacedLine`: a tag line with the place of its file in the batch and its own place in the file.
  `PlacedLine.Before` orders them by name bytes first and then by place, so no two are equal.
- `Batch.IsOf`: the batch has the failures in the order of the files and the lines in the order of
  `PlacedLine.Before`, with nothing lost or added.
- `Batch.Gains`: the batch has one more failure than another one and is the same otherwise.
- `files_isOf`: `Indexer.files` gives such a batch, and a file that fails adds its failure only.
-/

namespace TagIndex

open scoped List

/-! ### Lines with their places -/

structure PlacedLine where
  line : TagLine
  /-- The place of its file among the files of the batch. -/
  file : Nat
  /-- Its place among the lines of the file. -/
  index : Nat

namespace PlacedLine

def nameBytes (l : PlacedLine) : List UInt8 :=
  Text.utf8 l.line.fullName.toList

/-- Whether `a` comes from an earlier file than `b`, or from an earlier place in the same file. -/
def Earlier (a b : PlacedLine) : Prop :=
  a.file < b.file ∨ a.file = b.file ∧ a.index < b.index

/-- The order of a batch: by the bytes of the names, then by place. -/
def Before (a b : PlacedLine) : Prop :=
  a.nameBytes < b.nameBytes ∨ a.nameBytes = b.nameBytes ∧ a.Earlier b

/-- The lines of a file with their places. A file that failed has none. -/
def ofFile (file : Nat) : Except Failure (List TagLine) → List PlacedLine
  | .ok lines => lines.zipIdx.map fun (line, index) => { line, file, index }
  | .error _ => []

/-- The lines of all files, file by file, where the first file has the place `start`. -/
def ofFiles (start : Nat) : List (Except Failure (List TagLine)) → List PlacedLine
  | [] => []
  | outcome :: outcomes => ofFile start outcome ++ ofFiles (start + 1) outcomes

theorem map_line_ofFiles (start : Nat) (outcomes : List (Except Failure (List TagLine))) :
    (ofFiles start outcomes).map line = (outcomes.filterMap Except.toOption).flatten := by
  induction outcomes generalizing start with
  | nil => rfl
  | cons outcome outcomes ih =>
    rw [ofFiles, List.map_append, ih]
    cases outcome with
    | error f => rfl
    | ok lines =>
      have hlines : (ofFile start (.ok lines)).map line = lines := by
        rw [ofFile, List.map_map]
        exact List.zipIdx_map_fst 0 lines
      rw [hlines]
      rfl

theorem file_of_mem_ofFile {file : Nat} {outcome : Except Failure (List TagLine)} {l : PlacedLine}
    (h : l ∈ ofFile file outcome) : l.file = file := by
  cases outcome with
  | error f => cases h
  | ok lines =>
    obtain ⟨-, -, rfl⟩ := List.mem_map.mp h
    rfl

theorem le_file_of_mem_ofFiles {start : Nat} {outcomes : List (Except Failure (List TagLine))}
    {l : PlacedLine} (h : l ∈ ofFiles start outcomes) : start ≤ l.file := by
  induction outcomes generalizing start with
  | nil => cases h
  | cons outcome outcomes ih =>
    rcases List.mem_append.mp h with h | h
    · exact Nat.le_of_eq (file_of_mem_ofFile h).symm
    · exact Nat.le_of_succ_le (ih h)

/-- File by file, the lines stand in the order of their places. -/
theorem pairwise_ofFiles (start : Nat) (outcomes : List (Except Failure (List TagLine))) :
    (ofFiles start outcomes).Pairwise Earlier := by
  induction outcomes generalizing start with
  | nil => exact .nil
  | cons outcome outcomes ih =>
    refine List.pairwise_append.mpr ⟨?_, ih (start + 1), fun a ha b hb => .inl ?_⟩
    · cases outcome with
      | error f => exact .nil
      | ok lines =>
        have hindex : (lines.zipIdx.map Prod.snd).Pairwise (· < ·) := by
          rw [List.zipIdx_map_snd]
          exact List.pairwise_lt_range'
        rw [ofFile, List.pairwise_map]
        exact (List.pairwise_map.mp hindex).imp fun h => .inr ⟨rfl, h⟩
    · rw [file_of_mem_ofFile ha]
      exact le_file_of_mem_ofFiles hb

def nameLe (a b : PlacedLine) : Bool :=
  a.line.fullName ≤ b.line.fullName

theorem nameLe_trans (a b c : PlacedLine) : nameLe a b = true → nameLe b c = true →
    nameLe a c = true :=
  TagLine.le_trans a.line b.line c.line

theorem nameLe_total (a b : PlacedLine) : (nameLe a b || nameLe b a) = true :=
  TagLine.le_total a.line b.line

theorem map_line_mergeSort (lines : List PlacedLine) :
    (lines.mergeSort nameLe).map line = TagLine.sort (lines.map line) :=
  List.map_mergeSort (r := nameLe) fun _ _ _ _ => rfl

theorem before_of_nameLe {a b : PlacedLine} (hle : nameLe a b = true)
    (hplace : nameLe b a = true → a.Earlier b) : a.Before b := by
  by_cases hge : b.line.fullName ≤ a.line.fullName
  · have hname : a.line.fullName = b.line.fullName :=
      String.le_antisymm (of_decide_eq_true hle) hge
    exact .inr ⟨by rw [nameBytes, nameBytes, hname], hplace (decide_eq_true hge)⟩
  · exact .inl (Text.utf8_lt_iff.mpr (String.not_le.mp hge))

theorem pairwise_mergeSort {lines : List PlacedLine} (h : lines.Pairwise Earlier) :
    (lines.mergeSort nameLe).Pairwise Before :=
  (pairwise_mergeSort_of_pairwise nameLe_trans nameLe_total h).imp
    fun h => before_of_nameLe h.1 h.2

end PlacedLine

/-! ### Batches -/

namespace Batch

/-- The batch accounts for all of the outcomes. -/
structure IsOf (outcomes : List (Except Failure (List TagLine))) (b : Batch) : Prop where
  /-- The failures are those of the files that failed, in the order of the files. -/
  failures : b.failures.map .error = outcomes.filter (!·.isOk)
  /-- Every file was indexed or failed. -/
  tried : b.filesIndexed + b.failures.length = outcomes.length
  /-- No line of a file that was indexed is lost, and none is there twice. -/
  perm : b.lines ~ (outcomes.filterMap Except.toOption).flatten
  sorted : ∃ placed, placed ~ PlacedLine.ofFiles 0 outcomes ∧ placed.Pairwise PlacedLine.Before ∧
    placed.map PlacedLine.line = b.lines

/-- `b'` has the failure `f` and otherwise all that `b` has. -/
structure Gains (b : Batch) (f : Failure) (b' : Batch) : Prop where
  lines : b'.lines = b.lines
  filesIndexed : b'.filesIndexed = b.filesIndexed
  failures : ∃ before after, b.failures = before ++ after ∧ b'.failures = before ++ f :: after

end Batch

namespace Indexer

section Collect

variable (lines : List TagLine) (f : Failure) (outcomes : List (Except Failure (List TagLine)))

@[simp] theorem failures_collect_ok :
    (collect (.ok lines :: outcomes)).failures = (collect outcomes).failures := rfl

@[simp] theorem failures_collect_error :
    (collect (.error f :: outcomes)).failures = f :: (collect outcomes).failures := rfl

@[simp] theorem filesIndexed_collect_ok :
    (collect (.ok lines :: outcomes)).filesIndexed = (collect outcomes).filesIndexed + 1 := rfl

@[simp] theorem filesIndexed_collect_error :
    (collect (.error f :: outcomes)).filesIndexed = (collect outcomes).filesIndexed := rfl

end Collect

theorem failures_collect (outcomes : List (Except Failure (List TagLine))) :
    (collect outcomes).failures.map .error = outcomes.filter (!·.isOk) := by
  induction outcomes with
  | nil => rfl
  | cons outcome outcomes ih =>
    cases outcome with
    | error f =>
      rw [failures_collect_error, List.map_cons, ih, List.filter_cons_of_pos rfl]
    | ok lines =>
      rw [failures_collect_ok, ih, List.filter_cons_of_neg Bool.false_ne_true]

theorem length_collect (outcomes : List (Except Failure (List TagLine))) :
    (collect outcomes).filesIndexed + (collect outcomes).failures.length = outcomes.length := by
  induction outcomes with
  | nil => rfl
  | cons outcome outcomes ih =>
    cases outcome with
    | error f =>
      simp only [filesIndexed_collect_error, failures_collect_error, List.length_cons]
      omega
    | ok lines =>
      simp only [filesIndexed_collect_ok, failures_collect_ok, List.length_cons]
      omega

theorem collect_isOf (outcomes : List (Except Failure (List TagLine))) :
    (collect outcomes).IsOf outcomes where
  failures := failures_collect outcomes
  tried := length_collect outcomes
  perm := List.mergeSort_perm ..
  sorted := by
    refine ⟨(PlacedLine.ofFiles 0 outcomes).mergeSort PlacedLine.nameLe,
      List.mergeSort_perm .., ?_, ?_⟩
    · exact PlacedLine.pairwise_mergeSort (PlacedLine.pairwise_ofFiles 0 outcomes)
    · rw [PlacedLine.map_line_mergeSort, PlacedLine.map_line_ofFiles]
      rfl

theorem collect_gains (before after : List (Except Failure (List TagLine))) (f : Failure) :
    (collect (before ++ after)).Gains f (collect (before ++ .error f :: after)) := by
  have hindexed : (before ++ .error f :: after).filterMap Except.toOption =
      (before ++ after).filterMap Except.toOption := by
    rw [List.filterMap_append, List.filterMap_cons_none rfl, ← List.filterMap_append]
  refine ⟨?_, ?_, (collect before).failures, (collect after).failures, ?_, ?_⟩
  · simp only [collect, hindexed]
  · simp only [collect, hindexed]
  · simp only [collect, List.filterMap_append]
  · simp only [collect, List.filterMap_append, List.filterMap_cons]

/-- Indexing files gives a batch of what comes of each of them. This is so whatever comes of each,
and wherever a file that fails is added, it changes nothing but the failures. -/
theorem files_isOf (ix : Indexer) (read : String → Except IoFault String) :
    (∀ paths, (ix.files read paths).IsOf (paths.map (ix.file read))) ∧
    (∀ before after path f, ix.file read path = .error f →
      (ix.files read (before ++ after)).Gains f (ix.files read (before ++ path :: after))) ∧
    (∀ outcomes, (collect outcomes).IsOf outcomes) ∧
    ∀ before after f,
      (collect (before ++ after)).Gains f (collect (before ++ .error f :: after)) := by
  refine ⟨fun paths => collect_isOf _, fun before after path f hf => ?_, collect_isOf,
    collect_gains⟩
  rw [files, files, List.map_append, List.map_append, List.map_cons, hf]
  exact collect_gains ..

/-- A missing file between two others that declare the same name. -/
theorem files_isOf_missing :
    let object : Tree :=
      .mk (.plain "compilation_unit" none 0 9)
        [.mk (.plain "object_definition" none 0 8)
          [.token "object" 0 6, .leaf "identifier" "name" 7 8]]
    let ix : Indexer := { registry := .scala fun _ => .ok object, tolerant := false }
    let read := fun path => if path = "b.scala" then .error .missing else .ok "object A\n"
    let line (file : String) : TagLine :=
      { tag := { qualifier := none, name := "A", isLocal := false, position := ⟨1, 8⟩ }
        file, language := "scala" }
    ix.file read "b.scala" = .error (.read "b.scala" .missing) ∧
      (ix.files read ["a.scala", "c.scala"]).lines = [line "a.scala", line "c.scala"] ∧
      (ix.files read ["a.scala", "c.scala"]).Gains (.read "b.scala" .missing)
        (ix.files read ["a.scala", "b.scala", "c.scala"]) := by
  intro object ix read line
  have hmissing : ix.file read "b.scala" = .error (.read "b.scala" .missing) := by rfl
  have hlines : ((["a.scala", "c.scala"].map (ix.file read)).filterMap Except.toOption).flatten =
      [line "a.scala", line "c.scala"] := by decide +kernel
  refine ⟨hmissing, ?_, (files_isOf ix read).2.1 ["a.scala"] ["c.scala"] "b.scala" _ hmissing⟩
  rw [files, collect, hlines]
  exact List.mergeSort_of_pairwise (by decide +kernel)

end Indexer

end TagIndex
