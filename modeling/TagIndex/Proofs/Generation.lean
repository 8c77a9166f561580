import TagIndex.Proofs.Writing
import TagIndex.Run

/-!
# What a run reports and writes

A run with a parser that always gives a tree. Files and roots that fail are told and left out, and
nothing else ends the run but a malformed exclude glob, before the walk, and an output that cannot
be created, after it. This is so whatever the run sees of the file system: files that may not be
read, directories that may not be entered, entries that are listed in any order.

- `Glob.fault?`: what is wrong with a glob.
- `View.Discovers`, `Walker.mem_walk`: the files that a root stands for.
- `View.failure?`, `View.tagLines`: what a single file adds to the failures or the lines.
- `Delivered`: the three ways in which a finished text goes out.
- `Generated`: the outcome of a run whose exclude globs can be read.
- `generateBy_outcome`: every run is one of these two.
-/

namespace TagIndex

/-! ### Exclude globs -/

def Glob.fault? (text : String) : Option Glob.Fault :=
  match Glob.compile text with
  | .error fault => some fault
  | .ok _ => none

theorem Glob.mapM_compile_eq_error {texts : List String} {fault : Glob.Fault}
    (h : texts.findSome? Glob.fault? = some fault) :
    texts.mapM Glob.compile = .error fault := by
  induction texts with
  | nil => cases h
  | cons text texts ih =>
    rw [List.mapM_cons]
    rw [List.findSome?_cons, Glob.fault?] at h
    cases hg : Glob.compile text with
    | error fault' => rw [hg] at h; cases h; rfl
    | ok g => rw [hg] at h; rw [ih h]; rfl

theorem Glob.exists_mapM_compile {texts : List String}
    (h : texts.findSome? Glob.fault? = none) : ∃ globs, texts.mapM Glob.compile = .ok globs := by
  induction texts with
  | nil => exact ⟨[], rfl⟩
  | cons text texts ih =>
    rw [List.mapM_cons]
    rw [List.findSome?_cons, Glob.fault?] at h
    cases hg : Glob.compile text with
    | error fault => rw [hg] at h; cases h
    | ok g =>
      rw [hg] at h
      obtain ⟨globs, hglobs⟩ := ih h
      exact ⟨g :: globs, by rw [hglobs]; rfl⟩

/-! ### Walked files -/

/-- The files that a root stands for: itself, or those listed below it. -/
inductive View.Discovers (v : View) (respectIgnore : Bool) (root : String) : String → Prop where
  | itself : v.isFile root = true → Discovers v respectIgnore root root
  | listed {path : String} : v.isFile root = false → .ok path ∈ v.entries respectIgnore root →
      v.isFile path = true → Discovers v respectIgnore root path

namespace Walker

variable {w : Walker} {v : View} {root path : String} {roots : List String} {f : Failure}

/-- The file that a root is, or the files below it, as far as they are wanted. -/
theorem files_walk (w : Walker) (v : View) (root : String) : (w.walk v root).files =
    if v.isFile root then [root].filter w.wants
    else ((v.entries w.respectIgnore root).filterMap Except.toOption).filter fun path =>
      v.isFile path && w.wants path := by
  unfold walk
  split
  · split <;> simp_all
  · rfl

theorem failures_walk (w : Walker) (v : View) (root : String) : (w.walk v root).failures =
    if v.isFile root then []
    else ((v.entries w.respectIgnore root).filterMap WalkFault.ofEntry?).map .walk := by
  unfold walk
  split
  · split <;> rfl
  · rfl

theorem mem_filterMap_toOption {found : List (Except WalkFault String)} :
    path ∈ found.filterMap Except.toOption ↔ .ok path ∈ found := by
  rw [List.mem_filterMap]
  constructor
  · rintro ⟨x, hx, hpath⟩
    cases x with
    | error fault => cases hpath
    | ok p => cases hpath; exact hx
  · exact fun h => ⟨_, h, rfl⟩

theorem mem_walk : path ∈ (w.walk v root).files ↔
    v.Discovers w.respectIgnore root path ∧ w.wants path = true := by
  rw [files_walk]
  constructor
  · intro h
    split at h
    next hfile =>
      obtain ⟨hpath, hwants⟩ := List.mem_filter.mp h
      obtain rfl := List.mem_singleton.mp hpath
      exact ⟨.itself hfile, hwants⟩
    next hfile =>
      obtain ⟨hpath, hwanted⟩ := List.mem_filter.mp h
      rw [Bool.and_eq_true] at hwanted
      exact ⟨.listed (by simpa using hfile) (mem_filterMap_toOption.mp hpath) hwanted.1, hwanted.2⟩
  · rintro ⟨hdiscovers, hwants⟩
    cases hdiscovers with
    | itself hfile => simp [hfile, hwants]
    | listed hroot hpath hfile =>
      simpa [hroot, hfile, hwants] using mem_filterMap_toOption.mpr hpath

theorem mem_gather : path ∈ (w.gather v roots).files ↔
    ∃ root ∈ roots, v.Discovers w.respectIgnore root path ∧ w.wants path = true := by
  simp only [gather, List.mem_flatMap, mem_walk]

theorem mem_gather_of_mem_walkAll (h : path ∈ (w.walkAll v roots).files) :
    path ∈ (w.gather v roots).files :=
  List.mem_mergeSort.mp ((dropRepeats_sublist _).subset h)

theorem supports_of_mem_walkAll (h : path ∈ (w.walkAll v roots).files) :
    w.registry.supports path = true := by
  obtain ⟨root, -, -, hwants⟩ := mem_gather.mp (mem_gather_of_mem_walkAll h)
  rw [wants, Bool.and_eq_true] at hwants
  exact hwants.1

theorem failure_of_mem_walkAll (h : f ∈ (w.walkAll v roots).failures) :
    ∃ fault, f = .walk fault := by
  obtain ⟨root, -, hroot⟩ := List.mem_flatMap.mp h
  rw [failures_walk] at hroot
  split at hroot
  · cases hroot
  · obtain ⟨fault, -, rfl⟩ := List.mem_map.mp hroot
    exact ⟨fault, rfl⟩

end Walker

/-! ### Indexed files -/

/-- The registry around a parser that always gives a tree. -/
def Registry.total (parse : String → Tree) : Registry :=
  .scala fun source => .ok (parse source)

theorem Registry.forFile?_total {parse : String → Tree} {path : String}
    (h : (Registry.total parse).supports path = true) :
    (Registry.total parse).forFile? path = some (.scala fun source => .ok (parse source)) := by
  obtain ⟨g, hg⟩ := Option.isSome_iff_exists.mp h
  obtain ⟨ext, -, hext⟩ := Option.bind_eq_some_iff.mp hg
  obtain ⟨name, -, hname⟩ := Option.bind_eq_some_iff.mp hext
  rw [hg]
  unfold byName? Registry.total Registry.scala register at hname
  rw [List.lookup_cons] at hname
  split at hname
  · exact hname.symm
  · cases hname

namespace View

/-- Why a file is left out: it cannot be read, or it has syntax errors that are not tolerated. -/
def failure? (v : View) (parse : String → Tree) (tolerant : Bool) (path : String) :
    Option Failure :=
  match v.read path with
  | .error fault => some (.read path fault)
  | .ok source =>
    if tolerant then none else ((parse source).diagnostic? source.toList).map (.parse path)

def tagLines (v : View) (parse : String → Tree) (path : String) : List TagLine :=
  match v.read path with
  | .error _ => []
  | .ok source => (Tag.ofTree source.toList (parse source)).map fun tag =>
      { tag, file := path, language := "scala" }

theorem isPerFile_of_failure? {v : View} {parse : String → Tree} {tolerant : Bool}
    {path : String} {f : Failure} (h : v.failure? parse tolerant path = some f) :
    f.isPerFile = true ∧ ∀ p, f ≠ .unsupported p := by
  unfold failure? at h
  split at h
  · cases h
    exact ⟨rfl, by simp⟩
  · split at h
    · cases h
    · obtain ⟨d, -, rfl⟩ := Option.map_eq_some_iff.mp h
      exact ⟨rfl, by simp⟩

end View

namespace Indexer

variable {v : View} {parse : String → Tree} {tolerant : Bool}

theorem parsed_total (path source : String) :
    Indexer.parsed ⟨.total parse, tolerant⟩ (.scala fun source => .ok (parse source)) path source =
      (if tolerant then none else ((parse source).diagnostic? source.toList).map
        (Failure.parse path)).elim
          (.ok ((Tag.ofTree source.toList (parse source)).map fun tag =>
            { tag, file := path, language := "scala" })) .error :=
  parsed_eq rfl path

/-- A file of a known language fails for the reasons of `failure?` only. -/
theorem file_total {path : String} (h : (Registry.total parse).supports path = true) :
    Indexer.file ⟨.total parse, tolerant⟩ v.read path =
      (v.failure? parse tolerant path).elim (.ok (v.tagLines parse path)) .error := by
  simp only [file, Registry.forFile?_total h, View.failure?, View.tagLines]
  cases v.read path with
  | error fault => rfl
  | ok source => exact parsed_total path source

section Files

variable {paths : List String}
  (h : ∀ path ∈ paths, (Registry.total parse).supports path = true)
include h

theorem outcomes_total :
    paths.map (Indexer.file ⟨.total parse, tolerant⟩ v.read) = paths.map fun path =>
      (v.failure? parse tolerant path).elim (.ok (v.tagLines parse path)) .error :=
  List.map_congr_left fun path hpath => file_total (h path hpath)

theorem failures_files_total :
    (Indexer.files ⟨.total parse, tolerant⟩ v.read paths).failures =
      paths.filterMap (v.failure? parse tolerant) := by
  simp only [files, outcomes_total h, collect, List.filterMap_map]
  congr 1
  funext path
  cases hf : v.failure? parse tolerant path <;> simp [hf]

theorem lines_files_total :
    (Indexer.files ⟨.total parse, tolerant⟩ v.read paths).lines =
      TagLine.sort ((paths.filter fun path => (v.failure? parse tolerant path).isNone).flatMap
        (v.tagLines parse)) := by
  simp only [files, outcomes_total h, collect, List.filterMap_map]
  congr 1
  clear h
  induction paths with
  | nil => rfl
  | cons path paths ih =>
    cases hf : v.failure? parse tolerant path with
    | some f =>
      rw [List.filterMap_cons_none (by simp [hf, Except.toOption]), ih,
        List.filter_cons_of_neg (by simp [hf])]
    | none =>
      rw [List.filterMap_cons_some (b := v.tagLines parse path) (by simp [hf, Except.toOption]),
        List.flatten_cons, ih, List.filter_cons_of_pos (by simp [hf]), List.flatMap_cons]

end Files

end Indexer

/-! ### Output -/

/-- How a finished text goes out, with the number of failures: to the standard output, if the output
is a dash, into a file, or not at all because the file cannot be created. -/
inductive Delivered (v : View) (t : FileTree) (o : Options) (text : String) (failed : Nat) :
    Outcome (Except Failure Nat) → Prop where
  | stdout (messages : List Message) : Path.same o.output "-" = true →
      Delivered v t o text failed { result := .ok failed, stdout := text, messages, files := t }
  | file (messages : List Message) (l : Location) (t' : FileTree) :
      Path.same o.output "-" = false → v.forbids o.output = none →
      t'.resolve o.output = .ok l → t.Written l text.toUTF8 t' →
      Delivered v t o text failed { result := .ok failed, stdout := "", messages, files := t' }
  | refused (messages : List Message) (fault : IoFault) : Path.same o.output "-" = false →
      v.forbids o.output = some fault ∨ (∀ bytes, t.write o.output bytes = .error fault) →
      Delivered v t o text failed
        { result := .error (.io fault), stdout := "", messages, files := t }

theorem delivered_writeOutput (v : View) (t : FileTree) (o : Options) (messages : List Message)
    (lines : List TagLine) (failed : Nat) :
    Delivered v t o (TagFile.render { format := o.format, header := !o.noHeader } lines) failed
      (writeOutput v t o messages lines failed) := by
  unfold writeOutput Options.writesToStdout View.write
  split
  next hout => exact .stdout _ hout
  next hout =>
    have hout : Path.same o.output "-" = false := by simpa using hout
    cases hforbids : v.forbids o.output with
    | some fault => exact .refused _ fault hout (.inl hforbids)
    | none =>
      dsimp only
      split
      next t' hwrite =>
        obtain ⟨l, hl, hwritten⟩ := FileTree.written_of_write hwrite
        exact .file _ l t' hout hforbids hl hwritten
      next fault hwrite => exact .refused _ fault hout (.inr (FileTree.write_error hwrite))

theorem Delivered.stdout_eq {v : View} {t : FileTree} {o : Options} {text : String} {failed : Nat}
    {out : Outcome (Except Failure Nat)} (h : Delivered v t o text failed out)
    (hout : Path.same o.output "-" = true) : out.stdout = text := by
  cases h with
  | stdout => rfl
  | file _ _ _ hfile => rw [hout] at hfile; cases hfile
  | refused _ _ hfile => rw [hout] at hfile; cases hfile

/-- A text that is written is told of in a notice, after all other messages. -/
theorem messages_writeOutput (v : View) (t : FileTree) (o : Options) (messages : List Message)
    (lines : List TagLine) (failed : Nat) :
    ∃ after : List Notice,
      (writeOutput v t o messages lines failed).messages = messages ++ after.map .notice := by
  unfold writeOutput
  dsimp only
  split
  · exact ⟨[_], rfl⟩
  · split
    · exact ⟨[_], rfl⟩
    · exact ⟨[], (List.append_nil _).symm⟩

/-- Reports that stand together stay so, however the notices around them are shown. -/
theorem Outcome.stderrWith_eq {α : Type} {out : Outcome α} {before after : List Notice}
    {failures : List Failure} (h : out.messages = before.map .notice ++
      (failures.map fun f => .report f.report) ++ after.map .notice) (display : Notice → String) :
    out.stderrWith display = String.join (before.map display) ++
      String.join (failures.map Failure.report) ++ String.join (after.map display) := by
  rw [stderrWith, h, List.map_append, List.map_append, String.join_append, String.join_append,
    List.map_map, List.map_map, List.map_map]
  rfl

theorem join_map_empty {α : Type} (l : List α) : String.join (l.map fun _ => "") = "" := by
  induction l with
  | nil => rfl
  | cons a l ih => rw [List.map_cons, String.join_cons, ih, String.empty_append]

/-! ### Runs -/

namespace Walked

/-- What a run tells: the failures of the walk, then those of the files. -/
def told (w : Walked) (v : View) (parse : String → Tree) (o : Options) : List Failure :=
  w.failures ++ w.files.filterMap (v.failure? parse o.tolerant)

/-- The text of the tags file: the sorted lines of all files that do not fail. -/
def tagsFile (w : Walked) (v : View) (parse : String → Tree) (o : Options) : String :=
  let indexed := w.files.filter fun path => (v.failure? parse o.tolerant path).isNone
  TagFile.render { format := o.format, header := !o.noHeader }
    (TagLine.sort (indexed.flatMap (v.tagLines parse)))

def records (w : Walked) (v : View) (parse : String → Tree) (o : Options) : String :=
  String.join ((w.told v parse o).map fun f => "error: " ++ f.message ++ "\n")

end Walked

/-- What comes out of a run that walked the roots. -/
structure Generated (v : View) (t : FileTree) (parse : String → Tree) (o : Options)
    (walked : Walked) (out : Outcome (Except Failure Nat)) : Prop where
  supported : ∀ path ∈ walked.files, (Registry.total parse).supports path = true
  /-- What is told is what the walker and the indexer have recorded. -/
  recorded : walked.failures ++
      (Indexer.files ⟨.total parse, o.tolerant⟩ v.read walked.files).failures =
    walked.told v parse o
  /-- No failure ends the run. -/
  perFile : ∀ f ∈ walked.told v parse o, f.isPerFile = true ∧ ∀ path, f ≠ .unsupported path
  /-- The run itself writes the records to the standard error and nothing else. -/
  stderr : out.stderr = walked.records v parse o
  /-- Where notices are shown there too, they stand before and after the records. -/
  shown : ∃ before after : List Notice, ∀ display, out.stderrWith display =
    String.join (before.map display) ++ walked.records v parse o ++ String.join (after.map display)
  delivered : Delivered v t o (walked.tagsFile v parse o)
    (walked.failures.length +
      walked.files.countP fun path => (v.failure? parse o.tolerant path).isSome) out

theorem Walker.registry_of_make {registry : Registry} {excludes : List String}
    {respectIgnore : Bool} {w : Walker} (h : make registry excludes respectIgnore = .ok w) :
    w.registry = registry := by
  unfold make at h
  cases hg : excludes.mapM Glob.compile with
  | error fault => rw [hg] at h; cases h
  | ok globs => rw [hg] at h; cases h; rfl

/-- If all failures concern single files, a run ends with its output. -/
theorem finish_eq_writeOutput {v : View} {t : FileTree} {o : Options} {notices : List Notice}
    {failures : List Failure} {lines : List TagLine} (h : ∀ f ∈ failures, f.isPerFile = true) :
    finish v t o notices failures lines =
      writeOutput v t o (notices.map .notice ++ failures.map fun f => .report f.report) lines
        failures.length := by
  have hnone : failures.find? (!·.isPerFile) = none := by
    rw [List.find?_eq_none]
    intro f hf
    simp [h f hf]
  rw [finish, hnone]

section Runs

variable {v : View} {t : FileTree} {parse : String → Tree} {o : Options} {walker : Walker}

theorem isPerFile_of_mem_told {f : Failure}
    (h : f ∈ (walker.walkAll v o.paths).told v parse o) :
    f.isPerFile = true ∧ ∀ path, f ≠ .unsupported path := by
  rcases List.mem_append.mp h with hwalk | hfile
  · obtain ⟨fault, rfl⟩ := Walker.failure_of_mem_walkAll hwalk
    exact ⟨rfl, by simp⟩
  · obtain ⟨path, -, hpath⟩ := List.mem_filterMap.mp hfile
    exact View.isPerFile_of_failure? hpath

theorem exists_generateBy_eq_finish (v : View) (t : FileTree) {registry : Registry}
    (h : Walker.make registry o.excludes (!o.noIgnore) = .ok walker) :
    ∃ notices, generateBy v t registry o =
      let walked := walker.walkAll v o.paths
      let batch := Indexer.files ⟨registry, o.tolerant⟩ v.read walked.files
      finish v t o notices (walked.failures ++ batch.failures) batch.lines := by
  rw [generateBy, h]
  exact ⟨_, rfl⟩

theorem generated (v : View) (t : FileTree)
    (h : Walker.make (.total parse) o.excludes (!o.noIgnore) = .ok walker) :
    Generated v t parse o (walker.walkAll v o.paths) (generateBy v t (.total parse) o) := by
  have hsupported : ∀ path ∈ (walker.walkAll v o.paths).files,
      (Registry.total parse).supports path = true := by
    intro path hpath
    rw [← Walker.registry_of_make h]
    exact Walker.supports_of_mem_walkAll hpath
  let told := (walker.walkAll v o.paths).told v parse o
  obtain ⟨notices, hfinish⟩ := exists_generateBy_eq_finish v t h
  simp only [Indexer.failures_files_total hsupported, Indexer.lines_files_total hsupported]
    at hfinish
  replace hfinish := hfinish.trans
    (finish_eq_writeOutput fun f (hf : f ∈ told) => (isPerFile_of_mem_told hf).1)
  have hshown : ∃ before after : List Notice, ∀ display,
      (generateBy v t (.total parse) o).stderrWith display = String.join (before.map display) ++
        (walker.walkAll v o.paths).records v parse o ++ String.join (after.map display) := by
    rw [hfinish]
    obtain ⟨after, hmessages⟩ := messages_writeOutput v t o _ _ _
    exact ⟨notices, after, Outcome.stderrWith_eq hmessages⟩
  refine ⟨hsupported, ?_, fun f hf => isPerFile_of_mem_told hf, ?_, hshown, ?_⟩
  · rw [Indexer.failures_files_total hsupported]
    rfl
  · obtain ⟨before, after, hall⟩ := hshown
    rw [Outcome.stderr, hall, join_map_empty, join_map_empty, String.empty_append,
      String.append_empty]
  · rw [hfinish, ← List.length_filterMap_eq_countP, ← List.length_append]
    exact delivered_writeOutput ..

end Runs

/-- Every run stops at the first malformed exclude glob with nothing done, or walks the roots. Its
records are all that it writes to the standard error; a logger and a progress bar that show notices
there too come on top, before and after the records. -/
theorem generateBy_outcome (v : View) (t : FileTree) (parse : String → Tree) (o : Options) :
    match o.excludes.findSome? Glob.fault? with
    | some fault => generateBy v t (.total parse) o =
        { result := .error (.exclude fault), stdout := "", messages := [], files := t }
    | none => ∃ walker, Walker.make (.total parse) o.excludes (!o.noIgnore) = .ok walker ∧
        Generated v t parse o (walker.walkAll v o.paths) (generateBy v t (.total parse) o) := by
  split
  next fault hfault =>
    rw [generateBy, Walker.make, Glob.mapM_compile_eq_error hfault]
    rfl
  next hnone =>
    obtain ⟨globs, hglobs⟩ := Glob.exists_mapM_compile hnone
    have hmake : Walker.make (.total parse) o.excludes (!o.noIgnore) =
        .ok ⟨.total parse, globs, !o.noIgnore⟩ := by
      rw [Walker.make, hglobs]
      rfl
    exact ⟨_, hmake, generated v t hmake⟩

end TagIndex
