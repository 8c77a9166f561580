import TagIndex.Proofs.Generation
import TagIndex.Proofs.PathOrder

/-!
# Runs that write the same

What a run writes does not depend on the order in which its roots are given, on how often each is
given, or on the order in which directories are listed.

- `View.Agrees`: two views of one file system, which may list its entries in different orders.
- `Walker.SpelledOnce`: no two spellings of one place are found. Without it, the spelling that is
  found first is the one that is kept.
- `Outcome.SameOutput`: two runs end alike and write the same bytes. They may tell different numbers
  of failures, since a root that is given twice and cannot be entered fails twice.
- `generateBy_sameOutput`: two runs on one file system have the same output.
-/

namespace TagIndex

/-- Whether two views answer alike, but for the order of entries and the faults among them. -/
structure View.Agrees (v v' : View) : Prop where
  isFile : v'.isFile = v.isFile
  entries : ∀ respectIgnore root path,
    .ok path ∈ v'.entries respectIgnore root ↔ .ok path ∈ v.entries respectIgnore root
  read : v'.read = v.read
  forbids : v'.forbids = v.forbids

/-- Whether every place that the walker finds below the roots is found under one spelling. -/
def Walker.SpelledOnce (w : Walker) (v : View) (roots : List String) : Prop :=
  ∀ root ∈ roots, ∀ root' ∈ roots, ∀ p q,
    v.Discovers w.respectIgnore root p → v.Discovers w.respectIgnore root' q →
    w.wants p = true → w.wants q = true → Path.same p q = true → p = q

/-- Whether two runs end with the same failure or both with success, and write the same. -/
structure Outcome.SameOutput (a b : Outcome (Except Failure Nat)) : Prop where
  stdout : a.stdout = b.stdout
  files : a.files = b.files
  result : a.result.map (fun _ => ()) = b.result.map (fun _ => ())

/-! ### Walks -/

namespace View.Agrees

variable {v v' : View} (h : v.Agrees v')
include h

theorem symm : v'.Agrees v :=
  ⟨h.isFile.symm, fun _ _ _ => (h.entries ..).symm, h.read.symm, h.forbids.symm⟩

theorem discovers {respectIgnore : Bool} {root path : String}
    (hfound : v.Discovers respectIgnore root path) : v'.Discovers respectIgnore root path := by
  cases hfound with
  | itself hroot => exact .itself (h.isFile ▸ hroot)
  | listed hroot hlisted hfile =>
    exact .listed (h.isFile ▸ hroot) ((h.entries ..).mpr hlisted) (h.isFile ▸ hfile)

theorem discovers_iff (respectIgnore : Bool) (root path : String) :
    v'.Discovers respectIgnore root path ↔ v.Discovers respectIgnore root path :=
  ⟨h.symm.discovers, h.discovers⟩

/-- Two walks of the same roots return the same files. -/
theorem files_walkAll {w : Walker} {roots roots' : List String}
    (hroots : ∀ root, root ∈ roots' ↔ root ∈ roots) (hspelled : w.SpelledOnce v roots) :
    (w.walkAll v roots).files = (w.walkAll v' roots').files := by
  refine Walker.dropRepeats_mergeSort_congr (fun p => ?_) fun p hp q hq hsame => ?_
  · simp only [Walker.mem_gather, hroots, h.discovers_iff]
  · obtain ⟨root, hroot, hfound, hwants⟩ := Walker.mem_gather.mp hp
    obtain ⟨root', hroot', hfound', hwants'⟩ := Walker.mem_gather.mp hq
    exact hspelled root hroot root' hroot' p q hfound hfound' hwants hwants' hsame

end View.Agrees

/-! ### Output -/

theorem writeOutput_sameOutput {v v' : View} (h : v'.forbids = v.forbids) (t : FileTree)
    (o : Options) (messages messages' : List Message) (lines : List TagLine)
    (failed failed' : Nat) :
    (writeOutput v t o messages lines failed).SameOutput
      (writeOutput v' t o messages' lines failed') := by
  have hwrite : v'.write t o.output = v.write t o.output := by
    funext bytes
    rw [View.write, View.write, h]
  unfold writeOutput
  rw [hwrite]
  dsimp only
  split
  · exact ⟨rfl, rfl, rfl⟩
  · split
    · exact ⟨rfl, rfl, rfl⟩
    · exact ⟨rfl, rfl, rfl⟩

/-- Failures that concern single files have no say in what is written. -/
theorem finish_sameOutput {v v' : View} {t : FileTree} {o : Options}
    {walked walked' others : List Failure} {lines : List TagLine}
    (hviews : v'.forbids = v.forbids) (notices notices' : List Notice)
    (h : ∀ f ∈ walked, f.isPerFile = true) (h' : ∀ f ∈ walked', f.isPerFile = true) :
    (finish v t o notices (walked ++ others) lines).SameOutput
      (finish v' t o notices' (walked' ++ others) lines) := by
  have hskip {fs : List Failure} (hfs : ∀ f ∈ fs, f.isPerFile = true) :
      (fs ++ others).find? (!·.isPerFile) = others.find? (!·.isPerFile) := by
    rw [List.find?_append, List.find?_eq_none.mpr fun f hf => by simp [hfs f hf], Option.none_or]
  unfold finish
  rw [hskip h, hskip h']
  cases others.find? (!·.isPerFile) with
  | some f => exact ⟨rfl, rfl, rfl⟩
  | none => exact writeOutput_sameOutput hviews ..

theorem Walker.isPerFile_of_mem_walkAll {w : Walker} {v : View} {roots : List String}
    {f : Failure} (h : f ∈ (w.walkAll v roots).failures) : f.isPerFile = true := by
  obtain ⟨fault, rfl⟩ := failure_of_mem_walkAll h
  rfl

/-- Two runs with the same options write the same, whatever the order of their roots, the repeats
among them and the order in which files are listed. -/
theorem generateBy_sameOutput {v v' : View} {t : FileTree} {registry : Registry} {o : Options}
    {walker : Walker} {roots : List String}
    (hmake : Walker.make registry o.excludes (!o.noIgnore) = .ok walker)
    (hspelled : walker.SpelledOnce v o.paths) (hroots : ∀ root, root ∈ roots ↔ root ∈ o.paths)
    (hviews : v.Agrees v') :
    (generateBy v t registry o).SameOutput
      (generateBy v' t registry { o with paths := roots }) := by
  have hfiles := hviews.files_walkAll hroots hspelled
  simp only [generateBy, hmake, ← hfiles, hviews.read]
  exact finish_sameOutput hviews.forbids _ _ (fun _ => Walker.isPerFile_of_mem_walkAll)
    fun _ => Walker.isPerFile_of_mem_walkAll

/-- A directory that is given twice and listed in both orders, with one name in both of its
files. -/
theorem generateBy_sameOutput_reversed :
    let object : Tree :=
      .mk (.plain "compilation_unit" none 0 9)
        [.mk (.plain "object_definition" none 0 8)
          [.token "object" 0 6, .leaf "identifier" "name" 7 8]]
    let listing (found : List String) : View :=
      { isFile := fun path => path == "d/a.scala" || path == "d/b.scala"
        entries := fun _ _ => found.map .ok
        read := fun _ => .ok "object A\n"
        forbids := fun _ => none }
    let v := listing ["d", "d/a.scala", "d/b.scala"]
    let v' := listing ["d/b.scala", "d/a.scala", "d"]
    let o : Options :=
      { paths := ["d"], output := "-", format := .ctags, noHeader := true, excludes := []
        noIgnore := true, tolerant := false, progress := false }
    let registry : Registry := .total fun _ => object
    (generateBy v .empty registry o).stdout =
        "A\td/a.scala\t1G8|;\"\tlanguage:scala\nA\td/b.scala\t1G8|;\"\tlanguage:scala\n" ∧
      (generateBy v .empty registry o).SameOutput
        (generateBy v' .empty registry { o with paths := ["d", "d"] }) := by
  intro object listing v v' o registry
  let walker : Walker := ⟨registry, [], false⟩
  let line (file : String) : TagLine :=
    { tag := { qualifier := none, name := "A", isLocal := false, position := ⟨1, 8⟩ }
      file, language := "scala" }
  have hmake : Walker.make registry o.excludes (!o.noIgnore) = .ok walker := rfl
  have hfound : (walker.gather v o.paths).files = ["d/a.scala", "d/b.scala"] := by decide +kernel
  have hwalked : (walker.walkAll v o.paths).files = ["d/a.scala", "d/b.scala"] := by
    have hdistinct : Path.same "d/a.scala" "d/b.scala" = false := by decide +kernel
    rw [Walker.walkAll, Walker.arrange, hfound, List.mergeSort_of_pairwise (by decide +kernel)]
    simp [Walker.dropRepeats, hdistinct]
  have hspelled : walker.SpelledOnce v o.paths := by
    intro root hroot root' hroot' p q hp hq hwants hwants' hsame
    have hp := Walker.mem_gather.mpr ⟨root, hroot, hp, hwants⟩
    have hq := Walker.mem_gather.mpr ⟨root', hroot', hq, hwants'⟩
    rw [hfound] at hp hq
    have hall : ∀ p ∈ ["d/a.scala", "d/b.scala"], ∀ q ∈ ["d/a.scala", "d/b.scala"],
        Path.same p q = true → p = q := by decide +kernel
    exact hall p hp q hq hsame
  have hviews : v.Agrees v' := by
    refine ⟨rfl, fun respectIgnore root path => ?_, rfl, rfl⟩
    simp [v, v', listing, or_left_comm, or_comm]
  have htext : (walker.walkAll v o.paths).tagsFile v (fun _ => object) o =
      "A\td/a.scala\t1G8|;\"\tlanguage:scala\nA\td/b.scala\t1G8|;\"\tlanguage:scala\n" := by
    rw [Walked.tagsFile, hwalked]
    have hlines : (["d/a.scala", "d/b.scala"].filter fun path =>
        (v.failure? (fun _ => object) o.tolerant path).isNone).flatMap
          (v.tagLines fun _ => object) = [line "d/a.scala", line "d/b.scala"] := by decide +kernel
    rw [hlines, TagLine.sort, List.mergeSort_of_pairwise (by decide +kernel)]
    decide +kernel
  refine ⟨?_, generateBy_sameOutput hmake hspelled (by simp [o]) hviews⟩
  exact ((generated v .empty hmake).delivered.stdout_eq (by decide +kernel)).trans htext

end TagIndex
