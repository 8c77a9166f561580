import TagIndex.Proofs.Reproducible
import TagIndex.Proofs.StableSort

/-!
# The files of a walk

A walk returns one path for every place that it finds below its roots, and no other. Where the roots
overlap, a place is found under several spellings, and the first one in the order of the roots is
kept: the sort is stable, and of the repeats next to each other the first is left. All this is so
for any view of the file system, with whatever faults in it.

- `View.DiscoversFirst`: the first spelling of a place among those that a root stands for.
- `Walker.Wanted`: which files are indexed, by the text of the exclude globs.
- `Walker.find?_of_mem_walkAll`: a returned path is the first spelling of its place.
- `Walker.walkAll_union`: what a walk of several roots returns. A root that cannot be entered takes
  nothing away. In a file tree it is told, unless it is a dash.
-/

namespace TagIndex

open TagIndex.Path

/-- Whether a root stands for a file and lists no other spelling of it before that is wanted. -/
inductive View.DiscoversFirst (v : View) (respectIgnore : Bool) (wanted : String → Prop)
    (root : String) : String → Prop where
  | itself : v.isFile root = true → DiscoversFirst v respectIgnore wanted root root
  | listed {path : String} (earlier later : List (Except WalkFault String)) :
      v.isFile root = false → v.entries respectIgnore root = earlier ++ .ok path :: later →
      v.isFile path = true →
      (∀ q, .ok q ∈ earlier → v.isFile q = true → wanted q → same path q = false) →
      DiscoversFirst v respectIgnore wanted root path

/-! ### What the walker wants -/

theorem Glob.mem_of_mapM_compile {texts : List String} {globs : List Glob}
    (h : texts.mapM compile = .ok globs) (g : Glob) :
    g ∈ globs ↔ ∃ text ∈ texts, compile text = .ok g := by
  induction texts generalizing globs with
  | nil => cases h; simp
  | cons text texts ih =>
    rw [List.mapM_cons] at h
    cases hfirst : compile text with
    | error fault => rw [hfirst] at h; cases h
    | ok first =>
      cases hrest : texts.mapM compile with
      | error fault => rw [hfirst, hrest] at h; cases h
      | ok rest =>
        rw [hfirst, hrest] at h
        cases h
        simp [ih hrest, hfirst, eq_comm]

namespace Walker

/-- Whether the language of a file is known and no exclude glob takes its path as it is spelled. -/
def Wanted (registry : Registry) (excludes : List String) (path : String) : Prop :=
  registry.supports path = true ∧ ∀ text ∈ excludes, ∀ g, Glob.compile text = .ok g →
    Glob.accepts g.parts path.toList = false

theorem wants_iff {registry : Registry} {excludes : List String} {respectIgnore : Bool}
    {globs : List Glob} (h : excludes.mapM Glob.compile = .ok globs) (path : String) :
    Walker.wants ⟨registry, globs, respectIgnore⟩ path = true ↔ Wanted registry excludes path := by
  simp only [wants, Wanted, Bool.and_eq_true, Bool.not_eq_true', List.any_eq_false,
    Glob.matches_eq_accepts, Glob.mem_of_mapM_compile h, Bool.not_eq_true]
  refine and_congr_right fun _ => ⟨fun hall text htext g hg => hall g ⟨text, htext, hg⟩, ?_⟩
  rintro hall g ⟨text, htext, hg⟩
  exact hall text htext g hg

/-! ### What a walk keeps -/

section Walk

variable {w : Walker} {v : View} {root p q : String} {roots : List String}

theorem pairwise_walkAll : (w.walkAll v roots).files.Pairwise fun p q => segments p < segments q :=
  pairwise_dropRepeats (List.pairwise_mergeSort le_trans le_total _)

theorem exists_same_mem_walkAll (h : q ∈ (w.gather v roots).files) :
    ∃ p ∈ (w.walkAll v roots).files, same p q = true :=
  exists_same_mem_dropRepeats (List.mem_mergeSort.mpr h)

theorem find?_of_mem_walkAll (h : p ∈ (w.walkAll v roots).files) :
    (w.gather v roots).files.find? (same p) = some p := by
  have hfind := find?_of_mem_dropRepeats (List.pairwise_mergeSort le_trans le_total _) h
  rwa [← List.head?_filter, filter_mergeSort le_trans le_total _ fun _ _ => le_of_same,
    List.head?_filter] at hfind

theorem eq_of_same_of_mem_walkAll (hp : p ∈ (w.walkAll v roots).files)
    (hq : q ∈ (w.walkAll v roots).files) (h : same p q = true) : p = q := by
  have hsame : same p = same q := by
    funext r
    rw [same, same, beq_iff_eq.mp h]
  have hfind := find?_of_mem_walkAll hp
  rw [hsame, find?_of_mem_walkAll hq] at hfind
  exact (Option.some.inj hfind).symm

/-- The first spelling of a place among the files of a root. -/
theorem discoversFirst_of_find? (h : (w.walk v root).files.find? (same p) = some p) :
    v.DiscoversFirst w.respectIgnore (w.wants · = true) root p := by
  rw [files_walk] at h
  split at h
  next hfile =>
    have hmem := (List.mem_filter.mp (List.mem_of_find?_eq_some h)).1
    obtain rfl := List.mem_singleton.mp hmem
    exact .itself hfile
  next hfile =>
    rw [List.find?_filter, List.find?_filterMap, Option.bind_eq_some_iff] at h
    obtain ⟨found, hfind, hfound⟩ := h
    cases found with
    | error fault => cases hfound
    | ok path =>
      cases hfound
      obtain ⟨hp, earlier, later, hentries, hearlier⟩ := List.find?_eq_some_iff_append.mp hfind
      refine .listed earlier later (by simpa using hfile) hentries ?_ fun q hq hqfile hwants => ?_
      · simp_all [Except.toOption]
      · simpa [Except.toOption, hqfile, hwants] using hearlier (.ok q) hq

/-- A path that is returned comes from the first root that has a wanted spelling of its place. -/
theorem exists_discoversFirst (h : p ∈ (w.walkAll v roots).files) :
    ∃ before root after, roots = before ++ root :: after ∧
      v.DiscoversFirst w.respectIgnore (w.wants · = true) root p ∧
      ∀ r ∈ before, ∀ q, v.Discovers w.respectIgnore r q → w.wants q = true →
        same p q = false := by
  have hfind := find?_of_mem_walkAll h
  rw [gather, List.find?_flatMap, List.findSome?_eq_some_iff] at hfind
  obtain ⟨before, root, after, hroots, hroot, hbefore⟩ := hfind
  refine ⟨before, root, after, hroots, discoversFirst_of_find? hroot, fun r hr q hq hwants => ?_⟩
  simpa using List.find?_eq_none.mp (hbefore r hr) q (mem_walk.mpr ⟨hq, hwants⟩)

theorem mem_gather_append {before after : List String}
    (h : p ∈ (w.gather v (before ++ after)).files) :
    p ∈ (w.gather v (before ++ root :: after)).files := by
  rw [mem_gather] at h ⊢
  obtain ⟨r, hr, h⟩ := h
  exact ⟨r, by simp_all [or_left_comm], h⟩

theorem files_walkAll_skip (before after : List String) (h : (w.walk v root).files = []) :
    (w.walkAll v (before ++ root :: after)).files = (w.walkAll v (before ++ after)).files := by
  simp [walkAll, arrange, gather, h]

theorem failures_walkAll (w : Walker) (v : View) (root : String) (before after : List String) :
    (w.walkAll v (before ++ root :: after)).failures =
      (w.walkAll v before).failures ++ (w.walk v root).failures ++
        (w.walkAll v after).failures := by
  simp [walkAll, arrange, gather]

theorem files_walk_eq_nil
    (h : ∀ path, v.Discovers w.respectIgnore root path → ¬ w.wants path = true) :
    (w.walk v root).files = [] := by
  refine List.eq_nil_iff_forall_not_mem.mpr fun path hpath => ?_
  obtain ⟨hdiscovers, hwants⟩ := mem_walk.mp hpath
  exact h path hdiscovers hwants

end Walk

/-- The faults that are met in a list of entries, in their order. -/
theorem map_error_ofEntry? (found : List (Except WalkFault String)) :
    (found.filterMap WalkFault.ofEntry?).map .error = found.filter (!·.isOk) := by
  induction found with
  | nil => rfl
  | cons x found ih =>
    cases x with
    | error fault =>
      rw [List.filterMap_cons_some (f := WalkFault.ofEntry?) rfl, List.map_cons, ih,
        List.filter_cons_of_pos rfl]
    | ok path =>
      rw [List.filterMap_cons_none rfl, ih, List.filter_cons_of_neg Bool.false_ne_true]

/-! ### Roots of a file tree that lead nowhere -/

section Nowhere

variable {t : FileTree} {root : String} {fault : IoFault} (h : t.resolve root = .error fault)
include h

theorem isFile_of_resolve_error : t.view.isFile root = false := by
  show (t.readBytes root).isOk = false
  rw [FileTree.readBytes, h]
  rfl

theorem entries_of_resolve_error (respectIgnore : Bool) : t.view.entries respectIgnore root =
    if same root "-" then [.ok "<stdin>"] else [.error (.io root fault)] := by
  show t.entries respectIgnore root = _
  rw [FileTree.entries, h]

theorem files_walk_of_resolve_error (w : Walker) : (w.walk t.view root).files = [] := by
  refine files_walk_eq_nil fun path hdiscovers => ?_
  cases hdiscovers with
  | itself hfile => rw [isFile_of_resolve_error h] at hfile; cases hfile
  | listed _ hlisted =>
    rw [entries_of_resolve_error h] at hlisted
    split at hlisted
    · -- the standard input has no extension and so no language
      cases List.mem_singleton.mp hlisted
      have hextension : extension? "<stdin>" = none := by decide +kernel
      rw [wants, Registry.supports, Registry.forFile?, hextension]
      exact Bool.false_ne_true
    · cases List.mem_singleton.mp hlisted

theorem failures_walk_of_resolve_error (w : Walker) : (w.walk t.view root).failures =
    if same root "-" then [] else [.walk (.io root fault)] := by
  rw [failures_walk, isFile_of_resolve_error h, if_neg Bool.false_ne_true,
    entries_of_resolve_error h]
  split <;> rfl

end Nowhere

/-- For valid exclude globs a walk of any roots returns, in strictly increasing order, the wanted
files that the roots stand for: one path for each place, as it was found first. One more root takes
no place away. It adds a failure for each fault that is met below it, and nothing else if no wanted
file is found there. In a file tree a root that leads nowhere adds one failure, unless it is a
dash. -/
theorem walkAll_union (registry : Registry) {excludes : List String} (respectIgnore : Bool)
    (hvalid : ∀ text ∈ excludes, Glob.fault? text = none) :
    ∃ w, Walker.make registry excludes respectIgnore = .ok w ∧
      (∀ (v : View) (roots : List String),
        (w.walkAll v roots).files.Pairwise (fun p q => segments p < segments q) ∧
        (∀ root ∈ roots, ∀ q, v.Discovers respectIgnore root q → Wanted registry excludes q →
          ∃! p, p ∈ (w.walkAll v roots).files ∧ same p q = true) ∧
        (∀ p ∈ (w.walkAll v roots).files, Wanted registry excludes p ∧
          ∃ before root after, roots = before ++ root :: after ∧
            v.DiscoversFirst respectIgnore (Wanted registry excludes) root p ∧
            ∀ r ∈ before, ∀ q, v.Discovers respectIgnore r q → Wanted registry excludes q →
              same p q = false) ∧
        ∀ before root after, roots = before ++ root :: after →
          (∀ p ∈ (w.walkAll v (before ++ after)).files,
            ∃ q ∈ (w.walkAll v roots).files, same q p = true) ∧
          (v.isFile root = false → ∃ faults : List WalkFault,
            faults.map .error = (v.entries respectIgnore root).filter (!·.isOk) ∧
            (w.walkAll v roots).failures =
              (w.walkAll v before).failures ++ faults.map .walk ++
                (w.walkAll v after).failures) ∧
          ((∀ q, v.Discovers respectIgnore root q → ¬ Wanted registry excludes q) →
            (w.walkAll v roots).files = (w.walkAll v (before ++ after)).files)) ∧
      ∀ (t : FileTree) before root after fault, t.resolve root = .error fault →
        (w.walkAll t.view (before ++ root :: after)).files =
          (w.walkAll t.view (before ++ after)).files ∧
        (w.walkAll t.view (before ++ root :: after)).failures =
          (w.walkAll t.view before).failures ++
            (if same root "-" then [] else [.walk (.io root fault)]) ++
            (w.walkAll t.view after).failures := by
  obtain ⟨globs, hglobs⟩ := Glob.exists_mapM_compile (List.findSome?_eq_none_iff.mpr hvalid)
  have hmake : Walker.make registry excludes respectIgnore =
      .ok ⟨registry, globs, respectIgnore⟩ := by
    rw [Walker.make, hglobs]
    rfl
  have hwanted : Wanted registry excludes =
      (Walker.wants ⟨registry, globs, respectIgnore⟩ · = true) :=
    funext fun path => propext (wants_iff hglobs path).symm
  refine ⟨_, hmake, fun v roots => ⟨pairwise_walkAll, ?_, ?_, ?_⟩, ?_⟩
  · intro root hroot q hdiscovers hwants
    rw [hwanted] at hwants
    obtain ⟨p, hp, hsame⟩ := exists_same_mem_walkAll
      (mem_gather.mpr ⟨root, hroot, hdiscovers, hwants⟩)
    refine ⟨p, ⟨hp, hsame⟩, ?_⟩
    rintro p' ⟨hp', hsame'⟩
    refine eq_of_same_of_mem_walkAll hp' hp ?_
    rw [same, beq_iff_eq.mp hsame', beq_iff_eq.mp hsame]
    exact beq_self_eq_true _
  · intro p hp
    obtain ⟨root, hroot, -, hwants⟩ := mem_gather.mp (mem_gather_of_mem_walkAll hp)
    rw [hwanted]
    exact ⟨hwants, exists_discoversFirst hp⟩
  · rintro before root after rfl
    refine ⟨fun p hp => ?_, fun hroot => ⟨_, map_error_ofEntry? _, ?_⟩, fun hnone => ?_⟩
    · exact exists_same_mem_walkAll (mem_gather_append (mem_gather_of_mem_walkAll hp))
    · rw [failures_walkAll, failures_walk, hroot]
      rfl
    · rw [hwanted] at hnone
      exact files_walkAll_skip before after (files_walk_eq_nil hnone)
  · intro t before root after fault hfault
    refine ⟨files_walkAll_skip before after (files_walk_of_resolve_error hfault _), ?_⟩
    rw [failures_walkAll, failures_walk_of_resolve_error hfault]

/-- A directory that is spelled in two ways, with one between that may not be entered. -/
theorem walkAll_union_respelled :
    let denied : WalkFault := .io "locked" (.other "Permission denied (os error 13)")
    let v : View :=
      { isFile := fun path => path == "d/./a.scala" || path == "d/a.scala"
        entries := fun _ root =>
          if root = "locked" then [.ok "locked", .error denied]
          else [.ok root, .ok (join root "a.scala")]
        read := fun _ => .ok "object A"
        forbids := fun _ => none }
    let roots := ["d/.", "locked", "d"]
    ∃ w, Walker.make (.total fun _ => default) ["*.sbt"] false = .ok w ∧
      (∃! p, p ∈ (w.walkAll v roots).files ∧ same p "d/a.scala" = true) ∧
      (w.walkAll v roots).files = (w.walkAll v ["d/.", "d"]).files ∧
      (w.walkAll v roots).failures =
        (w.walkAll v ["d/."]).failures ++ [.walk denied] ++ (w.walkAll v ["d"]).failures := by
  intro denied v roots
  have hglob : Glob.compile "*.sbt" = .ok ⟨.anyText :: ".sbt".toList.map .char⟩ := by
    simp [Glob.compile, Glob.tokens]
  have hwanted : Wanted (.total fun _ => default) ["*.sbt"] "d/a.scala" := by
    refine ⟨by decide, ?_⟩
    simp only [List.mem_singleton, forall_eq, hglob]
    rintro g ⟨⟩
    decide
  have hvalid : ∀ text ∈ ["*.sbt"], Glob.fault? text = none := by simp [Glob.fault?, hglob]
  have hlisted : v.Discovers false "d" "d/a.scala" :=
    .listed (by decide +kernel) (by decide +kernel) (by decide +kernel)
  have hlocked (q : String) : ¬ v.Discovers false "locked" q := by
    rintro (hfile | ⟨-, hq, hfile⟩)
    · exact absurd hfile (by decide +kernel)
    · obtain rfl : q = "locked" := by simpa [v] using hq
      exact absurd hfile (by decide +kernel)
  obtain ⟨w, hmake, hwalk, -⟩ := walkAll_union (.total fun _ => default) false hvalid
  obtain ⟨-, hcomplete, -, hmore⟩ := hwalk v roots
  obtain ⟨-, hfaults, hskip⟩ := hmore ["d/."] "locked" ["d"] rfl
  obtain ⟨faults, hall, hfailures⟩ := hfaults (by decide +kernel)
  obtain rfl : faults = [denied] := by
    have hone : (v.entries false "locked").filter (!·.isOk) = [.error denied] := rfl
    simpa [hone] using hall
  exact ⟨w, hmake, hcomplete "d" (by decide) _ hlisted hwanted,
    hskip fun q hq => absurd hq (hlocked q), hfailures⟩

/-- A dash that names nothing is missing, and that is not told. -/
theorem walkAll_dash :
    FileTree.empty.resolve "-" = .error .missing ∧
      ∃ w, Walker.make (.total fun _ => default) [] true = .ok w ∧
        (w.walkAll FileTree.empty.view ["-"]).files = [] ∧
        (w.walkAll FileTree.empty.view ["-"]).failures = [] := by
  have hmissing : FileTree.empty.resolve "-" = .error .missing := by
    show (FileTree.empty.follow FileTree.maxLinks [] ["-"]).map (·.location) = _
    rw [FileTree.follow_missing (by decide) (by decide) (by decide) rfl]
    rfl
  refine ⟨hmissing, ⟨.total fun _ => default, [], true⟩, rfl, ?_, ?_⟩
  · simp [walkAll, arrange, gather, files_walk_of_resolve_error hmissing, dropRepeats]
  · have hdash : same "-" "-" = true := by decide
    simp [walkAll, arrange, gather, failures_walk_of_resolve_error hmissing, hdash]

end Walker

end TagIndex
