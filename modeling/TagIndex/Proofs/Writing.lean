import TagIndex.FileTree.Edit

/-!
# Writing a file

A write changes one file. Afterwards the path that it was given leads to that file, and whatever
else there was is as before.

- `Entry.surface`: an entry without what is below it.
- `FileTree.Written t l bytes t'`: `t'` is `t` with a file at `l`. Every other location has the
  entry that it had, up to the entries below a directory.
- `follow_of_follow`: in the new tree a path leads where it led before, unless that was `l`.
- `written_of_write`: what a write has written is what is read under the same path.
-/

namespace TagIndex

namespace Entry

/-- An entry without what is below it. -/
def surface : Entry → Entry
  | .directory _ => .directory []
  | e => e

theorem exists_of_isDirectory {e : Entry} (h : e.isDirectory = true) :
    ∃ entries, e = .directory entries := by
  cases e with
  | directory entries => exact ⟨entries, rfl⟩
  | file bytes => cases h
  | link target => cases h

theorem at?_cons (entries : List (String × Entry)) (name : String) (l : Location) :
    (directory entries).at? (name :: l) = (entries.lookup name).bind (·.at? l) := rfl

theorem put_cons (entries : List (String × Entry)) (new : Entry) (name : String) (l : Location) :
    (directory entries).put new (name :: l) = .directory
      (assign name (((entries.lookup name).getD (.directory [])).put new l) entries) := rfl

/-- The first step on the way to a directory. -/
theorem at?_cons_isDirectory {e : Entry} {name : String} {l : Location}
    (h : (e.at? (name :: l)).any isDirectory = true) :
    ∃ entries sub, e = .directory entries ∧ entries.lookup name = some sub ∧
      (sub.at? l).any isDirectory = true := by
  cases e with
  | directory entries =>
    rw [at?_cons] at h
    cases hsub : entries.lookup name with
    | none => rw [hsub] at h; cases h
    | some sub => exact ⟨entries, sub, rfl, hsub, by rw [hsub] at h; exact h⟩
  | file bytes => cases h
  | link target => cases h

theorem at?_put_self (new : Entry) {e : Entry} {parent : Location} (last : String)
    (h : (e.at? parent).any isDirectory = true) :
    (e.put new (parent ++ [last])).at? (parent ++ [last]) = some new := by
  induction parent generalizing e with
  | nil =>
    obtain ⟨entries, rfl⟩ := exists_of_isDirectory h
    rw [List.nil_append, put_cons, at?_cons, lookup_assign_self]
    rfl
  | cons name parent ih =>
    obtain ⟨entries, sub, rfl, hsub, hdir⟩ := at?_cons_isDirectory h
    rw [List.cons_append, put_cons, at?_cons, lookup_assign_self, hsub]
    exact ih hdir

theorem at?_eq_none_of_not_isDirectory {e : Entry} {l : Location} (h : e.isDirectory = false)
    (hl : l ≠ []) : e.at? l = none := by
  obtain ⟨name, rest, rfl⟩ := List.exists_cons_of_ne_nil hl
  cases e with
  | directory entries => cases h
  | file bytes => rfl
  | link target => rfl

/-- Where something other than a directory is put in place of something other than a directory,
all else stays as it was. -/
theorem surface_at?_put {new : Entry} (hnew : new.isDirectory = false) {e : Entry}
    {parent : Location} {last : String} (h : (e.at? parent).any isDirectory = true)
    (hold : (e.at? (parent ++ [last])).any isDirectory = false) {k : Location}
    (hk : k ≠ parent ++ [last]) :
    ((e.put new (parent ++ [last])).at? k).map surface = (e.at? k).map surface := by
  induction parent generalizing e k with
  | nil =>
    obtain ⟨entries, rfl⟩ := exists_of_isDirectory h
    rw [List.nil_append, put_cons]
    cases k with
    | nil => rfl
    | cons name k =>
      by_cases hname : name = last
      · subst hname
        have hk : k ≠ [] := by
          intro hnil
          rw [hnil] at hk
          exact hk rfl
        rw [at?_cons, at?_cons, lookup_assign_self, Option.bind_some,
          show Entry.put _ new [] = new from rfl, at?_eq_none_of_not_isDirectory hnew hk]
        rw [List.nil_append, at?_cons] at hold
        cases hsub : entries.lookup name with
        | none => rfl
        | some sub =>
          rw [hsub] at hold
          rw [Option.bind_some, at?_eq_none_of_not_isDirectory hold hk]
      · rw [at?_cons, at?_cons, lookup_assign_of_ne hname]
  | cons first parent ih =>
    obtain ⟨entries, sub, rfl, hsub, hdir⟩ := at?_cons_isDirectory h
    rw [List.cons_append, put_cons, hsub, Option.getD_some]
    rw [List.cons_append, at?_cons, hsub, Option.bind_some] at hold
    cases k with
    | nil => rfl
    | cons name k =>
      by_cases hname : name = first
      · subst hname
        rw [at?_cons, at?_cons, lookup_assign_self, hsub]
        exact ih hdir hold fun heq => hk (by rw [heq]; rfl)
      · rw [at?_cons, at?_cons, lookup_assign_of_ne hname]

end Entry

namespace FileTree

/-- `t'` is `t` with the given bytes in a file at `l`. -/
structure Written (t : FileTree) (l : Location) (bytes : ByteArray) (t' : FileTree) : Prop where
  workingDirectory : t'.workingDirectory = t.workingDirectory
  /-- Only a file is overwritten. -/
  old : t.entry? l = none ∨ ∃ before, t.entry? l = some (.file before)
  new : t'.entry? l = some (.file bytes)
  others : ∀ k, k ≠ l → (t'.entry? k).map Entry.surface = (t.entry? k).map Entry.surface

theorem written_insert {t : FileTree} {parent : Location} {last : String} (bytes : ByteArray)
    (hdir : t.isDirectory parent = true)
    (hold : t.entry? (parent ++ [last]) = none ∨
      ∃ before, t.entry? (parent ++ [last]) = some (.file before)) :
    t.Written (parent ++ [last]) bytes (t.insert (parent ++ [last]) (.file bytes)) where
  workingDirectory := rfl
  old := hold
  new := Entry.at?_put_self _ last hdir
  others k hk := by
    refine Entry.surface_at?_put rfl hdir ?_ hk
    rcases hold with h | ⟨before, h⟩
    · rw [show t.top.at? (parent ++ [last]) = none from h]
      rfl
    · rw [show t.top.at? (parent ++ [last]) = some (.file before) from h]
      rfl

namespace Written

variable {t t' : FileTree} {l k : Location} {bytes : ByteArray}

theorem ne_of_not_file (h : t.Written l bytes t') {e : Entry} (hk : t.entry? k = some e)
    (he : ∀ before, e ≠ .file before) : k ≠ l := by
  rintro rfl
  rcases h.old with hold | ⟨before, hold⟩
  · rw [hk] at hold
    cases hold
  · rw [hk] at hold
    exact he before (Option.some.inj hold)

theorem exists_entry (h : t.Written l bytes t') (hne : k ≠ l) {e : Entry}
    (hk : t.entry? k = some e) : ∃ e', t'.entry? k = some e' ∧ e'.surface = e.surface := by
  have hsurf := h.others k hne
  rw [hk] at hsurf
  exact Option.map_eq_some_iff.mp hsurf

theorem directory (h : t.Written l bytes t') {entries : List (String × Entry)}
    (hk : t.entry? k = some (.directory entries)) :
    ∃ entries', t'.entry? k = some (.directory entries') := by
  obtain ⟨e, he, hsurf⟩ := h.exists_entry (h.ne_of_not_file hk (by simp)) hk
  cases e with
  | directory entries' => exact ⟨entries', he⟩
  | file bytes => cases hsurf
  | link target => cases hsurf

theorem link (h : t.Written l bytes t') {target : String}
    (hk : t.entry? k = some (.link target)) : t'.entry? k = some (.link target) := by
  obtain ⟨e, he, hsurf⟩ := h.exists_entry (h.ne_of_not_file hk (by simp)) hk
  cases e with
  | link target => cases hsurf; exact he
  | file bytes => cases hsurf
  | directory entries => cases hsurf

theorem file (h : t.Written l bytes t') {before : ByteArray} (hne : k ≠ l)
    (hk : t.entry? k = some (.file before)) : t'.entry? k = some (.file before) := by
  obtain ⟨e, he, hsurf⟩ := h.exists_entry hne hk
  cases e with
  | file bytes => cases hsurf; exact he
  | link target => cases hsurf
  | directory entries => cases hsurf

end Written

/-! ### Paths -/

section Steps

variable {t : FileTree} {links : Nat} {dir : Location} {name : String} {rest : List String}

theorem follow_skip (hname : name = "" ∨ name = ".") :
    t.follow links dir (name :: rest) = t.follow links dir rest := by
  rw [follow.eq_def]
  exact if_pos hname

theorem follow_up : t.follow links dir (".." :: rest) = t.follow links dir.dropLast rest := by
  rw [follow.eq_def]
  simp

variable (hname : ¬(name = "" ∨ name = ".")) (hup : ¬name = "..")
  (hlong : ¬maxNameBytes < name.utf8ByteSize)
include hname hup hlong

theorem follow_missing (he : t.entry? (dir ++ [name]) = none) :
    t.follow links dir (name :: rest) = .error .missing := by
  rw [follow.eq_def]
  simp [hname, hup, hlong, he]

theorem follow_file {bytes : ByteArray} (he : t.entry? (dir ++ [name]) = some (.file bytes)) :
    t.follow links dir [name] = .ok ⟨dir ++ [name], links⟩ := by
  rw [follow.eq_def]
  simp [hname, hup, hlong, he]

theorem follow_directory {entries : List (String × Entry)}
    (he : t.entry? (dir ++ [name]) = some (.directory entries)) :
    t.follow links dir (name :: rest) = t.follow links (dir ++ [name]) rest := by
  rw [follow.eq_def]
  simp [hname, hup, hlong, he]

theorem follow_link {target : String} (he : t.entry? (dir ++ [name]) = some (.link target)) :
    t.follow (links + 1) dir (name :: rest) =
      t.follow links (origin dir target) (names target ++ rest) := by
  rw [follow.eq_def]
  simp [hname, hup, hlong, he]

end Steps

theorem follow_append {t : FileTree} {links : Nat} {dir : Location} {xs : List String}
    {a : Arrival} (h : t.follow links dir xs = .ok a) (hdir : t.isDirectory a.location = true)
    (ys : List String) : t.follow links dir (xs ++ ys) = t.follow a.links a.location ys := by
  fun_induction follow t links dir xs with
  | case1 => cases h; rfl
  | case2 links dir name rest hname ih => rw [List.cons_append, follow_skip hname, ih h]
  | case3 links dir rest _ ih => rw [List.cons_append, follow_up, ih h]
  | case6 links dir name rest _ _ _ bytes he =>
    -- a file is no place to go on from
    cases h
    rw [isDirectory, he] at hdir
    cases hdir
  | case8 dir name rest hname hup hlong entries links he ih =>
    rw [List.cons_append, follow_directory hname hup hlong he, ih h]
  | case10 dir name rest hname hup hlong target links he ih =>
    rw [List.cons_append, follow_link hname hup hlong he, ← List.append_assoc, ih h]
  | case4 | case5 | case7 | case9 => cases h

/-- A path leads where it led before a write, unless that was to the file that is written. -/
theorem follow_of_follow {t t' : FileTree} {l : Location} {bytes : ByteArray}
    (hw : t.Written l bytes t') {links : Nat} {dir : Location} {todo : List String} {a : Arrival}
    (h : t.follow links dir todo = .ok a) (hne : a.location ≠ l) :
    t'.follow links dir todo = .ok a := by
  fun_induction follow t links dir todo with
  | case1 => rw [follow, h]
  | case2 links dir name rest hname ih => rw [follow_skip hname, ih h]
  | case3 links dir rest _ ih => rw [follow_up, ih h]
  | case6 links dir name rest hname hup hlong before he hrest =>
    rw [List.isEmpty_iff.mp hrest, ← h]
    cases h
    exact follow_file hname hup hlong (hw.file hne he)
  | case8 dir name rest hname hup hlong entries links he ih =>
    obtain ⟨entries', he'⟩ := hw.directory he
    rw [follow_directory hname hup hlong he', ih h]
  | case10 dir name rest hname hup hlong target links he ih =>
    rw [follow_link hname hup hlong (hw.link he), ih h]
  | case4 | case5 | case7 | case9 => cases h

theorem eq_append_of_splitLast? {todo before : List String} {last : String}
    (h : splitLast? todo = some (before, last, false)) : todo = before ++ [last] ∧ last ≠ "" := by
  unfold splitLast? at h
  split at h
  next => cases h
  next last' before' hdrop =>
    simp only [Option.some.injEq, Prod.mk.injEq, decide_eq_false_iff_not] at h
    obtain ⟨rfl, rfl, hslash⟩ := h
    rw [← List.head?_reverse] at hslash
    cases hrev : todo.reverse with
    | nil => rw [hrev] at hdrop; cases hdrop
    | cons x xs =>
      rw [hrev, List.head?_cons, Option.some.injEq] at hslash
      rw [hrev, List.dropWhile_cons_of_neg (by simpa using hslash)] at hdrop
      cases hdrop
      exact ⟨by rw [← List.reverse_reverse todo, hrev, List.reverse_cons], hslash⟩

section WriteLocation

variable {t t' : FileTree} {links : Nat} {dir l : Location} {todo : List String}
  {bytes : ByteArray}

/-- A file is written into a directory, in place of a file or of nothing. -/
theorem old_of_writeLocation (h : t.writeLocation links dir todo = .ok l) :
    ∃ parent last, l = parent ++ [last] ∧ t.isDirectory parent = true ∧
      (t.entry? l = none ∨ ∃ before, t.entry? l = some (.file before)) := by
  fun_induction writeLocation t links dir todo with
  | case7 _ _ _ _ _ _ _ _ _ _ _ _ _ _ _ _ ih => exact ih h
  | case9 _ _ _ _ last _ _ parent _ _ hdir _ _ bytes he =>
    cases h
    exact ⟨parent, last, rfl, by simpa using hdir, .inr ⟨bytes, he⟩⟩
  | case10 _ _ _ _ last _ _ parent _ _ hdir _ _ he =>
    cases h
    exact ⟨parent, last, rfl, by simpa using hdir, .inl he⟩
  | case1 | case2 | case3 | case4 | case5 | case6 | case8 => cases h

theorem Written.isDirectory (hw : t.Written l bytes t') {k : Location}
    (h : t.isDirectory k = true) : k ≠ l ∧ t'.isDirectory k = true := by
  rw [FileTree.isDirectory] at h
  cases he : t.entry? k with
  | none => rw [he] at h; cases h
  | some e =>
    rw [he, Option.any_some] at h
    obtain ⟨entries, rfl⟩ := Entry.exists_of_isDirectory h
    obtain ⟨entries', he'⟩ := hw.directory he
    refine ⟨hw.ne_of_not_file he (by simp), ?_⟩
    rw [FileTree.isDirectory, he']
    rfl

/-- The way to the directory of a file is not changed by a write. -/
theorem Written.follow_parent (hw : t.Written l bytes t') {before : List String} {last : String}
    {a : Arrival} (hsplit : splitLast? todo = some (before, last, false))
    (h : t.follow links dir before = .ok a) (hdir : t.isDirectory a.location = true) :
    t'.follow links dir todo = t'.follow a.links a.location [last] := by
  obtain ⟨hne, hdir'⟩ := hw.isDirectory hdir
  rw [(eq_append_of_splitLast? hsplit).1]
  exact follow_append (follow_of_follow hw h hne) hdir' [last]

theorem Written.follow_last {before : List String} {last : String} {parent : Location}
    {left : Nat} (hw : t.Written (parent ++ [last]) bytes t')
    (hsplit : splitLast? todo = some (before, last, false))
    (h : t.follow links dir before = .ok ⟨parent, left⟩) (hdir : t.isDirectory parent = true)
    (hdot : last ≠ ".") (hup : last ≠ "..") (hlong : ¬maxNameBytes < last.utf8ByteSize) :
    t'.follow links dir todo = .ok ⟨parent ++ [last], left⟩ := by
  obtain ⟨-, hempty⟩ := eq_append_of_splitLast? hsplit
  rw [hw.follow_parent hsplit h hdir]
  exact follow_file (by simp [hempty, hdot]) hup hlong hw.new

/-- After a write its path leads to the file that is written. -/
theorem Written.follow_eq (hw : t.Written l bytes t')
    (h : t.writeLocation links dir todo = .ok l) :
    ∃ left, t'.follow links dir todo = .ok ⟨l, left⟩ := by
  fun_induction writeLocation t links dir todo with
  | case7 links dir todo before last slashed hsplit parent left hfollow hdir hlast hlong target he
      hleft ih =>
    simp only [not_or, Bool.not_eq_true] at hlast
    obtain ⟨hdot, hup, rfl⟩ := hlast
    obtain ⟨-, hempty⟩ := eq_append_of_splitLast? hsplit
    -- the link at the end uses up one of the links that are left
    obtain ⟨left, rfl⟩ := Nat.exists_eq_add_one.mpr hleft
    rw [hw.follow_parent hsplit hfollow (by simpa using hdir),
      follow_link (by simp [hempty, hdot]) hup hlong (hw.link he), List.append_nil]
    exact ih h
  | case9 links dir todo before last slashed hsplit parent left hfollow hdir hlast hlong
  | case10 links dir todo before last slashed hsplit parent left hfollow hdir hlast hlong =>
    simp only [not_or, Bool.not_eq_true] at hlast
    obtain ⟨hdot, hup, rfl⟩ := hlast
    cases h
    exact ⟨left, hw.follow_last hsplit hfollow (by simpa using hdir) hdot hup hlong⟩
  | case1 | case2 | case3 | case4 | case5 | case6 | case8 => cases h

end WriteLocation

/-- What a write has written is what the path leads to afterwards, and nothing else has changed. -/
theorem written_of_write {t t' : FileTree} {path : String} {bytes : ByteArray}
    (h : t.write path bytes = .ok t') : ∃ l, t'.resolve path = .ok l ∧ t.Written l bytes t' := by
  unfold write at h
  split at h
  next => cases h
  next hpath =>
    cases hl : t.writeLocation maxLinks (origin t.workingDirectory path) (names path) with
    | error fault => rw [hl] at h; cases h
    | ok l =>
      rw [hl] at h
      cases h
      obtain ⟨parent, last, rfl, hdir, hold⟩ := old_of_writeLocation hl
      have hw := written_insert bytes hdir hold
      obtain ⟨left, hfollow⟩ := hw.follow_eq hl
      refine ⟨parent ++ [last], ?_, hw⟩
      rw [resolve, hpath, hw.workingDirectory]
      show (follow _ _ _ _).map _ = _
      rw [hfollow]
      rfl

/-- Whether a file can be written does not depend on its bytes. -/
theorem write_error {t : FileTree} {path : String} {bytes : ByteArray} {fault : IoFault}
    (h : t.write path bytes = .error fault) (bytes' : ByteArray) :
    t.write path bytes' = .error fault := by
  unfold write at h ⊢
  split at h
  next hpath => exact h
  next hpath =>
    cases hl : t.writeLocation maxLinks (origin t.workingDirectory path) (names path) with
    | error fault' => rw [hl] at h; exact h
    | ok l => rw [hl] at h; cases h

end FileTree

end TagIndex
