import TagIndex.Proofs.Selection

/-!
# Which identifiers a pattern binds

Reading a pattern passes a flag down: at the top of a value every identifier binds, and inside most
patterns only variable names do. Here each pattern inside a pattern is taken with its path, the
kinds of all patterns around it, and whether it binds is told by the path and by its own text.

- `Tree.patternSites`: a pattern and those inside it, in document order, with their paths.
- `PatternSite.binder?`: the binder at one site.
- `Tree.binders_eq_sites`: the flag at a site is told by its path.
- `boundNames_eq_sites`: the names that a pattern binds.
-/

namespace TagIndex

structure PatternSite where
  /-- The kinds of the patterns around it, the nearest first. -/
  path : List String
  tree : Tree

namespace PatternSite

/-- Whether the pattern stands at the top of a value: there are only types and parentheses around
it. -/
def atTop (s : PatternSite) : Bool :=
  s.path.all Tree.keepsTop

/-- Whether the pattern is inside a tuple, an operator, an extractor or a capture. -/
def isNested (s : PatternSite) : Bool :=
  s.path.any fun kind =>
    ["tuple_pattern", "infix_pattern", "case_class_pattern", "capture_pattern"].contains kind

/-- The binder that the pattern has itself. `top` says whether all that is listed stands at the top
of a value. Elsewhere an identifier binds if it starts with an underscore or a lowercase letter. -/
def binder? (src : List Char) (top : Bool) (s : PatternSite) : Option Node :=
  match s.tree.node.kind with
  | "identifier" =>
    let startsLow := (s.tree.node.text src).head?.any fun c => c == '_' || Text.isLowercase c
    if top && s.atTop || startsLow then some s.tree.node else none
  | "capture_pattern" => Tree.inField? "name" s.tree.children
  | _ => none

theorem atTop_of_isNested {s : PatternSite} (h : s.isNested = true) : s.atTop = false := by
  obtain ⟨kind, hmem, hkind⟩ := List.any_eq_true.mp h
  have hkeeps : Tree.keepsTop kind = false := by
    rw [List.contains_iff_mem] at hkind
    simp only [List.mem_cons, List.not_mem_nil, or_false] at hkind
    rcases hkind with rfl | rfl | rfl | rfl <;> decide
  exact List.all_eq_false.mpr ⟨kind, hmem, by simp [hkeeps]⟩

theorem isVariable_eq (text : List Char) :
    Name.isVariable text = text.head?.any fun c => c == '_' || Text.isLowercase c := by
  cases text <;> rfl

theorem ownBinders_tree (src : List Char) (top : Bool) (s : PatternSite) :
    s.tree.ownBinders src (top && s.atTop) = (s.binder? src top).toList := by
  unfold Tree.ownBinders
  rw [isVariable_eq]
  split
  next hk =>
    simp only [binder?, hk]
    split <;> rfl
  next hk => simp only [binder?, hk]
  next => simp [binder?]

/-- Inside another pattern an identifier that starts otherwise refers to an existing value. -/
theorem binder?_eq_none {src : List Char} {top : Bool} {s : PatternSite}
    (hkind : s.tree.node.kind = "identifier") (hnested : s.isNested = true)
    (htext : ∀ c, (s.tree.node.text src).head? = some c → c ≠ '_' ∧ Text.isLowercase c = false) :
    s.binder? src top = none := by
  have hstart : ((s.tree.node.text src).head?.any fun c => c == '_' || Text.isLowercase c) =
      false := by
    cases hhead : (s.tree.node.text src).head? with
    | none => rfl
    | some c =>
      obtain ⟨hunderscore, hlower⟩ := htext c hhead
      simp [hunderscore, hlower]
  simp [binder?, hkind, atTop_of_isNested hnested, hstart]

end PatternSite

namespace Tree

/-- A pattern and the patterns inside it, from left to right. -/
def patternSites (path : List String) (t : Tree) : List PatternSite :=
  ⟨path, t⟩ :: t.subpatterns.attach.flatMap fun u => patternSites (t.node.kind :: path) u.1
termination_by t
decreasing_by exact sizeOf_lt_of_mem_children (mem_children_of_mem_subpatterns u.2)

theorem patternSites_eq (path : List String) (t : Tree) :
    t.patternSites path =
      ⟨path, t⟩ :: t.subpatterns.flatMap (patternSites (t.node.kind :: path)) := by
  rw [patternSites]
  simp

/-- The flag with which a pattern is read is told by the patterns around it. -/
theorem binders_eq_sites (src : List Char) (top : Bool) (path : List String) (t : Tree) :
    t.binders src (top && path.all keepsTop) =
      (t.patternSites path).filterMap (·.binder? src top) := by
  induction path, t using patternSites.induct with
  | case1 path t ih =>
    have hflag : (top && path.all keepsTop && keepsTop t.node.kind) =
        (top && (t.node.kind :: path).all keepsTop) := by
      rw [List.all_cons, Bool.and_assoc, Bool.and_comm (path.all keepsTop)]
    have hinner : t.subpatterns.flatMap (binders src (top && (t.node.kind :: path).all keepsTop)) =
        (t.subpatterns.flatMap (patternSites (t.node.kind :: path))).filterMap
          (·.binder? src top) := by
      rw [List.filterMap_flatMap]
      exact List.flatMap_congr fun u hu => ih ⟨u, hu⟩
    have hown := PatternSite.ownBinders_tree src top ⟨path, t⟩
    rw [PatternSite.atTop] at hown
    rw [binders_eq, hown, hflag, hinner, patternSites_eq, List.filterMap_cons]
    cases PatternSite.binder? src top ⟨path, t⟩ <;> rfl

end Tree

/-- Neither a backtick nor a capital letter starts a variable. -/
theorem not_isLowercase_of_isUpper {c : Char} (h : c = '\x60' ∨ c.isUpper = true) :
    c ≠ '_' ∧ Text.isLowercase c = false := by
  have hrange : c.toNat < 0x61 ∧ c ≠ '_' := by
    rcases h with rfl | h
    · decide
    · have hupper : 'A'.val ≤ c.val ∧ c.val ≤ 'Z'.val := of_decide_eq_true h
      have hle : c.toNat ≤ 90 := UInt32.le_iff_toNat_le.mp hupper.2
      refine ⟨by omega, ?_⟩
      rintro rfl
      exact absurd hle (by decide)
  have htable : ∀ p ∈ Text.lowercaseTable, 0x61 ≤ p.first := by decide +kernel
  refine ⟨hrange.2, List.any_eq_false.mpr fun p hp => ?_⟩
  have hfirst := htable p hp
  have hnot : ¬ p.first ≤ c.toNat := by omega
  simp [Text.Progression.contains, hnot]

/-- A pattern binds the binders of the patterns inside it, from left to right. Inside a tuple, an
operator, an extractor or a capture an identifier binds nothing that starts with neither an
underscore nor a lowercase letter, so in particular with a backtick or a letter from `A` to `Z`: the
names are those of the other patterns. -/
theorem boundNames_eq_sites (src : List Char) (top : Bool) (t : Tree) :
    (Pattern.ofTree src top t).boundNames =
      ((t.patternSites []).filterMap (·.binder? src top)).map (Name.ofNode src) ∧
    (∀ before s after, t.patternSites [] = before ++ s :: after →
      s.tree.node.kind = "identifier" → s.isNested = true →
      (∀ c, (s.tree.node.text src).head? = some c → c ≠ '_' ∧ Text.isLowercase c = false) →
      (Pattern.ofTree src top t).boundNames =
        ((before ++ after).filterMap (·.binder? src top)).map (Name.ofNode src)) ∧
    ∀ c, c = '\x60' ∨ c.isUpper = true → c ≠ '_' ∧ Text.isLowercase c = false := by
  have hbinders := t.binders_eq_sites src top []
  rw [List.all_nil, Bool.and_true] at hbinders
  rw [Tree.boundNames_ofTree, hbinders]
  refine ⟨rfl, ?_, fun c => not_isLowercase_of_isUpper⟩
  intro before s after hsites hkind hnested hstart
  have hnone : s.binder? src top = none := PatternSite.binder?_eq_none hkind hnested hstart
  rw [hsites, List.filterMap_append, List.filterMap_cons_none hnone, ← List.filterMap_append]

-- `h :: (T @ V)`: the capture binds `T`, and `V` refers to an existing value
example :
    let capture : Tree :=
      .mk (.plain "capture_pattern" none 6 11)
        [.leaf "identifier" "name" 6 7, .token "@" 8 9, .leaf "identifier" "pattern" 10 11]
    let pattern : Tree :=
      .mk (.plain "infix_pattern" (some "pattern") 0 12)
        [.leaf "identifier" "left" 0 1, .leaf "operator_identifier" "operator" 2 4,
          .mk (.plain "tuple_pattern" (some "right") 5 12) [capture]]
    (Pattern.ofTree "h :: (T @ V)".toList true pattern).boundNames =
      [⟨"h", ⟨1, 1⟩⟩, ⟨"T", ⟨1, 7⟩⟩] := by
  decide +kernel

end TagIndex
