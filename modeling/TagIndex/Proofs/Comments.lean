import Mathlib.Data.List.Forall2
import TagIndex.Proofs.ScopedPrivate

/-!
# Comments do not change tags

A comment can stand anywhere among the children of a node, and all readers of a tree come across it.
It is no declaration, binds no name and is a modifier that says nothing. What can go wrong is that a
reader takes the first child, whatever it is, or asks only whether there is a modifier at all. So the
first named child of some patterns has to stay, and a list of modifiers must not lose all it has.

- `Tree.Uncommented`: a tree and the same tree with some comments left out.
- `Tree.Thinned`: the same of the children of a node, with three ways to see that what is read off
  them is the same: `filter`, `flatMap_eq` and `exists_mem_iff`.
- `Tree.Uncommented.binders_eq`, `Tree.Uncommented.memberNames_eq`: the same names are declared.
- `Modifier.Alike`: lists of modifiers that mean the same.
- `Tag.ofTree_uncommented`: the tags are the same.
-/

namespace TagIndex

namespace Tree

def commentKinds : List String :=
  ["comment", "block_comment"]

/-- A comment that plays no role in its parent. -/
def IsComment (t : Tree) : Prop :=
  t.node.kind ∈ commentKinds ∧ t.node.field = none

/-- The children of a node with some comments left out, each with all that is below it, and the
others replaced along `r`. If `held`, the first named child is not among those left out. -/
inductive Thinned (r : Tree → Tree → Prop) : Bool → List Tree → List Tree → Prop where
  | nil {held : Bool} : Thinned r held [] []
  | keep {held : Bool} {t u : Tree} {ts us : List Tree} : r t u →
      Thinned r (held && !t.node.isNamed) ts us → Thinned r held (t :: ts) (u :: us)
  | skip {held : Bool} {t : Tree} {ts us : List Tree} : t.IsComment →
      (held = true → t.node.isNamed = false) → Thinned r held ts us → Thinned r held (t :: ts) us

/-- The patterns that are read by their first named child. -/
def readsFirst (kind : String) : Bool :=
  kind == "typed_pattern" || kind == "parenthesized_pattern" || kind == "case_class_pattern"

/-- A tree and what is left of it without some comments. The first named child of a pattern that is
read by it stays, and a list of modifiers does not become empty. -/
inductive Uncommented : Tree → Tree → Prop where
  | mk {n : Node} {cs ds : List Tree} : Thinned Uncommented (readsFirst n.kind) cs ds →
      (n.kind = "modifiers" → cs ≠ [] → ds ≠ []) → Uncommented (.mk n cs) (.mk n ds)

theorem named_cons (t : Tree) (ts : List Tree) :
    named (t :: ts) = if t.node.isNamed then t :: named ts else named ts :=
  List.filter_cons

theorem Uncommented.node_eq {t u : Tree} (h : t.Uncommented u) : t.node = u.node := by
  cases h
  rfl

theorem Uncommented.children {t u : Tree} (h : t.Uncommented u) :
    Thinned Uncommented (readsFirst t.node.kind) t.children u.children := by
  cases h with
  | mk hcs _ => exact hcs

mutual

theorem Uncommented.refl : (t : Tree) → t.Uncommented t
  | .mk _ cs => .mk (Thinned.refl _ cs) fun _ h => h

theorem Thinned.refl (held : Bool) : (ts : List Tree) → Thinned Uncommented held ts ts
  | [] => .nil
  | t :: ts => .keep (Uncommented.refl t) (Thinned.refl _ ts)

end

theorem rel_head? {ts us : List Tree} (h : List.Forall₂ Uncommented ts us) :
    Option.Rel Uncommented ts.head? us.head? := by
  cases h with
  | nil => exact .none
  | cons hr _ => exact .some hr

theorem map_eq_of_rel {β : Type} {f : Tree → β} {o p : Option Tree}
    (h : Option.Rel Uncommented o p) (hf : ∀ t u : Tree, t.Uncommented u → f t = f u) :
    o.map f = p.map f := by
  cases h with
  | none => rfl
  | some hr => exact congrArg some (hf _ _ hr)

theorem rel_or {o p o' p' : Option Tree} (h : Option.Rel Uncommented o p)
    (h' : Option.Rel Uncommented o' p') : Option.Rel Uncommented (o.or o') (p.or p') := by
  cases h with
  | none => exact h'
  | some hr => exact .some hr

theorem map_node_eq {ts us : List Tree} (h : List.Forall₂ Uncommented ts us) :
    ts.map node = us.map node := by
  induction h with
  | nil => rfl
  | cons hr _ ih => rw [List.map_cons, List.map_cons, hr.node_eq, ih]

theorem IsComment.not_in_field {t : Tree} (h : t.IsComment) (field : String) :
    (t.node.field == some field) = false := by
  rw [h.2]
  rfl

theorem IsComment.kind_ne {t : Tree} (h : t.IsComment) {kind : String}
    (hkind : kind ∉ commentKinds) : t.node.kind ≠ kind := by
  rintro rfl
  exact hkind h.1

theorem IsComment.binders_eq_nil {t : Tree} (h : t.IsComment) (src : List Char) (top : Bool) :
    t.binders src top = [] := by
  rw [binders_eq]
  rcases List.mem_pair.mp h.1 with hk | hk <;> simp [ownBinders, subpatterns, hk]

namespace Thinned

variable {held : Bool} {ts us : List Tree}

/-- What tells comments apart keeps none of them, so what it keeps is the same. -/
theorem filter (q : Node → Bool) (hq : ∀ t : Tree, t.IsComment → q t.node = false)
    (h : Thinned Uncommented held ts us) :
    List.Forall₂ Uncommented (ts.filter (q ·.node)) (us.filter (q ·.node)) := by
  induction h with
  | nil => exact .nil
  | @keep _ t u ts us hr _ ih =>
    rw [List.filter_cons, List.filter_cons, hr.node_eq]
    split
    · exact .cons hr ih
    · exact ih
  | @skip _ t _ _ hc _ _ ih =>
    rw [List.filter_cons_of_neg (by simp [hq t hc])]
    exact ih

theorem find? (q : Node → Bool) (hq : ∀ t : Tree, t.IsComment → q t.node = false)
    (h : Thinned Uncommented held ts us) :
    Option.Rel Uncommented (ts.find? (q ·.node)) (us.find? (q ·.node)) := by
  rw [← List.head?_filter, ← List.head?_filter]
  exact rel_head? (h.filter q hq)

theorem named (h : Thinned Uncommented held ts us) :
    Thinned Uncommented held (Tree.named ts) (Tree.named us) := by
  induction h with
  | nil => exact .nil
  | @keep _ t u _ _ hr _ ih =>
    rw [named_cons, named_cons, ← hr.node_eq]
    split
    next ht => exact .keep hr ih
    next ht => simpa [ht] using ih
  | skip hc hheld _ ih =>
    rw [named_cons]
    split
    · exact .skip hc hheld ih
    · exact ih

theorem flatMap_eq {β : Type} {f : Tree → List β} (hc : ∀ t : Tree, t.IsComment → f t = [])
    (h : Thinned Uncommented held ts us)
    (hr : ∀ t ∈ ts, ∀ u, t.Uncommented u → f t = f u) : ts.flatMap f = us.flatMap f := by
  induction h with
  | nil => rfl
  | @keep _ t u ts us htu _ ih =>
    rw [List.flatMap_cons, List.flatMap_cons, hr t List.mem_cons_self u htu,
      ih fun v hv => hr v (List.mem_cons_of_mem t hv)]
  | @skip _ t ts us ht _ _ ih =>
    rw [List.flatMap_cons, hc t ht, List.nil_append,
      ih fun v hv => hr v (List.mem_cons_of_mem t hv)]

theorem exists_mem_iff {p : Tree → Prop} (hc : ∀ t : Tree, t.IsComment → ¬p t)
    (hr : ∀ t u : Tree, t.Uncommented u → (p t ↔ p u)) (h : Thinned Uncommented held ts us) :
    (∃ t ∈ ts, p t) ↔ ∃ u ∈ us, p u := by
  induction h with
  | nil => simp
  | keep htu _ ih => rw [List.exists_mem_cons_iff, List.exists_mem_cons_iff, hr _ _ htu, ih]
  | @skip _ t _ _ ht _ _ ih => simp [ih, hc t ht]

theorem of_forall₂ (h : List.Forall₂ Uncommented ts us) : Thinned Uncommented false ts us := by
  induction h with
  | nil => exact .nil
  | cons hr _ ih => exact .keep hr (by simpa using ih)

theorem of_rel {o p : Option Tree} (h : Option.Rel Uncommented o p) :
    Thinned Uncommented false o.toList p.toList := by
  cases h with
  | none => exact .nil
  | some hr => exact .keep hr .nil

theorem append {ts' us' : List Tree} (h : Thinned Uncommented held ts us)
    (h' : Thinned Uncommented false ts' us') :
    Thinned Uncommented false (ts ++ ts') (us ++ us') := by
  induction h with
  | nil => exact h'
  | keep hr _ ih => exact .keep hr (by simpa using ih)
  | skip hc _ _ ih => exact .skip hc (by simp) ih

/-- What holds with the first named tree held also holds without. -/
theorem free (h : Thinned Uncommented held ts us) : Thinned Uncommented false ts us := by
  simpa using h.append .nil

/-! ### Roles, bodies and first children -/

theorem firstIn? (field : String) (h : Thinned Uncommented held ts us) :
    Option.Rel Uncommented (Tree.firstIn? field ts) (Tree.firstIn? field us) :=
  h.find? (·.field == some field) fun _ hc => hc.not_in_field field

theorem inField (field : String) (h : Thinned Uncommented held ts us) :
    List.Forall₂ Uncommented (Tree.inField field ts) (Tree.inField field us) :=
  h.filter (·.field == some field) fun _ hc => hc.not_in_field field

theorem inField?_eq (field : String) (h : Thinned Uncommented held ts us) :
    Tree.inField? field ts = Tree.inField? field us := by
  rw [inField?_eq_map, inField?_eq_map]
  exact map_eq_of_rel (h.firstIn? field) fun _ _ hr => hr.node_eq

theorem ofKind {kind : String} (hkind : kind ∉ commentKinds)
    (h : Thinned Uncommented held ts us) :
    List.Forall₂ Uncommented (ts.filter (·.node.kind == kind)) (us.filter (·.node.kind == kind)) :=
  h.filter (·.kind == kind) fun _ hc => by simpa using hc.kind_ne hkind

theorem body? (h : Thinned Uncommented held ts us) :
    Option.Rel Uncommented (Tree.body? ts) (Tree.body? us) := by
  refine rel_or (h.firstIn? "body") ?_
  refine h.find? (fun n => n.isNamed && n.kind == "template_body") fun t hc => ?_
  simp [hc.kind_ne (show "template_body" ∉ _ by decide)]

theorem bodyStatements (h : Thinned Uncommented held ts us) :
    Thinned Uncommented false (Tree.bodyStatements ts) (Tree.bodyStatements us) := by
  unfold Tree.bodyStatements
  generalize Tree.body? ts = o, Tree.body? us = p, h.body? = hbody
  cases hbody with
  | none => exact .nil
  | some hr => exact hr.children.named.free

/-- The first named tree stays if it is held. -/
theorem named_cases (h : Thinned Uncommented true ts us) :
    (Tree.named ts = [] ∧ Tree.named us = []) ∨ ∃ t ts' u us', Tree.named ts = t :: ts' ∧
      Tree.named us = u :: us' ∧ t.Uncommented u ∧ Thinned Uncommented false ts' us' := by
  have hall : ∀ t ∈ Tree.named ts, t.node.isNamed = true := fun t ht => (List.mem_filter.mp ht).2
  generalize Tree.named ts = ts', Tree.named us = us', h.named = hnamed at hall
  cases hnamed with
  | nil => exact .inl ⟨rfl, rfl⟩
  | keep hr hrest =>
    rw [hall _ List.mem_cons_self] at hrest
    exact .inr ⟨_, _, _, _, rfl, rfl, hr, hrest⟩
  | skip _ hheld _ => simp [hall _ List.mem_cons_self] at hheld

theorem named_tail (h : Thinned Uncommented true ts us) :
    Thinned Uncommented false ((Tree.named ts).drop 1) ((Tree.named us).drop 1) := by
  obtain ⟨hts, hus⟩ | ⟨t, ts', u, us', hts, hus, -, hrest⟩ := h.named_cases
  · rw [hts, hus]
    exact .nil
  · rw [hts, hus]
    exact hrest

theorem firstNamed? (h : Thinned Uncommented true ts us) :
    Option.Rel Uncommented (Tree.firstNamed? ts) (Tree.firstNamed? us) := by
  have hhead (l : List Tree) : Tree.firstNamed? l = (Tree.named l).head? := List.head?_filter.symm
  rw [hhead, hhead]
  obtain ⟨hts, hus⟩ | ⟨t, ts', u, us', hts, hus, hr, -⟩ := h.named_cases
  · rw [hts, hus]
    exact .none
  · rw [hts, hus]
    exact .some hr

end Thinned

/-! ### Declared names -/

namespace Uncommented

variable {t u : Tree}

theorem subpatterns (h : t.Uncommented u) :
    Thinned Uncommented false t.subpatterns u.subpatterns := by
  have hcs := h.children
  simp only [Tree.subpatterns, ← h.node_eq]
  split
  next hk =>
    rw [hk] at hcs
    exact .of_rel (rel_or (hcs.firstIn? "pattern") hcs.firstNamed?)
  next hk =>
    rw [hk] at hcs
    exact .of_rel hcs.firstNamed?
  next hk => exact hcs.named.free
  next hk => exact (Thinned.of_rel (hcs.firstIn? "left")).append (.of_rel (hcs.firstIn? "right"))
  next hk =>
    rw [hk] at hcs
    have hin := hcs.inField "pattern"
    split
    next hnil =>
      rw [hnil, List.forall₂_nil_left_iff] at hin
      rw [hin]
      exact hcs.named_tail
    next hne =>
      split
      next hnil => exact absurd (List.forall₂_nil_right_iff.mp (hnil ▸ hin)) hne
      next => exact .of_forall₂ hin
  next hk =>
    rw [hcs.inField?_eq "name"]
    split
    · exact .of_rel (hcs.firstIn? "pattern")
    · exact .nil
  next => exact .nil

theorem ownBinders_eq (src : List Char) (top : Bool) (h : t.Uncommented u) :
    t.ownBinders src top = u.ownBinders src top := by
  simp only [ownBinders, h.node_eq, h.children.inField?_eq "name"]

/-- The same identifiers are bound. -/
theorem binders_eq (src : List Char) (top : Bool) (h : t.Uncommented u) :
    t.binders src top = u.binders src top := by
  induction top, t using binders.induct generalizing u with
  | case1 top t ih =>
    rw [Tree.binders_eq src top t, Tree.binders_eq src top u, h.ownBinders_eq, ← h.node_eq]
    refine congrArg _ (h.subpatterns.flatMap_eq (fun v hv => ?_) fun v hv w hvw => ?_)
    · exact hv.binders_eq_nil src _
    · exact ih ⟨v, hv⟩ hvw

theorem definedNames_eq (src : List Char) (h : t.Uncommented u) :
    t.definedNames src = u.definedNames src := by
  simp only [definedNames, h.node_eq]
  split
  · have hidentifiers := h.children.filter (fun n => n.kind == "identifier" && n.isNamed)
      fun v hv => by simp [hv.kind_ne (show "identifier" ∉ _ by decide)]
    simp only [Tree.named, List.filter_filter]
    exact map_node_eq hidentifiers
  · exact h.binders_eq src true

theorem flatMap_definedNames_eq (src : List Char) (h : t.Uncommented u) :
    (inField "pattern" t.children).flatMap (definedNames src) =
      (inField "pattern" u.children).flatMap (definedNames src) := by
  have hin := h.children.inField "pattern"
  generalize inField "pattern" t.children = ts, inField "pattern" u.children = us at hin
  induction hin with
  | nil => rfl
  | cons hr _ ih => rw [List.flatMap_cons, List.flatMap_cons, hr.definedNames_eq, ih]

theorem memberNames_eq (src : List Char) (h : t.Uncommented u) :
    t.memberNames src = u.memberNames src := by
  have hname := h.children.inField?_eq "name"
  have ht := walk_spec src t
  have hu := walk_spec src u
  have hk := Decl.Shape.ofKind_spec u.node.kind
  rw [h.node_eq] at ht
  simp only [memberNames, h.node_eq]
  split
  next => rw [hname]
  next hne =>
    cases hs : Decl.Shape.ofKind u.node.kind <;> rw [hs] at ht hu hk
    case package => rw [ht.1, hu.1]
    case template => rw [ht.1, hu.1, hname]
    case cls => exact absurd hk hne
    case member => rw [ht.1, hu.1, hname]
    case definition => rw [ht.1, hu.1, h.flatMap_definedNames_eq]
    case declaration => rw [ht.1, hu.1, map_node_eq (h.children.inField "name")]
    case other => rw [ht.1, hu.1]

theorem scope?_eq (src : List Char) (h : t.Uncommented u) : t.scope? src = u.scope? src := by
  simp only [scope?, h.node_eq, h.children.inField?_eq "name"]

/-- The walk goes on to the same nodes, comments apart. -/
theorem statements (level : Level) (h : t.Uncommented u) :
    Thinned Uncommented false (t.statements level) (u.statements level) := by
  have hname := h.children.inField?_eq "name"
  have hbody := h.children.bodyStatements
  simp only [Tree.statements, ← h.node_eq, hname]
  split
  next =>
    cases level with
    | package => exact hbody
    | template => exact .nil
  case h_6 => exact .nil
  all_goals
    cases inField? "name" u.children with
    | none => exact .nil
    | some name => exact hbody

end Uncommented

end Tree

/-! ### Modifiers -/

namespace Modifier

open TagIndex.Tree

/-- The nodes of the modifiers that one child of a declaration holds. -/
def nodesOf (t : Tree) : List Node :=
  match t.node.kind with
  | "modifiers" => t.children.map node
  | "access_modifier" => [t.node]
  | _ => []

theorem nodes_eq_flatMap (cs : List Tree) : nodes cs = cs.flatMap nodesOf := rfl

theorem nodesOf_comment {t : Tree} (h : t.IsComment) : nodesOf t = [] := by
  rcases List.mem_pair.mp h.1 with hk | hk <;> simp [nodesOf, hk]

/-- A comment among modifiers says nothing. -/
def isTold (n : Node) : Bool :=
  n.kind ∉ commentKinds

theorem filter_nodesOf_eq {t u : Tree} (h : t.Uncommented u) :
    (nodesOf t).filter isTold = (nodesOf u).filter isTold := by
  simp only [nodesOf, h.node_eq]
  split
  · rw [List.filter_map, List.filter_map]
    exact map_node_eq (h.children.filter isTold fun v hv => by simp [isTold, hv.1])
  · rfl
  · rfl

theorem nodesOf_eq_nil_iff {t u : Tree} (h : t.Uncommented u) :
    nodesOf t = [] ↔ nodesOf u = [] := by
  cases h with
  | @mk n cs ds hcs hmods =>
    simp only [nodesOf, node_mk, children_mk]
    split
    next hk =>
      rw [List.map_eq_nil_iff, List.map_eq_nil_iff]
      refine ⟨fun hnil => ?_, fun hnil => Classical.byContradiction fun hne => hmods hk hne hnil⟩
      rw [hnil] at hcs
      cases hcs
      rfl
    next => simp
    next => simp

section Nodes

variable {held : Bool} {cs ds : List Tree}

theorem filter_nodes_eq (h : Thinned Uncommented held cs ds) :
    (nodes cs).filter isTold = (nodes ds).filter isTold := by
  rw [nodes_eq_flatMap, nodes_eq_flatMap, List.filter_flatMap, List.filter_flatMap]
  refine h.flatMap_eq (fun t ht => ?_) fun t _ u htu => filter_nodesOf_eq htu
  rw [nodesOf_comment ht, List.filter_nil]

theorem nodes_eq_nil_iff (h : Thinned Uncommented held cs ds) : nodes cs = [] ↔ nodes ds = [] := by
  have hsome := h.exists_mem_iff (p := (nodesOf · ≠ [])) (fun t ht => by simp [nodesOf_comment ht])
    fun t u htu => not_congr (nodesOf_eq_nil_iff htu)
  rw [nodes_eq_flatMap, nodes_eq_flatMap, List.flatMap_eq_nil_iff, List.flatMap_eq_nil_iff]
  simpa using not_congr hsome

end Nodes

theorem mem_map_ofNode_iff {src : List Char} {ns : List Node} {m : Modifier}
    (hm : ∀ text, m ≠ .other text) :
    m ∈ ns.map (ofNode src) ↔ m ∈ (ns.filter isTold).map (ofNode src) := by
  constructor
  · intro h
    obtain ⟨n, hn, rfl⟩ := List.mem_map.mp h
    refine List.mem_map_of_mem (List.mem_filter.mpr ⟨hn, ?_⟩)
    by_contra hcomment
    have hk : n.kind ∈ commentKinds := by simpa [isTold] using hcomment
    rcases List.mem_pair.mp hk with hk | hk
    · exact hm "comment" (by simp [ofNode, hk])
    · exact hm "block_comment" (by simp [ofNode, hk])
  · exact fun h => (List.filter_sublist.map _).subset h

/-- Lists of modifiers that say the same: they agree on all modifiers that are understood, and on
whether there are any. -/
structure Alike (ms ms' : List Modifier) : Prop where
  mem_iff : ∀ m, (∀ text, m ≠ .other text) → (m ∈ ms ↔ m ∈ ms')
  nil_iff : ms = [] ↔ ms' = []

theorem ofChildren_alike (src : List Char) {held : Bool} {cs ds : List Tree}
    (h : Thinned Uncommented held cs ds) : Alike (ofChildren src cs) (ofChildren src ds) := by
  rw [ofChildren_eq_map, ofChildren_eq_map]
  constructor
  · intro m hm
    rw [mem_map_ofNode_iff hm, filter_nodes_eq h, ← mem_map_ofNode_iff hm]
  · rw [List.map_eq_nil_iff, List.map_eq_nil_iff, nodes_eq_nil_iff h]

namespace Alike

variable {ms ms' : List Modifier}

theorem append_right (ns : List Modifier) (h : Alike ms ms') : Alike (ms ++ ns) (ms' ++ ns) where
  mem_iff m hm := by rw [List.mem_append, List.mem_append, h.mem_iff m hm]
  nil_iff := by rw [List.append_eq_nil_iff, List.append_eq_nil_iff, h.nil_iff]

theorem isFileLocal_eq (scope : Option String) (h : Alike ms ms') :
    isFileLocal scope ms = isFileLocal scope ms' := by
  refine isFileLocal_congr fun m hhides => h.mem_iff m fun text hm => ?_
  rw [hm] at hhides
  cases hhides

theorem isFileLocalParam_eq (h : Alike ms ms') : isFileLocalParam ms = isFileLocalParam ms' := by
  have hempty : ms.isEmpty = ms'.isEmpty := by
    rw [Bool.eq_iff_iff, List.isEmpty_iff, List.isEmpty_iff, h.nil_iff]
  rw [isFileLocalParam, isFileLocalParam, hempty, h.isFileLocal_eq]

theorem contains_implicit_eq (h : Alike ms ms') : ms.contains .implicit = ms'.contains .implicit := by
  rw [Bool.eq_iff_iff, List.contains_iff_mem, List.contains_iff_mem]
  exact h.mem_iff _ (by simp)

theorem ofMember_eq (scope : Option String) (name : Name) (h : Alike ms ms') :
    Tag.ofMember scope name ms = Tag.ofMember scope name ms' := by
  simp only [Tag.ofMember, h.isFileLocal_eq scope]

end Alike

end Modifier

/-! ### Constructor parameters -/

namespace Param

open TagIndex.Tree

/-- Parameters of one name whose modifiers say the same. -/
def Alike (p q : Param) : Prop :=
  p.name = q.name ∧ Modifier.Alike p.modifiers q.modifiers

theorem marks_eq {f : String → Option Modifier} (hf : ∀ kind ∈ commentKinds, f kind = none)
    {held : Bool} {cs ds : List Tree} (h : Thinned Uncommented held cs ds) :
    cs.filterMap (f ·.node.kind) = ds.filterMap (f ·.node.kind) := by
  rw [List.filterMap_eq_flatMap_toList, List.filterMap_eq_flatMap_toList]
  refine h.flatMap_eq (fun t ht => ?_) fun t _ u htu => ?_
  · rw [hf _ ht.1]
    rfl
  · rw [htu.node_eq]

theorem ofTree?_alike (src : List Char) {t u : Tree} (h : t.Uncommented u) :
    Option.Rel Alike (ofTree? src t) (ofTree? src u) := by
  have hmarks := marks_eq (f := fieldModifier?) (by decide) h.children
  rw [ofTree?, ofTree?, h.children.inField?_eq "name", hmarks]
  cases inField? "name" u.children with
  | none => exact .none
  | some name => exact .some ⟨rfl, (Modifier.ofChildren_alike src h.children).append_right _⟩

theorem ofGroup_alike (src : List Char) {t u : Tree} (h : t.Uncommented u) :
    List.Forall₂ Alike (ofGroup src t.children) (ofGroup src u.children) := by
  have hshared := marks_eq (f := groupModifier?) (by decide) h.children
  have hparams := h.children.ofKind (show "class_parameter" ∉ _ by decide)
  simp only [ofGroup, hshared]
  have hread : List.Forall₂ Alike _ _ :=
    List.rel_filterMap (fun _ _ hr => ofTree?_alike src hr) hparams
  exact List.rel_map (fun p q hpq => ⟨hpq.1, hpq.2.append_right _⟩) hread

theorem map_eq_of_alike {f g : Param → Tag} (hfg : ∀ p q, Alike p q → f p = g q)
    {ps qs : List Param} (h : List.Forall₂ Alike ps qs) : ps.map f = qs.map g := by
  induction h with
  | nil => rfl
  | cons hpq _ ih => rw [List.map_cons, List.map_cons, hfg _ _ hpq, ih]

end Param

namespace Tag

open TagIndex.Tree

theorem ofParam_eq {p q : Param} (h : p.Alike q) {a b : Bool} (hab : a = b) :
    ofParam a p = ofParam b q := by
  rw [ofParam, ofParam, h.1, hab]

theorem ofConstructor_eq_of_alike {c d : ClassHead} (himplicit : c.isImplicit = d.isImplicit)
    (hcase : c.isCase = d.isCase)
    (hgroups : List.Forall₂ (List.Forall₂ Param.Alike) c.paramGroups d.paramGroups) :
    ofConstructor c = ofConstructor d := by
  have hfirst {p q : Param} (h : p.Alike q) : isLocalFirst c p = isLocalFirst d q := by
    rw [isLocalFirst, isLocalFirst, himplicit, hcase, h.2.isFileLocal_eq, h.2.isFileLocalParam_eq]
  unfold ofConstructor
  generalize c.paramGroups = gs, d.paramGroups = hs at hgroups
  cases hgroups with
  | nil => rfl
  | cons hg hlater =>
    refine congrArg₂ (· ++ ·) (Param.map_eq_of_alike (fun p q h => ?_) hg)
      (Param.map_eq_of_alike (fun p q h => ?_) (List.rel_flatten hlater))
    · exact ofParam_eq h (hfirst h)
    · exact ofParam_eq h h.2.isFileLocalParam_eq

theorem ofParameters_eq (src : List Char) {t u : Tree} (h : t.Uncommented u) :
    ofParameters src t = ofParameters src u := by
  have hgroups : List.Forall₂ (List.Forall₂ Param.Alike)
      ((t.children.filter (·.node.kind == "class_parameters")).map (Param.ofGroup src ·.children))
      ((u.children.filter (·.node.kind == "class_parameters")).map (Param.ofGroup src ·.children)) :=
    List.rel_map (fun _ _ hr => Param.ofGroup_alike src hr)
      (h.children.ofKind (show "class_parameters" ∉ _ by decide))
  have hcase : t.children.any (·.node.kind == "case") = u.children.any (·.node.kind == "case") := by
    rw [Bool.eq_iff_iff, List.any_eq_true, List.any_eq_true]
    refine h.children.exists_mem_iff (fun v hv => ?_) fun v w hvw => by rw [hvw.node_eq]
    simpa using hv.kind_ne (show "case" ∉ _ by decide)
  simp only [ofParameters, h.node_eq, h.children.inField?_eq "name"]
  split
  · cases inField? "name" u.children with
    | none => rfl
    | some name =>
      refine ofConstructor_eq_of_alike ?_ hcase hgroups
      exact (Modifier.ofChildren_alike src h.children).contains_implicit_eq
  · rfl

theorem own_eq (src : List Char) (scope : Option String) {t u : Tree} (h : t.Uncommented u) :
    own src scope t = own src scope u := by
  simp only [own, h.memberNames_eq, ofParameters_eq src h,
    (Modifier.ofChildren_alike src h.children).ofMember_eq]

theorem atLevel_comment (src : List Char) (level : Level) (scope : Option String) {t : Tree}
    (h : t.IsComment) : atLevel level scope (Decl.ofTree src t) = [] := by
  obtain ⟨n, cs⟩ := t
  have hs : Decl.Shape.ofKind n.kind = .other := by
    rcases List.mem_pair.mp h.1 with hk | hk
    · rw [show n.kind = "comment" from hk]
      rfl
    · rw [show n.kind = "block_comment" from hk]
      rfl
  rw [Decl.ofTree, hs]
  cases level <;> rfl

/-- One step of the walk after another, what is left out has no tags. -/
theorem atLevel_eq (src : List Char) (level : Level) (scope : Option String) {t u : Tree}
    (h : t.Uncommented u) :
    atLevel level scope (Decl.ofTree src t) = atLevel level scope (Decl.ofTree src u) := by
  induction level, t using Tree.namesAt.induct generalizing scope u with
  | case1 level t ih =>
    rw [atLevel_ofTree, atLevel_ofTree, stepped, stepped, own_eq src _ h, ← h.node_eq, h.scope?_eq]
    refine congrArg _ ((h.statements level).flatMap_eq (fun v hv => ?_) fun v hv w hvw => ?_)
    · exact atLevel_comment src _ _ hv
    · exact ih ⟨v, hv⟩ _ hvw

/-- Leaving out comments does not change the tags of a source. -/
theorem ofTree_uncommented {root root' : Tree} (h : root.Uncommented root') (src : List Char) :
    ofTree src root = ofTree src root' := by
  rw [ofTree_eq_flatMap, ofTree_eq_flatMap]
  refine h.children.named.flatMap_eq (fun t ht => ?_) fun t _ u htu => ?_
  · exact atLevel_comment src .package none ht
  · exact atLevel_eq src .package none htu

/-- A comment among modifiers, and one that is the first named child of a tuple. -/
theorem ofTree_uncommented_tuple :
    let src := "private /* c */ final class A \x7b val (/* d */ a, b) = t \x7d".toList
    let node (kind : String) (isNamed : Bool) (field : Option String) (start stop : Nat)
        (cs : List Tree) : Tree :=
      .mk ⟨kind, isNamed, false, false, false, field, start, stop, 0, start⟩ cs
    let comment (start stop : Nat) : Tree :=
      node "block_comment" true none start stop
        [node "/*" false none start (start + 2) [], node "*/" false none (stop - 3) stop []]
    let modifiers (comments : List Tree) : Tree :=
      node "modifiers" true none 0 21
        (node "access_modifier" true none 0 7 [] :: comments ++ [node "final" false none 16 21 []])
    let pattern (comments : List Tree) : Tree :=
      node "tuple_pattern" true (some "pattern") 36 50
        (node "(" false none 36 37 [] :: comments ++ [node "identifier" true none 45 46 [],
          node "," false none 46 47 [], node "identifier" true none 48 49 [],
          node ")" false none 49 50 []])
    let value (comments : List Tree) : Tree :=
      node "val_definition" true none 32 54 [node "val" false none 32 35 [], pattern comments,
        node "=" false none 51 52 [], node "identifier" true (some "value") 53 54 []]
    let body (comments : List Tree) : Tree :=
      node "template_body" true (some "body") 30 56 [value comments]
    let cls (first second : List Tree) : Tree :=
      node "class_definition" true none 0 56 [modifiers first, node "class" false none 22 27 [],
        node "identifier" true (some "name") 28 29 [], body second]
    let root (first second : List Tree) : Tree :=
      node "compilation_unit" true none 0 56 [cls first second]
    let full := root [comment 8 15] [comment 37 44]
    full.Uncommented (root [] []) ∧ ofTree src full = ofTree src (root [] []) ∧
      (ofTree src full).map (fun tag => (tag.fullName, tag.isLocal)) =
        [("A", true), ("a", false), ("b", false)] := by
  intro src node comment modifiers pattern value body cls root full
  have hcomment (start stop : Nat) : (comment start stop).IsComment :=
    ⟨List.mem_cons_of_mem _ List.mem_cons_self, rfl⟩
  have hmodifiers : (modifiers [comment 8 15]).Uncommented (modifiers []) :=
    .mk (.keep (.refl _) (.skip (hcomment 8 15) nofun (.refl _ _))) fun _ _ => nofun
  have hpattern : (pattern [comment 37 44]).Uncommented (pattern []) :=
    .mk (.keep (.refl _) (.skip (hcomment 37 44) nofun (.refl _ _))) nofun
  have hvalue : (value [comment 37 44]).Uncommented (value []) :=
    .mk (.keep (.refl _) (.keep hpattern (.refl _ _))) nofun
  have hbody : (body [comment 37 44]).Uncommented (body []) := .mk (.keep hvalue .nil) nofun
  have hcls : (cls [comment 8 15] [comment 37 44]).Uncommented (cls [] []) :=
    .mk (.keep hmodifiers (.keep (.refl _) (.keep (.refl _) (.keep hbody .nil)))) nofun
  have h : full.Uncommented (root [] []) := .mk (.keep hcls .nil) nofun
  refine ⟨h, ofTree_uncommented h src, ?_⟩
  rw [ofTree_uncommented h src]
  decide +kernel

end Tag

end TagIndex
