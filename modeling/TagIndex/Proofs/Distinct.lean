import Mathlib.Data.List.Flatten
import Mathlib.Data.List.Perm.Subperm
import TagIndex.Proofs.Selection

/-!
# No node is tagged twice

The walk over a tree reaches children by their role, by their kind and by their place, so two
selections of one node can overlap. That no node is selected twice is stated with `<+~`: the
selected nodes are a permutation of some of the nodes of the tree.

- `children_subperm`: the name, the parameters and the body of a declaration do not overlap. The
  one thing that can be both in a body and a parameter is a node that declares nothing.
- `namesAt_subperm`: what a walk selects are distinct nodes of the tree that it starts from.
- `Tag.Origins`: a map from tags to nodes that takes distinct plain tags to distinct nodes.
- `exists_origins`: the tags of every tree have origins in it.
-/

namespace TagIndex

open scoped List

theorem subperm_flatMap_right {α β : Type} {f g : α → List β} {l : List α}
    (h : ∀ a ∈ l, f a <+~ g a) : l.flatMap f <+~ l.flatMap g := by
  induction l with
  | nil => exact .refl _
  | cons a l ih =>
    rw [List.flatMap_cons, List.flatMap_cons]
    exact (h a List.mem_cons_self).append (ih fun b hb => h b (List.mem_cons_of_mem a hb))

theorem subperm_flatMap_left {α β : Type} {l l' : List α} (h : l <+~ l') (f : α → List β) :
    l.flatMap f <+~ l'.flatMap f := by
  obtain ⟨k, hperm, hsub⟩ := h
  exact ⟨k.flatMap f, hperm.flatMap_right f, hsub.flatMap f⟩

theorem flatMap_filter_of_eq_nil {α β : Type} {f : α → List β} {p : α → Bool} (l : List α)
    (h : ∀ a, p a = false → f a = []) : (l.filter p).flatMap f = l.flatMap f := by
  induction l with
  | nil => rfl
  | cons a l ih =>
    cases hp : p a with
    | true => rw [List.filter_cons_of_pos hp, List.flatMap_cons, List.flatMap_cons, ih]
    | false =>
      rw [List.filter_cons_of_neg (by simp [hp]), List.flatMap_cons, h a hp, ih, List.nil_append]

theorem toList_sublist {α : Type} {o : Option α} {l : List α} (h : ∀ a, o = some a → a ∈ l) :
    o.toList <+ l := by
  cases o with
  | none => exact List.nil_sublist l
  | some a => exact List.singleton_sublist.mpr (h a rfl)

namespace Tree

theorem preorder_eq (t : Tree) : t.preorder = t.node :: t.children.flatMap preorder := by
  obtain ⟨n, cs⟩ := t
  rw [preorder, preorderAll_eq_flatMap, node_mk, children_mk]

theorem children_subperm_preorder (t : Tree) :
    t.children.flatMap preorder <+~ t.preorder := by
  rw [preorder_eq]
  exact .cons_self

theorem node_sublist_preorder (t : Tree) : [t.node] <+ t.preorder := by
  rw [preorder_eq]
  exact List.singleton_sublist.mpr List.mem_cons_self

theorem map_node_sublist (ts : List Tree) : ts.map node <+ ts.flatMap preorder := by
  rw [List.map_eq_flatMap]
  exact .flatMap_right ts fun t _ => t.node_sublist_preorder

/-- The nodes below `cs` are the roots of `cs` and the nodes below their children. -/
theorem flatMap_preorder_perm (cs : List Tree) :
    cs.map node ++ (cs.flatMap children).flatMap preorder ~ cs.flatMap preorder := by
  rw [List.map_eq_flatMap, List.flatMap_assoc]
  rw [show cs.flatMap preorder = cs.flatMap fun t => [t.node] ++ t.children.flatMap preorder from
    List.flatMap_congr fun t _ => t.preorder_eq]
  exact List.flatMap_append_perm cs _ _

theorem inField?_toList_sublist (field : String) (cs : List Tree) :
    (inField? field cs).toList <+ cs.map node := by
  refine toList_sublist fun n hn => ?_
  obtain ⟨t, ht, rfl⟩ := Option.map_eq_some_iff.mp hn
  exact List.mem_map_of_mem (List.mem_of_find?_eq_some ht)

/-! ### Patterns -/

/-- A child plays at most one role. -/
theorem firstIn?_append_subperm {f g : String} (hne : f ≠ g) (cs : List Tree) :
    (firstIn? f cs).toList ++ (firstIn? g cs).toList <+~ cs := by
  have hf : (firstIn? f cs).toList <+ cs.filter (·.node.field == some f) :=
    toList_sublist fun t ht => List.mem_filter.mpr
      ⟨mem_of_firstIn? ht, beq_iff_eq.mpr (field_of_firstIn? ht)⟩
  have hg : (firstIn? g cs).toList <+ cs.filter (!·.node.field == some f) := by
    refine toList_sublist fun t ht => List.mem_filter.mpr ⟨mem_of_firstIn? ht, ?_⟩
    simp [field_of_firstIn? ht, hne.symm]
  exact (hf.append hg).subperm.trans (List.filter_append_perm _ cs).subperm

theorem subpatterns_subperm (t : Tree) : t.subpatterns <+~ t.children := by
  simp only [subpatterns]
  split
  · refine (toList_sublist fun u hu => ?_).subperm
    rcases Option.or_eq_some_iff.mp hu with hu | ⟨-, hu⟩
    · exact mem_of_firstIn? hu
    · exact mem_of_firstNamed? hu
  · exact (toList_sublist fun u hu => mem_of_firstNamed? hu).subperm
  · exact List.filter_sublist.subperm
  · exact firstIn?_append_subperm (by decide) _
  · split
    · exact ((List.drop_sublist 1 _).trans List.filter_sublist).subperm
    · exact List.filter_sublist.subperm
  · split
    · exact (toList_sublist fun u hu => mem_of_firstIn? hu).subperm
    · exact List.nil_subperm
  · exact List.nil_subperm

theorem name_append_pattern_subperm (cs : List Tree) :
    (inField? "name" cs).toList ++ (firstIn? "pattern" cs).toList.flatMap preorder <+~
      cs.flatMap preorder := by
  rw [inField?_eq_map, Option.toList_map]
  have hname := map_node_sublist (firstIn? "name" cs).toList
  have hboth := subperm_flatMap_left (firstIn?_append_subperm (by decide) cs :
    (firstIn? "name" cs).toList ++ (firstIn? "pattern" cs).toList <+~ cs) preorder
  rw [List.flatMap_append] at hboth
  exact (hname.append_right _).subperm.trans hboth

/-- The binder of a pattern lies outside its parts. -/
theorem ownBinders_append_subperm (src : List Char) (top : Bool) (t : Tree) :
    t.ownBinders src top ++ t.subpatterns.flatMap preorder <+~ t.preorder := by
  simp only [ownBinders]
  split
  next hk =>
    have hparts : t.subpatterns = [] := by simp [subpatterns, hk]
    rw [hparts, List.flatMap_nil, List.append_nil]
    split
    · exact t.node_sublist_preorder.subperm
    · exact List.nil_subperm
  next hk =>
    have hparts : t.subpatterns <+ (firstIn? "pattern" t.children).toList := by
      simp only [subpatterns, hk]
      split
      · exact .refl _
      · exact List.nil_sublist _
    exact (((hparts.flatMap preorder).append_left _).subperm.trans
      (name_append_pattern_subperm _)).trans t.children_subperm_preorder
  next =>
    exact (subperm_flatMap_left t.subpatterns_subperm _).trans t.children_subperm_preorder

theorem binders_subperm (src : List Char) (top : Bool) (t : Tree) :
    t.binders src top <+~ t.preorder := by
  induction top, t using binders.induct with
  | case1 top t ih =>
    rw [binders_eq]
    exact ((List.subperm_append_left _).mpr
      (subperm_flatMap_right fun u hu => ih ⟨u, hu⟩)).trans (t.ownBinders_append_subperm src top)

theorem definedNames_subperm (src : List Char) (t : Tree) :
    t.definedNames src <+~ t.preorder := by
  unfold definedNames
  split
  · have hsub : (named t.children).filter (·.node.kind == "identifier") <+ t.children :=
      List.filter_sublist.trans List.filter_sublist
    exact ((hsub.map node).trans (map_node_sublist _)).subperm.trans t.children_subperm_preorder
  · exact t.binders_subperm src true

/-! ### Declarations -/

theorem bodyStatements_sublist (cs : List Tree) : bodyStatements cs <+ cs.flatMap children := by
  have hbody : (body? cs).elim [] children <+ cs.flatMap children := by
    cases hb : body? cs with
    | none => exact List.nil_sublist _
    | some b =>
      rw [Option.elim_some, ← List.flatMap_singleton children b]
      exact (List.singleton_sublist.mpr (mem_of_body? hb)).flatMap children
  exact List.filter_sublist.trans hbody

theorem parameterNames_subperm (cs : List Tree) :
    parameterNames cs <+~
      ((cs.flatMap children).filter isParameter).flatMap preorder := by
  have heq : parameterNames cs = (((cs.filter (·.node.kind == "class_parameters")).flatMap
      children).filter isParameter).flatMap fun p => (inField? "name" p.children).toList := by
    rw [List.filter_flatMap, List.flatMap_assoc]
    exact List.flatMap_congr fun group _ => List.filterMap_eq_flatMap_toList _ _
  rw [heq]
  refine (subperm_flatMap_right fun p _ => ?_).trans
    (((List.filter_sublist.flatMap children).filter _).flatMap preorder).subperm
  exact ((inField?_toList_sublist _ _).trans (map_node_sublist _)).subperm.trans
    p.children_subperm_preorder

/-- The name, the parameters and the body of a declaration do not overlap, but for nodes that can
only be parameters. -/
theorem children_subperm (cs : List Tree) :
    (inField? "name" cs).toList ++ (parameterNames cs ++
      ((bodyStatements cs).filter (!isParameter ·)).flatMap preorder) <+~
        cs.flatMap preorder := by
  -- parameters and statements are both children of children; the names are children
  have hbody := (((bodyStatements_sublist cs).filter (!isParameter ·)).flatMap preorder).subperm
  have hinner := (parameterNames_subperm cs).append hbody
  rw [← List.flatMap_append] at hinner
  have hsplit :=
    ((List.filter_append_perm isParameter (cs.flatMap children)).flatMap_right preorder).subperm
  exact ((inField?_toList_sublist "name" cs).subperm.append (hinner.trans hsplit)).trans
    (flatMap_preorder_perm cs).subperm

theorem parts_subperm {cs inner : List Tree} {own : List Node}
    (hown : own <+ (inField? "name" cs).toList ++ parameterNames cs)
    (hin : inner <+ bodyStatements cs) :
    own ++ (inner.filter (!isParameter ·)).flatMap preorder <+~ cs.flatMap preorder := by
  have h := (hown.append ((hin.filter (!isParameter ·)).flatMap preorder)).subperm
  rw [List.append_assoc] at h
  exact h.trans (children_subperm cs)

/-- The names that a declaration declares itself lie outside the declarations inside it. -/
theorem ownNames_append_subperm (src : List Char) (level : Level) (t : Tree) :
    t.ownNames src ++ ((t.statements level).filter (!isParameter ·)).flatMap preorder <+~
      t.children.flatMap preorder := by
  have hwalk := walk_spec src t
  have hin := statements_sublist level t
  cases hs : Decl.Shape.ofKind t.node.kind <;> rw [hs] at hwalk
  case package => exact parts_subperm (by rw [hwalk.1]; exact List.nil_sublist _) hin
  case template kind =>
    exact parts_subperm (by rw [hwalk.1]; exact List.sublist_append_left ..) hin
  case cls =>
    refine parts_subperm ?_ hin
    rw [hwalk.1]
    cases inField? "name" t.children <;> simp
  case member kind =>
    exact parts_subperm (by rw [hwalk.1]; exact List.sublist_append_left ..) hin
  case definition =>
    rw [hwalk.1, hwalk.2, List.filter_nil, List.flatMap_nil, List.append_nil]
    exact (subperm_flatMap_right fun u _ => u.definedNames_subperm src).trans
      (List.filter_sublist.flatMap preorder).subperm
  case declaration =>
    rw [hwalk.1, hwalk.2, List.filter_nil, List.flatMap_nil, List.append_nil]
    exact ((List.filter_sublist.map node).trans (map_node_sublist t.children)).subperm
  case other => exact parts_subperm (by rw [hwalk.1]; exact List.nil_sublist _) hin

theorem namesAt_of_isParameter {src : List Char} {level : Level} {t : Tree}
    (h : isParameter t = true) : t.namesAt src level = [] := by
  have hk : t.node.kind = "class_parameter" := beq_iff_eq.mp h
  rw [namesAt_eq]
  simp [ownNames, statements, hk]

/-- A walk selects distinct nodes of the tree that it starts from. -/
theorem namesAt_subperm (src : List Char) (level : Level) (t : Tree) :
    t.namesAt src level <+~ t.preorder := by
  induction level, t using namesAt.induct with
  | case1 level t ih =>
    -- a parameter may be visited again as a statement of the body, but selects nothing there
    rw [namesAt_eq, ← flatMap_filter_of_eq_nil (p := (!isParameter ·))
      (t.statements level) fun u hu => namesAt_of_isParameter (by simpa using hu)]
    have hin := subperm_flatMap_right (l := (t.statements level).filter (!isParameter ·))
      fun u hu => ih ⟨u, (List.mem_filter.mp hu).1⟩
    exact (((List.subperm_append_left _).mpr hin).trans
      (t.ownNames_append_subperm src level)).trans t.children_subperm_preorder

theorem declaredNames_subperm (src : List Char) (root : Tree) :
    root.declaredNames src <+~ root.preorder :=
  ((subperm_flatMap_right fun t _ => t.namesAt_subperm src .package).trans
    (List.filter_sublist.flatMap preorder).subperm).trans root.children_subperm_preorder

end Tree

/-! ### Tags -/

namespace Tag

def isPlain (t : Tag) : Bool :=
  t.qualifier.isNone

/-- The number of plain tags in front of a place. -/
def plainBefore (tags : List Tag) (i : Nat) : Nat :=
  (tags.take i).countP isPlain

theorem plainBefore_cons_succ (tag : Tag) (tags : List Tag) (i : Nat) :
    plainBefore (tag :: tags) (i + 1) = plainBefore tags i + if tag.isPlain then 1 else 0 := by
  rw [plainBefore, List.take_succ_cons, List.countP_cons]
  rfl

theorem plainBefore_succ {tags : List Tag} {i : Nat} {tag : Tag} (h : tags[i]? = some tag) :
    plainBefore tags (i + 1) = plainBefore tags i + if tag.isPlain then 1 else 0 := by
  rw [plainBefore, List.take_add_one, h, List.countP_append, Option.toList_some,
    List.countP_singleton]
  rfl

theorem plainBefore_lt {tags : List Tag} {i j : Nat} {tag : Tag} (h : tags[i]? = some tag)
    (hplain : tag.isPlain = true) (hlt : i < j) : plainBefore tags i < plainBefore tags j := by
  have hmono : plainBefore tags (i + 1) ≤ plainBefore tags j :=
    (List.take_sublist_take_left hlt).countP_le
  rw [plainBefore_succ h, if_pos hplain] at hmono
  omega

/-- A map that takes each tag to the node that it is the tag of. Distinct plain tags come from
distinct nodes, and a qualified tag from the node of the plain tag after it. -/
structure Origins (src : List Char) (tags : List Tag) (nodes : List Node)
    (node : Fin tags.length → Fin nodes.length) : Prop where
  name : ∀ i, (tags.get i).name =
    String.ofList (Name.unquote ((nodes.get (node i)).text src))
  position : ∀ i, (tags.get i).position = (nodes.get (node i)).position src
  injective : ∀ i j, (tags.get i).isPlain = true → (tags.get j).isPlain = true →
    node i = node j → i = j
  twin : ∀ i : Fin tags.length, (tags.get i).isPlain = false → ∃ h : i.val + 1 < tags.length,
    (tags.get ⟨i.val + 1, h⟩).isPlain = true ∧ node ⟨i.val + 1, h⟩ = node i

/-- Nodes of a part are nodes of the whole. -/
theorem Origins.subperm {src : List Char} {tags : List Tag} {nodes all : List Node}
    {node : Fin tags.length → Fin nodes.length} (h : Origins src tags nodes node)
    (hsub : nodes <+~ all) : Origins src tags all (hsub.idxInj ∘ node) := by
  have hget (i : Fin nodes.length) : all.get (hsub.idxInj i) = nodes.get i :=
    hsub.getElem_idxInj_eq_getElem
  refine ⟨?_, ?_, ?_, ?_⟩
  · intro i
    rw [Function.comp_apply, hget, h.name i]
  · intro i
    rw [Function.comp_apply, hget, h.position i]
  · intro i j hi hj heq
    exact h.injective i j hi hj (hsub.idxInj_injective heq)
  · intro i hi
    obtain ⟨hlt, hplain, hnode⟩ := h.twin i hi
    exact ⟨hlt, hplain, congrArg hsub.idxInj hnode⟩

end Tag

namespace Tagged

variable {names : List Name} {tags : List Tag}

/-- In front of a tag and its name there are as many plain tags as names. -/
theorem getElem?_plainBefore (h : Tagged names tags) {i : Nat} {tag : Tag}
    (hi : tags[i]? = some tag) :
    ∃ name, names[Tag.plainBefore tags i]? = some name ∧ tag.name = name.value ∧
      tag.position = name.position := by
  induction h generalizing i with
  | nil => cases hi
  | plain name isLocal _ ih =>
    cases i with
    | zero => cases hi; exact ⟨name, rfl, rfl, rfl⟩
    | succ i => rw [Tag.plainBefore_cons_succ]; exact ih hi
  | paired name isLocal q _ ih =>
    match i with
    | 0 => cases hi; exact ⟨name, rfl, rfl, rfl⟩
    | 1 => cases hi; exact ⟨name, rfl, rfl, rfl⟩
    | i + 2 => rw [Tag.plainBefore_cons_succ, Tag.plainBefore_cons_succ]; exact ih hi

theorem getElem?_succ (h : Tagged names tags) {i : Nat} {tag : Tag} (hi : tags[i]? = some tag)
    (hq : tag.isPlain = false) : ∃ next, tags[i + 1]? = some next ∧ next.isPlain = true := by
  induction h generalizing i with
  | nil => cases hi
  | plain name isLocal _ ih =>
    cases i with
    | zero => cases hi; cases hq
    | succ i => exact ih hi
  | paired name isLocal q _ ih =>
    match i with
    | 0 => exact ⟨_, rfl, rfl⟩
    | 1 => cases hi; cases hq
    | i + 2 => exact ih hi

theorem origins {src : List Char} {nodes : List Node}
    (h : Tagged (nodes.map (Name.ofNode src)) tags) : ∃ node, Tag.Origins src tags nodes node := by
  have hnode (i : Fin tags.length) : ∃ n, nodes[Tag.plainBefore tags i]? = some n ∧
      (tags.get i).name = (Name.ofNode src n).value ∧
      (tags.get i).position = (Name.ofNode src n).position := by
    obtain ⟨name, hname, hval⟩ := h.getElem?_plainBefore (List.getElem?_eq_getElem i.isLt)
    rw [List.getElem?_map, Option.map_eq_some_iff] at hname
    obtain ⟨n, hn, rfl⟩ := hname
    exact ⟨n, hn, hval⟩
  have hbound (i : Fin tags.length) : Tag.plainBefore tags i < nodes.length := by
    obtain ⟨n, hn, -⟩ := hnode i
    exact (List.getElem?_eq_some_iff.mp hn).1
  refine ⟨fun i => ⟨Tag.plainBefore tags i, hbound i⟩, ?_, ?_, ?_, ?_⟩
  · intro i
    obtain ⟨n, hn, hname, -⟩ := hnode i
    rw [hname, List.get_eq_getElem, (List.getElem?_eq_some_iff.mp hn).2]
    rfl
  · intro i
    obtain ⟨n, hn, -, hpos⟩ := hnode i
    rw [hpos, List.get_eq_getElem, (List.getElem?_eq_some_iff.mp hn).2]
    rfl
  · intro i j hi hj heq
    have heq : Tag.plainBefore tags i = Tag.plainBefore tags j := congrArg Fin.val heq
    rcases Nat.lt_trichotomy i j with hlt | hij | hlt
    · have := Tag.plainBefore_lt (List.getElem?_eq_getElem i.isLt) hi hlt
      omega
    · exact Fin.ext hij
    · have := Tag.plainBefore_lt (List.getElem?_eq_getElem j.isLt) hj hlt
      omega
  · intro i hi
    obtain ⟨next, hnext, hplain⟩ := h.getElem?_succ (List.getElem?_eq_getElem i.isLt) hi
    obtain ⟨hlt, rfl⟩ := List.getElem?_eq_some_iff.mp hnext
    refine ⟨hlt, hplain, Fin.ext ?_⟩
    show Tag.plainBefore tags (i + 1) = Tag.plainBefore tags i
    rw [Tag.plainBefore_succ (List.getElem?_eq_getElem i.isLt)]
    simp_all

end Tagged

/-- Every tag comes from a node of the tree, and no node has two plain tags. -/
theorem exists_origins (src : List Char) (root : Tree) :
    ∃ node, Tag.Origins src (Tag.ofTree src root) root.preorder node := by
  have htagged : Tagged ((root.declaredNames src).map (Name.ofNode src)) (Tag.ofTree src root) := by
    rw [Tag.ofTree_eq_flatMap, Tree.declaredNames, List.map_flatMap]
    exact .flatMap _ fun t _ => Tag.tagged_namesAt src .package none t
  obtain ⟨node, hnode⟩ := htagged.origins
  exact ⟨_, hnode.subperm (root.declaredNames_subperm src)⟩

end TagIndex
