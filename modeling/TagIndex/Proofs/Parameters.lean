import TagIndex.Proofs.Blocks
import TagIndex.Proofs.ScopedPrivate

/-!
# The tags of constructor parameters

A named parameter of a class has one plain tag. Whether it is file-local is told in four places: the
class and its first group, the modifiers and marks of the parameter, the keyword of its group, and
the rules of locality. Here it is read off the tree of the class at once.

- `Tree.parameters`: the named parameters of a class, each with its group.
- `Tree.Parameter.IsLocal`: what makes one of them file-local.
- `Tag.ofConstructor_ofChildren`: the tags of the parameters of a class.
- `Visit.tags_class`: a class has these tags wherever it stands, directly after its own.
-/

namespace TagIndex

namespace Tree

/-- A named constructor parameter, with the group that it stands in. -/
structure Parameter where
  /-- The number of the group, counted from zero. -/
  index : Nat
  group : Tree
  tree : Tree
  name : Node

def groupParameters (group : Tree) (index : Nat) : List Parameter :=
  (group.children.filter isParameter).filterMap fun p =>
    (inField? "name" p.children).map fun name => { index, group, tree := p, name }

def parameters (cls : Tree) : List Parameter :=
  (cls.children.filter (·.node.kind == "class_parameters")).zipIdx.flatMap fun (group, i) =>
    group.groupParameters i

/-- Whether a node of this kind stands directly below. -/
def Has (t : Tree) (kind : String) : Prop :=
  ∃ c ∈ t.children, c.node.kind = kind

instance (t : Tree) (kind : String) : Decidable (t.Has kind) :=
  inferInstanceAs (Decidable (∃ c ∈ t.children, c.node.kind = kind))

namespace Parameter

/-- The parameter that an implicit class wraps. -/
def IsWrapped (cls : Tree) (p : Parameter) : Prop :=
  p.index = 0 ∧ ∃ m ∈ Modifier.nodes cls.children, m.kind = "implicit"

def IsPrivate (src : List Char) (p : Parameter) : Prop :=
  ∃ m ∈ Modifier.nodes p.tree.children, m.kind = "access_modifier" ∧
    Modifier.ofAccess (m.text src) ∈ [.privateTo none, .privateTo (some "this")]

/-- A parameter that nothing makes a field. In a case class all of the first group are fields. -/
def IsArgument (cls : Tree) (p : Parameter) : Prop :=
  Modifier.nodes p.tree.children = [] ∧ ¬p.tree.Has "val" ∧ ¬p.tree.Has "var" ∧
    ¬p.group.Has "implicit" ∧ ¬p.group.Has "using" ∧ ¬(p.index = 0 ∧ cls.Has "case")

/-- Whether a parameter of the class `cls` is of use in its own file only. -/
def IsLocal (src : List Char) (cls : Tree) (p : Parameter) : Prop :=
  p.IsWrapped cls ∨ p.IsPrivate src ∨ p.IsArgument cls

instance (cls : Tree) (p : Parameter) : Decidable (p.IsWrapped cls) :=
  inferInstanceAs (Decidable (_ ∧ _))

instance (src : List Char) (p : Parameter) : Decidable (p.IsPrivate src) :=
  inferInstanceAs (Decidable (∃ m ∈ _, _))

instance (cls : Tree) (p : Parameter) : Decidable (p.IsArgument cls) :=
  inferInstanceAs (Decidable (_ ∧ _))

instance (src : List Char) (cls : Tree) (p : Parameter) : Decidable (p.IsLocal src cls) :=
  inferInstanceAs (Decidable (_ ∨ _))

end Parameter

end Tree

/-! ### Modifiers of a parameter -/

namespace Modifier

theorem ofAccess_ne_implicit (text : List Char) : ofAccess text ≠ .implicit := by
  simp only [ofAccess]
  split
  · simp
  · split <;> simp

theorem ofNode_eq_implicit_iff {src : List Char} {n : Node} :
    ofNode src n = .implicit ↔ n.kind = "implicit" := by
  unfold ofNode
  split <;> simp_all [ofAccess_ne_implicit]

theorem ofNode_eq_privateTo_iff {src : List Char} {n : Node} {q : Option String} :
    ofNode src n = .privateTo q ↔
      n.kind = "access_modifier" ∧ ofAccess (n.text src) = .privateTo q := by
  unfold ofNode
  split <;> simp_all

/-- Outside all scopes only `private` and `private[this]` hide. -/
theorem hides_ofNode {src : List Char} {n : Node} :
    (ofNode src n).hides none = true ↔ n.kind = "access_modifier" ∧
      ofAccess (n.text src) ∈ [.privateTo none, .privateTo (some "this")] := by
  simp only [hides_iff_mem, List.mem_cons, List.not_mem_nil, or_false, ofNode_eq_privateTo_iff,
    ← and_or_left]
  grind

end Modifier

namespace Tree.Parameter

/-- All modifiers of a parameter: its own, its marks and the keyword of its group. -/
def modifiers (src : List Char) (p : Parameter) : List Modifier :=
  Modifier.ofChildren src p.tree.children ++
    p.tree.children.filterMap (Param.fieldModifier? ·.node.kind) ++
    (p.group.children.filterMap (Param.groupModifier? ·.node.kind)).getLast?.toList

/-- The parameter as it is read. -/
def param (src : List Char) (p : Parameter) : Param :=
  { name := Name.ofNode src p.name, modifiers := p.modifiers src }

theorem filterMap_kind_eq_nil_iff {f : String → Option Modifier} {a b : String}
    (hf : ∀ kind, f kind = none ↔ kind ≠ a ∧ kind ≠ b) (t : Tree) :
    t.children.filterMap (f ·.node.kind) = [] ↔ ¬t.Has a ∧ ¬t.Has b := by
  simp only [List.filterMap_eq_nil_iff, hf, Has, not_exists, not_and]
  exact ⟨fun h => ⟨fun c hc => (h c hc).1, fun c hc => (h c hc).2⟩,
    fun h c hc => ⟨h.1 c hc, h.2 c hc⟩⟩

theorem fieldModifier?_eq_none_iff (kind : String) :
    Param.fieldModifier? kind = none ↔ kind ≠ "val" ∧ kind ≠ "var" := by
  unfold Param.fieldModifier?
  split <;> simp_all

theorem groupModifier?_eq_none_iff (kind : String) :
    Param.groupModifier? kind = none ↔ kind ≠ "implicit" ∧ kind ≠ "using" := by
  unfold Param.groupModifier?
  split <;> simp_all

theorem modifiers_eq_nil_iff (src : List Char) (p : Parameter) :
    p.modifiers src = [] ↔ Modifier.nodes p.tree.children = [] ∧ ¬p.tree.Has "val" ∧
      ¬p.tree.Has "var" ∧ ¬p.group.Has "implicit" ∧ ¬p.group.Has "using" := by
  rw [modifiers, List.append_eq_nil_iff, List.append_eq_nil_iff, Option.toList_eq_nil_iff,
    List.getLast?_eq_none_iff, filterMap_kind_eq_nil_iff fieldModifier?_eq_none_iff,
    filterMap_kind_eq_nil_iff groupModifier?_eq_none_iff, Modifier.ofChildren_eq_map,
    List.map_eq_nil_iff, and_assoc, and_assoc]

/-- Neither a mark nor the keyword of a group hides anything. -/
theorem mem_ofChildren_of_hides {src : List Char} {p : Parameter} {scope : Option String}
    {m : Modifier} (hm : m ∈ p.modifiers src) (hhides : m.hides scope = true) :
    m ∈ Modifier.ofChildren src p.tree.children := by
  rcases List.mem_append.mp hm with hm | hm
  · rcases List.mem_append.mp hm with hm | hm
    · exact hm
    · obtain ⟨c, -, hc⟩ := List.mem_filterMap.mp hm
      unfold Param.fieldModifier? at hc
      split at hc <;> cases hc <;> cases hhides
  · obtain ⟨c, -, hc⟩ :=
      List.mem_filterMap.mp (List.mem_of_getLast? (Option.mem_toList.mp hm))
    unfold Param.groupModifier? at hc
    split at hc <;> cases hc <;> cases hhides

theorem isFileLocal_modifiers_iff (src : List Char) (p : Parameter) :
    isFileLocal none (p.modifiers src) = true ↔ p.IsPrivate src := by
  have hown : isFileLocal none (p.modifiers src) =
      isFileLocal none (Modifier.ofChildren src p.tree.children) :=
    isFileLocal_congr fun m hhides => ⟨fun hm => mem_ofChildren_of_hides hm hhides,
      fun hm => List.mem_append_left _ (List.mem_append_left _ hm)⟩
  rw [hown, isFileLocal_iff_hides, Modifier.ofChildren_eq_map, IsPrivate]
  simp only [List.mem_map, exists_exists_and_eq_and, Modifier.hides_ofNode]

theorem isImplicit_ofChildren (src : List Char) (name : Name) (cs : List Tree) :
    (ClassHead.ofChildren src name cs).isImplicit = true ↔
      ∃ m ∈ Modifier.nodes cs, m.kind = "implicit" := by
  rw [ClassHead.isImplicit, ClassHead.ofChildren, List.contains_iff_mem,
    Modifier.ofChildren_eq_map, List.mem_map]
  simp only [Modifier.ofNode_eq_implicit_iff]

theorem isLocalParam_iff {src : List Char} {cls : Tree} {p : Parameter} {name : Name} :
    (ClassHead.ofChildren src name cls.children).isLocalParam p.index (p.param src) = true ↔
      p.IsLocal src cls := by
  have himplicit := isImplicit_ofChildren src name cls.children
  have hcase : (ClassHead.ofChildren src name cls.children).isCase = true ↔ cls.Has "case" := by
    simp [ClassHead.ofChildren, Has]
  have hprivate := isFileLocal_modifiers_iff src p
  have hempty := modifiers_eq_nil_iff src p
  have hparam : isFileLocalParam (p.modifiers src) = true ↔
      p.modifiers src = [] ∨ isFileLocal none (p.modifiers src) = true := by
    rw [isFileLocalParam, Bool.or_eq_true, List.isEmpty_iff]
  simp only [ClassHead.isLocalParam, Tag.isLocalFirst, param, IsLocal, IsWrapped, IsArgument]
  grind

end Tree.Parameter

theorem Param.ofGroup_eq_map (src : List Char) (group : Tree) (i : Nat) :
    Param.ofGroup src group.children = (group.groupParameters i).map (·.param src) := by
  simp only [Param.ofGroup, Tree.groupParameters, Param.ofTree?, List.map_filterMap,
    Option.map_map]
  rfl

theorem Tree.index_of_mem_groupParameters {group : Tree} {i : Nat} {p : Parameter}
    (h : p ∈ group.groupParameters i) : p.index = i := by
  obtain ⟨t, -, ht⟩ := List.mem_filterMap.mp h
  obtain ⟨name, -, rfl⟩ := Option.map_eq_some_iff.mp ht
  rfl

/-! ### Tags -/

namespace Tag

theorem ofConstructor_eq_flatMap (c : ClassHead) :
    ofConstructor c = c.paramGroups.zipIdx.flatMap fun (group, i) =>
      group.map fun p => ofParam (c.isLocalParam i p) p := by
  rw [← ClassHead.flatMap_block_parameters none, ClassHead.parameters, List.flatMap_assoc]
  simp only [Declared.flatMap_block_params]

def ofParameter (src : List Char) (cls : Tree) (p : Tree.Parameter) : Tag :=
  plain (decide (p.IsLocal src cls)) (Name.ofNode src p.name)

theorem ofParam_param (src : List Char) (cls : Tree) (name : Name) (p : Tree.Parameter) :
    ofParam ((ClassHead.ofChildren src name cls.children).isLocalParam p.index (p.param src))
      (p.param src) = ofParameter src cls p := by
  have hlocal : (ClassHead.ofChildren src name cls.children).isLocalParam p.index (p.param src) =
      decide (p.IsLocal src cls) := by
    rw [Bool.eq_iff_iff, Tree.Parameter.isLocalParam_iff, decide_eq_true_iff]
  rw [hlocal]
  rfl

/-- The constructor tags of a class are those of its named parameters. -/
theorem ofConstructor_ofChildren (src : List Char) (cls : Tree) (name : Name) :
    ofConstructor (ClassHead.ofChildren src name cls.children) =
      cls.parameters.map (ofParameter src cls) := by
  have hgroups : (ClassHead.ofChildren src name cls.children).paramGroups =
      (cls.children.filter (·.node.kind == "class_parameters")).map
        (Param.ofGroup src ·.children) := rfl
  rw [ofConstructor_eq_flatMap, hgroups, List.zipIdx_map, List.flatMap_map, Tree.parameters,
    List.map_flatMap]
  refine List.flatMap_congr fun (group, i) _ => ?_
  show (Param.ofGroup src group.children).map _ = _
  rw [Param.ofGroup_eq_map src group i, List.map_map]
  refine List.map_congr_left fun p hp => ?_
  rw [← ofParam_param src cls name p, Tree.index_of_mem_groupParameters hp]
  rfl

end Tag

namespace Visit

/-- A class with a name has one plain tag for each named constructor parameter, in their order. They
come directly after the tags of the class itself, and what is around the class has no say in them:
all that is read is the tree of the class. -/
theorem tags_class (src : List Char) {cls : Tree} {name : Node}
    (hkind : cls.node.kind = "class_definition")
    (hname : Tree.inField? "name" cls.children = some name) :
    let own scope :=
      Tag.ofMember scope (Name.ofNode src name) (Modifier.ofChildren src cls.children)
    let parameters := cls.parameters.map fun p =>
      Tag.plain (decide (p.IsLocal src cls)) (Name.ofNode src p.name)
    (∃ inner, ∀ scope,
      Tag.ofDecl scope (Decl.ofTree src cls) = own scope ++ parameters ++ inner) ∧
    ∀ root before owner after, root.visits = before ++ ⟨owner, cls⟩ :: after →
      Tag.ofTree src root = before.flatMap (tags src) ++
        (own (scope src ⟨owner, cls⟩) ++ parameters) ++ after.flatMap (tags src) := by
  intro own parameters
  have hparameters : Tag.ofParameters src cls = parameters := by
    rw [Tag.ofParameters, hkind, hname]
    exact Tag.ofConstructor_ofChildren src cls (Name.ofNode src name)
  have hown scope : Tag.own src scope cls = own scope ++ parameters := by
    rw [Tag.own, hparameters, Tree.memberNames, hkind, hname]
    simp [own]
  constructor
  · refine ⟨(cls.statements .template).flatMap fun u =>
      Tag.atLevel .template none (Decl.ofTree src u), fun scope => ?_⟩
    have hscope : cls.scope? src = none := by simp [Tree.scope?, hkind]
    have hbelow : Tree.Level.template.below cls.node.kind = .template := by rw [hkind]; rfl
    have hstep := Tag.atLevel_ofTree src .template scope cls
    rw [Tag.stepped, hscope, hbelow, hown] at hstep
    exact hstep
  · intro root before owner after hvisits
    rw [Tag.ofTree_eq_append hvisits]
    exact congrArg (_ ++ · ++ _) (hown (scope src ⟨owner, cls⟩))

/-- A case class in an object: the parameter of its second group is no field. -/
theorem tags_class_nested :
    let src := "object O \x7b case class P(x: A, private val y: A)(z: A) \x7d".toList
    let parameter (start stop : Nat) (cs : List Tree) : Tree :=
      .mk (.plain "class_parameter" none start stop) cs
    let group (start stop : Nat) (cs : List Tree) : Tree :=
      .mk (.plain "class_parameters" (some "class_parameters") start stop) cs
    let name : Node := .plain "identifier" (some "name") 22 23
    let cls : Tree :=
      .mk (.plain "class_definition" none 11 53)
        [.token "case" 11 15, .token "class" 16 21, .mk name [],
          group 23 47 [.token "(" 23 24,
            parameter 24 28 [.leaf "identifier" "name" 24 25, .token ":" 25 26,
              .leaf "type_identifier" "type" 27 28],
            .token "," 28 29,
            parameter 30 46 [
              .mk (.plain "modifiers" none 30 37) [.mk (.plain "access_modifier" none 30 37) []],
              .token "val" 38 41, .leaf "identifier" "name" 42 43, .token ":" 43 44,
              .leaf "type_identifier" "type" 45 46],
            .token ")" 46 47],
          group 47 53 [.token "(" 47 48,
            parameter 48 52 [.leaf "identifier" "name" 48 49, .token ":" 49 50,
              .leaf "type_identifier" "type" 51 52],
            .token ")" 52 53]]
    let o : Tree :=
      .mk (.plain "object_definition" none 0 55)
        [.token "object" 0 6, .leaf "identifier" "name" 7 8,
          .mk (.plain "template_body" (some "body") 9 55) [cls]]
    let root : Tree := .mk (.plain "compilation_unit" none 0 55) [o]
    let tag (qualifier : Option String) (name : String) (isLocal : Bool) (column : UInt32) : Tag :=
      { qualifier, name, isLocal, position := ⟨1, column⟩ }
    root.visits = [⟨none, o⟩, ⟨some o, cls⟩] ∧
      Tag.ofTree src root = [tag none "O" false 8, tag (some "O") "P" false 23,
        tag none "P" false 23, tag none "x" false 25, tag none "y" true 43,
        tag none "z" true 49] := by
  intro src parameter group name cls o root tag
  have hvisits : root.visits = [⟨none, o⟩] ++ ⟨some o, cls⟩ :: [] := by
    simp [root, o, cls, name, group, parameter, Tree.leaf, Tree.token, Node.plain, Tree.visits,
      Tree.named, List.filter_cons, Tree.visitsFrom_eq, Tree.statements, Tree.inField?,
      Tree.ownerInside, Tree.bodyStatements, Tree.body?, Tree.firstIn?]
  refine ⟨hvisits, ?_⟩
  rw [(tags_class src rfl (rfl : Tree.inField? "name" cls.children = some name)).2 root
    [⟨none, o⟩] (some o) [] hvisits]
  decide +kernel

end Visit

end TagIndex
