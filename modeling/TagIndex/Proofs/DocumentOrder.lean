import TagIndex.Proofs.Distinct
import TagIndex.Proofs.Naming
import TagIndex.Proofs.Positions

/-!
# Tags come in document order

The walk over a tree takes the name of a declaration, then its parameters, then its body, and it
takes the parts of a pattern from left to right. Where the parser lays its trees out along the
source, and a declaration has its parts in that order, the plain tags stand in the order of their
positions.

- `Node.Chain`: nodes that stand one after the other between two offsets.
- `Tree.LaidOut`: the layout that the parser promises.
- `Tree.binders_chain`, `Tree.namesAt_chain`: what a walk selects below a node is a chain inside it.
- `positions_inOrder`: the positions of the plain tags of a source.
-/

namespace TagIndex

open scoped List

namespace Node

/-! ### Chains -/

/-- The nodes stand one after the other between the offsets `lo` and `hi`. -/
def Chain : Nat → List Node → Nat → Prop
  | lo, [], hi => lo ≤ hi
  | lo, n :: ns, hi => lo ≤ n.start ∧ n.start ≤ n.stop ∧ Chain n.stop ns hi

instance Chain.decidable : (lo : Nat) → (ns : List Node) → (hi : Nat) → Decidable (Chain lo ns hi)
  | lo, [], hi => inferInstanceAs (Decidable (lo ≤ hi))
  | lo, n :: ns, hi =>
    have := Chain.decidable n.stop ns hi
    inferInstanceAs (Decidable (lo ≤ n.start ∧ n.start ≤ n.stop ∧ Chain n.stop ns hi))

namespace Chain

theorem le {lo hi : Nat} {ns : List Node} (h : Chain lo ns hi) : lo ≤ hi := by
  induction ns generalizing lo with
  | nil => exact h
  | cons n ns ih =>
    obtain ⟨hlo, hspan, hns⟩ := h
    have hle := ih hns
    omega

theorem mono {lo lo' hi : Nat} {ns : List Node} (hle : lo' ≤ lo) (h : Chain lo ns hi) :
    Chain lo' ns hi := by
  cases ns with
  | nil => exact Nat.le_trans hle h
  | cons n ns =>
    obtain ⟨hlo, hspan, hns⟩ := h
    exact ⟨Nat.le_trans hle hlo, hspan, hns⟩

theorem append {lo mid hi : Nat} {ms ns : List Node} (hms : Chain lo ms mid)
    (hns : Chain mid ns hi) : Chain lo (ms ++ ns) hi := by
  induction ms generalizing lo with
  | nil => exact hns.mono hms
  | cons m ms ih =>
    obtain ⟨hlo, hspan, hms⟩ := hms
    exact ⟨hlo, hspan, ih hms⟩

theorem exists_of_append {lo hi : Nat} {ms ns : List Node} (h : Chain lo (ms ++ ns) hi) :
    ∃ mid, Chain lo ms mid ∧ Chain mid ns hi := by
  induction ms generalizing lo with
  | nil => exact ⟨lo, Nat.le_refl lo, h⟩
  | cons m ms ih =>
    obtain ⟨hlo, hspan, h⟩ := h
    obtain ⟨mid, hms, hns⟩ := ih h
    exact ⟨mid, ⟨hlo, hspan, hms⟩, hns⟩

/-- A chain stays one when nodes are left out. -/
theorem sublist {lo hi : Nat} {ms ns : List Node} (hsub : ms <+ ns) (h : Chain lo ns hi) :
    Chain lo ms hi := by
  induction hsub generalizing lo with
  | slnil => exact h
  | cons n _ ih =>
    obtain ⟨hlo, hspan, h⟩ := h
    exact (ih h).mono (by omega)
  | cons_cons n _ ih =>
    obtain ⟨hlo, hspan, h⟩ := h
    exact ⟨hlo, hspan, ih h⟩

/-- A chain stays one when each node is replaced by a chain inside it. -/
theorem flatMap {lo hi : Nat} {ts : List Tree} {f : Tree → List Node}
    (h : Chain lo (ts.map Tree.node) hi)
    (hf : ∀ t ∈ ts, Chain t.node.start (f t) t.node.stop) : Chain lo (ts.flatMap f) hi := by
  induction ts generalizing lo with
  | nil => exact h
  | cons t ts ih =>
    obtain ⟨hlo, -, h⟩ := h
    rw [List.flatMap_cons]
    have ht := hf t List.mem_cons_self
    have hts := ih h fun u hu => hf u (List.mem_cons_of_mem t hu)
    exact (ht.mono hlo).append hts

theorem append_flatMap {lo hi : Nat} {ms : List Node} {ts : List Tree} {f : Tree → List Node}
    (h : Chain lo (ms ++ ts.map Tree.node) hi)
    (hf : ∀ t ∈ ts, Chain t.node.start (f t) t.node.stop) :
    Chain lo (ms ++ ts.flatMap f) hi := by
  obtain ⟨mid, hms, hts⟩ := h.exists_of_append
  exact hms.append (hts.flatMap hf)

theorem start_ge {lo hi : Nat} {ns : List Node} (h : Chain lo ns hi) {n : Node} (hn : n ∈ ns) :
    lo ≤ n.start := by
  induction ns generalizing lo with
  | nil => cases hn
  | cons m ns ih =>
    obtain ⟨hlo, hspan, h⟩ := h
    rcases List.mem_cons.mp hn with rfl | hn
    · exact hlo
    · have hge := ih h hn
      omega

theorem pairwise {lo hi : Nat} {ns : List Node} (h : Chain lo ns hi) :
    ns.Pairwise fun m n => m.start ≤ m.stop ∧ m.stop ≤ n.start := by
  induction ns generalizing lo with
  | nil => exact .nil
  | cons m ns ih =>
    obtain ⟨-, hspan, h⟩ := h
    exact .cons (fun n hn => ⟨hspan, h.start_ge hn⟩) (ih h)

end Chain

end Node

/-! ### The layout of a tree -/

namespace Tree

mutual

def subtrees : Tree → List Tree
  | mk n cs => mk n cs :: subtreesAll cs

def subtreesAll : List Tree → List Tree
  | [] => []
  | t :: ts => t.subtrees ++ subtreesAll ts

end

theorem self_mem_subtrees (t : Tree) : t ∈ t.subtrees := by
  obtain ⟨n, cs⟩ := t
  rw [subtrees]
  exact List.mem_cons_self

theorem subtreesAll_eq_flatMap (ts : List Tree) : subtreesAll ts = ts.flatMap subtrees := by
  induction ts with
  | nil => rfl
  | cons t ts ih => rw [subtreesAll, ih, List.flatMap_cons]

theorem subtrees_eq (t : Tree) : t.subtrees = t :: t.children.flatMap subtrees := by
  obtain ⟨n, cs⟩ := t
  rw [subtrees, subtreesAll_eq_flatMap, children_mk]

theorem mem_subtrees_of_mem_children {t u v : Tree} (hu : u ∈ t.children) (hv : v ∈ u.subtrees) :
    v ∈ t.subtrees := by
  rw [subtrees_eq]
  exact List.mem_cons_of_mem t (List.mem_flatMap.mpr ⟨u, hu, hv⟩)

/-- The parts of a node that the grammar puts in a fixed order: name, parameters and body of a
declaration, the two sides of an operator, name and pattern of a capture. -/
def orderedParts (t : Tree) : List Tree :=
  let cs := t.children
  match t.node.kind with
  | "package_object" | "object_definition" | "trait_definition" | "class_definition" =>
    (firstIn? "name" cs).toList ++ cs.filter (·.node.kind == "class_parameters") ++
      (body? cs).toList
  | "infix_pattern" => (firstIn? "left" cs).toList ++ (firstIn? "right" cs).toList
  | "capture_pattern" => (firstIn? "name" cs).toList ++ (firstIn? "pattern" cs).toList
  | _ => []

/-- The children of a node stand in order inside it, and so do its parts. -/
structure Tidy (t : Tree) : Prop where
  children : Node.Chain t.node.start (t.children.map node) t.node.stop
  parts : Node.Chain t.node.start (t.orderedParts.map node) t.node.stop

theorem tidy_iff {t : Tree} :
    t.Tidy ↔ Node.Chain t.node.start (t.children.map node) t.node.stop ∧
      Node.Chain t.node.start (t.orderedParts.map node) t.node.stop :=
  ⟨fun h => ⟨h.children, h.parts⟩, fun h => ⟨h.1, h.2⟩⟩

instance (t : Tree) : Decidable t.Tidy :=
  decidable_of_iff _ tidy_iff.symm

/-- A tree that is laid out along its source. Every node has the place of its first byte, and the
parser counts bytes with 32 bits. -/
structure LaidOut (src : List Char) (root : Tree) : Prop where
  tidy : ∀ t ∈ root.subtrees, t.Tidy
  placed : ∀ n ∈ root.preorder, n.Placed src
  counted : ∀ n ∈ root.preorder, n.start + 1 < UInt32.size

theorem Tidy.child {t u : Tree} (h : ∀ v ∈ t.subtrees, v.Tidy) (hu : u ∈ t.children) :
    ∀ v ∈ u.subtrees, v.Tidy :=
  fun v hv => h v (mem_subtrees_of_mem_children hu hv)

namespace Tidy

variable {t : Tree} (h : t.Tidy)
include h

theorem self : Node.Chain t.node.start [t.node] t.node.stop :=
  ⟨Nat.le_refl _, h.children.le, Nat.le_refl _⟩

/-- Some of the children, in their order. -/
theorem some_children {us : List Tree} (hus : us <+ t.children) :
    Node.Chain t.node.start (us.map node) t.node.stop :=
  h.children.sublist (hus.map node)

theorem inField? (field : String) :
    Node.Chain t.node.start (Tree.inField? field t.children).toList t.node.stop :=
  h.children.sublist (inField?_toList_sublist field t.children)

/-! ### Patterns -/

theorem subpatterns : Node.Chain t.node.start (t.subpatterns.map node) t.node.stop := by
  have hparts := h.parts
  simp only [Tree.subpatterns]
  split
  case h_1 =>
    refine h.some_children (toList_sublist fun u hu => ?_)
    rcases Option.or_eq_some_iff.mp hu with hu | ⟨-, hu⟩
    · exact mem_of_firstIn? hu
    · exact mem_of_firstNamed? hu
  case h_2 => exact h.some_children (toList_sublist fun u hu => mem_of_firstNamed? hu)
  case h_3 => exact h.some_children List.filter_sublist
  case h_4 hk => simpa only [orderedParts, hk] using hparts
  case h_5 =>
    split
    · exact h.some_children ((List.drop_sublist 1 _).trans List.filter_sublist)
    · exact h.some_children List.filter_sublist
  case h_6 =>
    split
    · exact h.some_children (toList_sublist fun u hu => mem_of_firstIn? hu)
    · exact h.some_children (List.nil_sublist _)
  case h_7 => exact h.some_children (List.nil_sublist _)

/-- The binder of a pattern stands before its parts. -/
theorem ownBinders (src : List Char) (top : Bool) :
    Node.Chain t.node.start (t.ownBinders src top ++ t.subpatterns.map node) t.node.stop := by
  have hparts := h.parts
  have hsub := h.subpatterns
  simp only [Tree.ownBinders]
  split
  next hk =>
    have hnone : t.subpatterns = [] := by simp [Tree.subpatterns, hk]
    rw [hnone, List.map_nil, List.append_nil]
    split
    · exact h.self
    · exact h.children.le
  next hk =>
    have hpart : t.subpatterns <+ (firstIn? "pattern" t.children).toList := by
      simp only [Tree.subpatterns, hk]
      split
      · exact .refl _
      · exact List.nil_sublist _
    simp only [orderedParts, hk, List.map_append] at hparts
    rw [inField?_eq_map, Option.toList_map]
    exact hparts.sublist ((hpart.map node).append_left _)
  next => exact hsub

end Tidy

/-- What a pattern binds is a chain inside it. -/
theorem binders_chain (src : List Char) (top : Bool) {t : Tree} (h : ∀ u ∈ t.subtrees, u.Tidy) :
    Node.Chain t.node.start (t.binders src top) t.node.stop := by
  induction top, t using binders.induct with
  | case1 top t ih =>
    rw [binders_eq]
    refine ((h t t.self_mem_subtrees).ownBinders src top).append_flatMap fun u hu => ?_
    exact ih ⟨u, hu⟩ (Tidy.child h (mem_children_of_mem_subpatterns hu))

theorem definedNames_chain (src : List Char) {t : Tree} (h : ∀ u ∈ t.subtrees, u.Tidy) :
    Node.Chain t.node.start (t.definedNames src) t.node.stop := by
  unfold definedNames
  split
  · exact (h t t.self_mem_subtrees).some_children (List.filter_sublist.trans List.filter_sublist)
  · exact binders_chain src true h

/-! ### Declarations -/

theorem parameterNames_chain {g : Tree} (h : ∀ u ∈ g.subtrees, u.Tidy) :
    Node.Chain g.node.start
      ((g.children.filter isParameter).filterMap fun p => inField? "name" p.children)
      g.node.stop := by
  rw [List.filterMap_eq_flatMap_toList]
  refine ((h g g.self_mem_subtrees).some_children List.filter_sublist).flatMap fun p hp => ?_
  have hp : p ∈ g.children := (List.mem_filter.mp hp).1
  exact (Tidy.child h hp p p.self_mem_subtrees).inField? "name"

theorem bodyStatements_eq_flatMap (cs : List Tree) :
    bodyStatements cs = (body? cs).toList.flatMap fun b => named b.children := by
  unfold bodyStatements
  cases body? cs with
  | none => rfl
  | some b => exact (List.flatMap_singleton ..).symm

/-- What the walk goes on to inside a declaration stands in its body. -/
theorem bodyStatements_chain {t : Tree} {lo hi : Nat} (h : ∀ u ∈ t.subtrees, u.Tidy)
    (hbody : Node.Chain lo ((body? t.children).toList.map node) hi) :
    Node.Chain lo ((bodyStatements t.children).map node) hi := by
  rw [bodyStatements_eq_flatMap, List.map_flatMap]
  refine hbody.flatMap fun b hb => ?_
  have hb := mem_of_body? (Option.mem_toList.mp hb)
  exact (Tidy.child h hb b b.self_mem_subtrees).some_children List.filter_sublist

/-- Name, parameters and body of a declaration, each replaced by what the walk selects in it. -/
theorem declaration_chain {t : Tree} (h : ∀ u ∈ t.subtrees, u.Tidy)
    (hparts : t.orderedParts = (firstIn? "name" t.children).toList ++
      t.children.filter (·.node.kind == "class_parameters") ++ (body? t.children).toList) :
    Node.Chain t.node.start ((inField? "name" t.children).toList ++
      (parameterNames t.children ++ (bodyStatements t.children).map node)) t.node.stop := by
  have hchain := (h t t.self_mem_subtrees).parts
  rw [hparts, List.append_assoc, List.map_append, List.map_append] at hchain
  obtain ⟨mid, hname, hrest⟩ := hchain.exists_of_append
  obtain ⟨mid', hgroups, hbody⟩ := hrest.exists_of_append
  rw [inField?_eq_map, Option.toList_map]
  have hparams : Node.Chain mid (parameterNames t.children) mid' := by
    refine hgroups.flatMap fun g hg => parameterNames_chain ?_
    exact Tidy.child h (List.mem_filter.mp hg).1
  exact hname.append (hparams.append (bodyStatements_chain h hbody))

/-- The names that a declaration declares itself stand before the declarations inside it. -/
theorem ownNames_chain (src : List Char) (level : Level) {t : Tree}
    (h : ∀ u ∈ t.subtrees, u.Tidy) :
    Node.Chain t.node.start (t.ownNames src ++ (t.statements level).map node) t.node.stop := by
  have htidy := h t t.self_mem_subtrees
  have hstatements := (statements_sublist level t).map node
  have hk := Decl.Shape.ofKind_spec t.node.kind
  have hwalk := walk_spec src t
  cases hs : Decl.Shape.ofKind t.node.kind <;> rw [hs] at hk hwalk
  case package =>
    have hbody : (body? t.children).toList <+ t.children :=
      toList_sublist fun b hb => mem_of_body? hb
    rw [hwalk.1, List.nil_append]
    exact (bodyStatements_chain h (htidy.some_children hbody)).sublist hstatements
  case template kind =>
    have hparts := declaration_chain h (by cases kind <;> simp [orderedParts, hk])
    rw [hwalk.1]
    refine hparts.sublist (List.Sublist.append_left ?_ _)
    exact hstatements.trans (List.sublist_append_right ..)
  case cls =>
    have hparts := declaration_chain h (by simp [orderedParts, hk])
    rw [← List.append_assoc] at hparts
    refine hparts.sublist (List.Sublist.append ?_ hstatements)
    rw [hwalk.1]
    cases inField? "name" t.children <;> simp
  case member kind =>
    rw [hwalk.1, hwalk.2, List.map_nil, List.append_nil]
    exact htidy.inField? "name"
  case definition =>
    rw [hwalk.1, hwalk.2, List.map_nil, List.append_nil]
    refine (htidy.some_children List.filter_sublist).flatMap fun u hu => ?_
    exact definedNames_chain src (Tidy.child h (List.mem_filter.mp hu).1)
  case declaration =>
    rw [hwalk.1, hwalk.2, List.map_nil, List.append_nil]
    exact htidy.some_children List.filter_sublist
  case other =>
    rw [hwalk.1, hwalk.2]
    exact htidy.children.le

theorem Tidy.statement {level : Level} {t u : Tree} (h : ∀ v ∈ t.subtrees, v.Tidy)
    (hu : u ∈ t.statements level) : ∀ v ∈ u.subtrees, v.Tidy := by
  have hu := (statements_sublist level t).subset hu
  rw [bodyStatements_eq_flatMap, List.mem_flatMap] at hu
  obtain ⟨b, hb, hu⟩ := hu
  have hbody := Tidy.child h (mem_of_body? (Option.mem_toList.mp hb))
  exact Tidy.child hbody (List.mem_filter.mp hu).1

/-- The names that a walk meets from a node on are a chain inside it. -/
theorem namesAt_chain (src : List Char) (level : Level) {t : Tree}
    (h : ∀ u ∈ t.subtrees, u.Tidy) :
    Node.Chain t.node.start (t.namesAt src level) t.node.stop := by
  induction level, t using namesAt.induct with
  | case1 level t ih =>
    rw [namesAt_eq]
    exact (ownNames_chain src level h).append_flatMap fun u hu =>
      ih ⟨u, hu⟩ (Tidy.statement h hu)

theorem declaredNames_chain (src : List Char) {root : Tree} (h : ∀ t ∈ root.subtrees, t.Tidy) :
    Node.Chain root.node.start (root.declaredNames src) root.node.stop := by
  have hroot := h root root.self_mem_subtrees
  refine (hroot.some_children List.filter_sublist).flatMap fun t ht => ?_
  exact namesAt_chain src .package (Tidy.child h (List.mem_filter.mp ht).1)

end Tree

/-! ### Positions -/

namespace Node

theorem start_lt_stop_of_text {src : List Char} {n : Node} (h : n.text src ≠ []) :
    n.start < n.stop := by
  apply Nat.lt_of_not_le
  intro hle
  apply h
  rw [text, Text.slice?]
  split
  · rw [show n.stop - n.start = 0 by omega]
    cases Text.dropBytes n.start src with
    | none => rfl
    | some cs => exact congrArg (Option.getD · []) (Text.takeBytes.eq_1 cs)
  · rfl

namespace Placed

variable {src : List Char} {m n : Node}

theorem position_eq (hm : m.Placed src) (hn : n.Placed src) (h : m.start = n.start) :
    m.position src = n.position src := by
  have hplace : (m.row, m.column) = (n.row, n.column) := by
    rw [hm.place, hn.place, h]
  obtain ⟨hrow, hcolumn⟩ := Prod.mk.inj hplace
  rw [position, position, charColumn, charColumn, h, hrow, hcolumn]

theorem compare_eq_lt (hm : m.Placed src) (hn : n.Placed src) (hcount : n.start + 1 < UInt32.size)
    (h : m.start < n.start) : compare (m.position src) (n.position src) = .lt := by
  obtain ⟨before, hbefore⟩ := hm.exists_follows
  obtain ⟨longer, hlonger⟩ := hn.exists_follows
  have hm := hbefore.isPlace_of_start (by omega)
  have hn := hlonger.isPlace_of_start hcount
  refine hm.compare_eq_lt hn (Text.place_lt_of_length_lt hbefore.isPrefix hlonger.isPrefix ?_)
  rwa [hbefore.start, hlonger.start]

end Placed

end Node

/-- A name with its tag comes before another one: their positions are in order, and they differ if
the first of them has any text. -/
def Tag.Precedes (src : List Char) (a b : Tag × Node) : Prop :=
  (compare a.1.position b.1.position).isLE = true ∧
    (a.2.text src ≠ [] → compare a.1.position b.1.position = .lt)

/-- The plain tags of some names are one for each name. -/
theorem Tagged.map_toName_filter {names : List Name} {tags : List Tag} (h : Tagged names tags) :
    (tags.filter Tag.isPlain).map Tag.toName = names := by
  induction h with
  | nil => rfl
  | plain name isLocal _ ih =>
    rw [List.filter_cons_of_pos rfl, List.map_cons, ih]
    rfl
  | paired name isLocal q _ ih =>
    rw [List.filter_cons_of_neg (by simp [Tag.isPlain]),
      List.filter_cons_of_pos rfl, List.map_cons, ih]
    rfl

theorem Tag.pairwise_precedes {src : List Char} {lo hi : Nat} {tags : List Tag}
    {nodes : List Node} (htags : tags.map toName = nodes.map (Name.ofNode src))
    (h : Node.Chain lo nodes hi)
    (hplaced : ∀ n ∈ nodes, n.Placed src ∧ n.start + 1 < UInt32.size) :
    (tags.zip nodes).Pairwise (Precedes src) := by
  have hlength : tags.length = nodes.length := by simpa using congrArg List.length htags
  have hfst : (tags.zip nodes).map Prod.fst = tags := List.map_fst_zip hlength.le
  have hsnd : (tags.zip nodes).map Prod.snd = nodes := List.map_snd_zip hlength.ge
  have hnames : (tags.zip nodes).map (toName ∘ Prod.fst) =
      (tags.zip nodes).map (Name.ofNode src ∘ Prod.snd) := by
    rw [← List.map_map, hfst, ← List.map_map, hsnd, htags]
  have hposition : ∀ a ∈ tags.zip nodes, a.1.position = a.2.position src := fun a ha =>
    congrArg Name.position (List.map_inj_left.mp hnames a ha)
  have hnodes := h.pairwise
  rw [← hsnd, List.pairwise_map] at hnodes
  refine hnodes.imp_of_mem fun {a b} ha hb ⟨hspan, hnext⟩ => ?_
  obtain ⟨hplacedA, -⟩ := hplaced a.2 (hsnd ▸ List.mem_map_of_mem ha)
  obtain ⟨hplacedB, hcount⟩ := hplaced b.2 (hsnd ▸ List.mem_map_of_mem hb)
  have hlt (hstart : a.2.start < b.2.start) : compare a.1.position b.1.position = .lt := by
    rw [hposition a ha, hposition b hb]
    exact hplacedA.compare_eq_lt hplacedB hcount hstart
  constructor
  · rcases Nat.lt_or_eq_of_le (Nat.le_trans hspan hnext) with hstart | hstart
    · rw [hlt hstart]
      rfl
    · rw [hposition a ha, hposition b hb, hplacedA.position_eq hplacedB hstart]
      exact Std.ReflCmp.isLE_rfl
  · intro htext
    have hstart := Node.start_lt_stop_of_text htext
    exact hlt (by omega)

/-- The plain tags of a source are in document order. They are the tags of the declared names of its
tree, one by one, and each stands before the next, or at the same place if it has no text. -/
theorem positions_inOrder {src : List Char} {root : Tree} (h : root.LaidOut src) :
    let plain := (Tag.ofTree src root).filter Tag.isPlain
    let nodes := root.declaredNames src
    plain.map Tag.toName = nodes.map (Name.ofNode src) ∧ nodes <+~ root.preorder ∧
      (plain.zip nodes).Pairwise (Tag.Precedes src) := by
  intro plain nodes
  have hsub : nodes <+~ root.preorder := root.declaredNames_subperm src
  have htags : plain.map Tag.toName = nodes.map (Name.ofNode src) := by
    have htagged := Tagged.flatMap (Tree.named root.children) fun t _ =>
      Tag.tagged_namesAt src .package none t
    rw [← Tag.ofTree_eq_flatMap, ← List.map_flatMap] at htagged
    exact htagged.map_toName_filter
  refine ⟨htags, hsub, Tag.pairwise_precedes htags (root.declaredNames_chain src h.tidy) ?_⟩
  intro n hn
  have hn := hsub.subset hn
  exact ⟨h.placed n hn, h.counted n hn⟩

/-- A class with a parameter and a pattern in its body, on two lines and with a character of two
bytes. -/
theorem positions_inOrder_class :
    let src := "class C(é: Int) \x7b\n  val h :: t = x\n\x7d".toList
    let atLine (row start : Nat) (t : Tree) : Tree :=
      .mk { t.node with row, column := t.node.start - start } t.children
    let parameter : Tree :=
      .mk (.plain "class_parameter" none 8 15)
        [.leaf "identifier" "name" 8 10, .token ":" 10 11, .leaf "type_identifier" "type" 12 15]
    let pattern : Tree :=
      .mk (.plain "infix_pattern" (some "pattern") 25 31)
        [atLine 1 19 (.leaf "identifier" "left" 25 26),
          atLine 1 19 (.leaf "operator_identifier" "operator" 27 29),
          atLine 1 19 (.leaf "identifier" "right" 30 31)]
    let value : Tree :=
      .mk (.plain "val_definition" none 21 35)
        [atLine 1 19 (.token "val" 21 24), atLine 1 19 pattern, atLine 1 19 (.token "=" 32 33),
          atLine 1 19 (.leaf "identifier" "value" 34 35)]
    let body : Tree :=
      .mk (.plain "template_body" (some "body") 17 37)
        [.token "\x7b" 17 18, atLine 1 19 value, atLine 2 36 (.token "\x7d" 36 37)]
    let root : Tree :=
      .mk (.plain "compilation_unit" none 0 37)
        [.mk (.plain "class_definition" none 0 37)
          [.token "class" 0 5, .leaf "identifier" "name" 6 7,
            .mk (.plain "class_parameters" (some "class_parameters") 7 16)
              [.token "(" 7 8, parameter, .token ")" 15 16],
            body]]
    let plain := (Tag.ofTree src root).filter Tag.isPlain
    root.LaidOut src ∧ plain.map Tag.position = [⟨1, 7⟩, ⟨1, 9⟩, ⟨2, 7⟩, ⟨2, 12⟩] ∧
      (plain.zip (root.declaredNames src)).Pairwise (Tag.Precedes src) := by
  intro src atLine parameter pattern value body root plain
  have hlaid : root.LaidOut src := ⟨by decide +kernel, by decide +kernel, by decide +kernel⟩
  exact ⟨hlaid, by decide +kernel, (positions_inOrder hlaid).2.2⟩

end TagIndex
