import TagIndex.Proofs.Locality
import TagIndex.Proofs.Naming
import TagIndex.Proofs.Visits

/-!
# Members that are private to the object around them

The name of an object is read twice: as the scope of its members, and in the modifier of a member
that is private to it. The two readings differ in what they do with blanks. The scope keeps those
between backticks, and the modifier drops them all.

- `Modifier.ofAccess_bracketed`: how an access modifier with a bracket is read.
- `Name.unquote_compact_eq_iff`: when the two readings of a name are the same.
- `Visit.memberTags_scopedPrivate`: a member with `private[t]` in an object `t` is file-local,
  unless `t` has a blank in it.
-/

namespace TagIndex

namespace Name

/-- A text that a name can have: without a closing bracket, or anything between backticks. -/
def IsToken (text : List Char) : Prop :=
  ']' ∉ text ∨ ∃ inner, text = '\x60' :: (inner ++ ['\x60'])

theorem IsToken.getLast?_compact {text : List Char} (h : IsToken text) :
    (text.filter (!Text.isBlank ·)).getLast? ≠ some ']' := by
  rcases h with h | ⟨inner, rfl⟩
  · intro hlast
    exact h (List.mem_filter.mp (List.mem_of_getLast? hlast)).1
  · have hquote : Text.isBlank '\x60' = false := by decide
    simp only [List.filter_cons, List.filter_append, List.filter_nil, hquote, Bool.not_false,
      if_true]
    rw [← List.cons_append, List.getLast?_concat]
    decide

/-- Dropping the blanks changes a name exactly if there are any. -/
theorem unquote_compact_eq_iff {text : List Char} :
    unquote (text.filter (!Text.isBlank ·)) = unquote text ↔
      ∀ c ∈ text, Text.isBlank c = false := by
  constructor
  · intro heq c hc
    by_contra hblank
    have hquote : c ≠ '\x60' := by
      rintro rfl
      exact hblank (by decide)
    rw [← mem_unquote_iff hquote, ← heq, mem_unquote_iff hquote, List.mem_filter] at hc
    simp [hblank] at hc
  · intro hall
    rw [List.filter_eq_self.mpr fun c hc => by simp [hall c hc]]

end Name

namespace Modifier

theorem scopeOfBracketed_concat {q : List Char} (hq : q.getLast? ≠ some ']') :
    scopeOfBracketed (q ++ [']']) = .ofList (Name.unquote q) := by
  have htrim : q.reverse.dropWhile (· = ']') = q.reverse := by
    cases hr : q.reverse with
    | nil => rfl
    | cons c rest =>
      rw [List.getLast?_eq_head?_reverse, hr] at hq
      exact List.dropWhile_cons_of_neg (by simpa using hq)
  rw [scopeOfBracketed, List.reverse_concat, List.dropWhile_cons_of_pos (by decide), htrim,
    List.reverse_reverse]

/-- An access modifier with a bracket. What it is qualified with keeps none of the blanks. -/
theorem ofAccess_bracketed {text word q : List Char} (hword : '[' ∉ word)
    (hq : q.getLast? ≠ some ']')
    (h : text.filter (!Text.isBlank ·) = word ++ '[' :: (q ++ [']'])) :
    ofAccess text =
      if String.ofList word = "private" then .privateTo (some (.ofList (Name.unquote q)))
      else if String.ofList word = "protected" then .protectedTo (some (.ofList (Name.unquote q)))
      else .other (.ofList word) := by
  have hbefore : ∀ c ∈ word, decide (c ≠ '[') = true := by
    intro c hc
    exact decide_eq_true fun heq => hword (heq ▸ hc)
  simp only [ofAccess, h]
  rw [List.takeWhile_append_of_pos hbefore, List.dropWhile_append_of_pos hbefore]
  simp [scopeOfBracketed_concat hq]

theorem ofAccess_private {t : List Char} (ht : Name.IsToken t) :
    ofAccess ("private[".toList ++ t ++ [']']) =
      .privateTo (some (.ofList (Name.unquote (t.filter (!Text.isBlank ·))))) := by
  have hword : "private[".toList.filter (!Text.isBlank ·) = "private[".toList := by decide +kernel
  have hclose : [']'].filter (!Text.isBlank ·) = [']'] := by decide
  have hopen : '[' ∉ "private".toList := by decide
  refine ofAccess_bracketed hopen ht.getLast?_compact ?_
  rw [List.filter_append, List.filter_append, hword, hclose, List.append_assoc]
  rfl

def nodes (cs : List Tree) : List Node :=
  cs.flatMap fun t =>
    match t.node.kind with
    | "modifiers" => t.children.map Tree.node
    | "access_modifier" => [t.node]
    | _ => []

theorem ofChildren_eq_map (src : List Char) (cs : List Tree) :
    ofChildren src cs = (nodes cs).map (ofNode src) := by
  rw [ofChildren, nodes, List.map_flatMap]
  refine List.flatMap_congr fun t _ => ?_
  by_cases hlist : t.node.kind = "modifiers"
  · simp [hlist]
  · by_cases haccess : t.node.kind = "access_modifier"
    · simp [haccess]
    · simp

end Modifier

namespace Visit

theorem memberTags_within {src : List Char} {root : Tree} {v : Visit} (h : v ∈ root.visits) :
    v.memberTags src <:+: Tag.ofTree src root := by
  obtain ⟨before, after, hsplit⟩ := List.append_of_mem h
  refine ⟨before.flatMap (tags src), Tag.ofParameters src v.tree ++ after.flatMap (tags src), ?_⟩
  rw [Tag.ofTree_eq_append hsplit, tags]
  simp only [List.append_assoc]

theorem isLocal_memberTags {src : List Char} {v : Visit} {tag : Tag}
    (h : tag ∈ v.memberTags src) : tag.isLocal = (v.modifiers src).any (·.hides (v.scope src)) := by
  obtain ⟨n, -, hn⟩ := List.mem_flatMap.mp h
  rw [← isFileLocal_eq_any]
  cases hs : v.scope src with
  | none =>
    rw [hs, Tag.ofMember] at hn
    rw [List.mem_singleton.mp hn]
  | some s =>
    rw [hs, Tag.ofMember] at hn
    obtain rfl | hn := List.mem_cons.mp hn
    · rfl
    · rw [List.mem_singleton.mp hn]

theorem scope_object {src : List Char} {o u : Tree} {name : Node}
    (hkind : o.node.kind = "object_definition" ∨ o.node.kind = "package_object")
    (hname : Tree.inField? "name" o.children = some name) :
    scope src ⟨some o, u⟩ = some (.ofList (Name.unquote (name.text src))) := by
  rcases hkind with hkind | hkind <;> simp [scope, Tree.scope?, hkind, hname, Name.ofNode]

/-- A member of an object `t` with the modifier `private[t]`. The modifier names the scope of the
member exactly if there is no blank in `t`, and then the member is file-local. Otherwise it is so
only for another reason. -/
theorem memberTags_scopedPrivate {src : List Char} {root o u : Tree} {name m : Node}
    (hvisit : ⟨some o, u⟩ ∈ root.visits)
    (hkind : o.node.kind = "object_definition" ∨ o.node.kind = "package_object")
    (hname : Tree.inField? "name" o.children = some name)
    (htoken : Name.IsToken (name.text src))
    (hmod : m ∈ Modifier.nodes u.children) (hmkind : m.kind = "access_modifier")
    (htext : m.text src = "private[".toList ++ name.text src ++ [']']) :
    let member : Visit := ⟨some o, u⟩
    let blankless := ∀ c ∈ name.text src, Text.isBlank c = false
    member.memberTags src <:+: Tag.ofTree src root ∧
    (Modifier.ofNode src m = .privateTo (member.scope src) ↔ blankless) ∧
    ∀ tag ∈ member.memberTags src, (tag.isLocal = true ↔
      blankless ∨ ∃ other ∈ member.modifiers src,
        other ∈ [.privateTo none, .privateTo (some "this"), .privateTo (member.scope src)]) := by
  intro member blankless
  have hscope : member.scope src = some (.ofList (Name.unquote (name.text src))) :=
    scope_object hkind hname
  have hread : Modifier.ofNode src m =
      .privateTo (some (.ofList (Name.unquote ((name.text src).filter (!Text.isBlank ·))))) := by
    rw [Modifier.ofNode, hmkind, htext]
    exact Modifier.ofAccess_private htoken
  have hagree : Modifier.ofNode src m = .privateTo (member.scope src) ↔ blankless := by
    rw [hread, hscope, Modifier.privateTo.injEq, Option.some.injEq, String.ofList_inj,
      Name.unquote_compact_eq_iff]
  refine ⟨memberTags_within hvisit, hagree, fun tag htag => ?_⟩
  have hmem : Modifier.ofNode src m ∈ member.modifiers src := by
    rw [modifiers, Modifier.ofChildren_eq_map]
    exact List.mem_map_of_mem hmod
  have hhides : ∀ other : Modifier, other.hides (member.scope src) = true ↔
      other ∈ [.privateTo none, .privateTo (some "this"), .privateTo (member.scope src)] := by
    rw [hscope]
    exact Modifier.hides_iff_mem _
  rw [isLocal_memberTags htag, List.any_eq_true]
  simp only [hhides]
  refine ⟨.inr, ?_⟩
  rintro (hblank | hother)
  · exact ⟨_, hmem, by simp [hagree.mpr hblank]⟩
  · exact hother

/-- A closing bracket between backticks. -/
theorem memberTags_scopedPrivate_bracket :
    let src := "object `a]` \x7b private[`a]`] def x = 1 \x7d".toList
    let name : Node := .plain "identifier" (some "name") 7 11
    let m : Node := .plain "access_modifier" none 14 27
    let u : Tree :=
      .mk (.plain "function_definition" none 14 37)
        [.mk (.plain "modifiers" none 14 27) [.mk m []],
          .token "def" 28 31, .leaf "identifier" "name" 32 33, .token "=" 34 35,
          .leaf "integer_literal" "body" 36 37]
    let o : Tree :=
      .mk (.plain "object_definition" none 0 39)
        [.token "object" 0 6, .mk name [],
          .mk (.plain "template_body" (some "body") 12 39) [u]]
    let root : Tree := .mk (.plain "compilation_unit" none 0 39) [o]
    ⟨some o, u⟩ ∈ root.visits ∧ m.text src = "private[`a]`]".toList ∧
      (memberTags src ⟨some o, u⟩).map (·.fullName) = ["a].x", "x"] ∧
      ∀ tag ∈ memberTags src ⟨some o, u⟩, tag.isLocal = true := by
  intro src name m u o root
  have hvisit : ⟨some o, u⟩ ∈ root.visits := by
    simp [root, o, u, name, m, Tree.leaf, Tree.token, Node.plain, Tree.visits, Tree.named,
      List.filter_cons, Tree.visitsFrom_eq, Tree.statements, Tree.inField?, Tree.ownerInside,
      Tree.bodyStatements, Tree.body?, Tree.firstIn?]
  have htext : m.text src = "private[`a]`]".toList := by decide +kernel
  have hname : name.text src = ['\x60', 'a', ']', '\x60'] := by decide +kernel
  refine ⟨hvisit, htext, ?_, fun tag htag => ?_⟩
  · rfl
  · have h := (memberTags_scopedPrivate hvisit (.inl rfl) (rfl : Tree.inField? "name" _ = some name)
      (.inr ⟨['a', ']'], hname⟩) (List.mem_cons_self : m ∈ [m]) rfl (by rw [htext, hname]; rfl)).2.2
    refine (h tag htag).mpr (.inl ?_)
    simp [hname, Text.isBlank, Text.blankBlocks]

/-- A blank between backticks: the member is private to the object and yet shown to other files. -/
theorem memberTags_scopedPrivate_blank :
    let src := "object `a b` \x7b private[`a b`] def x = 1 \x7d"
    let name : Node := .plain "identifier" (some "name") 7 12
    let m : Node := .plain "access_modifier" none 15 29
    let u : Tree :=
      .mk (.plain "function_definition" none 15 39)
        [.mk (.plain "modifiers" none 15 29) [.mk m []],
          .token "def" 30 33, .leaf "identifier" "name" 34 35, .token "=" 36 37,
          .leaf "integer_literal" "body" 38 39]
    let o : Tree :=
      .mk (.plain "object_definition" none 0 41)
        [.token "object" 0 6, .mk name [],
          .mk (.plain "template_body" (some "body") 13 41) [u]]
    let root : Tree := .mk (.plain "compilation_unit" none 0 41) [o]
    let ix : Indexer := { registry := .scala fun _ => .ok root, tolerant := false }
    let line (qualifier : Option String) (name : String) (column : UInt32) : TagLine :=
      { tag := { qualifier, name, isLocal := false, position := ⟨1, column⟩ }
        file := "T.scala", language := "scala" }
    name.text src.toList = "`a b`".toList ∧ m.text src.toList = "private[`a b`]".toList ∧
      ix.source "T.scala" src =
        .ok [line none "a b" 8, line (some "a b") "x" 35, line none "x" 35] := by
  intro src name m u o root ix line
  exact ⟨by decide +kernel, by decide +kernel, by decide +kernel⟩

end Visit

end TagIndex
