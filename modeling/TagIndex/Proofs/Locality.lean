import TagIndex.Decl.Locality

/-!
# What makes a declaration file-local

The rules of locality are an ordered list, and a rule can speak for or against. Their order does not
matter in the end: one modifier that hides a declaration is enough, whatever the others are.

- `LocalityRule.verdict_eq_true_iff`: when a rule finds a declaration file-local.
- `Modifier.hides`: the modifiers that make a declaration in a scope file-local.
- `isFileLocal_eq_any`: a declaration is file-local exactly if one of its modifiers hides it.
- `isFileLocal_modifiers`: which modifiers these are, and that the order, the repeats and all other
  modifiers have no say.
-/

namespace TagIndex

namespace LocalityRule

variable {rule : LocalityRule} {scope : Option String} {mods : List Modifier}

theorem verdict_eq_true_iff :
    rule.verdict scope mods = some true ↔ ∃ m ∈ mods, rule scope m = some true := by
  have hmem : true ∈ mods.filterMap (rule scope) ↔ ∃ m ∈ mods, rule scope m = some true :=
    List.mem_filterMap
  rw [← hmem, verdict]
  cases mods.filterMap (rule scope) with
  | nil => simp
  | cons answer answers => simp

/-- A rule that never speaks against a modifier does not speak against a declaration. -/
theorem verdict_ne_false (h : ∀ m ∈ mods, rule scope m ≠ some false) :
    rule.verdict scope mods ≠ some false := by
  have hall : ∀ answer ∈ mods.filterMap (rule scope), answer = true := by
    intro answer hanswer
    obtain ⟨m, hm, hrule⟩ := List.mem_filterMap.mp hanswer
    cases answer with
    | true => rfl
    | false => exact absurd hrule (h m hm)
  rw [verdict]
  cases hl : mods.filterMap (rule scope) with
  | nil => simp
  | cons answer answers => simp [hall answer (hl ▸ List.mem_cons_self)]

end LocalityRule

/-- Whether the modifier makes a declaration in the scope file-local. -/
def Modifier.hides (scope : Option String) : Modifier → Bool
  | .privateTo none => true
  | .privateTo (some s) => s == "this" || scope == some s
  | _ => false

open LocalityRule

theorem Modifier.hides_iff_rule (scope : Option String) (m : Modifier) :
    m.hides scope = true ↔ plainPrivate scope m = some true ∨ objectPrivate scope m = some true ∨
      scopedPrivate scope m = some true := by
  cases m with
  | privateTo s =>
    cases s with
    | none => simp [plainPrivate, hides]
    | some s =>
      by_cases hs : s = "this"
      · simp [objectPrivate, hides, hs]
      · simp [plainPrivate, objectPrivate, scopedPrivate, hides, hs]
  | _ => simp [plainPrivate, objectPrivate, scopedPrivate, hides]

theorem isFileLocal_iff_verdict (scope : Option String) (mods : List Modifier) :
    isFileLocal scope mods = true ↔ plainPrivate.verdict scope mods = some true ∨
      objectPrivate.verdict scope mods = some true ∨
      scopedPrivate.verdict scope mods = some true := by
  have hplain : plainPrivate.verdict scope mods ≠ some false :=
    verdict_ne_false fun m _ => by unfold plainPrivate; split <;> simp
  have hobject : objectPrivate.verdict scope mods ≠ some false :=
    verdict_ne_false fun m _ => by unfold objectPrivate; split <;> simp
  have hfield : publicField.verdict scope mods ≠ some true := by
    rw [ne_eq, verdict_eq_true_iff]
    rintro ⟨m, -, hm⟩
    unfold publicField at hm
    split at hm <;> cases hm
  -- Only the rule on scopes can overrule a later one, and the one after it hides nothing.
  simp only [isFileLocal, all, List.findSome?_cons, List.findSome?_nil]
  grind

/-- A declaration is file-local exactly if one of its modifiers hides it. -/
theorem isFileLocal_eq_any (scope : Option String) (mods : List Modifier) :
    isFileLocal scope mods = mods.any (·.hides scope) := by
  rw [Bool.eq_iff_iff, isFileLocal_iff_verdict, List.any_eq_true]
  simp only [verdict_eq_true_iff, ← exists_or, ← and_or_left, Modifier.hides_iff_rule]

theorem isFileLocal_iff_hides {scope : Option String} {mods : List Modifier} :
    isFileLocal scope mods = true ↔ ∃ m ∈ mods, m.hides scope = true := by
  rw [isFileLocal_eq_any, List.any_eq_true]

theorem Modifier.hides_iff_mem (scope : Option String) (m : Modifier) :
    m.hides scope = true ↔
      m ∈ [.privateTo none, .privateTo (some "this"), .privateTo scope] := by
  cases m with
  | privateTo q =>
    cases q with
    | none => simp [hides]
    | some q => simp [hides, @eq_comm _ scope]
  | _ => simp [hides]

theorem isFileLocal_mono {scope : Option String} {mods mods' : List Modifier}
    (h : ∀ m ∈ mods, m.hides scope = true → m ∈ mods') (hlocal : isFileLocal scope mods = true) :
    isFileLocal scope mods' = true := by
  obtain ⟨m, hm, hhides⟩ := isFileLocal_iff_hides.mp hlocal
  exact isFileLocal_iff_hides.mpr ⟨m, h m hm hhides, hhides⟩

/-- Locality is decided by the modifiers that hide, in whatever order and number. -/
theorem isFileLocal_congr {scope : Option String} {mods mods' : List Modifier}
    (h : ∀ m : Modifier, m.hides scope = true → (m ∈ mods ↔ m ∈ mods')) :
    isFileLocal scope mods = isFileLocal scope mods' := by
  rw [Bool.eq_iff_iff]
  exact ⟨isFileLocal_mono fun m hm hhides => (h m hhides).mp hm,
    isFileLocal_mono fun m hm hhides => (h m hhides).mpr hm⟩

/-- A declaration is file-local exactly if it is private without a qualifier, to `this` or to its
scope. So modifiers can be permuted and repeated, one more never exports a declaration, and one of
any other kind changes nothing. -/
theorem isFileLocal_modifiers (scope : Option String) :
    (∀ mods, isFileLocal scope mods = true ↔
      .privateTo none ∈ mods ∨ .privateTo (some "this") ∈ mods ∨
        ∃ s, scope = some s ∧ .privateTo (some s) ∈ mods) ∧
    (∀ mods mods', (∀ m, m ∈ mods ↔ m ∈ mods') →
      isFileLocal scope mods = isFileLocal scope mods') ∧
    (∀ m before after, isFileLocal scope (before ++ after) = true →
      isFileLocal scope (before ++ m :: after) = true) ∧
    ∀ m before after, m ∉ [.privateTo none, .privateTo (some "this"), .privateTo scope] →
      isFileLocal scope (before ++ m :: after) = isFileLocal scope (before ++ after) := by
  refine ⟨fun mods => ?_, fun mods mods' h => ?_, fun m before after h => ?_,
    fun m before after h => ?_⟩
  · rw [isFileLocal_iff_hides]
    simp only [Modifier.hides_iff_mem, List.mem_cons, List.not_mem_nil, or_false, and_or_left,
      exists_or, exists_eq_right]
    cases scope with
    | none => grind
    | some s => simp
  · exact isFileLocal_congr fun m _ => h m
  · refine isFileLocal_mono (fun m' hm' _ => ?_) h
    rw [List.mem_append] at hm' ⊢
    exact hm'.imp_right (List.mem_cons_of_mem m)
  · refine isFileLocal_congr fun m' hhides => ?_
    have hne : m' ≠ m := by
      rintro rfl
      exact h ((Modifier.hides_iff_mem scope m').mp hhides)
    simp [hne]

end TagIndex
