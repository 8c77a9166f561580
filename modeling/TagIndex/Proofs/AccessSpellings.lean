import Mathlib.Data.List.TakeWhile
import TagIndex.Proofs.ScopedPrivate

/-!
# Spellings of access modifiers

The text of an access modifier may have blanks of any kind between its words and brackets, and they
do not matter, even inside a word. What stands between the brackets may have brackets of its own,
since the first opening and the last closing bracket are the ones that count, and it loses its
backticks.

- `Text.Spaced`: a text with blanks put in.
- `Text.spaced_iff`: for a text without blanks, those are the texts that have the same characters
  besides blanks.
- `Modifier.keywords`: the two words that restrict access.
- `Modifier.ofAccess_spelling`: how every spelling is read, and every text with another word.
-/

namespace TagIndex

namespace Text

/-- The second text is the first with blanks put in at any places. -/
inductive Spaced : List Char → List Char → Prop where
  | nil : Spaced [] []
  | blank {c : Char} {text spaced : List Char} (hc : isBlank c = true) (h : Spaced text spaced) :
      Spaced text (c :: spaced)
  | char (c : Char) {text spaced : List Char} (h : Spaced text spaced) :
      Spaced (c :: text) (c :: spaced)

theorem Spaced.filter_eq {text spaced : List Char} (h : Spaced text spaced) :
    spaced.filter (!isBlank ·) = text.filter (!isBlank ·) := by
  induction h with
  | nil => rfl
  | blank hc _ ih => rw [List.filter_cons_of_neg (by simp [hc]), ih]
  | char c _ ih => rw [List.filter_cons, List.filter_cons, ih]

theorem spaced_filter (spaced : List Char) : Spaced (spaced.filter (!isBlank ·)) spaced := by
  induction spaced with
  | nil => exact .nil
  | cons c spaced ih =>
    by_cases hc : isBlank c = true
    · rw [List.filter_cons_of_neg (by simp [hc])]
      exact .blank hc ih
    · rw [List.filter_cons_of_pos (by simp [hc])]
      exact .char c ih

theorem spaced_iff {text spaced : List Char} (h : ∀ c ∈ text, isBlank c = false) :
    Spaced text spaced ↔ spaced.filter (!isBlank ·) = text := by
  have htext : text.filter (!isBlank ·) = text :=
    List.filter_eq_self.mpr fun c hc => by simp [h c hc]
  constructor
  · intro hspaced
    rw [hspaced.filter_eq, htext]
  · intro hfilter
    rw [← hfilter]
    exact spaced_filter spaced

end Text

namespace Modifier

/-- The words that restrict access, with the modifiers that they make. -/
def keywords : List (String × (Option String → Modifier)) :=
  [("private", .privateTo), ("protected", .protectedTo)]

/-- The word of an access modifier: what stands before the first bracket, without blanks. -/
def accessWord (text : List Char) : String :=
  .ofList ((text.takeWhile (· ≠ '[')).filter (!Text.isBlank ·))

section Keywords

variable {k : String × (Option String → Modifier)} (hk : k ∈ keywords)
include hk

theorem isBlank_keyword : ∀ c ∈ k.1.toList, Text.isBlank c = false := by
  revert k
  simp [keywords, Text.isBlank, Text.blankBlocks]

theorem bracket_notMem_keyword : '[' ∉ k.1.toList := by
  revert k
  simp [keywords]

theorem eq_keyword (scope : Option String) :
    (if k.1 = "private" then .privateTo scope
      else if k.1 = "protected" then .protectedTo scope else .other k.1) = k.2 scope := by
  revert k
  simp [keywords]

theorem ofAccess_plain {text : List Char} (h : Text.Spaced k.1.toList text) :
    ofAccess text = k.2 none := by
  have hcompact := (Text.spaced_iff (isBlank_keyword hk)).mp h
  have hbefore : ∀ c ∈ k.1.toList, decide (c ≠ '[') = true := by
    intro c hc
    exact decide_eq_true fun heq => bracket_notMem_keyword hk (heq ▸ hc)
  simp only [ofAccess, hcompact, List.takeWhile_eq_self_iff.mpr hbefore,
    List.dropWhile_eq_nil_iff.mpr hbefore, String.ofList_toList]
  exact eq_keyword hk none

theorem ofAccess_scoped {q text : List Char} (hq : ∀ c ∈ q, Text.isBlank c = false)
    (hlast : q.getLast? ≠ some ']')
    (h : Text.Spaced (k.1.toList ++ '[' :: (q ++ [']'])) text) :
    ofAccess text = k.2 (some (.ofList (Name.unquote q))) := by
  have hblank : ∀ c ∈ k.1.toList ++ '[' :: (q ++ [']']), Text.isBlank c = false := by
    intro c hc
    simp only [List.mem_append, List.mem_cons, List.not_mem_nil, or_false] at hc
    rcases hc with hc | rfl | hc | rfl
    · exact isBlank_keyword hk c hc
    · decide
    · exact hq c hc
    · decide
  rw [ofAccess_bracketed (bracket_notMem_keyword hk) hlast ((Text.spaced_iff hblank).mp h),
    String.ofList_toList]
  exact eq_keyword hk _

end Keywords

/-- A bracket is not a blank, so blanks may be dropped before or after the text is cut at the first
bracket. -/
theorem takeWhile_compact (text : List Char) :
    String.ofList ((text.filter (!Text.isBlank ·)).takeWhile (· ≠ '[')) = accessWord text := by
  have hbracket : ∀ c : Char, (!!Text.isBlank c || decide (c ≠ '[')) = decide (c ≠ '[') := by
    intro c
    by_cases hc : c = '['
    · rw [hc]
      decide
    · simp [hc]
  rw [List.takeWhile_filter, accessWord]
  simp only [hbracket]

theorem ofAccess_other {text : List Char} (h : ∀ k ∈ keywords, accessWord text ≠ k.1) :
    ofAccess text = .other (accessWord text) := by
  have hprivate : accessWord text ≠ "private" := h ("private", .privateTo) (by simp [keywords])
  have hprotected : accessWord text ≠ "protected" :=
    h ("protected", .protectedTo) (by simp [keywords])
  simp only [ofAccess, takeWhile_compact, if_neg hprivate, if_neg hprotected]

/-- Every spelling of an access modifier is read as what it spells, whatever blanks are put in: the
word alone, or the word with a scope. The scope may have brackets in it, as long as it does not end
in a closing one. A text with any other word before the first bracket is kept as that word. -/
theorem ofAccess_spelling :
    (∀ k ∈ keywords, ∀ text, Text.Spaced k.1.toList text → ofAccess text = k.2 none) ∧
    (∀ k ∈ keywords, ∀ q text, (∀ c ∈ q, Text.isBlank c = false) → q.getLast? ≠ some ']' →
      Text.Spaced (k.1.toList ++ '[' :: (q ++ [']'])) text →
      ofAccess text = k.2 (some (.ofList (Name.unquote q)))) ∧
    ∀ text, (∀ k ∈ keywords, accessWord text ≠ k.1) → ofAccess text = .other (accessWord text) :=
  ⟨fun _ hk _ => ofAccess_plain hk, fun _ hk _ _ => ofAccess_scoped hk, fun _ => ofAccess_other⟩

/-- Blanks of several kinds inside the words, brackets inside a quoted scope, and a word that is not
one of the two. -/
theorem ofAccess_spelling_wide :
    ofAccess " pri\tvate\u3000".toList = .privateTo none ∧
    ofAccess "protec\u00a0ted [\u2003`a]b[` \n]".toList = .protectedTo (some "a]b[") ∧
    ofAccess "un sealed [private]".toList = .other "unsealed" := by
  obtain ⟨hplain, hscoped, hother⟩ := ofAccess_spelling
  refine ⟨hplain ("private", .privateTo) (by simp [keywords]) _ ?_,
    hscoped ("protected", .protectedTo) (by simp [keywords]) "`a]b[`".toList _ ?_ ?_ ?_, ?_⟩
  · have hcompact : " pri\tvate\u3000".toList.filter (!Text.isBlank ·) = "private".toList := by
      decide +kernel
    exact hcompact ▸ Text.spaced_filter _
  · simp [Text.isBlank, Text.blankBlocks]
  · decide
  · have hcompact : "protec\u00a0ted [\u2003`a]b[` \n]".toList.filter (!Text.isBlank ·) =
        "protected".toList ++ '[' :: ("`a]b[`".toList ++ [']']) := by
      decide +kernel
    exact hcompact ▸ Text.spaced_filter _
  · have hword : accessWord "un sealed [private]".toList = "unsealed" := by decide +kernel
    rw [hother _ (by rw [hword]; simp [keywords]), hword]

end Modifier

end TagIndex
