import TagIndex.Tag.Basic

/-!
# Stable sorting

Facts about a stable sort by a total preorder, and the order of tag lines as an instance.

- `pairwise_mergeSort_of_pairwise`: what the order of the input says about elements that compare
  equal, the output says too.
- `mergeSort_sublist`: elements that are added to the input are put between the others and move
  none of them.
- `filter_mergeSort`: elements that all compare equal stay in the order of the input.
- `eq_mergeSort_iff`: no other sorted list has that property.
- `mergeSort_flatten_map`: parts may be sorted before the whole.
- `TagLine.le_trans`, `TagLine.le_total`: the order by full name, so that they apply to
  `TagLine.sort`.
-/

namespace TagIndex

open scoped List

section MergeSort

variable {α : Type} {le : α → α → Bool}
  (trans : ∀ a b c, le a b = true → le b c = true → le a c = true)
  (total : ∀ a b, (le a b || le b a) = true)
include trans total

/-- A sorted list with a new element `a` in front of the input: before `a` stand those that are
strictly smaller, after it the others. -/
theorem mergeSort_cons_eq_filter (a : α) (l : List α) :
    (a :: l).mergeSort le =
      (l.mergeSort le).filter (!le a ·) ++ a :: (l.mergeSort le).filter (le a ·) := by
  obtain ⟨before, after, hsort, hrest, hbefore⟩ := List.mergeSort_cons trans total a l
  have hle := List.pairwise_mergeSort trans total (a :: l)
  rw [hsort] at hle
  have hafter : ∀ b ∈ after, le a b = true := fun b hb =>
    List.rel_of_pairwise_cons (List.pairwise_append.mp hle).2.1 hb
  rw [hsort, hrest, List.filter_append, List.filter_append, List.filter_eq_self.mpr hbefore,
    List.filter_eq_nil_iff.mpr fun b hb => by simp [hafter b hb], List.append_nil,
    List.filter_eq_nil_iff.mpr fun b hb => by simpa using hbefore b hb, List.nil_append,
    List.filter_eq_self.mpr hafter]

theorem pairwise_mergeSort_of_pairwise {r : α → α → Prop} {l : List α} (h : l.Pairwise r) :
    (l.mergeSort le).Pairwise fun a b => le a b = true ∧ (le b a = true → r a b) := by
  induction l with
  | nil => simp
  | cons a l ih =>
    obtain ⟨hhead, htail⟩ := List.pairwise_cons.mp h
    have ih := ih htail
    rw [mergeSort_cons_eq_filter trans total]
    refine List.pairwise_append.mpr
      ⟨ih.filter _, List.pairwise_cons.mpr ⟨fun b hb => ?_, ih.filter _⟩, fun b hb c hc => ?_⟩
    · -- `b` comes after `a` in the input as well
      obtain ⟨hb, hab⟩ := List.mem_filter.mp hb
      exact ⟨hab, fun _ => hhead b (List.mem_mergeSort.mp hb)⟩
    · -- `b` was moved before `a`, so it is strictly smaller than all that follows
      have hab : le a b = false := by simpa using (List.mem_filter.mp hb).2
      have hba : le b a = true := by simpa [hab] using total a b
      have hac : le a c = true := by
        rcases List.mem_cons.mp hc with rfl | hc
        · simpa using total c c
        · exact (List.mem_filter.mp hc).2
      refine ⟨trans b a c hba hac, fun hcb => ?_⟩
      rw [trans a c b hac hcb] at hab
      cases hab

theorem mergeSort_sublist {xs ys : List α} (h : xs <+ ys) : xs.mergeSort le <+ ys.mergeSort le := by
  induction h with
  | slnil => exact .refl _
  | cons a _ ih =>
    rename_i ys _
    obtain ⟨before, after, hsort, hrest, -⟩ := List.mergeSort_cons trans total a ys
    rw [hrest] at ih
    rw [hsort]
    exact ih.middle a
  | cons_cons a _ ih =>
    rw [mergeSort_cons_eq_filter trans total, mergeSort_cons_eq_filter trans total]
    exact (ih.filter _).append ((ih.filter _).cons_cons a)

theorem filter_mergeSort {p : α → Bool} (l : List α)
    (h : ∀ a b, p a = true → p b = true → le a b = true) :
    (l.mergeSort le).filter p = l.filter p := by
  have hsorted : (l.filter p).Pairwise fun a b => le a b = true :=
    List.pairwise_filter.mpr (List.pairwise_of_forall fun {a b} => h a b)
  have hsub := (List.sublist_mergeSort trans total hsorted List.filter_sublist).filter p
  rw [List.filter_filter] at hsub
  simp only [Bool.and_self] at hsub
  exact (hsub.eq_of_length (((List.mergeSort_perm l le).filter p).length_eq).symm).symm

section Uniqueness

omit trans

theorem le_of_mem_cons {a b : α} {l : List α} (hl : (a :: l).Pairwise fun a b => le a b = true)
    (hb : b ∈ a :: l) : le a b = true := by
  rcases List.mem_cons.mp hb with rfl | hb
  · simpa using total b b
  · exact List.rel_of_pairwise_cons hl hb

theorem mem_iff_of_filter_eq {xs ys : List α}
    (h : ∀ a, xs.filter (fun b => le a b && le b a) = ys.filter fun b => le a b && le b a)
    (a : α) : a ∈ xs ↔ a ∈ ys := by
  have hrefl : le a a = true := by simpa using total a a
  have hmem : ∀ l : List α, a ∈ l ↔ a ∈ l.filter fun b => le a b && le b a := by
    intro l
    simp [List.mem_filter, hrefl]
  rw [hmem xs, h a, ← hmem ys]

/-- A sorted list is known by the elements that compare equal to each of its elements, in their
order. -/
theorem eq_of_filter_eq {xs ys : List α}
    (hxs : xs.Pairwise fun a b => le a b = true) (hys : ys.Pairwise fun a b => le a b = true)
    (h : ∀ a, xs.filter (fun b => le a b && le b a) = ys.filter fun b => le a b && le b a) :
    xs = ys := by
  have hmem := mem_iff_of_filter_eq total h
  induction xs generalizing ys with
  | nil =>
    symm
    exact List.eq_nil_iff_forall_not_mem.mpr fun a ha => by simpa using (hmem a).mpr ha
  | cons x xs ih =>
    cases ys with
    | nil => exact absurd ((hmem x).mp List.mem_cons_self) List.not_mem_nil
    | cons y ys =>
      -- each head is in the other list too, so they compare equal and come first in `h x`
      have hxy : le x y = true := le_of_mem_cons total hxs ((hmem y).mpr List.mem_cons_self)
      have hyx : le y x = true := le_of_mem_cons total hys ((hmem x).mp List.mem_cons_self)
      have hxx : le x x = true := le_of_mem_cons total hxs List.mem_cons_self
      have hhead := h x
      rw [List.filter_cons_of_pos (by simp [hxx]), List.filter_cons_of_pos (by simp [hxy, hyx])]
        at hhead
      obtain rfl : x = y := (List.cons.inj hhead).1
      have htail : ∀ a, xs.filter (fun b => le a b && le b a) =
          ys.filter fun b => le a b && le b a := by
        intro a
        have ha := h a
        rw [List.filter_cons, List.filter_cons] at ha
        split at ha
        · exact (List.cons.inj ha).2
        · exact ha
      rw [ih hxs.of_cons hys.of_cons htail (mem_iff_of_filter_eq total htail)]

end Uniqueness

theorem eq_mergeSort_iff {l sorted : List α} :
    sorted = l.mergeSort le ↔ sorted.Pairwise (fun a b => le a b = true) ∧
      ∀ a, sorted.filter (fun b => le a b && le b a) = l.filter fun b => le a b && le b a := by
  have hordered := List.pairwise_mergeSort trans total l
  have hstable : ∀ a, (l.mergeSort le).filter (fun b => le a b && le b a) =
      l.filter fun b => le a b && le b a := by
    intro a
    refine filter_mergeSort trans total l fun b c hb hc => ?_
    simp only [Bool.and_eq_true] at hb hc
    exact trans b a c hb.2 hc.1
  constructor
  · rintro rfl
    exact ⟨hordered, hstable⟩
  · rintro ⟨hsorted, hfilter⟩
    exact eq_of_filter_eq total hsorted hordered fun a => (hfilter a).trans (hstable a).symm

theorem mergeSort_flatten_map (parts : List (List α)) :
    (parts.map fun l => l.mergeSort le).flatten.mergeSort le = parts.flatten.mergeSort le := by
  refine (eq_mergeSort_iff trans total).mpr ⟨List.pairwise_mergeSort trans total _, fun a => ?_⟩
  have hstable : ∀ l : List α, (l.mergeSort le).filter (fun b => le a b && le b a) =
      l.filter fun b => le a b && le b a :=
    fun l => ((eq_mergeSort_iff trans total).mp rfl).2 a
  rw [hstable, List.filter_flatten, List.filter_flatten, List.map_map]
  exact congrArg List.flatten (List.map_congr_left fun l _ => hstable l)

end MergeSort

namespace TagLine

theorem le_trans (a b c : TagLine) (hab : decide (a.fullName ≤ b.fullName) = true)
    (hbc : decide (b.fullName ≤ c.fullName) = true) :
    decide (a.fullName ≤ c.fullName) = true := by
  simp only [decide_eq_true_eq] at hab hbc ⊢
  exact String.le_trans hab hbc

theorem le_total (a b : TagLine) :
    (decide (a.fullName ≤ b.fullName) || decide (b.fullName ≤ a.fullName)) = true := by
  simpa using String.le_total a.fullName b.fullName

theorem sort_sublist {xs ys : List TagLine} (h : xs <+ ys) : sort xs <+ sort ys :=
  mergeSort_sublist le_trans le_total h

end TagLine

end TagIndex
