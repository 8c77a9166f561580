import Mathlib.Data.List.Sort
import TagIndex.Walk

/-!
# The order of paths

Paths are ordered by their segments, and two spellings of one place compare equal. A walk sorts what
it finds and leaves out repeats, so what it returns depends only on which places were found, as long
as every place has one spelling.

- `Path.le_trans`, `Path.le_total`, `Path.lt_of_le_of_not_same`: the order is total, and it tells
  all places apart.
- `Walker.pairwise_dropRepeats`: sorted paths without repeats increase strictly.
- `Walker.exists_same_mem_dropRepeats`, `Walker.find?_of_mem_dropRepeats`: every place is kept, as
  it was spelled first.
- `Walker.dropRepeats_mergeSort_congr`: the order and the number of times in which paths were found
  do not matter.
-/

namespace TagIndex

namespace Path

namespace Segment

theorem ext_rank_text {a b : Segment} (hrank : a.rank = b.rank) (htext : a.text = b.text) :
    a = b := by
  cases a <;> cases b <;> simp_all [rank, text]

theorem not_lt_iff {a b : Segment} :
    ¬a < b ↔ b.rank < a.rank ∨ b.rank = a.rank ∧ b.text ≤ a.text := by
  show ¬(a.rank < b.rank ∨ a.rank = b.rank ∧ a.text < b.text) ↔ _
  rw [not_or, not_and, String.not_lt]
  constructor
  · rintro ⟨hrank, htext⟩
    rcases Nat.lt_or_eq_of_le (Nat.le_of_not_lt hrank) with h | h
    · exact .inl h
    · exact .inr ⟨h, htext h.symm⟩
  · rintro (h | ⟨h, htext⟩)
    · exact ⟨by omega, fun heq => by omega⟩
    · exact ⟨by omega, fun _ => htext⟩

instance : Std.Asymm (α := Segment) (· < ·) where
  asymm a b hab := by
    rw [not_lt_iff]
    rcases hab with h | ⟨h, htext⟩
    · exact .inl h
    · exact .inr ⟨h, Std.le_of_lt htext⟩

instance : Std.Trichotomous (α := Segment) (· < ·) where
  trichotomous a b hab hba := by
    rw [not_lt_iff] at hab hba
    have hrank : a.rank = b.rank := by omega
    refine ext_rank_text hrank (String.le_antisymm ?_ ?_)
    · exact (hba.resolve_left (by omega)).2
    · exact (hab.resolve_left (by omega)).2

instance : Trans (α := Segment) (¬ · < ·) (¬ · < ·) (¬ · < ·) where
  trans {a b c} hab hbc := by
    simp only [not_lt_iff] at hab hbc ⊢
    rcases hab with hab | ⟨hab, htext⟩
    · exact .inl (by omega)
    · rcases hbc with hbc | ⟨hbc, htext'⟩
      · exact .inl (by omega)
      · exact .inr ⟨by omega, String.le_trans htext' htext⟩

instance : LE Segment := .ofLT Segment

instance : Std.IsLinearOrder Segment := .of_lt

end Segment

theorem le_iff {p q : String} : le p q = true ↔ segments p ≤ segments q := by
  simp [le]

theorem le_trans (p q r : String) (hpq : le p q = true) (hqr : le q r = true) :
    le p r = true := by
  rw [le_iff] at hpq hqr ⊢
  exact List.le_trans hpq hqr

theorem le_total (p q : String) : (le p q || le q p) = true := by
  rw [Bool.or_eq_true, le_iff, le_iff]
  exact List.le_total ..

theorem lt_of_le_of_not_same {p q : String} (hle : le p q = true) (hne : ¬same p q = true) :
    segments p < segments q := by
  refine Classical.byContradiction fun hlt => hne ?_
  exact beq_iff_eq.mpr (List.le_antisymm (le_iff.mp hle) hlt)

theorem le_of_same {p q r : String} (hq : same p q = true) (hr : same p r = true) :
    le q r = true := by
  rw [le_iff, ← beq_iff_eq.mp hq, ← beq_iff_eq.mp hr]
  exact List.le_refl _

end Path

namespace Walker

open TagIndex.Path

/-- In sorted paths, what is left after the repeats of `p` is strictly greater. -/
theorem lt_of_mem_dropWhile {p q : String} {ps : List String}
    (h : (p :: ps).Pairwise fun p q => le p q = true) (hq : q ∈ ps.dropWhile (same p)) :
    segments p < segments q := by
  cases hrest : ps.dropWhile (same p) with
  | nil => rw [hrest] at hq; cases hq
  | cons r rest =>
    have hr : ¬same p r = true := by
      have := List.head_dropWhile_not (same p) (by rw [hrest]; exact List.cons_ne_nil r rest)
      simpa [hrest] using this
    have hsub : (p :: r :: rest).Sublist (p :: ps) := by
      rw [← hrest]
      exact (List.dropWhile_sublist _).cons_cons p
    obtain ⟨hp, hsorted⟩ := List.pairwise_cons.mp (h.sublist hsub)
    have hpr : segments p < segments r := lt_of_le_of_not_same (hp r List.mem_cons_self) hr
    rw [hrest] at hq
    rcases List.mem_cons.mp hq with rfl | hq
    · exact hpr
    · exact Std.lt_of_lt_of_le hpr (le_iff.mp (List.rel_of_pairwise_cons hsorted hq))

theorem pairwise_dropRepeats {ps : List String} (h : ps.Pairwise fun p q => le p q = true) :
    (dropRepeats ps).Pairwise fun p q => segments p < segments q := by
  induction ps using dropRepeats.induct with
  | case1 => simp [dropRepeats]
  | case2 p ps ih =>
    rw [dropRepeats]
    refine List.pairwise_cons.mpr ⟨fun q hq => ?_, ih ?_⟩
    · exact lt_of_mem_dropWhile h ((dropRepeats_sublist _).subset hq)
    · exact (List.pairwise_cons.mp h).2.sublist (List.dropWhile_sublist _)

theorem exists_same_mem_dropRepeats {ps : List String} {q : String} (h : q ∈ ps) :
    ∃ p ∈ dropRepeats ps, same p q = true := by
  induction ps using dropRepeats.induct with
  | case1 => cases h
  | case2 p ps ih =>
    rw [dropRepeats]
    rw [← List.takeWhile_append_dropWhile (p := same p) (l := ps), ← List.cons_append,
      List.mem_append, List.mem_cons] at h
    rcases h with (rfl | h) | h
    · exact ⟨q, List.mem_cons_self, beq_self_eq_true _⟩
    · exact ⟨p, List.mem_cons_self, List.all_eq_true.mp List.all_takeWhile q h⟩
    · obtain ⟨r, hr, hsame⟩ := ih h
      exact ⟨r, List.mem_cons_of_mem p hr, hsame⟩

/-- Of the repeats of a place, the first is kept. -/
theorem find?_of_mem_dropRepeats {ps : List String} {p : String}
    (h : ps.Pairwise fun p q => le p q = true) (hp : p ∈ dropRepeats ps) :
    ps.find? (same p) = some p := by
  induction ps using dropRepeats.induct with
  | case1 => simp [dropRepeats] at hp
  | case2 q ps ih =>
    rw [dropRepeats] at hp
    rcases List.mem_cons.mp hp with rfl | hp
    · exact List.find?_cons_of_pos (beq_self_eq_true _)
    · -- `p` is greater than all spellings of `q`, so the search passes them by
      have hlt := lt_of_mem_dropWhile h ((dropRepeats_sublist _).subset hp)
      have hne {r : String} (hr : same q r = true) : ¬same p r = true := by
        intro hpr
        rw [beq_iff_eq.mp hr, beq_iff_eq.mp hpr] at hlt
        exact List.lt_irrefl _ hlt
      have hbefore : (ps.takeWhile (same q)).find? (same p) = none :=
        List.find?_eq_none.mpr fun r hr => hne (List.all_eq_true.mp List.all_takeWhile r hr)
      rw [List.find?_cons_of_neg (hne (beq_self_eq_true _)),
        ← List.takeWhile_append_dropWhile (p := same q) (l := ps), List.find?_append, hbefore,
        Option.none_or]
      exact ih ((List.pairwise_cons.mp h).2.sublist (List.dropWhile_sublist _)) hp

theorem mem_dropRepeats_iff {ps : List String}
    (h : ∀ p ∈ ps, ∀ q ∈ ps, same p q = true → p = q) {p : String} :
    p ∈ dropRepeats ps ↔ p ∈ ps := by
  refine ⟨fun hp => (dropRepeats_sublist ps).subset hp, fun hp => ?_⟩
  obtain ⟨q, hq, hsame⟩ := exists_same_mem_dropRepeats hp
  rwa [← h q ((dropRepeats_sublist ps).subset hq) p hp hsame]

/-- Where every place has one spelling, sorting and leaving out repeats gives one list for all ways
to list the same paths. -/
theorem dropRepeats_mergeSort_congr {ps qs : List String} (hmem : ∀ p, p ∈ ps ↔ p ∈ qs)
    (h : ∀ p ∈ ps, ∀ q ∈ ps, same p q = true → p = q) :
    dropRepeats (ps.mergeSort le) = dropRepeats (qs.mergeSort le) := by
  have hsorted (l : List String) :=
    pairwise_dropRepeats (List.pairwise_mergeSort le_trans le_total l)
  have hirrefl : Std.Irrefl fun p q : String => segments p < segments q :=
    ⟨fun p => List.lt_irrefl _⟩
  have hanti : Std.Antisymm fun p q : String => segments p < segments q :=
    ⟨fun p q hpq hqp => absurd hqp (List.lt_asymm hpq)⟩
  have h' : ∀ p ∈ qs, ∀ q ∈ qs, same p q = true → p = q := fun p hp q hq =>
    h p ((hmem p).mpr hp) q ((hmem q).mpr hq)
  have hkept {l : List String} (hl : ∀ p ∈ l, ∀ q ∈ l, same p q = true → p = q) (p : String) :
      p ∈ dropRepeats (l.mergeSort le) ↔ p ∈ l := by
    rw [mem_dropRepeats_iff fun p hp q hq =>
      hl p (List.mem_mergeSort.mp hp) q (List.mem_mergeSort.mp hq), List.mem_mergeSort]
  refine (hsorted ps).eq_of_mem_iff (hsorted qs) fun p => ?_
  rw [hkept h, hkept h', hmem]

end Walker

end TagIndex
