/-!
# Ends of texts

What a pattern leaves of a text: `suffixes` lists every end of it, `afterEach sep` only those that
start after a separator, and `stripStart?` gives the end after a known beginning.
-/

namespace TagIndex.Text

variable {α : Type}

/-- All ends of a text, from the whole text to nothing. -/
def suffixes : List α → List (List α)
  | [] => [[]]
  | c :: cs => (c :: cs) :: suffixes cs

/-- What stands after each separator of a text. -/
def afterEach [DecidableEq α] (sep : α) : List α → List (List α)
  | [] => []
  | c :: cs => if c = sep then cs :: afterEach sep cs else afterEach sep cs

/-- What follows `start` in a text, if the text begins with it. -/
def stripStart? [DecidableEq α] : List α → List α → Option (List α)
  | [], cs => some cs
  | _ :: _, [] => none
  | a :: as, c :: cs => if a = c then stripStart? as cs else none

/-- What is left of a text after `start`, or all of it if it does not begin with that. -/
def dropStart [DecidableEq α] (start cs : List α) : List α :=
  (stripStart? start cs).getD cs

theorem mem_suffixes {cs ds : List α} : ds ∈ suffixes cs ↔ ∃ taken, cs = taken ++ ds := by
  induction cs with
  | nil => simp [suffixes, eq_comm]
  | cons c cs ih =>
    rw [suffixes, List.mem_cons, ih]
    constructor
    · rintro (rfl | ⟨taken, rfl⟩)
      · exact ⟨[], rfl⟩
      · exact ⟨c :: taken, rfl⟩
    · rintro ⟨taken, h⟩
      cases taken with
      | nil => exact .inl h.symm
      | cons d taken =>
        simp only [List.cons_append, List.cons.injEq] at h
        exact .inr ⟨taken, h.2⟩

theorem mem_afterEach [DecidableEq α] {sep : α} {cs ds : List α} :
    ds ∈ afterEach sep cs ↔ ∃ taken, cs = taken ++ sep :: ds := by
  induction cs with
  | nil => simp [afterEach]
  | cons c cs ih =>
    constructor
    · intro h
      by_cases hc : c = sep
      · rw [afterEach, if_pos hc, List.mem_cons, ih] at h
        rcases h with rfl | ⟨taken, rfl⟩
        · exact ⟨[], by rw [hc]; rfl⟩
        · exact ⟨c :: taken, rfl⟩
      · rw [afterEach, if_neg hc, ih] at h
        obtain ⟨taken, rfl⟩ := h
        exact ⟨c :: taken, rfl⟩
    · rintro ⟨taken, h⟩
      cases taken with
      | nil =>
        simp only [List.nil_append, List.cons.injEq] at h
        rw [afterEach, if_pos h.1, h.2]
        exact List.mem_cons_self
      | cons d taken =>
        simp only [List.cons_append, List.cons.injEq] at h
        have hmem := ih.2 ⟨taken, h.2⟩
        by_cases hc : c = sep
        · rw [afterEach, if_pos hc]
          exact List.mem_cons_of_mem _ hmem
        · rw [afterEach, if_neg hc]
          exact hmem

theorem stripStart?_eq_some [DecidableEq α] {start cs rest : List α} :
    stripStart? start cs = some rest ↔ cs = start ++ rest := by
  induction start generalizing cs with
  | nil => simp [stripStart?]
  | cons a as ih =>
    cases cs with
    | nil => simp [stripStart?]
    | cons c cs =>
      rw [stripStart?]
      split
      · next h => simp [ih, h]
      · next h => simp [Ne.symm h]

end TagIndex.Text
