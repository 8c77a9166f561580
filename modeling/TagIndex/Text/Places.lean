/-!
# Places in a text

A text of `n` characters has `n + 1` places: one before each character and one at the end. A set of
places is a list of Booleans, one for each place from the first on; places beyond the list are not
in the set. Following a pattern with such a set keeps every place once, however many ways through
the pattern lead to it.

`ends` says what stands after the places of a set, and each operation has its law about `ends`.
-/

namespace TagIndex.Text

variable {α : Type}

/-- What stands after each place of a set. -/
def ends : List α → List Bool → List (List α)
  | [], places => if places.headD false then [[]] else []
  | c :: cs, places => (if places.headD false then [c :: cs] else []) ++ ends cs places.tail

def atEnd : List α → List Bool → Bool
  | [], places => places.headD false
  | _ :: cs, places => atEnd cs places.tail

/-- Adds the first place to what `afterOne` gives if `here` says so. -/
def afterOneFrom (p : α → Bool) (here : Bool) : List α → List Bool → List Bool
  | [], _ => [here]
  | c :: cs, places => here :: afterOneFrom p (places.headD false && p c) cs places.tail

/-- The places one character further on, over characters that satisfy `p`. -/
def afterOne (p : α → Bool) (cs : List α) (places : List Bool) : List Bool :=
  afterOneFrom p false cs places

/-- Like `afterMany`, where the first place counts as in the set if `here` says so. -/
def afterManyFrom (p : α → Bool) (here : Bool) : List α → List Bool → List Bool
  | [], places => [here || places.headD false]
  | c :: cs, places =>
    let here := here || places.headD false
    here :: afterManyFrom p (here && p c) cs places.tail

/-- The places any number of characters further on, over characters that satisfy `p`. -/
def afterMany (p : α → Bool) (cs : List α) (places : List Bool) : List Bool :=
  afterManyFrom p false cs places

def either : List Bool → List Bool → List Bool
  | [], others => others
  | places, [] => places
  | a :: places, b :: others => (a || b) :: either places others

/-! ### Laws -/

theorem mem_ends_nil (places : List Bool) (ds : List α) :
    ds ∈ ends [] places ↔ places.headD false = true ∧ ds = [] := by
  rw [ends]; split <;> simp_all

theorem mem_ends_cons (c : α) (cs : List α) (places : List Bool) (ds : List α) :
    ds ∈ ends (c :: cs) places ↔
      places.headD false = true ∧ ds = c :: cs ∨ ds ∈ ends cs places.tail := by
  rw [ends]; split <;> simp_all

theorem ends_empty (cs : List α) : ends cs [] = [] := by
  induction cs with
  | nil => rfl
  | cons c cs ih => simp [ends, ih]

theorem ends_start (cs : List α) : ends cs [true] = [cs] := by
  cases cs <;> simp [ends, ends_empty]

theorem atEnd_iff (cs : List α) (places : List Bool) :
    atEnd cs places = true ↔ [] ∈ ends cs places := by
  induction cs generalizing places with
  | nil => simp [atEnd, mem_ends_nil]
  | cons c cs ih => simp [atEnd, mem_ends_cons, ih]

theorem mem_ends_afterOneFrom (p : α → Bool) (here : Bool) (cs : List α) (places : List Bool)
    (ds : List α) : ds ∈ ends cs (afterOneFrom p here cs places) ↔
      here = true ∧ ds = cs ∨ ∃ c, p c = true ∧ c :: ds ∈ ends cs places := by
  induction cs generalizing here places with
  | nil => simp [afterOneFrom, mem_ends_nil]
  | cons c cs ih =>
    simp only [afterOneFrom, mem_ends_cons, List.headD_cons, List.tail_cons, ih, Bool.and_eq_true,
      List.cons.injEq]
    refine or_congr Iff.rfl ⟨?_, ?_⟩
    · rintro (⟨⟨hm, hp⟩, rfl⟩ | ⟨d, hp, hd⟩)
      · exact ⟨c, hp, .inl ⟨hm, rfl, rfl⟩⟩
      · exact ⟨d, hp, .inr hd⟩
    · rintro ⟨d, hp, ⟨hm, rfl, rfl⟩ | hd⟩
      · exact .inl ⟨⟨hm, hp⟩, rfl⟩
      · exact .inr ⟨d, hp, hd⟩

theorem mem_ends_afterOne (p : α → Bool) (cs : List α) (places : List Bool) (ds : List α) :
    ds ∈ ends cs (afterOne p cs places) ↔ ∃ c, p c = true ∧ c :: ds ∈ ends cs places := by
  simp [afterOne, mem_ends_afterOneFrom]

theorem mem_ends_afterManyFrom (p : α → Bool) (here : Bool) (cs : List α) (places : List Bool)
    (ds : List α) : ds ∈ ends cs (afterManyFrom p here cs places) ↔
      ∃ taken, (∀ c ∈ taken, p c = true) ∧
        (here = true ∧ taken ++ ds = cs ∨ taken ++ ds ∈ ends cs places) := by
  induction cs generalizing here places with
  | nil =>
    simp only [afterManyFrom, mem_ends_nil, List.headD_cons, Bool.or_eq_true,
      List.append_eq_nil_iff, ← or_and_right]
    constructor
    · rintro ⟨h, rfl⟩
      exact ⟨[], by simp, h, rfl, rfl⟩
    · rintro ⟨_, _, h, _, rfl⟩
      exact ⟨h, rfl⟩
  | cons c cs ih =>
    simp only [afterManyFrom, mem_ends_cons, List.headD_cons, List.tail_cons, ih, Bool.and_eq_true,
      Bool.or_eq_true]
    constructor
    · rintro (⟨hm, rfl⟩ | ⟨taken, hall, ⟨⟨hm, hp⟩, rfl⟩ | htail⟩)
      · exact ⟨[], by simp, hm.imp (⟨·, rfl⟩) fun h => .inl ⟨h, rfl⟩⟩
      · refine ⟨c :: taken, by simpa using ⟨hp, hall⟩, hm.imp (⟨·, rfl⟩) fun h => .inl ⟨h, rfl⟩⟩
      · exact ⟨taken, hall, .inr (.inr htail)⟩
    · rintro ⟨taken, hall, h⟩
      have whole : (here = true ∨ places.headD false = true) ∧ taken ++ ds = c :: cs ∨
          taken ++ ds ∈ ends cs places.tail := by
        rcases h with ⟨hm, h⟩ | ⟨hm, h⟩ | h
        · exact .inl ⟨.inl hm, h⟩
        · exact .inl ⟨.inr hm, h⟩
        · exact .inr h
      rcases whole with ⟨hm, h⟩ | h
      · cases taken with
        | nil => exact .inl ⟨hm, h⟩
        | cons d taken =>
          simp only [List.cons_append, List.cons.injEq] at h
          simp only [List.mem_cons, forall_eq_or_imp] at hall
          exact .inr ⟨taken, hall.2, .inl ⟨⟨hm, h.1 ▸ hall.1⟩, h.2⟩⟩
      · exact .inr ⟨taken, hall, .inr h⟩

theorem mem_ends_afterMany (p : α → Bool) (cs : List α) (places : List Bool) (ds : List α) :
    ds ∈ ends cs (afterMany p cs places) ↔
      ∃ taken, (∀ c ∈ taken, p c = true) ∧ taken ++ ds ∈ ends cs places := by
  simp [afterMany, mem_ends_afterManyFrom]

theorem mem_ends_either (cs : List α) (places others : List Bool) (ds : List α) :
    ds ∈ ends cs (either places others) ↔ ds ∈ ends cs places ∨ ds ∈ ends cs others := by
  induction cs generalizing places others with
  | nil => cases places <;> cases others <;> simp [either, mem_ends_nil, or_and_right]
  | cons c cs ih =>
    cases places with
    | nil => simp [either, ends_empty]
    | cons a places =>
      cases others with
      | nil => simp [either, ends_empty]
      | cons b others =>
        simp only [either, mem_ends_cons, List.headD_cons, List.tail_cons, ih, Bool.or_eq_true,
          or_and_right]
        simp only [or_assoc, or_left_comm]

end TagIndex.Text
