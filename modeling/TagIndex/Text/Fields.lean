/-!
# Texts cut at a separator

`fields sep` cuts at every separator, so a text with `n` separators has `n + 1` fields, some of them
possibly empty; `joinFields` puts them together again. `lines` cuts text at line ends: a final line
break ends the last line and starts no new one, and a carriage return before a line break belongs
to the break.
-/

namespace TagIndex.Text

variable {α : Type} [DecidableEq α]

def fields (sep : α) : List α → List (List α)
  | [] => [[]]
  | c :: cs =>
    if c = sep then [] :: fields sep cs
    else
      match fields sep cs with
      | [] => [[c]]
      | f :: fs => (c :: f) :: fs

def joinFields (sep : α) : List (List α) → List α
  | [] => []
  | [f] => f
  | f :: fs => f ++ sep :: joinFields sep fs

theorem fields_ne_nil (sep : α) (cs : List α) : fields sep cs ≠ [] := by
  cases cs with
  | nil => simp [fields]
  | cons c cs =>
    simp only [fields]
    split
    · simp
    · split <;> simp

theorem joinFields_fields (sep : α) (cs : List α) : joinFields sep (fields sep cs) = cs := by
  induction cs with
  | nil => simp [fields, joinFields]
  | cons c cs ih =>
    simp only [fields]
    split
    · next h =>
      obtain ⟨f, fs, hf⟩ := List.exists_cons_of_ne_nil (fields_ne_nil sep cs)
      rw [hf] at ih ⊢
      simp [joinFields, ih, h]
    · split
      · next h => exact absurd h (fields_ne_nil sep cs)
      · next f fs hf =>
        rw [hf] at ih
        cases fs <;> simp_all [joinFields]

theorem fields_of_notMem {sep : α} {f : List α} (h : sep ∉ f) : fields sep f = [f] := by
  induction f with
  | nil => rfl
  | cons c f ih =>
    have hc : c ≠ sep := fun e => h (by rw [e]; exact List.mem_cons_self)
    rw [fields, if_neg hc, ih fun hm => h (List.mem_cons_of_mem _ hm)]

/-- A separator cuts a text into two that have fields of their own. -/
theorem fields_append_sep (sep : α) (cs ds : List α) :
    fields sep (cs ++ sep :: ds) = fields sep cs ++ fields sep ds := by
  induction cs with
  | nil => exact if_pos rfl
  | cons c cs ih =>
    rw [List.cons_append, fields, fields, ih]
    obtain ⟨f, fs, hf⟩ := List.exists_cons_of_ne_nil (fields_ne_nil sep cs)
    rw [hf]
    split <;> rfl

theorem fields_append {sep : α} {f : List α} (h : sep ∉ f) (cs : List α) :
    fields sep (f ++ sep :: cs) = f :: fields sep cs := by
  rw [fields_append_sep, fields_of_notMem h, List.singleton_append]

theorem fields_joinFields {sep : α} {fs : List (List α)} (hne : fs ≠ []) (h : ∀ f ∈ fs, sep ∉ f) :
    fields sep (joinFields sep fs) = fs := by
  induction fs with
  | nil => exact absurd rfl hne
  | cons f fs ih =>
    have hf : sep ∉ f := h f List.mem_cons_self
    cases fs with
    | nil => exact fields_of_notMem hf
    | cons g gs =>
      have hgs := ih (List.cons_ne_nil g gs) fun e he => h e (List.mem_cons_of_mem f he)
      rw [joinFields, fields_append hf, hgs]
      exact List.cons_ne_nil g gs

/-- Where a separator ends every text, nothing follows the last of them. -/
theorem fields_flatMap_sep (sep : α) (texts : List (List α)) :
    fields sep (texts.flatMap (· ++ [sep])) = texts.flatMap (fields sep) ++ [[]] := by
  induction texts with
  | nil => rfl
  | cons cs texts ih =>
    rw [List.flatMap_cons, List.append_assoc, List.singleton_append, fields_append_sep, ih,
      List.flatMap_cons, List.append_assoc]

theorem fields_flatMap {sep : α} {fs : List (List α)} (h : ∀ f ∈ fs, sep ∉ f) :
    fields sep (fs.flatMap (· ++ [sep])) = fs ++ [[]] := by
  have hfields : fs.map (fields sep) = fs.map fun f => [f] :=
    List.map_congr_left fun f hf => fields_of_notMem (h f hf)
  rw [fields_flatMap_sep, List.flatMap_def, hfields, ← List.flatMap_def, List.flatMap_singleton']

/-- Bytes up to the line break, without the carriage return that may stand before it. -/
def chompReturn (line : List UInt8) : List UInt8 :=
  if line.getLast? = some 13 then line.dropLast else line

def lines (bytes : List UInt8) : List (List UInt8) :=
  let fs := fields 10 bytes
  let last := fs.getLastD []
  fs.dropLast.map chompReturn ++ (if last.isEmpty then [] else [last])

end TagIndex.Text
