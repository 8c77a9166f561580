import TagIndex.Proofs.JsonReader
import TagIndex.TagFile.Basic

/-!
# JSON lines can be read back

The JSON format of a tags file loses nothing: each tag line has a line of its own, and a reader of
JSON finds the tag line in it.

- `Json.Spells`, `Json.SpellsMembers`: the texts that this library writes for values and for the
  members of objects.
- `Json.value?_of_spells`, `Json.members?_of_spells`: the reader understands them, whatever follows.
- `Json.ofJson?_record`: the object of a tag line describes the tag line.
- `TagFile.render_json`: a whole file.
-/

namespace TagIndex

namespace Json

/-! ### Strings -/

theorem hexDigit?_digitChar {n : Nat} (h : n < 16) : hexDigit? n.digitChar = some n := by
  revert n
  decide

/-- A code point below 256 is the last two of four hexadecimal digits. -/
theorem codePoint?_digits (c : Char) (h : c.toNat < 256) (rest : List Char) :
    codePoint? ('0' :: '0' :: (c.toNat / 16).digitChar :: (c.toNat % 16).digitChar :: rest) =
      some (c, rest) := by
  have hhigh : hexDigit? (c.toNat / 16).digitChar = some (c.toNat / 16) :=
    hexDigit?_digitChar (by omega)
  have hlow : hexDigit? (c.toNat % 16).digitChar = some (c.toNat % 16) :=
    hexDigit?_digitChar (by omega)
  have hzero : hexDigit? '0' = some 0 := rfl
  have hunit : ((0 * 16 + 0) * 16 + c.toNat / 16) * 16 + c.toNat % 16 = c.toNat := by omega
  simp only [codePoint?, codeUnit?, hhigh, hlow, hzero, hunit, Option.bind_eq_bind,
    Option.bind_some, Option.pure_def]
  rw [if_neg (by omega), if_neg (by omega), Char.ofNat_toNat]

/-- The three forms of a character in a string: a short escape, a code point, the character. -/
theorem escapeChar_cases (c : Char) :
    (∃ e, e ≠ '\n' ∧ escapeChar c = ['\\', e] ∧ ∀ rest, escape? (e :: rest) = some (c, rest)) ∨
    (c.toNat < 0x20 ∧ escapeChar c =
      ['\\', 'u', '0', '0', (c.toNat / 16).digitChar, (c.toNat % 16).digitChar]) ∨
    (c ≠ '\x22' ∧ c ≠ '\\' ∧ ¬ c.toNat < 0x20 ∧ escapeChar c = [c]) := by
  fun_cases escapeChar c with
  | case8 _ _ _ _ _ _ _ hcontrol => exact .inr (.inl ⟨hcontrol, rfl⟩)
  | case9 hquote hbackslash _ _ _ _ _ hcontrol =>
    exact .inr (.inr ⟨hquote, hbackslash, hcontrol, rfl⟩)
  | _ =>
    subst c
    exact .inl ⟨_, by decide, rfl, fun _ => rfl⟩

theorem chars?_escapeChar (c : Char) (rest : List Char) :
    chars? (escapeChar c ++ rest) = (chars? rest).map fun (text, rest) => (c :: text, rest) := by
  obtain ⟨e, -, heq, hread⟩ | ⟨hcontrol, heq⟩ | ⟨hquote, hbackslash, hcontrol, heq⟩ :=
    escapeChar_cases c
  · rw [heq]
    exact chars?_escape (hread rest)
  · rw [heq]
    exact chars?_escape (codePoint?_digits c (by omega) rest)
  · rw [heq]
    exact chars?_plain hquote hbackslash hcontrol rest

theorem newline_notMem_escapeChar (c : Char) : '\n' ∉ escapeChar c := by
  obtain ⟨e, he, heq, -⟩ | ⟨hcontrol, heq⟩ | ⟨-, -, hcontrol, heq⟩ := escapeChar_cases c
  · simp [heq, he.symm]
  · simp [heq]
  · rw [heq, List.mem_singleton]
    rintro rfl
    exact hcontrol (by decide)

theorem chars?_flatMap_escapeChar (s rest : List Char) :
    chars? (s.flatMap escapeChar ++ '\x22' :: rest) = some (s, rest) := by
  induction s with
  | nil => exact chars?_quote rest
  | cons c s ih =>
    rw [List.flatMap_cons, List.append_assoc, chars?_escapeChar, ih]
    rfl

theorem toList_quote (s : String) :
    (quote s).toList = '\x22' :: s.toList.flatMap escapeChar ++ ['\x22'] := by
  simp [quote]

/-! ### Numbers -/

theorem head?_toDigits {n : Nat} (h : 0 < n) : (Nat.toDigits 10 n).head? ≠ some '0' := by
  induction n using Nat.strongRecOn with
  | ind n ih =>
    by_cases hn : n < 10
    · simpa [Nat.toDigits_of_lt_base hn] using Nat.ne_of_gt h
    · rw [Nat.toDigits_of_base_le (by decide) (by omega), List.head?_append,
        Option.or_of_isSome (by simp [Nat.toDigits_ne_nil])]
      exact ih (n / 10) (by omega) (by omega)

theorem toDigits_eq_cons (n : Nat) : ∃ d ds, Nat.toDigits 10 n = d :: ds ∧ d.isDigit := by
  obtain ⟨d, ds, heq⟩ := List.exists_cons_of_ne_nil (Nat.toDigits_ne_nil (b := 10) (n := n))
  exact ⟨d, ds, heq, Nat.isDigit_of_mem_toDigits (b := 10) (n := n) (by decide) (by decide)
    (by simp [heq])⟩

theorem digits?_toDigits (n : Nat) {c : Char} (hc : ¬ c.isDigit) (rest : List Char) :
    digits? (Nat.toDigits 10 n ++ c :: rest) = some (Nat.toDigits 10 n, c :: rest) := by
  have hdigits : ∀ d ∈ Nat.toDigits 10 n, d.isDigit := fun d hd =>
    Nat.isDigit_of_mem_toDigits (by decide) (by decide) hd
  rw [digits?, List.takeWhile_append_of_pos hdigits, List.dropWhile_append_of_pos hdigits,
    List.takeWhile_cons_of_neg hc, List.dropWhile_cons_of_neg hc, List.append_nil, if_neg]
  simp [Nat.toDigits_ne_nil]

theorem whole?_toDigits (n : Nat) {c : Char} (hc : ¬ c.isDigit) (rest : List Char) :
    whole? (Nat.toDigits 10 n ++ c :: rest) = some ((n : Rat), c :: rest) := by
  have hzero : ¬ ((Nat.toDigits 10 n).head? = some '0' ∧ (Nat.toDigits 10 n).length ≠ 1) := by
    rintro ⟨hhead, hlength⟩
    obtain rfl | hn := Nat.eq_zero_or_pos n
    · exact hlength rfl
    · exact head?_toDigits hn hhead
  rw [whole?, digits?_toDigits n hc rest]
  simp only [Option.bind_eq_bind, Option.bind_some, if_neg hzero, Nat.ofDigitChars_ten_toDigits,
    Option.pure_def]

/-- What may follow a value inside an object. -/
def EndsMember (c : Char) : Prop :=
  c = ',' ∨ c = '\x7d'

theorem number?_toDigits (n : Nat) {c : Char} (hc : EndsMember c) (rest : List Char) :
    number? (Nat.toDigits 10 n ++ c :: rest) = some ((n : Rat), c :: rest) := by
  have hdigit : ¬ c.isDigit := by
    rcases hc with rfl | rfl <;> decide
  have hfraction : fraction? (c :: rest) = some (0, c :: rest) := by
    rcases hc with rfl | rfl <;> rfl
  have hexponent : exponent? (c :: rest) = some (0, c :: rest) := by
    rcases hc with rfl | rfl <;> rfl
  have hmagnitude : magnitude? (Nat.toDigits 10 n ++ c :: rest) = some ((n : Rat), c :: rest) := by
    simp only [magnitude?, whole?_toDigits n hdigit rest, hfraction, hexponent, Option.bind_eq_bind,
      Option.bind_some, Option.pure_def, Rat.add_zero, Rat.zpow_zero, Rat.mul_one]
  rw [← hmagnitude]
  obtain ⟨d, ds, heq, hd⟩ := toDigits_eq_cons n
  rw [heq, List.cons_append, number?]
  intro _ h
  obtain ⟨rfl, -⟩ := List.cons.inj h
  exact absurd hd (by decide)

/-! ### Values -/

/-- The texts that this library writes for values. -/
inductive Spells : List Char → Value → Prop
  | string (s : String) : Spells (quote s).toList (.string s)
  | natural (n : Nat) : Spells n.repr.toList (.number n)
  | yes : Spells ['t', 'r', 'u', 'e'] (.bool true)

/-- The texts that this library writes between the braces of an object. -/
inductive SpellsMembers : List Char → List (String × Value) → Prop
  | last {name : String} {text : List Char} {v : Value} (h : Spells text v) :
      SpellsMembers ((quote name).toList ++ ':' :: text) [(name, v)]
  | cons {name : String} {text later : List Char} {v : Value} {members : List (String × Value)}
      (h : Spells text v) (hs : SpellsMembers later members) :
      SpellsMembers ((quote name).toList ++ ':' :: text ++ ',' :: later) ((name, v) :: members)

theorem skipBlanks_cons {c : Char} (h : isBlank c = false) (rest : List Char) :
    skipBlanks (c :: rest) = c :: rest :=
  List.dropWhile_cons_of_neg (by simp [h])

theorem value?_of_spells {text : List Char} {v : Value} (h : Spells text v) (n : Nat) {c : Char}
    (hc : EndsMember c) (rest : List Char) :
    value? (n + 1) (text ++ c :: rest) = some (v, c :: rest) := by
  cases h with
  | string s =>
    rw [toList_quote]
    simp only [List.cons_append, List.append_assoc, List.nil_append]
    rw [value?.eq_def, skipBlanks_cons rfl]
    simp only [Char.reduceEq, ↓reduceIte, chars?_flatMap_escapeChar, Option.map_some,
      String.ofList_toList]
  | natural m =>
    obtain ⟨d, ds, heq, hd⟩ := toDigits_eq_cons m
    have hne : ∀ e : Char, e.isDigit = false → d ≠ e := by
      rintro e he rfl
      simp [he] at hd
    have hblank : isBlank d = false := by
      simp [isBlank, hne]
    have hnumber := number?_toDigits m hc rest
    rw [heq, List.cons_append] at hnumber
    rw [Nat.toList_repr, heq, List.cons_append, value?.eq_def, skipBlanks_cons hblank]
    simp [hne, hnumber]
  | yes =>
    rw [value?.eq_def]
    rfl

theorem name?_quote (name : String) (rest : List Char) :
    name? ((quote name).toList ++ ':' :: rest) = some (name, rest) := by
  rw [toList_quote]
  simp only [List.cons_append, List.append_assoc, List.nil_append]
  rw [name?, skipBlanks_cons rfl]
  simp only [chars?_flatMap_escapeChar, Option.bind_eq_bind, Option.bind_some]
  rw [skipBlanks_cons rfl, String.ofList_toList]
  rfl

theorem newline_notMem_quote (s : String) : '\n' ∉ (quote s).toList := by
  simp [toList_quote, newline_notMem_escapeChar]

theorem Spells.newline_notMem {text : List Char} {v : Value} (h : Spells text v) :
    '\n' ∉ text := by
  cases h with
  | string s => exact newline_notMem_quote s
  | natural n =>
    rw [Nat.toList_repr]
    intro hmem
    exact absurd (Nat.isDigit_of_mem_toDigits (by decide) (by decide) hmem) (by decide)
  | yes => decide

section Members

variable {text : List Char} {members : List (String × Value)} (h : SpellsMembers text members)
include h

theorem members?_of_spells {n : Nat} (hn : members.length < n) (rest : List Char) :
    members? n (text ++ '\x7d' :: rest) = some (members, rest) := by
  -- each call reads one member and goes on with one less, and the last value needs one more
  induction h generalizing n with
  | last h =>
    match n, hn with
    | n + 2, _ =>
      rw [List.append_assoc]
      exact members?_last (name?_quote _ _) (value?_of_spells h n (.inr rfl) rest)
  | cons h hs ih =>
    match n, hn with
    | n + 2, hn =>
      rw [List.append_assoc, List.append_assoc]
      exact members?_more (name?_quote _ _) (value?_of_spells h n (.inl rfl) _)
        (ih (Nat.lt_of_succ_lt_succ hn))

theorem SpellsMembers.eq_cons : ∃ tail, text = '\x22' :: tail := by
  cases h <;> simp [toList_quote]

theorem SpellsMembers.length_le : members.length ≤ text.length := by
  induction h with
  | last h =>
    simp only [List.length_cons, List.length_nil, List.length_append]
    omega
  | cons h hs ih =>
    simp only [List.length_cons, List.length_append]
    omega

theorem SpellsMembers.newline_notMem : '\n' ∉ text := by
  induction h with
  | last h => simp [newline_notMem_quote, h.newline_notMem]
  | cons h hs ih => simp [newline_notMem_quote, h.newline_notMem, ih]

theorem value?_object {n : Nat} (hn : members.length < n) (rest : List Char) :
    value? (n + 1) ('\x7b' :: text ++ '\x7d' :: rest) = some (.object members, rest) := by
  have hmembers := members?_of_spells h hn rest
  obtain ⟨tail, rfl⟩ := h.eq_cons
  rw [value?.eq_def, List.cons_append, List.cons_append, skipBlanks_cons rfl]
  simp only [↓reduceIte]
  rw [skipBlanks_cons rfl]
  exact congrArg (Option.map _) hmembers

theorem parse?_object : parse? ('\x7b' :: text ++ ['\x7d']) = some (.object members) := by
  have henough : members.length < ('\x7b' :: text ++ ['\x7d']).length := by
    have := h.length_le
    simp only [List.length_append, List.length_cons]
    omega
  rw [parse?, value?_object h henough []]
  rfl

end Members

/-! ### Tag lines -/

def members (l : TagLine) : List (String × Value) :=
  [("_type", .string "tag"), ("name", .string l.tag.name), ("path", .string l.file),
    ("line", .number l.tag.position.line.toNat), ("column", .number l.tag.position.column.toNat)] ++
  (l.tag.qualifier.toList.map fun q => ("scope", .string q)) ++
  (if l.tag.isLocal then [("fileLocal", .bool true)] else []) ++
  [("language", .string l.language)]

/-- The names of members and the type of the object have nothing to escape. -/
theorem quote_fixed : ∀ s ∈ ["_type", "tag", "name", "path", "line", "column", "scope", "fileLocal",
    "language"], quote s = "\"" ++ s ++ "\"" := by
  decide +kernel

theorem exists_spells_record (l : TagLine) :
    ∃ text, SpellsMembers text (members l) ∧ (record l).toList = '\x7b' :: text ++ ['\x7d'] := by
  obtain ⟨⟨qualifier, name, isLocal, ⟨line, column⟩⟩, file, language⟩ := l
  -- with or without each of the two members that may be missing
  cases qualifier <;> cases isLocal
  all_goals
    refine ⟨_, by repeat' constructor, ?_⟩
    unfold record
    simp [quote_fixed]

theorem uint32?_of_lookup {members : List (String × Value)} {name : String} {n : UInt32}
    (h : members.lookup name = some (.number n.toNat)) : uint32? members name = some n := by
  have hn := n.toNat_lt
  simp only [uint32?, h]
  rw [if_pos ⟨Rat.den_natCast _, by simp, by simpa using hn⟩]
  simp

theorem ofValue?_members (l : TagLine) : TagLine.ofValue? (.object (members l)) = some l := by
  obtain ⟨⟨qualifier, name, isLocal, ⟨line, column⟩⟩, file, language⟩ := l
  cases qualifier <;> cases isLocal
  all_goals
    apply TagLine.ofValue?_object
    case hline => exact uint32?_of_lookup (by simp [members, List.lookup_cons])
    case hcolumn => exact uint32?_of_lookup (by simp [members, List.lookup_cons])
    all_goals simp [members, text?, qualifier?, isLocal?, List.lookup_cons]

theorem ofJson?_record (l : TagLine) : TagLine.ofJson? (record l).toList = some l := by
  obtain ⟨text, hspells, heq⟩ := exists_spells_record l
  rw [TagLine.ofJson?, heq, parse?_object hspells]
  exact ofValue?_members l

theorem newline_notMem_record (l : TagLine) : '\n' ∉ (record l).toList := by
  obtain ⟨text, hspells, heq⟩ := exists_spells_record l
  simp [heq, hspells.newline_notMem]

end Json

namespace TagFile

theorem toList_render_json (header : Bool) (lines : List TagLine) :
    (render ⟨.json, header⟩ lines).toList =
      (lines.map fun l => (Json.record l).toList).flatMap (· ++ ['\n']) := by
  simp [render, pieces, Piece.record, List.map_flatMap, List.flatMap_map, List.flatMap_assoc]

/-- A tags file of the JSON format, with or without a header, has one line for each tag line, which
describes the tag line. -/
theorem render_json (lines : List TagLine) :
    ∃ records : List (List Char),
      (∀ header, (render ⟨.json, header⟩ lines).toList = records.flatMap (· ++ ['\n'])) ∧
      (∀ text ∈ records, '\n' ∉ text) ∧
      records.map TagLine.ofJson? = lines.map some := by
  refine ⟨lines.map fun l => (Json.record l).toList, fun header => toList_render_json header lines,
    ?_, ?_⟩
  · simp only [List.forall_mem_map]
    exact fun l _ => Json.newline_notMem_record l
  · rw [List.map_map]
    apply List.map_congr_left
    intro l _
    rw [Function.comp_apply, Json.ofJson?_record]

end TagFile

end TagIndex
