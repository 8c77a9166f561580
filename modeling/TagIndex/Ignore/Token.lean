import TagIndex.Text.Places
import TagIndex.Text.Suffix
import TagIndex.Text.Utf8

/-!
# Patterns of ignore files

A pattern is matched against the bytes of a path relative to the directory of its ignore file.
Unlike an exclude glob, `*` and `?` stop at slashes, a backslash quotes the next character and
`{a,b}` is a choice.

A pattern is a list of tokens. `Token.rests` gives what can be left of a path after one token,
`rests` after all of them, and `accepts` asks for a way to leave nothing. `matchesPath` answers the
same by following all ways through the path at once.
-/

namespace TagIndex.Ignore

structure ByteRange where
  low : UInt8
  high : UInt8
deriving DecidableEq, Repr

def ByteRange.contains (r : ByteRange) (b : UInt8) : Bool :=
  r.low ≤ b && b ≤ r.high

inductive Token where
  | literal (bytes : List UInt8)
  /-- One byte that is no slash. -/
  | anyByte
  /-- Any number of bytes that are no slashes. -/
  | anyBytes
  /-- Any number of directories before the rest of a path. -/
  | leading
  /-- A slash, or any number of directories between two slashes. -/
  | inner
  /-- A slash and all that is below it. -/
  | trailing
  | set (negated : Bool) (ranges : List ByteRange)
  | choice (branches : List (List Token))
deriving Repr, Inhabited

/-- Whether the token is a choice without branches, which takes nothing. -/
def Token.isEmptyChoice : Token → Bool
  | .choice [] => true
  | _ => false

def slash : UInt8 := 47

/-- The ends of a byte string that start no later than at its first slash. -/
def segmentSuffixes : List UInt8 → List (List UInt8)
  | [] => [[]]
  | b :: bs => if b = slash then [b :: bs] else (b :: bs) :: segmentSuffixes bs

mutual

def Token.rests : Token → List UInt8 → List (List UInt8)
  | .literal bytes, bs => (Text.stripStart? bytes bs).toList
  | .anyBytes, bs => segmentSuffixes bs
  | .leading, bs => bs :: Text.afterEach slash bs
  | .choice [], bs => [bs]
  | .choice branches, bs => restsOfAny branches bs
  | .anyByte, b :: bs => if b = slash then [] else [bs]
  | .inner, b :: bs => if b = slash then bs :: Text.afterEach slash bs else []
  | .trailing, b :: bs => if b = slash then Text.suffixes bs else []
  | .set negated ranges, b :: bs => if ranges.any (·.contains b) != negated then [bs] else []
  | _, [] => []

def rests : List Token → List UInt8 → List (List UInt8)
  | [], bs => [bs]
  | t :: ts, bs => (t.rests bs).flatMap fun left => rests ts left

def restsOfAny : List (List Token) → List UInt8 → List (List UInt8)
  | [], _ => []
  | ts :: more, bs => rests ts bs ++ restsOfAny more bs

end

/-- Whether the tokens together take a whole path. Two stars alone take every path. -/
def accepts : List Token → List UInt8 → Bool
  | [.leading], _ => true
  | ts, bs => (rests ts bs).any List.isEmpty

/-! ### Following all ways at once -/

def behindDirectories (bs : List UInt8) (places : List Bool) : List Bool :=
  Text.either places (Text.afterOne (· == slash) bs (Text.afterMany (fun _ => true) bs places))

mutual

/-- The places of a path after a token, coming from a set of places. -/
def Token.advance (bs : List UInt8) (places : List Bool) : Token → List Bool
  | .literal bytes => bytes.foldl (fun places b => Text.afterOne (· == b) bs places) places
  | .anyByte => Text.afterOne (· != slash) bs places
  | .anyBytes => Text.afterMany (· != slash) bs places
  | .leading => behindDirectories bs places
  | .inner => behindDirectories bs (Text.afterOne (· == slash) bs places)
  | .trailing => Text.afterMany (fun _ => true) bs (Text.afterOne (· == slash) bs places)
  | .set negated ranges => Text.afterOne (fun b => ranges.any (·.contains b) != negated) bs places
  | .choice [] => places
  | .choice branches => advanceAny bs places branches

def advance (bs : List UInt8) (places : List Bool) : List Token → List Bool
  | [] => places
  | t :: ts => advance bs (t.advance bs places) ts

def advanceAny (bs : List UInt8) (places : List Bool) : List (List Token) → List Bool
  | [] => []
  | ts :: more => Text.either (advance bs places ts) (advanceAny bs places more)

end

/-- Whether the tokens together take a whole path. Two stars alone take every path. -/
def matchesPath : List Token → List UInt8 → Bool
  | [.leading], _ => true
  | ts, bs => Text.atEnd bs (advance bs [true] ts)

theorem mem_segmentSuffixes {bs ds : List UInt8} :
    ds ∈ segmentSuffixes bs ↔ ∃ taken, (∀ b ∈ taken, (b != slash) = true) ∧ taken ++ ds = bs := by
  induction bs with
  | nil =>
    simp only [segmentSuffixes, List.mem_singleton, List.append_eq_nil_iff]
    exact ⟨fun h => ⟨[], by simp, rfl, h⟩, fun ⟨_, _, _, h⟩ => h⟩
  | cons b bs ih =>
    rw [segmentSuffixes]
    constructor
    · intro h
      split at h
      · rw [List.mem_singleton] at h
        exact ⟨[], by simp, h⟩
      · next hb =>
        rcases List.mem_cons.1 h with h | h
        · exact ⟨[], by simp, h⟩
        · obtain ⟨taken, hall, rfl⟩ := ih.1 h
          exact ⟨b :: taken, by simpa [hb] using hall, rfl⟩
    · rintro ⟨taken, hall, h⟩
      cases taken with
      | nil => split <;> simp_all
      | cons c taken =>
        simp only [List.cons_append, List.cons.injEq] at h
        simp only [List.mem_cons, forall_eq_or_imp] at hall
        have hb : b ≠ slash := by simpa [h.1] using hall.1
        rw [if_neg hb]
        exact List.mem_cons_of_mem _ (ih.2 ⟨taken, hall.2, h.2⟩)

theorem mem_ends_behindDirectories (bs : List UInt8) (places : List Bool) (ds : List UInt8) :
    ds ∈ Text.ends bs (behindDirectories bs places) ↔
      ∃ es ∈ Text.ends bs places, ds = es ∨ ds ∈ Text.afterEach slash es := by
  simp only [behindDirectories, Text.mem_ends_either, Text.mem_ends_afterOne,
    Text.mem_ends_afterMany, Text.mem_afterEach, beq_iff_eq]
  constructor
  · rintro (h | ⟨_, rfl, taken, -, h⟩)
    · exact ⟨ds, h, .inl rfl⟩
    · exact ⟨_, h, .inr ⟨taken, rfl⟩⟩
  · rintro ⟨es, h, rfl | ⟨taken, rfl⟩⟩
    · exact .inl h
    · exact .inr ⟨slash, rfl, taken, by simp, h⟩

theorem mem_ends_literal (bs bytes : List UInt8) (places : List Bool) (ds : List UInt8) :
    ds ∈ Text.ends bs (bytes.foldl (fun places b => Text.afterOne (· == b) bs places) places) ↔
      bytes ++ ds ∈ Text.ends bs places := by
  induction bytes generalizing places with
  | nil => rfl
  | cons b bytes ih => simp [ih, Text.mem_ends_afterOne]

/-- A token that takes one byte. -/
theorem mem_ends_single {bs : List UInt8} {places : List Bool} {ds : List UInt8} {t : Token}
    {p : UInt8 → Bool} (hnil : ds ∉ t.rests [])
    (hcons : ∀ e es, ds ∈ t.rests (e :: es) ↔ p e = true ∧ ds = es) :
    ds ∈ Text.ends bs (Text.afterOne p bs places) ↔
      ∃ es ∈ Text.ends bs places, ds ∈ t.rests es := by
  rw [Text.mem_ends_afterOne]
  constructor
  · rintro ⟨c, hp, hc⟩
    exact ⟨_, hc, (hcons c ds).2 ⟨hp, rfl⟩⟩
  · rintro ⟨es, hes, h⟩
    cases es with
    | nil => exact absurd h hnil
    | cons e es =>
      obtain ⟨hp, rfl⟩ := (hcons e es).1 h
      exact ⟨e, hp, hes⟩

mutual

theorem Token.mem_ends_advance (bs : List UInt8) (places : List Bool) (t : Token)
    (ds : List UInt8) : ds ∈ Text.ends bs (t.advance bs places) ↔
      ∃ es ∈ Text.ends bs places, ds ∈ t.rests es := by
  match t with
  | .literal bytes =>
    simp only [Token.advance, Token.rests, mem_ends_literal, Option.mem_toList,
      Text.stripStart?_eq_some]
    exact ⟨fun h => ⟨_, h, rfl⟩, fun ⟨_, h, e⟩ => e ▸ h⟩
  | .anyByte =>
    rw [Token.advance]
    refine mem_ends_single (by simp [Token.rests]) fun e es => ?_
    simp only [Token.rests]
    split <;> simp [*]
  | .anyBytes =>
    simp only [Token.advance, Token.rests, Text.mem_ends_afterMany, mem_segmentSuffixes]
    exact ⟨fun ⟨taken, hall, h⟩ => ⟨_, h, taken, hall, rfl⟩,
      fun ⟨_, h, taken, hall, e⟩ => ⟨taken, hall, e ▸ h⟩⟩
  | .leading => simp only [Token.advance, Token.rests, mem_ends_behindDirectories, List.mem_cons]
  | .inner =>
    simp only [Token.advance, mem_ends_behindDirectories, Text.mem_ends_afterOne, beq_iff_eq]
    constructor
    · rintro ⟨es, ⟨_, rfl, h⟩, hds⟩
      exact ⟨_, h, by simpa [Token.rests] using hds⟩
    · rintro ⟨es, h, hds⟩
      match es with
      | [] => simp [Token.rests] at hds
      | e :: es =>
        by_cases he : e = slash
        · exact ⟨es, ⟨e, he, h⟩, by simpa [Token.rests, he] using hds⟩
        · simp [Token.rests, he] at hds
  | .trailing =>
    simp only [Token.advance, Text.mem_ends_afterMany, Text.mem_ends_afterOne, beq_iff_eq]
    constructor
    · rintro ⟨taken, -, _, rfl, h⟩
      exact ⟨_, h, by simp [Token.rests, Text.mem_suffixes]⟩
    · rintro ⟨es, h, hds⟩
      match es with
      | [] => simp [Token.rests] at hds
      | e :: es =>
        by_cases he : e = slash
        · simp only [Token.rests, he, if_pos, Text.mem_suffixes] at hds
          obtain ⟨taken, rfl⟩ := hds
          exact ⟨taken, by simp, e, he, h⟩
        · simp [Token.rests, he] at hds
  | .set negated ranges =>
    rw [Token.advance]
    refine mem_ends_single (by simp [Token.rests]) fun e es => ?_
    simp only [Token.rests]
    split <;> simp [*]
  | .choice [] => simp [Token.advance, Token.rests]
  | .choice (ts :: more) =>
    simp only [Token.advance, Token.rests]
    exact mem_ends_advanceAny bs places (ts :: more) ds

theorem mem_ends_advance (bs : List UInt8) (places : List Bool) (ts : List Token)
    (ds : List UInt8) : ds ∈ Text.ends bs (advance bs places ts) ↔
      ∃ es ∈ Text.ends bs places, ds ∈ rests ts es := by
  match ts with
  | [] => simp [advance, rests]
  | t :: ts =>
    simp only [advance, rests, mem_ends_advance bs _ ts, Token.mem_ends_advance bs places t,
      List.mem_flatMap]
    exact ⟨fun ⟨es, ⟨fs, hf, he⟩, h⟩ => ⟨fs, hf, es, he, h⟩,
      fun ⟨fs, hf, es, he, h⟩ => ⟨es, ⟨fs, hf, he⟩, h⟩⟩

theorem mem_ends_advanceAny (bs : List UInt8) (places : List Bool) (branches : List (List Token))
    (ds : List UInt8) : ds ∈ Text.ends bs (advanceAny bs places branches) ↔
      ∃ es ∈ Text.ends bs places, ds ∈ restsOfAny branches es := by
  match branches with
  | [] => simp [advanceAny, restsOfAny, Text.ends_empty]
  | ts :: more =>
    simp only [advanceAny, restsOfAny, Text.mem_ends_either, mem_ends_advance bs places ts,
      mem_ends_advanceAny bs places more, List.mem_append, and_or_left, exists_or]

end

theorem matchesPath_eq_accepts (ts : List Token) (bs : List UInt8) :
    matchesPath ts bs = accepts ts bs := by
  unfold matchesPath accepts
  split
  · rfl
  · rw [Bool.eq_iff_iff, Text.atEnd_iff, mem_ends_advance, Text.ends_start]
    simp [List.any_eq_true]

end TagIndex.Ignore
