import TagIndex.Text.Utf8

/-!
# The order of UTF-8 bytes

Texts compare by their UTF-8 bytes as they compare by their characters.

- `utf8EncodeChar_cases`: the four forms of the bytes of a character.
- `encodeChar_append_lt`: the bytes of two different characters differ before either ends, so what
  follows them does not matter.
- `utf8_lt_iff`: byte order of texts.
-/

namespace TagIndex.Text

open String (utf8EncodeChar)

/-- The bytes of a character: the first tells how many there are, each of the others has six bits
of the code point. -/
theorem utf8EncodeChar_cases (c : Char) :
    c.toNat < 0x80 ∧ utf8EncodeChar c = [.ofNat c.toNat] ∨
    0x80 ≤ c.toNat ∧ c.toNat < 0x800 ∧ utf8EncodeChar c =
      [.ofNat (c.toNat / 64 + 0xc0), .ofNat (c.toNat % 64 + 0x80)] ∨
    0x800 ≤ c.toNat ∧ c.toNat < 0x10000 ∧ utf8EncodeChar c =
      [.ofNat (c.toNat / 4096 + 0xe0), .ofNat (c.toNat / 64 % 64 + 0x80),
        .ofNat (c.toNat % 64 + 0x80)] ∨
    0x10000 ≤ c.toNat ∧ c.toNat < 0x110000 ∧ utf8EncodeChar c =
      [.ofNat (c.toNat / 262144 + 0xf0), .ofNat (c.toNat / 4096 % 64 + 0x80),
        .ofNat (c.toNat / 64 % 64 + 0x80), .ofNat (c.toNat % 64 + 0x80)] := by
  have hvalid : c.toNat < 0xd800 ∨ 0xdfff < c.toNat ∧ c.toNat < 0x110000 := c.valid
  simp only [utf8EncodeChar, Char.toNat_val]
  by_cases h1 : c.toNat < 0x80
  · exact .inl ⟨h1, if_pos (by omega)⟩
  rw [if_neg (by omega)]
  by_cases h2 : c.toNat < 0x800
  · refine .inr (.inl ⟨by omega, h2, ?_⟩)
    rw [if_pos (by omega), Nat.mod_eq_of_lt (show c.toNat / 64 < 32 by omega)]
  rw [if_neg (by omega)]
  by_cases h3 : c.toNat < 0x10000
  · refine .inr (.inr (.inl ⟨by omega, h3, ?_⟩))
    rw [if_pos (by omega), Nat.mod_eq_of_lt (show c.toNat / 4096 < 16 by omega)]
  · refine .inr (.inr (.inr ⟨by omega, by omega, ?_⟩))
    rw [if_neg (by omega), Nat.mod_eq_of_lt (show c.toNat / 262144 < 8 by omega)]

theorem ofNat_cons_lt_cons {m n : Nat} (hm : m < 256) (hn : n < 256) (as bs : List UInt8) :
    UInt8.ofNat m :: as < UInt8.ofNat n :: bs ↔ m < n ∨ m = n ∧ as < bs := by
  rw [List.cons_lt_cons_iff, UInt8.lt_iff_toNat_lt, ← UInt8.toNat_inj,
    UInt8.toNat_ofNat_of_lt' hm, UInt8.toNat_ofNat_of_lt' hn]

theorem encodeChar_append_lt {c d : Char} (h : c < d) (as bs : List UInt8) :
    utf8EncodeChar c ++ as < utf8EncodeChar d ++ bs := by
  have h : c.toNat < d.toNat := h
  -- a longer form has a greater first byte, and within one form the bytes are the digits
  rcases utf8EncodeChar_cases c with ⟨hc, hcs⟩ | ⟨_, hc, hcs⟩ | ⟨_, hc, hcs⟩ | ⟨_, hc, hcs⟩ <;>
  rcases utf8EncodeChar_cases d with ⟨hd, hds⟩ | ⟨_, hd, hds⟩ | ⟨_, hd, hds⟩ | ⟨_, hd, hds⟩ <;>
  rw [hcs, hds] <;>
  simp (disch := omega) only [List.cons_append, ofNat_cons_lt_cons] <;>
  omega

theorem utf8_cons (c : Char) (cs : List Char) : utf8 (c :: cs) = utf8EncodeChar c ++ utf8 cs :=
  List.flatMap_cons

theorem utf8_lt_utf8 {cs ds : List Char} (h : cs < ds) : utf8 cs < utf8 ds := by
  induction h with
  | nil =>
    rename_i d ds
    obtain ⟨b, bs, hb⟩ := List.exists_cons_of_ne_nil (String.utf8EncodeChar_ne_nil (c := d))
    rw [utf8_cons, hb]
    exact List.nil_lt_cons ..
  | cons _ ih =>
    rw [utf8_cons, utf8_cons]
    exact List.append_left_lt ih
  | rel h =>
    rw [utf8_cons, utf8_cons]
    exact encodeChar_append_lt h ..

theorem utf8_lt_iff {cs ds : List Char} : utf8 cs < utf8 ds ↔ cs < ds := by
  refine ⟨fun h => ?_, utf8_lt_utf8⟩
  rcases Decidable.em (cs < ds) with hlt | hle
  · exact hlt
  rcases Decidable.em (ds < cs) with hlt | hge
  · exact absurd h (List.lt_asymm (utf8_lt_utf8 hlt))
  · rw [List.le_antisymm hge hle] at h
    exact absurd h (List.lt_irrefl _)

end TagIndex.Text
