import TagIndex.Proofs.Positions
import TagIndex.TagFile.Basic

/-!
# Output that does not fit

A tags file is written in many pieces, and a full device fails in the middle of one of them. What is
left on the device and what is reported do not depend on the pieces: the output is one stream, of
which the device takes what it has room for, and the first byte that it does not take decides.

- `Piece.stream`: the bytes of some pieces, each with what kind of piece it belongs to.
- `Sink.writePieces_eq`: writing pieces is writing their stream.
- `Piece.Cuts`: the same pieces, cut into smaller ones.
- `EndsRecord`: the places between a record and its line break.
- `Sink.write_stream`: what becomes of a tags file, in either format.
-/

namespace TagIndex

namespace TagFile

namespace Piece

def bytes (p : Piece) : List UInt8 :=
  Text.utf8 p.text.toList

/-- The bytes of some pieces. Each says whether it is part of a JSON record. -/
def stream (ps : List Piece) : List (UInt8 × Bool) :=
  ps.flatMap fun p => p.bytes.map (·, p.isRecord)

/-- The pieces `qs` are `ps`, with each of them cut into parts of any size. -/
inductive Cuts : List Piece → List Piece → Prop where
  | nil : Cuts [] []
  | cons {p : Piece} {ps qs : List Piece} (parts : List String)
      (hparts : String.join parts = p.text) (h : Cuts ps qs) :
      Cuts (p :: ps) (parts.map ({ p with text := · }) ++ qs)

theorem stream_cons (p : Piece) (ps : List Piece) :
    stream (p :: ps) = p.bytes.map (·, p.isRecord) ++ stream ps :=
  List.flatMap_cons

theorem stream_append (ps qs : List Piece) : stream (ps ++ qs) = stream ps ++ stream qs :=
  List.flatMap_append

theorem map_fst_stream (ps : List Piece) :
    (stream ps).map Prod.fst = Text.utf8 (String.join (ps.map (·.text))).toList := by
  induction ps with
  | nil => rfl
  | cons p ps ih =>
    rw [stream_cons, List.map_append, ih, List.map_cons, List.map_map]
    simp [bytes, Text.utf8_append, Function.comp_def]

/-- The parts of a piece have its stream. -/
theorem stream_parts (p : Piece) (parts : List String) (h : String.join parts = p.text) :
    stream (parts.map ({ p with text := · })) = p.bytes.map (·, p.isRecord) := by
  rw [bytes, ← h]
  clear h
  induction parts with
  | nil => rfl
  | cons text parts ih =>
    rw [List.map_cons, stream_cons, ih]
    simp [bytes, Text.utf8_append]

theorem Cuts.stream_eq {ps qs : List Piece} (h : Cuts ps qs) : stream qs = stream ps := by
  induction h with
  | nil => rfl
  | cons parts hparts _ ih => rw [stream_append, stream_parts _ parts hparts, stream_cons, ih]

end Piece

end TagFile

namespace Sink

open TagFile (Piece)

/-- What the fault at a byte of the stream is reported as. -/
def failureAt (fault : IoFault) (byte : UInt8 × Bool) : Failure :=
  if byte.2 then .json fault else .io fault

theorem writePieces_of_le {s : Sink} {p : Piece} (h : p.bytes.length ≤ s.room) (ps : List Piece) :
    s.writePieces (p :: ps) =
      let later := writePieces { s with room := s.room - p.bytes.length } ps
      { later with bytes := p.bytes ++ later.bytes } :=
  if_pos h

theorem writePieces_of_lt {s : Sink} {p : Piece} (h : s.room < p.bytes.length) (ps : List Piece) :
    s.writePieces (p :: ps) =
      { bytes := p.bytes.take s.room
        failure := some (if p.isRecord then .json s.fault else .io s.fault) } :=
  if_neg (Nat.not_le.mpr h)

/-- A sink takes as much of the stream as it has room for, and fails at the next byte. -/
theorem writePieces_eq (s : Sink) (ps : List Piece) :
    s.writePieces ps =
      { bytes := ((Piece.stream ps).take s.room).map Prod.fst
        failure := (Piece.stream ps)[s.room]?.map (failureAt s.fault) } := by
  -- The room shrinks with every piece that fits.
  induction ps generalizing s with
  | nil => simp [writePieces, Piece.stream]
  | cons p ps ih =>
    have hsize : (p.bytes.map (·, p.isRecord)).length = p.bytes.length := List.length_map _
    rw [Piece.stream_cons]
    rcases Nat.lt_or_ge s.room p.bytes.length with hroom | hfits
    · rw [writePieces_of_lt hroom, List.take_append_of_le_length (by omega),
        List.getElem?_append_left (by omega)]
      simp [failureAt, hroom, Function.comp_def]
    · rw [writePieces_of_le hfits, ih, List.take_append, List.getElem?_append_right (by omega),
        hsize]
      simp [List.take_of_length_le hfits, Function.comp_def]

/-- How a text is cut into pieces is not seen in what becomes of it. -/
theorem writePieces_cuts (s : Sink) {ps qs : List Piece} (h : Piece.Cuts ps qs) :
    s.writePieces qs = s.writePieces ps := by
  rw [writePieces_eq, writePieces_eq, h.stream_eq]

end Sink

namespace TagFile

theorem isRecord_ctags {header : Bool} {lines : List TagLine} {p : Piece}
    (h : p ∈ pieces ⟨.ctags, header⟩ lines) : p.isRecord = false := by
  rcases List.mem_append.mp h with h | h
  · cases header with
    | false => cases h
    | true =>
      obtain ⟨text, -, rfl⟩ := List.mem_map.mp h
      rfl
  · obtain ⟨l, -, rfl⟩ := List.mem_map.mp h
    rfl

/-- In the ctags format, no byte is part of a record. -/
theorem stream_ctags (header : Bool) (lines : List TagLine) :
    ∀ b ∈ Piece.stream (pieces ⟨.ctags, header⟩ lines), b.2 = false := by
  intro b hb
  obtain ⟨p, hp, hb⟩ := List.mem_flatMap.mp hb
  obtain ⟨byte, -, rfl⟩ := List.mem_map.mp hb
  exact isRecord_ctags hp

theorem map_fst_stream_pieces (f : TagFile) (lines : List TagLine) :
    (Piece.stream (f.pieces lines)).map Prod.fst = Text.utf8 (f.render lines).toList :=
  Piece.map_fst_stream (f.pieces lines)

theorem stream_json_cons (header : Bool) (l : TagLine) (lines : List TagLine) :
    Piece.stream (pieces ⟨.json, header⟩ (l :: lines)) =
      (Text.utf8 (Json.record l).toList).map (·, true) ++
        (10, false) :: Piece.stream (pieces ⟨.json, header⟩ lines) := by
  have hbreak : Text.utf8 ['\n'] = [10] := by decide +kernel
  simp [pieces, Piece.record, Piece.stream, Piece.bytes, hbreak]

/-- A number of bytes after which a record of the JSON format is complete and its line break is
not. -/
def EndsRecord (lines : List TagLine) (size : Nat) : Prop :=
  ∃ before l after, lines = before ++ l :: after ∧
    size = (Text.utf8 (render ⟨.json, false⟩ before).toList).length +
      (Text.utf8 (Json.record l).toList).length

theorem length_render_json_nil : (Text.utf8 (render ⟨.json, false⟩ []).toList).length = 0 := by
  rw [← map_fst_stream_pieces]
  rfl

theorem length_render_json_cons (l : TagLine) (lines : List TagLine) :
    (Text.utf8 (render ⟨.json, false⟩ (l :: lines)).toList).length =
      (Text.utf8 (Json.record l).toList).length + 1 +
        (Text.utf8 (render ⟨.json, false⟩ lines).toList).length := by
  rw [← map_fst_stream_pieces, ← map_fst_stream_pieces, stream_json_cons]
  simp only [List.map_append, List.map_cons, List.length_append, List.length_cons, List.length_map]
  omega

theorem endsRecord_cons (l : TagLine) (lines : List TagLine) (size : Nat) :
    EndsRecord (l :: lines) size ↔
      size = (Text.utf8 (Json.record l).toList).length ∨
      ∃ later, size = (Text.utf8 (Json.record l).toList).length + 1 + later ∧
        EndsRecord lines later := by
  constructor
  · rintro ⟨before, r, after, hlines, hsize⟩
    cases before with
    | nil =>
      obtain ⟨rfl, -⟩ := List.cons.inj hlines
      rw [length_render_json_nil, Nat.zero_add] at hsize
      exact .inl hsize
    | cons b before =>
      obtain ⟨rfl, htail⟩ := List.cons.inj hlines
      rw [length_render_json_cons, Nat.add_assoc] at hsize
      exact .inr ⟨_, hsize, before, r, after, htail, rfl⟩
  · rintro (hsize | ⟨later, hsize, before, r, after, hlines, hlater⟩)
    · refine ⟨[], l, lines, rfl, ?_⟩
      rw [length_render_json_nil, Nat.zero_add, hsize]
    · refine ⟨l :: before, r, after, congrArg (l :: ·) hlines, ?_⟩
      rw [length_render_json_cons, Nat.add_assoc, ← hlater, hsize]

/-- In the JSON format, the bytes outside of records are the line breaks. -/
theorem stream_json (header : Bool) (lines : List TagLine) {size : Nat} {b : UInt8 × Bool}
    (h : (Piece.stream (pieces ⟨.json, header⟩ lines))[size]? = some b) :
    b.2 = false ↔ EndsRecord lines size := by
  induction lines generalizing size with
  | nil => simp [pieces, Piece.stream] at h
  | cons l lines ih =>
    rw [stream_json_cons] at h
    rw [endsRecord_cons]
    generalize Text.utf8 (Json.record l).toList = record at h ⊢
    -- The byte is in the first record, after it, or in the lines that follow.
    rcases Nat.lt_trichotomy size record.length with hsize | rfl | hsize
    · rw [List.getElem?_append_left (by simpa using hsize)] at h
      obtain ⟨byte, -, rfl⟩ := List.mem_map.mp (List.mem_of_getElem? h)
      simp only [Bool.true_eq_false, false_iff]
      rintro (rfl | ⟨later, rfl, -⟩) <;> omega
    · have hb : (10, false) = b := by simpa using h
      simp [← hb]
    · obtain ⟨later, rfl⟩ := Nat.exists_eq_add_of_lt hsize
      have hlater : (Piece.stream (pieces ⟨.json, header⟩ lines))[later]? = some b := by
        rw [List.getElem?_append_right (by simp; omega)] at h
        simpa [Nat.add_assoc] using h
      rw [ih hlater]
      constructor
      · exact fun hends => .inr ⟨later, by omega, hends⟩
      · rintro (hsize | ⟨rest, hrest, hends⟩)
        · omega
        · obtain rfl : later = rest := by omega
          exact hends

end TagFile

namespace Sink

open TagFile (Piece EndsRecord)

/-- Writing a tags file into a sink is writing one stream, the bytes of its text, whatever the
pieces. -/
theorem write_stream (s : Sink) (f : TagFile) (lines : List TagLine) :
    (∀ qs, Piece.Cuts (f.pieces lines) qs → s.writePieces qs = s.write f lines) ∧
    (s.write f lines).bytes = (Text.utf8 (f.render lines).toList).take s.room ∧
    ((s.write f lines).failure = none ↔ (Text.utf8 (f.render lines).toList).length ≤ s.room) ∧
    (s.room < (Text.utf8 (f.render lines).toList).length →
      match f.format with
      | .ctags => (s.write f lines).failure = some (.io s.fault)
      | .json =>
        ((s.write f lines).failure = some (.io s.fault) ↔ EndsRecord lines s.room) ∧
        ((s.write f lines).failure = some (.json s.fault) ↔ ¬ EndsRecord lines s.room)) := by
  have hsize : (Piece.stream (f.pieces lines)).length =
      (Text.utf8 (f.render lines).toList).length := by
    rw [← TagFile.map_fst_stream_pieces, List.length_map]
  refine ⟨fun qs h => s.writePieces_cuts h, ?_, ?_, fun hroom => ?_⟩
  · rw [write, writePieces_eq, List.map_take, TagFile.map_fst_stream_pieces]
  · rw [write, writePieces_eq, Option.map_eq_none_iff, List.getElem?_eq_none_iff, hsize]
  · obtain ⟨b, hb⟩ : ∃ b, (Piece.stream (f.pieces lines))[s.room]? = some b :=
      ⟨_, List.getElem?_eq_getElem (hsize ▸ hroom)⟩
    have hfailure : (s.write f lines).failure = some (failureAt s.fault b) := by
      rw [write, writePieces_eq, hb, Option.map_some]
    rw [hfailure]
    obtain ⟨format, header⟩ := f
    cases format with
    | ctags =>
      have hlabel := TagFile.stream_ctags header lines b (List.mem_of_getElem? hb)
      simp [failureAt, hlabel]
    | json =>
      have hlabel := TagFile.stream_json header lines hb
      simp only [← hlabel]
      cases hb2 : b.2 <;> simp [failureAt, hb2]

end Sink

end TagIndex
