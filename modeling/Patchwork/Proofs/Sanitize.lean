import Mathlib.Data.List.Forall2
import Patchwork.Proofs.Utf8

/-!
# Repairing UTF-8

Which strings are valid is said by a table of byte ranges, apart from how a string is read: no row
has an overlong form, a surrogate or a value above the last code point.  Whatever a string holds,
what is left of it is valid, a valid string is left as it is, and the code points that are left are
those that a walk over the string finds, with a question mark for every byte that begins no sequence
and continues none.  Main statement: `Utf8.sanitize_repairs`.
-/

namespace Patchwork

namespace Utf8

/-! ## The table -/

/-- The valid sequences: the ranges of their bytes, one row for every shape. -/
def sequenceTable : List (List (Nat × Nat)) :=
  [[(0x00, 0x7F)],
    [(0xC2, 0xDF), (0x80, 0xBF)],
    [(0xE0, 0xE0), (0xA0, 0xBF), (0x80, 0xBF)],
    [(0xE1, 0xEC), (0x80, 0xBF), (0x80, 0xBF)],
    [(0xED, 0xED), (0x80, 0x9F), (0x80, 0xBF)],
    [(0xEE, 0xEF), (0x80, 0xBF), (0x80, 0xBF)],
    [(0xF0, 0xF0), (0x90, 0xBF), (0x80, 0xBF), (0x80, 0xBF)],
    [(0xF1, 0xF3), (0x80, 0xBF), (0x80, 0xBF), (0x80, 0xBF)],
    [(0xF4, 0xF4), (0x80, 0x8F), (0x80, 0xBF), (0x80, 0xBF)]]

/-- The bytes lie in the ranges, one in each. -/
def InRanges (sequence : Bytes) (ranges : List (Nat × Nat)) : Prop :=
  List.Forall₂ (fun byte range => range.1 ≤ byte.toNat ∧ byte.toNat ≤ range.2) sequence ranges

/-- The sequence has the shape of some row of the table. -/
def Tabled (sequence : Bytes) : Prop :=
  ∃ ranges ∈ sequenceTable, InRanges sequence ranges

/-- A string is valid if it is made of sequences of the table. -/
def StrictlyValid (bytes : Bytes) : Prop :=
  ∃ sequences : List Bytes, (∀ sequence ∈ sequences, Tabled sequence) ∧ bytes = sequences.flatten

variable {sequence bytes : Bytes} {codePoint position : Nat} {walked : List Piece}

theorem inRanges_cons {range : Nat × Nat} {ranges : List (Nat × Nat)} :
    InRanges sequence (range :: ranges) ↔
      ∃ byte rest, (range.1 ≤ byte.toNat ∧ byte.toNat ≤ range.2) ∧ InRanges rest ranges ∧
        sequence = byte :: rest :=
  List.forall₂_cons_right_iff

theorem inRanges_nil : InRanges sequence [] ↔ sequence = [] :=
  List.forall₂_nil_right_iff

theorem Tabled.exists_sequence (htabled : Tabled sequence) :
    ∃ codePoint, Sequence sequence codePoint := by
  obtain ⟨ranges, hrow, hranges⟩ := htabled
  simp only [sequenceTable, List.mem_cons, List.not_mem_nil, or_false] at hrow
  rcases hrow with rfl | rfl | rfl | rfl | rfl | rfl | rfl | rfl | rfl <;>
    simp only [inRanges_cons, inRanges_nil] at hranges
  · obtain ⟨lead, _, hlead, rfl, rfl⟩ := hranges
    exact ⟨_, .one (by omega)⟩
  · obtain ⟨lead, _, hlead, ⟨second, _, hsecond, rfl, rfl⟩, rfl⟩ := hranges
    exact ⟨_, .two (by omega) (by omega) (isContinuation_iff.mpr (by omega))⟩
  -- three bytes
  iterate 4
    obtain ⟨lead, _, hlead, ⟨second, _, hsecond, ⟨third, _, hthird, rfl, rfl⟩, rfl⟩, rfl⟩ := hranges
    refine ⟨_, .three (by omega) (by omega) (continues_iff.mpr ?_)
      (isContinuation_iff.mpr (by omega))⟩
    rw [isContinuation_iff]
    omega
  iterate 3
    obtain ⟨lead, _, hlead, ⟨second, _, hsecond, ⟨third, _, hthird, ⟨fourth, _, hfourth, rfl, rfl⟩,
      rfl⟩, rfl⟩, rfl⟩ := hranges
    refine ⟨_, .four (by omega) (by omega) (continues_iff.mpr ?_)
      (isContinuation_iff.mpr (by omega)) (isContinuation_iff.mpr (by omega))⟩
    rw [isContinuation_iff]
    omega

theorem Sequence.tabled (hsequence : Sequence sequence codePoint) : Tabled sequence := by
  cases hsequence with
  | one hlead =>
    simp [Tabled, sequenceTable, InRanges]
    omega
  | two hlow hhigh hsecond =>
    rw [isContinuation_iff] at hsecond
    simp [Tabled, sequenceTable, InRanges]
    omega
  | three hlow hhigh hsecond hthird =>
    rw [continues_iff, isContinuation_iff] at hsecond
    rw [isContinuation_iff] at hthird
    simp [Tabled, sequenceTable, InRanges]
    omega
  | four hlow hhigh hsecond hthird hfourth =>
    rw [continues_iff, isContinuation_iff] at hsecond
    rw [isContinuation_iff] at hthird hfourth
    simp [Tabled, sequenceTable, InRanges]
    omega

theorem tabled_encode (hscalar : IsScalar codePoint) : Tabled (encode codePoint) :=
  (sequence_encode hscalar).tabled

theorem Tabled.exists_encode (htabled : Tabled sequence) :
    ∃ codePoint, IsScalar codePoint ∧ encode codePoint = sequence := by
  obtain ⟨codePoint, hsequence⟩ := htabled.exists_sequence
  exact ⟨codePoint, hsequence.isScalar, hsequence.encode_eq⟩

/-- The table has exactly the sequences that are written for code points. -/
theorem strictlyValid_iff : StrictlyValid bytes ↔ WellFormed bytes := by
  constructor
  · rintro ⟨sequences, hsequences, rfl⟩
    rw [← List.flatMap_id]
    refine wellFormed_flatMap fun sequence hsequence => ?_
    obtain ⟨codePoint, hscalar, hencode⟩ := (hsequences sequence hsequence).exists_encode
    rw [id_eq, ← hencode]
    exact wellFormed_encode hscalar
  · rintro ⟨codePoints, hscalar, rfl⟩
    refine ⟨codePoints.map encode, ?_, List.flatMap_def⟩
    rw [List.forall_mem_map]
    exact fun codePoint hmem => tabled_encode (hscalar codePoint hmem)

/-! ## Valid strings -/

/-- A string written for code points is read as these. -/
theorem pieces_flatMap_encode {codePoints : List Nat}
    (hscalar : ∀ codePoint ∈ codePoints, IsScalar codePoint) :
    pieces (codePoints.flatMap encode) = codePoints.map .scalar := by
  induction codePoints with
  | nil => rfl
  | cons codePoint codePoints ih =>
    rw [List.forall_mem_cons] at hscalar
    rw [List.flatMap_cons, pieces_encode_append hscalar.1, ih hscalar.2, List.map_cons]

theorem WellFormed.sanitize_eq (hvalid : WellFormed bytes) : sanitize bytes = bytes := by
  obtain ⟨codePoints, hscalar, rfl⟩ := hvalid
  rw [sanitize, pieces_flatMap_encode hscalar, List.flatMap_map]
  rfl

theorem sanitize_eq_self_iff : sanitize bytes = bytes ↔ WellFormed bytes := by
  refine ⟨fun hsame => ?_, WellFormed.sanitize_eq⟩
  rw [← hsame]
  exact sanitize_wellFormed bytes

/-! ## Walks -/

/-- What is found at a position: a code point and the length of its sequence, or minus one and a
single byte where no sequence begins. -/
def decodeAt (bytes : Bytes) (position : Nat) : Int × Nat :=
  match front? (bytes.drop position) with
  | some (codePoint, length) => (codePoint, length)
  | none => (-1, 1)

/-- What is found from a position on by going on behind what was found, up to the end. -/
inductive Walk (bytes : Bytes) : Nat → List Piece → Prop
  | done {position : Nat} : bytes.length ≤ position → Walk bytes position []
  | decoded {position codePoint length : Nat} {walked : List Piece} : position < bytes.length →
      decodeAt bytes position = (Int.ofNat codePoint, length) →
      Walk bytes (position + length) walked → Walk bytes position (.scalar codePoint :: walked)
  | undecodable {position length : Nat} {byte : UInt8} {walked : List Piece} :
      bytes[position]? = some byte → decodeAt bytes position = (-1, length) →
      Walk bytes (position + length) walked → Walk bytes position (.stray byte :: walked)

/-- The code points that are left of a piece: a question mark for a stray byte that is no
continuation byte, and none for one that is. -/
def Piece.kept : Piece → List Nat
  | .scalar codePoint => [codePoint]
  | .stray byte => if isContinuation byte then [] else [0x3F]

theorem decodeAt_eq_ofNat_iff {length : Nat} :
    decodeAt bytes position = (Int.ofNat codePoint, length) ↔
      front? (bytes.drop position) = some (codePoint, length) := by
  rw [decodeAt]
  cases front? (bytes.drop position) with
  | none => simp
  | some found =>
    rw [Option.some_inj, Prod.ext_iff, Prod.ext_iff]
    exact and_congr_left fun _ => Int.natCast_inj

theorem decodeAt_eq_neg_one_iff {length : Nat} :
    decodeAt bytes position = (-1, length) ↔
      front? (bytes.drop position) = none ∧ length = 1 := by
  rw [decodeAt]
  cases front? (bytes.drop position) with
  | none => simp [eq_comm]
  | some found => simp [Prod.ext_iff]

theorem Walk.eq_pieces (hwalk : Walk bytes position walked) :
    walked = pieces (bytes.drop position) := by
  induction hwalk with
  | done hend =>
    rw [List.drop_eq_nil_of_le hend]
    rfl
  | decoded hposition hfound _ ih =>
    obtain ⟨hscalar, ⟨rest, hrest⟩, rfl⟩ :=
      front?_eq_some_iff.mp (decodeAt_eq_ofNat_iff.mp hfound)
    rw [← hrest, pieces_encode_append hscalar, ih, ← List.drop_drop, ← hrest, List.drop_left]
  | undecodable hbyte hfound _ ih =>
    obtain ⟨hnone, rfl⟩ := decodeAt_eq_neg_one_iff.mp hfound
    obtain ⟨hlt, rfl⟩ := List.getElem?_eq_some_iff.mp hbyte
    rw [List.drop_eq_getElem_cons hlt] at hnone ⊢
    rw [pieces_cons_of_none hnone, ih]

/-- A walk goes through the whole string. -/
theorem exists_walk (bytes : Bytes) (position : Nat) :
    Walk bytes position (pieces (bytes.drop position)) := by
  generalize hrest : bytes.drop position = rest
  induction rest using pieces_induction generalizing position with
  | nil => exact .done (List.drop_eq_nil_iff.mp hrest)
  | scalar codePoint rest hscalar ih =>
    have hfront : front? (bytes.drop position) = some (codePoint, (encode codePoint).length) := by
      rw [hrest, front?_encode_append hscalar]
    have hposition : position < bytes.length := by
      by_contra hend
      rw [List.drop_eq_nil_of_le (Nat.le_of_not_lt hend)] at hfront
      cases hfront
    rw [pieces_encode_append hscalar]
    refine .decoded hposition (decodeAt_eq_ofNat_iff.mpr hfront) (ih _ ?_)
    rw [← List.drop_drop, hrest, List.drop_left]
  | stray byte rest hnone ih =>
    have hbyte : bytes[position]? = some byte := by
      rw [← List.head?_drop, hrest, List.head?_cons]
    rw [pieces_cons_of_none hnone]
    refine .undecodable hbyte (decodeAt_eq_neg_one_iff.mpr ⟨by rwa [hrest], rfl⟩) (ih _ ?_)
    rw [← List.drop_drop, hrest, List.drop_one, List.tail_cons]

theorem walk_iff : Walk bytes 0 walked ↔ walked = pieces bytes := by
  refine ⟨Walk.eq_pieces, ?_⟩
  rintro rfl
  exact exists_walk bytes 0

theorem Piece.sanitize_eq (piece : Piece) : piece.sanitize = piece.kept.flatMap encode := by
  cases piece with
  | scalar codePoint => exact (List.flatMap_singleton encode codePoint).symm
  | stray byte =>
    rw [Piece.sanitize, Piece.kept]
    split <;> rfl

theorem isScalar_of_mem_pieces (hmem : .scalar codePoint ∈ pieces bytes) : IsScalar codePoint := by
  induction bytes using pieces_induction with
  | nil => cases hmem
  | scalar found rest hscalar ih =>
    rw [pieces_encode_append hscalar] at hmem
    rcases List.mem_cons.mp hmem with hfound | hbehind
    · obtain rfl := Piece.scalar.inj hfound
      exact hscalar
    · exact ih hbehind
  | stray byte rest hnone ih =>
    rw [pieces_cons_of_none hnone] at hmem
    rcases List.mem_cons.mp hmem with hfound | hbehind
    · cases hfound
    · exact ih hbehind

/-- What is left of a string is read as the code points that are left of its pieces: they do not run
together. -/
theorem pieces_sanitize (bytes : Bytes) :
    pieces (sanitize bytes) = ((pieces bytes).flatMap Piece.kept).map .scalar := by
  have hscalar : ∀ codePoint ∈ (pieces bytes).flatMap Piece.kept, IsScalar codePoint := by
    intro codePoint hmem
    obtain ⟨piece, hpiece, hkept⟩ := List.mem_flatMap.mp hmem
    cases piece with
    | scalar found =>
      obtain rfl := List.mem_singleton.mp hkept
      exact isScalar_of_mem_pieces hpiece
    | stray byte =>
      rw [Piece.kept] at hkept
      split at hkept
      · cases hkept
      · rw [List.mem_singleton.mp hkept]
        exact .inl (by decide)
  have hwritten : sanitize bytes = ((pieces bytes).flatMap Piece.kept).flatMap encode := by
    rw [sanitize, List.flatMap_assoc]
    exact List.flatMap_congr fun piece _ => piece.sanitize_eq
  rw [hwritten, pieces_flatMap_encode hscalar]

/-- Whatever a string holds, what is left of it is valid, and a valid string is left as it is.  The
code points that are left are those of the only walk over the string, with a question mark for every
stray byte that is no continuation byte. -/
theorem sanitize_repairs (bytes : Bytes) :
    StrictlyValid (sanitize bytes) ∧ (sanitize bytes = bytes ↔ StrictlyValid bytes) ∧
      sanitize (sanitize bytes) = sanitize bytes ∧
      ∃ walked, (∀ other, Walk bytes 0 other ↔ other = walked) ∧
        ∀ other, Walk (sanitize bytes) 0 other ↔
          other = (walked.flatMap Piece.kept).map Piece.scalar := by
  have hvalid := sanitize_wellFormed bytes
  refine ⟨strictlyValid_iff.mpr hvalid, sanitize_eq_self_iff.trans strictlyValid_iff.symm,
    hvalid.sanitize_eq, pieces bytes, fun _ => walk_iff, fun other => ?_⟩
  rw [walk_iff, pieces_sanitize]

example : sanitize [0x61, 0xE2, 0x80, 0xC3, 0xA9, 0x80, 0xFF] = [0x61, 0x3F, 0xC3, 0xA9, 0x3F] := by
  decide

end Utf8

end Patchwork
