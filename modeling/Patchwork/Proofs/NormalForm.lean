import Patchwork.Proofs.Trim
import Patchwork.Proofs.Utf8
import Patchwork.Search

/-!
# The normal form of a line

Writing the plain character of every piece of a line leaves the stray bytes where they are, and the
continuation bytes behind each of them: no sequence appears that was not there.  So what was
written is read back piece by piece, and writing it again changes nothing.  Blanks are pieces of
their own, and it makes no difference whether they are trimmed before or after.  Main statements:
`normalizeLine_normalizeLine` and `normalizeLine_trim`.
-/

namespace Patchwork

open Bytes (isBlank trim)
open Utf8 (IsScalar encode front? isContinuation pieces pieces_induction)

/-! ## Plain characters -/

theorem isScalar_plainCodePoint {codePoint : Nat} (hscalar : IsScalar codePoint) :
    IsScalar (plainCodePoint codePoint) := by
  rw [plainCodePoint]
  split_ifs
  · exact .inl (by decide)
  · exact .inl (by decide)
  · exact .inl (by decide)
  · exact .inl (by decide)
  · exact hscalar

theorem plainCodePoint_of_ascii {codePoint : Nat} (hascii : codePoint < 0x80) :
    plainCodePoint codePoint = codePoint := by
  rw [plainCodePoint, if_neg (by omega), if_neg (by omega), if_neg (by omega), if_neg (by omega)]

/-- The character that stands for another one is plain itself. -/
theorem plainCodePoint_plainCodePoint (codePoint : Nat) :
    plainCodePoint (plainCodePoint codePoint) = plainCodePoint codePoint := by
  have hcases : plainCodePoint codePoint < 0x80 ∨ plainCodePoint codePoint = codePoint := by
    rw [plainCodePoint]
    split_ifs
    · exact .inl (by decide)
    · exact .inl (by decide)
    · exact .inl (by decide)
    · exact .inl (by decide)
    · exact .inr rfl
  rcases hcases with hascii | hsame
  · exact plainCodePoint_of_ascii hascii
  · rw [hsame, hsame]

/-- A line with the plain character of every piece. -/
def plainLine (line : Bytes) : Bytes :=
  (pieces line).flatMap Utf8.Piece.plain

theorem normalizeLine_eq_trim (line : Bytes) : normalizeLine line = trim (plainLine line) := rfl

section Pieces

variable {codePoint : Nat} {byte : UInt8} {rest : Bytes}

theorem plainLine_encode_append (hscalar : IsScalar codePoint) (rest : Bytes) :
    plainLine (encode codePoint ++ rest) = encode (plainCodePoint codePoint) ++ plainLine rest := by
  rw [plainLine, Utf8.pieces_encode_append hscalar, List.flatMap_cons]
  rfl

theorem plainLine_cons_of_none (hnone : front? (byte :: rest) = none) :
    plainLine (byte :: rest) = byte :: plainLine rest := by
  rw [plainLine, Utf8.pieces_cons_of_none hnone, List.flatMap_cons]
  rfl

/-- The continuation bytes in front of a line are stray, and so they stay. -/
theorem takeWhile_plainLine (line : Bytes) :
    (plainLine line).takeWhile isContinuation = line.takeWhile isContinuation := by
  have hopening : ∀ {codePoint}, IsScalar codePoint → ∀ rest : Bytes,
      (encode codePoint ++ rest).takeWhile isContinuation = [] := by
    intro codePoint hscalar rest
    obtain ⟨lead, behind, hencode, hlead, -⟩ := Utf8.exists_encode_eq_cons hscalar
    rw [hencode, List.cons_append, List.takeWhile_cons_of_neg (by rw [hlead]; exact nofun)]
  induction line using pieces_induction with
  | nil => rfl
  | scalar codePoint rest hscalar ih =>
    rw [plainLine_encode_append hscalar, hopening hscalar,
      hopening (isScalar_plainCodePoint hscalar)]
  | stray byte rest hnone ih =>
    rw [plainLine_cons_of_none hnone, List.takeWhile_cons, List.takeWhile_cons, ih]

/-- A line of plain characters is left as it is. -/
theorem plainLine_plainLine (line : Bytes) : plainLine (plainLine line) = plainLine line := by
  induction line using pieces_induction with
  | nil => rfl
  | scalar codePoint rest hscalar ih =>
    rw [plainLine_encode_append hscalar, plainLine_encode_append (isScalar_plainCodePoint hscalar),
      plainCodePoint_plainCodePoint, ih]
  | stray byte rest hnone ih =>
    -- What stands behind the byte now still completes no sequence.
    have hstray : front? (byte :: plainLine rest) = none := by
      rw [← Utf8.front?_takeWhile, takeWhile_plainLine, Utf8.front?_takeWhile, hnone]
    rw [plainLine_cons_of_none hnone, plainLine_cons_of_none hstray, ih]

/-- A line may be cut in front of every byte that does not continue a sequence. -/
theorem plainLine_append_cons (hcut : isContinuation byte = false) (line rest : Bytes) :
    plainLine (line ++ byte :: rest) = plainLine line ++ plainLine (byte :: rest) := by
  induction line using pieces_induction with
  | nil => rfl
  | scalar codePoint behind hscalar ih =>
    rw [List.append_assoc, plainLine_encode_append hscalar, plainLine_encode_append hscalar, ih,
      List.append_assoc]
  | stray first behind hnone ih =>
    have hrun : (behind ++ byte :: rest).takeWhile isContinuation =
        behind.takeWhile isContinuation := by
      have hstop : (byte :: rest).takeWhile isContinuation = [] :=
        List.takeWhile_cons_of_neg (by rw [hcut]; exact nofun)
      rw [List.takeWhile_append]
      split
      · rw [hstop, List.append_nil]
        exact ((List.takeWhile_prefix isContinuation).eq_of_length ‹_›).symm
      · rfl
    have hstray : front? (first :: (behind ++ byte :: rest)) = none := by
      rw [← Utf8.front?_takeWhile, hrun, Utf8.front?_takeWhile, hnone]
    rw [List.cons_append, plainLine_cons_of_none hstray, plainLine_cons_of_none hnone, ih,
      List.cons_append]

end Pieces

/-! ## Blanks -/

theorem toNat_lt_of_isBlank {byte : UInt8} (hblank : isBlank byte = true) : byte.toNat < 0x80 := by
  rw [isBlank, Bool.or_eq_true, Bool.and_eq_true, beq_iff_eq, decide_eq_true_iff,
    decide_eq_true_iff, UInt8.le_iff_toNat_le, UInt8.le_iff_toNat_le] at hblank
  rcases hblank with rfl | ⟨-, hlast⟩
  · decide
  · exact hlast.trans_lt (by decide)

theorem plainLine_blank_append {blanks : Bytes} (hblanks : ∀ byte ∈ blanks, isBlank byte = true)
    (line : Bytes) : plainLine (blanks ++ line) = blanks ++ plainLine line := by
  induction blanks with
  | nil => rfl
  | cons byte blanks ih =>
    rw [List.forall_mem_cons] at hblanks
    have hascii := toNat_lt_of_isBlank hblanks.1
    have hscalar : IsScalar byte.toNat := .inl (by omega)
    have hcons : plainLine (byte :: (blanks ++ line)) = byte :: plainLine (blanks ++ line) := by
      have happend := plainLine_encode_append hscalar (blanks ++ line)
      rwa [plainCodePoint_of_ascii hascii, Utf8.encode_of_ascii hascii] at happend
    rw [List.cons_append, hcons, ih hblanks.2, List.cons_append]

theorem plainLine_append_blank {blanks : Bytes} (hblanks : ∀ byte ∈ blanks, isBlank byte = true)
    (line : Bytes) : plainLine (line ++ blanks) = plainLine line ++ blanks := by
  have halone := plainLine_blank_append hblanks []
  cases blanks with
  | nil => rw [List.append_nil, List.append_nil]
  | cons byte blanks =>
    have hascii := toNat_lt_of_isBlank (hblanks byte List.mem_cons_self)
    have hcut : isContinuation byte = false := by
      rw [← Bool.not_eq_true, Utf8.isContinuation_iff]
      omega
    have hnil : plainLine [] = [] := rfl
    rw [hnil, List.append_nil] at halone
    rw [plainLine_append_cons hcut, halone]

/-! ## Normal forms -/

/-- A line has the normal form of what trimming leaves of it. -/
theorem normalizeLine_trim (line : Bytes) : normalizeLine (trim line) = normalizeLine line := by
  obtain ⟨opening, ending, hline, hopening, hending⟩ := Bytes.exists_eq_append_trim line
  calc normalizeLine (trim line)
      = trim (opening ++ plainLine (trim line) ++ ending) := by
        rw [Bytes.trim_append_blank hending, Bytes.trim_blank_append hopening,
          normalizeLine_eq_trim]
    _ = trim (plainLine (opening ++ trim line ++ ending)) := by
        rw [plainLine_append_blank hending, plainLine_blank_append hopening]
    _ = normalizeLine line := by rw [← hline, normalizeLine_eq_trim]

/-- A normal form is its own normal form. -/
theorem normalizeLine_normalizeLine (line : Bytes) :
    normalizeLine (normalizeLine line) = normalizeLine line := by
  calc normalizeLine (normalizeLine line)
      = normalizeLine (plainLine line) := by rw [normalizeLine_eq_trim line, normalizeLine_trim]
    _ = normalizeLine line := by
        rw [normalizeLine_eq_trim, plainLine_plainLine, normalizeLine_eq_trim]

/-- The stray lead byte in front of a dash completes no sequence with the hyphen. -/
example : normalizeLine (0xE2 :: text "–") = [0xE2, 45] := by
  decide +kernel

end Patchwork
