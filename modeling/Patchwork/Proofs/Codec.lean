import Patchwork.Proofs.Sanitize

/-!
# Writing and reading code points

What is written for code points behind any other bytes is read as these code points, and the reading
stops at the end of the last one.  Conversely any string, valid or not, is put together again from
what is read of it: a code point is written again, and a byte at which no sequence begins is copied.
Main statement: `Utf8.codec_roundTrip`.
-/

namespace Patchwork

namespace Utf8

/-- A stretch of a walk: what is found on the way from one position to another by going on behind
what was found. -/
inductive Stretch (bytes : Bytes) : Nat → List Piece → Nat → Prop
  | rest (position : Nat) : Stretch bytes position [] position
  | decoded {position codePoint length stop : Nat} {walked : List Piece} :
      position < bytes.length → decodeAt bytes position = (Int.ofNat codePoint, length) →
      Stretch bytes (position + length) walked stop →
      Stretch bytes position (.scalar codePoint :: walked) stop
  | undecodable {position length stop : Nat} {byte : UInt8} {walked : List Piece} :
      bytes[position]? = some byte → decodeAt bytes position = (-1, length) →
      Stretch bytes (position + length) walked stop →
      Stretch bytes position (.stray byte :: walked) stop

variable {bytes : Bytes} {position stop length codePoint : Nat} {walked : List Piece}

/-- What is found lies inside the string. -/
theorem add_le_of_decoded (hposition : position < bytes.length)
    (hfound : decodeAt bytes position = (Int.ofNat codePoint, length)) :
    position + length ≤ bytes.length := by
  obtain ⟨-, hprefix, rfl⟩ := front?_eq_some_iff.mp (decodeAt_eq_ofNat_iff.mp hfound)
  have hlength := hprefix.length_le
  rw [List.length_drop] at hlength
  omega

theorem add_le_of_undecodable {byte : UInt8} (hbyte : bytes[position]? = some byte)
    (hfound : decodeAt bytes position = (-1, length)) : position + length ≤ bytes.length := by
  obtain ⟨-, rfl⟩ := decodeAt_eq_neg_one_iff.mp hfound
  exact (List.getElem?_eq_some_iff.mp hbyte).1

/-- No stretch leads beyond the end of the string. -/
theorem Stretch.stop_le (hstretch : Stretch bytes position walked stop)
    (hposition : position ≤ bytes.length) : stop ≤ bytes.length := by
  induction hstretch with
  | rest => exact hposition
  | decoded hinside hfound _ ih => exact ih (add_le_of_decoded hinside hfound)
  | undecodable hbyte hfound _ ih => exact ih (add_le_of_undecodable hbyte hfound)

/-- A stretch up to the end is a walk. -/
theorem Stretch.walk (hstretch : Stretch bytes position walked stop)
    (hend : bytes.length ≤ stop) : Walk bytes position walked := by
  induction hstretch with
  | rest => exact .done hend
  | decoded hinside hfound _ ih => exact .decoded hinside hfound (ih hend)
  | undecodable hbyte hfound _ ih => exact .undecodable hbyte hfound (ih hend)

/-- A walk comes to rest right behind the last byte. -/
theorem Walk.stretch (hwalk : Walk bytes position walked) (hposition : position ≤ bytes.length) :
    Stretch bytes position walked bytes.length := by
  induction hwalk with
  | done hend =>
    obtain rfl := Nat.le_antisymm hposition hend
    exact .rest _
  | decoded hinside hfound _ ih =>
    exact .decoded hinside hfound (ih (add_le_of_decoded hinside hfound))
  | undecodable hbyte hfound _ ih =>
    exact .undecodable hbyte hfound (ih (add_le_of_undecodable hbyte hfound))

/-- From every position there is one stretch that cannot go on. -/
theorem stretch_iff (hposition : position ≤ bytes.length) :
    Stretch bytes position walked stop ∧ bytes.length ≤ stop ↔
      walked = pieces (bytes.drop position) ∧ stop = bytes.length := by
  constructor
  · rintro ⟨hstretch, hend⟩
    exact ⟨(hstretch.walk hend).eq_pieces, Nat.le_antisymm (hstretch.stop_le hposition) hend⟩
  · rintro ⟨rfl, rfl⟩
    exact ⟨(exists_walk bytes position).stretch hposition, Nat.le_refl _⟩

/-- The bytes of its pieces are the string. -/
theorem flatMap_bytes_pieces (bytes : Bytes) : (pieces bytes).flatMap Piece.bytes = bytes := by
  induction bytes using pieces_induction with
  | nil => rfl
  | scalar codePoint rest hscalar ih =>
    rw [pieces_encode_append hscalar, List.flatMap_cons, ih, Piece.bytes]
  | stray byte rest hnone ih =>
    rw [pieces_cons_of_none hnone, List.flatMap_cons, ih, Piece.bytes, List.singleton_append]

/-- Code points that are written behind any bytes are what is read from there on, up to the very
end; and whatever a string holds, there is one way to read it to its end, and to write what was
decoded and copy what was not gives the string again. -/
theorem codec_roundTrip (before : Bytes) {codePoints : List Nat}
    (hscalar : ∀ codePoint ∈ codePoints, IsScalar codePoint) (bytes : Bytes) :
    (∀ walked stop, Stretch (before ++ codePoints.flatMap encode) before.length walked stop ∧
        (before ++ codePoints.flatMap encode).length ≤ stop ↔
      walked = codePoints.map .scalar ∧ stop = (before ++ codePoints.flatMap encode).length) ∧
    ∃ found, (∀ walked stop, Stretch bytes 0 walked stop ∧ bytes.length ≤ stop ↔
        walked = found ∧ stop = bytes.length) ∧
      found.flatMap Piece.bytes = bytes := by
  refine ⟨fun walked stop => ?_, pieces bytes, fun walked stop => ?_, flatMap_bytes_pieces bytes⟩
  · have hposition : before.length ≤ (before ++ codePoints.flatMap encode).length :=
      List.length_append ▸ Nat.le_add_right _ _
    rw [stretch_iff hposition, List.drop_left, pieces_flatMap_encode hscalar]
  · rw [stretch_iff (Nat.zero_le _), List.drop_zero]

/-- A dash, a letter and a face behind the first byte of a sequence that is not finished, and a
string in which such a byte, a dash, an overlong form and a stray byte follow each other. -/
theorem codec_roundTrip_behindLead :
    (∀ codePoint ∈ [0x2014, 0x78, 0x1F642], IsScalar codePoint) ∧
      (∀ walked stop, Stretch ([0xC3] ++ [0x2014, 0x78, 0x1F642].flatMap encode) 1 walked stop ∧
          9 ≤ stop ↔
        walked = [.scalar 0x2014, .scalar 0x78, .scalar 0x1F642] ∧ stop = 9) ∧
      ∃ found, (∀ walked stop,
          Stretch [0xC3, 0xE2, 0x80, 0x94, 0xC0, 0x80, 0xFF] 0 walked stop ∧ 7 ≤ stop ↔
            walked = found ∧ stop = 7) ∧
        found.flatMap Piece.bytes = [0xC3, 0xE2, 0x80, 0x94, 0xC0, 0x80, 0xFF] := by
  have hscalar : ∀ codePoint ∈ [0x2014, 0x78, 0x1F642], IsScalar codePoint := by
    simp [IsScalar]
  exact ⟨hscalar, codec_roundTrip [0xC3] hscalar [0xC3, 0xE2, 0x80, 0x94, 0xC0, 0x80, 0xFF]⟩

end Utf8

end Patchwork
