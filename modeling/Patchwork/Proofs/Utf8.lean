import Mathlib.Data.List.Induction
import Mathlib.Data.List.Infix
import Patchwork.Utf8

/-!
# Reading and writing UTF-8

The sequence at the front of a string is read exactly if it is the one that is written for a code
point, so a string is made of the sequences of its code points and of the bytes at which none
begins.  Only the continuation bytes behind a byte decide whether a sequence begins there.  Main
statements: `Utf8.front?_eq_some_iff`, and `Utf8.sanitize_wellFormed`, by which nothing but
well-formed text is left of any string.
-/

namespace Patchwork

namespace Utf8

/-! ## Bytes -/

theorem isContinuation_iff {byte : UInt8} :
    isContinuation byte = true ↔ 0x80 ≤ byte.toNat ∧ byte.toNat < 0xC0 := by
  rw [isContinuation, Bool.and_eq_true, decide_eq_true_iff, decide_eq_true_iff,
    UInt8.le_iff_toNat_le, UInt8.le_iff_toNat_le]
  change 0x80 ≤ byte.toNat ∧ byte.toNat ≤ 0xBF ↔ _
  omega

theorem continues_iff {lead second : UInt8} :
    continues lead second = true ↔ isContinuation second = true ∧
      (lead.toNat = 0xE0 → 0xA0 ≤ second.toNat) ∧ (lead.toNat = 0xED → second.toNat < 0xA0) ∧
      (lead.toNat = 0xF0 → 0x90 ≤ second.toNat) ∧ (lead.toNat = 0xF4 → second.toNat < 0x90) := by
  simp only [continues, Bool.and_eq_true, beq_iff_eq, ← UInt8.toNat_inj, UInt8.le_iff_toNat_le,
    UInt8.reduceToNat]
  split_ifs <;> simp <;> omega

theorem toNat_continuationByte (codePoint power : Nat) :
    (continuationByte codePoint power).toNat = 0x80 + codePoint / power % 64 := by
  rw [continuationByte, UInt8.toNat_ofNat_of_lt' (show _ < 256 by omega)]

theorem isContinuation_continuationByte (codePoint power : Nat) :
    isContinuation (continuationByte codePoint power) = true := by
  rw [isContinuation_iff, toNat_continuationByte]
  omega

/-- The first code points are bytes. -/
theorem encode_of_ascii {byte : UInt8} (hascii : byte.toNat < 0x80) :
    encode byte.toNat = [byte] := by
  rw [encode, if_pos hascii, UInt8.ofNat_toNat]

/-- Up to the last code point, the bits of the longest lead byte do not overlap. -/
theorem toNat_longestLead {codePoint : Nat} (hlast : codePoint ≤ 0x10FFFF) :
    (UInt8.ofNat (0xF0 ||| codePoint / 262144)).toNat = 0xF0 + codePoint / 262144 := by
  have hbits : codePoint / 262144 < 2 ^ 4 := by omega
  have hor : 0xF0 + codePoint / 262144 = 0xF0 ||| codePoint / 262144 :=
    Nat.two_pow_add_eq_or_of_lt hbits 15
  rw [← hor, UInt8.toNat_ofNat_of_lt' (show _ < 256 by omega)]

/-! ## Sequences -/

/-- The well-formed sequences and the code points that they stand for. -/
inductive Sequence : Bytes → Nat → Prop
  | one {lead : UInt8} : lead.toNat < 0x80 → Sequence [lead] lead.toNat
  | two {lead second : UInt8} : 0xC2 ≤ lead.toNat → lead.toNat < 0xE0 →
      isContinuation second = true →
      Sequence [lead, second] (assemble (lead.toNat % 32) [second])
  | three {lead second third : UInt8} : 0xE0 ≤ lead.toNat → lead.toNat < 0xF0 →
      continues lead second = true → isContinuation third = true →
      Sequence [lead, second, third] (assemble (lead.toNat % 16) [second, third])
  | four {lead second third fourth : UInt8} : 0xF0 ≤ lead.toNat → lead.toNat < 0xF5 →
      continues lead second = true → isContinuation third = true → isContinuation fourth = true →
      Sequence [lead, second, third, fourth] (assemble (lead.toNat % 8) [second, third, fourth])

variable {sequence bytes rest : Bytes} {codePoint length : Nat} {byte : UInt8}

theorem Sequence.front? (hsequence : Sequence sequence codePoint) (rest : Bytes) :
    front? (sequence ++ rest) = some (codePoint, sequence.length) := by
  cases hsequence <;>
    simp only [List.cons_append, List.nil_append, Utf8.front?, Bool.and_eq_true,
      decide_eq_true_iff, UInt8.lt_iff_toNat_lt, UInt8.le_iff_toNat_le, UInt8.reduceToNat]
  case one hlead => exact if_pos hlead
  case two hlow hhigh hsecond =>
    rw [if_neg (by omega), if_pos (by omega), if_pos]
    · rfl
    · exact continues_iff.mpr ⟨hsecond, by omega, by omega, by omega, by omega⟩
  case three hlow hhigh hsecond hthird =>
    rw [if_neg (by omega), if_neg (by omega), if_pos (by omega), if_pos ⟨hsecond, hthird⟩]
    rfl
  case four hlow hhigh hsecond hthird hfourth =>
    rw [if_neg (by omega), if_neg (by omega), if_neg (by omega), if_pos (by omega),
      if_pos ⟨⟨hsecond, hthird⟩, hfourth⟩]
    rfl

theorem exists_sequence_of_front? (hfront : front? bytes = some (codePoint, length)) :
    ∃ sequence rest, bytes = sequence ++ rest ∧ Sequence sequence codePoint ∧
      length = sequence.length := by
  cases bytes with
  | nil => cases hfront
  | cons lead rest =>
    simp only [front?, Bool.and_eq_true, decide_eq_true_iff, UInt8.lt_iff_toNat_lt,
      UInt8.le_iff_toNat_le, UInt8.reduceToNat] at hfront
    split_ifs at hfront with hone htwo hthree hfour
    · obtain ⟨rfl, rfl⟩ := Prod.mk.inj (Option.some.inj hfront)
      exact ⟨[lead], rest, rfl, .one hone, rfl⟩
    · split at hfront
      · split_ifs at hfront with hbehind
        obtain ⟨rfl, rfl⟩ := Prod.mk.inj (Option.some.inj hfront)
        exact ⟨[_, _], _, rfl, .two htwo.1 (by omega) (continues_iff.mp hbehind).1, rfl⟩
      · cases hfront
    · split at hfront
      · split_ifs at hfront with hbehind
        obtain ⟨rfl, rfl⟩ := Prod.mk.inj (Option.some.inj hfront)
        exact ⟨[_, _, _], _, rfl, .three hthree.1 (by omega) hbehind.1 hbehind.2, rfl⟩
      · cases hfront
    · split at hfront
      · split_ifs at hfront with hbehind
        obtain ⟨rfl, rfl⟩ := Prod.mk.inj (Option.some.inj hfront)
        exact ⟨[_, _, _, _], _, rfl, .four hfour.1 (by omega) hbehind.1.1 hbehind.1.2 hbehind.2,
          rfl⟩
      · cases hfront

theorem Sequence.isScalar (hsequence : Sequence sequence codePoint) : IsScalar codePoint := by
  cases hsequence with
  | one hlead => exact .inl (by omega)
  | two hlow hhigh hsecond =>
    simp only [IsScalar, assemble, List.foldl_cons, List.foldl_nil]
    omega
  | three hlow hhigh hsecond hthird =>
    rw [continues_iff, isContinuation_iff] at hsecond
    simp only [IsScalar, assemble, List.foldl_cons, List.foldl_nil]
    omega
  | four hlow hhigh hsecond hthird hfourth =>
    rw [continues_iff, isContinuation_iff] at hsecond
    simp only [IsScalar, assemble, List.foldl_cons, List.foldl_nil]
    omega

theorem Sequence.encode_eq (hsequence : Sequence sequence codePoint) :
    encode codePoint = sequence := by
  cases hsequence with
  | one hlead => exact encode_of_ascii hlead
  | two hlow hhigh hsecond =>
    rw [isContinuation_iff] at hsecond
    simp only [assemble, List.foldl_cons, List.foldl_nil]
    rw [encode, if_neg (by omega), if_pos (by omega)]
    simp only [List.cons.injEq, and_true, ← UInt8.toNat_inj, toNat_continuationByte]
    rw [UInt8.toNat_ofNat_of_lt' (show _ < 256 by omega)]
    omega
  | three hlow hhigh hsecond hthird =>
    rw [continues_iff, isContinuation_iff] at hsecond
    rw [isContinuation_iff] at hthird
    simp only [assemble, List.foldl_cons, List.foldl_nil]
    rw [encode, if_neg (by omega), if_neg (by omega), if_pos (by omega)]
    simp only [List.cons.injEq, and_true, ← UInt8.toNat_inj, toNat_continuationByte]
    rw [UInt8.toNat_ofNat_of_lt' (show _ < 256 by omega)]
    omega
  | four hlow hhigh hsecond hthird hfourth =>
    rw [continues_iff, isContinuation_iff] at hsecond
    rw [isContinuation_iff] at hthird hfourth
    simp only [assemble, List.foldl_cons, List.foldl_nil]
    rw [encode, if_neg (by omega), if_neg (by omega), if_neg (by omega)]
    simp only [List.cons.injEq, and_true, ← UInt8.toNat_inj, toNat_continuationByte]
    rw [toNat_longestLead (by omega)]
    omega

/-- Six bits of a code point are put behind the bits above them. -/
theorem assemble_cons_continuationByte (codePoint power : Nat) (behind : Bytes) :
    assemble (codePoint / (power * 64)) (continuationByte codePoint power :: behind) =
      assemble (codePoint / power) behind := by
  have hbits : codePoint / (power * 64) * 64 + (continuationByte codePoint power).toNat % 64 =
      codePoint / power := by
    rw [toNat_continuationByte, ← Nat.div_div_eq_div_mul]
    omega
  rw [assemble, List.foldl_cons, hbits, assemble]

theorem assemble_two (codePoint : Nat) :
    assemble (codePoint / 64) [continuationByte codePoint 1] = codePoint :=
  (assemble_cons_continuationByte codePoint 1 []).trans (Nat.div_one codePoint)

theorem assemble_three (codePoint : Nat) :
    assemble (codePoint / 4096) [continuationByte codePoint 64, continuationByte codePoint 1] =
      codePoint :=
  (assemble_cons_continuationByte codePoint 64 _).trans (assemble_two codePoint)

theorem assemble_four (codePoint : Nat) :
    assemble (codePoint / 262144) [continuationByte codePoint 4096, continuationByte codePoint 64,
      continuationByte codePoint 1] = codePoint :=
  (assemble_cons_continuationByte codePoint 4096 _).trans (assemble_three codePoint)

/-- What is written for a code point is a sequence that stands for it. -/
theorem sequence_encode (hscalar : IsScalar codePoint) : Sequence (encode codePoint) codePoint := by
  rw [IsScalar] at hscalar
  have hsecond := toNat_continuationByte codePoint 64
  have hthird := toNat_continuationByte codePoint 4096
  rw [encode]
  split_ifs with hone htwo hthree
  · have hlead : (UInt8.ofNat codePoint).toNat = codePoint :=
      UInt8.toNat_ofNat_of_lt' (show _ < 256 by omega)
    have hsequence := Sequence.one (hlead.trans_lt hone)
    rwa [hlead] at hsequence
  · have hlead : (UInt8.ofNat (0xC0 + codePoint / 64)).toNat = 0xC0 + codePoint / 64 :=
      UInt8.toNat_ofNat_of_lt' (show _ < 256 by omega)
    have hpayload : (0xC0 + codePoint / 64) % 32 = codePoint / 64 := by omega
    have hsequence := Sequence.two (by rw [hlead]; omega) (by rw [hlead]; omega)
      (isContinuation_continuationByte codePoint 1)
    rwa [hlead, hpayload, assemble_two] at hsequence
  · have hlead : (UInt8.ofNat (0xE0 + codePoint / 4096)).toNat = 0xE0 + codePoint / 4096 :=
      UInt8.toNat_ofNat_of_lt' (show _ < 256 by omega)
    have hpayload : (0xE0 + codePoint / 4096) % 16 = codePoint / 4096 := by omega
    have hcontinues : continues (UInt8.ofNat (0xE0 + codePoint / 4096))
        (continuationByte codePoint 64) = true :=
      continues_iff.mpr ⟨isContinuation_continuationByte codePoint 64, by omega, by omega, by omega,
        by omega⟩
    have hsequence := Sequence.three (by rw [hlead]; omega) (by rw [hlead]; omega) hcontinues
      (isContinuation_continuationByte codePoint 1)
    rwa [hlead, hpayload, assemble_three] at hsequence
  · have hlead := toNat_longestLead (show codePoint ≤ 0x10FFFF by omega)
    have hpayload : (0xF0 + codePoint / 262144) % 8 = codePoint / 262144 := by omega
    have hcontinues : continues (UInt8.ofNat (0xF0 ||| codePoint / 262144))
        (continuationByte codePoint 4096) = true :=
      continues_iff.mpr ⟨isContinuation_continuationByte codePoint 4096, by omega, by omega,
        by omega, by omega⟩
    have hsequence := Sequence.four (by rw [hlead]; omega) (by rw [hlead]; omega) hcontinues
      (isContinuation_continuationByte codePoint 64) (isContinuation_continuationByte codePoint 1)
    rwa [hlead, hpayload, assemble_four] at hsequence

/-- A sequence is read at the front of a string exactly if it is the one that is written for its
code point. -/
theorem front?_eq_some_iff : front? bytes = some (codePoint, length) ↔
    IsScalar codePoint ∧ encode codePoint <+: bytes ∧ length = (encode codePoint).length := by
  constructor
  · intro hfront
    obtain ⟨sequence, rest, rfl, hsequence, rfl⟩ := exists_sequence_of_front? hfront
    rw [hsequence.encode_eq]
    exact ⟨hsequence.isScalar, List.prefix_append sequence rest, rfl⟩
  · rintro ⟨hscalar, ⟨rest, rfl⟩, rfl⟩
    exact (sequence_encode hscalar).front? rest

theorem front?_encode_append (hscalar : IsScalar codePoint) (rest : Bytes) :
    front? (encode codePoint ++ rest) = some (codePoint, (encode codePoint).length) :=
  (sequence_encode hscalar).front? rest

/-- Only continuation bytes stand behind the first byte of a sequence, which is none itself. -/
theorem exists_encode_eq_cons (hscalar : IsScalar codePoint) :
    ∃ lead behind, encode codePoint = lead :: behind ∧ isContinuation lead = false ∧
      ∀ byte ∈ behind, isContinuation byte = true := by
  have hlead : ∀ {lead : UInt8}, lead.toNat < 0x80 ∨ 0xC0 ≤ lead.toNat →
      isContinuation lead = false := by
    intro lead hbounds
    rw [← Bool.not_eq_true, isContinuation_iff]
    omega
  have hsequence := sequence_encode hscalar
  generalize encode codePoint = sequence at hsequence
  cases hsequence with
  | one hone => exact ⟨_, [], rfl, hlead (.inl hone), by simp⟩
  | two hlow _ hsecond => exact ⟨_, [_], rfl, hlead (.inr (by omega)), by simp [hsecond]⟩
  | three hlow _ hsecond hthird =>
    exact ⟨_, [_, _], rfl, hlead (.inr (by omega)), by simp [(continues_iff.mp hsecond).1, hthird]⟩
  | four hlow _ hsecond hthird hfourth =>
    exact ⟨_, [_, _, _], rfl, hlead (.inr (by omega)),
      by simp [(continues_iff.mp hsecond).1, hthird, hfourth]⟩

/-- Whether a sequence begins at a byte, and which one, is decided by the continuation bytes
behind it. -/
theorem front?_takeWhile (byte : UInt8) (rest : Bytes) :
    front? (byte :: rest.takeWhile isContinuation) = front? (byte :: rest) := by
  have hprefix : ∀ {codePoint}, IsScalar codePoint →
      (encode codePoint <+: byte :: rest.takeWhile isContinuation ↔
        encode codePoint <+: byte :: rest) := by
    intro codePoint hscalar
    obtain ⟨lead, behind, hencode, -, hbehind⟩ := exists_encode_eq_cons hscalar
    rw [hencode, List.cons_prefix_cons, List.cons_prefix_cons]
    refine and_congr_right fun _ => ⟨fun h => h.trans (List.takeWhile_prefix _), ?_⟩
    rintro ⟨after, rfl⟩
    rw [List.takeWhile_append_of_pos hbehind]
    exact List.prefix_append behind _
  apply Option.ext
  rintro ⟨codePoint, length⟩
  rw [front?_eq_some_iff, front?_eq_some_iff]
  exact and_congr_right fun hscalar => and_congr_left fun _ => hprefix hscalar

/-! ## Pieces -/

theorem piecesAfter_eq (skipped : Nat) (bytes : Bytes) :
    piecesAfter skipped bytes = pieces (bytes.drop skipped) := by
  induction skipped generalizing bytes with
  | zero => rfl
  | succ skipped ih =>
    cases bytes with
    | nil => rfl
    | cons byte rest => rw [piecesAfter, ih, List.drop_succ_cons]

theorem pieces_encode_append (hscalar : IsScalar codePoint) (rest : Bytes) :
    pieces (encode codePoint ++ rest) = .scalar codePoint :: pieces rest := by
  obtain ⟨lead, behind, hencode, -⟩ := exists_encode_eq_cons hscalar
  have hfront := front?_encode_append hscalar rest
  rw [hencode, List.cons_append] at hfront ⊢
  rw [pieces, piecesAfter, hfront]
  simp only [List.length_cons, Nat.add_sub_cancel, piecesAfter_eq, List.drop_left]

theorem pieces_cons_of_none (hnone : front? (byte :: rest) = none) :
    pieces (byte :: rest) = .stray byte :: pieces rest := by
  rw [pieces, piecesAfter, hnone]
  rfl

/-- A string is empty, or begins with the sequence of a code point, or with a byte at which no
sequence begins. -/
@[elab_as_elim]
theorem pieces_induction {motive : Bytes → Prop} (bytes : Bytes) (nil : motive [])
    (scalar : ∀ codePoint rest, IsScalar codePoint → motive rest →
      motive (encode codePoint ++ rest))
    (stray : ∀ byte rest, front? (byte :: rest) = none → motive rest → motive (byte :: rest)) :
    motive bytes := by
  induction hsize : bytes.length using Nat.strong_induction_on generalizing bytes with
  | _ size ih =>
    subst hsize
    cases bytes with
    | nil => exact nil
    | cons byte rest =>
      cases hfront : front? (byte :: rest) with
      | none => exact stray byte rest hfront (ih rest.length (Nat.lt_succ_self _) rest rfl)
      | some found =>
        obtain ⟨codePoint, length⟩ := found
        obtain ⟨hscalar, ⟨behind, hbytes⟩, -⟩ := front?_eq_some_iff.mp hfront
        obtain ⟨lead, continuation, hencode, -⟩ := exists_encode_eq_cons hscalar
        have hshorter : behind.length < (byte :: rest).length := by
          rw [← hbytes, hencode, List.length_append, List.length_cons]
          omega
        rw [← hbytes]
        exact scalar codePoint behind hscalar (ih behind.length hshorter behind rfl)

/-! ## Well-formed strings -/

theorem wellFormed_nil : WellFormed [] :=
  ⟨[], List.forall_mem_nil _, rfl⟩

theorem wellFormed_encode (hscalar : IsScalar codePoint) : WellFormed (encode codePoint) :=
  ⟨[codePoint], by simpa using hscalar, by simp⟩

theorem WellFormed.append {left right : Bytes} (hleft : WellFormed left)
    (hright : WellFormed right) : WellFormed (left ++ right) := by
  obtain ⟨leftPoints, hleftScalar, rfl⟩ := hleft
  obtain ⟨rightPoints, hrightScalar, rfl⟩ := hright
  refine ⟨leftPoints ++ rightPoints, ?_, List.flatMap_append.symm⟩
  rw [List.forall_mem_append]
  exact ⟨hleftScalar, hrightScalar⟩

theorem wellFormed_flatMap {α : Type} {items : List α} {write : α → Bytes}
    (hitems : ∀ item ∈ items, WellFormed (write item)) : WellFormed (items.flatMap write) := by
  induction items with
  | nil => exact wellFormed_nil
  | cons item items ih =>
    rw [List.forall_mem_cons] at hitems
    rw [List.flatMap_cons]
    exact hitems.1.append (ih hitems.2)

theorem wellFormed_of_ascii (hascii : ∀ byte ∈ bytes, byte.toNat < 0x80) : WellFormed bytes := by
  have hwritten : bytes.flatMap (fun byte => [byte]) = bytes := List.flatMap_singleton' bytes
  rw [← hwritten]
  refine wellFormed_flatMap fun byte hbyte => ?_
  have hbound := hascii byte hbyte
  rw [← encode_of_ascii hbound]
  exact wellFormed_encode (.inl (by omega))

/-- Whatever a string is made of, what is left of it is well-formed. -/
theorem sanitize_wellFormed (bytes : Bytes) : WellFormed (sanitize bytes) := by
  refine wellFormed_flatMap fun piece hpiece => ?_
  induction bytes using pieces_induction with
  | nil => cases hpiece
  | scalar codePoint rest hscalar ih =>
    rw [pieces_encode_append hscalar] at hpiece
    rcases List.mem_cons.mp hpiece with rfl | hbehind
    · exact wellFormed_encode hscalar
    · exact ih hbehind
  | stray byte rest hnone ih =>
    rw [pieces_cons_of_none hnone] at hpiece
    rcases List.mem_cons.mp hpiece with rfl | hbehind
    · rw [Piece.sanitize]
      split
      · exact wellFormed_nil
      · exact wellFormed_of_ascii (List.forall_mem_singleton.mpr (by decide))
    · exact ih hbehind

end Utf8

theorem wellFormed_text (literal : String) : Utf8.WellFormed (text literal) := by
  refine Utf8.wellFormed_flatMap fun char _ => Utf8.wellFormed_encode ?_
  rcases char.valid with hlow | ⟨hhigh, hlast⟩
  · exact .inl hlow
  · exact .inr ⟨hhigh, Nat.le_of_lt_succ hlast⟩

end Patchwork
