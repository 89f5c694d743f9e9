import Patchwork.Diff.Reader
import Patchwork.Proofs.Lines

/-!
# Reading the headings of sections

The decimal digits of a number stand for it, and the place and length of a section on both
sides are found again in its heading.
-/

namespace Patchwork

namespace Diff

/-! ## Decimal digits -/

theorem isDigit_toNat {digit : Char} (hdigit : digit.isDigit = true) :
    48 ≤ digit.toNat ∧ digit.toNat ≤ 57 :=
  Char.isDigit_iff_toNat.mp hdigit

theorem isDigit_of_mem_toDigits {number : Nat} {digit : Char}
    (hdigit : digit ∈ Nat.toDigits 10 number) : digit.isDigit = true :=
  Nat.isDigit_of_mem_toDigits (by decide) (by decide) hdigit

theorem toNat_of_mem_decimal {number : Nat} {byte : UInt8} (hbyte : byte ∈ decimal number) :
    48 ≤ byte.toNat ∧ byte.toNat ≤ 57 := by
  rw [decimal, List.mem_map] at hbyte
  obtain ⟨digit, hdigit, rfl⟩ := hbyte
  have hbounds := isDigit_toNat (isDigit_of_mem_toDigits hdigit)
  rw [UInt8.toNat_ofNat_of_lt' (show _ < 256 by omega)]
  exact hbounds

/-- A byte that is no digit does not stand in a number. -/
theorem notMem_decimal {byte : UInt8} (hbyte : byte.toNat < 48) (number : Nat) :
    byte ∉ decimal number := by
  intro hmem
  have hbounds := toNat_of_mem_decimal hmem
  omega

theorem foldl_digits (digits : List Char) (hdigits : ∀ digit ∈ digits, digit.isDigit = true)
    (number : Nat) :
    (digits.map fun digit => UInt8.ofNat digit.toNat).foldl
        (fun number digit => number * 10 + (digit.toNat - 48)) number =
      Nat.ofDigitChars 10 digits number := by
  rw [Nat.ofDigitChars_eq_foldl, List.foldl_map]
  induction digits generalizing number with
  | nil => rfl
  | cons digit digits ih =>
    rw [List.forall_mem_cons] at hdigits
    have hbounds := isDigit_toNat hdigits.1
    rw [List.foldl_cons, List.foldl_cons,
      UInt8.toNat_ofNat_of_lt' (show _ < 256 by omega), Nat.mul_comm]
    exact ih hdigits.2 _

/-- The digits of a number stand for it. -/
theorem number?_decimal (number : Nat) : number? (decimal number) = some number := by
  have hdigits : (decimal number).all fun digit => 48 ≤ digit && digit ≤ 57 := by
    rw [List.all_eq_true]
    intro digit hdigit
    simpa [UInt8.le_iff_toNat_le] using toNat_of_mem_decimal hdigit
  have hnonempty : decimal number ≠ [] := by
    rw [decimal, ne_eq, List.map_eq_nil_iff]
    exact Nat.toDigits_ne_nil
  rw [number?, if_pos ⟨hnonempty, hdigits⟩, decimal,
    foldl_digits _ (fun _ => isDigit_of_mem_toDigits) 0, Nat.ofDigitChars_ten_toDigits]

/-! ## Ranges -/

/-- The line that a range names: an empty one names the line before it. -/
def namedLine (start count : Nat) : Nat :=
  if count = 0 then start else start + 1

theorem formatRange_one (start : Nat) : formatRange start 1 = decimal (start + 1) := rfl

theorem formatRange_of_ne_one {count : Nat} (hcount : count ≠ 1) (start : Nat) :
    formatRange start count = decimal (namedLine start count) ++ 44 :: decimal count := by
  rw [formatRange, if_neg hcount, namedLine]
  by_cases hzero : count = 0
  · subst hzero
    rfl
  · rw [if_neg hzero, if_neg hzero, List.append_assoc]
    rfl

/-- The bytes of a range are digits and commas. -/
theorem notMem_formatRange {byte : UInt8} (hbyte : byte.toNat < 44) (start count : Nat) :
    byte ∉ formatRange start count := by
  have hdigits := notMem_decimal (show byte.toNat < 48 by omega)
  by_cases hone : count = 1
  · rw [hone, formatRange_one]
    exact hdigits (start + 1)
  · have hcomma : byte ≠ 44 := by
      rintro rfl
      exact absurd hbyte (by decide)
    rw [formatRange_of_ne_one hone, List.mem_append, List.mem_cons, not_or, not_or]
    exact ⟨hdigits _, hcomma, hdigits _⟩

/-- The place and length of a section are found again in its range. -/
theorem span?_formatRange (start count : Nat) :
    span? (formatRange start count) = some ⟨start, count⟩ := by
  have hcomma := notMem_decimal (show (44 : UInt8).toNat < 48 by decide)
  rw [span?, Bytes.splitAt_eq_splitOn]
  by_cases hone : count = 1
  · rw [hone, formatRange_one, List.splitOn_eq_singleton (hcomma _)]
    simp [number?_decimal]
  · rw [formatRange_of_ne_one hone, List.splitOn_append_cons_self_of_not_mem (hcomma _),
      List.splitOn_eq_singleton (hcomma _)]
    simp only [number?_decimal, Option.bind_eq_bind, Option.bind_some, namedLine]
    by_cases hzero : count = 0
    · simp [hzero]
    · simp [hzero]

/-! ## Headings -/

namespace Section

/-- The line that a section stands under. -/
def heading (part : Section) : Bytes :=
  text "@@ -" ++ formatRange part.old.start part.old.count ++ text " +" ++
    formatRange part.new.start part.new.count ++ text " @@\n"

theorem heading_eq (part : Section) :
    part.heading = text "@@" ++ Bytes.space ::
      ((45 :: formatRange part.old.start part.old.count) ++ Bytes.space ::
        ((43 :: formatRange part.new.start part.new.count) ++ Bytes.space :: text "@@\n")) := by
  simp [heading, text, Utf8.encode]

theorem heading?_heading (part : Section) :
    heading? part.heading = some (part.old, part.new) := by
  have hspace := notMem_formatRange (show Bytes.space.toNat < 44 by decide)
  rw [heading?, heading_eq, Bytes.splitAt_eq_splitOn,
    List.splitOn_append_cons_self_of_not_mem (by decide),
    List.splitOn_append_cons_self_of_not_mem
      (List.not_mem_cons_of_ne_of_not_mem (by decide) (hspace _ _)),
    List.splitOn_append_cons_self_of_not_mem
      (List.not_mem_cons_of_ne_of_not_mem (by decide) (hspace _ _)),
    List.splitOn_eq_singleton (by decide)]
  simp [span?_formatRange]

theorem ended_heading (part : Section) : Lines.Ended part.heading := by
  have hnewline := notMem_formatRange (show Bytes.newline.toNat < 44 by decide)
  refine ⟨text "@@ -" ++ formatRange part.old.start part.old.count ++ text " +" ++
    formatRange part.new.start part.new.count ++ text " @@", ?_, ?_⟩
  · simp only [List.mem_append, not_or]
    exact ⟨⟨⟨⟨by decide, hnewline _ _⟩, by decide⟩, hnewline _ _⟩, by decide⟩
  · rw [heading, List.append_assoc _ (text " @@")]
    rfl

end Section

end Diff

end Patchwork
