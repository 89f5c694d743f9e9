import Mathlib.Data.List.DropRight
import Patchwork.Bytes

/-!
# Trimming

An end that satisfies a test is cut up to a byte that does not.  A trimmed string does not end in
a blank.  A string without a blank at its ends is left as it is, and blanks around a string make
no difference.
-/

namespace Patchwork

namespace Bytes

theorem dropEndWhile_eq_self {test : UInt8 → Bool} {bytes : Bytes}
    (hkept : ¬ bytes.getLast?.any test) : dropEndWhile test bytes = bytes := by
  change bytes.rdropWhile test = bytes
  rw [List.rdropWhile_eq_self_iff]
  intro hne
  rwa [List.getLast?_eq_some_getLast hne] at hkept

/-- An end that satisfies the test is dropped, up to a byte that does not. -/
theorem dropEndWhile_append {test : UInt8 → Bool} {kept ending : Bytes}
    (hkept : ¬ kept.getLast?.any test) (hending : ∀ byte ∈ ending, test byte = true) :
    dropEndWhile test (kept ++ ending) = kept := by
  rw [dropEndWhile, List.reverse_append, List.dropWhile_append_of_pos (by simpa using hending)]
  exact dropEndWhile_eq_self hkept

theorem trim_eq_rdropWhile (bytes : Bytes) :
    trim bytes = (bytes.dropWhile isBlank).rdropWhile isBlank := rfl

variable {bytes : Bytes}

/-- A string without a blank at its ends is left as it is. -/
theorem trim_eq_self (hfirst : ¬ bytes.head?.any isBlank) (hlast : ¬ bytes.getLast?.any isBlank) :
    trim bytes = bytes := by
  have hdrop : bytes.dropWhile isBlank = bytes := by
    cases bytes with
    | nil => rfl
    | cons byte bytes => exact List.dropWhile_cons_of_neg hfirst
  rw [trim, hdrop]
  exact dropEndWhile_eq_self hlast

/-- Trimming cuts the end of what is left behind the blanks in front. -/
theorem trim_isPrefix (bytes : Bytes) : trim bytes <+: bytes.dropWhile isBlank :=
  List.rdropWhile_prefix isBlank _

theorem getLast?_trim (bytes : Bytes) : ¬ (trim bytes).getLast?.any isBlank := by
  by_cases hempty : trim bytes = []
  · rw [hempty]
    exact Bool.false_ne_true
  · have hlast := List.rdropWhile_last_not isBlank (bytes.dropWhile isBlank) hempty
    rw [List.getLast?_eq_some_getLast hempty]
    exact hlast

theorem head?_trim (bytes : Bytes) : ¬ (trim bytes).head?.any isBlank := by
  obtain ⟨ending, hsplit⟩ := trim_isPrefix bytes
  have hfirst := List.head?_dropWhile_not isBlank bytes
  rw [← hsplit] at hfirst
  cases htrim : trim bytes with
  | nil => exact Bool.false_ne_true
  | cons byte rest =>
    rw [htrim] at hfirst
    simpa using hfirst

theorem mem_of_mem_trim {byte : UInt8} (hbyte : byte ∈ trim bytes) : byte ∈ bytes :=
  (List.dropWhile_sublist isBlank).subset ((trim_isPrefix bytes).subset hbyte)

/-- Blanks behind a string make no difference. -/
theorem trim_append_blank {blanks : Bytes} (hblanks : ∀ byte ∈ blanks, isBlank byte = true) :
    trim (bytes ++ blanks) = trim bytes := by
  rw [trim_eq_rdropWhile, trim_eq_rdropWhile, List.dropWhile_append]
  split
  · rename_i hempty
    rw [List.isEmpty_iff.mp hempty, List.dropWhile_eq_nil_iff.mpr hblanks]
  · rw [List.rdropWhile, List.reverse_append, List.dropWhile_append_of_pos, List.rdropWhile]
    intro byte hbyte
    exact hblanks byte (List.mem_reverse.mp hbyte)

theorem trim_eq_nil_of_blank {blanks : Bytes} (hblanks : ∀ byte ∈ blanks, isBlank byte = true) :
    trim blanks = [] := by
  have hnil : trim ([] ++ blanks) = trim [] := trim_append_blank hblanks
  exact hnil

/-- Blanks in front of a string make no difference. -/
theorem trim_blank_append {blanks : Bytes} (hblanks : ∀ byte ∈ blanks, isBlank byte = true)
    (bytes : Bytes) : trim (blanks ++ bytes) = trim bytes := by
  rw [trim_eq_rdropWhile, trim_eq_rdropWhile, List.dropWhile_append_of_pos hblanks]

/-- Trimming cuts the blanks in front, and blanks behind. -/
theorem exists_eq_takeWhile_append_trim (bytes : Bytes) :
    ∃ ending, bytes = bytes.takeWhile isBlank ++ trim bytes ++ ending ∧
      ∀ byte ∈ ending, isBlank byte = true := by
  refine ⟨(bytes.dropWhile isBlank).rtakeWhile isBlank, ?_,
    fun byte hbyte => List.mem_rtakeWhile_imp hbyte⟩
  rw [trim_eq_rdropWhile, List.append_assoc, List.rdropWhile_append_rtakeWhile,
    List.takeWhile_append_dropWhile]

/-- A string is what trimming leaves of it, between blanks. -/
theorem exists_eq_append_trim (bytes : Bytes) :
    ∃ opening ending, bytes = opening ++ trim bytes ++ ending ∧
      (∀ byte ∈ opening, isBlank byte = true) ∧ ∀ byte ∈ ending, isBlank byte = true := by
  obtain ⟨ending, hsplit, hending⟩ := exists_eq_takeWhile_append_trim bytes
  exact ⟨_, ending, hsplit, fun byte hbyte => List.mem_takeWhile_imp hbyte, hending⟩

/-- Behind bytes that do not begin with a blank, only the blanks at the end are cut. -/
theorem exists_trim_append (hvisible : trim bytes ≠ []) :
    ∃ kept ending, bytes = kept ++ ending ∧
      (∀ {front : Bytes}, front ≠ [] → ¬ front.head?.any isBlank →
        trim (front ++ (kept ++ ending)) = front ++ kept) ∧
      ¬ kept.getLast?.any isBlank ∧ trim kept = trim (kept ++ ending) := by
  obtain ⟨opening, ending, hsplit, -, hending⟩ := exists_eq_append_trim bytes
  have hlast : ¬ (opening ++ trim bytes).getLast?.any isBlank := by
    rw [List.getLast?_append_of_ne_nil _ hvisible]
    exact getLast?_trim bytes
  have hkept : opening ++ trim bytes ≠ [] := List.append_ne_nil_of_right_ne_nil _ hvisible
  refine ⟨opening ++ trim bytes, ending, hsplit, fun {front} hne hfirst => ?_, hlast,
    (trim_append_blank hending).symm⟩
  rw [← List.append_assoc, trim_append_blank hending]
  apply trim_eq_self
  · rwa [List.head?_append_of_ne_nil _ hne]
  · rwa [List.getLast?_append_of_ne_nil _ hkept]

/-- Spaces and tabs at the end are blanks, so cutting them first makes no difference. -/
theorem trim_trimEnd (bytes : Bytes) : trim (trimEnd bytes) = trim bytes := by
  let test : UInt8 → Bool := fun byte => byte == space || byte == tab
  have hsplit : trimEnd bytes ++ bytes.rtakeWhile test = bytes :=
    List.rdropWhile_append_rtakeWhile
  have hblanks : ∀ byte ∈ bytes.rtakeWhile test, isBlank byte = true := by
    intro byte hbyte
    have htest : test byte = true := List.mem_rtakeWhile_imp hbyte
    simp only [test, Bool.or_eq_true, beq_iff_eq] at htest
    rcases htest with rfl | rfl <;> rfl
  conv_rhs => rw [← hsplit]
  exact (trim_append_blank hblanks).symm

variable {byte : UInt8}

theorem dropWhile_isBlank_cons (hbyte : isBlank byte = false) (bytes : Bytes) :
    (byte :: bytes).dropWhile isBlank = byte :: bytes :=
  List.dropWhile_cons_of_neg (by rw [hbyte]; exact Bool.false_ne_true)

theorem trim_cons_ne_nil (hbyte : isBlank byte = false) (bytes : Bytes) :
    trim (byte :: bytes) ≠ [] := by
  rw [trim_eq_rdropWhile, dropWhile_isBlank_cons hbyte, ne_eq, List.rdropWhile_eq_nil_iff]
  intro hall
  rw [hall byte List.mem_cons_self] at hbyte
  cases hbyte

/-- A byte that is no blank stays in front. -/
theorem head?_trim_cons (hbyte : isBlank byte = false) (bytes : Bytes) :
    (trim (byte :: bytes)).head? = some byte := by
  obtain ⟨behind, hsplit⟩ := trim_isPrefix (byte :: bytes)
  rw [dropWhile_isBlank_cons hbyte] at hsplit
  cases htrim : trim (byte :: bytes) with
  | nil => exact absurd htrim (trim_cons_ne_nil hbyte bytes)
  | cons first rest =>
    rw [htrim, List.cons_append, List.cons.injEq] at hsplit
    rw [List.head?_cons, hsplit.1]

end Bytes

end Patchwork
