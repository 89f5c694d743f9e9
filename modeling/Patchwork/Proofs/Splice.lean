import Mathlib.Data.List.Sort
import Patchwork.Splice

/-!
# Replacements that stand apart

Replacements that stand one behind the other cut lines into gaps and segments.  Carrying them
out keeps every gap and puts new lines in the place of every segment.  Ordering replacements by
their places is the insertion sort of the standard library, and what it does to a relation
between replacements can be read off the unordered list.
-/

namespace Patchwork

namespace Replacement

/-- One replacement ends where another begins, or above it. -/
def Above (first second : Replacement) : Prop :=
  first.start + first.oldLength ≤ second.start

instance (first second : Replacement) : Decidable (first.Above second) :=
  inferInstanceAs (Decidable (_ ≤ _))

/-- Each replacement ends above all that follow it, and within the lines. -/
structure Apart (lines : List Bytes) (replacements : List Replacement) : Prop where
  above : replacements.Pairwise Above
  within : ∀ replacement ∈ replacements, replacement.start + replacement.oldLength ≤ lines.length

instance (lines : List Bytes) (replacements : List Replacement) :
    Decidable (Apart lines replacements) :=
  decidable_of_iff (replacements.Pairwise Above ∧ ∀ replacement ∈ replacements,
      replacement.start + replacement.oldLength ≤ lines.length)
    ⟨fun hapart => ⟨hapart.1, hapart.2⟩, fun hapart => ⟨hapart.above, hapart.within⟩⟩

/-- The result consists of the gaps of the lines, in order and as they are, with the new lines of
the replacements between them.  The first line stands at the given position. -/
inductive Replaces : Nat → List Bytes → List Replacement → List Bytes → Prop
  | nil (position : Nat) (lines : List Bytes) : Replaces position lines [] lines
  | cons (gap old new : List Bytes) {position : Nat} {lines result : List Bytes}
      {replacements : List Replacement}
      (hrest : Replaces (position + gap.length + old.length) lines replacements result) :
      Replaces position (gap ++ old ++ lines)
        (⟨position + gap.length, old.length, new⟩ :: replacements) (gap ++ new ++ result)

theorem splice_segment (above old new behind : List Bytes) :
    splice ⟨above.length, old.length, new⟩ (above ++ old ++ behind) = above ++ new ++ behind := by
  rw [splice, ← List.length_append, List.drop_left, List.append_assoc above old, List.take_left]

/-- Carrying the replacements out from the last to the first leads to the result, behind any lines
that stand above the first position. -/
theorem Replaces.spliceAll_append {position : Nat} {lines result : List Bytes}
    {replacements : List Replacement} (hreplaces : Replaces position lines replacements result)
    {above : List Bytes} (hposition : above.length = position) :
    spliceAll (above ++ lines) replacements = above ++ result := by
  induction hreplaces generalizing above with
  | nil => rfl
  | @cons gap old new position lines result replacements _ ih =>
    subst hposition
    have hlength : (above ++ gap ++ old).length = above.length + gap.length + old.length := by
      simp only [List.length_append]
    have hbehind := ih hlength
    calc spliceAll (above ++ (gap ++ old ++ lines))
          (⟨above.length + gap.length, old.length, new⟩ :: replacements)
        = splice ⟨above.length + gap.length, old.length, new⟩
            (spliceAll (above ++ gap ++ old ++ lines) replacements) := by
          simp only [List.append_assoc]; rfl
      _ = splice ⟨(above ++ gap).length, old.length, new⟩ (above ++ gap ++ old ++ result) := by
          rw [hbehind, List.length_append]
      _ = above ++ gap ++ new ++ result := splice_segment _ _ _ _
      _ = above ++ (gap ++ new ++ result) := by simp only [List.append_assoc]

theorem Replaces.spliceAll_eq {lines result : List Bytes} {replacements : List Replacement}
    (hreplaces : Replaces 0 lines replacements result) :
    spliceAll lines replacements = result :=
  hreplaces.spliceAll_append List.length_nil

theorem drop_eq_take_append_drop (lines : List Bytes) (position length : Nat) :
    lines.drop position =
      (lines.drop position).take length ++ lines.drop (position + length) := by
  rw [← List.drop_drop, List.take_append_drop]

/-- Replacements that stand apart cut the lines behind any position above them. -/
theorem exists_replaces {lines : List Bytes} {replacements : List Replacement} {position : Nat}
    (hposition : position ≤ lines.length) (hapart : Apart lines replacements)
    (hbegin : ∀ replacement ∈ replacements, position ≤ replacement.start) :
    ∃ result, Replaces position (lines.drop position) replacements result := by
  induction replacements generalizing position with
  | nil => exact ⟨_, .nil position _⟩
  | cons replacement replacements ih =>
    obtain ⟨start, oldLength, new⟩ := replacement
    obtain ⟨habove, hwithin⟩ := hapart
    rw [List.pairwise_cons] at habove
    rw [List.forall_mem_cons] at hbegin hwithin
    obtain ⟨gapLength, rfl⟩ : ∃ gapLength, start = position + gapLength :=
      Nat.exists_eq_add_of_le hbegin.1
    have hstop : position + gapLength + oldLength ≤ lines.length := hwithin.1
    obtain ⟨result, hresult⟩ := ih hstop ⟨habove.2, hwithin.2⟩ habove.1
    have hgap : ((lines.drop position).take gapLength).length = gapLength := by
      rw [List.length_take, List.length_drop]
      omega
    have hold : ((lines.drop (position + gapLength)).take oldLength).length = oldLength := by
      rw [List.length_take, List.length_drop]
      omega
    have hlines : lines.drop position = (lines.drop position).take gapLength ++
        (lines.drop (position + gapLength)).take oldLength ++
          lines.drop (position + gapLength + oldLength) := by
      rw [List.append_assoc, ← drop_eq_take_append_drop, ← drop_eq_take_append_drop]
    rw [← hgap, ← hold] at hresult
    have hcons := Replaces.cons ((lines.drop position).take gapLength)
      ((lines.drop (position + gapLength)).take oldLength) new hresult
    rw [hgap, hold, ← hlines] at hcons
    exact ⟨_, hcons⟩

/-- Replacements that stand apart keep every line outside their segments. -/
theorem Apart.replaces {lines : List Bytes} {replacements : List Replacement}
    (hapart : Apart lines replacements) :
    Replaces 0 lines replacements (spliceAll lines replacements) := by
  obtain ⟨result, hresult⟩ := exists_replaces (Nat.zero_le _) hapart fun _ _ => Nat.zero_le _
  rw [List.drop_zero] at hresult
  rwa [hresult.spliceAll_eq]

/-! ## The order of replacements -/

/-- One replacement begins where another begins, or above it. -/
def NoLater (first second : Replacement) : Prop :=
  first.start ≤ second.start

instance : DecidableRel NoLater := fun _ _ => inferInstanceAs (Decidable (_ ≤ _))

instance : Std.Total NoLater := ⟨fun first second => Nat.le_total first.start second.start⟩

instance : IsTrans Replacement NoLater := ⟨fun _ _ _ => Nat.le_trans⟩

theorem Above.noLater {first second : Replacement} (habove : first.Above second) :
    first.NoLater second :=
  Nat.le_trans (Nat.le_add_right _ _) habove

theorem insertByStart_eq_orderedInsert (replacement : Replacement)
    (replacements : List Replacement) :
    insertByStart replacement replacements = replacements.orderedInsert NoLater replacement := by
  induction replacements with
  | nil => rfl
  | cons other rest ih => rw [insertByStart, List.orderedInsert_cons, ih]; rfl

theorem sort_eq_insertionSort (replacements : List Replacement) :
    sort replacements = replacements.insertionSort NoLater := by
  induction replacements with
  | nil => rfl
  | cons replacement replacements ih =>
    rw [List.insertionSort_cons, ← ih, ← insertByStart_eq_orderedInsert]
    rfl

@[simp]
theorem mem_sort {replacement : Replacement} {replacements : List Replacement} :
    replacement ∈ sort replacements ↔ replacement ∈ replacements := by
  rw [sort_eq_insertionSort, List.mem_insertionSort]

/-- Replacements that stand apart are in order. -/
theorem sort_eq_self {replacements : List Replacement} (habove : replacements.Pairwise Above) :
    sort replacements = replacements := by
  rw [sort_eq_insertionSort]
  exact (habove.imp Above.noLater).insertionSort_eq

variable (relation : Replacement → Replacement → Prop)

/-- The relation holds between two replacements in the order of their places, those at one place
in the order in which they are given. -/
def RelatesInOrder (first second : Replacement) : Prop :=
  if first.NoLater second then relation first second else relation second first

theorem pairwise_orderedInsert_iff {replacement : Replacement} {replacements : List Replacement}
    (hsorted : replacements.Pairwise NoLater) :
    (replacements.orderedInsert NoLater replacement).Pairwise relation ↔
      (∀ other ∈ replacements, RelatesInOrder relation replacement other) ∧
        replacements.Pairwise relation := by
  induction replacements with
  | nil => simp
  | cons other rest ih =>
    rw [List.pairwise_cons] at hsorted
    rw [List.orderedInsert_cons]
    split
    · rename_i hle
      have hall : ∀ later ∈ other :: rest, replacement.NoLater later := by
        rw [List.forall_mem_cons]
        exact ⟨hle, fun later hlater => Nat.le_trans hle (hsorted.1 later hlater)⟩
      rw [List.pairwise_cons]
      refine and_congr_left fun _ => forall₂_congr fun later hlater => ?_
      rw [RelatesInOrder, if_pos (hall later hlater)]
    · rename_i hgt
      rw [List.pairwise_cons, ih hsorted.2, List.forall_mem_cons, List.pairwise_cons,
        RelatesInOrder, if_neg hgt]
      simp only [List.mem_orderedInsert, forall_eq_or_imp]
      tauto

/-- A relation holds all along ordered replacements if it holds between any two of them in order. -/
theorem pairwise_sort_iff {replacements : List Replacement} :
    (sort replacements).Pairwise relation ↔ replacements.Pairwise (RelatesInOrder relation) := by
  rw [sort_eq_insertionSort]
  induction replacements with
  | nil => simp
  | cons replacement replacements ih =>
    rw [List.insertionSort_cons, pairwise_orderedInsert_iff relation
      (List.pairwise_insertionSort NoLater replacements), ih, List.pairwise_cons]
    simp only [List.mem_insertionSort]

end Replacement

end Patchwork
