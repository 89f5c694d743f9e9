import Mathlib.Data.List.Infix
import Patchwork.Search

/-!
# What a search finds

A search under one tier finds the first position of its window at which the lines match, and a
search over all tiers finds such a position under some tier.  It finds none only if no position
matches under any tier.
-/

namespace Patchwork

/-! ## The first occurrence -/

section Occurrence

variable {pattern lines : List Bytes} {index positions found : Nat}

theorem firstOccurrence_spec (hfound : firstOccurrence pattern index positions lines = some found) :
    ∃ offset < positions, found = index + offset ∧ pattern <+: lines.drop offset ∧
      ∀ earlier < offset, ¬ pattern <+: lines.drop earlier := by
  induction positions generalizing index lines with
  | zero => cases hfound
  | succ positions ih =>
    cases lines with
    | nil =>
      rw [firstOccurrence] at hfound
      split at hfound
      · rename_i hempty
        obtain rfl := Option.some.inj hfound
        rw [List.isEmpty_iff] at hempty
        exact ⟨0, Nat.succ_pos _, rfl, hempty ▸ List.nil_prefix, fun _ hlt => absurd hlt (by omega)⟩
      · cases hfound
    | cons line rest =>
      rw [firstOccurrence] at hfound
      split at hfound
      · rename_i hopens
        obtain rfl := Option.some.inj hfound
        exact ⟨0, Nat.succ_pos _, rfl, List.isPrefixOf_iff_prefix.mp hopens,
          fun _ hlt => absurd hlt (by omega)⟩
      · rename_i hopens
        obtain ⟨offset, hoffset, rfl, hmatch, hfirst⟩ := ih hfound
        refine ⟨offset + 1, by omega, by omega, hmatch, fun earlier hlt => ?_⟩
        cases earlier with
        | zero => exact fun hzero => hopens (List.isPrefixOf_iff_prefix.mpr hzero)
        | succ earlier => exact hfirst earlier (by omega)

theorem not_prefix_of_firstOccurrence (hnone : firstOccurrence pattern index positions lines = none)
    {offset : Nat} (hoffset : offset < positions) : ¬ pattern <+: lines.drop offset := by
  induction positions generalizing index lines offset with
  | zero => omega
  | succ positions ih =>
    cases lines with
    | nil =>
      rw [firstOccurrence] at hnone
      split at hnone
      · cases hnone
      · rename_i hempty
        rw [List.drop_nil, List.prefix_nil, ← List.isEmpty_iff]
        exact hempty
    | cons line rest =>
      rw [firstOccurrence] at hnone
      split at hnone
      · cases hnone
      · rename_i hopens
        cases offset with
        | zero => exact fun hzero => hopens (List.isPrefixOf_iff_prefix.mpr hzero)
        | succ offset => exact ih hnone (by omega)

end Occurrence

/-! ## Matches -/

namespace Tier

/-- From a position on, the lines match the pattern line by line, as far as the tier sees. -/
def Matches (tier : Tier) (lines pattern : List Bytes) (position : Nat) : Prop :=
  pattern.map tier.view <+: (lines.drop position).map tier.view

instance (tier : Tier) (lines pattern : List Bytes) (position : Nat) :
    Decidable (tier.Matches lines pattern position) :=
  inferInstanceAs (Decidable (_ <+: _))

variable {tier : Tier} {lines pattern : List Bytes} {position first last : Nat} {found : Match}

/-- A pattern that is matched stands inside the lines. -/
theorem Matches.within (hmatch : tier.Matches lines pattern position) (hpattern : pattern ≠ []) :
    position + pattern.length ≤ lines.length := by
  have hlength := hmatch.length_le
  have hpos := List.length_pos_of_ne_nil hpattern
  rw [List.length_map, List.length_map, List.length_drop] at hlength
  omega

theorem matches_equal_iff :
    equal.Matches lines pattern position ↔ pattern <+: lines.drop position := by
  rw [Matches, view, List.map_id, List.map_id]

theorem find?_spec (hfound : tier.find? lines pattern first last = some found) :
    found.tier = tier ∧ first ≤ found.index ∧ found.index ≤ last ∧
      tier.Matches lines pattern found.index ∧
      ∀ earlier, first ≤ earlier → earlier < found.index →
        ¬ tier.Matches lines pattern earlier := by
  obtain ⟨index, hindex, rfl⟩ := Option.map_eq_some_iff.mp hfound
  obtain ⟨offset, hoffset, rfl, hmatch, hfirst⟩ := firstOccurrence_spec hindex
  rw [← List.map_drop, List.drop_drop] at hmatch
  have hlast : first + offset ≤ last := by omega
  refine ⟨rfl, Nat.le_add_right first offset, hlast, hmatch, fun earlier hle hlt => ?_⟩
  change earlier < first + offset at hlt
  have hskipped := hfirst (earlier - first) (by omega)
  rw [← List.map_drop, List.drop_drop, Nat.add_sub_cancel' hle] at hskipped
  exact hskipped

theorem not_matches_of_find? (hnone : tier.find? lines pattern first last = none)
    (hfirst : first ≤ position) (hlast : position ≤ last) :
    ¬ tier.Matches lines pattern position := by
  have hoffset : position - first < last + 1 - first := by omega
  have hmissed := not_prefix_of_firstOccurrence (Option.map_eq_none_iff.mp hnone) hoffset
  rw [← List.map_drop, List.drop_drop, Nat.add_sub_cancel' hfirst] at hmissed
  exact hmissed

theorem mem_all (tier : Tier) : tier ∈ all := by
  cases tier <;> decide

end Tier

/-! ## The search over all tiers -/

section Seek

variable {lines pattern : List Bytes} {start position : Nat} {found : Match}

@[simp]
theorem seek_nil (lines : List Bytes) (start : Nat) (atEnd : Bool) :
    seek lines [] start atEnd = some ⟨start, .equal⟩ :=
  if_pos rfl

/-- A search that is not bound to the end finds a match at or behind its start. -/
theorem seek_spec (hfound : seek lines pattern start false = some found) :
    start ≤ found.index ∧ found.tier.Matches lines pattern found.index := by
  rw [seek] at hfound
  split at hfound
  · rename_i hempty
    obtain rfl := Option.some.inj hfound
    subst hempty
    exact ⟨le_rfl, List.nil_prefix⟩
  · split at hfound
    · cases hfound
    · obtain ⟨tier, -, htier⟩ := List.exists_of_findSome?_eq_some hfound
      obtain ⟨rfl, hstart, -, hmatch, -⟩ := Tier.find?_spec htier
      exact ⟨hstart, hmatch⟩

/-- A search that is bound to the end finds the pattern in the last lines, wherever it starts. -/
theorem seek_atEnd_spec (hpattern : pattern ≠ [])
    (hfound : seek lines pattern start true = some found) :
    found.index + pattern.length = lines.length ∧
      found.tier.Matches lines pattern found.index := by
  rw [seek, if_neg hpattern] at hfound
  split at hfound
  · cases hfound
  · obtain ⟨tier, -, htier⟩ := List.exists_of_findSome?_eq_some hfound
    obtain ⟨rfl, hfirst, hlast, hmatch, -⟩ := Tier.find?_spec htier
    rw [if_pos rfl] at hfirst
    have hindex := Nat.le_antisymm hlast hfirst
    refine ⟨?_, hmatch⟩
    omega

/-- Where a search finds nothing, nothing matches under any tier. -/
theorem not_matches_of_seek (hnone : seek lines pattern start false = none)
    (hstart : start ≤ position) (tier : Tier) : ¬ tier.Matches lines pattern position := by
  intro hmatch
  rw [seek] at hnone
  split at hnone
  · cases hnone
  · rename_i hpattern
    have hwithin := hmatch.within hpattern
    rw [if_neg (by omega), List.findSome?_eq_none_iff] at hnone
    exact Tier.not_matches_of_find? (hnone tier tier.mem_all) hstart (by omega) hmatch

/-- Where a search that is bound to the end finds nothing, the last lines do not match under any
tier. -/
theorem not_matches_of_seek_atEnd (hnone : seek lines pattern start true = none) (tier : Tier) :
    ¬ tier.Matches lines pattern (lines.length - pattern.length) := by
  intro hmatch
  rw [seek] at hnone
  split at hnone
  · cases hnone
  · rename_i hpattern
    have hwithin := hmatch.within hpattern
    rw [if_neg (by omega), List.findSome?_eq_none_iff] at hnone
    exact Tier.not_matches_of_find? (hnone tier tier.mem_all) le_rfl le_rfl hmatch

/-- The first verbatim occurrence wins over every looser match. -/
theorem seek_of_first (hpattern : pattern ≠ []) (hstart : start ≤ position)
    (hopens : pattern <+: lines.drop position)
    (hfirst : ∀ earlier, start ≤ earlier → earlier < position →
      ¬ pattern <+: lines.drop earlier) :
    seek lines pattern start false = some ⟨position, .equal⟩ := by
  have hmatch := Tier.matches_equal_iff.mpr hopens
  have hwithin := hmatch.within hpattern
  cases hfind : Tier.equal.find? lines pattern start (lines.length - pattern.length) with
  | none => exact absurd hmatch (Tier.not_matches_of_find? hfind hstart (by omega))
  | some found =>
    obtain ⟨htier, hle, -, hfound, hbefore⟩ := Tier.find?_spec hfind
    have hnot_lt : ¬ found.index < position := fun hlt =>
      hfirst _ hle hlt (Tier.matches_equal_iff.mp hfound)
    have hnot_gt : ¬ position < found.index := fun hgt => hbefore _ hstart hgt hmatch
    have hindex : found.index = position := by omega
    rw [seek, if_neg hpattern, if_neg (by omega)]
    simp only [Bool.false_eq_true, if_false]
    rw [Tier.all, List.findSome?_cons, hfind, ← htier, ← hindex]

end Seek

end Patchwork
