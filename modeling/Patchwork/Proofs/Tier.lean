import Patchwork.Proofs.Apply.Searches
import Patchwork.Proofs.NormalForm
import Patchwork.Proofs.Search

/-!
# What a search finds under the tiers

Lines that match under one tier match under every looser one, so the loosest tier alone decides
whether anything is found.  What is found is told by two minima: the strictest tier under which any
position of the window matches, and the first such position under it.  Main statements:
`tiers_nested` and `seek_exact`.
-/

namespace Patchwork

open Bytes (trim trimEnd)

namespace Tier

/-! ## Nested tiers -/

variable {tier looser : Tier} {left right : Bytes}

theorem trim_eq_of_trimEnd_eq (htrimEnd : trimEnd left = trimEnd right) :
    trim left = trim right := by
  rw [← Bytes.trim_trimEnd left, htrimEnd, Bytes.trim_trimEnd]

theorem normalizeLine_eq_of_trim_eq (htrim : trim left = trim right) :
    normalizeLine left = normalizeLine right := by
  rw [← normalizeLine_trim left, htrim, normalizeLine_trim]

/-- What looks the same to a tier looks the same to every looser one. -/
theorem view_eq_of_rank_le (hrank : tier.rank ≤ looser.rank)
    (hview : tier.view left = tier.view right) : looser.view left = looser.view right := by
  have hequal : left = right → trimEnd left = trimEnd right := congrArg trimEnd
  cases tier <;> cases looser
  case equal.equal | trimmedEnd.trimmedEnd | trimmed.trimmed | normalized.normalized => exact hview
  case equal.trimmedEnd => exact hequal hview
  case equal.trimmed => exact trim_eq_of_trimEnd_eq (hequal hview)
  case equal.normalized =>
    exact normalizeLine_eq_of_trim_eq (trim_eq_of_trimEnd_eq (hequal hview))
  case trimmedEnd.trimmed => exact trim_eq_of_trimEnd_eq hview
  case trimmedEnd.normalized => exact normalizeLine_eq_of_trim_eq (trim_eq_of_trimEnd_eq hview)
  case trimmed.normalized => exact normalizeLine_eq_of_trim_eq hview
  all_goals exact absurd hrank (by decide)

theorem rank_injective : Function.Injective rank := by
  intro left right hrank
  cases left <;> cases right <;> first | rfl | cases hrank

theorem rank_le_normalized (tier : Tier) : tier.rank ≤ normalized.rank := by
  cases tier <;> decide

variable {lines pattern : List Bytes} {position : Nat}

theorem Matches.of_rank_le (hmatch : tier.Matches lines pattern position)
    (hrank : tier.rank ≤ looser.rank) : looser.Matches lines pattern position := by
  rw [Matches] at hmatch ⊢
  generalize lines.drop position = rest at hmatch ⊢
  induction pattern generalizing rest with
  | nil => exact List.nil_prefix
  | cons line pattern ih =>
    cases rest with
    | nil => exact absurd hmatch.length_le (by simp)
    | cons first rest =>
      simp only [List.map_cons, List.cons_prefix_cons] at hmatch ⊢
      exact ⟨view_eq_of_rank_le hrank hmatch.1, ih rest hmatch.2⟩

/-- In the order of all tiers the stricter ones come first. -/
theorem mem_of_rank_lt {earlier later : List Tier} (hsplit : all = earlier ++ looser :: later)
    (hrank : tier.rank < looser.rank) : tier ∈ earlier := by
  have hsorted : all.Pairwise fun first second => first.rank < second.rank := by decide
  have hmem := tier.mem_all
  rw [hsplit] at hsorted hmem
  rcases List.mem_append.mp hmem with hearlier | hbehind
  · exact hearlier
  · rcases List.mem_cons.mp hbehind with rfl | hlater
    · exact absurd hrank (lt_irrefl _)
    · have hbelow := List.rel_of_pairwise_cons (List.pairwise_append.mp hsorted).2.1 hlater
      omega

end Tier

/-- The tiers are nested, and what the loosest one sees of a line is a normal form: it is seen of
itself, and of what trimming leaves of the line. -/
theorem tiers_nested (left right line : Bytes) :
    (left = right → trimEnd left = trimEnd right) ∧
    (trimEnd left = trimEnd right → trim left = trim right) ∧
    (trim left = trim right → normalizeLine left = normalizeLine right) ∧
    normalizeLine (normalizeLine line) = normalizeLine line ∧
    normalizeLine (trim line) = normalizeLine line :=
  ⟨congrArg trimEnd, Tier.trim_eq_of_trimEnd_eq, Tier.normalizeLine_eq_of_trim_eq,
    normalizeLine_normalizeLine line, normalizeLine_trim line⟩

/-! ## Searches -/

/-- The positions that a search looks at: from its start, or from the last position of all if it is
bound to the end, up to that last position, behind which the pattern is too long for the lines. -/
structure InWindow (lines pattern : List Bytes) (start : Nat) (atEnd : Bool) (position : Nat) :
    Prop where
  fits : position + pattern.length ≤ lines.length
  first_le : (if atEnd then lines.length - pattern.length else start) ≤ position

/-- No other position of the window matches as strictly and comes before, and none matches more
strictly. -/
structure Match.IsBest (lines pattern : List Bytes) (start : Nat) (atEnd : Bool) (found : Match) :
    Prop where
  inWindow : InWindow lines pattern start atEnd found.index
  matches_tier : found.tier.Matches lines pattern found.index
  rank_le : ∀ (tier : Tier) (position : Nat), InWindow lines pattern start atEnd position →
    tier.Matches lines pattern position → found.tier.rank ≤ tier.rank
  index_le : ∀ position, InWindow lines pattern start atEnd position →
    found.tier.Matches lines pattern position → found.index ≤ position

section Seek

variable {lines pattern : List Bytes} {start position : Nat} {atEnd : Bool} {found other : Match}

theorem Match.IsBest.unique (hfound : found.IsBest lines pattern start atEnd)
    (hother : other.IsBest lines pattern start atEnd) : found = other := by
  have htier : found.tier = other.tier := Tier.rank_injective <| Nat.le_antisymm
    (hfound.rank_le _ _ hother.inWindow hother.matches_tier)
    (hother.rank_le _ _ hfound.inWindow hfound.matches_tier)
  have hindex : found.index = other.index := Nat.le_antisymm
    (hfound.index_le _ hother.inWindow (htier ▸ hother.matches_tier))
    (hother.index_le _ hfound.inWindow (htier ▸ hfound.matches_tier))
  cases found
  cases other
  exact congrArg₂ Match.mk hindex htier

/-- A search tries the tiers one after another on the whole window. -/
theorem seek_eq_findSome? (hpattern : pattern ≠ []) (hlength : pattern.length ≤ lines.length) :
    seek lines pattern start atEnd = Tier.all.findSome? fun tier =>
      tier.find? lines pattern (if atEnd then lines.length - pattern.length else start)
        (lines.length - pattern.length) := by
  rw [seek, if_neg hpattern, if_neg (by omega)]

theorem length_le_of_seek (hpattern : pattern ≠ [])
    (hfound : seek lines pattern start atEnd = some found) : pattern.length ≤ lines.length := by
  rw [seek, if_neg hpattern] at hfound
  split at hfound
  · cases hfound
  · omega

theorem isBest_of_seek (hpattern : pattern ≠ [])
    (hfound : seek lines pattern start atEnd = some found) :
    found.IsBest lines pattern start atEnd := by
  have hlength := length_le_of_seek hpattern hfound
  rw [seek_eq_findSome? hpattern hlength, List.findSome?_eq_some_iff] at hfound
  obtain ⟨earlier, tier, later, hsplit, htier, hearlier⟩ := hfound
  obtain ⟨rfl, hfirst, hlast, hmatch, hbefore⟩ := Tier.find?_spec htier
  refine ⟨⟨by omega, hfirst⟩, hmatch, fun tier position hwindow hother => ?_,
    fun position hwindow hother => ?_⟩
  · by_contra hrank
    have hnone := hearlier tier (Tier.mem_of_rank_lt hsplit (not_le.mp hrank))
    have hfits := hwindow.fits
    exact Tier.not_matches_of_find? hnone hwindow.first_le (by omega) hother
  · exact not_lt.mp fun hlt => hbefore position hwindow.first_le hlt hother

theorem not_matches_of_seek_eq_none (hpattern : pattern ≠ [])
    (hnone : seek lines pattern start atEnd = none)
    (hwindow : InWindow lines pattern start atEnd position) (tier : Tier) :
    ¬ tier.Matches lines pattern position := by
  have hfits := hwindow.fits
  rw [seek_eq_findSome? hpattern (by omega), List.findSome?_eq_none_iff] at hnone
  exact Tier.not_matches_of_find? (hnone tier tier.mem_all) hwindow.first_le (by omega)

theorem note?_eq (found : Match) :
    found.note? = if 1 < found.tier.rank then
      some (text "seekSequence: matched at line " ++ decimal (found.index + 1) ++
        text " using fuzzy tier " ++ decimal found.tier.rank)
    else none := by
  rw [Match.note?]
  cases found.tier <;> rfl

/-- A search finds exactly the best match of its window, and none exactly if no position of the
window matches under the loosest tier.  What it finds lies inside the lines, and it is logged, with
its line and its tier, exactly if it is no equality. -/
theorem seek_exact (lines pattern : List Bytes) (start : Nat) (atEnd : Bool)
    (hpattern : pattern ≠ []) :
    (∀ found, seek lines pattern start atEnd = some found ↔
      found.IsBest lines pattern start atEnd) ∧
    (seek lines pattern start atEnd = none ↔ ∀ position,
      InWindow lines pattern start atEnd position →
        ¬ Tier.normalized.Matches lines pattern position) ∧
    (∀ found, seek lines pattern start atEnd = some found →
      found.index + pattern.length ≤ lines.length) ∧
    ∀ before : Workspace, (Step.seek lines pattern start atEnd).run before =
      match seek lines pattern start atEnd with
      | none => (.ok none, before)
      | some found =>
        (.ok (some found.index), if 1 < found.tier.rank then
          before.log .debug (text "seekSequence: matched at line " ++ decimal (found.index + 1) ++
            text " using fuzzy tier " ++ decimal found.tier.rank)
        else before) := by
  refine ⟨fun found => ⟨isBest_of_seek hpattern, fun hbest => ?_⟩,
    ⟨fun hnone position hwindow => ?_, fun hmissed => ?_⟩, fun found hfound => ?_,
    fun before => ?_⟩
  · cases hseek : seek lines pattern start atEnd with
    | none =>
      exact absurd hbest.matches_tier
        (not_matches_of_seek_eq_none hpattern hseek hbest.inWindow found.tier)
    | some other => rw [hbest.unique (isBest_of_seek hpattern hseek)]
  · exact not_matches_of_seek_eq_none hpattern hnone hwindow .normalized
  · cases hseek : seek lines pattern start atEnd with
    | none => rfl
    | some found =>
      have hbest := isBest_of_seek hpattern hseek
      exact absurd (hbest.matches_tier.of_rank_le found.tier.rank_le_normalized)
        (hmissed found.index hbest.inWindow)
  · exact (isBest_of_seek hpattern hfound).inWindow.fits
  · rw [Step.run_seek]
    cases hseek : seek lines pattern start atEnd with
    | none => rfl
    | some found =>
      simp only [Option.toList_some, List.filterMap_cons, note?_eq]
      split_ifs <;> rfl

end Seek

/-- A greeting in typographic quotes, and one in plain quotes with a blank behind it. -/
def greetings : List Bytes :=
  [text "say “hello”", text "say \"hello\" "]

/-- The first line matches under the loosest tier only, so the second one is found. -/
theorem seek_exact_greetings :
    [text "say \"hello\""] ≠ [] ∧
      Tier.normalized.Matches greetings [text "say \"hello\""] 0 ∧
      seek greetings [text "say \"hello\""] 0 false = some ⟨1, .trimmedEnd⟩ ∧
      Match.IsBest greetings [text "say \"hello\""] 0 false ⟨1, .trimmedEnd⟩ ∧
      ∀ before : Workspace, (Step.seek greetings [text "say \"hello\""] 0 false).run before =
        (.ok (some 1),
          before.log .debug (text "seekSequence: matched at line 2 using fuzzy tier 2")) := by
  have hne : [text "say \"hello\""] ≠ [] := List.cons_ne_nil _ _
  have hloose : Tier.normalized.Matches greetings [text "say \"hello\""] 0 := by
    rw [Tier.Matches, ← List.isPrefixOf_iff_prefix]
    decide +kernel
  have hseek : seek greetings [text "say \"hello\""] 0 false = some ⟨1, .trimmedEnd⟩ := by
    decide +kernel
  have hmessage : text "seekSequence: matched at line " ++ decimal (1 + 1) ++
      text " using fuzzy tier " ++ decimal Tier.trimmedEnd.rank =
        text "seekSequence: matched at line 2 using fuzzy tier 2" := by
    decide +kernel
  obtain ⟨hbest, -, -, hrun⟩ := seek_exact greetings [text "say \"hello\""] 0 false hne
  refine ⟨hne, hloose, hseek, (hbest _).mp hseek, fun before => ?_⟩
  rw [hrun, hseek, ← hmessage]
  rfl

end Patchwork
