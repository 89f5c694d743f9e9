import Patchwork.Patch.Printer
import Patchwork.Proofs.Lines
import Patchwork.Proofs.Trim

/-!
# What follows a marker

What a trimmed line has behind a marker that ends in a space is never empty and does not end in
a blank; and any such string behind the marker is found again.
-/

namespace Patchwork

open Bytes (trim newline isBlank EndsLine)

namespace Marker

theorem after?_eq_some_iff {marker line rest : Bytes} :
    after? marker line = some rest ↔ line = marker ++ rest := by
  rw [after?]
  constructor
  · intro hafter
    split at hafter
    · rename_i hmarker
      obtain ⟨behind, rfl⟩ := List.isPrefixOf_iff_prefix.mp hmarker
      rw [List.drop_left, Option.some.injEq] at hafter
      rw [hafter]
    · cases hafter
  · rintro rfl
    rw [if_pos (List.isPrefixOf_iff_prefix.mpr (List.prefix_append marker rest)),
      List.drop_left]

/-- Markers that something follows begin with a visible byte and end in a space. -/
structure Opens (marker : Bytes) : Prop where
  first : ¬ marker.head?.any isBlank
  last : marker.getLast? = some Bytes.space

theorem opens_addFile : Opens addFile := ⟨by decide, by decide⟩
theorem opens_deleteFile : Opens deleteFile := ⟨by decide, by decide⟩
theorem opens_updateFile : Opens updateFile := ⟨by decide, by decide⟩
theorem opens_moveTo : Opens moveTo := ⟨by decide, by decide⟩
theorem opens_anchoredChunk : Opens anchoredChunk := ⟨by decide, by decide⟩

variable {marker line rest : Bytes}

theorem Opens.ne_nil (hmarker : Opens marker) : marker ≠ [] := by
  rintro rfl
  cases hmarker.last

/-- What stands behind a marker on a trimmed line ends it. -/
theorem Opens.endsLine (hmarker : Opens marker) (hline : newline ∉ line)
    (hafter : after? marker (trim line) = some rest) : rest.EndsLine := by
  have hsplit := after?_eq_some_iff.mp hafter
  have hlast := Bytes.getLast?_trim line
  rw [hsplit] at hlast
  have hne : rest ≠ [] := by
    rintro rfl
    rw [List.append_nil, hmarker.last] at hlast
    exact hlast rfl
  refine ⟨hne, fun hmem => hline (Bytes.mem_of_mem_trim ?_), ?_⟩
  · rw [hsplit]
    exact List.mem_append_right marker hmem
  · rwa [List.getLast?_append_of_ne_nil marker hne] at hlast

theorem Opens.trim_append (hmarker : Opens marker) (hrest : rest.EndsLine) :
    trim (marker ++ rest) = marker ++ rest := by
  apply Bytes.trim_eq_self
  · rw [List.head?_append_of_ne_nil marker hmarker.ne_nil]
    exact hmarker.first
  · rw [List.getLast?_append_of_ne_nil marker hrest.1]
    exact hrest.2.2

/-- What ends the line behind a marker is found again. -/
theorem Opens.after?_trim (hmarker : Opens marker) (hrest : rest.EndsLine) :
    after? marker (trim (marker ++ rest)) = some rest := by
  rw [hmarker.trim_append hrest, after?_eq_some_iff]

end Marker

end Patchwork
