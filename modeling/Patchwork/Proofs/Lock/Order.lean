import Patchwork.Lock
import Patchwork.Proofs.Table

/-!
# The order in which paths are locked

Whatever was requested, paths are locked in increasing order of their bytes: every requested path
once, and the empty path never.  They are locked one after another, up to the first one that cannot
be; in front of that one, the locks are given up again in reverse order.
-/

namespace Patchwork

namespace Lock

variable {path other : Bytes} {paths : List Bytes}

/-- Paths as the keys of a table that holds nothing under them. -/
def entries (paths : List Bytes) : Table Unit :=
  paths.map fun path => (path, ())

theorem keys_entries (paths : List Bytes) : Table.keys (entries paths) = paths := by
  rw [Table.keys, entries, List.map_map]
  exact List.map_id paths

theorem insertPath_eq_keys (path : Bytes) (paths : List Bytes) :
    insertPath path paths = Table.keys (Table.insert path () (entries paths)) := by
  induction paths with
  | nil => rfl
  | cons other rest ih =>
    change insertPath path (other :: rest) =
      Table.keys (Table.insert path () ((other, ()) :: entries rest))
    rw [insertPath, Table.insert]
    split
    · exact congrArg (path :: other :: ·) (keys_entries rest).symm
    · split
      · rename_i heq
        rw [heq]
        exact congrArg (other :: ·) (keys_entries rest).symm
      · exact congrArg (other :: ·) ih

theorem mem_insertPath : other ∈ insertPath path paths ↔ other = path ∨ other ∈ paths := by
  rw [insertPath_eq_keys, Table.mem_keys_insert, keys_entries]

theorem pairwise_insertPath (hpaths : paths.Pairwise (· < ·)) :
    (insertPath path paths).Pairwise (· < ·) := by
  have hentries : Table.Increasing (entries paths) := by
    rwa [Table.Increasing, keys_entries]
  rw [insertPath_eq_keys]
  exact hentries.insert path ()

/-- Paths are locked in increasing order, so none is locked twice. -/
theorem pairwise_order (requested : List Bytes) : (order requested).Pairwise (· < ·) := by
  rw [order]
  induction requested.filter (· ≠ []) with
  | nil => exact .nil
  | cons path paths ih => exact pairwise_insertPath ih

/-- The paths that are locked are the requested ones, but for the empty path. -/
theorem mem_order {requested : List Bytes} :
    path ∈ order requested ↔ path ≠ [] ∧ path ∈ requested := by
  have hfold : ∀ paths : List Bytes, path ∈ paths.foldr insertPath [] ↔ path ∈ paths := by
    intro paths
    induction paths with
    | nil => rfl
    | cons first paths ih => rw [List.foldr_cons, mem_insertPath, ih, List.mem_cons]
  rw [order, hfold, List.mem_filter, decide_eq_true_iff, and_comm]

/-! ## Locking in order -/

variable {failing : Option Bytes}

theorem acquire_of_notMem (hfree : ∀ path ∈ paths, failing ≠ some path) (held : List Bytes) :
    acquire failing held paths = (paths.map .lock, .ok (held ++ paths)) := by
  induction paths generalizing held with
  | nil => rw [acquire, List.append_nil, List.map_nil]
  | cons path paths ih =>
    rw [List.forall_mem_cons] at hfree
    rw [acquire, if_neg hfree.1, ih hfree.2, List.append_assoc, List.singleton_append, List.map_cons]

theorem acquire_of_failing {taken : List Bytes} (htaken : path ∉ taken) (held rest : List Bytes) :
    acquire (some path) held (taken ++ path :: rest) =
      (taken.map .lock ++ release (held ++ taken), .error path) := by
  induction taken generalizing held with
  | nil => rw [List.nil_append, acquire, if_pos rfl, List.append_nil, List.map_nil, List.nil_append]
  | cons first taken ih =>
    rw [List.mem_cons, not_or] at htaken
    have hfirst : ¬ some path = some first := fun heq => htaken.1 (Option.some.inj heq)
    rw [List.cons_append, acquire, if_neg hfirst, ih htaken.2, List.append_assoc,
      List.singleton_append, List.map_cons, List.cons_append]

end Lock

end Patchwork
