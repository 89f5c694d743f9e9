import Patchwork.Path
import Patchwork.Proofs.Lines
import Patchwork.Proofs.Trim

/-!
# Resolved paths

A path below an absolute root is resolved to one separator before each of its names, which all
stand for themselves; below a root of separators alone, further separators stand before the
first name.  Main statement: `Path.resolved_resolve`.
-/

namespace Patchwork

namespace Path

/-- The names in a path, the outermost first. -/
def names (path : Bytes) : List Bytes :=
  (components path).filter (· ≠ [])

/-- A name that stands for itself. -/
structure Plain (name : Bytes) : Prop where
  ne_nil : name ≠ []
  ne_here : name ≠ here
  ne_above : name ≠ above
  unseparated : separator ∉ name

/-- An absolute spelling of names that stand for themselves: one separator before each of them,
and a run of further ones before the first. -/
structure Resolved (path : Bytes) : Prop where
  absolute : isAbsolute path = true
  plain : ∀ name ∈ names path, Plain name
  spelling : ∃ run, (∀ byte ∈ run, byte = separator) ∧
    path = run ++ (names path).flatMap (separator :: ·)

/-! ## Names and their spelling -/

section Spelling

variable {directories : List Bytes} {name path : Bytes}

/-- Every name stands behind one separator. -/
theorem cons_joinNames (hne : directories ≠ []) :
    separator :: joinNames directories = directories.flatMap (separator :: ·) := by
  induction directories with
  | nil => exact absurd rfl hne
  | cons name directories ih =>
    cases directories with
    | nil => simp [joinNames]
    | cons next directories =>
      rw [joinNames, List.intercalate_cons_cons, List.flatMap_cons, ← ih (List.cons_ne_nil _ _)]
      simp [joinNames]

theorem flatMap_ne_nil (hne : directories ≠ []) : directories.flatMap (separator :: ·) ≠ [] := by
  rw [← cons_joinNames hne]
  exact List.cons_ne_nil _ _

theorem joinNames_components (path : Bytes) : joinNames (components path) = path := by
  rw [joinNames, components, Bytes.splitAt_eq_splitOn, List.intercalate_splitOn]

theorem cons_eq_flatMap_components (path : Bytes) :
    separator :: path = (components path).flatMap (separator :: ·) := by
  have hne : components path ≠ [] := by
    rw [components, Bytes.splitAt_eq_splitOn]
    exact List.splitOn_ne_nil separator path
  rw [← cons_joinNames hne, joinNames_components]

/-- The bytes of a name are bytes of the path. -/
theorem mem_of_mem_names {byte : UInt8} (hname : name ∈ names path) (hbyte : byte ∈ name) :
    byte ∈ path := by
  have hcomponent := List.mem_of_mem_filter hname
  have hmem : byte ∈ separator :: path := by
    rw [cons_eq_flatMap_components]
    exact List.mem_flatMap.mpr ⟨name, hcomponent, List.mem_cons_of_mem _ hbyte⟩
  refine (List.mem_cons.mp hmem).resolve_left fun heq => ?_
  exact Bytes.notMem_of_mem_splitAt hcomponent (heq ▸ hbyte)

/-- Separators before a path add no names. -/
theorem names_run_append {run : Bytes} (hrun : ∀ byte ∈ run, byte = separator) (path : Bytes) :
    names (run ++ path) = names path := by
  induction run with
  | nil => rfl
  | cons byte run ih =>
    rw [List.forall_mem_cons] at hrun
    have hsplit := List.splitOn_append_cons_self_of_not_mem (List.not_mem_nil (a := separator))
      (run ++ path)
    rw [List.nil_append] at hsplit
    rw [List.cons_append, hrun.1, names, components, Bytes.splitAt_eq_splitOn, hsplit,
      ← Bytes.splitAt_eq_splitOn, List.filter_cons_of_neg (by simp), ← ih hrun.2]
    rfl

theorem names_cons_joinNames (hplain : ∀ name ∈ directories, Plain name) :
    names (separator :: joinNames directories) = directories := by
  by_cases hne : directories = []
  · subst hne
    rfl
  · rw [← List.singleton_append, names_run_append (by simp), names, components,
      Bytes.splitAt_eq_splitOn, joinNames,
      List.splitOn_intercalate separator (fun name hname => (hplain name hname).unseparated) hne,
      List.filter_eq_self]
    exact fun name hname => by simpa using (hplain name hname).ne_nil

theorem names_flatMap (hplain : ∀ name ∈ directories, Plain name) :
    names (directories.flatMap (separator :: ·)) = directories := by
  by_cases hne : directories = []
  · subst hne
    rfl
  · rw [← cons_joinNames hne, names_cons_joinNames hplain]

/-- Names that stand for themselves, spelled with a run of separators before them. -/
theorem resolved_run_append {run : Bytes} (hrun : ∀ byte ∈ run, byte = separator)
    (hplain : ∀ name ∈ directories, Plain name)
    (hne : run ++ directories.flatMap (separator :: ·) ≠ []) :
    Resolved (run ++ directories.flatMap (separator :: ·)) ∧
      names (run ++ directories.flatMap (separator :: ·)) = directories := by
  have hnames : names (run ++ directories.flatMap (separator :: ·)) = directories := by
    rw [names_run_append hrun, names_flatMap hplain]
  refine ⟨⟨?_, by rwa [hnames], run, hrun, by rw [hnames]⟩, hnames⟩
  cases run with
  | cons byte run =>
    rw [isAbsolute, List.cons_append, List.head?_cons, hrun byte List.mem_cons_self]
    rfl
  | nil =>
    cases directories with
    | nil => exact absurd rfl hne
    | cons name directories => rfl

theorem resolved_cons_joinNames (hplain : ∀ name ∈ directories, Plain name) :
    Resolved (separator :: joinNames directories) := by
  by_cases hne : directories = []
  · subst hne
    have hseparator : ∀ byte ∈ [separator], byte = separator :=
      fun byte hbyte => List.mem_singleton.mp hbyte
    exact (resolved_run_append hseparator hplain (List.cons_ne_nil _ _)).1
  · rw [cons_joinNames hne]
    exact (resolved_run_append (List.forall_mem_nil _) hplain (flatMap_ne_nil hne)).1

theorem mem_cons_joinNames {byte : UInt8} (hbyte : byte ∈ separator :: joinNames directories) :
    byte = separator ∨ ∃ name ∈ directories, byte ∈ name := by
  by_cases hne : directories = []
  · subst hne
    exact .inl (List.mem_singleton.mp hbyte)
  · rw [cons_joinNames hne] at hbyte
    obtain ⟨name, hname, hbyte⟩ := List.mem_flatMap.mp hbyte
    exact (List.mem_cons.mp hbyte).imp_right fun hbyte => ⟨name, hname, hbyte⟩

end Spelling

/-! ## The stack of names -/

section Stack

variable {directories : List Bytes} {name path : Bytes}

theorem foldl_push_plain (hplain : ∀ name ∈ directories, Plain name) (stack : List Bytes) :
    directories.foldl (push true) stack = directories.reverse ++ stack := by
  induction directories generalizing stack with
  | nil => rfl
  | cons name directories ih =>
    rw [List.forall_mem_cons] at hplain
    rw [List.foldl_cons, push.eq_def, if_neg (not_or.mpr ⟨hplain.1.ne_nil, hplain.1.ne_here⟩),
      if_neg hplain.1.ne_above, ih hplain.2, List.reverse_cons, List.append_assoc]
    rfl

/-- Empty components lead nowhere. -/
theorem stack_eq_foldl_names (path : Bytes) :
    stack path = (names path).foldl (push (isAbsolute path)) [] := by
  rw [stack, names]
  generalize ([] : List Bytes) = start
  induction components path generalizing start with
  | nil => rfl
  | cons name rest ih =>
    rw [List.foldl_cons, ih]
    by_cases hname : name = []
    · rw [List.filter_cons_of_neg (by simpa using hname), push.eq_def, if_pos (.inl hname)]
    · rw [List.filter_cons_of_pos (by simpa using hname), List.foldl_cons]

theorem Resolved.stack_eq (hresolved : Resolved path) : stack path = (names path).reverse := by
  rw [stack_eq_foldl_names, hresolved.absolute, foldl_push_plain hresolved.plain, List.append_nil]

theorem push_keeps_plain {stack : List Bytes} (hstack : ∀ other ∈ stack, Plain other)
    (hname : separator ∉ name) : ∀ other ∈ push true stack name, Plain other := by
  rw [push.eq_def]
  split
  · exact hstack
  · rename_i hvisible
    rw [not_or] at hvisible
    split
    · cases stack with
      | nil => exact List.forall_mem_nil _
      | cons top below =>
        rw [List.forall_mem_cons] at hstack
        simp only []
        rw [if_neg hstack.1.ne_above]
        exact hstack.2
    · rename_i habove
      exact List.forall_mem_cons.mpr ⟨⟨hvisible.1, hvisible.2, habove, hname⟩, hstack⟩

/-- An absolute path leads to names that stand for themselves. -/
theorem plain_of_mem_stack (habsolute : isAbsolute path = true) :
    ∀ name ∈ stack path, Plain name := by
  have hfold : ∀ (parts start : List Bytes), (∀ part ∈ parts, separator ∉ part) →
      (∀ name ∈ start, Plain name) → ∀ name ∈ parts.foldl (push true) start, Plain name := by
    intro parts
    induction parts with
    | nil => exact fun _ _ hstart => hstart
    | cons part parts ih =>
      intro start hparts hstart
      rw [List.forall_mem_cons] at hparts
      exact ih _ hparts.2 (push_keeps_plain hstart hparts.1)
  rw [stack, habsolute]
  exact hfold _ _ (fun part hpart => Bytes.notMem_of_mem_splitAt hpart) (List.forall_mem_nil _)

end Stack

/-! ## Separators at the end -/

section Ends

variable {directories : List Bytes} {path root run : Bytes}

theorem isTop_iff : isTop path = true ↔ path ≠ [] ∧ ∀ byte ∈ path, byte = separator := by
  simp [isTop]

theorem resolved_of_isTop (htop : isTop path = true) : Resolved path ∧ names path = [] := by
  obtain ⟨hne, hall⟩ := isTop_iff.mp htop
  have hspelling : path ++ [].flatMap (separator :: ·) = path := by
    rw [List.flatMap_nil, List.append_nil]
  have hresolved := resolved_run_append hall (List.forall_mem_nil _) (by rwa [hspelling])
  rwa [hspelling] at hresolved

theorem stack_of_isTop (htop : isTop path = true) : stack path = [] := by
  obtain ⟨hresolved, hnames⟩ := resolved_of_isTop htop
  rw [hresolved.stack_eq, hnames, List.reverse_nil]

theorem exists_run_of_isTop (htop : isTop path = true) : ∃ run, path = run ++ [separator] := by
  obtain ⟨hne, hall⟩ := isTop_iff.mp htop
  obtain ⟨run, last, rfl⟩ := (List.eq_nil_or_concat path).resolve_left hne
  rw [List.concat_eq_append] at hall ⊢
  rw [hall last (List.mem_append_right _ List.mem_cons_self)]
  exact ⟨run, rfl⟩

/-- Names that stand for themselves do not end in a separator. -/
theorem getLast?_flatMap_ne (run : Bytes) (hplain : ∀ name ∈ directories, Plain name)
    (hne : directories ≠ []) :
    (run ++ directories.flatMap (separator :: ·)).getLast? ≠ some separator := by
  obtain ⟨init, last, rfl⟩ := (List.eq_nil_or_concat directories).resolve_left hne
  rw [List.concat_eq_append] at hplain ⊢
  have hlast := hplain last (List.mem_append_right _ List.mem_cons_self)
  rw [List.flatMap_append, List.flatMap_singleton, ← List.append_assoc,
    List.getLast?_append_of_ne_nil _ (List.cons_ne_nil _ _),
    List.getLast?_cons_of_ne_nil hlast.ne_nil]
  exact fun hseparator => hlast.unseparated (List.mem_of_getLast? hseparator)

/-- Only separators behind the last name are taken from a path. -/
theorem dropEndSeparators_flatMap {ending : Bytes} (hplain : ∀ name ∈ directories, Plain name)
    (hne : directories ≠ []) (hending : ∀ byte ∈ ending, byte = separator) :
    dropEndSeparators (run ++ directories.flatMap (separator :: ·) ++ ending) =
      run ++ directories.flatMap (separator :: ·) := by
  have hlast := getLast?_flatMap_ne run hplain hne
  have hnonempty := List.append_ne_nil_of_right_ne_nil run (flatMap_ne_nil hne)
  generalize run ++ directories.flatMap (separator :: ·) = kept at hlast hnonempty ⊢
  have hnot : ¬ isTop (kept ++ ending) = true := by
    intro htop
    have hfinal := List.getLast?_eq_some_getLast hnonempty
    have hseparator := (isTop_iff.mp htop).2 _
      (List.mem_append_left _ (List.getLast_mem hnonempty))
    exact hlast (hseparator ▸ hfinal)
  rw [dropEndSeparators, if_neg hnot]
  refine Bytes.dropEndWhile_append ?_ fun byte hbyte => beq_iff_eq.mpr (hending byte hbyte)
  rw [Option.any_eq_true]
  rintro ⟨final, hfinal, hseparator⟩
  exact hlast (beq_iff_eq.mp hseparator ▸ hfinal)

/-- A resolved path that ends in a separator has no names. -/
theorem Resolved.names_eq_nil (hpath : Resolved path)
    (hslash : path.getLast? = some separator) : names path = [] := by
  obtain ⟨run, -, hspelling⟩ := hpath.spelling
  by_contra hne
  rw [hspelling] at hslash
  exact getLast?_flatMap_ne run hpath.plain hne hslash

theorem parent_of_isTop (htop : isTop path = true) : parent path = path := by
  have hlast : ¬ path.getLast?.any (· != separator) := by
    rw [Option.any_eq_true]
    rintro ⟨final, hfinal, hother⟩
    exact bne_iff_ne.mp hother ((isTop_iff.mp htop).2 final (List.mem_of_getLast? hfinal))
  rw [parent, Bytes.dropEndWhile_eq_self hlast, dropEndSeparators, if_pos htop]

/-- The directory that holds the last name has all names but that one. -/
theorem Resolved.parent (hresolved : Resolved path) :
    Resolved (parent path) ∧ names (parent path) = (names path).dropLast := by
  obtain ⟨run, hrun, hspelling⟩ := hresolved.spelling
  have hplain := hresolved.plain
  rcases List.eq_nil_or_concat (names path) with hnames | ⟨init, last, hnames⟩
  · rw [hnames, List.flatMap_nil, List.append_nil] at hspelling
    have htop : isTop path = true := by
      refine isTop_iff.mpr ⟨?_, hspelling ▸ hrun⟩
      rintro rfl
      exact Bool.false_ne_true hresolved.absolute
    rw [parent_of_isTop htop, hnames]
    exact ⟨hresolved, rfl⟩
  · rw [List.concat_eq_append] at hnames
    rw [hnames, List.forall_mem_append, List.forall_mem_singleton] at hplain
    rw [hnames, List.flatMap_append, List.flatMap_singleton] at hspelling
    have hkept : Bytes.dropEndWhile (· != separator) path =
        run ++ init.flatMap (separator :: ·) ++ [separator] := by
      have hcut : path = (run ++ init.flatMap (separator :: ·) ++ [separator]) ++ last := by
        simpa using hspelling
      rw [hcut]
      refine Bytes.dropEndWhile_append ?_ fun byte hbyte => ?_
      · rw [List.getLast?_concat]
        simp
      · exact bne_iff_ne.mpr fun heq => hplain.2.unseparated (heq ▸ hbyte)
    have hseparator : ∀ byte ∈ [separator], byte = separator :=
      fun byte hbyte => List.mem_singleton.mp hbyte
    rw [Path.parent, hkept, hnames, List.dropLast_concat]
    by_cases hinit : init = []
    · subst hinit
      rw [List.flatMap_nil, List.append_nil]
      have htop : isTop (run ++ [separator]) = true :=
        isTop_iff.mpr ⟨by simp, List.forall_mem_append.mpr ⟨hrun, hseparator⟩⟩
      rw [dropEndSeparators, if_pos htop]
      exact resolved_of_isTop htop
    · rw [dropEndSeparators_flatMap hplain.1 hinit hseparator]
      exact resolved_run_append hrun hplain.1
        (List.append_ne_nil_of_right_ne_nil _ (flatMap_ne_nil hinit))

theorem isAbsolute_append (hroot : isAbsolute root = true) (path : Bytes) :
    isAbsolute (append root path) = true := by
  rw [append]
  split
  · assumption
  · cases root with
    | nil => exact absurd hroot Bool.false_ne_true
    | cons byte rest =>
      split <;> exact hroot

theorem isTop_topFor (root path : Bytes) : isTop (topFor root path) = true := by
  rw [topFor]
  split
  · rename_i hrun
    exact (Bool.and_eq_true_iff.mp hrun).1
  · rfl

/-- Below an absolute root, a path of separators alone is kept, and of any other the stack of names
is written behind the spelling of the top. -/
theorem resolve_eq (hroot : isAbsolute root = true) (path : Bytes) :
    resolve root path =
      (if isTop (append root path) then append root path else topFor root path) ++
        joinNames (stack (append root path)).reverse := by
  have habsolute := isAbsolute_append hroot path
  have htop := isTop_topFor root path
  rw [resolve, normalizeFrom]
  generalize topFor root path = top at htop ⊢
  by_cases hkept : isTop (append root path) = true
  · rw [if_pos (.inr hkept), if_pos hkept, dropEndSeparators, if_pos hkept, stack_of_isTop hkept]
    exact (List.append_nil _).symm
  · have hne : append root path ≠ [] := by
      intro hnil
      rw [hnil] at habsolute
      exact Bool.false_ne_true habsolute
    rw [if_neg (not_or.mpr ⟨hne, hkept⟩), if_neg hkept]
    simp only [habsolute, not_true_eq_false, and_false, if_false, if_true]
    by_cases hnames : stack (append root path) = []
    · simp [hnames, joinNames, dropEndSeparators, htop]
    · obtain ⟨run, rfl⟩ := exists_run_of_isTop htop
      have hplain : ∀ name ∈ (stack (append root path)).reverse, Plain name :=
        fun name hname => plain_of_mem_stack habsolute name (List.mem_reverse.mp hname)
      have hreverse : (stack (append root path)).reverse ≠ [] := by simpa using hnames
      rw [List.append_assoc run, List.singleton_append, cons_joinNames hreverse,
        dropEndSeparators_flatMap hplain hreverse]
      split
      · exact fun byte hbyte => List.mem_singleton.mp hbyte
      · exact List.forall_mem_nil _

/-- A path below an absolute root is resolved to the top directory or to names behind the
spelling of the top, the last separator of which stands before the first name. -/
theorem resolve_spelling (hroot : isAbsolute root = true) (path : Bytes) :
    isTop (resolve root path) = true ∨ ∃ run directories,
      topFor root path = run ++ [separator] ∧ directories ≠ [] ∧
        (∀ name ∈ directories, Plain name) ∧
        resolve root path = run ++ directories.flatMap (separator :: ·) := by
  have htop := isTop_topFor root path
  rw [resolve_eq hroot]
  by_cases hnames : stack (append root path) = []
  · rw [hnames, List.reverse_nil, joinNames, List.intercalate_nil, List.append_nil]
    split
    · exact .inl ‹_›
    · exact .inl htop
  · obtain ⟨run, hrun⟩ := exists_run_of_isTop htop
    have hreverse : (stack (append root path)).reverse ≠ [] := by simpa using hnames
    refine .inr ⟨run, (stack (append root path)).reverse, hrun, hreverse, fun name hname => ?_, ?_⟩
    · exact plain_of_mem_stack (isAbsolute_append hroot path) name (List.mem_reverse.mp hname)
    · rw [if_neg (mt stack_of_isTop hnames), hrun, List.append_assoc, List.singleton_append,
        cons_joinNames hreverse]

/-- A path below an absolute root is resolved. -/
theorem resolved_resolve (hroot : isAbsolute root = true) (path : Bytes) :
    Resolved (resolve root path) := by
  rcases resolve_spelling hroot path with htop | ⟨run, directories, htop, hne, hplain, hspelling⟩
  · exact (resolved_of_isTop htop).1
  · have hall := (isTop_iff.mp (isTop_topFor root path)).2
    rw [htop, List.forall_mem_append] at hall
    rw [hspelling]
    exact (resolved_run_append hall.1 hplain
      (List.append_ne_nil_of_right_ne_nil _ (flatMap_ne_nil hne))).1

/-- Below a root that is no run of several separators, a place other than the top has one
spelling. -/
theorem resolve_eq_of_names {other : Bytes} (hroot : isAbsolute root = true)
    (htop : isTop root = true → root = [separator])
    (hnames : names (resolve root path) = names (resolve root other))
    (hne : names (resolve root path) ≠ []) : resolve root path = resolve root other := by
  have hspelling : ∀ path, names (resolve root path) ≠ [] →
      resolve root path = (names (resolve root path)).flatMap (separator :: ·) := by
    intro path hne
    have hstart : topFor root path = [separator] := by
      rw [topFor]
      split
      · rename_i hrun
        exact htop (Bool.and_eq_true_iff.mp hrun).1
      · rfl
    rcases resolve_spelling hroot path with hrun | ⟨run, directories, hrun, -, hplain, heq⟩
    · exact absurd (resolved_of_isTop hrun).2 hne
    · have hnil : run = [] := by simpa [hrun] using hstart
      rw [hnil, List.nil_append] at heq
      rw [heq, names_flatMap hplain]
  rw [hspelling path hne, hspelling other (hnames ▸ hne), hnames]

end Ends

end Path

end Patchwork
