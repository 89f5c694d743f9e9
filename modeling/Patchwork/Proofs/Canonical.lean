import Patchwork.Proofs.Path

/-!
# Canonical paths

Where a path leads is found by reading its components from the outside in, whatever its spelling.
Below an absolute root it is resolved to the one spelling of that place: a separator before each
name, or a single one for the top directory.  Only a run of several separators is kept, both as a
path of its own and as the root of a relative path, and then stands for the first separator.  Main
statement: `Path.resolve_canonical`.
-/

namespace Patchwork

namespace Path

/-! ## Places -/

/-- Reads one more component behind the names of a place.  An empty one and `.` lead nowhere, `..`
takes back the last name and does nothing at the top, and any other is a name. -/
def visit (place : List Bytes) (component : Bytes) : List Bytes :=
  if component = [] ∨ component = here then place
  else if component = above then place.dropLast
  else place ++ [component]

/-- The names that a path leads to, the outermost first.  A relative path is read behind the root. -/
def place (root path : Bytes) : List Bytes :=
  (if isAbsolute path then components path else components root ++ components path).foldl visit []

/-- The spelling of a place with as few separators as there can be. -/
def canonical (place : List Bytes) : Bytes :=
  separator :: joinNames place

/-- A run of several separators, which names the top directory as one of them does. -/
def IsRun (path : Bytes) : Prop :=
  isTop path = true ∧ path ≠ [separator]

/-- Neither is the path a run of several separators, nor a relative path below a root that is. -/
def Ordinary (root path : Bytes) : Prop :=
  ¬ IsRun path ∧ (IsRun root → isAbsolute path = true)

/-- What stands before the first name of a resolved path. -/
def keptTop (root path : Bytes) : Bytes :=
  if isTop path then path else topFor root path

/-- A path with the run of separators in front of it read as one. -/
def squeezeFront (path : Bytes) : Bytes :=
  if isAbsolute path then separator :: path.dropWhile (· == separator) else path

/-- The path is the one spelling of a place. -/
structure IsCanonical (place : List Bytes) (path : Bytes) : Prop where
  spelling : path = canonical place
  absolute : isAbsolute path = true
  plain : ∀ name ∈ place, Plain name
  /-- Behind the first separator there are no components but the names. -/
  components_eq : place ≠ [] → components path = [] :: place
  unended : path.getLast? = some separator → path = [separator]
  stable : ∀ root, isAbsolute root = true → resolve root path = path

variable {root path : Bytes} {directories : List Bytes}

/-! ## Reading components -/

/-- Empty components lead nowhere. -/
theorem foldl_visit_components (path : Bytes) (start : List Bytes) :
    (components path).foldl visit start = (names path).foldl visit start := by
  rw [names, List.foldl_filter]
  refine congrArg (fun step => (components path).foldl step start) ?_
  funext place component
  by_cases hempty : component = []
  · simp [visit, hempty]
  · simp [hempty]

/-- Names that stand for themselves are all read. -/
theorem foldl_visit_plain (hplain : ∀ name ∈ directories, Plain name) (start : List Bytes) :
    directories.foldl visit start = start ++ directories := by
  induction directories generalizing start with
  | nil => exact (List.append_nil start).symm
  | cons name directories ih =>
    rw [List.forall_mem_cons] at hplain
    rw [List.foldl_cons, visit, if_neg (not_or.mpr ⟨hplain.1.ne_nil, hplain.1.ne_here⟩),
      if_neg hplain.1.ne_above, ih hplain.2, List.append_assoc, List.singleton_append]

theorem reverse_push {stack : List Bytes} (hstack : ∀ name ∈ stack, Plain name)
    (component : Bytes) : (push true stack component).reverse = visit stack.reverse component := by
  rw [push.eq_def, visit]
  split
  · rfl
  · split
    · cases stack with
      | nil => rfl
      | cons top below =>
        rw [List.forall_mem_cons] at hstack
        simp only [if_neg hstack.1.ne_above, List.reverse_cons, List.dropLast_concat]
    · exact List.reverse_cons

/-- A stack of names holds the names of the place, the innermost first. -/
theorem reverse_foldl_push {parts stack : List Bytes} (hparts : ∀ part ∈ parts, separator ∉ part)
    (hstack : ∀ name ∈ stack, Plain name) :
    (parts.foldl (push true) stack).reverse = parts.foldl visit stack.reverse := by
  induction parts generalizing stack with
  | nil => rfl
  | cons part parts ih =>
    rw [List.forall_mem_cons] at hparts
    rw [List.foldl_cons, List.foldl_cons, ← reverse_push hstack,
      ih hparts.2 (push_keeps_plain hstack hparts.1)]

theorem names_append_cons (first second : Bytes) :
    names (first ++ separator :: second) = names first ++ names second := by
  simp only [names, components, Bytes.splitAt_eq_splitOn, List.splitOn_append_cons_self,
    List.filter_append]

/-- A path behind a root has the names of both. -/
theorem names_append (habsolute : ¬ isAbsolute path = true) :
    names (append root path) = names root ++ names path := by
  rw [append, if_neg habsolute]
  split
  · rename_i hend
    rcases hend with rfl | hlast
    · rfl
    · obtain ⟨init, rfl⟩ := List.getLast?_eq_some_iff.mp hlast
      rw [List.append_assoc, List.singleton_append, names_append_cons, names_append_cons]
      exact congrArg (· ++ names path) (List.append_nil (names init)).symm
  · exact names_append_cons root path

theorem place_eq (root path : Bytes) :
    place root path = (names (append root path)).foldl visit [] := by
  rw [place]
  split
  · rw [append, if_pos ‹_›, foldl_visit_components]
  · rw [names_append ‹_›, List.foldl_append, List.foldl_append, foldl_visit_components,
      foldl_visit_components]

theorem reverse_stack_append (hroot : isAbsolute root = true) (path : Bytes) :
    (stack (append root path)).reverse = place root path := by
  rw [stack, isAbsolute_append hroot path, place_eq, ← foldl_visit_components]
  exact reverse_foldl_push (fun _ hpart => Bytes.notMem_of_mem_splitAt hpart)
    (List.forall_mem_nil _)

theorem plain_of_mem_place (hroot : isAbsolute root = true) :
    ∀ name ∈ place root path, Plain name := by
  intro name hname
  rw [← reverse_stack_append hroot, List.mem_reverse] at hname
  exact plain_of_mem_stack (isAbsolute_append hroot path) name hname

/-! ## Spellings of the top -/

theorem isAbsolute_of_isTop (htop : isTop path = true) : isAbsolute path = true :=
  (resolved_of_isTop htop).1.absolute

/-- A relative path behind a root leaves separators alone only if it is empty. -/
theorem eq_nil_of_isTop_append (hroot : isAbsolute root = true)
    (hrelative : ¬ isAbsolute path = true) (htop : isTop (append root path) = true) :
    path = [] ∧ isTop root = true := by
  have hall : ∀ byte ∈ root ++ path, byte = separator := by
    intro byte hbyte
    refine (isTop_iff.mp htop).2 byte ?_
    rw [append, if_neg hrelative]
    split
    · exact hbyte
    · rw [List.mem_append, List.mem_cons]
      exact (List.mem_append.mp hbyte).imp_right .inr
  rw [List.forall_mem_append] at hall
  refine ⟨?_, isTop_iff.mpr ⟨?_, hall.1⟩⟩
  · cases path with
    | nil => rfl
    | cons byte rest =>
      refine absurd ?_ hrelative
      rw [isAbsolute, List.head?_cons, hall.2 byte List.mem_cons_self]
      rfl
  · rintro rfl
    exact Bool.false_ne_true hroot

/-- A path behind a root that leaves separators alone is the root or the path. -/
theorem append_eq_keptTop (hroot : isAbsolute root = true)
    (htop : isTop (append root path) = true) : append root path = keptTop root path := by
  rw [keptTop]
  by_cases habsolute : isAbsolute path = true
  · have hpath : append root path = path := by rw [append, if_pos habsolute]
    rw [hpath] at htop ⊢
    exact (if_pos htop).symm
  · obtain ⟨rfl, hrun⟩ := eq_nil_of_isTop_append hroot habsolute htop
    obtain ⟨run, hroot⟩ := exists_run_of_isTop hrun
    have hslash : root.getLast? = some separator := hroot ▸ List.getLast?_concat
    rw [append, if_neg habsolute, if_pos (.inr hslash), List.append_nil, topFor, hrun]
    rfl

/-- Below an absolute root, the names of its place are written behind what is kept of the top. -/
theorem resolve_eq_keptTop (hroot : isAbsolute root = true) (path : Bytes) :
    resolve root path = keptTop root path ++ joinNames (place root path) := by
  rw [resolve_eq hroot, reverse_stack_append hroot]
  split
  · rw [append_eq_keptTop hroot ‹_›]
  · rename_i hkept
    have hpath : ¬ isTop path = true := by
      intro htop
      rw [append, if_pos (isAbsolute_of_isTop htop)] at hkept
      exact hkept htop
    rw [keptTop, if_neg hpath]

theorem isTop_keptTop (root path : Bytes) : isTop (keptTop root path) = true := by
  rw [keptTop]
  split
  · assumption
  · exact isTop_topFor root path

theorem keptTop_eq_iff : keptTop root path = [separator] ↔ Ordinary root path := by
  rw [keptTop, Ordinary, IsRun, IsRun]
  split
  · rename_i htop
    simp [htop, isAbsolute_of_isTop htop]
  · rename_i hpath
    rw [topFor]
    split
    · rename_i hrun
      rw [Bool.and_eq_true, Bool.not_eq_true'] at hrun
      simp [hpath, hrun.1, hrun.2]
    · rename_i hrun
      rw [Bool.and_eq_true, Bool.not_eq_true', not_and, Bool.not_eq_false] at hrun
      exact iff_of_true rfl ⟨fun htop => hpath htop.1, fun htop => hrun htop.1⟩

/-! ## The canonical spelling -/

theorem place_of_isAbsolute (habsolute : isAbsolute path = true) :
    place root path = (names path).foldl visit [] := by
  rw [place_eq, append, if_pos habsolute]

theorem place_canonical (hplain : ∀ name ∈ directories, Plain name) :
    place root (canonical directories) = directories := by
  rw [place_of_isAbsolute rfl, canonical, names_cons_joinNames hplain, foldl_visit_plain hplain,
    List.nil_append]

theorem components_canonical (hplain : ∀ name ∈ directories, Plain name) (hne : directories ≠ []) :
    components (canonical directories) = [] :: directories := by
  have hsplit := List.splitOn_append_cons_self (a := separator) [] (joinNames directories)
  rw [List.nil_append] at hsplit
  rw [components, Bytes.splitAt_eq_splitOn, canonical, hsplit, joinNames,
    List.splitOn_intercalate separator (fun name hname => (hplain name hname).unseparated) hne]
  rfl

theorem ordinary_canonical (hplain : ∀ name ∈ directories, Plain name) :
    Ordinary root (canonical directories) := by
  refine ⟨?_, fun _ => rfl⟩
  rintro ⟨htop, hne⟩
  have hnames := (resolved_of_isTop htop).2
  rw [canonical, names_cons_joinNames hplain] at hnames
  exact hne (congrArg canonical hnames)

theorem isCanonical_canonical (hplain : ∀ name ∈ directories, Plain name) :
    IsCanonical directories (canonical directories) where
  spelling := rfl
  absolute := rfl
  plain := hplain
  components_eq := components_canonical hplain
  unended hslash := by
    have hnames := (resolved_cons_joinNames hplain).names_eq_nil hslash
    rw [names_cons_joinNames hplain] at hnames
    rw [hnames]
    rfl
  stable root hroot := by
    rw [resolve_eq_keptTop hroot, keptTop_eq_iff.mpr (ordinary_canonical hplain),
      place_canonical hplain]
    rfl

theorem isCanonical_iff (hroot : isAbsolute root = true) :
    IsCanonical (place root path) (resolve root path) ↔ Ordinary root path := by
  rw [← keptTop_eq_iff, resolve_eq_keptTop hroot]
  constructor
  · exact fun hcanonical => List.append_cancel_right hcanonical.spelling
  · intro htop
    rw [htop]
    exact isCanonical_canonical (plain_of_mem_place hroot)

/-- Whatever is kept of the top, a resolved path leads where the path led. -/
theorem place_resolve (hroot : isAbsolute root = true) (other path : Bytes) :
    place other (resolve root path) = place root path := by
  have hplain : ∀ name ∈ place root path, Plain name := plain_of_mem_place hroot
  obtain ⟨run, hrun⟩ := exists_run_of_isTop (isTop_keptTop root path)
  have hall := (isTop_iff.mp (isTop_keptTop root path)).2
  rw [hrun, List.forall_mem_append] at hall
  rw [place_of_isAbsolute (resolved_resolve hroot path).absolute, resolve_eq_keptTop hroot, hrun,
    List.append_assoc, names_run_append hall.1, List.singleton_append, names_cons_joinNames hplain,
    foldl_visit_plain hplain, List.nil_append]

/-! ## Separators in front -/

@[simp]
theorem isAbsolute_squeezeFront (path : Bytes) :
    isAbsolute (squeezeFront path) = isAbsolute path := by
  rw [squeezeFront]
  split
  · rename_i habsolute
    rw [habsolute]
    rfl
  · rfl

@[simp]
theorem names_squeezeFront (path : Bytes) : names (squeezeFront path) = names path := by
  rw [squeezeFront]
  split
  · have hrun : ∀ byte ∈ path.takeWhile (· == separator), byte = separator := by
      intro byte hbyte
      have htest := List.mem_takeWhile_imp hbyte
      exact beq_iff_eq.mp htest
    have hsplit := names_run_append hrun (path.dropWhile (· == separator))
    rw [List.takeWhile_append_dropWhile] at hsplit
    rw [← List.singleton_append, names_run_append (by simp), hsplit]
  · rfl

theorem not_isRun_squeezeFront (path : Bytes) : ¬ IsRun (squeezeFront path) := by
  rintro ⟨htop, hne⟩
  have habsolute := isAbsolute_of_isTop htop
  rw [isAbsolute_squeezeFront] at habsolute
  rw [squeezeFront, if_pos habsolute] at htop hne
  cases hrest : path.dropWhile (· == separator) with
  | nil => exact hne (congrArg (separator :: ·) hrest)
  | cons byte rest =>
    have hfirst := List.head?_dropWhile_not (· == separator) path
    rw [hrest, List.head?_cons] at hfirst
    have hall := (isTop_iff.mp htop).2 byte
      (by rw [hrest]; exact List.mem_cons_of_mem _ List.mem_cons_self)
    exact absurd (beq_iff_eq.mpr hall) (by simpa using hfirst)

theorem place_squeezeFront (root path : Bytes) :
    place (squeezeFront root) (squeezeFront path) = place root path := by
  by_cases habsolute : isAbsolute path = true
  · rw [place_of_isAbsolute habsolute, place_of_isAbsolute (by simpa using habsolute),
      names_squeezeFront]
  · rw [place_eq, place_eq, names_append habsolute, names_append (by simpa using habsolute),
      names_squeezeFront, names_squeezeFront]

/-- What a path below an absolute root is resolved to: the names of its place behind what is kept of
the top.  That is the one spelling of the place exactly if no run of several separators stands for
the top, and then two paths are resolved to the same one exactly if they lead to the same place.  A
resolved path always leads where the path led, and with runs in front read as one separator there
are no exceptions. -/
theorem resolve_canonical (root path : Bytes) (hroot : isAbsolute root = true) :
    resolve root path = keptTop root path ++ joinNames (place root path) ∧
      (IsCanonical (place root path) (resolve root path) ↔ Ordinary root path) ∧
      (∀ otherRoot otherPath, isAbsolute otherRoot = true → Ordinary root path →
        Ordinary otherRoot otherPath →
          (resolve root path = resolve otherRoot otherPath ↔
            place root path = place otherRoot otherPath)) ∧
      (∀ other, place other (resolve root path) = place root path) ∧
      IsCanonical (place root path) (resolve (squeezeFront root) (squeezeFront path)) := by
  refine ⟨resolve_eq_keptTop hroot path, isCanonical_iff hroot, ?_,
    fun other => place_resolve hroot other path, ?_⟩
  · intro otherRoot otherPath hother hordinary hordinaryOther
    constructor
    · intro hsame
      rw [← place_resolve hroot root path, hsame, place_resolve hother]
    · intro hplace
      rw [((isCanonical_iff hroot).mpr hordinary).spelling, hplace,
        ← ((isCanonical_iff hother).mpr hordinaryOther).spelling]
  · rw [← place_squeezeFront]
    refine (isCanonical_iff (by simpa using hroot)).mpr ⟨not_isRun_squeezeFront path, fun hrun => ?_⟩
    exact absurd hrun (not_isRun_squeezeFront root)

/-- Two spellings below different roots lead to one place, and are resolved to one path. -/
theorem resolve_canonical_scattered :
    isAbsolute (text "/work/proj") = true ∧
      place (text "/work/proj") (text "./a/../..//b/") = [text "work", text "b"] ∧
      resolve (text "/work/proj") (text "./a/../..//b/") = text "/work/b" ∧
      IsCanonical [text "work", text "b"] (text "/work/b") ∧
      place (text "//") (text "//work/x/../b") = [text "work", text "b"] ∧
      resolve (text "//") (text "//work/x/../b") = text "/work/b" := by
  have hfirst := resolve_canonical (text "/work/proj") (text "./a/../..//b/") (by decide)
  have hordinary : Ordinary (text "/work/proj") (text "./a/../..//b/") :=
    keptTop_eq_iff.mp (by decide)
  have hother : Ordinary (text "//") (text "//work/x/../b") := keptTop_eq_iff.mp (by decide)
  have hplace : place (text "/work/proj") (text "./a/../..//b/") = [text "work", text "b"] := by
    decide
  have hresolved : resolve (text "/work/proj") (text "./a/../..//b/") = text "/work/b" := by
    decide
  have hcanonical := hfirst.2.1.mpr hordinary
  rw [hplace, hresolved] at hcanonical
  have hplaceOther : place (text "//") (text "//work/x/../b") = [text "work", text "b"] := by
    decide
  have hsame := (hfirst.2.2.1 (text "//") (text "//work/x/../b") (by decide) hordinary hother).mpr
    (hplace.trans hplaceOther.symm)
  exact ⟨by decide, hplace, hresolved, hcanonical, hplaceOther, hsame.symm.trans hresolved⟩

/-- A run of several separators keeps its spelling.  So the top directory and a file below it have
two resolved paths each, one of which ends in a separator, or is not the one it is resolved to. -/
theorem resolve_run :
    (resolve (text "/work") (text "//") = text "//" ∧
      resolve (text "/work") (text "/") = text "/" ∧
      place (text "/work") (text "//") = place (text "/work") (text "/") ∧
      ¬ IsCanonical (place (text "/work") (text "//")) (resolve (text "/work") (text "//"))) ∧
    (resolve (text "//") (text "x") = text "//x" ∧
      resolve (text "//") (text "/x") = text "/x" ∧
      place (text "//") (text "x") = place (text "//") (text "/x") ∧
      ¬ IsCanonical (place (text "//") (text "x")) (resolve (text "//") (text "x")) ∧
      resolve (text "//") (resolve (text "//") (text "x")) = text "/x") := by
  refine ⟨⟨by decide, by decide, by decide, fun hcanonical => ?_⟩,
    ⟨by decide, by decide, by decide, fun hcanonical => ?_, by decide⟩⟩
  · exact absurd hcanonical.spelling (by decide)
  · exact absurd hcanonical.spelling (by decide)

end Path

end Patchwork
