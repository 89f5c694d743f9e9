import Patchwork.Utf8

/-!
# Paths

The lexical side of paths: nothing here looks at a file system.  A path is read as a stack of
names by `push`; `normalize` writes the stack back, and `resolve` gives all spellings of a place
below a root one path.  The top directory alone has many spellings, since a run of separators
that is a whole path is kept as it is.
-/

namespace Patchwork

namespace Path

abbrev separator : UInt8 := Bytes.slash

/-- The name of the directory itself. -/
def here : Bytes := [46]

/-- The name of the directory above. -/
def above : Bytes := [46, 46]

def isAbsolute (path : Bytes) : Bool :=
  path.head? == some separator

/-- A path of separators alone, which names the top directory. -/
def isTop (path : Bytes) : Bool :=
  path != [] && path.all (· == separator)

/-- The names between the separators, empty ones included. -/
def components (path : Bytes) : List Bytes :=
  Bytes.splitAt separator path

/-- Reads one more component onto a stack of names, the innermost name first.  Empty names and
`.` change nothing; `..` takes a name away, does nothing at the top, and stays where a
relative path leads above its start. -/
def push (absolute : Bool) (stack : List Bytes) (name : Bytes) : List Bytes :=
  if name = [] ∨ name = here then stack
  else if name = above then
    match stack with
    | [] => if absolute then [] else [above]
    | top :: below => if top = above then above :: top :: below else below
  else name :: stack

/-- The stack of names that a path leads to, the innermost name first. -/
def stack (path : Bytes) : List Bytes :=
  (components path).foldl (push (isAbsolute path)) []

/-- Whether the last component of a path says that a directory is meant. -/
def namesDirectory (path : Bytes) : Bool :=
  match (components path).getLast? with
  | some last => last == [] || last == here || last == above
  | none => false

/-- Writes names with separators between them. -/
def joinNames (names : List Bytes) : Bytes :=
  List.intercalate [separator] names

/-- The shortest spelling of a path, where `top` is the spelling of the top directory that an
absolute path starts at.  It ends in a separator if the path says that a directory is meant, and
a path of separators alone is left as it is. -/
def normalizeFrom (top path : Bytes) : Bytes :=
  if path = [] ∨ isTop path then path
  else
    let names := stack path
    let start := if isAbsolute path then top else []
    let ending :=
      if namesDirectory path && names != [] && names.head? != some above then [separator] else []
    if names = [] ∧ ¬ isAbsolute path then here
    else start ++ joinNames names.reverse ++ ending

/-- The shortest spelling of a path that stands on its own: one separator names the top. -/
def normalize (path : Bytes) : Bytes :=
  normalizeFrom [separator] path

/-- Puts a path behind a root; an absolute path stands for itself. -/
def append (root path : Bytes) : Bytes :=
  if isAbsolute path then path
  else if root = [] ∨ root.getLast? = some separator then root ++ path
  else root ++ separator :: path

/-- Removes the separators at the end, unless the path holds nothing else. -/
def dropEndSeparators (path : Bytes) : Bytes :=
  if isTop path then path else Bytes.dropEndWhile (· == separator) path

/-- The spelling of the top directory for a path below a root.  A root of separators alone is the
top directory under a spelling of its own, and what stands below it keeps that spelling; every
other path starts at one separator. -/
def topFor (root path : Bytes) : Bytes :=
  if isTop root && !isAbsolute path then root else [separator]

/-- The normal spelling of a path below a root, without a separator at its end. -/
def resolve (root path : Bytes) : Bytes :=
  dropEndSeparators (normalizeFrom (topFor root path) (append root path))

/-- The path of the directory that holds the last name of a path. -/
def parent (path : Bytes) : Bytes :=
  dropEndSeparators (Bytes.dropEndWhile (· != separator) path)

end Path

end Patchwork
