import Patchwork.Table
import Patchwork.Utf8

/-!
# Path locks

A guard holds locks on paths and gives them up in reverse order.  Everyone who needs several
paths takes them in one order, that of their bytes, so that nobody waits in a circle.  A
recorder keeps the events and the guards that are held.
-/

namespace Patchwork

namespace Lock

/-- Puts a path into an increasing list of paths; one that is there already is left alone. -/
def insertPath (path : Bytes) : List Bytes → List Bytes
  | [] => [path]
  | other :: rest =>
    if path < other then path :: other :: rest
    else if path = other then other :: rest
    else other :: insertPath path rest

/-- The order in which requested paths are locked: increasing, without repetitions and without
the empty path. -/
def order (requested : List Bytes) : List Bytes :=
  (requested.filter (· ≠ [])).foldr insertPath []

inductive Event
  | lock (path : Bytes)
  | unlock (path : Bytes)
  deriving DecidableEq, Repr

namespace Event

def name : Event → Bytes
  | lock path => text "lock:" ++ path
  | unlock path => text "unlock:" ++ path

end Event

/-- The events of giving up locks that were taken in the given order. -/
def release (held : List Bytes) : List Event :=
  held.reverse.map .unlock

/-- Takes locks in order.  If a path cannot be locked, the locks taken before it are given up
again. -/
def acquire (failing : Option Bytes) (held : List Bytes) :
    List Bytes → List Event × Except Bytes (List Bytes)
  | [] => ([], .ok held)
  | path :: rest =>
    if failing = some path then (release held, .error path)
    else
      let (events, result) := acquire failing (held ++ [path]) rest
      (.lock path :: events, result)

/-- The guards that are held, by their names, and the path that cannot be locked. -/
structure Recorder where
  failing : Option Bytes := none
  guards : Table (List Bytes) := []
  deriving DecidableEq, Repr

inductive Action
  /-- From now on this path cannot be locked; with none every path can. -/
  | setFailing (path : Option Bytes)
  /-- Locks the requested paths in the common order. -/
  | lock (name : Bytes) (paths : List Bytes)
  /-- Locks the given paths in the given order. -/
  | guard (name : Bytes) (paths : List Bytes)
  /-- Moves the locks of a guard to a new one; the emptied guard stays. -/
  | move (source target : Bytes)
  | unlock (name : Bytes)
  deriving DecidableEq, Repr

namespace Recorder

/-- The locks held under a name. -/
def held (recorder : Recorder) (name : Bytes) : List Bytes :=
  (Table.find? name recorder.guards).getD []

/-- Puts a new guard under a name and then gives up the one that stood there. -/
def store (recorder : Recorder) (name : Bytes) (paths : List Bytes) : List Event × Recorder :=
  (release (recorder.held name),
    { recorder with guards := Table.insert name paths recorder.guards })

/-- Makes a guard for paths in the given order and stores it. -/
def make (recorder : Recorder) (name : Bytes) (paths : List Bytes) :
    List Event × Except Bytes Recorder :=
  match acquire recorder.failing [] paths with
  | (events, .error path) => (events, .error path)
  | (events, .ok held) =>
    let (released, recorder) := recorder.store name held
    (events ++ released, .ok recorder)

/-- Carries out one action: its events, and the recorder it leaves or the path that could not
be locked. -/
def act (recorder : Recorder) : Action → List Event × Except Bytes Recorder
  | .setFailing path => ([], .ok { recorder with failing := path })
  | .lock name paths => recorder.make name (order paths)
  | .guard name paths => recorder.make name paths
  | .move source target =>
    match Table.find? source recorder.guards with
    | none => ([], .ok recorder)
    | some paths =>
      let emptied := { recorder with guards := Table.insert source [] recorder.guards }
      let (released, recorder) := emptied.store target paths
      (released, .ok recorder)
  | .unlock name =>
    (release (recorder.held name),
      .ok { recorder with guards := Table.erase name recorder.guards })

end Recorder

/-- What is reported when a path cannot be locked. -/
def failureMessage (path : Bytes) : Bytes :=
  Bytes.untilZero (text "lock failed: " ++ path)

end Lock

end Patchwork
