import Mathlib.Data.List.Induction
import Mathlib.Data.Multiset.AddSub
import Mathlib.Data.Multiset.Count
import Mathlib.Logic.Function.Basic
import Patchwork.Proofs.Lock.Order

/-!
# Locks are accounted for

A recorder is followed through any number of actions: guards are made, moved, replaced and given up,
and some cannot be made.  At every moment a path was locked as many times more than it was unlocked
as it stands in guards that are held.  Main statement: `Recorder.run_accounted`.
-/

namespace Patchwork

namespace Lock

/-! ## Events and the paths that are held -/

/-- The events lead from the paths that are held before to those that are held afterwards.  Only a
path that is held is unlocked. -/
inductive Accounts : Multiset Bytes → List Event → Multiset Bytes → Prop
  | nil (held : Multiset Bytes) : Accounts held [] held
  | lock {path : Bytes} {held after : Multiset Bytes} {events : List Event} :
      Accounts (path ::ₘ held) events after → Accounts held (.lock path :: events) after
  | unlock {path : Bytes} {held after : Multiset Bytes} {events : List Event} :
      Accounts held events after → Accounts (path ::ₘ held) (.unlock path :: events) after

section Accounts

variable {held middle after : Multiset Bytes} {events more : List Event}

theorem Accounts.trans (hfirst : Accounts held events middle)
    (hsecond : Accounts middle more after) : Accounts held (events ++ more) after := by
  induction hfirst with
  | nil => exact hsecond
  | lock _ ih => exact .lock (ih hsecond)
  | unlock _ ih => exact .unlock (ih hsecond)

/-- Events are accounted for up to every moment. -/
theorem Accounts.exists_middle (haccounts : Accounts held (events ++ more) after) :
    ∃ middle, Accounts held events middle := by
  induction events generalizing held with
  | nil => exact ⟨held, .nil held⟩
  | cons event events ih =>
    cases haccounts with
    | lock hrest =>
      obtain ⟨middle, hmiddle⟩ := ih hrest
      exact ⟨middle, .lock hmiddle⟩
    | unlock hrest =>
      obtain ⟨middle, hmiddle⟩ := ih hrest
      exact ⟨middle, .unlock hmiddle⟩

/-- A path that was locked is held, or it was unlocked again. -/
theorem Accounts.count_eq (haccounts : Accounts held events after) (path : Bytes) :
    held.count path + events.count (.lock path) =
      events.count (.unlock path) + after.count path := by
  induction haccounts with
  | nil held => exact Nat.add_comm _ _
  | @lock first held after events _ ih =>
    have hunlock : Event.lock first ≠ .unlock path := Event.noConfusion
    rw [List.count_cons_of_ne hunlock, ← ih]
    by_cases hfirst : first = path
    · rw [hfirst, List.count_cons_self, Multiset.count_cons_self, Nat.add_right_comm, Nat.add_assoc]
    · have hlock : Event.lock first ≠ .lock path := fun heq => hfirst (Event.lock.inj heq)
      rw [List.count_cons_of_ne hlock, Multiset.count_cons_of_ne (Ne.symm hfirst)]
  | @unlock first held after events _ ih =>
    have hlock : Event.unlock first ≠ .lock path := Event.noConfusion
    rw [List.count_cons_of_ne hlock]
    by_cases hfirst : first = path
    · rw [hfirst, List.count_cons_self, Multiset.count_cons_self, Nat.add_right_comm, ih,
        Nat.add_right_comm]
    · have hunlock : Event.unlock first ≠ .unlock path := fun heq => hfirst (Event.unlock.inj heq)
      rw [List.count_cons_of_ne hunlock, Multiset.count_cons_of_ne (Ne.symm hfirst), ih]

/-- Multisets compare byte strings in another way than lists do, with the same result. -/
theorem count_coe (paths : List Bytes) (path : Bytes) :
    (paths : Multiset Bytes).count path = paths.count path := by
  rw [Multiset.coe_count]
  congr
  exact lawful_beq_subsingleton _ _

theorem accounts_lock (paths : List Bytes) (held : Multiset Bytes) :
    Accounts held (paths.map .lock) ((paths : Multiset Bytes) + held) := by
  induction paths generalizing held with
  | nil =>
    rw [Multiset.coe_nil, Multiset.zero_add]
    exact .nil held
  | cons path paths ih =>
    rw [← Multiset.cons_coe, Multiset.cons_add, ← Multiset.add_cons]
    exact .lock (ih (path ::ₘ held))

theorem accounts_release (paths : List Bytes) (held : Multiset Bytes) :
    Accounts ((paths : Multiset Bytes) + held) (release paths) held := by
  induction paths using List.reverseRecOn with
  | nil =>
    rw [Multiset.coe_nil, Multiset.zero_add]
    exact .nil held
  | append_singleton paths path ih =>
    have hlast : ((paths ++ [path] : List Bytes) : Multiset Bytes) = path ::ₘ ↑paths :=
      Multiset.coe_eq_coe.mpr (List.perm_append_singleton path paths)
    rw [hlast, Multiset.cons_add, release, List.reverse_append]
    exact .unlock ih

end Accounts

/-! ## Guards that are stored -/

/-- The paths of all guards, as often as they stand in them. -/
def pathsOf (guards : Table (List Bytes)) : List Bytes :=
  guards.flatMap Prod.snd

section Stored

variable {guards : Table (List Bytes)}

theorem perm_pathsOf_erase (hguards : Table.Increasing guards) (name : Bytes) :
    (pathsOf guards).Perm
      ((Table.find? name guards).getD [] ++ pathsOf (Table.erase name guards)) := by
  cases hfind : Table.find? name guards with
  | none =>
    have habsent := Table.notMem_keys_of_find?_eq_none hfind
    rw [Table.erase_eq_self habsent]
    exact .refl _
  | some paths => exact (hguards.perm_erase hfind).flatMap_right Prod.snd

theorem perm_pathsOf_insert (hguards : Table.Increasing guards) (name : Bytes)
    (paths : List Bytes) :
    (pathsOf (Table.insert name paths guards)).Perm
      (paths ++ pathsOf (Table.erase name guards)) :=
  (hguards.insert_perm name paths).flatMap_right Prod.snd

end Stored

namespace Recorder

variable {recorder : Recorder}

/-- The paths that are held, as often as they are. -/
def heldPaths (recorder : Recorder) : List Bytes :=
  pathsOf recorder.guards

/-- The recorder that an action leaves: as it was, if a guard cannot be made. -/
def next (recorder : Recorder) (action : Action) : Recorder :=
  match (recorder.act action).2 with
  | .ok next => next
  | .error _ => recorder

/-- Carries out actions one after another: all their events, and the recorder that they leave. -/
def run (recorder : Recorder) : List Action → List Event × Recorder
  | [] => ([], recorder)
  | action :: actions =>
    let (events, final) := (recorder.next action).run actions
    ((recorder.act action).1 ++ events, final)

theorem accounts_erase (hguards : Table.Increasing recorder.guards) (name : Bytes) :
    Accounts recorder.heldPaths (release (recorder.held name))
      (pathsOf (Table.erase name recorder.guards)) := by
  have hbefore := Multiset.coe_eq_coe.mpr (perm_pathsOf_erase hguards name)
  rw [heldPaths, hbefore, ← Multiset.coe_add]
  exact accounts_release _ _

/-- A guard that is stored takes the place of the one under its name. -/
theorem accounts_store (hguards : Table.Increasing recorder.guards) (name : Bytes)
    (paths : List Bytes) :
    Accounts ((paths : Multiset Bytes) + recorder.heldPaths) (recorder.store name paths).1
      (recorder.store name paths).2.heldPaths := by
  have hbefore := Multiset.coe_eq_coe.mpr (perm_pathsOf_erase hguards name)
  have hafter := Multiset.coe_eq_coe.mpr (perm_pathsOf_insert hguards name paths)
  rw [← Multiset.coe_add] at hbefore hafter
  change Accounts (_ + ↑(pathsOf recorder.guards)) (release (recorder.held name))
    ↑(pathsOf (Table.insert name paths recorder.guards))
  rw [hbefore, hafter, ← Multiset.add_assoc, Multiset.add_comm (paths : Multiset Bytes),
    Multiset.add_assoc]
  exact accounts_release _ _

theorem make_of_free {name : Bytes} {paths : List Bytes}
    (hfree : ∀ path ∈ paths, recorder.failing ≠ some path) :
    recorder.make name paths = (paths.map .lock ++ release (recorder.held name),
      .ok (recorder.store name paths).2) := by
  rw [make, acquire_of_notMem hfree]
  rfl

theorem make_of_failing {path : Bytes} {taken : List Bytes} (hfailing : recorder.failing = some path)
    (htaken : path ∉ taken) (name : Bytes) (rest : List Bytes) :
    recorder.make name (taken ++ path :: rest) =
      (taken.map .lock ++ release taken, .error path) := by
  rw [make, hfailing, acquire_of_failing htaken]
  rfl

/-- Either the guard is made and stored, or a path cannot be locked and those locked in front of it
are given up in reverse order. -/
theorem make_cases (recorder : Recorder) (name : Bytes) (paths : List Bytes) :
    recorder.make name paths = (paths.map .lock ++ release (recorder.held name),
        .ok (recorder.store name paths).2) ∨
      ∃ path taken, recorder.make name paths =
        (taken.map .lock ++ release taken, .error path) := by
  by_cases hfree : ∀ path ∈ paths, recorder.failing ≠ some path
  · exact .inl (make_of_free hfree)
  · obtain ⟨path, hpath, hfailing⟩ : ∃ path ∈ paths, recorder.failing = some path := by
      simpa using hfree
    obtain ⟨taken, rest, rfl, htaken⟩ := List.eq_append_cons_of_mem hpath
    exact .inr ⟨path, taken, make_of_failing hfailing htaken name rest⟩

/-! ## What every action keeps -/

/-- The events lead from one recorder to another one, whose guards are in the order of their names. -/
structure Leads (recorder : Recorder) (events : List Event) (next : Recorder) : Prop where
  increasing : Table.Increasing next.guards
  accounts : Accounts recorder.heldPaths events next.heldPaths

theorem make_leads (hguards : Table.Increasing recorder.guards) (name : Bytes)
    (paths : List Bytes) :
    Leads recorder (recorder.make name paths).1
      (match (recorder.make name paths).2 with
        | .ok next => next
        | .error _ => recorder) := by
  rcases recorder.make_cases name paths with hmade | ⟨path, taken, hrefused⟩
  · have haccounts := (accounts_lock paths recorder.heldPaths).trans
      (accounts_store hguards name paths)
    rw [hmade]
    exact ⟨hguards.insert name paths, haccounts⟩
  · have haccounts := (accounts_lock taken recorder.heldPaths).trans
      (accounts_release taken recorder.heldPaths)
    rw [hrefused]
    exact ⟨hguards, haccounts⟩

theorem act_leads (hguards : Table.Increasing recorder.guards) (action : Action) :
    Leads recorder (recorder.act action).1 (recorder.next action) := by
  cases action with
  | setFailing path => exact ⟨hguards, .nil _⟩
  | lock name requested => exact make_leads hguards name (order requested)
  | guard name paths => exact make_leads hguards name paths
  | move source target =>
    cases hfind : Table.find? source recorder.guards with
    | none =>
      have hact : recorder.act (.move source target) = ([], .ok recorder) := by rw [act, hfind]
      rw [next, hact]
      exact ⟨hguards, .nil _⟩
    | some paths =>
      -- the paths that the emptied guard had are held until the new one is stored
      let emptied : Recorder :=
        { recorder with guards := Table.insert source [] recorder.guards }
      have hact : recorder.act (.move source target) =
          ((emptied.store target paths).1, .ok (emptied.store target paths).2) := by
        rw [act, hfind]
      have hemptied : Table.Increasing emptied.guards := hguards.insert source []
      have hheld : (recorder.heldPaths : Multiset Bytes) = ↑paths + ↑emptied.heldPaths := by
        have hbefore := (hguards.perm_erase hfind).flatMap_right Prod.snd
        have hafter := perm_pathsOf_insert hguards source []
        rw [Multiset.coe_add]
        exact Multiset.coe_eq_coe.mpr (hbefore.trans (hafter.symm.append_left paths))
      rw [next, hact]
      refine ⟨hemptied.insert target paths, ?_⟩
      rw [hheld]
      exact accounts_store hemptied target paths
  | unlock name => exact ⟨hguards.erase name, accounts_erase hguards name⟩

theorem run_leads (hguards : Table.Increasing recorder.guards) (actions : List Action) :
    Leads recorder (recorder.run actions).1 (recorder.run actions).2 := by
  induction actions generalizing recorder with
  | nil => exact ⟨hguards, .nil _⟩
  | cons action actions ih =>
    have hfirst := act_leads hguards action
    have hrest := ih hfirst.increasing
    exact ⟨hrest.increasing, hfirst.accounts.trans hrest.accounts⟩

/-! ## What becomes of a guard -/

theorem held_insert (recorder : Recorder) (name : Bytes) (paths : List Bytes) :
    Recorder.held { recorder with guards := Table.insert name paths recorder.guards } =
      Function.update recorder.held name paths := by
  funext other
  by_cases hother : other = name
  · rw [hother, Function.update_self, held, Table.find?_insert_self, Option.getD_some]
  · rw [Function.update_of_ne hother, held, Table.find?_insert_of_ne hother]
    rfl

theorem held_erase (recorder : Recorder) (name : Bytes) :
    Recorder.held { recorder with guards := Table.erase name recorder.guards } =
      Function.update recorder.held name [] := by
  funext other
  by_cases hother : other = name
  · rw [hother, Function.update_self, held, Table.find?_erase_self, Option.getD_none]
  · rw [Function.update_of_ne hother, held, Table.find?_erase_of_ne hother]
    rfl

/-- The guards of a recorder account for the events up to now and, whatever the next action is, for
those of that action. -/
structure Accounted (events : List Event) (recorder : Recorder) : Prop where
  /-- A path was locked as many times more than it was unlocked as it stands in guards. -/
  balance : ∀ path, events.count (.lock path) =
    events.count (.unlock path) + recorder.heldPaths.count path
  /-- Up to no moment was a path unlocked more often than it was locked. -/
  covered : ∀ opening, opening <+: events →
    ∀ path, opening.count (.unlock path) ≤ opening.count (.lock path)
  /-- A guard is made for paths that can be locked, and the one in its place is given up then. -/
  made : ∀ name paths, (∀ path ∈ paths, recorder.failing ≠ some path) →
    ∃ next, recorder.act (.guard name paths) =
        (paths.map .lock ++ (recorder.held name).reverse.map .unlock, .ok next) ∧
      next.held = Function.update recorder.held name paths
  /-- The locks taken in front of a path that cannot be locked are given up in reverse order. -/
  refused : ∀ name taken path rest, recorder.failing = some path → path ∉ taken →
    recorder.act (.guard name (taken ++ path :: rest)) =
      (taken.map .lock ++ taken.reverse.map .unlock, .error path)
  /-- An action that fails changes nothing. -/
  kept : ∀ action path, (recorder.act action).2 = .error path → recorder.next action = recorder
  /-- Requested paths are locked in increasing order, every one once and the empty path never. -/
  ordered : ∀ name requested, ∃ paths,
    recorder.act (.lock name requested) = recorder.act (.guard name paths) ∧
      paths.Pairwise (· < ·) ∧ ∀ path, path ∈ paths ↔ path ≠ [] ∧ path ∈ requested
  /-- A guard that is moved leaves an empty one behind and takes the place of the one at its new
  name. -/
  moved : ∀ source target paths, Table.find? source recorder.guards = some paths →
    ∃ next, recorder.act (.move source target) =
        ((Function.update recorder.held source [] target).reverse.map .unlock, .ok next) ∧
      next.held = Function.update (Function.update recorder.held source []) target paths
  /-- A guard gives up its paths in reverse order. -/
  destroyed : ∀ name, ∃ next,
    recorder.act (.unlock name) = ((recorder.held name).reverse.map .unlock, .ok next) ∧
      next.held = Function.update recorder.held name []

/-- Whatever actions there were, the guards that are held account for all events, and they will for
those of the next action. -/
theorem run_accounted (actions : List Action) :
    Accounted (({} : Recorder).run actions).1 (({} : Recorder).run actions).2 := by
  have hleads : Leads {} (({} : Recorder).run actions).1 (({} : Recorder).run actions).2 :=
    run_leads Table.increasing_nil actions
  generalize ({} : Recorder).run actions = reached at hleads ⊢
  obtain ⟨events, recorder⟩ := reached
  exact {
    balance := fun path => by
      have hcount := hleads.accounts.count_eq path
      rw [count_coe, count_coe] at hcount
      change 0 + _ = _ at hcount
      rwa [Nat.zero_add] at hcount
    covered := fun opening hopening path => by
      obtain ⟨more, rfl⟩ := hopening
      obtain ⟨middle, hmiddle⟩ := hleads.accounts.exists_middle
      have hcount := hmiddle.count_eq path
      rw [count_coe] at hcount
      change 0 + _ = _ at hcount
      rw [Nat.zero_add] at hcount
      exact Nat.le.intro hcount.symm
    made := fun name paths hfree =>
      ⟨(recorder.store name paths).2, make_of_free hfree, held_insert recorder name paths⟩
    refused := fun name taken path rest hfailing htaken =>
      make_of_failing hfailing htaken name rest
    kept := fun action path hfailed => by rw [next, hfailed]
    ordered := fun name requested =>
      ⟨order requested, rfl, pairwise_order requested, fun _ => mem_order⟩
    moved := fun source target paths hfind => by
      let emptied : Recorder :=
        { recorder with guards := Table.insert source [] recorder.guards }
      have hheld : emptied.held = Function.update recorder.held source [] :=
        held_insert recorder source []
      refine ⟨(emptied.store target paths).2, ?_, ?_⟩
      · rw [act, hfind, ← hheld]
        rfl
      · rw [← hheld]
        exact held_insert emptied target paths
    destroyed := fun name => ⟨_, rfl, held_erase recorder name⟩ }

/-- The guard that was moved keeps its paths, and the one that replaces it is made first. -/
example : (({} : Recorder).run [
      .guard (text "first") [text "b", text "a"], .move (text "first") (text "second"),
      .unlock (text "first"), .lock (text "second") [text "c", [], text "c"]]).1 =
    [.lock (text "b"), .lock (text "a"), .lock (text "c"), .unlock (text "a"),
      .unlock (text "b")] := by
  decide

end Recorder

end Lock

end Patchwork
