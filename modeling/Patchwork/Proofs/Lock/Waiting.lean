import Mathlib.Data.Fintype.Card
import Mathlib.Data.Fintype.EquivFin
import Mathlib.Logic.Relation
import Patchwork.Proofs.Lock.Order

/-!
# Nobody waits in a circle

Clients lock the paths that they requested one after another and wait for a path as long as somebody
holds it.  Whoever holds a path that another client waits for waits, if at all, for a greater one:
so of finitely many clients some client can always go on.  Main statement:
`exists_turn_of_reachable`.
-/

namespace Patchwork

namespace Lock

def Event.locked? : Event → Option Bytes
  | lock path => some path
  | unlock _ => none

/-- The paths that a guard for the requested paths locks, one after another. -/
def lockSequence (requested : List Bytes) : List Bytes :=
  (({} : Recorder).act (.lock [] requested)).1.filterMap Event.locked?

/-- Where a client stands that locks paths one after another. -/
inductive Client
  /-- The client holds some paths and has others ahead of it. -/
  | locking (held ahead : List Bytes)
  /-- The client has given up all that it held. -/
  | finished

namespace Client

/-- A client that holds nothing yet. -/
def start (requested : List Bytes) : Client :=
  locking [] (lockSequence requested)

def held : Client → List Bytes
  | locking held _ => held
  | finished => []

/-- The path that a client locks next. -/
def next? : Client → Option Bytes
  | locking _ ahead => ahead.head?
  | finished => none

/-- The paths that a client holds and those ahead of it are in order. -/
def InOrder : Client → Prop
  | locking held ahead => (held ++ ahead).Pairwise (· < ·)
  | finished => True

end Client

section Clients

variable {ι : Type*} [DecidableEq ι]

/-- One client goes one step on: it locks its next path, which nobody holds, or it holds all its
paths and gives them up. -/
inductive Turn : (ι → Client) → (ι → Client) → Prop
  | take {clients : ι → Client} {index : ι} {held ahead : List Bytes} {path : Bytes} :
      clients index = .locking held (path :: ahead) →
      (∀ other, path ∉ (clients other).held) →
      Turn clients (Function.update clients index (.locking (held ++ [path]) ahead))
  | finish {clients : ι → Client} {index : ι} {held : List Bytes} :
      clients index = .locking held [] →
      Turn clients (Function.update clients index .finished)

/-- Every client with what it requested still ahead of it. -/
def startAll (requests : ι → List Bytes) (index : ι) : Client :=
  .start (requests index)

/-- Clients that are reached from the start, whoever took a turn when. -/
def Reachable (requests : ι → List Bytes) (clients : ι → Client) : Prop :=
  Relation.ReflTransGen Turn (startAll requests) clients

end Clients

/-! ## What every turn keeps -/

theorem lockSequence_eq (requested : List Bytes) : lockSequence requested = order requested := by
  have hacquire : acquire none [] (order requested) =
      ((order requested).map .lock, .ok (order requested)) :=
    acquire_of_notMem (fun path _ => (Option.some_ne_none path).symm) []
  have hevents : (({} : Recorder).act (.lock [] requested)).1 =
      (order requested).map .lock ++ [] := by
    rw [Recorder.act, Recorder.make, hacquire]
    rfl
  rw [lockSequence, hevents, List.append_nil, List.filterMap_map]
  exact List.filterMap_some

section Order

variable {ι : Type*} [DecidableEq ι] {requests : ι → List Bytes} {clients next : ι → Client}
  {client : Client} {path other : Bytes}

theorem Client.inOrder_start (requested : List Bytes) : (Client.start requested).InOrder := by
  rw [start, lockSequence_eq]
  exact pairwise_order requested

/-- A client locks its paths in order, so it holds none that is greater than its next one. -/
theorem Client.InOrder.lt (hclient : client.InOrder) (hpath : path ∈ client.held)
    (hnext : other ∈ client.next?) : path < other := by
  cases client with
  | finished => cases hnext
  | locking held ahead =>
    exact (List.pairwise_append.mp hclient).2.2 path hpath other (List.mem_of_mem_head? hnext)

theorem Turn.inOrder (hturn : Turn clients next) (hclients : ∀ index, (clients index).InOrder)
    (index : ι) : (next index).InOrder := by
  cases hturn with
  | @take turning held ahead path hclient hfree =>
    by_cases hindex : index = turning
    · subst hindex
      have horder := hclients index
      rw [hclient] at horder
      rw [Function.update_self, Client.InOrder, List.append_assoc, List.singleton_append]
      exact horder
    · rw [Function.update_of_ne hindex]
      exact hclients index
  | @finish turning held hclient =>
    by_cases hindex : index = turning
    · subst hindex
      rw [Function.update_self]
      trivial
    · rw [Function.update_of_ne hindex]
      exact hclients index

theorem Reachable.inOrder (hreachable : Reachable requests clients) (index : ι) :
    (clients index).InOrder := by
  induction hreachable generalizing index with
  | refl => exact Client.inOrder_start (requests index)
  | tail _ hturn ih => exact hturn.inOrder ih index

end Order

/-! ## Who waits for whom -/

section Progress

variable {ι : Type*} [DecidableEq ι] {requests : ι → List Bytes} {clients : ι → Client}

/-- The next path of the first client is greater than that of the second one. -/
def Above (clients : ι → Client) (upper lower : ι) : Prop :=
  ∃ path ∈ (clients lower).next?, ∃ above ∈ (clients upper).next?, path < above

omit [DecidableEq ι] in
theorem wellFounded_above [Finite ι] (clients : ι → Client) : WellFounded (Above clients) := by
  have htrans : IsTrans ι (Above clients) := by
    refine ⟨fun top middle bottom htop hbottom => ?_⟩
    obtain ⟨passed, hpassed, highest, hhighest, hgreater⟩ := htop
    obtain ⟨lowest, hlowest, path, hpath, hless⟩ := hbottom
    obtain rfl : passed = path := Option.mem_unique hpassed hpath
    exact ⟨lowest, hlowest, highest, hhighest, List.lt_trans hless hgreater⟩
  have hirrefl : Std.Irrefl (Above clients) := by
    refine ⟨fun index habove => ?_⟩
    obtain ⟨path, hpath, above, hnext, hless⟩ := habove
    obtain rfl : path = above := Option.mem_unique hpath hnext
    exact List.lt_irrefl path hless
  exact Finite.wellFounded_of_trans_of_irrefl _

/-- A client that is not finished can go on, or it waits for one that can, directly or by way of
others that wait for ever greater paths. -/
theorem exists_turn_of_inOrder [Finite ι] (hclients : ∀ index, (clients index).InOrder) {index : ι}
    (hunfinished : clients index ≠ .finished) : ∃ next, Turn clients next := by
  induction index using (wellFounded_above clients).induction with
  | _ index ih =>
    cases hclient : clients index with
    | finished => exact absurd hclient hunfinished
    | locking held ahead =>
      cases ahead with
      | nil => exact ⟨_, .finish hclient⟩
      | cons path ahead =>
        by_cases hfree : ∀ other, path ∉ (clients other).held
        · exact ⟨_, .take hclient hfree⟩
        · obtain ⟨other, hholds⟩ : ∃ other, path ∈ (clients other).held := by simpa using hfree
          have hnext : path ∈ (clients index).next? := by rw [hclient]; rfl
          cases hother : clients other with
          | finished =>
            rw [hother] at hholds
            cases hholds
          | locking held remaining =>
            cases remaining with
            | nil => exact ⟨_, .finish hother⟩
            | cons above remaining =>
              have habove : above ∈ (clients other).next? := by rw [hother]; rfl
              have hless : path < above := (hclients other).lt hholds habove
              exact ih other ⟨path, hnext, above, habove, hless⟩ (by rw [hother]; exact nofun)

/-- Whatever finitely many clients requested and whoever took a turn when: as long as some client is
not finished, some client can go on. -/
theorem exists_turn_of_reachable [Finite ι] (requests : ι → List Bytes) (clients : ι → Client)
    (hreachable : Reachable requests clients)
    (hunfinished : ∃ index, clients index ≠ .finished) : ∃ next, Turn clients next := by
  obtain ⟨index, hindex⟩ := hunfinished
  exact exists_turn_of_inOrder hreachable.inOrder hindex

/-- Two clients that name the same two paths in opposite orders. -/
def opposed : Fin 2 → List Bytes
  | 0 => [text "b", text "a"]
  | 1 => [text "a", [], text "b", text "a"]

/-- The first of two opposed clients has locked one path, for which the second one waits. -/
def firstHolds : Fin 2 → Client :=
  Function.update (startAll opposed) 0 (.locking [text "a"] [text "b"])

theorem exists_turn_of_reachable_opposed :
    Reachable opposed firstHolds ∧ (∃ index, firstHolds index ≠ .finished) ∧
      ∃ next, Turn firstHolds next := by
  have hsequence : lockSequence (opposed 0) = [text "a", text "b"] := by decide
  have hfirst : startAll opposed 0 = .locking [] [text "a", text "b"] :=
    congrArg (Client.locking []) hsequence
  have hreachable : Reachable opposed firstHolds :=
    Relation.ReflTransGen.single (.take hfirst fun _ => List.not_mem_nil)
  have hunfinished : ∃ index, firstHolds index ≠ .finished := ⟨1, nofun⟩
  exact ⟨hreachable, hunfinished,
    exists_turn_of_reachable opposed firstHolds hreachable hunfinished⟩

end Progress

end Lock

end Patchwork
