import Mathlib.Data.List.Induction
import Patchwork.Proofs.Table
import Patchwork.Proofs.Tool.Verdict

/-!
# Sessions with a registry

Tools are registered and called by name in any order.  To see which calls a registry makes, every
tool is replaced by one that does the same and notes its calls under the number of its registration.
A call by name goes to the last tool of that name and to no other: it is asked once what speaks
against the input, and executed once if nothing does.  Whatever comes of that, there is an answer
that names the tool.  Main statement: `Session.session_gated`.
-/

namespace Patchwork

variable {σ : Type}

/-! ## Watched tools -/

namespace Tool

/-- A call of one of the two parts of a tool, known by the number of its registration. -/
inductive Call
  | looked (registration : Nat) (input : Json)
  | executed (registration : Nat) (input : Json)

/-- A state, and the calls that were made on the way to it. -/
structure Watched (σ : Type) where
  state : σ
  calls : List Call

instance [Logging σ] : Logging (Watched σ) where
  log level message watched := { watched with state := Logging.log level message watched.state }

/-- A step on the state that is noted as a call. -/
def noted {α : Type} (call : Call) (step : ExceptT Failure (StateM σ) α) :
    ExceptT Failure (StateM (Watched σ)) α :=
  fun watched =>
    let (result, state) := step watched.state
    (result, ⟨state, watched.calls ++ [call]⟩)

/-- A tool that does the same and notes its calls. -/
def watch (registration : Nat) (tool : Tool σ) : Tool (Watched σ) where
  name := tool.name
  description := tool.description
  schema := tool.schema
  objection? input := noted (.looked registration input) (tool.objection? input)
  execute input := noted (.executed registration input) (tool.execute input)

/-- The calls that belong to one call by name, by what came of looking over the input. -/
def callsFor (registration : Nat) (input : Json) : Except Failure (Option Bytes) → List Call
  | .ok none => [.looked registration input, .executed registration input]
  | _ => [.looked registration input]

/-- Nothing speaks against the input, and the tool is executed with that result. -/
def Returns (tool : Tool σ) (input : Json) (state : σ) (result : Json) : Prop :=
  ∃ between after, (tool.objection? input).run state = (.ok none, between) ∧
    (tool.execute input).run between = (.ok result, after)

/-- The ways in which a call does not come to a result that can be passed on. -/
inductive Fails (tool : Tool σ) (input : Json) (state : σ) : Prop
  | rejected {objection : Bytes} {after : σ} :
      (tool.objection? input).run state = (.ok (some objection), after) → Fails tool input state
  | lookingThrew {failure : Failure} {after : σ} :
      (tool.objection? input).run state = (.error failure, after) → Fails tool input state
  | executingThrew {failure : Failure} {between after : σ} :
      (tool.objection? input).run state = (.ok none, between) →
      (tool.execute input).run between = (.error failure, after) → Fails tool input state
  | misshapen {result : Json} : tool.Returns input state result → result.isObject = false →
      result ≠ .null → Fails tool input state

end Tool

/-- An object that tells which tool it is from. -/
structure Json.NamesTool (answer : Json) : Prop where
  isObject : answer.isObject = true
  named : (answer.member? (text "tool_name")).isSome = true

/-- What is answered to a call of a tool: the result of the tool, named, or that the call failed. -/
structure Tool.Answers (tool : Tool σ) (input : Json) (state : σ) (answer : Json) : Prop where
  names : answer.NamesTool
  failed : tool.Fails input state → answer.ReportsFailure
  returned : ∀ result, tool.Returns input state result → result.isObject = true ∨ result = .null →
    ∀ key ≠ text "tool_name", answer.member? key = result.member? key

/-! ## One call by name -/

namespace Registry

open Tool (Call Watched callsFor)

section Answers

variable {name : Bytes} {result answered : Json}

theorem namesTool_failureAnswer (name error : Bytes) : (failureAnswer name error).NamesTool := by
  refine ⟨rfl, ?_⟩
  rw [failureAnswer, Json.member?_ofMembers]
  rfl

/-- Only objects and `null` take the name of a tool. -/
theorem exists_nameAnswer_iff :
    (∃ answered, nameAnswer name result = .ok answered) ↔
      result.isObject = true ∨ result = .null := by
  cases result with
  | object members =>
    refine iff_of_true ?_ (.inl rfl)
    rw [nameAnswer]
    split
    · exact ⟨_, rfl⟩
    · exact ⟨_, rfl⟩
  | null => exact iff_of_true ⟨_, rfl⟩ (.inr rfl)
  | bool | number | string | array =>
    refine iff_of_false ?_ (by simp [Json.isObject])
    rintro ⟨answered, ⟨⟩⟩

theorem namesTool_nameAnswer (hanswer : nameAnswer name result = .ok answered) :
    answered.NamesTool := by
  cases result with
  | object members =>
    rw [nameAnswer] at hanswer
    split at hanswer
    · obtain rfl := Except.ok.inj hanswer
      exact ⟨rfl, ‹_›⟩
    · obtain rfl := Except.ok.inj hanswer
      refine ⟨rfl, ?_⟩
      change (Table.find? _ (Table.insert _ _ members)).isSome = true
      rw [Table.find?_insert_self]
      rfl
  | null =>
    obtain rfl := Except.ok.inj hanswer
    exact ⟨rfl, rfl⟩
  | bool | number | string | array => cases hanswer

end Answers

variable [Logging σ] {registry : Registry σ} {tool : Tool σ} {name : Bytes} {input : Json}

theorem run_of_find?_eq_none (hfound : registry.find? name = none) (state : σ) :
    registry.run name input state =
      (failureAnswer name (text "failed to find tool: " ++ name),
        Logging.log .error (text "Unknown tool: " ++ name) state) := by
  rw [run, hfound]

/-- Whatever happens in a call, the answer names the tool. -/
theorem namesTool_run (registry : Registry σ) (name : Bytes) (input : Json) (state : σ) :
    (registry.run name input state).1.NamesTool := by
  cases hfound : registry.find? name with
  | none =>
    rw [run_of_find?_eq_none hfound]
    exact namesTool_failureAnswer _ _
  | some tool =>
    rw [run_of_find? hfound, call_eq]
    rcases (tool.objection? input).run state with ⟨failure | _ | objection, between⟩
    · exact namesTool_failureAnswer _ _
    · simp only []
      rcases (tool.execute input).run between with ⟨failure | result, after⟩
      · exact namesTool_failureAnswer _ _
      · simp only []
        cases hanswer : nameAnswer name result with
        | ok answered => exact namesTool_nameAnswer hanswer
        | error failure => exact namesTool_failureAnswer _ _
    · exact namesTool_failureAnswer _ _

section Found

variable (hfound : registry.find? name = some tool)

include hfound

theorem reportsFailure_run_of_fails {state : σ} (hfails : tool.Fails input state) :
    (registry.run name input state).1.ReportsFailure := by
  rw [run_of_find? hfound, call_eq]
  cases hfails with
  | rejected hlook | lookingThrew hlook =>
    rw [hlook]
    exact reportsFailure_failureAnswer _ _
  | executingThrew hlook hexecute =>
    simp only [hlook, hexecute]
    exact reportsFailure_failureAnswer _ _
  | @misshapen result hreturns hshape hnull =>
    obtain ⟨between, after, hlook, hexecute⟩ := hreturns
    simp only [hlook, hexecute]
    cases hanswer : nameAnswer name result with
    | ok answered =>
      rcases exists_nameAnswer_iff.mp ⟨answered, hanswer⟩ with hobject | hnone
      · exact absurd (hshape.symm.trans hobject) Bool.false_ne_true
      · exact absurd hnone hnull
    | error failure => exact reportsFailure_failureAnswer _ _

theorem answers_run (input : Json) (state : σ) :
    tool.Answers input state (registry.run name input state).1 := by
  refine ⟨namesTool_run registry name input state, reportsFailure_run_of_fails hfound, ?_⟩
  rintro result ⟨between, after, hlook, hexecute⟩ hshape key hkey
  have hanswers : ∃ answered, nameAnswer name result = .ok answered :=
    exists_nameAnswer_iff.mpr hshape
  obtain ⟨answered, hanswer⟩ := hanswers
  rw [run_of_find? hfound, call_eq]
  simp only [hlook, hexecute, hanswer]
  exact member?_nameAnswer hanswer hkey

end Found

/-! ## Calls of watched tools -/

/-- To note the calls changes nothing else. -/
theorem call_watch (registration : Nat) (state : σ) (calls : List Call) :
    (call name (tool.watch registration) input).run ⟨state, calls⟩ =
      (((call name tool input).run state).1,
        ⟨((call name tool input).run state).2,
          calls ++ callsFor registration input ((tool.objection? input).run state).1⟩) := by
  have hlook : ((tool.watch registration).objection? input).run ⟨state, calls⟩ =
      (((tool.objection? input).run state).1,
        ⟨((tool.objection? input).run state).2, calls ++ [.looked registration input]⟩) :=
    rfl
  rw [call_eq, call_eq, hlook]
  rcases (tool.objection? input).run state with ⟨failure | _ | objection, between⟩
  · rfl
  · have hexecute : ∀ calls, ((tool.watch registration).execute input).run ⟨between, calls⟩ =
        (((tool.execute input).run between).1,
          ⟨((tool.execute input).run between).2, calls ++ [.executed registration input]⟩) :=
      fun _ => rfl
    simp only [hexecute, List.append_assoc]
    rcases (tool.execute input).run between with ⟨failure | result, after⟩
    · rfl
    · rfl
  · rfl

theorem run_watch {watching : Registry (Watched σ)} {registration : Nat}
    (hfound : registry.find? name = some tool)
    (hwatching : watching.find? name = some (tool.watch registration)) (state : σ)
    (calls : List Call) :
    watching.run name input ⟨state, calls⟩ =
      ((registry.run name input state).1,
        ⟨(registry.run name input state).2,
          calls ++ callsFor registration input ((tool.objection? input).run state).1⟩) := by
  rw [run_of_find? hwatching, run_of_find? hfound, call_watch]
  rcases (call name tool input).run state with ⟨failure | answered, after⟩
  · rfl
  · rfl

theorem run_watch_unknown {watching : Registry (Watched σ)} (hfound : registry.find? name = none)
    (hwatching : watching.find? name = none) (state : σ) (calls : List Call) :
    watching.run name input ⟨state, calls⟩ =
      ((registry.run name input state).1, ⟨(registry.run name input state).2, calls⟩) := by
  rw [run_of_find?_eq_none hwatching, run_of_find?_eq_none hfound]
  rfl

theorem register_watch {watching : Registry (Watched σ)}
    (hsame : ∀ name, (watching.find? name).isSome = (registry.find? name).isSome)
    (registration : Nat) (tool? : Option (Tool σ)) (state : σ) (calls : List Call) :
    (watching.register (tool?.map (Tool.watch registration)) ⟨state, calls⟩).2 =
      ⟨(registry.register tool? state).2, calls⟩ := by
  cases tool? with
  | none => rfl
  | some tool =>
    have hname : (watching.find? (tool.watch registration).name).isSome =
        (registry.find? tool.name).isSome :=
      hsame tool.name
    simp only [Option.map_some, register, hname]
    split
    · rfl
    · rfl

end Registry

/-! ## Requests one after another -/

/-- What a registry can be asked for. -/
inductive Request (σ : Type)
  | register (tool? : Option (Tool σ))
  | run (name : Bytes) (input : Json)

/-- A registry, the state that its tools work on, and the answers that were given so far. -/
structure Session (σ : Type) where
  registry : Registry σ := {}
  state : σ
  answers : List Json := []

namespace Session

open Tool (Call Watched watch callsFor)

section Defs

variable [Logging σ]

def act (session : Session σ) : Request σ → Session σ
  | .register tool? =>
    let (registry, state) := session.registry.register tool? session.state
    { session with registry, state }
  | .run name input =>
    let (answer, state) := session.registry.run name input session.state
    { session with state, answers := session.answers ++ [answer] }

/-- The session after some requests, begun with an empty registry. -/
def after (requests : List (Request σ)) (state : σ) : Session σ :=
  requests.foldl act { state }

end Defs

/-- The request for a watched tool. -/
def watchRequest (position : Nat) : Request σ → Request (Watched σ)
  | .register tool? => .register (tool?.map (watch position))
  | .run name input => .run name input

/-- The requests for watched tools; a registration has the number of its request. -/
def watched (requests : List (Request σ)) : List (Request (Watched σ)) :=
  requests.mapIdx watchRequest

/-- The last tool that was registered under a name, and the number of that request. -/
structure Serves (requests : List (Request σ)) (name : Bytes) (position : Nat) (tool : Tool σ) :
    Prop where
  registered : requests[position]? = some (.register (some tool))
  named : tool.name = name
  last : ∀ later other, position < later →
    requests[later]? = some (.register (some other)) → other.name ≠ name

/-- The calls that are made and the answers that are given in the course of the requests. -/
inductive Runs [Logging σ] (state : σ) : List (Request σ) → List Call → List Json → Prop
  | nil : Runs state [] [] []
  | register {requests : List (Request σ)} {calls : List Call} {answers : List Json}
      (hruns : Runs state requests calls answers) (tool? : Option (Tool σ)) :
      Runs state (requests ++ [.register tool?]) calls answers
  | unknown {requests : List (Request σ)} {calls : List Call} {answers : List Json}
      {name : Bytes} {input answer : Json} (hruns : Runs state requests calls answers)
      (hunknown : ∀ position tool, ¬ Serves requests name position tool)
      (hnames : answer.NamesTool) (hfailure : answer.ReportsFailure) :
      Runs state (requests ++ [.run name input]) calls (answers ++ [answer])
  | served {requests : List (Request σ)} {calls : List Call} {answers : List Json}
      {name : Bytes} {input answer : Json} {position : Nat} {tool : Tool σ}
      (hruns : Runs state requests calls answers) (hserves : Serves requests name position tool)
      (hanswers : tool.Answers input (after requests state).state answer) :
      Runs state (requests ++ [.run name input])
        (calls ++ callsFor position input
          ((tool.objection? input).run (after requests state).state).1)
        (answers ++ [answer])

/-! ### Which tool serves a name -/

section Serving

variable {requests : List (Request σ)} {request : Request σ} {name : Bytes} {position : Nat}
  {tool : Tool σ}

theorem getElem?_concat_eq_some {found : Request σ} :
    (requests ++ [request])[position]? = some found ↔
      requests[position]? = some found ∨ (position = requests.length ∧ request = found) := by
  rcases Nat.lt_trichotomy position requests.length with hbefore | rfl | hbehind
  · rw [List.getElem?_append_left hbefore]
    exact (or_iff_left fun hlast => Nat.ne_of_lt hbefore hlast.1).symm
  · rw [List.getElem?_concat_length, List.getElem?_eq_none (Nat.le_refl _)]
    simp
  · rw [List.getElem?_eq_none (Nat.le_of_lt hbehind),
      List.getElem?_eq_none (by simpa using Nat.succ_le_of_lt hbehind)]
    simp [Nat.ne_of_gt hbehind]

theorem serves_concat : Serves (requests ++ [request]) name position tool ↔
    (position = requests.length ∧ request = .register (some tool) ∧ tool.name = name) ∨
      (Serves requests name position tool ∧
        ∀ other, request = .register (some other) → other.name ≠ name) := by
  constructor
  · rintro ⟨hregistered, hnamed, hlast⟩
    rcases getElem?_concat_eq_some.mp hregistered with hbefore | ⟨rfl, rfl⟩
    · refine .inr ⟨⟨hbefore, hnamed, fun later other hlater hother => ?_⟩, ?_⟩
      · exact hlast later other hlater (getElem?_concat_eq_some.mpr (.inl hother))
      · rintro other rfl
        exact hlast requests.length other (List.getElem?_eq_some_iff.mp hbefore).1
          (getElem?_concat_eq_some.mpr (.inr ⟨rfl, rfl⟩))
    · exact .inl ⟨rfl, rfl, hnamed⟩
  · rintro (⟨rfl, rfl, hnamed⟩ | ⟨⟨hregistered, hnamed, hlast⟩, hother⟩)
    · refine ⟨getElem?_concat_eq_some.mpr (.inr ⟨rfl, rfl⟩), hnamed, ?_⟩
      intro later other hlater hfound
      rcases getElem?_concat_eq_some.mp hfound with hbefore | ⟨rfl, -⟩
      · exact absurd (List.getElem?_eq_some_iff.mp hbefore).1 (Nat.not_lt_of_lt hlater)
      · exact absurd hlater (Nat.lt_irrefl _)
    · refine ⟨getElem?_concat_eq_some.mpr (.inl hregistered), hnamed, ?_⟩
      intro later other hlater hfound
      rcases getElem?_concat_eq_some.mp hfound with hbefore | ⟨-, rfl⟩
      · exact hlast later other hlater hbefore
      · exact hother other rfl

theorem watchRequest_eq_register {watching : Tool (Watched σ)} :
    watchRequest position request = .register (some watching) ↔
      ∃ tool, request = .register (some tool) ∧ watch position tool = watching := by
  constructor
  · intro heq
    rcases request with (_ | tool) | ⟨name, input⟩
    · cases heq
    · cases heq
      exact ⟨tool, rfl, rfl⟩
    · cases heq
  · rintro ⟨tool, rfl, rfl⟩
    rfl

theorem watched_getElem?_eq_register {watching : Tool (Watched σ)} :
    (watched requests)[position]? = some (.register (some watching)) ↔
      ∃ tool, requests[position]? = some (.register (some tool)) ∧
        watch position tool = watching := by
  rw [watched, List.getElem?_mapIdx, Option.map_eq_some_iff]
  constructor
  · rintro ⟨request, hrequest, hwatch⟩
    obtain ⟨tool, rfl, htool⟩ := watchRequest_eq_register.mp hwatch
    exact ⟨tool, hrequest, htool⟩
  · rintro ⟨tool, hrequest, htool⟩
    exact ⟨_, hrequest, watchRequest_eq_register.mpr ⟨tool, rfl, htool⟩⟩

theorem watched_concat (requests : List (Request σ)) (request : Request σ) :
    watched (requests ++ [request]) = watched requests ++ [watchRequest requests.length request] :=
  List.mapIdx_concat

/-- A name is served by the watched tool of the one that serves it. -/
theorem serves_watched {watching : Tool (Watched σ)} :
    Serves (watched requests) name position watching ↔
      ∃ tool, Serves requests name position tool ∧ watch position tool = watching := by
  constructor
  · rintro ⟨hregistered, hnamed, hlast⟩
    obtain ⟨tool, hrequest, rfl⟩ := watched_getElem?_eq_register.mp hregistered
    refine ⟨tool, ⟨hrequest, hnamed, fun later other hlater hother => ?_⟩, rfl⟩
    exact hlast later (watch later other) hlater
      (watched_getElem?_eq_register.mpr ⟨other, hother, rfl⟩)
  · rintro ⟨tool, ⟨hregistered, hnamed, hlast⟩, rfl⟩
    refine ⟨watched_getElem?_eq_register.mpr ⟨tool, hregistered, rfl⟩, hnamed, ?_⟩
    intro later watching hlater hfound
    obtain ⟨other, hother, rfl⟩ := watched_getElem?_eq_register.mp hfound
    exact hlast later other hlater hother

end Serving

variable [Logging σ] {requests : List (Request σ)} {name : Bytes} {tool : Tool σ}

theorem after_concat (requests : List (Request σ)) (request : Request σ) (state : σ) :
    after (requests ++ [request]) state = (after requests state).act request :=
  List.foldl_concat ..

theorem tools_act (session : Session σ) (request : Request σ) :
    (session.act request).registry.tools =
      match request with
      | .register (some tool) => Table.insert tool.name tool session.registry.tools
      | _ => session.registry.tools := by
  rcases request with (_ | tool) | ⟨name, input⟩
  · rfl
  · rfl
  · rfl

theorem increasing_tools (requests : List (Request σ)) (state : σ) :
    (after requests state).registry.tools.Increasing := by
  induction requests using List.reverseRecOn with
  | nil => exact Table.increasing_nil
  | append_singleton requests request ih =>
    rw [after_concat, tools_act]
    split
    · exact ih.insert _ _
    · exact ih

theorem mem_names_after (state : σ) :
    name ∈ (after requests state).registry.names ↔
      ∃ tool, .register (some tool) ∈ requests ∧ tool.name = name := by
  induction requests using List.reverseRecOn with
  | nil =>
    refine iff_of_false List.not_mem_nil ?_
    rintro ⟨tool, hmem, -⟩
    cases hmem
  | append_singleton requests request ih =>
    rw [Registry.names, after_concat, tools_act]
    simp only [List.mem_append, List.mem_singleton, or_and_right, exists_or, ← ih]
    split
    · rename_i added
      rw [Table.mem_keys_insert, or_comm]
      refine or_congr_right ⟨?_, ?_⟩
      · rintro rfl
        exact ⟨added, rfl, rfl⟩
      · rintro ⟨tool, ⟨⟩, rfl⟩
        rfl
    · rename_i hother
      refine (or_iff_left ?_).symm
      rintro ⟨tool, rfl, -⟩
      exact hother tool rfl

/-- A name is looked up as the last tool that was registered under it. -/
theorem find?_after (state : σ) :
    (after requests state).registry.find? name = some tool ↔
      ∃ position, Serves requests name position tool := by
  induction requests using List.reverseRecOn with
  | nil =>
    constructor
    · rintro ⟨⟩
    · rintro ⟨position, ⟨hregistered⟩⟩
      cases hregistered
  | append_singleton requests request ih =>
    rw [Registry.find?, after_concat, tools_act]
    simp only [serves_concat, exists_or, exists_and_right, exists_eq, true_and, ← ih]
    split
    · rename_i added
      by_cases hname : added.name = name
      · rw [← hname, Table.find?_insert_self]
        constructor
        · rintro ⟨⟩
          exact .inl ⟨rfl, rfl⟩
        · rintro (⟨⟨⟩, -⟩ | ⟨-, hother⟩)
          · rfl
          · exact absurd rfl (hother added rfl)
      · rw [Table.find?_insert_of_ne (Ne.symm hname)]
        constructor
        · refine fun hfound => .inr ⟨hfound, ?_⟩
          rintro other ⟨⟩
          exact hname
        · rintro (⟨⟨⟩, heq⟩ | ⟨hfound, -⟩)
          · exact absurd heq hname
          · exact hfound
    · rename_i hother
      constructor
      · exact fun hfound => .inr ⟨hfound, fun other heq => absurd heq (hother other)⟩
      · rintro (⟨heq, -⟩ | ⟨hfound, -⟩)
        · exact absurd heq (hother tool)
        · exact hfound

/-! ### What is seen of the calls -/

theorem find?_watched {position : Nat} (hserves : Serves requests name position tool) (state : σ) :
    (after (watched requests) ⟨state, []⟩).registry.find? name = some (watch position tool) :=
  (find?_after _).mpr ⟨position, serves_watched.mpr ⟨tool, hserves, rfl⟩⟩

theorem isSome_find?_watched (requests : List (Request σ)) (state : σ) (name : Bytes) :
    ((after (watched requests) ⟨state, []⟩).registry.find? name).isSome =
      ((after requests state).registry.find? name).isSome := by
  rw [Bool.eq_iff_iff, Option.isSome_iff_exists, Option.isSome_iff_exists]
  simp only [find?_after, serves_watched]
  constructor
  · rintro ⟨-, position, tool, hserves, -⟩
    exact ⟨tool, position, hserves⟩
  · rintro ⟨tool, position, hserves⟩
    exact ⟨_, position, tool, hserves, rfl⟩

/-- With watched tools the same answers are given and the same state is reached, and all the calls
are noted. -/
theorem runs_watched (requests : List (Request σ)) (state : σ) :
    ∃ calls, (after (watched requests) ⟨state, []⟩).state = ⟨(after requests state).state, calls⟩ ∧
      (after (watched requests) ⟨state, []⟩).answers = (after requests state).answers ∧
      Runs state requests calls (after requests state).answers := by
  induction requests using List.reverseRecOn with
  | nil => exact ⟨[], rfl, rfl, .nil⟩
  | append_singleton requests request ih =>
    obtain ⟨calls, hstate, hanswers, hruns⟩ := ih
    rw [watched_concat, after_concat, after_concat]
    rcases request with tool? | ⟨name, input⟩
    · refine ⟨calls, ?_, hanswers, hruns.register tool?⟩
      change (Registry.register _ (after (watched requests) ⟨state, []⟩).registry
        (after (watched requests) ⟨state, []⟩).state).2 = _
      rw [hstate]
      exact Registry.register_watch (isSome_find?_watched requests state) _ _ _ _
    -- Which tool is found depends on the requests alone, so it is the same one with its calls noted.
    · simp only [watchRequest, act, hstate, hanswers]
      cases hfound : (after requests state).registry.find? name with
      | none =>
        have hwatching : (after (watched requests) ⟨state, []⟩).registry.find? name = none := by
          rw [← Option.not_isSome_iff_eq_none, isSome_find?_watched, hfound]
          exact Bool.false_ne_true
        rw [Registry.run_watch_unknown hfound hwatching]
        refine ⟨calls, rfl, rfl, hruns.unknown ?_ (Registry.namesTool_run _ name input _) ?_⟩
        · intro position tool hserves
          rw [(find?_after state).mpr ⟨position, hserves⟩] at hfound
          cases hfound
        · rw [Registry.run_of_find?_eq_none hfound]
          exact Registry.reportsFailure_failureAnswer _ _
      | some tool =>
        obtain ⟨position, hserves⟩ := (find?_after state).mp hfound
        rw [Registry.run_watch hfound (find?_watched hserves state)]
        exact ⟨_, rfl, rfl, hruns.served hserves (Registry.answers_run hfound input _)⟩

/-- The names are those of the registered tools, in increasing order, and each is looked up as the
last tool that was registered under it.  In the course of the requests that tool alone is called for
its name: it is asked once what speaks against the input and executed once if nothing does.  Every
call by name has an answer that names the tool.  The calls are seen on tools that do the same. -/
theorem session_gated (requests : List (Request σ)) (state : σ) :
    let session := after requests state
    let watching := after (watched requests) ⟨state, []⟩
    session.registry.names.Pairwise (· < ·) ∧
      (∀ name, name ∈ session.registry.names ↔
        ∃ tool, .register (some tool) ∈ requests ∧ tool.name = name) ∧
      (∀ name tool, session.registry.find? name = some tool ↔
        ∃ position, Serves requests name position tool) ∧
      watching.state.state = session.state ∧ watching.answers = session.answers ∧
      Runs state requests watching.state.calls watching.answers := by
  obtain ⟨calls, hstate, hanswers, hruns⟩ := runs_watched requests state
  refine ⟨increasing_tools requests state, fun name => mem_names_after state,
    fun name tool => find?_after state, ?_, hanswers, ?_⟩
  · rw [hstate]
  · rw [hstate, hanswers]
    exact hruns

/-- Of two tools of one name the first one is not called. -/
example :
    let echo : Tool Workspace :=
      ⟨text "echo", text "Says it again.", .null, fun _ => pure none, fun input => pure input⟩
    let requests := [.register (some echo), .register none, .register (some echo),
      .run (text "echo") .null]
    (after (watched requests) ⟨{ disk := ⟨[], []⟩ }, []⟩).state.calls =
      [.looked 2 .null, .executed 2 .null] := by
  rfl

end Session

end Patchwork
