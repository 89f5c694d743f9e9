import Patchwork.Tool.Basic

/-!
# Registries

A registry holds tools by name and runs them.  Whatever happens in a call, its answer is one
JSON object that names the tool.
-/

namespace Patchwork

/-- Tools under their names. -/
structure Registry (σ : Type) where
  tools : Table (Tool σ) := []

namespace Registry

variable {σ : Type} [Logging σ]

def find? (registry : Registry σ) (name : Bytes) : Option (Tool σ) :=
  Table.find? name registry.tools

/-- The names of the tools in increasing order. -/
def names (registry : Registry σ) : List Bytes :=
  Table.keys registry.tools

/-- The declarations of all tools in the order of their names. -/
def declarations (registry : Registry σ) : Json :=
  .array (registry.tools.map fun (name, tool) => tool.declaration name)

/-- Adds a tool, in the place of one of the same name; to add no tool changes nothing. -/
def register (tool? : Option (Tool σ)) (registry : Registry σ) (state : σ) : Registry σ × σ :=
  match tool? with
  | none => (registry, state)
  | some tool =>
    let state :=
      if (registry.find? tool.name).isSome then
        Logging.log .warning (text "Replacing tool: " ++ tool.name) state
      else state
    ({ tools := Table.insert tool.name tool registry.tools }, state)

/-- The answer of a call that did not succeed. -/
def failureAnswer (name error : Bytes) : Json :=
  .ofMembers [
    (text "tool_name", .string (Utf8.sanitize name)),
    (text "success", .bool false),
    (text "error", .string (Utf8.sanitize error))]

/-- A tool's result as an answer that names the tool. -/
def nameAnswer (name : Bytes) (result : Json) : Except Failure Json :=
  if (result.member? (text "tool_name")).isSome then .ok result
  else match result.setMember? (text "tool_name") (.string name) with
    | some answer => .ok answer
    | none => .error .jsonType

/-- Lets a tool look over its input and, if nothing speaks against it, runs the tool. -/
def call (name : Bytes) (tool : Tool σ) (input : Json) : ExceptT Failure (StateM σ) Json := do
  match ← tool.objection? input with
  | some objection =>
    modify (Logging.log .warning (name ++ text " input rejected: " ++ objection))
    pure (failureAnswer name objection)
  | none =>
    match nameAnswer name (← tool.execute input) with
    | .ok answer => pure answer
    | .error failure => throw failure

/-- Runs the tool of a name. -/
def run (registry : Registry σ) (name : Bytes) (input : Json) (state : σ) : Json × σ :=
  match registry.find? name with
  | none =>
    (failureAnswer name (text "failed to find tool: " ++ name),
      Logging.log .error (text "Unknown tool: " ++ name) state)
  | some tool =>
    match (call name tool input).run state with
    | (.ok answer, state) => (answer, state)
    | (.error failure, state) =>
      (failureAnswer name (text "Tool execution failed: " ++ failure.message),
        Logging.log .error (text "Tool " ++ name ++ text " threw: " ++ failure.message) state)

end Registry

end Patchwork
