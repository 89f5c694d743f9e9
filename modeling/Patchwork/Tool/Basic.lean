import Patchwork.Failure
import Patchwork.Json.Basic
import Patchwork.Workspace

/-!
# Tools

A tool is called by name with a JSON value.  A call has two parts: the input is looked over
without changing anything, and only if nothing speaks against it is the tool run.
-/

namespace Patchwork

/-- States that keep a log. -/
class Logging (σ : Type) where
  log : Log.Level → Bytes → σ → σ

instance : Logging Workspace where
  log := Workspace.log

/-- A tool whose calls may change a state of type `σ` and may fail. -/
structure Tool (σ : Type) where
  name : Bytes
  description : Bytes
  /-- The JSON schema of the input. -/
  schema : Json
  /-- What speaks against an input, if anything does. -/
  objection? : Json → ExceptT Failure (StateM σ) (Option Bytes)
  execute : Json → ExceptT Failure (StateM σ) Json

namespace Tool

/-- The declaration of a tool as a function. -/
def declaration {σ : Type} (name : Bytes) (tool : Tool σ) : Json :=
  .ofMembers [
    (text "type", .string (text "function")),
    (text "function", .ofMembers [
      (text "name", .string name),
      (text "description", .string tool.description),
      (text "parameters", tool.schema)])]

/-- A step on a part of a larger state. -/
def lift {σ τ α : Type} (get : τ → σ) (set : σ → τ → τ) (step : ExceptT Failure (StateM σ) α) :
    ExceptT Failure (StateM τ) α :=
  fun state =>
    let (result, part) := step (get state)
    (result, set part state)

/-- A tool whose state is a part of a larger one. -/
def onPart {σ τ : Type} (get : τ → σ) (set : σ → τ → τ) (tool : Tool σ) : Tool τ where
  name := tool.name
  description := tool.description
  schema := tool.schema
  objection? input := lift get set (tool.objection? input)
  execute input := lift get set (tool.execute input)

end Tool

end Patchwork
