import Sequencer.Json.Printer
import Sequencer.Json.Reader
import Sequencer.Register

/-!
Registers as JSON documents.
-/

namespace Sequencer

open Json (Document)

def Status.toDocument (s : Status) : Document :=
  .record [("level", .integer s.level.toInt), ("on", .bool s.on)]

def StoredValue.toDocument (v : StoredValue) : Document :=
  .record [("value", .ofJson v.value), ("persist", .bool v.persist)]

def Dictionary.toDocument {α : Type} (entry : α → Document) (d : Dictionary α) : Document :=
  .record (d.entries.map fun (k, x) => (k, entry x))

def Register.toDocument (r : Register) : Document :=
  .record [("statuses", r.statuses.toDocument Status.toDocument),
    ("values", r.values.toDocument (Dictionary.toDocument StoredValue.toDocument))]

section Read

variable {m : Type → Type} [Monad m] {δ α : Type}

/-- A dictionary; of two entries of one key the later one counts, in the place of the first. -/
def Dictionary.read (r : Reader m δ) (entry : δ → m α) (part : δ) : m (Dictionary α) := do
  let entries ← (← r.entries part).mapM fun (key, part) => do return (key, ← entry part)
  return .ofList entries

def Status.read (r : Reader m δ) (part : δ) : m Status := do
  let field ← r.fields ["level", "on"] part
  let level ← r.required (field "level") r.integer
  let on ← r.required (field "on") r.bool
  return { level, on }

def StoredValue.read (r : Reader m δ) (part : δ) : m StoredValue := do
  let field ← r.fields ["value", "persist"] part
  let value ← r.required (field "value") r.value
  let persist ← r.required (field "persist") r.bool
  return { value, persist }

def Register.read (r : Reader m δ) (part : δ) : m Register := do
  let field ← r.fields ["statuses", "values"] part
  let statuses ← r.required (field "statuses") (Dictionary.read r (Status.read r))
  let values ← r.required (field "values")
    (Dictionary.read r (Dictionary.read r (StoredValue.read r)))
  return { statuses, values }

end Read

namespace Register

def toText (r : Register) : String :=
  r.toDocument.render

def ofText? (text : String) : Option Register :=
  Json.readText? (Register.read Json.reader) text

end Register

end Sequencer
