import Sequencer.Json.Reader
import Sequencer.Yaml.Reader

/-!
Loading documents from files. The name of a file decides its format: names that end in `.json`, in
whatever case, are JSON and all others are YAML. An error names the kind of document and the file.
-/

namespace Sequencer

inductive Subject where
  | engineConfig
  | workflowDesign
deriving Repr, DecidableEq

def Subject.name : Subject → String
  | .engineConfig => "engine configuration"
  | .workflowDesign => "workflow design"

inductive LoadError where
  | read (subject : Subject) (file : String)
  /-- The text is no such document; there is no file when the text was given as such. -/
  | parse (subject : Subject) (file : Option String)
deriving Repr, DecidableEq

def LoadError.message : LoadError → String
  | .read subject file => "Failed to read " ++ subject.name ++ ": " ++ file
  | .parse subject none => "Failed to parse " ++ subject.name
  | .parse subject (some file) => "Failed to parse " ++ subject.name ++ ": " ++ file

def extension? (file : String) : Option String :=
  let reversed := file.toList.reverse
  let stem := (reversed.dropWhile (· ≠ '.')).drop 1
  if stem.isEmpty then none else some (.ofList (reversed.takeWhile (· ≠ '.')).reverse)

def isJsonFile (file : String) : Bool :=
  (extension? file).any fun e => e.map Char.toLower = "json"

class Loadable (α : Type) where
  subject : Subject
  read : {m : Type → Type} → [Monad m] → {δ : Type} → Reader m δ → δ → m α

namespace Loadable

variable {α : Type} [Loadable α]

def ofJsonText? (text : String) : Option α :=
  Json.readText? (read Json.reader) text

def ofYamlText? (text : String) : Option α :=
  Yaml.readText? (fun d => read (Yaml.reader d)) text

def parse (text : String) : Except LoadError α :=
  match ofYamlText? text with
  | some value => .ok value
  | none => .error (.parse (subject α) none)

def load (file : String) (content : Option ByteArray) : Except LoadError α :=
  match content.bind String.fromUTF8? with
  | none => .error (.read (subject α) file)
  | some text =>
    match (if isJsonFile file then ofJsonText? text else ofYamlText? text : Option α) with
    | some value => .ok value
    | none => .error (.parse (subject α) (some file))

end Loadable

end Sequencer
