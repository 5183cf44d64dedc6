import Sequencer.Json.Basic
import Sequencer.Timer

/-!
Units of time as JSON values: the name of the unit, alone or as the only member of an object, with
nothing under it.
-/

namespace Sequencer

namespace Timer.Unit

def name : Unit → String
  | .microseconds => "microseconds"
  | .milliseconds => "milliseconds"
  | .seconds => "seconds"
  | .minutes => "minutes"

def all : List Unit := [.microseconds, .milliseconds, .seconds, .minutes]

def ofName? (text : String) : Option Unit :=
  all.find? fun unit => unit.name = text

def ofJson? : Json → Option Unit
  | .string text => ofName? text
  | .object [(text, .null)] => ofName? text
  | _ => none

end Timer.Unit

end Sequencer
