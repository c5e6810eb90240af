import SourceMap.Mappings.Basic

/-!
# Steps on mapping text

Mapping text changes step by step. A step that fails leaves it as it was.

## Main definitions

* `Mappings.Step` : what can be done to mapping text.
* `Mappings.after` : the mapping text after steps on an empty one.
* `Mappings.lastText`, `Mappings.since` : the text that was taken over last, and the steps since.
* `Mappings.Step.onLines` : a step on a plain list of lines.
-/

namespace SourceMap.Mappings

inductive Step where
  | takeOver (text : String)
  | append (line : Line)
  | extendTo (lines : Nat)
  | resume (limits : Limits)
  deriving DecidableEq, Repr

namespace Step

def run (m : Mappings) : Step → Except MappingError Mappings
  | takeOver text => .ok (ofText text)
  | append line => m.append line
  | extendTo lines => .ok (m.extendTo lines)
  | resume limits => m.resume limits

/-- The mapping text that is there afterwards, also where the step failed. -/
def apply (m : Mappings) (s : Step) : Mappings :=
  match s.run m with
  | .ok n => n
  | .error _ => m

/-- The text that is taken over. -/
def text? : Step → Option String
  | takeOver text => some text
  | append _ | extendTo _ | resume _ => none

/-- What a step adds to a plain list of lines. -/
def onLines (lines : List Line) : Step → List Line
  | append line => lines ++ [line]
  | extendTo n => lines.rightpad n []
  | takeOver _ | resume _ => lines

end Step

def after (steps : List Step) : Mappings := steps.foldl Step.apply empty

/-- The text that was taken over last, which is empty as long as there was none. -/
def lastText (steps : List Step) : String := steps.foldl (fun last s => s.text?.getD last) ""

/-- The steps since a text was taken over last. -/
def since (steps : List Step) : List Step :=
  steps.foldl (fun done s => if s.text?.isSome then [] else done ++ [s]) []

end SourceMap.Mappings
