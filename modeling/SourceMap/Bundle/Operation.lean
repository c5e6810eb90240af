import SourceMap.Bundle.Append
import SourceMap.Bundle.Files

/-!
# What can be done to a bundle

Every operation by which a program changes a bundle, whatever the files are.

## Main definitions

* `Operation` : the operations.
* `Operation.run` : an operation as a change that may fail.
* `Operation.apply` : the bundle that is there afterwards, also where the operation failed.
* `Bundle.Reachable` : the bundles that operations lead to.
-/

namespace SourceMap

inductive Operation where
  | setFile (file : Option String)
  | setSourceRoot (root : Option String)
  | setMapUrl (url : Option String)
  | setEmbedsContents (embedsContents : Bool)
  | setUrls (urls : UrlTable)
  | internSource (source : String)
  | internName (name : String)
  | addLine (line : Line)
  | addNamedLine (line : NamedLine)
  | storeContents (source contents : String)
  | append (donor : Bundle)
  | setMap (text : String)
  | loadMap (p : Path)
  | saveMap (p : Path)
  | contentsOf (source : String)
  | loadSource (p : Path) (url : Option String)
  | fillContents
  | setText (text : String) (autoload : Bool)
  | loadText (p : Path)
  | saveText (p : Path) (withComment : Bool)

namespace Operation

variable {m : Type → Type} [Monad m]

/-- A change that leaves the bundle that it reached also where it fails. -/
def changeTo (change : Bundle → Except MappingError Unit × Bundle) : Edit m Unit := do
  let (result, b) := change (← get)
  set b
  match result with
  | .error e => throw (.mapping e)
  | .ok () => return

def run [FileSystem m] : Operation → Edit m Unit
  | setFile file => modify fun b => { b with file }
  | setSourceRoot root => modify fun b => { b with sourceRoot := root }
  | setMapUrl url => modify fun b => { b with mapUrl := url }
  | setEmbedsContents embedsContents => modify fun b => { b with embedsContents }
  | setUrls urls => modify fun b => { b with urls }
  | internSource source => modify fun b => (b.internSource source).2
  | internName name => modify fun b => (b.internName name).2
  | addLine line => changeTo fun b =>
    match b.addLine line with
    | .error e => (.error e, b)
    | .ok b => (.ok (), b)
  | addNamedLine line => changeTo fun b => b.addNamedLine line
  | storeContents source contents => modify fun b => (b.storeContents source contents).2
  | append donor => changeTo fun b => b.append donor
  | setMap text => Bundle.setMap text
  | loadMap p => Bundle.loadMap p
  | saveMap p => Bundle.saveMap p
  | contentsOf source => discard (ExceptT.lift (Bundle.contentsOf? source))
  | loadSource p url => discard (Bundle.loadSource p url)
  | fillContents => ExceptT.lift Bundle.fillContents
  | setText text autoload => Bundle.setText text autoload
  | loadText p => Bundle.loadText p
  | saveText p withComment => Bundle.saveText p withComment

/-- The bundle after an operation on `b`, where the files are `files` at first. -/
def apply {σ : Type} [FileSystem (StateM σ)] (op : Operation) (b : Bundle) (files : σ) : Bundle :=
  ((op.run.runOn b : StateM σ _).run files).1.2

end Operation

namespace Bundle

/-- The bundles that operations lead to from an empty one. The files may be any, and change in any
way between the operations. -/
inductive Reachable : Bundle → Prop where
  | empty (urls : UrlTable) : Reachable (empty urls)
  | step {b : Bundle} (hb : Reachable b) (op : Operation)
      (hdonor : ∀ donor, op = .append donor → Reachable donor) {σ : Type}
      [FileSystem (StateM σ)] (files : σ) : Reachable (op.apply b files)

end Bundle

end SourceMap
