import SourceMap.Bundle.Envelope
import SourceMap.Files.Access
import SourceMap.Mappings.Error

/-!
# Bundles and files

Loading and saving, in any monad with a file system. A failure leaves the bundle as it was by then.

## Main definitions

* `BundleError` : what can go wrong, by the part of the bundle that it is about.
* `Edit` : a change of a bundle that may fail.
* `Bundle.loadMap`, `Bundle.saveMap` : the map.
* `Bundle.setText`, `Bundle.loadText`, `Bundle.saveText` : the generated file.
* `Bundle.contentsOf?`, `Bundle.loadSource`, `Bundle.fillContents` : contents of sources.
-/

namespace SourceMap

inductive BundleError where
  | mapping (e : MappingError)
  | envelope (fault : Envelope.Fault)
  | access (e : AccessError)
  deriving DecidableEq, Repr

namespace BundleError

def message : BundleError → String
  | mapping e => e.message
  | envelope fault => fault.message
  | access e => e.message

def help? : BundleError → Option String
  | mapping e => e.help?
  | envelope _ => none
  | access e => e.help?

end BundleError

/-- A change of a bundle, which comes back also where the change fails. -/
abbrev Edit (m : Type → Type) := ExceptT BundleError (StateT Bundle m)

/-- The result of a change of `b`, and the bundle after it. -/
def Edit.runOn {m : Type → Type} (x : Edit m α) (b : Bundle) :
    m (Except BundleError α × Bundle) :=
  StateT.run (ExceptT.run x) b

namespace Bundle

variable {m : Type → Type} [Monad m]

/-- An access to files as a change that leaves the bundle alone. -/
def access (x : ExceptT AccessError m α) : Edit m α := do
  match ← (x.run : m _) with
  | .error e => throw (.access e)
  | .ok a => return a

/-- Replaces the map by the one that `text` holds. -/
def setMap (text : String) : Edit m Unit := do
  match (← get).readMap text with
  | .error fault => throw (.envelope fault)
  | .ok b => set b

variable [FileSystem m]

/-! ## Maps -/

def loadMap (p : Path) : Edit m Unit := do
  let p ← access (Access.readablePath p)
  setMap (← access (Access.read p))

/-! ## Contents of sources -/

/-- The contents of a source whose URL leads to a local file that can be read. -/
def fetch? (b : Bundle) (url : String) : m (Option String) := do
  match b.urls.path? url with
  | none => return none
  | some p => return (← FileSystem.readText p).toOption

/-- The contents of a source, which are stored once they have been read. -/
def contentsOf? (url : String) : StateT Bundle m (Option String) := do
  let b ← get
  match b.sources.index? url with
  | none => return none
  | some i =>
    match b.contents.get? i with
    | some text => return some text
    | none =>
      match ← (b.fetch? url : m _) with
      | none => return none
      | some text =>
        set { b with contents := b.contents.insert i text }
        return some text

/-- Stores the contents of a local file as a source. The source is named by `url`, or else by the
URL of the path, or else by the path. -/
def loadSource (p : Path) (url : Option String) : Edit m Nat := do
  let text ← access (Access.read p)
  let b ← get
  let name ← match url with
    | some url => pure url
    | none => pure ((← (b.urls.urlOf? p : m _)).getD p.text)
  let (i, b) := b.storeContents name text
  set b
  return i

/-- Fetches contents for the given sources, as far as they can be read. -/
def fetchAll (b : Bundle) : List (Nat × String) → m Bundle
  | [] => return b
  | (i, url) :: rest => do
    match ← b.fetch? url with
    | none => b.fetchAll rest
    | some text => fetchAll { b with contents := b.contents.insert i text } rest

/-- Fetches contents for the sources that have none. -/
def fillContents : StateT Bundle m Unit := do
  let b ← get
  let missing := b.sources.entries.filter fun (i, _) => (b.contents.get? i).isNone
  set (← (b.fetchAll missing : m _))

def saveMap (p : Path) : Edit m Unit := do
  access (Access.requireWritable p)
  if (← get).embedsContents then ExceptT.lift fillContents
  access (Access.write p (← get).mapText)

/-! ## Generated files -/

/-- Takes over a generated text. With `autoload`, and if no map has been read yet, the URL that the
text refers to is kept, and the map behind it is loaded if the URL leads to a local path. -/
def setText (text : String) (autoload : Bool) : Edit m Unit := do
  if autoload && !(← get).hasMap then
    match Body.mapUrl? (Body.endLine text) with
    | none => pure ()
    | some url =>
      match (← get).urls.path? url with
      | none => pure ()
      | some p => loadMap p
      modify fun b => { b with mapUrl := some url }
  modify fun b => b.setBody text

/-- Names the generated file by the URL of its path. -/
def nameAfter (p : Path) : Edit m Unit := do
  let url ← ((← get).urls.urlOf? p : m _)
  modify fun b => { b with file := url }

def loadText (p : Path) : Edit m Unit := do
  let p ← access (Access.readablePath p)
  let text ← access (Access.read p)
  nameAfter p
  setText text true

def saveText (p : Path) (withComment : Bool) : Edit m Unit := do
  access (Access.requireWritable p)
  nameAfter p
  access (Access.write p ((← get).text withComment))

end Bundle

end SourceMap
