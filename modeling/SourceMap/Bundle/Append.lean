import SourceMap.Bundle.Lines

/-!
# Concatenating bundles

A bundle is appended to another as if the generated file of the one were written behind that of the
other. Lines are read with the tables of the one and written with those of the other.

## Main definitions

* `Bundle.align` : makes the body and the mappings cover the same lines.
* `Bundle.append` : adds a bundle at the end of another.
* `Bundle.concat` : the bundles of a list one after another.
-/

namespace SourceMap.Bundle

/-- Adds empty lines to the body or to the mappings, whichever is shorter. Where there is no body,
the mappings alone tell which lines there are. -/
def align (b : Bundle) : Bundle :=
  match b.body with
  | none => b
  | some body =>
    let lines := max (Body.lineCount body) b.mappings.lineCount
    { b with
      body := some (body ++ Body.emptyLines (lines - Body.lineCount body))
      mappings := b.mappings.extendTo lines }

/-- Adds `text` to the body, which comes to be if there is none. -/
def appendBody (b : Bundle) (text : String) : Bundle :=
  { b with body := some (b.body.getD "" ++ text) }

/-- Stores contents that `sources` has, under the names of their sources. -/
def storeAll (b : Bundle) (sources : StringTable) :
    List (Nat × String) → Except MappingError Unit × Bundle
  | [] => (.ok (), b)
  | (i, contents) :: rest =>
    match sources.get i with
    | .error e => (.error e, b)
    | .ok source => (b.storeContents source contents).2.storeAll sources rest

/-- The bundle with `donor` behind it. The bundle that comes with an error is what had been reached
by then. The URL of the map is forgotten, for it is not that of the new map. -/
def append (b donor : Bundle) : Except MappingError Unit × Bundle :=
  match donor.namedLines with
  | .error e => (.error e, b)
  | .ok lines =>
    match b.mappings.resume b.limits with
    | .error e => (.error e, b)
    | .ok mappings =>
      let b := { b with mappings }
      let b := if donor.body.isSome then b.appendBody "" else b
      match b.align.addNamedLines lines with
      | (.error e, b) => (.error e, b)
      | (.ok (), b) =>
        let b :=
          match donor.body with
          | none => b
          | some text => b.appendBody text
        let b := { b.align with mapUrl := none }
        match b.storeAll donor.sources donor.contents.entries with
        | (.error e, b) => (.error e, b)
        | (.ok (), b) =>
          let embeds := donor.embedsContents || !donor.contents.isEmpty
          (.ok (), { b with embedsContents := b.embedsContents || embeds })

/-- Appends bundles one after another, up to the first that cannot be appended. -/
def appendAll (b : Bundle) : List Bundle → Except MappingError Bundle
  | [] => .ok b
  | donor :: rest =>
    match b.append donor with
    | (.error e, _) => .error e
    | (.ok (), b) => b.appendAll rest

def concat (bundles : List Bundle) : Except MappingError Bundle :=
  (empty .empty).appendAll bundles

end SourceMap.Bundle
