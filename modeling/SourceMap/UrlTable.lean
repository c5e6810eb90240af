import SourceMap.Files.FileSystem

/-!
# Local directories and their URLs

A table of pairs: a local path, and the URL under which the files below it are reached. A look-up
in either direction goes by the pair with the longest match, and among equals by the one added
last.

## Main definitions

* `UrlTable.insert` : adds a pair, in place of any other for the same path.
* `UrlTable.path?` : the local path of a URL.
* `UrlTable.url?` : the URL of a local path.
* `UrlTable.add`, `UrlTable.urlOf?` : the same for a path as a user writes it, which is settled
  first.
-/

namespace SourceMap

structure UrlTable where
  entries : List (Path × String)
  deriving DecidableEq, Repr

namespace UrlTable

def empty : UrlTable := ⟨[]⟩

def isEmpty (t : UrlTable) : Bool := t.entries.isEmpty

def insert (t : UrlTable) (p : Path) (url : String) : UrlTable :=
  ⟨t.entries.filter (·.1.components ≠ p.components) ++ [(p, url)]⟩

/-- The last of the elements with the greatest `size`. -/
def last? (size : α → Nat) (xs : List α) : Option α :=
  xs.foldl (fun best x =>
    match best with
    | none => some x
    | some b => if size b ≤ size x then some x else some b) none

/-- A URL is matched character by character, so a match may end inside a part of it. Each part of
the rest is one step down from the path of the pair. -/
def path? (t : UrlTable) (url : String) : Option Path :=
  let fits := t.entries.filter fun (_, start) => start.toList.isPrefixOf url.toList
  (last? (fun (_, start) => start.length) fits).map fun (p, start) =>
    let parts := (url.toList.drop start.length).splitOn '/'
    (parts.filter (!·.isEmpty)).foldl (fun p part => p.join (String.ofList part)) p

/-- A path is matched component by component. -/
def url? (t : UrlTable) (p : Path) : Option String :=
  let fits := t.entries.filter fun (start, _) => start.components.isPrefixOf p.components
  (last? (fun (start, _) => start.components.length) fits).map fun (start, url) =>
    match (p.components.drop start.components.length).map (·.text) with
    | [] => url
    | parts =>
      String.ofList (Text.dropEndWhile (· = '/') url.toList) ++ "/" ++ "/".intercalate parts

variable {m : Type → Type} [Monad m] [FileSystem m]

def add (t : UrlTable) (p : Path) (url : String) : m UrlTable := do
  return t.insert (← FileSystem.settle p) url

def urlOf? (t : UrlTable) (p : Path) : m (Option String) := do
  return t.url? (← FileSystem.settle p)

end UrlTable

end SourceMap
