import PathDoc.Tree.Children

/-!
# PathDoc.Tree.Query — reading the nodes at a path

A reader walks level by level, in the order of the segments. A missing member and a node of
another kind select nothing; a spelled index without a place in an array is an error.
-/

namespace PathDoc

open Json

/-- An index that has no place in the array of that length at a location. -/
structure Outside where
  place : Location
  index : Int
  length : Nat
deriving DecidableEq, Repr

/-- A node and the way to it. -/
abbrev Site := Location × Value

namespace Query

/-- The sites one segment away from a site. -/
def fromSite (s : Segment) (site : Site) : Except Outside (List Site) :=
  match s.outside? site.2 with
  | some (i, n) => .error ⟨site.1, i, n⟩
  | none => .ok ((s.children site.2).map fun c => (site.1 ++ [c.1], c.2))

/-- The sites one segment away from a list of sites; the first fault counts. -/
def fromSites (s : Segment) : List Site → Except Outside (List Site)
  | [] => .ok []
  | site :: more =>
    match fromSite s site with
    | .error e => .error e
    | .ok sites => (fromSites s more).map (sites ++ ·)

/-- The sites a path leads to from a list of sites. -/
def follow : Path → List Site → Except Outside (List Site)
  | [], sites => .ok sites
  | s :: rest, sites =>
    match fromSites s sites with
    | .error e => .error e
    | .ok sites => follow rest sites

@[simp] theorem fromSites_nil (s : Segment) : fromSites s [] = .ok [] := rfl

@[simp] theorem follow_nil (sites : List Site) : follow [] sites = .ok sites := rfl

theorem follow_cons (s : Segment) (rest : Path) (sites : List Site) :
    follow (s :: rest) sites =
      match fromSites s sites with
      | .error e => .error e
      | .ok sites => follow rest sites := rfl

end Query

/-- The sites that a path selects. -/
def Json.Value.sites (root : Value) (path : Path) : Except Outside (List Site) :=
  Query.follow path [([], root)]

/-- The nodes that a path selects. -/
def Json.Value.query (root : Value) (path : Path) : Except Outside (List Value) :=
  (root.sites path).map fun sites => sites.map Prod.snd

end PathDoc
