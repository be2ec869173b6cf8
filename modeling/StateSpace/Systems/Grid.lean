import StateSpace.Condition
import StateSpace.Model

/-!
# Walks on a grid

A point walks right and up from the origin of a square grid, so most points are reached along many paths.

* `Grid`: the size, a boundary on the sum of the coordinates, and a point at which walking fails.
* `Grid.model`: the walks as a model.
-/

namespace StateSpace

structure Point where
  x : Int32
  y : Int32
  deriving DecidableEq, Repr

inductive Direction where
  | right
  | up
  deriving DecidableEq, Repr

structure Grid where
  size : Int32
  properties : List (Property Point) := []
  /-- Points with a greater sum of coordinates are not expanded. -/
  boundary : Option Int := none
  /-- Entering this point raises a fault. -/
  faultAt : Option Point := none

inductive Point.Coordinate where
  | x
  | y
  deriving DecidableEq, Repr

def Point.coordinate (p : Point) : Point.Coordinate → Int
  | .x => p.x.toInt
  | .y => p.y.toInt

namespace Grid

def hash (p : Point) : UInt64 := Hash.combine (Hash.combine Hash.offset p.x) p.y

def walk (p : Point) : Direction → Point
  | .right => ⟨p.x + 1, p.y⟩
  | .up => ⟨p.x, p.y + 1⟩

def model (g : Grid) : Model Point Direction where
  initStates := [⟨0, 0⟩]
  actions p := .ok ((if p.x < g.size then [.right] else []) ++ if p.y < g.size then [.up] else [])
  next p d :=
    let q := walk p d
    if q.x > g.size ∨ q.y > g.size then .ok none
    else if g.faultAt = some q then .error ⟨"model failure"⟩
    else .ok (some q)
  properties := g.properties
  withinBoundary p := .ok (match g.boundary with
    | none => true
    | some limit => p.x.toInt + p.y.toInt ≤ limit)
  hash := hash
  formatState p := s!"({p.x}, {p.y})"
  formatAction
    | .right => "Right"
    | .up => "Up"

end Grid

end StateSpace
