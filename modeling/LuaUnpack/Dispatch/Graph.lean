import LuaUnpack.Dispatch.Path

/-!
# Dispatch trees put together by hand

A tree of tests can also be built vertex by vertex, each with the place below a
vertex that it goes to. Nothing is checked while building: a place can be taken
twice, in which case the later vertex has it, and a vertex can be put below one that
makes no test or does not exist.
-/

namespace LuaUnpack.Dispatch

open LuaUnpack.Lua

/-- The place below a vertex, for one outcome of its test. -/
structure Place where
  parent : Nat
  outcome : Bool
deriving DecidableEq, Repr

/-- What a vertex holds. -/
inductive VertexKind where
  | branch (test : Test)
  | leaf (body : Block)

/-- A vertex with the place it goes to, unless it is a root. -/
structure Vertex where
  kind : VertexKind
  place : Option Place

/-- Vertices by number. -/
structure Graph where
  vertices : List Vertex := []

namespace Graph

/-- Adds a vertex; its number is the number of those before it. -/
def push (graph : Graph) (kind : VertexKind) (place : Option Place) : Graph × Nat :=
  (⟨graph.vertices ++ [⟨kind, place⟩]⟩, graph.vertices.length)

/-- Adds a test. -/
def addBranch (graph : Graph) (place : Option Place) (op : BinaryOp) (constant : Int) :
    Graph × Nat :=
  graph.push (.branch ⟨op, constant⟩) place

/-- Adds a piece of code. -/
def addLeaf (graph : Graph) (place : Place) (body : Block) : Graph × Nat :=
  graph.push (.leaf body) (some place)

/-- The test of a vertex. -/
def test? (graph : Graph) (id : Nat) : Option Test :=
  match graph.vertices[id]? with
  | some ⟨.branch test, _⟩ => some test
  | _ => none

/-- The path up from a place. A graph in which the way goes in a circle is cut
    off after as many steps as there are vertices. -/
def pathFrom (graph : Graph) : (fuel : Nat) → Option Place → Path
  | _, none => ⟨[], .root⟩
  | 0, some _ => ⟨[], .blocked⟩
  | fuel + 1, some place =>
    match graph.vertices[place.parent]? with
    | none => ⟨[], .missing⟩
    | some ⟨.leaf _, _⟩ => ⟨[], .blocked⟩
    | some ⟨.branch test, above⟩ =>
      let rest := graph.pathFrom fuel above
      ⟨(test, place.outcome) :: rest.steps, rest.top⟩

/-- The pieces of code that have a place below an earlier test, which no later
    vertex takes from them; the number of the first vertex is given. -/
def leavesFrom (graph : Graph) (id : Nat) : List Vertex → List Leaf
  | [] => []
  | ⟨.leaf body, some place⟩ :: rest =>
    let taken := rest.any fun v => v.place == some place
    match graph.test? place.parent with
    | some test =>
      if place.parent < id && !taken then
        ⟨test.range place.outcome, graph.pathFrom (graph.vertices.length + 1) (some place), body⟩
          :: graph.leavesFrom (id + 1) rest
      else
        graph.leavesFrom (id + 1) rest
    | none => graph.leavesFrom (id + 1) rest
  | _ :: rest => graph.leavesFrom (id + 1) rest

/-- Every test, in the order of the vertices. -/
def tests (graph : Graph) : List Test :=
  graph.vertices.filterMap fun v =>
    match v.kind with
    | .branch test => some test
    | .leaf _ => none

/-- The bodies of a graph by state. -/
def solve (graph : Graph) : Except Error (Dict Int Block) := do
  graph.tests.forM Test.check
  solveLeaves (graph.leavesFrom 0 graph.vertices)

end Graph

end LuaUnpack.Dispatch
