import IndexAdvice.Clauses
import IndexAdvice.Sorting
import IndexAdvice.Index.Advice

/-!
# The join graph

Tables are nodes, and an edge from `a` to `b` says that a query on `a` joins `b`. Table names of
query text are folded onto declared subjects where they match by naming convention. A table that is
joined with itself makes no edge, so every node has one. Reading the same queries into a graph again
adds to its counts and to nothing else.
-/

namespace IndexAdvice

/-- The joins of one table with another. -/
structure JoinEdge where
  source : String
  target : String
  /-- The joined columns, as equations. -/
  columns : List String := []
  kinds : List JoinKind := []
  /-- How many joins there are. -/
  count : Nat := 0
deriving DecidableEq, Repr

/-- The equation of the joined columns, if both are known. -/
def Join.equation? (j : Join) : Option String :=
  match j.localColumn, j.remoteColumn with
  | some l, some r => if l.isEmpty || r.isEmpty then none else some (l ++ " = " ++ r)
  | _, _ => none

namespace JoinEdge

/-- An edge after one more join. -/
def add (e : JoinEdge) (j : Join) : JoinEdge :=
  { e with
    count := e.count + 1
    kinds := addNew e.kinds j.kind
    columns := match j.equation? with
      | some eq => addNew e.columns eq
      | none => e.columns }

/-- The keywords of an edge's kinds of join, in alphabetical order. -/
def keywords (e : JoinEdge) : List String :=
  sortTexts (e.kinds.map (·.keyword))

end JoinEdge

/-- A graph of joins; nodes and edges are in order of arrival. -/
structure JoinGraph where
  nodes : List String := []
  edges : List JoinEdge := []
deriving DecidableEq, Repr

namespace JoinGraph

/-! ### Building -/

/-- The graph after a join between two tables. -/
def addEdge (g : JoinGraph) (source target : String) (j : Join) : JoinGraph :=
  let between (e : JoinEdge) := e.source == source && e.target == target
  if g.edges.any between then
    { g with edges := g.edges.map fun e => if between e then e.add j else e }
  else
    { nodes := addNew (addNew g.nodes source) target
      edges := g.edges ++ [JoinEdge.add { source, target } j] }

/-- The graph after a join of a query on `source`; `subjects` maps variants to node names. -/
def addJoin (subjects : List (String × String)) (source : String) (g : JoinGraph) (j : Join) :
    JoinGraph :=
  let target := (subjects.lookup (Text.lower j.remoteTable)).getD j.remoteTable
  if j.remoteTable.isEmpty || target == source then g else g.addEdge source target j

/-- The node of every variant of a subject. -/
def subjectNodes (snakeCaseTables : Bool) (records : List (Query × Clauses)) :
    List (String × String) :=
  (Advice.subjects records).map fun (v, name) =>
    (v, if snakeCaseTables then snakeCase name else name)

/-- The node of a query's table. -/
def sourceNode (snakeCaseTables : Bool) (subjects : List (String × String)) (query : Query) :
    String :=
  (subjects.lookup (Text.lower query.table)).getD
    (if snakeCaseTables then snakeCase query.table else query.table)

/-- The graph after the joins of queries. -/
def addRecords (snakeCaseTables : Bool) (records : List (Query × Clauses)) (g : JoinGraph) :
    JoinGraph :=
  let subjects := subjectNodes snakeCaseTables records
  records.foldl (fun g (query, clauses) =>
    clauses.joins.foldl (addJoin subjects (sourceNode snakeCaseTables subjects query)) g) g

/-- The graph of the joins of queries. -/
def ofRecords (snakeCaseTables : Bool) (records : List (Query × Clauses)) : JoinGraph :=
  addRecords snakeCaseTables records {}

/-! ### Degrees and edges -/

/-- The number of edges into a node. -/
def inDegree (g : JoinGraph) (node : String) : Nat :=
  g.edges.countP (·.target == node)

/-- The number of edges out of a node. -/
def outDegree (g : JoinGraph) (node : String) : Nat :=
  g.edges.countP (·.source == node)

/-- The edges in the order of their source nodes. -/
def edgesBySource (g : JoinGraph) : List JoinEdge :=
  g.nodes.flatMap fun node => g.edges.filter (·.source == node)

/-! ### Clusters -/

/-- The clusters after two tables turn out to be connected. -/
def connect (clusters : List (List String)) (a b : String) : List (List String) :=
  let touches (cluster : List String) := cluster.contains a || cluster.contains b
  (clusters.filter fun c => !touches c) ++ [([a, b] ++ (clusters.filter touches).flatten).eraseDups]

/-- The alphabetical order of lists: the first names in which they differ decide, and a list comes
before those that go on from it. -/
def listLe : List String → List String → Bool
  | [], _ => true
  | _ :: _, [] => false
  | a :: as, b :: bs => if a == b then listLe as bs else a ≤ b

/-- The groups of tables that are connected by joins in whatever direction, in alphabetical order
inside and among each other. -/
def clusters (g : JoinGraph) : List (List String) :=
  let connected := g.edges.foldl (fun clusters e => connect clusters e.source e.target) []
  sortBy listLe (connected.map sortTexts)

/-! ### Hotspots -/

/-- A table with the number of its edges. -/
structure Hotspot where
  table : String
  /-- Edges into the table. -/
  joinedBy : Nat
  /-- Edges out of the table. -/
  joins : Nat
deriving DecidableEq, Repr

/-- The number of all edges at the table. -/
def Hotspot.degree (h : Hotspot) : Nat :=
  h.joinedBy + h.joins

/-- More edges come first, and of equally many the alphabetically first table. -/
def Hotspot.le (a b : Hotspot) : Bool :=
  b.degree < a.degree || (a.degree == b.degree && a.table ≤ b.table)

/-- The ten tables with the most edges. -/
def hotspots (g : JoinGraph) : List Hotspot :=
  (sortBy Hotspot.le (g.nodes.map fun node => ⟨node, g.inDegree node, g.outDegree node⟩)).take 10

end JoinGraph

end IndexAdvice
