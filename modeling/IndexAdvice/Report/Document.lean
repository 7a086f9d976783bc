import IndexAdvice.Json
import IndexAdvice.Report

/-!
# The report as a JSON document

The machine-readable form of a report.
-/

namespace IndexAdvice

/-- A recommendation as an object. -/
def Recommendation.toJson (r : Recommendation) : Json :=
  .obj [("table", .str r.table), ("index_name", .str r.name),
    ("key_columns", .strings r.columns), ("include_columns", .strings r.covering),
    ("partial_predicate", .optional r.condition), ("reason", .str r.reason),
    ("dialect", .str r.dialect.name), ("create_sql", .str r.statement), ("source", .str r.source),
    ("sql_text", .str r.sql), ("origin", .optional (r.origin.map (·.name)))]

/-- A duplicate as an object. -/
def Duplicate.toJson (d : Duplicate) : Json :=
  .obj [("table", .str d.table), ("key_columns", .strings d.columns),
    ("duplicate_of", .str d.duplicateOf), ("source", .str d.source), ("sql_text", .str d.sql)]

/-- A query as an object. -/
def Query.toJson (q : Query) : Json :=
  .obj [("table", .str q.table), ("method", .str q.method), ("source", .str q.location),
    ("sql_text", .str q.sql), ("known_fields", .strings q.fields),
    ("origin", .optional (q.origin.map (·.name))),
    ("parent_table", .optional (q.parent?.map (·.table)))]

/-- The capabilities as an object. -/
def Capabilities.toJson (caps : Capabilities) : Json :=
  .obj [("name", .str caps.dialect.name), ("label", .str caps.dialect.label),
    ("include_supported", .bool caps.covering), ("partial_supported", .bool caps.filtered),
    ("if_not_exists_supported", .bool caps.guarded),
    ("supported_join_types", .strings caps.joinKeywords),
    ("transactional_ddl", .bool caps.transactional),
    ("mysql_version", match caps.version with
      | some v => .num v
      | none => .null)]

namespace JoinGraph

/-- An edge as an object. -/
def edgeJson (e : JoinEdge) : Json :=
  .obj [("source", .str e.source), ("target", .str e.target), ("columns", .strings e.columns),
    ("join_types", .strings e.keywords), ("count", .num e.count)]

/-- A node as an object. -/
def nodeJson (g : JoinGraph) (node : String) : Json :=
  .obj [("id", .str node), ("in_degree", .num (g.inDegree node)),
    ("out_degree", .num (g.outDegree node))]

/-- A hotspot as an object. -/
def Hotspot.toJson (h : Hotspot) : Json :=
  .obj [("table", .str h.table), ("degree", .num h.degree), ("joined_by", .num h.joinedBy),
    ("joins", .num h.joins)]

/-- The graph with its clusters and hotspots as an object. -/
def toJson (g : JoinGraph) : Json :=
  .obj [("graph", .obj [("nodes", .arr (g.nodes.map g.nodeJson)),
      ("edges", .arr (g.edgesBySource.map edgeJson))]),
    ("clusters", .arr (g.clusters.map .strings)),
    ("hotspots", .arr (g.hotspots.map (·.toJson)))]

end JoinGraph

/-- The report as a document that is written at the given time. -/
def Report.toJson (now : Moment) (r : Report) : Json :=
  .obj [
    ("metadata", .obj [("tool", .str "IndexScout"), ("version", .str version),
      ("generated_at", .str now.stamp), ("source", .str r.source),
      ("files_scanned", .num r.filesScanned)]),
    ("dialect", r.capabilities.toJson),
    ("queries", .arr (r.queries.map (·.toJson))),
    ("recommendations", .arr (r.recommendations.map (·.toJson))),
    ("duplicates", .arr (r.duplicates.map (·.toJson))),
    ("notes", .strings r.notes),
    ("join_graph", r.joinGraph.toJson)]

end IndexAdvice
