import SyntaxDrawing.Document
import SyntaxDrawing.Drawing

/-!
# Editing sessions

A caller of the library keeps a graph together with the policy and the geometry of its drawings, and
calls `Graph.build`, `Graph.buildUnder`, `draw`, `Graph.layout` and `Layout.arrange` on it one after
the other; between the calls it may edit the graph. A step that fails leaves the session as it was.
-/

namespace SyntaxDrawing

structure Session where
  policy : Policy
  geometry : Layout.Geometry Float
  graph : Graph Float

namespace Session

/-- What can be done in a session. Nodes and edges are named by their place in the lists. -/
inductive Step
  | build (document : List UInt8)
  | graft (document : List UInt8) (under : String)
  | render (document : List UInt8)
  | usePolicy (policy : Policy)
  | useGeometry (geometry : Layout.Geometry Float)
  | layout
  | tryLayout
  | move (node : Nat) (position : Position Float)
  | addNode (node : Node Float)
  | addEdge (edge : Edge)
  | removeNode (node : Nat)
  | removeEdge (edge : Nat)
  | flipEdge (edge : Nat)
  | reverseNodes
  | reverseEdges
  | clear
  | settings

inductive StepFailure
  | document (failure : DocumentFailure)
  | layout (failure : Layout.LayoutFailure)
  | outOfRange

inductive Reply
  | done
  | drawn (summary : Layout.Summary Float)
  | settings (policy : Policy) (geometry : Layout.Geometry Float)

def start (policy : Policy) (geometry : Layout.Geometry Float) : Session :=
  ⟨policy, geometry, .empty⟩

def withGraph (s : Session) (graph : Graph Float) : Except StepFailure (Reply × Session) :=
  .ok (.done, { s with graph })

def withDocument (s : Session) (document : List UInt8) (make : Tree → Graph Float) :
    Except StepFailure (Reply × Session) :=
  match readDocument document with
  | .error f => .error (.document f)
  | .ok v => s.withGraph (make (Tree.ofJson v))

def flipped (e : Edge) : Edge :=
  .between e.target e.source

def attempt (s : Session) : Step → Except StepFailure (Reply × Session)
  | .build document => s.withDocument document fun t => Graph.build s.policy t
  | .graft document under =>
    s.withDocument document fun t =>
      let grafted : Graph Float := Graph.buildUnder s.policy under t
      ⟨s.graph.nodes ++ grafted.nodes, s.graph.edges ++ grafted.edges⟩
  | .render document => s.withDocument document fun t => draw s.policy s.geometry t
  | .usePolicy policy => .ok (.done, { s with policy })
  | .useGeometry geometry => .ok (.done, { s with geometry })
  | .layout => s.withGraph (s.graph.layout s.geometry)
  | .tryLayout =>
    match Layout.arrange s.geometry s.graph.nodes s.graph.edges with
    | .error f => .error (.layout f)
    | .ok (summary, nodes) => .ok (.drawn summary, { s with graph := { s.graph with nodes } })
  | .move node position =>
    match s.graph.nodes[node]? with
    | none => .error .outOfRange
    | some n => s.withGraph { s.graph with nodes := s.graph.nodes.set node (n.moveTo position) }
  | .addNode node => s.withGraph { s.graph with nodes := s.graph.nodes ++ [node] }
  | .addEdge edge => s.withGraph { s.graph with edges := s.graph.edges ++ [edge] }
  | .removeNode node =>
    if node < s.graph.nodes.length then
      s.withGraph { s.graph with nodes := s.graph.nodes.eraseIdx node }
    else .error .outOfRange
  | .removeEdge edge =>
    if edge < s.graph.edges.length then
      s.withGraph { s.graph with edges := s.graph.edges.eraseIdx edge }
    else .error .outOfRange
  | .flipEdge edge =>
    match s.graph.edges[edge]? with
    | none => .error .outOfRange
    | some e => s.withGraph { s.graph with edges := s.graph.edges.set edge (flipped e) }
  | .reverseNodes => s.withGraph { s.graph with nodes := s.graph.nodes.reverse }
  | .reverseEdges => s.withGraph { s.graph with edges := s.graph.edges.reverse }
  | .clear => s.withGraph .empty
  | .settings => .ok (.settings s.policy s.geometry, s)

def apply (s : Session) (step : Step) : Except StepFailure Reply × Session :=
  match s.attempt step with
  | .ok (reply, s') => (.ok reply, s')
  | .error f => (.error f, s)

end Session

end SyntaxDrawing
