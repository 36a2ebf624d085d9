import SyntaxDrawing.Graph.Basic
import Std.Data.TreeMap.Basic

/-!
# Edges between positions of a node list

Nodes are told apart by their position in the list. An id stands for the last node that has it, and
an edge with an end that no node has is passed over. Tables over the positions are read with `get`
and changed with `put`; `get_childTable` and `mem_roots_iff` say what they hold in terms of the
resolved edges.
-/

namespace SyntaxDrawing.Layout

structure Link (n : Nat) where
  source : Fin n
  target : Fin n
  deriving DecidableEq

theorem get_eq_getElem {α : Type} {n : Nat} (table : Vector α n) (i : Fin n) :
    table.get i = table[i.val] :=
  rfl

def put {α : Type} {n : Nat} (table : Vector α n) (i : Fin n) (x : α) : Vector α n :=
  table.set i x

theorem get_put {α : Type} {n : Nat} (table : Vector α n) (i j : Fin n) (x : α) :
    (put table i x).get j = if i = j then x else table.get j := by
  simp [put, get_eq_getElem, Vector.getElem_set, Fin.ext_iff]

@[simp] theorem get_replicate {α : Type} {n : Nat} (x : α) (i : Fin n) :
    (Vector.replicate n x).get i = x := by
  simp [get_eq_getElem]

def lastHolders {n : Nat} (ids : Vector String n) : Std.TreeMap String (Fin n) :=
  (List.finRange n).foldl (fun holders i => holders.insert (ids.get i) i) ∅

def resolve {n : Nat} (ids : Vector String n) (edges : List Edge) : List (Link n) :=
  let holders := lastHolders ids
  edges.filterMap fun e =>
    match holders[e.source]?, holders[e.target]? with
    | some source, some target => some ⟨source, target⟩
    | _, _ => none

def childTable {n : Nat} (links : List (Link n)) : Vector (List (Fin n)) n :=
  links.foldr (fun l table => put table l.source (l.target :: table.get l.source))
    (Vector.replicate n [])

theorem get_childTable {n : Nat} (links : List (Link n)) (i : Fin n) :
    (childTable links).get i = (links.filter fun l => l.source = i).map Link.target := by
  induction links with
  | nil => simp [childTable]
  | cons l rest ih =>
    have hs : childTable (l :: rest) =
        put (childTable rest) l.source (l.target :: (childTable rest).get l.source) := rfl
    rw [hs, get_put]
    by_cases h : l.source = i
    · subst h
      simp [ih]
    · simp [h, ih]

def targetMarks {n : Nat} (links : List (Link n)) : Vector Bool n :=
  links.foldr (fun l marks => put marks l.target true) (Vector.replicate n false)

theorem get_targetMarks {n : Nat} (links : List (Link n)) (i : Fin n) :
    (targetMarks links).get i = links.any fun l => l.target = i := by
  induction links with
  | nil => simp [targetMarks]
  | cons l rest ih =>
    have hs : targetMarks (l :: rest) = put (targetMarks rest) l.target true := rfl
    rw [hs, get_put]
    by_cases h : l.target = i
    · simp [h]
    · simp [h, ih]

def roots {n : Nat} (links : List (Link n)) : List (Fin n) :=
  let marks := targetMarks links
  (List.finRange n).filter fun i => !marks.get i

theorem mem_roots_iff {n : Nat} (links : List (Link n)) (i : Fin n) :
    i ∈ roots links ↔ ∀ l ∈ links, l.target ≠ i := by
  simp [roots, get_targetMarks]

end SyntaxDrawing.Layout
