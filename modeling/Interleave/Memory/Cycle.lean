import Interleave.Memory.Graph

/-! # Cycles of the memory graph

An execution can be explained under sequential consistency exactly if its memory graph has no
cycle.  `findCycle` looks for one by depth-first search: it starts at each node in turn and follows
the edges in their order.  A node on the current path that is met again closes a cycle; a node from
which the search has returned lies on none and is not entered again. -/

namespace Interleave.Memory

/-- Search from `i`, below the nodes of `path`, skipping those in `done`.  A cycle is thrown, as the
part of the path that it covers; otherwise the nodes that are done now are returned.  The search
descends at most `depth` steps: as a path has no node twice, the number of nodes suffices. -/
def search (succ : Nat → List Nat) :
    (depth : Nat) → (path done : List Nat) → (i : Nat) → Except (List Nat) (List Nat)
  | 0, _, done, _ => .ok done
  | depth + 1, path, done, i => do
    let path := path ++ [i]
    let done ← (succ i).foldlM (fun done j =>
      if done.contains j then .ok done
      else if path.contains j then .error (path.dropWhile (· != j))
      else search succ depth path done j) done
    return i :: done

/-- A cycle of the graph with nodes below `n`, as the list of nodes along it. -/
def findCycleIn (n : Nat) (succ : Nat → List Nat) : Option (List Nat) :=
  let run := (List.range n).foldlM (fun done i =>
    if done.contains i then .ok done else search succ n [] done i) []
  match run with
  | .ok _ => none
  | .error cycle => some cycle

namespace Graph

/-- A cycle of the memory graph, as the list of nodes along it. -/
def findCycle (g : Graph) : Option (List Nat) :=
  let es := g.edges
  findCycleIn g.nodes.length (successors es)

/-- The nodes along a cycle in reports. -/
def describe (g : Graph) (cycle : List Nat) : String :=
  " -> ".intercalate ((cycle.filterMap (g.nodes[·]?)).map Node.text)

end Graph

end Interleave.Memory
