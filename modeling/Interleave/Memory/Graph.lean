import Interleave.Access

/-! # The memory graph of an execution

The memory accesses of an execution are the nodes of a graph, numbered in the order in which they
were issued.  Its edges are

* program order: each access to the next one of the same thread;
* coherence: each store to the next store that reached memory at the same address;
* reads-from: a store to each read of its value;
* from-read: a read to the store that overwrote the value it read.

A store is issued by `write` and reaches memory with `commit`; an `update` does both at once and
reads the value it replaces.  The graph keeps the nodes and the commits in order, and everything
else is derived from these two lists. -/

namespace Interleave.Memory

/-- What an access does.  The source of a value that was read is the store it came from, or `none`
for the value that the cell started with. -/
inductive Action where
  | read (source : Option Nat)
  | write
  | update (source : Option Nat)
deriving DecidableEq, Repr, Inhabited

/-- The source of the value that an action reads, if it reads one. -/
def Action.source? : Action → Option (Option Nat)
  | read s => some s
  | write => none
  | update s => some s

/-- The word for an action in reports. -/
def Action.name : Action → String
  | read _ => "read"
  | write => "write"
  | update _ => "update"

/-- A memory access of a thread. -/
structure Node where
  thread : Nat
  addr : Addr
  action : Action
deriving DecidableEq, Repr, Inhabited

/-- A node in reports. -/
def Node.text (n : Node) : String := s!"T{n.thread} {n.action.name} #{n.addr}"

/-- The nodes in order of issue, and the stores that reached memory, in that order, each with its
address. -/
structure Graph where
  nodes : List Node
  commits : List (Nat × Addr)
deriving DecidableEq, Repr, Inhabited

namespace Graph

/-- The graph before the first access. -/
def empty : Graph := ⟨[], []⟩

/-- The stores to an address, in the order in which they reached memory. -/
def coherence (g : Graph) (a : Addr) : List Nat :=
  g.commits.filterMap fun (i, b) => if b = a then some i else none

/-- The store whose value an address holds; `none` if it holds the value it started with. -/
def lastStore (g : Graph) (a : Addr) : Option Nat := (g.coherence a).getLast?

/-! ### Building the graph -/

/-- Append a node; its number is the next one. -/
def push (g : Graph) (n : Node) : Graph := { g with nodes := g.nodes ++ [n] }

/-- A store reaches memory. -/
def commit (g : Graph) (i : Nat) : Graph :=
  match g.nodes[i]? with
  | some n => { g with commits := g.commits ++ [(i, n.addr)] }
  | none => g

/-- A read of `a`, either of the own store `forwarded` or of memory. -/
def read (g : Graph) (t : Nat) (a : Addr) (forwarded : Option Nat) : Graph :=
  g.push ⟨t, a, .read (forwarded.or (g.lastStore a))⟩

/-- A store is issued; its node is the next number. -/
def write (g : Graph) (t : Nat) (a : Addr) : Graph := g.push ⟨t, a, .write⟩

/-- An atomic read and write that reaches memory at once. -/
def update (g : Graph) (t : Nat) (a : Addr) : Graph :=
  (g.push ⟨t, a, .update (g.lastStore a)⟩).commit g.nodes.length

/-! ### Edges -/

/-- The neighbouring pairs of a list. -/
def neighbours (l : List Nat) : List (Nat × Nat) := l.zip l.tail

/-- The element behind the first occurrence of `x`. -/
def next? (x : Nat) (l : List Nat) : Option Nat := (l.dropWhile (· != x))[1]?

/-- Edges from each node of a numbered list to the next one of its thread. -/
def threadOrder : List (Node × Nat) → List (Nat × Nat)
  | [] => []
  | (n, i) :: rest =>
    match rest.find? fun m => m.1.thread == n.thread with
    | some (_, j) => (i, j) :: threadOrder rest
    | none => threadOrder rest

/-- Program order edges. -/
def programOrder (g : Graph) : List (Nat × Nat) := threadOrder g.nodes.zipIdx

/-- Coherence edges, address by address in the given order. -/
def coherenceOrder (g : Graph) (visit : List Addr) : List (Nat × Nat) :=
  visit.flatMap fun a => neighbours (g.coherence a)

/-- The edge between distinct nodes. -/
def edgeTo (i : Nat) (j : Option Nat) : List (Nat × Nat) :=
  match j with
  | some j => if j = i then [] else [(i, j)]
  | none => []

/-- The edges that come from what node `r` reads: reads-from, then from-read. -/
def communication (g : Graph) (n : Node) (r : Nat) : List (Nat × Nat) :=
  match n.action.source? with
  | none => []
  | some (some w) => edgeTo w (some r) ++ edgeTo r (next? w (g.coherence n.addr))
  | some none => edgeTo r (g.coherence n.addr).head?

/-- All edges, with the coherence edges listed address by address in the given order. -/
def edgesVisiting (g : Graph) (visit : List Addr) : List (Nat × Nat) :=
  g.programOrder ++ g.coherenceOrder visit
    ++ g.nodes.zipIdx.flatMap fun (n, r) => g.communication n r

/-- The addresses that a store has reached, in the order of the first one. -/
def addresses (g : Graph) : List Addr := (g.commits.map Prod.snd).eraseDups

/-- All edges of the graph. -/
def edges (g : Graph) : List (Nat × Nat) := g.edgesVisiting g.addresses

/-- The ends of the edges from `i`, in their order. -/
def successors (es : List (Nat × Nat)) (i : Nat) : List Nat :=
  es.filterMap fun (j, k) => if j = i then some k else none

/-! ### Small facts -/

@[simp] theorem nodes_push (g : Graph) (n : Node) : (g.push n).nodes = g.nodes ++ [n] := rfl

@[simp] theorem commits_push (g : Graph) (n : Node) : (g.push n).commits = g.commits := rfl

@[simp] theorem nodes_commit (g : Graph) (i : Nat) : (g.commit i).nodes = g.nodes := by
  unfold commit; split <;> rfl

theorem mem_successors {es : List (Nat × Nat)} {i j : Nat} : j ∈ successors es i ↔ (i, j) ∈ es := by
  simp only [successors, List.mem_filterMap]
  constructor
  · rintro ⟨⟨a, b⟩, h, h'⟩
    by_cases ha : a = i <;> simp_all
  · intro h
    exact ⟨(i, j), h, by simp⟩

end Graph

end Interleave.Memory
