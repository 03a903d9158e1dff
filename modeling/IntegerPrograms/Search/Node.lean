import IntegerPrograms.Branching
import IntegerPrograms.Cut

/-!
Nodes of the search tree. A node says where it stands in the tree and stores its linear program in
one of two ways: as the bounds on the path from the root, or as a system of its own that also takes
cuts.
-/

set_option autoImplicit false

namespace IntegerPrograms

variable {α β : Type} [Scalar α]

structure Node (α β : Type) where
  id : Nat
  parent : Option Nat
  depth : Nat
  parentObjective : Option α
  store : β

namespace Node

def root (store : β) : Node α β := ⟨1, none, 0, none, store⟩

def child (node : Node α β) (id : Nat) (parentObjective : α) (store : β) : Node α β :=
  ⟨id, some node.id, node.depth + 1, some parentObjective, store⟩

end Node

/-- How a node stores its linear program, and how the store grows. -/
structure Storage (α β : Type) where
  root : β
  system? : β → Option (Problem α)
  bound? : β → Bound α → Option β
  cut : β → Cut α → β

namespace Storage

def bounds (base : Problem α) : Storage α (List (Bound α)) where
  root := []
  system? := base.withBounds?
  bound? bs b := some (bs ++ [b])
  cut bs _ := bs

def systems (base : Problem α) : Storage α (Problem α) where
  root := base
  system? := some
  bound? := Problem.withBound?
  cut p cut := p.withRow cut.coefs cut.rhs

end Storage

end IntegerPrograms
