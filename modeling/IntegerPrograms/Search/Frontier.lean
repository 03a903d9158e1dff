set_option autoImplicit false

namespace IntegerPrograms

variable {β : Type}

/-- Open nodes, the next one first, and how many were ever put in and taken out. -/
structure Frontier (β : Type) where
  nodes : List β := []
  added : Nat := 0
  popped : Nat := 0

namespace Frontier

def push (f : Frontier β) (node : β) : Frontier β :=
  { f with nodes := node :: f.nodes, added := f.added + 1 }

def pop? (f : Frontier β) : Option (β × Frontier β) :=
  match f.nodes with
  | [] => none
  | node :: rest => some (node, { f with nodes := rest, popped := f.popped + 1 })

def size (f : Frontier β) : Nat := f.nodes.length

def isEmpty (f : Frontier β) : Bool := f.nodes.isEmpty

theorem pop?_push (f : Frontier β) (node : β) :
    (f.push node).pop? =
      some (node, { nodes := f.nodes, added := f.added + 1, popped := f.popped + 1 }) := rfl

theorem pop?_eq_none_iff (f : Frontier β) : f.pop? = none ↔ f.nodes = [] := by
  unfold pop?
  split <;> simp [*]

theorem size_push (f : Frontier β) (node : β) : (f.push node).size = f.size + 1 := rfl

end Frontier

end IntegerPrograms
