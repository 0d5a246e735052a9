namespace StackMachine

inductive StackAction where
  | push
  | dup (n : Nat)
  | swap (n : Nat)
  | replace (remove add : Nat)
  deriving DecidableEq

namespace StackAction

variable {α : Type}

def exchange (n : Nat) (items : List α) : List α :=
  match items[0]?, items[n]? with
  | some top, some other => (items.set 0 other).set n top
  | _, _ => items

/-- The list after an action, the top first. A push adds `literal`; an item that is not known is
`unknown`. -/
def onList (unknown literal : α) (items : List α) : StackAction → List α
  | push => literal :: items
  | dup n => items.getD (n - 1) unknown :: items
  | swap n => exchange n items
  | replace remove add => List.replicate add unknown ++ items.drop remove

end StackAction

end StackMachine
