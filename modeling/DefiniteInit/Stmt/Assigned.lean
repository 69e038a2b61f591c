import DefiniteInit.AttrSet
import DefiniteInit.Stmt.Basic

/-!
# Attributes a body assigns

`assignedAttrs` lists the attributes of the receiver that some statement of a body
assigns, in the order of the text and on whatever path. A class has a slot for each.
-/

namespace DefiniteInit

namespace Target

mutual

/-- Attributes of the receiver that a target names. -/
def assigned : Target → List Name
  | .selfAttr attr _ => [attr]
  | .tuple elements _ => assignedAll elements
  | .self _ | .name _ _ | .attribute _ _ _ | .subscript _ _ _ => []

/-- Attributes of the receiver that several targets name. -/
def assignedAll : List Target → List Name
  | [] => []
  | t :: ts => t.assigned ++ assignedAll ts

end

end Target

/-- Attributes of the receiver that a `with` item binds. -/
def WithItem.assigned (item : WithItem) : List Name := (item.target.map Target.assigned).getD []

namespace Stmt

mutual

/-- Attributes of the receiver that a statement assigns. -/
def assigned : Stmt → List Name
  | .assign targets _ _ => Target.assignedAll targets
  | .ifElse _ body orelse _ => assignedAll body ++ assignedAll orelse
  | .whileLoop _ body orelse _ => assignedAll body ++ assignedAll orelse
  | .forLoop target _ body orelse _ =>
    target.assigned ++ assignedAll body ++ assignedAll orelse
  | .tryBlock body handlers orelse final _ =>
    assignedAll body ++ assignedHandlers handlers ++ assignedAll orelse ++ assignedAll final
  | .withBlock items body _ => items.flatMap WithItem.assigned ++ assignedAll body
  | .eval _ _ | .ret _ _ | .raise _ _ _ | .assertion _ _ _ | .superInit _ _ _ _ | .rebindSelf _ _
  | .delete _ _ | .nestedDef _ _ _ | .pass _ | .breakLoop _ | .continueLoop _
  | .unsupported _ => []

/-- Attributes of the receiver that statements assign. -/
def assignedAll : List Stmt → List Name
  | [] => []
  | s :: ss => s.assigned ++ assignedAll ss

/-- Attributes of the receiver that handlers assign. -/
def assignedHandlers : List Handler → List Name
  | [] => []
  | ⟨_, _, body, _⟩ :: hs => assignedAll body ++ assignedHandlers hs

end

end Stmt

/-- Attributes of the receiver that a body assigns. -/
def assignedAttrs (body : List Stmt) : AttrSet := .ofList (Stmt.assignedAll body)

end DefiniteInit
