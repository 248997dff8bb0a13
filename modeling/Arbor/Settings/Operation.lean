import Arbor.Settings.Error
import Arbor.Settings.Value
import Arbor.Turtle.Operation

/-!
# Operations in settings

An operation is given by its name, alone or as the member `type` of an object. For a move the object
may also say whether it draws (`draw`) and whether it is contracting (`contracting`); no other
operation takes an option, and other members beside those of a move are not looked at.
-/

namespace Arbor.Settings

/-- A truth value that may be missing. -/
def flag (ms : Value.Members) (key : String) (default : Bool) : Except OperationError Bool :=
  match ms.findD key (.bool default) with
  | .bool b => .ok b
  | _ => .error (.notBool key)

/-- The operation of a name, with the members that stand beside it. -/
def operationOfMembers (ms : Value.Members) : Except OperationError Operation :=
  match ms.lookup "type" with
  | some (.str name) =>
    match Operation.named.lookup name with
    | none => .error (.unknown name (Operation.named.map (·.1)))
    | some (.forward _ _) => do
      let draw ← flag ms "draw" true
      let contracting ← flag ms "contracting" false
      return .forward draw contracting
    | some o =>
      let extra := (ms.map (·.1)).filter (· ≠ "type")
      if extra = [] then .ok o else .error (.options (extra.mergeSort (· ≤ ·)))
  | _ => .error .noName

/-- **Reading an operation.** -/
def operation : Value → Except OperationError Operation
  | .str name => operationOfMembers [("type", .str name)]
  | .object ms => operationOfMembers ms
  | _ => .error .shape

end Arbor.Settings
