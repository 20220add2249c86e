import Suspension.Evaluation.Frame

/-!
# Operators

Numbers are 64-bit words in two's complement. Sums, differences and products wrap around, quotients
are cut towards zero and remainders take the sign of the dividend; so the least number divided by
minus one is itself, with remainder zero. Only the opposite of the least number is refused.

Equality compares any two values, and the connectives any two that are conditions. The rest is for
numbers, with the one exception that texts can be put together.
-/

namespace Suspension

/-- An operator on numbers, as a value or an exception. What is no operator on numbers has no
result. -/
def BinaryOp.onInts (op : BinaryOp) (a b : Int64) : Option (Except Value Value) :=
  match op with
  | .lt => some (.ok (.bool (a < b)))
  | .le => some (.ok (.bool (a ≤ b)))
  | .gt => some (.ok (.bool (b < a)))
  | .ge => some (.ok (.bool (b ≤ a)))
  | .add => some (.ok (.int (a + b)))
  | .sub => some (.ok (.int (a - b)))
  | .mul => some (.ok (.int (a * b)))
  | .div => some (if b = 0 then .error (.error "division by zero") else .ok (.int (a / b)))
  | .mod => some (if b = 0 then .error (.error "division by zero") else .ok (.int (a % b)))
  | _ => none

/-- An operator on two values, as a value or an exception. Values that do not fit the operator have
no result. -/
def BinaryOp.apply (op : BinaryOp) (l r : Value) : Option (Except Value Value) :=
  match op, l, r with
  | .eq, _, _ => some (.ok (.bool (l == r)))
  | .ne, _, _ => some (.ok (.bool (l != r)))
  | .and, _, _ => do return .ok (.bool ((← l.asBool?) && (← r.asBool?)))
  | .or, _, _ => do return .ok (.bool ((← l.asBool?) || (← r.asBool?)))
  | .add, .str a, .str b => some (.ok (.str (a ++ b)))
  | _, .int a, .int b => op.onInts a b
  | _, _, _ => none

namespace Eval

/-- An operator with two operands. -/
def binary (op : BinaryOp) (l r : Value) (n : Node) : Eval Value :=
  match op.apply l r with
  | some (.ok value) => pure value
  | some (.error ex) => throw (.thrown ex)
  | none => fault (.operands op l.type r.type) n

/-- An operator with one operand. -/
def unary (op : UnaryOp) (v : Value) (n : Node) : Eval Value :=
  match op, v with
  | .minus, .int i =>
    if i = Int64.minValue then throw (.stop .negationOverflow) else pure (.int (-i))
  | .minus, _ => fault (.negationOf v.type) n
  | .not, _ =>
    match v.asBool? with
    | some b => pure (.bool !b)
    | none => fault (.negationOf v.type) n

end Eval

end Suspension
