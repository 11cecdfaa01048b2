/-!
# How a function of C++ ends

A function returns a value, throws an exception, or its behaviour is undefined.
-/

namespace Aveo.Lib

inductive Outcome (ε α : Type)
  | ok (a : α)
  | raise (e : ε)
  | undefined
  deriving DecidableEq

namespace Outcome

variable {ε α β : Type}

def bind (x : Outcome ε α) (f : α → Outcome ε β) : Outcome ε β :=
  match x with
  | .ok a => f a
  | .raise e => .raise e
  | .undefined => .undefined

@[simp] theorem bind_ok (a : α) (f : α → Outcome ε β) : (ok a).bind f = f a := rfl

@[simp] theorem bind_raise (e : ε) (f : α → Outcome ε β) : (raise e).bind f = .raise e := rfl

@[simp] theorem bind_undefined (f : α → Outcome ε β) : (undefined : Outcome ε α).bind f = .undefined := rfl

/-- The function returned. -/
def returns : Outcome ε α → Bool
  | .ok _ => true
  | _ => false

end Outcome

end Aveo.Lib
