import ArithMachine.Stack

/-!
# Histories of a stack

A history is a sequence of requests to one stack, pushes and pops in any order,
together with what the stack has answered to each.  The stack that one request
leaves is the one to which the next is made, whatever the answer was.
-/

namespace ArithMachine

namespace Stack

section Histories

/-- What can be asked of a stack. -/
inductive Request where
  | push (value : Value)
  | pop
deriving DecidableEq, Repr

/-- What a stack answers. -/
inductive Response where
  | accepted
  | refused (fault : Fault)
  /-- A pop was answered with the top, or with nothing. -/
  | popped (value? : Option Value)
deriving DecidableEq, Repr

/-- A request and the answer to it. -/
structure Exchange where
  request : Request
  response : Response
deriving DecidableEq, Repr

/-- The value that was taken in, if this was a push that the stack has accepted. -/
def Exchange.pushed? : Exchange → Option Value
  | ⟨.push value, .accepted⟩ => some value
  | _ => none

/-- The value that was handed out, if this was a pop that has found one. -/
def Exchange.popped? : Exchange → Option Value
  | ⟨.pop, .popped value?⟩ => value?
  | _ => none

/-- The answer to a request, and the stack as the request leaves it. -/
def perform (s : Stack) : Request → Response × Stack
  | .push value =>
      match s.offer value with
      | (.ok (), t) => (.accepted, t)
      | (.error fault, t) => (.refused fault, t)
  | .pop =>
      let (value?, t) := s.pop
      (.popped value?, t)

/-- Requests one after the other: the exchanges, and the stack as the last one leaves it. -/
def history (s : Stack) : List Request → List Exchange × Stack
  | [] => ([], s)
  | request :: requests =>
      let (response, t) := s.perform request
      let (exchanges, last) := t.history requests
      (⟨request, response⟩ :: exchanges, last)

end Histories

end Stack

end ArithMachine
