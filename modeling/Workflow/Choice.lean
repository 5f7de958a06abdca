namespace Workflow

/-- What an enumerated field of a document holds. A number that stands for no value is no fault; its
meaning is left to the default. -/
inductive Choice (α : Type) where
  | unset
  | known (value : α)
  /-- A number that stands for no value. -/
  | unknown
  deriving DecidableEq, Repr

namespace Choice

def toOption {α : Type} : Choice α → Option α
  | .known a => some a
  | .unset | .unknown => none

def getD {α : Type} (c : Choice α) (default : α) : α :=
  c.toOption.getD default

def isGiven {α : Type} : Choice α → Bool
  | .unset => false
  | .known _ | .unknown => true

end Choice

end Workflow
