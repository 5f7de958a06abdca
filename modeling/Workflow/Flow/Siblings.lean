import Workflow.Flow

namespace Workflow.Siblings

def indexOf? (id : String) (steps : List Step) : Option Nat :=
  steps.findIdx? fun s => s.id == id

def find? (id : String) (steps : List Step) : Option Step :=
  steps.find? fun s => s.id == id

def addAfter? (anchor : String) (new : Step) : List Step → Option (List Step)
  | [] => none
  | s :: rest =>
    if s.id = anchor then some (s :: new :: rest)
    else (addAfter? anchor new rest).map (s :: ·)

def addBefore? (anchor : String) (new : Step) : List Step → Option (List Step)
  | [] => none
  | s :: rest =>
    if s.id = anchor then some (new :: s :: rest)
    else (addBefore? anchor new rest).map (s :: ·)

def take? (id : String) : List Step → Option (Step × List Step)
  | [] => none
  | s :: rest =>
    if s.id = id then some (s, rest)
    else (take? id rest).map fun (taken, rest) => (taken, s :: rest)

/-- The list with a step moved behind another, or to the front. A step cannot follow itself. -/
def move? (id : String) (after : Option String) (steps : List Step) : Option (List Step) :=
  if after = some id then none
  else
    match take? id steps, after with
    | none, _ => none
    | some (taken, rest), none => some (taken :: rest)
    | some (taken, rest), some anchor => addAfter? anchor taken rest

end Workflow.Siblings
