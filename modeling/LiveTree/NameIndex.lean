import LiveTree.Error
import LiveTree.Settings

namespace LiveTree

structure NameIndex where
  entries : List (String × List ElementId) := []
deriving DecidableEq

namespace NameIndex

def idsOf (index : NameIndex) (name : String) : List ElementId :=
  (index.entries.lookup name).getD []

def find? (index : NameIndex) (name : String) : Option ElementId :=
  (index.idsOf name).head?

def contains (index : NameIndex) (name : String) : Bool :=
  (index.entries.lookup name).isSome

def size (index : NameIndex) : Nat :=
  index.entries.length

/-- Whether `id` may take `name`: where clashes are rejected, no other id holds it. -/
def check (index : NameIndex) (policy : NamePolicy) (name : String) (id : ElementId) :
    Except Error Unit :=
  if policy = .reject ∧ (index.idsOf name).any (· != id) then .error (.duplicateName name)
  else .ok ()

def insertId (id : ElementId) : List ElementId → List ElementId
  | [] => [id]
  | other :: rest =>
    if id < other then id :: other :: rest
    else if id = other then other :: rest
    else other :: insertId id rest

def insertEntry (name : String) (id : ElementId) :
    List (String × List ElementId) → List (String × List ElementId)
  | [] => [(name, [id])]
  | (other, ids) :: rest =>
    if name < other then (name, [id]) :: (other, ids) :: rest
    else if name = other then (other, insertId id ids) :: rest
    else (other, ids) :: insertEntry name id rest

def register (index : NameIndex) (policy : NamePolicy) (name : String) (id : ElementId) :
    Except Error NameIndex := do
  index.check policy name id
  pure ⟨insertEntry name id index.entries⟩

/-- Take an id from under its name, and the name with its last id. -/
def unregister (index : NameIndex) (name : String) (id : ElementId) : NameIndex where
  entries := index.entries.filterMap fun (other, ids) =>
    if other = name then
      let ids := ids.filter (· != id)
      if ids.isEmpty then none else some (other, ids)
    else some (other, ids)

end NameIndex

end LiveTree
