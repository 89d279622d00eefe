namespace LiveTree

/-- The entries of a map, oldest key first. -/
abbrev OrderedMap (α : Type) := List (String × α)

namespace OrderedMap

variable {α β : Type}

def keys (m : OrderedMap α) : List String :=
  m.map Prod.fst

def contains (m : OrderedMap α) (key : String) : Bool :=
  (m.lookup key).isSome

/-- Give `key` the value that `f` makes of the present one; a new key goes to the end. -/
def update (key : String) (f : Option α → α) : OrderedMap α → OrderedMap α
  | [] => [(key, f none)]
  | (k, v) :: rest => if k = key then (k, f (some v)) :: rest else (k, v) :: update key f rest

def insert (m : OrderedMap α) (key : String) (value : α) : OrderedMap α :=
  update key (fun _ => value) m

def insertAll (m entries : OrderedMap α) : OrderedMap α :=
  entries.foldl (fun m (key, value) => m.insert key value) m

def push (m : OrderedMap (List α)) (key : String) (item : α) : OrderedMap (List α) :=
  update key (fun items => items.getD [] ++ [item]) m

def erase (m : OrderedMap α) (key : String) : OrderedMap α :=
  m.filter (fun entry => entry.1 ≠ key)

def mapValues (f : α → β) (m : OrderedMap α) : OrderedMap β :=
  m.map (fun (key, value) => (key, f value))

end OrderedMap

end LiveTree
