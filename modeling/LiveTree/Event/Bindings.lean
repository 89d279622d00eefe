import LiveTree.Attribute

namespace LiveTree

abbrev Bindings := List (String × String)

namespace Bindings

def bind (bindings : Bindings) (event target : String) : Bindings :=
  bindings ++ [(event, target)]

def targets (bindings : Bindings) (event : String) : List String :=
  (bindings.filter (·.1 = event)).map Prod.snd

/-- The bindings that a raw `events` attribute declares; entries without a string target are ignored. -/
def ofEvents (raw : Option String) : Bindings :=
  match Attribute.parseD raw (.obj []) with
  | .obj entries => entries.filterMap (fun (event, target) => target.str?.map (event, ·))
  | _ => []

end Bindings

end LiveTree
