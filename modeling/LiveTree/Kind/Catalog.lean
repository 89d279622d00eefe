import LiveTree.Kind.Profile

namespace LiveTree

structure Catalog where
  profiles : List Profile := []

namespace Catalog

/-- A profile is found by its own kind; one of another kind in a kind's place is not represented. -/
def get? (catalog : Catalog) (kind : Kind) : Option Profile :=
  catalog.profiles.find? (·.kind = kind)

def size (catalog : Catalog) : Nat :=
  catalog.profiles.length

def register (catalog : Catalog) (profile : Profile) : Catalog where
  profiles :=
    if (catalog.get? profile.kind).isSome then
      catalog.profiles.map (fun other => if other.kind = profile.kind then profile else other)
    else catalog.profiles ++ [profile]

def named (catalog : Catalog) (name : String) : Except Error Profile :=
  match (Kind.ofName? name).bind catalog.get? with
  | some profile => .ok profile
  | none => .error (.unknownKind name)

/-- Define a method on a kind; nothing happens if the kind is not registered. -/
def define (catalog : Catalog) (kind : Kind) (method : String) (script : Script) : Catalog where
  profiles := catalog.profiles.map fun profile =>
    if profile.kind = kind then profile.withMethod method script else profile

def method? (catalog : Catalog) (kind : Kind) (name : String) : Option Script :=
  (catalog.get? kind).bind (·.method? name)

def stored (catalog : Catalog) (kind : Kind) (key : String) (value : Json) : Json :=
  match catalog.get? kind with
  | some profile => profile.stored key value
  | none => value

def text (catalog : Catalog) (kind : Kind) : TextStrategy := fun name attributes =>
  (catalog.get? kind).bind (·.text name attributes)

def builtin : Kind → Profile
  | .app =>
    Profile.plain .app |>.withStyle "display" "block" |>.withStyle "min-height" "100%"
  | .navbar =>
    Profile.plain .navbar |>.withEncoded "links"
      |>.withStyle "display" "flex" |>.withStyle "align-items" "center"
  | .navLink =>
    Profile.plain .navLink |>.withText .label
      |>.withMethod "click" (.single (.dispatch "click"))
  | .container =>
    Profile.plain .container
      |>.withStyle "box-sizing" "border-box" |>.withStyle "margin" "0 auto"
  | .row =>
    Profile.plain .row |>.withStyle "display" "flex" |>.withStyle "flex-direction" "row"
  | .column =>
    Profile.plain .column |>.withStyle "display" "flex" |>.withStyle "flex-direction" "column"
  | .card =>
    Profile.plain .card
      |>.withStyle "box-sizing" "border-box" |>.withStyle "overflow-x" "auto"
  | .button =>
    Profile.plain .button |>.withText .label
      |>.withMethod "click" (.single (.dispatch "click"))
  | .text => Profile.plain .text |>.withText .value
  | .chip =>
    Profile.plain .chip |>.withText .label
      |>.withMethod "dismiss" (.single (.setAttribute "hidden" (.bool true)))
  | .divider => Profile.plain .divider
  | .breadcrumbs => Profile.plain .breadcrumbs |>.withEncoded "links" |>.withText .breadcrumbs
  | .inputbox =>
    Profile.plain .inputbox |>.withText .input
      |>.withMethod "clear" (.single (.setAttribute "value" (.str "")))

def standard : Catalog where
  profiles := Kind.all.map builtin

end Catalog

end LiveTree
