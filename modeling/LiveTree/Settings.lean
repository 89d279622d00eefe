import LiveTree.Json.Decoder

namespace LiveTree

/-- What happens when two mounted elements declare one name. -/
inductive NamePolicy where
  | firstMatch
  | reject
deriving DecidableEq

namespace NamePolicy

def name : NamePolicy → String
  | .firstMatch => "first_match"
  | .reject => "reject"

def ofName? (name : String) : Option NamePolicy :=
  [firstMatch, reject].find? (·.name = name)

def decoder : Decoder NamePolicy :=
  .choice ofName?

def title : NamePolicy → String
  | .firstMatch => "FirstMatch"
  | .reject => "Reject"

end NamePolicy

structure Settings where
  maxDispatchDepth : Nat := 32
  namePolicy : NamePolicy := .firstMatch
  autoFlush : Bool := true
deriving DecidableEq

namespace Settings

structure Draft where
  maxDispatchDepth : Option Nat := none
  namePolicy : Option NamePolicy := none
  autoFlush : Option Bool := none

/-- Settings that are not given keep their defaults. -/
def Draft.finish (draft : Draft) : Settings :=
  let default : Settings := {}
  { maxDispatchDepth := draft.maxDispatchDepth.getD default.maxDispatchDepth
    namePolicy := draft.namePolicy.getD default.namePolicy
    autoFlush := draft.autoFlush.getD default.autoFlush }

def decoder : Decoder Settings :=
  .record
    [ .of "max_dispatch_depth" Draft.maxDispatchDepth
        (fun draft n => { draft with maxDispatchDepth := some n }) .nat,
      .of "duplicate_names" Draft.namePolicy
        (fun draft policy => { draft with namePolicy := some policy }) NamePolicy.decoder,
      .of "auto_flush" Draft.autoFlush
        (fun draft flag => { draft with autoFlush := some flag }) .bool ]
    {} (fun draft => some draft.finish)

def parse (s : String) : Except Fault Settings :=
  decoder.decode s

def toJson (settings : Settings) : Json :=
  .obj
    [ ("max_dispatch_depth", .ofNat settings.maxDispatchDepth),
      ("duplicate_names", .str settings.namePolicy.name),
      ("auto_flush", .bool settings.autoFlush) ]

end Settings

end LiveTree
