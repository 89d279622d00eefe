import LiveTree.Patch.MessagePack

namespace LiveTree

/-- A host: how each change is drawn on what it shows, of type `σ`. -/
structure Host (σ : Type) where
  create : ElementId → Kind → String → σ → σ
  setAttribute : ElementId → String → Json → σ → σ
  appendToSlot : ElementId → String → ElementId → σ → σ
  invokeMethod : ElementId → String → σ → σ
  remove : ElementId → σ → σ

def Patch.applyTo {σ : Type} (host : Host σ) : Patch → σ → σ
  | .create id kind tag => host.create id kind tag
  | .setAttribute id name value => host.setAttribute id name value
  | .appendToSlot parent slot child => host.appendToSlot parent slot child
  | .invokeMethod id method => host.invokeMethod id method
  | .remove id => host.remove id

/-- The patches that wait to be taken, oldest first. -/
structure Recorder where
  patches : List Patch := []

namespace Recorder

def record (r : Recorder) (p : Patch) : Recorder :=
  ⟨r.patches ++ [p]⟩

def host : Host Recorder where
  create id kind tag r := r.record (.create id kind tag)
  setAttribute id name value r := r.record (.setAttribute id name value)
  appendToSlot parent slot child r := r.record (.appendToSlot parent slot child)
  invokeMethod id method r := r.record (.invokeMethod id method)
  remove id r := r.record (.remove id)

def replay (r : Recorder) (ps : List Patch) : Recorder :=
  ps.foldl (fun r p => p.applyTo host r) r

def drain (r : Recorder) : List Patch × Recorder :=
  (r.patches, {})

def encode (r : Recorder) : List UInt8 × Recorder :=
  (Patch.pack r.drain.1, r.drain.2)

end Recorder

end LiveTree
