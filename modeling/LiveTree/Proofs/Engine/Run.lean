import LiveTree.Proofs.Engine.Invariant

namespace LiveTree
set_option autoImplicit true

namespace Engine

inductive Operation where
  | render (tree : Tree)
  | renderAndMount (tree : Tree)
  | renderJson (json : String)
  | mount (id : ElementId)
  | unmount (id : ElementId)
  | setAttribute (id : ElementId) (key : String) (value : Json)
  | markDirty (id : ElementId)
  | invoke (id : ElementId) (method : String)
  | emit (target : String)
  | dispatch (id : ElementId) (event : String)
  | dispatchNamed (name event : String)
  | flush
  | define (kind : Kind) (method : String) (script : Script)

def Operation.perform (fuel : Nat) : Operation → EngineM Unit
  | .render tree => discard (Engine.render tree)
  | .renderAndMount tree => discard (Engine.renderAndMount tree)
  | .renderJson json => discard (Engine.renderJson json)
  | .mount id => Engine.mount id
  | .unmount id => Engine.unmount id
  | .setAttribute id key value => Engine.setAttribute id key value
  | .markDirty id => Engine.markDirty id
  | .invoke id method => Engine.invoke fuel id method
  | .emit target => Engine.emit fuel target
  | .dispatch id event => Engine.dispatch fuel id event
  | .dispatchNamed name event => Engine.dispatchNamed fuel name event
  | .flush => discard Engine.flush
  | .define kind method script => discard (Engine.define kind method script)

def Operation.Allowed (allowed : Action → Prop) : Operation → Prop
  | .render tree => allowed (.render tree)
  | .renderAndMount tree => allowed (.render tree)
  | .define kind method script => allowed (.define kind method script)
  | _ => True

theorem Invariant.agree_operation {allowed : Action → Prop} {I : List String → Engine → Prop}
    (hI : Invariant spent bound allowed I) {operation : Operation} (ho : operation.Allowed allowed)
    (hf : Fuelled spent bound stack.length fuel fuel') :
    Agree spent (I stack) (operation.perform fuel) (operation.perform fuel') := by
  have hcall : ∀ raw i method,
      Agree spent (I (raw :: stack)) (invoke fuel i method) (invoke fuel' i method) := by
    intro raw i method
    have hf' : Fuelled spent bound (raw :: stack).length fuel fuel' := hf.mono
    exact hI.agree_invoke hf' i method
  cases operation with
  | render tree => exact (Agree.of_keeps (hI.keeps_render ho)).discard
  | renderAndMount tree => exact (Agree.of_keeps (hI.keeps_renderAndMount ho)).discard
  | renderJson json => exact (Agree.of_keeps (hI.keeps_renderJson json)).discard
  | mount i => exact .of_keeps (hI.keeps_mount i)
  | unmount i => exact .of_keeps (hI.keeps_unmount i)
  | setAttribute i key value => exact .of_keeps (hI.keeps_setAttribute i key value)
  | markDirty i => exact .of_keeps (hI.keeps_markDirty i)
  | invoke i method => exact hI.agree_invoke hf i method
  | emit target => exact hI.agree_emitWith target (hcall target)
  | dispatch i event => exact hI.agree_dispatchWith hcall i event
  | dispatchNamed name event => exact hI.agree_dispatchNamedWith hcall name event
  | flush => exact (Agree.of_keeps hI.keeps_flush).discard
  | define kind method script => exact (Agree.of_keeps (hI.keeps_define ho)).discard

theorem Invariant.keeps_operation {allowed : Action → Prop} {I : List String → Engine → Prop}
    (hI : Invariant True bound allowed I) {operation : Operation} (ho : operation.Allowed allowed)
    (fuel : Nat) (stack : List String) : Keeps True (I stack) (operation.perform fuel) :=
  (hI.agree_operation ho (.inl ⟨trivial, rfl⟩)).keeps

theorem Operation.allowed_of_forall {allowed : Action → Prop} (h : ∀ action, allowed action)
    (operation : Operation) : operation.Allowed allowed := by
  cases operation with
  | render tree => exact h _
  | renderAndMount tree => exact h _
  | define kind method script => exact h _
  | _ => trivial

/-- What every edit keeps is an invariant. -/
theorem Invariant.of_edit {P : Engine → Prop}
    (step : ∀ {e e'}, Coherent e → P e → Edit e e' → P e') :
    Invariant True 0 (fun _ => True) (fun _ e => Coherent e ∧ P e) where
  coherent h := h.1
  bounded _ := .inl trivial
  act h ha := ⟨ha.coherent h.1, step h.1 h.2 (.act ha)⟩
  render _ h hr := by
    obtain ⟨hb, -⟩ := builds_of_render h.1 hr
    exact ⟨hb.coherent h.1, Edits.keep step hb.edits h.1 h.2⟩
  define _ h := ⟨Edit.coherent (.define _ _ _) h.1, step h.1 h.2 (.define _ _ _)⟩
  enter _ h _ := ⟨Edit.coherent (.depth _) h.1, step h.1 h.2 (.depth _)⟩
  leave h :=
    leave_keep (P := fun e => Coherent e ∧ P e) ⟨Edit.coherent (.depth _) h.1, step h.1 h.2 (.depth _)⟩
      fun h => ⟨Edit.coherent (.act .flush) h.1, step h.1 h.2 (.act .flush)⟩
  parsed _ := trivial
  body _ _ _ _ := trivial
  direct _ := trivial

theorem invariant_edits (e : Engine) :
    Invariant True 0 (fun _ => True) (fun _ e' => Coherent e' ∧ Edits e e') :=
  .of_edit fun _ h hs => h.tail hs

theorem Operation.edits (operation : Operation) (fuel : Nat) (hc : Coherent e) :
    ((operation.perform fuel).run e).Ends (Edits e) := by
  have ho : operation.Allowed (fun _ => True) := operation.allowed_of_forall fun _ => trivial
  have hk := (invariant_edits e).keeps_operation ho fuel [] e ⟨hc, .refl⟩
  exact hk.imp fun _ h => h.2

def fresh (settings : Settings) (catalog : Catalog) (operations : Operations)
    (recorder : Option Recorder) : Engine :=
  { settings, catalog, operations, recorder }

/-- A step of a run, so that the states inside dispatches and method bodies count. -/
inductive Step : Engine → Engine → Prop
  | done (operation : Operation) (fuel : Nat)
    (h : (operation.perform fuel).run e = .done () e') : Step e e'
  | failed (operation : Operation) (fuel : Nat)
    (h : (operation.perform fuel).run e = .failed error e') : Step e e'
  | enter (h : e.atLimit = false) : Step e e.enter
  | leave (h : 0 < e.dispatchDepth) : Step e e.leave
  | call (method : String) (h : e.document.get? i = some x) :
    Step e (e.tell [.invokeMethod i method])
  | log (line : String) : Step e { e with journal := e.journal ++ [line] }

def Run : Engine → Engine → Prop :=
  Relation.ReflTransGen Step

/-- The states that a new engine can come to. -/
def Reachable (e : Engine) : Prop :=
  ∃ settings catalog operations recorder, Run (fresh settings catalog operations recorder) e

theorem Step.edits (h : Step e e') (hc : Coherent e) : Edits e e' := by
  cases h with
  | done operation fuel h =>
    have hm := operation.edits fuel hc
    rw [h] at hm
    exact hm
  | failed operation fuel h =>
    have hm := operation.edits fuel hc
    rw [h] at hm
    exact hm
  | enter _ => exact .single (.depth _)
  | leave _ => exact leave_keep (P := Edits e) (.single (.depth _)) fun h => h.tail (.act .flush)
  | call method h => exact .single (.act (.call method h))
  | log line => exact .single (.act (.log line))

theorem Run.edits (h : Run e e') (hc : Coherent e) : Edits e e' := by
  induction h with
  | refl => exact .refl
  | tail _ h ih => exact ih.trans (h.edits (Edits.coherent ih hc))

theorem coherent_fresh (settings : Settings) (catalog : Catalog) (operations : Operations)
    (recorder : Option Recorder) : Coherent (fresh settings catalog operations recorder) :=
  ⟨Document.forest_empty, NameIndex.wellFormed_empty⟩

theorem Reachable.coherent (h : Reachable e) : Coherent e := by
  obtain ⟨settings, catalog, operations, recorder, h⟩ := h
  have hc := coherent_fresh settings catalog operations recorder
  exact Edits.coherent (Run.edits h hc) hc

/-- What holds of new engines and is kept by edits holds of every reachable state. -/
theorem Reachable.keep {P : Engine → Prop}
    (hp : ∀ settings catalog operations recorder, P (fresh settings catalog operations recorder))
    (step : ∀ {e e'}, Coherent e → P e → Edit e e' → P e') (h : Reachable e) : P e := by
  obtain ⟨settings, catalog, operations, recorder, h⟩ := h
  have hc := coherent_fresh settings catalog operations recorder
  exact Edits.keep step (Run.edits h hc) hc (hp settings catalog operations recorder)

/-- The engine after operations, done or failed. What runs out of fuel is passed over. -/
def after (fuel : Nat) (e : Engine) : List Operation → Engine
  | [] => e
  | operation :: rest =>
    match (operation.perform fuel).run e with
    | .done _ e' => after fuel e' rest
    | .failed _ e' => after fuel e' rest
    | .exhausted => after fuel e rest

theorem run_after (fuel : Nat) (e : Engine) (operations : List Operation) :
    Run e (after fuel e operations) := by
  induction operations generalizing e with
  | nil => exact .refl
  | cons operation rest ih =>
    rw [after]
    split
    · rename_i h
      exact .head (.done operation fuel h) (ih _)
    · rename_i h
      exact .head (.failed operation fuel h) (ih _)
    · exact ih e

end Engine

end LiveTree
