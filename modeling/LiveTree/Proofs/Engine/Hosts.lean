import LiveTree.Proofs.Engine.Mirroring
import LiveTree.Proofs.Engine.Visit

namespace LiveTree
set_option autoImplicit true

/-- A host in the place of another. It comes to the same whether it is told or the other one was. -/
structure Rehosting where
  replace : Option Recorder → Option Recorder
  replace_replay : ∀ recorder ps,
    replace (recorder.map (·.replay ps)) = (replace recorder).map (·.replay ps)

namespace Engine

def rehosted (host : Rehosting) (e : Engine) : Engine :=
  { e with recorder := host.replace e.recorder }

theorem rehosted_tell (host : Rehosting) (ps : List Patch) (e : Engine) :
    (e.rehosted host).tell ps = (e.tell ps).rehosted host := by
  simp only [rehosted, tell, host.replace_replay]

theorem rehosted_leave (host : Rehosting) (e : Engine) :
    (e.rehosted host).leave = e.leave.rehosted host := by
  rw [leave, leave, apply_ite (rehosted host)]
  rfl

/-- What a computation does is the same for another host. -/
def Carries (host : Rehosting) (x : EngineM α) : Prop :=
  ∀ e, x.run (e.rehosted host) = (x.run e).mapEngine (rehosted host)

namespace Carries

variable {host : Rehosting}

theorem pure (a : α) : Carries host (Pure.pure a : EngineM α) := fun _ => rfl

theorem throw (error : Error) : Carries host (MonadExcept.throw error : EngineM α) := fun _ => rfl

theorem ofExcept (x : Except Error α) : Carries host (EngineM.ofExcept x) := by
  cases x with
  | ok a => exact pure a
  | error error => exact throw error

theorem modify {f : Engine → Engine} (hf : ∀ e, f (e.rehosted host) = (f e).rehosted host) :
    Carries host (modify f : EngineM PUnit) := by
  intro e
  rw [EngineM.run_modify, EngineM.run_modify, hf]
  rfl

theorem bind {x : EngineM α} {f : α → EngineM β} (hx : Carries host x) (hf : ∀ a, Carries host (f a)) :
    Carries host (x >>= f) := by
  intro e
  rw [EngineM.run_bind, EngineM.run_bind, hx e]
  cases x.run e with
  | done a e' => exact hf a e'
  | failed error e' => rfl
  | exhausted => rfl

theorem discard {x : EngineM α} (hx : Carries host x) : Carries host (Functor.discard x) :=
  hx.bind fun _ => pure _

theorem get {f : Engine → EngineM α} (hf : ∀ e, f (e.rehosted host) = f e)
    (h : ∀ e, Carries host (f e)) : Carries host (MonadState.get >>= f) := by
  intro e
  rw [EngineM.run_bind_done (EngineM.run_get _), EngineM.run_bind_done (EngineM.run_get _), hf]
  exact h e e

theorem tryCatch {x : EngineM α} {handler : Error → EngineM α} (hx : Carries host x)
    (hh : ∀ error, Carries host (handler error)) : Carries host (MonadExcept.tryCatch x handler) := by
  intro e
  rw [EngineM.run_tryCatch, EngineM.run_tryCatch, hx e]
  cases x.run e with
  | done a e' => rfl
  | failed error e' => exact hh error e'
  | exhausted => rfl

theorem forM {f : α → EngineM PUnit} {xs : List α} (hf : ∀ x, Carries host (f x)) :
    Carries host (xs.forM f) := by
  induction xs with
  | nil => exact pure _
  | cons x xs ih => exact bind (hf x) fun _ => ih

theorem element (i : ElementId) : Carries host (Engine.element i) := by
  apply get (fun _ => rfl)
  intro e
  cases e.document.get? i with
  | none => exact throw _
  | some x => exact pure x

theorem modifyElement (i : ElementId) (f : Element → Element) : Carries host (Engine.modifyElement i f) :=
  modify fun _ => rfl

theorem record (p : Patch) : Carries host (Engine.record p) := by
  intro e
  rw [run_record, run_record, rehosted_tell]
  rfl

theorem log (line : String) : Carries host (Engine.log line) :=
  modify fun _ => rfl

theorem register (name : String) (i : ElementId) : Carries host (Engine.register name i) := by
  intro e
  rw [Engine.register, EngineM.run_bind_done (EngineM.run_get _), EngineM.run_bind_done (EngineM.run_get _)]
  dsimp only [rehosted]
  cases e.names.register e.settings.namePolicy name i <;> rfl

theorem unregister (name : String) (i : ElementId) : Carries host (Engine.unregister name i) :=
  modify fun _ => rfl

theorem rename (i : ElementId) (name : String) : Carries host (Engine.rename i name) := by
  apply (element i).bind
  intro x
  split
  · exact pure _
  split
  · apply get (fun _ => rfl)
    intro e
    apply (ofExcept _).bind
    intro _
    split
    · apply bind _ fun _ => modifyElement i _
      exact (unregister x.name i).bind fun _ => register name i
    · exact (register name i).bind fun _ => modifyElement i _
  · exact modifyElement i _

theorem setAttribute (i : ElementId) (key : String) (value : Json) :
    Carries host (Engine.setAttribute i key value) := by
  apply (element i).bind
  intro x
  apply get (fun _ => rfl)
  intro e
  have hw (stored : Json) : Carries host (do
      Engine.modifyElement i (fun e => (e.setAttribute key stored).markDirty)
      Engine.record (.setAttribute i key stored)) :=
    (modifyElement i _).bind fun _ => record _
  dsimp only
  split
  · split
    · exact (rename i _).bind fun _ => hw _
    · exact hw _
  · exact hw _

theorem markDirty (i : ElementId) : Carries host (Engine.markDirty i) :=
  (element i).bind fun _ => modifyElement i _

theorem flush : Carries host Engine.flush := fun _ => rfl

theorem define (kind : Kind) (method : String) (script : Script) :
    Carries host (Engine.define kind method script) := fun _ => rfl

theorem createElement (profile : Profile) (props : OrderedMap Json) (placeName : String) :
    Carries host (Engine.createElement profile props placeName) := by
  intro e
  rw [Engine.createElement, EngineM.run_bind_done (EngineM.run_get _),
    EngineM.run_bind_done (EngineM.run_get _)]
  dsimp only [Document.add, rehosted]
  rw [EngineM.run_bind_done (EngineM.run_set _ _), EngineM.run_bind_done (EngineM.run_set _ _)]
  have hset : Carries host ((storedProps profile props).forM fun entry =>
      Engine.record (.setAttribute e.document.nextId entry.1 entry.2)) :=
    forM fun _ => record _
  exact (record _).bind (fun _ => hset.bind fun _ => (modifyElement _ _).bind fun _ => pure _)
    { e with document := (e.document.add profile.kind (nameOf props placeName)).2 }

theorem adopt (p : ElementId) (slot : String) (c : ElementId) : Carries host (Engine.adopt p slot c) := by
  intro e
  rw [Engine.adopt, EngineM.run_bind_done (EngineM.run_get _), EngineM.run_bind_done (EngineM.run_get _)]
  dsimp only [rehosted]
  cases e.document.attach p slot c with
  | error error => rfl
  | ok d => exact record _ { e with document := d }

mutual

theorem renderAs (placeName : String) (tree : Tree) : Carries host (Engine.renderAs placeName tree) := by
  match tree with
  | ⟨component, props, slots⟩ =>
    rw [Engine.renderAs]
    apply get (fun _ => rfl)
    intro e
    apply (ofExcept _).bind
    intro profile
    apply (createElement profile props placeName).bind
    intro i
    exact (renderSlots i _ slots).bind fun _ => pure i

theorem renderSlots (parent : ElementId) (name : String) (slots : List (String × List Tree)) :
    Carries host (Engine.renderSlots parent name slots) := by
  match slots with
  | [] =>
    rw [Engine.renderSlots]
    exact pure ()
  | (slot, children) :: rest =>
    rw [Engine.renderSlots]
    exact (renderChildren parent name slot 0 children).bind fun _ => renderSlots parent name rest

theorem renderChildren (parent : ElementId) (name slot : String) (index : Nat) (children : List Tree) :
    Carries host (Engine.renderChildren parent name slot index children) := by
  match children with
  | [] =>
    rw [Engine.renderChildren]
    exact pure ()
  | child :: rest =>
    rw [Engine.renderChildren]
    apply (renderAs _ child).bind
    intro i
    apply (adopt parent slot i).bind
    intro _
    exact renderChildren parent name slot (index + 1) rest

end

theorem render (tree : Tree) : Carries host (Engine.render tree) := by
  apply get (fun _ => rfl)
  intro e
  apply (ofExcept _).bind
  intro _
  apply (ofExcept _).bind
  intro profile
  exact renderAs profile.tag tree

theorem mount (root : ElementId) : Carries host (Engine.mount root) := by
  apply get (fun _ => rfl)
  intro e
  apply (element root).bind
  intro _
  apply (ofExcept _).bind
  intro _
  have hreg : Carries host (((pending e.document root).filter (·.declared)).forM fun x =>
      Engine.register x.name x.id) :=
    forM fun x => register x.name x.id
  exact hreg.bind fun _ => modify fun _ => rfl

theorem prune (root : ElementId) : Carries host (Engine.prune root) := by
  intro e
  rw [Engine.prune, EngineM.run_bind_done (EngineM.run_get _), EngineM.run_bind_done (EngineM.run_get _)]
  dsimp only [rehosted]
  cases e.document.prune root <;> rfl

theorem withdraw (root : ElementId) : Carries host (Engine.withdraw root) :=
  (prune root).bind fun _ => forM fun _ => record _

theorem unmount (root : ElementId) : Carries host (Engine.unmount root) := by
  apply (prune root).bind
  intro removed
  apply forM
  intro x
  split
  · exact (unregister x.name x.id).bind fun _ => record _
  · exact record _

theorem renderAndMount (tree : Tree) : Carries host (Engine.renderAndMount tree) := by
  apply (render tree).bind
  intro root
  apply bind _ fun _ => pure root
  apply (mount root).tryCatch
  intro error
  exact (withdraw root).bind fun _ => throw error

theorem renderJson (json : String) : Carries host (Engine.renderJson json) := by
  rw [Engine.renderJson]
  split
  · exact renderAndMount _
  · exact throw _

section Calls

variable {call : Caller} (hcall : ∀ i method, Carries host (call i method))
include hcall

theorem applyEffects (i : ElementId) (effects : List Effect) :
    Carries host (Engine.applyEffects call i effects) := by
  induction effects with
  | nil => exact pure _
  | cons effect rest ih =>
    apply get (fun _ => rfl)
    intro e
    split
    · cases effect with
      | write key value => exact (setAttribute i key value).bind fun _ => ih
      | call method => exact (hcall i method).bind fun _ => ih
    · exact pure _

theorem applyListener (target : Target) : Carries host (Engine.applyListener call target) := by
  apply get (fun _ => rfl)
  intro e
  split
  · apply (element _).bind
    intro x
    apply (ofExcept _).bind
    intro effects
    exact applyEffects hcall _ effects
  · exact pure _

theorem emitWith (raw : String) : Carries host (Engine.emitWith call raw) := by
  intro e
  have hlimit : (e.rehosted host).atLimit = e.atLimit := rfl
  have henter : (e.rehosted host).enter = e.enter.rehosted host := rfl
  rw [run_emitWith, run_emitWith, hlimit, henter, applyListener hcall (.parse raw) e.enter]
  split
  · rfl
  · cases (Engine.applyListener call (.parse raw)).run e.enter with
    | done _ e' => exact congrArg (Outcome.done ()) (rehosted_leave host e')
    | failed error e' => exact congrArg (Outcome.failed error) (rehosted_leave host e')
    | exhausted => rfl

theorem dispatchWith (i : ElementId) (event : String) :
    Carries host (Engine.dispatchWith call i event) := by
  apply (element i).bind
  intro x
  exact forM fun raw => emitWith hcall raw

theorem dispatchNamedWith (name event : String) :
    Carries host (Engine.dispatchNamedWith call name event) := by
  apply get (fun _ => rfl)
  intro e
  split
  · exact dispatchWith hcall _ event
  · exact pure _

theorem perform (i : ElementId) (action : Action) : Carries host (Engine.perform call i action) := by
  cases action with
  | emit target => exact emitWith hcall target
  | tryEmit target =>
    exact ((emitWith hcall target).bind fun _ => log _).tryCatch fun _ => log _
  | setAttribute key value => exact setAttribute i key value
  | invoke method => exact hcall i method
  | mount => exact mount i
  | unmount => exact unmount i
  | markDirty => exact markDirty i
  | dispatch event => exact dispatchWith hcall i event
  | dispatchNamed name event => exact dispatchNamedWith hcall name event
  | render tree => exact (render tree).bind fun _ => log _
  | renderJson json => exact (renderJson json).bind fun _ => log _
  | flush => exact flush.bind fun _ => log _
  | log text => exact log text
  | look key => exact get (fun _ => rfl) fun _ => log _
  | describe => exact get (fun _ => rfl) fun _ => log _
  | define kind method script => exact (define kind method script).bind fun _ => log _
  | fail name => exact throw _

theorem performOn (receiver : ElementId) (action : Action) (subject : Subject) :
    Carries host (Engine.performOn call receiver action subject) := by
  cases subject with
  | receiver => exact perform hcall receiver action
  | element i => exact perform hcall i action
  | named name =>
    apply get (fun _ => rfl)
    intro e
    split
    · exact perform hcall _ action
    · exact log _

end Calls

theorem invoke (fuel : Nat) (i : ElementId) (method : String) :
    Carries host (Engine.invoke fuel i method) := by
  induction fuel generalizing i method with
  | zero => exact fun _ => rfl
  | succ fuel ih =>
    apply (element i).bind
    intro x
    apply get (fun _ => rfl)
    intro e
    split
    · apply (record _).bind
      intro _
      exact forM fun step => performOn ih i step.2 step.1
    · exact throw _

theorem operation (fuel : Nat) (operation : Operation) : Carries host (operation.perform fuel) := by
  cases operation with
  | render tree => exact (render tree).discard
  | renderAndMount tree => exact (renderAndMount tree).discard
  | renderJson json => exact (renderJson json).discard
  | mount i => exact mount i
  | unmount i => exact unmount i
  | setAttribute i key value => exact setAttribute i key value
  | markDirty i => exact markDirty i
  | invoke i method => exact invoke fuel i method
  | emit target => exact emitWith (invoke fuel) target
  | dispatch i event => exact dispatchWith (invoke fuel) i event
  | dispatchNamed name event => exact dispatchNamedWith (invoke fuel) name event
  | flush => exact flush.discard
  | define kind method script => exact (define kind method script).discard

end Carries

/-- The engine with a host that was told these patches. -/
def hearing (ps : List Patch) (e : Engine) : Engine :=
  { e with recorder := some ⟨ps⟩ }

theorem hearing_tell (ps qs : List Patch) (e : Engine) :
    (e.hearing ps).tell qs = (e.tell qs).hearing (ps ++ qs) := by
  rw [hearing, tell, Option.map_some, ← Recorder.patches_replay ⟨ps⟩ qs]
  rfl

theorem hearing_leave (ps : List Patch) (e : Engine) :
    (e.hearing ps).leave = e.leave.hearing ps := by
  rw [leave, leave, apply_ite (hearing ps)]
  rfl

theorem Coherent.hearing (h : Coherent e) (ps : List Patch) : Coherent (e.hearing ps) :=
  ⟨h.forest, h.names⟩

/-- Nobody is told. -/
def silence : Rehosting where
  replace _ := none
  replace_replay _ _ := rfl

theorem eq_hearing {e d : Engine} (h : d.rehosted silence = e.rehosted silence)
    (hr : d.recorder = some r) : d = e.hearing r.patches := by
  cases d
  cases e
  cases hr
  cases h
  rfl

theorem exists_hearing_outcome {o o' : Outcome α}
    (h : o'.mapEngine (rehosted silence) = o.mapEngine (rehosted silence))
    (hr : o'.Ends fun d => ∃ r, d.recorder = some r) : ∃ qs, o' = o.mapEngine (hearing qs) := by
  cases o' with
  | done value d =>
    obtain ⟨r, hr⟩ := hr
    cases o with
    | done value' e =>
      obtain ⟨rfl, he⟩ := Outcome.done.inj h
      exact ⟨r.patches, congrArg (Outcome.done value) (eq_hearing he hr)⟩
    | failed error e => cases h
    | exhausted => cases h
  | failed error d =>
    obtain ⟨r, hr⟩ := hr
    cases o with
    | done value e => cases h
    | failed error' e =>
      obtain ⟨rfl, he⟩ := Outcome.failed.inj h
      exact ⟨r.patches, congrArg (Outcome.failed error) (eq_hearing he hr)⟩
    | exhausted => cases h
  | exhausted =>
    cases o with
    | done value e => cases h
    | failed error e => cases h
    | exhausted => exact ⟨[], rfl⟩

/-- It makes no difference to an operation who hears of it. -/
theorem exists_hearing (operation : Operation) (fuel : Nat) (hc : Coherent e) (ps : List Patch) :
    ∃ qs, (operation.perform fuel).run (e.hearing ps) =
      ((operation.perform fuel).run e).mapEngine (hearing qs) := by
  -- once nobody is told the two runs are one, and a recorder is never lost on the way
  have hs : Carries silence (operation.perform fuel) := Carries.operation fuel operation
  have hends := operation.edits fuel (hc.hearing ps)
  apply exists_hearing_outcome ((hs (e.hearing ps)).symm.trans (hs e))
  apply hends.imp
  intro d hd
  obtain ⟨qs, hr, -⟩ := Edits.followed hd (hc.hearing ps)
  exact ⟨_, hr⟩

/-- The states that new engines pass through, with all that a host would have been told on the way, had
there been one from the start, whoever was told in fact. -/
inductive Heard (allowed : Action → Prop) (exchange : Catalog → Catalog → Prop) :
    List Patch → List String → Engine → Prop
  | fresh {catalog : Catalog} (settings : Settings) (operations : Operations)
    (recorder : Option Recorder) (h : catalog.Obeys allowed) :
    Heard allowed exchange [] [] (fresh settings catalog operations recorder)
  | done (operation : Operation) (fuel : Nat) (h : Heard allowed exchange ps stack e)
    (ho : operation.Allowed allowed) (hr : (operation.perform fuel).run e = .done () e')
    (ht : (operation.perform fuel).run (e.hearing ps) = .done () (e'.hearing qs)) :
    Heard allowed exchange qs stack e'
  | failed (operation : Operation) (fuel : Nat) (h : Heard allowed exchange ps stack e)
    (ho : operation.Allowed allowed) (hr : (operation.perform fuel).run e = .failed error e')
    (ht : (operation.perform fuel).run (e.hearing ps) = .failed error (e'.hearing qs)) :
    Heard allowed exchange qs stack e'
  | refit {catalog : Catalog} (operations : Operations) (recorder : Option Recorder)
    (h : Heard allowed exchange ps stack e) (hx : exchange e.catalog catalog)
    (hm : catalog.Obeys allowed) :
    Heard allowed exchange ps stack { e with catalog, operations, recorder }
  | enter (raw : String) (h : Heard allowed exchange ps stack e) (hl : e.atLimit = false) :
    Heard allowed exchange ps (raw :: stack) e.enter
  | leave (h : Heard allowed exchange ps (raw :: stack) e) : Heard allowed exchange ps stack e.leave
  | call (method : String) (h : Heard allowed exchange ps stack e) (hx : e.document.get? i = some x) :
    Heard allowed exchange (ps ++ [.invokeMethod i method]) stack (e.tell [.invokeMethod i method])
  | log (line : String) (h : Heard allowed exchange ps stack e) :
    Heard allowed exchange ps stack { e with journal := e.journal ++ [line] }

variable {allowed : Action → Prop} {exchange : Catalog → Catalog → Prop}

theorem Heard.visited (h : Heard allowed exchange ps stack e) : Visited allowed exchange stack e := by
  induction h with
  | fresh settings operations recorder h => exact .fresh settings operations recorder h
  | done operation fuel _ ho hr _ ih => exact ih.done operation fuel ho hr
  | failed operation fuel _ ho hr _ ih => exact ih.failed operation fuel ho hr
  | refit operations recorder _ hx hm ih => exact ih.refit operations recorder hx hm
  | enter raw _ hl ih => exact ih.enter raw hl
  | leave _ ih => exact ih.leave
  | call method _ hx ih => exact ih.call method hx
  | log line _ ih => exact ih.log line

theorem Heard.coherent (hl : Lawful True allowed) (h : Heard allowed exchange ps stack e) : Coherent e :=
  (h.visited.level hl).coherent

/-- However an engine came to a state, there is what a host would have been told. -/
theorem Visited.heard (hl : Lawful True allowed) (h : Visited allowed exchange stack e) :
    ∃ ps, Heard allowed exchange ps stack e := by
  induction h with
  | fresh settings operations recorder h => exact ⟨[], .fresh settings operations recorder h⟩
  | done operation fuel _ ho hr ih =>
    obtain ⟨ps, h⟩ := ih
    obtain ⟨qs, ht⟩ := exists_hearing operation fuel (h.coherent hl) ps
    rw [hr] at ht
    exact ⟨qs, h.done operation fuel ho hr ht⟩
  | failed operation fuel _ ho hr ih =>
    obtain ⟨ps, h⟩ := ih
    obtain ⟨qs, ht⟩ := exists_hearing operation fuel (h.coherent hl) ps
    rw [hr] at ht
    exact ⟨qs, h.failed operation fuel ho hr ht⟩
  | refit operations recorder _ hx hm ih =>
    obtain ⟨ps, h⟩ := ih
    exact ⟨ps, h.refit operations recorder hx hm⟩
  | enter raw _ hl ih =>
    obtain ⟨ps, h⟩ := ih
    exact ⟨ps, h.enter raw hl⟩
  | leave _ ih =>
    obtain ⟨ps, h⟩ := ih
    exact ⟨ps, h.leave⟩
  | call method _ hx ih =>
    obtain ⟨ps, h⟩ := ih
    exact ⟨_, h.call method hx⟩
  | log line _ ih =>
    obtain ⟨ps, h⟩ := ih
    exact ⟨ps, h.log line⟩

/-- An invariant of every engine that has a host from the start holds of the state and what was heard. -/
theorem Heard.keep {I : Settings → List String → Engine → Prop} {bound : Settings → Nat}
    (hI : ∀ settings, Invariant True (bound settings) allowed (I settings))
    (h₀ : ∀ settings catalog operations, catalog.Obeys allowed →
      I settings [] (Engine.fresh settings catalog operations (some {})))
    (hx : ∀ {settings stack e catalog} operations, I settings stack e →
      exchange e.catalog catalog → catalog.Obeys allowed →
      I settings stack { e with catalog, operations })
    (h : Heard allowed exchange ps stack e) : ∃ settings, I settings stack (e.hearing ps) := by
  induction h with
  | fresh settings operations recorder h => exact ⟨settings, h₀ settings _ operations h⟩
  | done operation fuel _ ho _ ht ih =>
    obtain ⟨settings, h⟩ := ih
    have hk := (hI settings).keeps_operation ho fuel _ _ h
    rw [ht] at hk
    exact ⟨settings, hk⟩
  | failed operation fuel _ ho _ ht ih =>
    obtain ⟨settings, h⟩ := ih
    have hk := (hI settings).keeps_operation ho fuel _ _ h
    rw [ht] at hk
    exact ⟨settings, hk⟩
  | refit operations recorder _ hx' hm ih =>
    obtain ⟨settings, h⟩ := ih
    exact ⟨settings, hx operations h hx' hm⟩
  | enter raw _ hl ih =>
    obtain ⟨settings, h⟩ := ih
    exact ⟨settings, (hI settings).enter raw h hl⟩
  | leave _ ih =>
    obtain ⟨settings, h⟩ := ih
    rw [← hearing_leave]
    exact ⟨settings, (hI settings).leave h⟩
  | call method _ hx ih =>
    obtain ⟨settings, h⟩ := ih
    rw [← hearing_tell]
    exact ⟨settings, (hI settings).act h (.call method hx)⟩
  | log line _ ih =>
    obtain ⟨settings, h⟩ := ih
    exact ⟨settings, (hI settings).act h (.log line)⟩

/-- What would be heard of operations is what a host hears of them. -/
theorem Heard.after {operations : List Operation} (hl : Lawful True allowed) (fuel : Nat)
    (h : Heard allowed exchange ps stack e) (ho : ∀ operation ∈ operations, operation.Allowed allowed) :
    Heard allowed exchange (Engine.after fuel (e.hearing ps) operations).patches stack
      (Engine.after fuel e operations) := by
  induction operations generalizing e ps with
  | nil => exact h
  | cons operation rest ih =>
    obtain ⟨hf, hrest⟩ := List.forall_mem_cons.1 ho
    obtain ⟨qs, ht⟩ := exists_hearing operation fuel (h.coherent hl) ps
    rw [Engine.after, Engine.after, ht]
    cases hr : (operation.perform fuel).run e with
    | done value e' =>
      rw [hr] at ht
      exact ih (h.done operation fuel hf hr ht) hrest
    | failed error e' =>
      rw [hr] at ht
      exact ih (h.failed operation fuel hf hr ht) hrest
    | exhausted => exact ih h hrest

end Engine

end LiveTree
