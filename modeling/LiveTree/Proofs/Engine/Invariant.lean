import LiveTree.Proofs.Engine.Equations
import LiveTree.Proofs.Engine.Rendering

namespace LiveTree.Engine
set_option autoImplicit true

theorem run_emitWith (call : Caller) (raw : String) (e : Engine) :
    (emitWith call raw).run e =
      if e.atLimit then .failed (.depthExceeded raw e.settings.maxDispatchDepth) e
      else ((applyListener call (.parse raw)).run e.enter).mapEngine leave :=
  rfl

theorem run_renderAndMount_unknown {e : Engine} (h : checkKinds e.catalog tree = .error error) :
    (renderAndMount tree).run e = .failed error e := by
  rw [renderAndMount, EngineM.run_bind_failed (run_render_unknown h)]

/-- A tree that is rendered to be mounted is mounted if its names may be taken, and else removed. -/
theorem run_renderAndMount {e : Engine} (hc : Coherent e) (hk : checkKinds e.catalog tree = .ok ()) :
    ∃ (placeName : String) (e' : Engine) (root : Element),
      (render tree).run e = .done e.document.nextId e' ∧ Builds e e' ∧
      e'.document =
        { elements := e.document.elements ++
            elementsOf e.catalog none placeName e.document.nextId tree
          nextId := e.document.nextId + tree.size } ∧
      e'.document.get? e.document.nextId = some root ∧
      (checkNames e'.names e'.settings.namePolicy [] (pending e'.document e.document.nextId) =
            .ok () ∧
          (renderAndMount tree).run e =
            .done e.document.nextId (e'.mounted e.document.nextId) ∨
        ∃ error,
          checkNames e'.names e'.settings.namePolicy [] (pending e'.document e.document.nextId) =
            .error error ∧
          (renderAndMount tree).run e = .failed error (e'.removed e.document.nextId)) := by
  obtain ⟨profile, e', -, hr, hb, hd⟩ := run_render hc hk
  have hc' := hb.coherent hc
  obtain ⟨root, below, hid, hroot⟩ := elementsOf_eq hk profile.tag e.document.nextId
  have hget : e'.document.get? e.document.nextId = some { root with parent := none } :=
    hc'.forest.get?_eq_some.2 ⟨by simp [hd, hroot], hid⟩
  refine ⟨profile.tag, e', _, hr, hb, hd, hget, ?_⟩
  rw [renderAndMount, EngineM.run_bind_done hr, EngineM.run_bind, EngineM.run_tryCatch]
  cases hn : checkNames e'.names e'.settings.namePolicy []
      (pending e'.document e.document.nextId) with
  | ok _ =>
    rw [run_mount hc'.names hget hn]
    exact .inl ⟨rfl, rfl⟩
  | error error =>
    -- nothing of the new tree is mounted yet, so to withdraw it is to remove it
    have hm : ∀ y ∈ (e'.document.preorder e.document.nextId).filterMap e'.document.get?,
        y.mounted = false := by
      intro y hy
      obtain ⟨j, hj, hy⟩ := List.mem_filterMap.1 hy
      have hle := hc'.forest.le_of_under (hc'.forest.under_of_mem_preorder hget hj)
      exact (untouched_of_get? hc.forest (congrArg Document.elements hd) hle hy).1
    rw [run_mount_clash hget hn]
    dsimp only
    rw [EngineM.run_bind_done (run_withdraw hc'.forest hget hm)]
    exact .inr ⟨error, rfl, rfl⟩

/-- A computation keeps a property, done or failed. It runs out of fuel only if `spent` holds. -/
def Keeps (spent : Prop) (P : Engine → Prop) (x : EngineM α) : Prop :=
  ∀ e, P e → (x.run e).Leaves spent P

/-- Two computations are the same in every state with a property, which they keep. -/
def Agree (spent : Prop) (P : Engine → Prop) (x y : EngineM α) : Prop :=
  ∀ e, P e → x.run e = y.run e ∧ (x.run e).Leaves spent P

namespace Agree

variable {P : Engine → Prop}

theorem keeps {x y : EngineM α} (h : Agree spent P x y) : Keeps spent P x := by
  intro e he
  exact (h e he).2

theorem of_keeps {x : EngineM α} (h : Keeps spent P x) : Agree spent P x x := by
  intro e he
  exact ⟨rfl, h e he⟩

theorem of_stays {x : EngineM α}
    (h : ∀ e, (∃ a, x.run e = .done a e) ∨ ∃ error, x.run e = .failed error e) :
    Agree spent P x x := by
  intro e he
  refine ⟨rfl, ?_⟩
  rcases h e with ⟨a, hr⟩ | ⟨error, hr⟩
  · rw [hr]
    exact he
  · rw [hr]
    exact he

theorem pure (a : α) : Agree spent P (Pure.pure a : EngineM α) (Pure.pure a) :=
  of_stays fun _ => .inl ⟨a, rfl⟩

theorem get : Agree spent P (MonadState.get : EngineM Engine) MonadState.get :=
  of_stays fun e => .inl ⟨e, rfl⟩

theorem throw (error : Error) :
    Agree spent P (MonadExcept.throw error : EngineM α) (MonadExcept.throw error) :=
  of_stays fun _ => .inr ⟨error, rfl⟩

theorem ofExcept (x : Except Error α) : Agree spent P (EngineM.ofExcept x) (EngineM.ofExcept x) := by
  cases x with
  | ok a => exact pure a
  | error error => exact throw error

theorem element (i : ElementId) : Agree spent P (Engine.element i) (Engine.element i) := by
  apply of_stays
  intro e
  cases hx : e.document.get? i with
  | none => exact .inr ⟨_, run_element_none hx⟩
  | some x => exact .inl ⟨x, run_element_some hx⟩

theorem bind {x y : EngineM α} {f g : α → EngineM β} (hx : Agree spent P x y)
    (hf : ∀ a, Agree spent P (f a) (g a)) : Agree spent P (x >>= f) (y >>= g) := by
  intro e he
  obtain ⟨heq, hl⟩ := hx e he
  rw [EngineM.run_bind, EngineM.run_bind, ← heq]
  cases hr : x.run e with
  | done a e' =>
    rw [hr] at hl
    exact hf a e' hl
  | failed error e' =>
    rw [hr] at hl
    exact ⟨rfl, hl⟩
  | exhausted =>
    rw [hr] at hl
    exact ⟨rfl, hl⟩

theorem discard {x y : EngineM α} (hx : Agree spent P x y) :
    Agree spent P (Functor.discard x) (Functor.discard y) :=
  hx.bind fun _ => pure _

theorem tryCatch {x y : EngineM α} {handler : Error → EngineM α} (hx : Agree spent P x y)
    (hh : ∀ error, Keeps spent P (handler error)) :
    Agree spent P (MonadExcept.tryCatch x handler) (MonadExcept.tryCatch y handler) := by
  intro e he
  obtain ⟨heq, hl⟩ := hx e he
  rw [EngineM.run_tryCatch, EngineM.run_tryCatch, ← heq]
  refine ⟨rfl, ?_⟩
  cases hr : x.run e with
  | done a e' =>
    rw [hr] at hl
    exact hl
  | failed error e' =>
    rw [hr] at hl
    exact hh error e' hl
  | exhausted =>
    rw [hr] at hl
    exact hl

theorem forM {f g : α → EngineM PUnit} {xs : List α} (hf : ∀ a ∈ xs, Agree spent P (f a) (g a)) :
    Agree spent P (xs.forM f) (xs.forM g) := by
  induction xs with
  | nil => exact pure _
  | cons x xs ih =>
    obtain ⟨hx, hxs⟩ := List.forall_mem_cons.1 hf
    exact bind hx fun _ => ih hxs

end Agree

/-- A property of states, for each stack of emits in flight, that the steps of an engine keep. -/
structure Invariant (spent : Prop) (bound : Nat) (allowed : Action → Prop)
    (I : List String → Engine → Prop) : Prop where
  coherent : ∀ {stack e}, I stack e → Coherent e
  bounded : ∀ {stack e}, I stack e → spent ∨ stack.length ≤ bound
  act : ∀ {stack e e'}, I stack e → Act e e' → I stack e'
  render : ∀ {stack tree e root e'}, allowed (.render tree) → I stack e →
    (Engine.render tree).run e = .done root e' → I stack e'
  define : ∀ {stack kind method script e}, allowed (.define kind method script) → I stack e →
    I stack { e with catalog := e.catalog.define kind method script }
  enter : ∀ {stack e} (raw : String), I stack e → e.atLimit = false → I (raw :: stack) e.enter
  leave : ∀ {stack raw e}, I (raw :: stack) e → I stack e.leave
  parsed : ∀ {json tree}, Tree.parse json = .ok tree → allowed (.render tree)
  body : ∀ {stack e kind method script}, I stack e → e.catalog.method? kind method = some script →
    ∀ step ∈ script, allowed step.2
  direct : ∀ {method}, allowed (.invoke method) → spent

/-- Two amounts of fuel that make no difference below the bound. -/
def Fuelled (spent : Prop) (bound level fuel fuel' : Nat) : Prop :=
  spent ∧ fuel = fuel' ∨ ¬spent ∧ bound < level + fuel ∧ bound < level + fuel'

theorem Fuelled.deeper (h : Fuelled spent bound level (fuel + 1) (fuel' + 1)) :
    Fuelled spent bound (level + 1) fuel fuel' := by
  rcases h with ⟨hs, heq⟩ | ⟨hs, hlt, hlt'⟩
  · exact .inl ⟨hs, Nat.succ.inj heq⟩
  · exact .inr ⟨hs, by omega, by omega⟩

theorem Fuelled.direct (h : Fuelled spent bound level (fuel + 1) (fuel' + 1)) (hs : spent) :
    Fuelled spent bound level fuel fuel' := by
  rcases h with ⟨-, heq⟩ | ⟨hs', -⟩
  · exact .inl ⟨hs, Nat.succ.inj heq⟩
  · exact (hs' hs).elim

theorem Fuelled.mono (h : Fuelled spent bound level fuel fuel') :
    Fuelled spent bound (level + 1) fuel fuel' := by
  rcases h with ⟨hs, heq⟩ | ⟨hs, hlt, hlt'⟩
  · exact .inl ⟨hs, heq⟩
  · exact .inr ⟨hs, by omega, by omega⟩

/-- To leave a dispatch is to count it off, and perhaps to flush. -/
theorem leave_keep {P : Engine → Prop} {e : Engine}
    (h : P { e with dispatchDepth := e.dispatchDepth - 1 })
    (hf : ∀ {e}, P e → P e.flushed) : P e.leave := by
  rw [leave]
  dsimp only
  split
  · exact hf h
  · exact h

namespace Invariant

/-- Two invariants hold together, where less is allowed than one of them needs. -/
theorem and {I J : List String → Engine → Prop} {allowed allowed' : Action → Prop}
    (hI : Invariant spent bound allowed I) (hJ : Invariant spent' bound' allowed' J)
    (ha : ∀ action, allowed' action → allowed action) :
    Invariant spent' bound' allowed' (fun stack e => I stack e ∧ J stack e) where
  coherent h := hJ.coherent h.2
  bounded h := hJ.bounded h.2
  act h hs := ⟨hI.act h.1 hs, hJ.act h.2 hs⟩
  render hr h hs := ⟨hI.render (ha _ hr) h.1 hs, hJ.render hr h.2 hs⟩
  define hd h := ⟨hI.define (ha _ hd) h.1, hJ.define hd h.2⟩
  enter raw h hl := ⟨hI.enter raw h.1 hl, hJ.enter raw h.2 hl⟩
  leave h := ⟨hI.leave h.1, hJ.leave h.2⟩
  parsed h := hJ.parsed h
  body h hm := hJ.body h.2 hm
  direct h := hJ.direct h

variable {allowed : Action → Prop} {I : List String → Engine → Prop}
variable (hI : Invariant spent bound allowed I)
include hI

theorem keeps_log (line : String) : Keeps spent (I stack) (log line) := by
  intro e h
  exact hI.act h (.log line)

theorem keeps_flush : Keeps spent (I stack) flush := by
  intro e h
  exact hI.act h .flush

theorem keeps_define (ha : allowed (.define kind method script)) :
    Keeps spent (I stack) (Engine.define kind method script) := by
  intro e h
  exact hI.define ha h

theorem keeps_markDirty (i : ElementId) : Keeps spent (I stack) (markDirty i) := by
  intro e h
  cases hx : e.document.get? i with
  | none =>
    rw [run_markDirty_none hx]
    exact h
  | some x =>
    rw [run_markDirty hx]
    exact hI.act h (.touch hx)

theorem keeps_mount (root : ElementId) : Keeps spent (I stack) (mount root) := by
  intro e h
  rcases run_mount_cases (hI.coherent h) root with ⟨e', hr, ha⟩ | ⟨error, hr, -⟩
  · rw [hr]
    exact hI.act h ha
  · rw [hr]
    exact h

theorem keeps_unmount (root : ElementId) : Keeps spent (I stack) (unmount root) := by
  intro e h
  cases hx : e.document.get? root with
  | none =>
    rw [run_unmount_none hx]
    exact h
  | some x =>
    rw [run_unmount (hI.coherent h).forest hx]
    exact hI.act h (.remove hx)

theorem keeps_setAttribute (i : ElementId) (key : String) (value : Json) :
    Keeps spent (I stack) (setAttribute i key value) := by
  intro e h
  rcases run_setAttribute_cases (hI.coherent h) i key value with ⟨e', hr, ha⟩ | ⟨error, hr, -⟩
  · rw [hr]
    exact hI.act h ha
  · rw [hr]
    exact h

theorem keeps_render (ha : allowed (.render tree)) :
    Keeps spent (I stack) (Engine.render tree) := by
  intro e h
  cases hk : checkKinds e.catalog tree with
  | error error =>
    rw [run_render_unknown hk]
    exact h
  | ok _ =>
    obtain ⟨profile, e', -, hr, -, -⟩ := run_render (hI.coherent h) hk
    rw [hr]
    exact hI.render ha h hr

theorem keeps_renderAndMount (ha : allowed (.render tree)) :
    Keeps spent (I stack) (renderAndMount tree) := by
  intro e h
  cases hk : checkKinds e.catalog tree with
  | error error =>
    rw [run_renderAndMount_unknown hk]
    exact h
  | ok _ =>
    obtain ⟨placeName, e', root, hr, -, -, hget, hmount⟩ := run_renderAndMount (hI.coherent h) hk
    have h' := hI.render ha h hr
    rcases hmount with ⟨hn, hmount⟩ | ⟨error, hn, hmount⟩
    · rw [hmount]
      exact hI.act h' (.mount hget hn)
    · rw [hmount]
      exact hI.act h' (.remove hget)

theorem keeps_renderJson (json : String) : Keeps spent (I stack) (renderJson json) := by
  rw [renderJson]
  cases ht : Tree.parse json with
  | ok tree => exact hI.keeps_renderAndMount (hI.parsed ht)
  | error fault => exact (Agree.throw _).keeps

section Calls

variable {call call' : Caller}

theorem agree_applyEffects (hcall : ∀ i method, Agree spent (I stack) (call i method) (call' i method))
    (i : ElementId) (effects : List Effect) :
    Agree spent (I stack) (applyEffects call i effects) (applyEffects call' i effects) := by
  induction effects with
  | nil => exact .pure ()
  | cons effect rest ih =>
    apply Agree.bind .get
    intro e
    split
    · apply Agree.bind _ fun _ => ih
      cases effect with
      | write key value => exact .of_keeps (hI.keeps_setAttribute i key value)
      | call method => exact hcall i method
    · exact .pure ()

theorem agree_applyListener (hcall : ∀ i method, Agree spent (I stack) (call i method) (call' i method))
    (target : Target) :
    Agree spent (I stack) (applyListener call target) (applyListener call' target) := by
  apply Agree.bind .get
  intro e
  split
  · apply Agree.bind (.element _)
    intro x
    apply Agree.bind (.ofExcept _)
    intro effects
    exact hI.agree_applyEffects hcall _ effects
  · exact .pure ()

theorem agree_emitWith (raw : String)
    (hcall : ∀ i method, Agree spent (I (raw :: stack)) (call i method) (call' i method)) :
    Agree spent (I stack) (emitWith call raw) (emitWith call' raw) := by
  intro e h
  rw [run_emitWith, run_emitWith]
  split
  · exact ⟨rfl, h⟩
  · rename_i hl
    have he : I (raw :: stack) e.enter := hI.enter raw h (by simpa using hl)
    obtain ⟨heq, hs⟩ := hI.agree_applyListener hcall (.parse raw) _ he
    rw [heq] at hs ⊢
    exact ⟨rfl, hs.mapEngine fun _ h => hI.leave h⟩

variable (hcall : ∀ raw i method, Agree spent (I (raw :: stack)) (call i method) (call' i method))
include hcall

theorem agree_dispatchWith (i : ElementId) (event : String) :
    Agree spent (I stack) (dispatchWith call i event) (dispatchWith call' i event) := by
  apply Agree.bind (.element i)
  intro x
  apply Agree.forM
  intro raw _
  exact hI.agree_emitWith raw (hcall raw)

theorem agree_dispatchNamedWith (name event : String) :
    Agree spent (I stack) (dispatchNamedWith call name event) (dispatchNamedWith call' name event) := by
  apply Agree.bind .get
  intro e
  split
  · exact hI.agree_dispatchWith hcall _ event
  · exact .pure ()

variable (hdirect : ∀ i method, allowed (.invoke method) →
  Agree spent (I stack) (call i method) (call' i method))
include hdirect

theorem agree_perform (i : ElementId) {action : Action} (ha : allowed action) :
    Agree spent (I stack) (perform call i action) (perform call' i action) := by
  have hlog (line : String) : Agree spent (I stack) (log line) (log line) :=
    .of_keeps (hI.keeps_log line)
  cases action with
  | emit target => exact hI.agree_emitWith target (hcall target)
  | tryEmit target =>
    have he := hI.agree_emitWith target (hcall target)
    exact .tryCatch (.bind he fun _ => hlog _) fun _ => hI.keeps_log _
  | setAttribute key value => exact .of_keeps (hI.keeps_setAttribute i key value)
  | invoke method => exact hdirect i method ha
  | mount => exact .of_keeps (hI.keeps_mount i)
  | unmount => exact .of_keeps (hI.keeps_unmount i)
  | markDirty => exact .of_keeps (hI.keeps_markDirty i)
  | dispatch event => exact hI.agree_dispatchWith hcall i event
  | dispatchNamed name event => exact hI.agree_dispatchNamedWith hcall name event
  | render tree => exact .bind (.of_keeps (hI.keeps_render ha)) fun _ => hlog _
  | renderJson json => exact .bind (.of_keeps (hI.keeps_renderJson json)) fun _ => hlog _
  | flush => exact .bind (.of_keeps hI.keeps_flush) fun _ => hlog _
  | log text => exact hlog text
  | look key => exact .bind .get fun _ => hlog _
  | describe => exact .bind .get fun _ => hlog _
  | define kind method script => exact .bind (.of_keeps (hI.keeps_define ha)) fun _ => hlog _
  | fail name => exact .throw _

theorem agree_performOn (receiver : ElementId) {action : Action} (ha : allowed action)
    (subject : Subject) :
    Agree spent (I stack) (performOn call receiver action subject)
      (performOn call' receiver action subject) := by
  cases subject with
  | receiver => exact hI.agree_perform hcall hdirect receiver ha
  | element i => exact hI.agree_perform hcall hdirect i ha
  | named name =>
    apply Agree.bind .get
    intro e
    split
    · exact hI.agree_perform hcall hdirect _ ha
    · exact .of_keeps (hI.keeps_log _)

theorem agree_runScript (receiver : ElementId) {script : Script}
    (ha : ∀ step ∈ script, allowed step.2) :
    Agree spent (I stack) (runScript call receiver script) (runScript call' receiver script) := by
  apply Agree.forM
  intro step hstep
  exact hI.agree_performOn hcall hdirect receiver (ha step hstep) step.1

end Calls

theorem agree_invoke (hf : Fuelled spent bound stack.length fuel fuel') (i : ElementId)
    (method : String) : Agree spent (I stack) (invoke fuel i method) (invoke fuel' i method) := by
  induction fuel generalizing stack fuel' i method with
  | zero =>
    intro e h
    rcases hf with ⟨hs, rfl⟩ | ⟨hs, hlt, -⟩
    · exact ⟨rfl, hs⟩
    · have hle := (hI.bounded h).resolve_left hs
      omega
  | succ fuel ih =>
    intro e h
    obtain ⟨fuel', rfl⟩ : ∃ n, fuel' = n + 1 := by
      rcases hf with ⟨-, rfl⟩ | ⟨hs, -, hlt⟩
      · exact ⟨fuel, rfl⟩
      · have hle := (hI.bounded h).resolve_left hs
        exact Nat.exists_eq_add_one.2 (by omega)
    -- what an emit calls has less fuel, but then one level less is left too
    have hcall : ∀ raw i method,
        Agree spent (I (raw :: stack)) (invoke fuel i method) (invoke fuel' i method) := by
      intro raw i method
      have hf' : Fuelled spent bound (raw :: stack).length fuel fuel' := hf.deeper
      exact ih hf' i method
    have hdirect : ∀ i method, allowed (.invoke method) →
        Agree spent (I stack) (invoke fuel i method) (invoke fuel' i method) := by
      intro i method ha
      exact ih (hf.direct (hI.direct ha)) i method
    rw [invoke, invoke]
    cases hx : e.document.get? i with
    | none =>
      rw [EngineM.run_bind_failed (run_element_none hx), EngineM.run_bind_failed (run_element_none hx)]
      exact ⟨rfl, h⟩
    | some x =>
      rw [EngineM.run_bind_done (run_element_some hx), EngineM.run_bind_done (EngineM.run_get e),
        EngineM.run_bind_done (run_element_some hx), EngineM.run_bind_done (EngineM.run_get e)]
      cases hs : e.catalog.method? x.kind method with
      | none => exact ⟨rfl, h⟩
      | some script =>
        have h' := hI.act h (.call method hx)
        rw [EngineM.run_bind_done (run_record _ e), EngineM.run_bind_done (run_record _ e)]
        exact hI.agree_runScript hcall hdirect i (hI.body h hs) _ h'

omit hI in
theorem agree_same (hI : Invariant True bound allowed I) (fuel : Nat) (stack : List String)
    (i : ElementId) (method : String) :
    Agree True (I stack) (invoke fuel i method) (invoke fuel i method) :=
  hI.agree_invoke (.inl ⟨trivial, rfl⟩) i method

end Invariant

end LiveTree.Engine
