import LiveTree.Proofs.Engine.Visit

namespace LiveTree
set_option autoImplicit true

theorem Effect.eq_of_ofListener_error
    (h : Effect.ofListener listeners component listener = .error error) :
    error = .malformedCalls component listener := by
  rw [Effect.ofListener] at h
  split at h
  · rw [Effect.ofDescriptor] at h
    split at h
    · cases h
    · cases h
      rfl
  · cases h

namespace Engine

def idle : Caller :=
  fun _ _ => pure ()

theorem error?_applyEffects (hc : Coherent e) (i : ElementId) (effects : List Effect) :
    ((applyEffects idle i effects).run e).error? ≠ some (.depthExceeded target limit) := by
  induction effects generalizing e with
  | nil => nofun
  | cons effect rest ih =>
    rw [applyEffects, EngineM.run_bind_done (EngineM.run_get e)]
    split
    · cases effect with
      | write key value =>
        rw [applyEffect]
        rcases run_setAttribute_cases hc i key value with ⟨e', hr, ha⟩ | ⟨error, hr, herror⟩
        · rw [EngineM.run_bind_done hr]
          exact ih (ha.coherent hc)
        · rw [EngineM.run_bind_failed hr]
          rcases herror with rfl | ⟨name, rfl⟩
          · nofun
          · nofun
      | call method => exact ih hc
    · nofun

theorem error?_applyListener (hc : Coherent e) (listened : Target) :
    ((applyListener idle listened).run e).error? ≠ some (.depthExceeded target limit) := by
  rw [applyListener, EngineM.run_bind_done (EngineM.run_get e)]
  split
  · rename_i i listener _ _
    cases hx : e.document.get? i with
    | none =>
      rw [EngineM.run_bind_failed (run_element_none hx)]
      nofun
    | some x =>
      rw [EngineM.run_bind_done (run_element_some hx)]
      cases hl : Effect.ofListener (x.attribute? "listeners") x.name listener with
      | error error =>
        cases Effect.eq_of_ofListener_error hl
        nofun
      | ok effects => exact error?_applyEffects hc i effects
  · nofun

/-- An emit is refused: whatever methods would do, it fails for its depth. -/
def Refused (raw : String) (e : Engine) : Prop :=
  ∀ call, ∃ target limit, ((emitWith call raw).run e).error? = some (.depthExceeded target limit)

variable {allowed : Action → Prop}

theorem Level.atLimit_iff (h : Level allowed given stack e) :
    e.atLimit = true ↔ stack ≠ [] ∧ e.settings.maxDispatchDepth ≤ stack.length := by
  rw [atLimit, h.depth, Bool.and_eq_true, decide_eq_true_eq, decide_eq_true_eq, List.length_pos_iff]

theorem run_emitWith_atLimit {e : Engine} (h : e.atLimit = true) (call : Caller) (raw : String) :
    (emitWith call raw).run e = .failed (.depthExceeded raw e.settings.maxDispatchDepth) e := by
  rw [run_emitWith, if_pos h]

theorem refused_iff {e : Engine} (hc : Coherent e) (raw : String) :
    Refused raw e ↔ e.atLimit = true := by
  constructor
  · intro h
    by_contra hl
    -- with methods that do nothing, no emit is nested in this one
    obtain ⟨target, limit, hd⟩ := h idle
    have hc' : Coherent e.enter := ⟨hc.forest, hc.names⟩
    rw [run_emitWith, if_neg hl, Outcome.error?_mapEngine] at hd
    exact error?_applyListener hc' (.parse raw) hd
  · intro h call
    rw [run_emitWith_atLimit h]
    exact ⟨raw, _, rfl⟩

/-- What scripts without calls are asked to do ends, and the emits in flight are the same again. -/
theorem Level.perform (h : Level Action.Plain given stack e)
    (ho : Operation.Allowed Action.Plain operation) (hf : max 1 given.maxDispatchDepth < fuel)
    (hf' : max 1 given.maxDispatchDepth < fuel') :
    (operation.perform fuel).run e = (operation.perform fuel').run e ∧
      ((operation.perform fuel).run e).Settles (Level Action.Plain given stack) := by
  have hfuel : Fuelled False (max 1 given.maxDispatchDepth) stack.length fuel fuel' :=
    .inr ⟨id, by omega, by omega⟩
  exact (invariant_level lawful_plain given).agree_operation ho hfuel e h

/-- Two ways to call methods that are the same wherever these emits are in flight. -/
def SameCalls (stack : List String) (call call' : Caller) : Prop :=
  ∀ i method e, Passed stack e → (call i method).run e = (call' i method).run e

section Calls

variable {call : Caller} {I : List String → Engine → Prop}

theorem SameCalls.agree (hs : SameCalls stack (invoke fuel) call) (hI : Invariant True bound allowed I)
    (hp : ∀ {stack e}, I stack e → Passed stack e) (i : ElementId) (method : String) :
    Agree True (I stack) (invoke fuel i method) (call i method) := by
  intro e h
  exact ⟨hs i method e (hp h), (hI.agree_same fuel stack i method e h).2⟩

theorem Passed.emitWith_eq (h : Passed stack e) (hs : SameCalls (raw :: stack) (invoke fuel) call) :
    (emitWith call raw).run e = (emit fuel raw).run e := by
  have hcall := hs.agree invariant_passed id
  exact (invariant_passed.agree_emitWith raw hcall e h).1.symm

theorem Passed.runScript_eq (h : Passed stack e) (hm : e.catalog.Obeys Action.Plain)
    (ha : ∀ step ∈ script, step.2.Plain) (hs : ∀ raw, SameCalls (raw :: stack) (invoke fuel) call)
    (i : ElementId) : (runScript call i script).run e = (runScript (invoke fuel) i script).run e := by
  have hplain : Lawful True Action.Plain := lawful_plain
  have hI := invariant_passed.and (invariant_level hplain e.settings) fun _ _ => trivial
  have hcall (raw : String) := (hs raw).agree hI fun h => h.1
  have hl : Level Action.Plain e.settings stack e := { h.level lawful_true with methods := hm }
  exact (hI.agree_runScript hcall (fun _ method hd => (Action.not_plain_invoke method hd).elim) i ha e
    ⟨h, hl⟩).1.symm

end Calls

/-- With methods that reach each other by emits only, all operations end, and the limit bounds the depth. -/
theorem bounded_nesting (h : Passed stack e) (hm : e.catalog.Obeys Action.Plain) :
    (∀ operation : Operation, operation.Allowed Action.Plain →
      ∃ outcome, outcome.Settles (fun e' => e'.dispatchDepth = e.dispatchDepth) ∧
        ∀ fuel, max 1 e.settings.maxDispatchDepth < fuel →
          (operation.perform fuel).run e = outcome) ∧
    e.dispatchDepth = stack.length ∧
    stack.length ≤ max 1 e.settings.maxDispatchDepth ∧
    (∀ raw, Refused raw e ↔ stack ≠ [] ∧ e.settings.maxDispatchDepth ≤ stack.length) ∧
    (∀ raw call, Refused raw e →
      (emitWith call raw).run e = .failed (.depthExceeded raw e.settings.maxDispatchDepth) e) ∧
    (∀ fuel call raw, SameCalls (raw :: stack) (invoke fuel) call →
      (emitWith call raw).run e = (emit fuel raw).run e) ∧
    (∀ fuel call i (script : Script), (∀ step ∈ script, step.2.Plain) →
      (∀ raw, SameCalls (raw :: stack) (invoke fuel) call) →
      (runScript call i script).run e = (runScript (invoke fuel) i script).run e) ∧
    Catalog.standard.Obeys Action.Plain := by
  have hl : Level Action.Plain e.settings stack e := { h.level lawful_true with methods := hm }
  refine ⟨?_, hl.depth, hl.within, ?_, ?_, ?_, ?_, Catalog.standard_plain⟩
  · intro operation ho
    have hlt := Nat.lt_succ_self (max 1 e.settings.maxDispatchDepth)
    have hk := (hl.perform ho hlt hlt).2
    refine ⟨_, hk.imp fun e' he' => he'.depth.trans hl.depth.symm, ?_⟩
    intro fuel hf
    exact (hl.perform ho hf hlt).1
  · intro raw
    rw [refused_iff hl.coherent, hl.atLimit_iff]
  · intro raw call hr
    exact run_emitWith_atLimit ((refused_iff hl.coherent raw).1 hr) call raw
  · intro fuel call raw hs
    exact h.emitWith_eq hs
  · intro fuel call i script ha hs
    exact h.runScript_eq hm ha hs i

def bell : Engine :=
  let again : Json := .obj [("$call", .arr [.obj [("method", .str "ring")]])]
  let catalog := Catalog.standard.define .button "ring" (.single (.emit "bell.again"))
  after 0 (fresh { maxDispatchDepth := 2 } catalog (fun _ => none) none)
    [ .renderAndMount (((Tree.leaf "Button").withProp "name" (.str "bell")).withProp "listeners"
        (.obj [("again", again)])) ]

theorem bounded_nesting_bell :
    bell.catalog.Obeys Action.Plain ∧ bell.enter.enter.dispatchDepth = 2 ∧
      Refused "bell.again" bell.enter.enter ∧ ¬Refused "bell.again" bell ∧
      ((emit 3 "bell.again").run bell).error? = some (.depthExceeded "bell.again" 2) ∧
      ∃ outcome, outcome.Settles (fun e' => e'.dispatchDepth = 0) ∧
        ∀ fuel, 2 < fuel → (emit fuel "bell.again").run bell = outcome := by
  have hm : bell.catalog.Obeys Action.Plain := by decide +kernel
  have h : Passed [] bell := visited_after _ _ _ _ _ _
  have h₂ : Passed ["bell.again", "bell.again"] bell.enter.enter := by
    refine (h.enter _ ?_).enter _ ?_
    · decide +kernel
    · decide +kernel
  have hlimit : bell.settings.maxDispatchDepth = 2 := by decide +kernel
  have hdepth : bell.dispatchDepth = 0 := by decide +kernel
  obtain ⟨hends, -, -, href, -⟩ := bounded_nesting h hm
  obtain ⟨-, hd, -, href₂, -⟩ := bounded_nesting h₂ hm
  refine ⟨hm, hd, ?_, ?_, ?_, ?_⟩
  · apply (href₂ _).2
    exact ⟨List.cons_ne_nil _ _, Nat.le_of_eq hlimit⟩
  · intro hr
    exact ((href _).1 hr).1 rfl
  · decide +kernel
  · rw [hlimit, hdepth] at hends
    exact hends (.emit "bell.again") trivial

end Engine

end LiveTree
