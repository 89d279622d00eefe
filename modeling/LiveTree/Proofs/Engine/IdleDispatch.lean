import LiveTree.Proofs.Engine.Naming
import LiveTree.Proofs.Event.Listener

namespace LiveTree
set_option autoImplicit true

theorem Effect.ofDescriptor_shapeless (h : ∀ entries, descriptor ≠ .obj entries)
    (component listener : String) : ofDescriptor descriptor component listener = .ok [] := by
  cases descriptor with
  | obj entries => exact (h entries rfl).elim
  | _ => rfl

theorem Effect.ofDescriptor_malformed (h : List.lookup "$call" entries = some v) (hv : ¬IsCallList v)
    (component listener : String) :
    ofDescriptor (.obj entries) component listener = .error (.malformedCalls component listener) := by
  rw [ofDescriptor, ofDescriptor?_malformed h hv]

namespace Engine

/-- The dirty elements are rendered, if engines do that by themselves. -/
def settled (e : Engine) : Engine :=
  if e.settings.autoFlush then e.flushed else e

def shown (e : Engine) (y : Element) : Element :=
  if e.settings.autoFlush then refresh e.catalog y else y

theorem shown_id (e : Engine) (y : Element) : (e.shown y).id = y.id := by
  rw [shown, refresh]
  split
  · split <;> rfl
  · rfl

theorem settled_eq (e : Engine) :
    e.settled = { e with document := e.document.mapElements e.shown } := by
  have hshown : e.shown = if e.settings.autoFlush then refresh e.catalog else id := by
    funext y
    rw [shown]
    split <;> rfl
  rw [settled, hshown]
  split
  · rfl
  · simp only [Document.mapElements, List.map_id]

theorem settled_recorder (e : Engine) : e.settled.recorder = e.recorder := by
  rw [settled]
  split <;> rfl

theorem leave_outermost {e : Engine} (hd : e.dispatchDepth = 1) :
    e.leave = { e with dispatchDepth := 0 }.settled := by
  simp [leave, settled, hd]

theorem leave_enter {e : Engine} (hd : e.dispatchDepth = 0) : e.enter.leave = e.settled := by
  have henter : e.enter.dispatchDepth = 1 := congrArg (· + 1) hd
  rw [leave_outermost henter, Engine.enter, ← hd]

/-- The outermost dispatch is never refused. -/
theorem run_emitWith_outermost {e : Engine} (hd : e.dispatchDepth = 0) (call : Caller) (raw : String) :
    (emitWith call raw).run e = ((applyListener call (.parse raw)).run e.enter).mapEngine leave := by
  rw [run_emitWith, if_neg]
  simp [atLimit, hd]

theorem Agrees.find?_holds {e : Engine} (h : Agrees e) (hf : e.find? n = some i) :
    ∃ x, e.document.get? i = some x ∧ x.holds n = true := by
  rw [h.find?_eq] at hf
  exact (h n i).1 (List.mem_of_head? hf)

theorem Agrees.find?_eq_none {e : Engine} (h : Agrees e) (hc : Coherent e)
    (hn : ∀ x ∈ e.document.elements, x.holds n = false) : e.find? n = none := by
  cases hf : e.find? n with
  | none => rfl
  | some i =>
    obtain ⟨x, hx, hh⟩ := h.find?_holds hf
    rw [hn x (hc.forest.get?_eq_some.1 hx).1] at hh
    cases hh

theorem elementNamed?_eq_some {e : Engine} :
    e.elementNamed? n = some x ↔ e.find? n = some x.id ∧ e.document.get? x.id = some x := by
  rw [elementNamed?, Option.bind_eq_some_iff]
  constructor
  · rintro ⟨i, hf, hx⟩
    cases Document.id_of_get? hx
    exact ⟨hf, hx⟩
  · rintro ⟨hf, hx⟩
    exact ⟨x.id, hf, hx⟩

theorem Agrees.holds_of_elementNamed? {e : Engine} (h : Agrees e) (hx : e.elementNamed? n = some x) :
    x.holds n = true := by
  obtain ⟨hf, hg⟩ := elementNamed?_eq_some.1 hx
  obtain ⟨y, hy, hn⟩ := h.find?_holds hf
  rw [hg] at hy
  cases hy
  exact hn

theorem run_applyListener_absent {e : Engine} (h : e.find? target.component = none) (call : Caller) :
    (applyListener call target).run e = .done () e := by
  rw [applyListener, EngineM.run_bind_done (EngineM.run_get e), h]
  rfl

theorem run_applyListener_unaddressed {target : Target} (h : target.listener = none) (call : Caller)
    (e : Engine) : (applyListener call target).run e = .done () e := by
  rw [applyListener, EngineM.run_bind_done (EngineM.run_get e), h]
  cases e.find? target.component <;> rfl

/-- The effects of a listener are read before the first of them is applied. -/
theorem run_applyListener {e : Engine} (hx : e.elementNamed? target.component = some x)
    (hl : target.listener = some listener) (call : Caller) :
    (applyListener call target).run e =
      (EngineM.ofExcept (Effect.ofListener (x.attribute? "listeners") x.name listener) >>=
        applyEffects call x.id).run e := by
  obtain ⟨hf, hg⟩ := elementNamed?_eq_some.1 hx
  rw [applyListener, EngineM.run_bind_done (EngineM.run_get e), hf, hl]
  exact EngineM.run_bind_done (run_element_some hg) _

/-- The ways in which a dispatch has no effects. -/
inductive Idle (e : Engine) (target : Target) : Prop
  | absent (h : ∀ x ∈ e.document.elements, x.mounted = true → x.declared = true →
      x.name ≠ target.component)
  | unaddressed (h : target.listener = none)
  | undeclared (hx : e.elementNamed? target.component = some x) (hl : target.listener = some listener)
    (h : ∀ descriptor, ¬x.Declares listener descriptor)
  | shapeless (hx : e.elementNamed? target.component = some x) (hl : target.listener = some listener)
    (hd : x.Declares listener descriptor) (h : ∀ entries, descriptor ≠ .obj entries)

theorem Idle.run_applyListener {e : Engine} (h : Idle e target) (hc : Coherent e) (ha : Agrees e)
    (call : Caller) : (applyListener call target).run e = .done () e := by
  cases h with
  | absent h =>
    apply run_applyListener_absent
    apply ha.find?_eq_none hc
    intro x hx
    rw [← Bool.not_eq_true]
    intro hn
    obtain ⟨hm, hd, hn⟩ := holds_iff.1 hn
    exact h x hx hm hd hn
  | unaddressed h => exact run_applyListener_unaddressed h call e
  | undeclared hx hl h =>
    rw [Engine.run_applyListener hx hl, Effect.ofListener_undeclared h]
    rfl
  | shapeless hx hl hd h =>
    rw [Engine.run_applyListener hx hl, Effect.ofListener_declared hd, Effect.ofDescriptor_shapeless h]
    rfl

theorem Idle.enter {e : Engine} (h : Idle e target) : Idle e.enter target := by
  cases h with
  | absent h => exact .absent h
  | unaddressed h => exact .unaddressed h
  | undeclared hx hl h => exact .undeclared hx hl h
  | shapeless hx hl hd h => exact .shapeless hx hl hd h

theorem run_applyListener_malformed {e : Engine} (ha : Agrees e)
    (hx : e.elementNamed? target.component = some x) (hl : target.listener = some listener)
    (hd : x.Declares listener (.obj entries)) (hk : entries.lookup "$call" = some calls)
    (hm : ¬Effect.IsCallList calls) (call : Caller) :
    (applyListener call target).run e =
      .failed (.malformedCalls target.component listener) e := by
  have hn := (holds_iff.1 (ha.holds_of_elementNamed? hx)).2.2
  rw [run_applyListener hx hl, Effect.ofListener_declared hd, Effect.ofDescriptor_malformed hk hm, hn]
  rfl

/-- Without effects an outermost emit is done, and a malformed call list fails; both only settle. -/
theorem idle_dispatch (h : Passed stack e) (hd : e.dispatchDepth = 0) (raw : String) :
    (Idle e (.parse raw) → ∀ fuel, (emit fuel raw).run e = .done () e.settled) ∧
    (∀ x listener entries calls, e.elementNamed? (Target.parse raw).component = some x →
      (Target.parse raw).listener = some listener → x.Declares listener (.obj entries) →
      entries.lookup "$call" = some calls → ¬Effect.IsCallList calls →
      ∀ fuel, (emit fuel raw).run e =
        .failed (.malformedCalls (Target.parse raw).component listener) e.settled) ∧
    (e.settings.autoFlush = true → ∃ n, flush.run e = .done n e.settled) ∧
    (e.settings.autoFlush = false → e.settled = e) ∧
    e.settled.recorder = e.recorder := by
  have hc : Coherent e.enter := by
    have hc := (h.level lawful_true).coherent
    exact ⟨hc.forest, hc.names⟩
  have ha : Agrees e.enter := by
    have ha : Agrees e := h.agrees lawful_true
    exact ha
  refine ⟨?_, ?_, ?_, ?_, e.settled_recorder⟩
  · intro hi fuel
    rw [emit, run_emitWith_outermost hd, hi.enter.run_applyListener hc ha, Outcome.mapEngine,
      leave_enter hd]
  · intro x listener entries calls hx hl hdec hk hm fuel
    have hx' : e.enter.elementNamed? (Target.parse raw).component = some x := hx
    rw [emit, run_emitWith_outermost hd, run_applyListener_malformed ha hx' hl hdec hk hm,
      Outcome.mapEngine, leave_enter hd]
  · intro hf
    rw [settled, if_pos hf]
    exact ⟨_, rfl⟩
  · intro hf
    rw [settled, hf]
    rfl

def spoiltEntries : List (String × Json) :=
  [ ("label", .str "Saving"),
    ("$call", .arr [.obj [("method", .str "hide")], .obj [("method", .null)]]),
    ("disabled", .bool true) ]

def saveListeners : OrderedMap Json :=
  [("press", .obj spoiltEntries), ("hover", .str "none")]

def halfSpelled : Engine :=
  let save : Tree := ((Tree.leaf "Button").withProp "name" (.str "save")).withProp "listeners"
    (.obj saveListeners)
  after 0 (fresh { maxDispatchDepth := 0 } .standard (fun _ => none) (some {}))
    [.renderAndMount save, .setAttribute 0 "label" (.str "Save")]

theorem idle_dispatch_halfSpelled :
    (∀ fuel, (emit fuel "save.press").run halfSpelled =
      .failed (.malformedCalls "save" "press") halfSpelled.settled) ∧
    (∀ fuel, (emit fuel "load.press").run halfSpelled = .done () halfSpelled.settled) ∧
    (∀ fuel, (emit fuel "save.").run halfSpelled = .done () halfSpelled.settled) ∧
    (∀ fuel, (emit fuel "save.focus").run halfSpelled = .done () halfSpelled.settled) ∧
    (∀ fuel, (emit fuel "save.hover.press").run halfSpelled = .done () halfSpelled.settled) ∧
    halfSpelled.document.dirty = [0] ∧ halfSpelled.settled.document.dirty = [] := by
  have h : Passed [] halfSpelled := visited_after _ _ _ _ _ _
  have hd : halfSpelled.dispatchDepth = 0 := by decide +kernel
  have htext : (halfSpelled.elementNamed? "save").bind
      (fun x => (x.attribute? "listeners").bind Json.str?) = some (Json.obj saveListeners).text := by
    decide +kernel
  obtain ⟨x, hx, ht⟩ := Option.bind_eq_some_iff.1 htext
  have hdec {listener : String} {descriptor : Json} :
      x.Declares listener descriptor ↔ saveListeners.lookup listener = some descriptor :=
    Element.declares_text ht rfl (by decide +kernel) (by decide +kernel) (by decide +kernel)
  have hcalls : ¬Effect.IsCallList
      (.arr [.obj [("method", .str "hide")], .obj [("method", .null)]]) := by
    rintro ⟨calls, hv, hall⟩
    cases hv
    obtain ⟨method, fields, hf, hm⟩ := hall (.obj [("method", .null)]) (by simp)
    cases hf
    cases hm
  refine ⟨?_, ?_, ?_, ?_, ?_, ?_, ?_⟩
  · apply (idle_dispatch h hd "save.press").2.1 x "press" spoiltEntries
    · exact hx
    · decide +kernel
    · exact hdec.2 rfl
    · rfl
    · exact hcalls
  · apply (idle_dispatch h hd "load.press").1
    exact .absent (by decide +kernel)
  · apply (idle_dispatch h hd "save.").1
    exact .unaddressed (by decide +kernel)
  · apply (idle_dispatch h hd "save.focus").1
    apply Idle.undeclared hx
    · show _ = some "focus"
      decide +kernel
    · intro descriptor hd
      cases hdec.1 hd
  · apply (idle_dispatch h hd "save.hover.press").1
    apply Idle.shapeless hx
    · show _ = some "hover"
      decide +kernel
    · exact hdec.2 rfl
    · intro entries he
      cases he
  · decide +kernel
  · decide +kernel

end Engine

end LiveTree
