import LiveTree.Proofs.Engine.IdleDispatch
import LiveTree.Proofs.Engine.Nesting
import LiveTree.Proofs.Event.Target

namespace LiveTree.Engine
set_option autoImplicit true

/-- What becomes of an emit that is not for an element. -/
inductive Misses (e : Engine) (call : Caller) (raw : String) (x : Element) : Prop
  | refused
    (h : (emitWith call raw).run e = .failed (.depthExceeded raw e.settings.maxDispatchDepth) e)
  | idle (h : (emitWith call raw).run e = .done () e.enter.leave)
  | other (y : Element) (listener : String) (hy : e.document.get? y.id = some y) (hne : y.id ≠ x.id)
    (h : (emitWith call raw).run e =
      ((EngineM.ofExcept (Effect.ofListener (y.attribute? "listeners") y.name listener) >>=
        applyEffects call y.id).run e.enter).mapEngine leave)

theorem Agrees.plain_of_find? {e : Engine} (h : Agrees e)
    (hf : e.find? (Target.parse raw).component = some i) :
    ∃ y, e.document.get? i = some y ∧ '.' ∉ y.name.toList := by
  obtain ⟨y, hy, hn⟩ := h.find?_holds hf
  refine ⟨y, hy, ?_⟩
  rw [(holds_iff.1 hn).2.2]
  exact (Target.plain_parse raw).component

theorem Agrees.find?_ne_dotted {e : Engine} (h : Agrees e) (hx : e.document.get? x.id = some x)
    (hdot : '.' ∈ x.name.toList) (raw : String) : e.find? (Target.parse raw).component ≠ some x.id := by
  intro hf
  obtain ⟨y, hy, hplain⟩ := h.plain_of_find? hf
  rw [hx] at hy
  cases hy
  exact hplain hdot

theorem Agrees.misses {e : Engine} (h : Agrees e)
    (hne : e.find? (Target.parse raw).component ≠ some x.id) (call : Caller) :
    Misses e call raw x := by
  cases hlimit : e.atLimit with
  | true => exact .refused (run_emitWith_atLimit hlimit call raw)
  | false =>
    have hrun : (emitWith call raw).run e =
        ((applyListener call (.parse raw)).run e.enter).mapEngine leave := by
      rw [run_emitWith, hlimit]
      rfl
    cases hf : e.find? (Target.parse raw).component with
    | none =>
      apply Misses.idle
      rw [hrun, run_applyListener_absent (e := e.enter) hf]
      rfl
    | some i =>
      cases hl : (Target.parse raw).listener with
      | none =>
        apply Misses.idle
        rw [hrun, run_applyListener_unaddressed hl]
        rfl
      | some listener =>
        obtain ⟨y, hy, -⟩ := h.find?_holds hf
        cases Document.id_of_get? hy
        have hnamed : e.enter.elementNamed? (Target.parse raw).component = some y :=
          elementNamed?_eq_some.2 ⟨hf, hy⟩
        refine .other y listener hy (fun he => hne (hf.trans (congrArg some he))) ?_
        rw [hrun, run_applyListener hnamed hl]

/-- Texts name exactly the targets without dots, so no emit leads to an element with a dot in its name. -/
theorem dotless_targets (h : Passed stack e) :
    (∀ raw, '.' ∉ (Target.parse raw).component.toList ∧
      (∀ listener, (Target.parse raw).listener = some listener →
        '.' ∉ listener.toList ∧ listener ≠ "") ∧
      Target.parse (Target.parse raw).display = .parse raw) ∧
    (∀ component listener, (∃ raw, Target.parse raw = ⟨component, some listener⟩) ↔
      '.' ∉ component.toList ∧ '.' ∉ listener.toList ∧ listener ≠ "") ∧
    (∀ component listener, '.' ∉ component.toList → '.' ∉ listener.toList → listener ≠ "" →
      Target.parse (component ++ "." ++ listener) = ⟨component, some listener⟩ ∧
      ∀ rest, Target.parse (component ++ "." ++ listener ++ "." ++ rest) = ⟨component, some listener⟩) ∧
    (∀ x ∈ e.document.elements, '.' ∈ x.name.toList → ∀ raw,
      e.find? (Target.parse raw).component ≠ some x.id ∧ ∀ call, Misses e call raw x) := by
  have hd : e.document.Forest := (invariant_passed.coherent h).forest
  have ha : Agrees e := h.agrees lawful_true
  refine ⟨?_, ?_, ?_, ?_⟩
  · intro raw
    have hp := Target.plain_parse raw
    exact ⟨hp.component, hp.listener, hp.parse_display⟩
  · exact fun component listener => Target.exists_parse_iff
  · intro component listener hc hl hne
    exact ⟨Target.parse_dotted hc hl hne, Target.parse_surplus hc hl hne⟩
  · intro x hx hdot raw
    have hne := ha.find?_ne_dotted (hd.get?_of_mem hx) hdot raw
    exact ⟨hne, ha.misses hne⟩

def oneAndAHalf : Engine :=
  let button (name : Json) : Tree := ((Tree.leaf "Button").withProp "name" name).withProp "listeners"
    (.obj [("5", .obj [("label", .str "Five")])])
  after 0 (fresh {} .standard (fun _ => none) none)
    [ .renderAndMount (button (.num (.double ⟨false, 1023, 0x8000000000000⟩))),
      .renderAndMount (button (.ofNat 1)) ]

theorem dotless_targets_oneAndAHalf :
    oneAndAHalf.find? "1.5" = some 0 ∧ oneAndAHalf.find? (Target.parse "1.5").component = some 1 ∧
      ∃ x, oneAndAHalf.document.get? 0 = some x ∧ x.declared = true ∧ x.name = "1.5" ∧
        (∀ raw, oneAndAHalf.find? (Target.parse raw).component ≠ some 0) ∧
        ∀ raw call, Misses oneAndAHalf call raw x := by
  have h : Passed [] oneAndAHalf := visited_after _ _ _ _ _ _
  have hfacts : (oneAndAHalf.document.get? 0).map (fun x => (x.declared, x.name)) =
      some (true, "1.5") := by
    decide +kernel
  obtain ⟨x, hx, hfacts⟩ := Option.map_eq_some_iff.1 hfacts
  obtain ⟨hdeclared, hname⟩ := Prod.mk.inj hfacts
  have hdot : '.' ∈ x.name.toList := by
    rw [hname]
    decide +kernel
  obtain ⟨-, -, -, hmiss⟩ := dotless_targets h
  have hmiss := hmiss x (Document.mem_of_get? hx) hdot
  rw [Document.id_of_get? hx] at hmiss
  refine ⟨?_, ?_, x, hx, hdeclared, hname, fun raw => (hmiss raw).1, fun raw => (hmiss raw).2⟩
  · decide +kernel
  · decide +kernel

end LiveTree.Engine
