import LiveTree.Proofs.Engine.IdleDispatch
import LiveTree.Proofs.Engine.LiveForest

namespace LiveTree
set_option autoImplicit true

namespace Engine

/-- Effects on an element are done, one after the other. It is live before each of them. -/
inductive Applied (call : Caller) (i : ElementId) : List Effect → Engine → Engine → Prop
  | nil (e : Engine) : Applied call i [] e e
  | cons (hi : e.document.contains i = true) (h : (applyEffect call i effect).run e = .done () e₁)
    (hrest : Applied call i rest e₁ e₂) : Applied call i (effect :: rest) e e₂

section Effects

variable {call : Caller}

theorem Applied.run_applyEffects (h : Applied call i applied e s) (rest : List Effect) :
    (applyEffects call i (applied ++ rest)).run e = (applyEffects call i rest).run s := by
  induction h with
  | nil e => rfl
  | cons hi h hrest ih =>
    rw [List.cons_append, applyEffects, EngineM.run_bind_done (EngineM.run_get _), if_pos hi,
      EngineM.run_bind_done h, ih]

theorem run_applyEffects_gone {e : Engine} (h : e.document.contains i = false) (effects : List Effect) :
    (applyEffects call i effects).run e = .done () e := by
  cases effects with
  | nil => rfl
  | cons effect rest =>
    rw [applyEffects, EngineM.run_bind_done (EngineM.run_get e), h, if_neg Bool.false_ne_true]
    rfl

end Effects

theorem Passed.applyEffect (h : Passed stack e)
    (hr : (applyEffect (invoke fuel) i effect).run e = .done () e') : Passed stack e' := by
  cases effect with
  | write key value =>
    have hk := invariant_passed.keeps_setAttribute i key value e h
    rw [Engine.applyEffect] at hr
    rw [hr] at hk
    exact hk
  | call method =>
    have hk := (invariant_passed.agree_same fuel stack i method e h).2
    rw [Engine.applyEffect] at hr
    rw [hr] at hk
    exact hk

theorem Applied.passed (hs : Applied (invoke fuel) i applied e s) (h : Passed stack e) :
    Passed stack s := by
  induction hs with
  | nil e => exact h
  | cons hi hr hrest ih => exact ih (h.applyEffect hr)

structure Gone (i : ElementId) (e : Engine) : Prop where
  issued : i < e.document.nextId
  absent : e.document.contains i = false

theorem Edit.gone (hs : Edit e e') (hc : Coherent e) (h : Gone i e) : Gone i e' where
  issued := hs.issued hc h.issued
  absent := by
    rw [← Bool.not_eq_true]
    intro hi
    have hlive := (hs.followed hc).later.2 i hi h.issued
    rw [h.absent] at hlive
    cases hlive

theorem Becomes.issued (h : Becomes e e') (hc : Coherent e) (hi : i < e.document.nextId) :
    Coherent e' ∧ i < e'.document.nextId :=
  h.keep (P := fun e => i < e.document.nextId) (fun hc hi hs => hs.issued hc hi) (fun _ _ _ hi => hi) hc hi

theorem Becomes.gone (h : Becomes e e') (hc : Coherent e) (hg : Gone i e) : Gone i e' :=
  (h.keep (P := Gone i) (fun hc hg hs => hs.gone hc hg) (fun _ _ _ hg => ⟨hg.issued, hg.absent⟩) hc hg).2

/-- An invariant of all that scripts may do holds after a script. -/
theorem Invariant.after_script (hI : Invariant True bound (fun _ => True) I) (stack : List String)
    (h : I stack e) (hr : (runScript (invoke fuel) receiver script).run e = .done () e') : I stack e' := by
  have hk : Agree True (I stack) (runScript (invoke fuel) receiver script) _ :=
    hI.agree_runScript (fun raw => hI.agree_same fuel (raw :: stack))
      (fun i method _ => hI.agree_same fuel stack i method) receiver fun _ _ => trivial
  have hend := hk.keeps e h
  rw [hr] at hend
  exact hend

theorem gone_after_script (hc : Coherent e) (hi : i < e.document.nextId)
    (hm : (runScript (invoke fuel) receiver first).run e = .done () m)
    (hgone : m.document.contains i = false)
    (hr : (runScript (invoke fuel) receiver (first ++ second)).run e = .done () e') : Gone i e' := by
  have hissued := Invariant.of_edit (P := fun e => i < e.document.nextId) fun hc hi hs => hs.issued hc hi
  have hkept := Invariant.of_edit (P := Gone i) fun hc hg hs => hs.gone hc hg
  obtain ⟨hcm, him⟩ := hissued.after_script [] ⟨hc, hi⟩ hm
  have hsecond : (runScript (invoke fuel) receiver second).run m = .done () e' := by
    rw [← hr, runScript, runScript, EngineM.run_forM_append hm]
  exact (hkept.after_script [] ⟨hcm, him, hgone⟩ hsecond).2

/-- Once an element is gone half way, the rest of its effects has none, and it does not come back. -/
theorem removed_target (h : Passed stack e) (hd : e.dispatchDepth = 0)
    (hx : e.elementNamed? (Target.parse raw).component = some x)
    (hl : (Target.parse raw).listener = some listener)
    (he : Effect.ofListener (x.attribute? "listeners") x.name listener = .ok (applied ++ rest))
    (hs : Applied (invoke fuel) x.id applied e.enter s) (hgone : s.document.contains x.id = false) :
    (emit fuel raw).run e = .done () { s with dispatchDepth := 0 }.settled ∧
    { s with dispatchDepth := 0 }.settled.recorder = s.recorder ∧
    (∀ m, Becomes e.enter m → m.document.contains x.id = false →
      ∀ m', Becomes m m' → m'.document.contains x.id = false) ∧
    (∀ fuel receiver first second s₀ m s₁, Becomes e.enter s₀ →
      (runScript (invoke fuel) receiver first).run s₀ = .done () m → m.document.contains x.id = false →
      (runScript (invoke fuel) receiver (first ++ second)).run s₀ = .done () s₁ →
      s₁.document.contains x.id = false) := by
  have hget := (elementNamed?_eq_some.1 hx).2
  have hlimit : e.atLimit = false := by simp [atLimit, hd]
  have henter : Passed (raw :: stack) e.enter := h.enter raw hlimit
  have hc : Coherent e.enter := invariant_passed.coherent henter
  have hissued : x.id < e.enter.document.nextId := hc.forest.bounded hget
  refine ⟨?_, settled_recorder _, ?_, ?_⟩
  · have hx' : e.enter.elementNamed? (Target.parse raw).component = some x := hx
    have hdepth : s.dispatchDepth = 1 := by
      rw [((hs.passed henter).level lawful_true).depth, ← (henter.level lawful_true).depth, Engine.enter, hd]
    rw [emit, run_emitWith_outermost hd, run_applyListener hx' hl, he, EngineM.ofExcept_ok,
      EngineM.run_bind_done (EngineM.run_pure _ _), hs.run_applyEffects, run_applyEffects_gone hgone,
      Outcome.mapEngine, leave_outermost hdepth]
  · intro m hm hmg m' hm'
    obtain ⟨hcm, hi⟩ := hm.issued hc hissued
    exact (hm'.gone hcm ⟨hi, hmg⟩).absent
  · intro fuel receiver first second s₀ m s₁ hs₀ hfirst hmg hscript
    obtain ⟨hc₀, hi⟩ := hs₀.issued hc hissued
    exact (gone_after_script hc₀ hi hfirst hmg hscript).absent

def swapEntries : List (String × Json) :=
  [ ("label", .str "Saving"), ("$call", .arr [.obj [("method", .str "swap")]]), ("hidden", .bool true) ]

def swapButton : Tree :=
  ((Tree.leaf "Button").withProp "name" (.str "save")).withProp "listeners"
    (.obj [("press", .obj swapEntries)])

def swapping : Engine :=
  after 0 (fresh {} .standard (fun _ => none) (some {}))
    [ .renderAndMount swapButton,
      .define .button "swap"
        [(.receiver, .unmount), (.receiver, .render swapButton), (.element 1, .mount)] ]

def swapReport (e : Engine) : Bool × Option ElementId × Option Bool :=
  (e.document.contains 0, e.find? "save",
    (e.document.get? 1).map fun y => (y.attribute? "hidden").isSome)

theorem removed_target_swapping :
    ∃ s : Engine, (emit 1 "save.press").run swapping = .done () { s with dispatchDepth := 0 }.settled ∧
      swapReport s = (false, some 1, some false) ∧
      ∀ asked, (after 0 (after 0 swapping.enter [.unmount 0]) asked).document.contains 0 = false := by
  have h : Passed [] swapping := visited_after _ _ _ _ _ _
  have htext : (swapping.elementNamed? "save").bind
      (fun x => (x.attribute? "listeners").bind Json.str?) =
      some (Json.obj [("press", .obj swapEntries)]).text := by
    decide +kernel
  have hplace : (swapping.elementNamed? "save").map (·.id) = some 0 := by decide +kernel
  obtain ⟨x, hx, ht⟩ := Option.bind_eq_some_iff.1 htext
  have hdec : x.Declares "press" (.obj swapEntries) :=
    (Element.declares_text ht rfl (by decide +kernel) (by decide +kernel) (by decide +kernel)).2 rfl
  have he : Effect.ofListener (x.attribute? "listeners") x.name "press" =
      .ok ([.write "label" (.str "Saving"), .call "swap"] ++ [.write "hidden" (.bool true)]) :=
    Effect.ofListener_declared hdec x.name
  have hid : x.id = 0 := by
    rw [hx] at hplace
    exact Option.some.inj hplace
  have htarget : Target.parse "save.press" = ⟨"save", some "press"⟩ := by decide +kernel
  have hx' : swapping.elementNamed? (Target.parse "save.press").component = some x := htarget ▸ hx
  have hl : (Target.parse "save.press").listener = some "press" := by rw [htarget]
  have hlive : swapping.enter.document.contains 0 = true := by decide +kernel
  obtain ⟨e₁, hwrite, hlive₁⟩ := Outcome.exists_done
    (o := (applyEffect (invoke 1) 0 (.write "label" (.str "Saving"))).run swapping.enter)
    (f := fun e => e.document.contains 0) (b := true) (by decide +kernel) (by decide +kernel)
  obtain ⟨s, hboth, hreport⟩ := Outcome.exists_done
    (o := (applyEffect (invoke 1) 0 (.write "label" (.str "Saving")) >>= fun _ =>
      applyEffect (invoke 1) 0 (.call "swap")).run swapping.enter)
    (f := swapReport) (b := (false, some 1, some false)) (by decide +kernel) (by decide +kernel)
  have hcall : (applyEffect (invoke 1) 0 (.call "swap")).run e₁ = .done () s := by
    rw [← hboth, EngineM.run_bind_done hwrite]
  have hs : Applied (invoke 1) x.id [.write "label" (.str "Saving"), .call "swap"] swapping.enter s := by
    rw [hid]
    exact .cons hlive hwrite (.cons hlive₁ hcall (.nil s))
  have hgone : s.document.contains x.id = false := by
    rw [hid]
    exact congrArg Prod.fst hreport
  obtain ⟨hrun, -, hstays, -⟩ := removed_target h (by decide +kernel) hx' hl he hs hgone
  rw [hid] at hstays
  refine ⟨s, hrun, hreport, ?_⟩
  intro asked
  exact hstays _ (run_after _ _ _).becomes (by decide +kernel) _ (run_after _ _ _).becomes

end Engine

end LiveTree
