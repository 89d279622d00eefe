import LiveTree.Proofs.Engine.IdleDispatch
import LiveTree.Proofs.Engine.StandardDispatch

namespace LiveTree
set_option autoImplicit true

def Patch.soils (i : ElementId) : Patch → Bool
  | .setAttribute j _ _ => j == i
  | .invokeMethod j method => j == i && method == "refresh"
  | _ => false

/-- An element that is not rendered is dirty if it was so before or was soiled since. -/
structure Element.HeldBack (x : Element) (soiled : Bool) (y : Element) : Prop where
  renderCount : y.renderCount = x.renderCount
  text : y.text = x.text
  isDirty : y.isDirty = (x.isDirty || soiled)

theorem Element.HeldBack.refl (x : Element) : x.HeldBack false x where
  renderCount := rfl
  text := rfl
  isDirty := (Bool.or_false _).symm

theorem Element.HeldBack.trans (h : HeldBack x soiled y) (h' : HeldBack y again z) :
    HeldBack x (soiled || again) z where
  renderCount := h'.renderCount.trans h.renderCount
  text := h'.text.trans h.text
  isDirty := by rw [h'.isDirty, h.isDirty, Bool.or_assoc]

structure Element.RenderedIfDue (x : Element) (autoFlush soiled : Bool) (y : Element) : Prop where
  renderCount : y.renderCount =
    x.renderCount + (if autoFlush && (x.isDirty || soiled) then 1 else 0)
  text : autoFlush = false → y.text = x.text
  isDirty : autoFlush = false → y.isDirty = (x.isDirty || soiled)

namespace Engine

structure Batch (e e' : Engine) (ps : List Patch) : Prop where
  depth : e'.dispatchDepth = e.dispatchDepth
  told : e'.recorder = (e.tell ps).recorder
  elements : ∀ i x, e.document.get? i = some x →
    ∃ y, e'.document.get? i = some y ∧ x.HeldBack (ps.any (Patch.soils i)) y

theorem Batch.refl (e : Engine) : Batch e e [] where
  depth := rfl
  told := congrArg recorder e.tell_nil.symm
  elements _ x hx := ⟨x, hx, .refl x⟩

theorem Batch.trans (h : Batch e₁ e₂ ps) (h' : Batch e₂ e₃ qs) : Batch e₁ e₃ (ps ++ qs) where
  depth := h'.depth.trans h.depth
  told := h'.told.trans (tell_told h.told qs)
  elements i x hx := by
    obtain ⟨y, hy, hxy⟩ := h.elements i x hx
    obtain ⟨z, hz, hyz⟩ := h'.elements i y hy
    rw [List.any_append]
    exact ⟨z, hz, hxy.trans hyz⟩

theorem Batch.single {e e' : Engine} {f : Element → Element} (hd : e'.dispatchDepth = e.dispatchDepth)
    (ht : e'.recorder = (e.tell [p]).recorder) (hdoc : e'.document = e.document.modify i f)
    (hid : ∀ y, (f y).id = y.id) (hp : ∀ j, p.soils j = (i == j))
    (hf : ∀ y : Element, y.HeldBack true (f y)) : Batch e e' [p] where
  depth := hd
  told := ht
  elements j x hx := by
    rw [hdoc, Document.get?_modify _ hid, hx, List.any_cons, List.any_nil, Bool.or_false, hp]
    by_cases hj : j = i
    · rw [if_pos hj, beq_iff_eq.2 hj.symm]
      exact ⟨f x, rfl, hf x⟩
    · rw [if_neg hj, beq_false_of_ne (Ne.symm hj)]
      exact ⟨x, rfl, .refl x⟩

/-- Only the outermost dispatch renders when it ends. -/
theorem leave_nested {e : Engine} (hd : 1 < e.dispatchDepth) :
    e.leave = { e with dispatchDepth := e.dispatchDepth - 1 } := by
  rw [leave, if_neg]
  rintro ⟨h, -⟩
  dsimp only at h
  omega

theorem Course.batch (h : Course e e') (hd : 0 < e.dispatchDepth) : ∃ ps, Batch e e' ps := by
  induction h with
  | refl e => exact ⟨[], .refl e⟩
  | write key value h hx hn =>
    rename_i x e
    have hdepth := (Act.assign key value h hn).frame.2.1
    have ht := congrArg recorder (e.assigned_eq x key (e.catalog.stored x.kind key value))
    refine ⟨_, .single hdepth ht (e.document_assigned x key _) (rewritten_id x key _) (fun _ => rfl) ?_⟩
    · intro y
      rw [rewritten]
      cases newName? x key _ <;> exact ⟨rfl, rfl, (Bool.or_true _).symm⟩
  | call h hx hm =>
    refine ⟨_, rfl, rfl, fun j x hx => ⟨x, hx, ?_⟩⟩
    rw [List.any_cons, List.any_nil, Bool.or_false, Patch.soils, beq_false_of_ne hm, Bool.and_false]
    exact .refl x
  | refresh h hx =>
    refine ⟨_, .single rfl rfl rfl (fun _ => rfl) (fun j => ?_) fun y => ?_⟩
    · rw [Patch.soils, beq_self_eq_true, Bool.and_true]
    · exact ⟨rfl, rfl, (Bool.or_true _).symm⟩
  | emit h ih =>
    obtain ⟨ps, hps⟩ := ih (Nat.succ_pos _)
    -- the nested dispatch is not the outermost one, so its end is silent
    have hdepth := hps.depth
    simp only [Engine.enter] at hdepth
    rw [leave_nested (by omega)]
    exact ⟨ps, Nat.sub_eq_of_eq_add hdepth, hps.told, hps.elements⟩
  | trans h h' ih ih' =>
    obtain ⟨ps, hps⟩ := ih hd
    obtain ⟨qs, hqs⟩ := ih' (hps.depth.symm ▸ hd)
    exact ⟨ps ++ qs, hps.trans hqs⟩

theorem shown_heldBack {e : Engine} (h : Element.HeldBack x soiled y) :
    x.RenderedIfDue e.settings.autoFlush soiled (e.shown y) := by
  rw [shown]
  cases e.settings.autoFlush with
  | false => exact ⟨h.renderCount, fun _ => h.text, fun _ => h.isDirty⟩
  | true =>
    refine ⟨?_, (fun hn => by cases hn), (fun hn => by cases hn)⟩
    rw [if_pos rfl, refresh, ← h.isDirty, Bool.true_and]
    split
    · rw [Element.rendered, h.renderCount]
    · exact h.renderCount

theorem Batch.leave {e e' : Engine} (h : Batch e.enter e' ps) (hs : e'.settings = e.settings)
    (hd : e.dispatchDepth = 0) :
    e'.leave.recorder = (e.tell ps).recorder ∧
      ∀ i x, e.document.get? i = some x → ∃ y, e'.leave.document.get? i = some y ∧
        x.RenderedIfDue e.settings.autoFlush (ps.any (Patch.soils i)) y := by
  have hdepth : e'.dispatchDepth = 1 := h.depth.trans (congrArg (· + 1) hd)
  rw [leave_outermost hdepth, settled_recorder, settled_eq, ← hs]
  refine ⟨h.told, fun i x hx => ?_⟩
  obtain ⟨y, hy, hxy⟩ := h.elements i x hx
  refine ⟨_, ?_, shown_heldBack (e := { e' with dispatchDepth := 0 }) hxy⟩
  rw [Document.get?_mapElements _ (shown_id _), hy, Option.map_some]

/-- With the standard methods, an outermost emit renders each element at most once, where it is due. -/
theorem batched_renders (h : Passed stack e) (hk : e.catalog = .standard) (hd : e.dispatchDepth = 0)
    (raw : String) :
    ∃ outcome e' ps,
      (∀ fuel, max 1 e.settings.maxDispatchDepth < fuel → (emit fuel raw).run e = outcome) ∧
      (outcome = .done () e' ∨ ∃ error, outcome = .failed error e') ∧
      e'.recorder = (e.tell ps).recorder ∧
      ∀ i x, e.document.get? i = some x → ∃ y, e'.document.get? i = some y ∧
        x.RenderedIfDue e.settings.autoFlush (ps.any (Patch.soils i)) y := by
  have hl := h.level lawful_true
  have hs : Standard e := ⟨hl.coherent, h.agrees lawful_true, hk⟩
  have hin : Quiet e e.enter := .depth _
  have hl' : Level Action.Plain e.settings stack e := { hl with methods := hk ▸ Catalog.standard_plain }
  let fuel := max 1 e.settings.maxDispatchDepth + 1
  have hfuel : max 1 e.settings.maxDispatchDepth < fuel := Nat.lt_succ_self _
  have hallowed : (Operation.emit raw).Allowed Action.Plain := trivial
  have hsame (fuel' : Nat) (hf : max 1 e.settings.maxDispatchDepth < fuel') :
      (emit fuel' raw).run e = (emit fuel raw).run e :=
    (hl'.perform hallowed hf hfuel).1
  have hends : ((emit fuel raw).run e).Settles _ := (hl'.perform hallowed hfuel hfuel).2
  have hcourse := onCourse_applyListener (tame_invoke fuel) (hs.quiet hin) (.parse raw)
  have hrun := run_emitWith_outermost hd (invoke fuel) raw
  rw [emit, hrun] at hends
  simp only [emit, hrun] at hsame
  cases hr : (applyListener (invoke fuel) (.parse raw)).run e.enter with
  | done _ e₁ =>
    rw [hr] at hcourse hsame
    obtain ⟨ps, hps⟩ := Course.batch hcourse (Nat.succ_pos _)
    exact ⟨_, e₁.leave, ps, hsame, .inl rfl, hps.leave (Course.quiets hcourse).settings hd⟩
  | failed error e₁ =>
    rw [hr] at hcourse hsame
    obtain ⟨ps, hps⟩ := hcourse.1.batch (Nat.succ_pos _)
    exact ⟨_, e₁.leave, ps, hsame, .inr ⟨error, rfl⟩, hps.leave hcourse.1.quiets.settings hd⟩
  | exhausted =>
    rw [hr] at hends
    exact hends.elim

def clickReport : Engine :=
  let call (method : String) : Json := .obj [("method", .str method)]
  let report : Json :=
    .obj [("value", .str "saved"), ("$call", .arr [call "hide", call "print"])]
  let save : Tree :=
    (((Tree.leaf "Button").withProp "name" (.str "save")).withProp "events"
      (.obj [("click", .str "status.report")])).withProp "listeners"
        (.obj [("press", .obj [("$call", .arr [call "click"])])])
  let status : Tree :=
    ((Tree.leaf "Text").withProp "name" (.str "status")).withProp "listeners" (.obj [("report", report)])
  after 0 (fresh {} .standard (fun _ => none) (some {}))
    [.render (.leaf "Chip"), .markDirty 0, .renderAndMount save, .renderAndMount status]

theorem batched_renders_clickReport :
    ∃ e', (emit 33 "save.press").run clickReport = .failed (.methodNotFound "status" "print") e' ∧
      ∃ chip button text, e'.document.get? 0 = some chip ∧ e'.document.get? 1 = some button ∧
        e'.document.get? 2 = some text ∧
        chip.renderCount = 2 ∧ button.renderCount = 1 ∧ text.renderCount = 2 := by
  have h : Passed [] clickReport := visited_after _ _ _ _ _ _
  have hk : clickReport.catalog = .standard := rfl
  have hd : clickReport.dispatchDepth = 0 := by decide +kernel
  have hlimit : max 1 clickReport.settings.maxDispatchDepth < 33 := by decide +kernel
  have hflush : clickReport.settings.autoFlush = true := by decide +kernel
  have hbefore (i : ElementId) (hi : i < 3) : (clickReport.document.get? i).map
      (fun x => (x.renderCount, x.isDirty)) = some (1, i == 0) := by
    revert i
    decide +kernel
  have htold : ((emit 33 "save.press").run clickReport).engine?.map (fun e' =>
      [1, 2].map fun i => (e'.patches.drop clickReport.patches.length).any (Patch.soils i)) =
      some [false, true] := by decide +kernel
  have herror : ((emit 33 "save.press").run clickReport).error? =
      some (.methodNotFound "status" "print") := by decide +kernel
  have hrecorder : clickReport.recorder.isSome = true := by decide +kernel
  obtain ⟨e', he⟩ := Outcome.error?_eq_some.1 herror
  obtain ⟨outcome, e'', ps, hrun, hends, ht, hall⟩ := batched_renders h hk hd "save.press"
  have hsame : e'' = e' := by
    rw [hrun 33 hlimit] at he
    rcases hends with rfl | ⟨error, rfl⟩ <;> cases he
    rfl
  subst hsame
  have hps : e''.patches.drop clickReport.patches.length = ps := by
    obtain ⟨r, hr⟩ := Option.isSome_iff_exists.1 hrecorder
    simp only [patches, ht, tell, hr, Option.map_some, Option.getD_some, Recorder.patches_replay,
      List.drop_left]
  rw [he, Outcome.engine?, Option.map_some, hps] at htold
  simp only [List.map_cons, List.map_nil, Option.some.injEq, List.cons.injEq, and_true] at htold
  have hcount (i : ElementId) (hi : i < 3) : ∃ y, e''.document.get? i = some y ∧
      y.renderCount = 1 + (if i == 0 || ps.any (Patch.soils i) then 1 else 0) := by
    obtain ⟨x, hx, hb⟩ := Option.map_eq_some_iff.1 (hbefore i hi)
    obtain ⟨y, hy, hdue⟩ := hall i x hx
    simp only [Prod.mk.injEq] at hb
    have hc := hdue.renderCount
    rw [hflush, hb.1, hb.2, Bool.true_and] at hc
    exact ⟨y, hy, hc⟩
  obtain ⟨chip, hchip, h₀⟩ := hcount 0 (by decide)
  obtain ⟨button, hbutton, h₁⟩ := hcount 1 (by decide)
  obtain ⟨text, htext, h₂⟩ := hcount 2 (by decide)
  rw [htold.1] at h₁
  rw [htold.2] at h₂
  exact ⟨e'', he, chip, button, text, hchip, hbutton, htext, h₀, h₁, h₂⟩

end Engine

end LiveTree
