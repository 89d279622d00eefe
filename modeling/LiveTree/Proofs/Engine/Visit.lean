import LiveTree.Proofs.Conduct
import LiveTree.Proofs.Engine.Run

namespace LiveTree.Engine
set_option autoImplicit true

/-- The states that new engines pass through, and the targets of the emits that are in flight there, the
innermost first. Kinds are exchanged as `exchange` says, payloads and hosts at will. -/
inductive Visited (allowed : Action → Prop) (exchange : Catalog → Catalog → Prop) :
    List String → Engine → Prop
  | fresh {catalog : Catalog} (settings : Settings) (operations : Operations)
    (recorder : Option Recorder) (h : catalog.Obeys allowed) :
    Visited allowed exchange [] (fresh settings catalog operations recorder)
  | done (operation : Operation) (fuel : Nat) (h : Visited allowed exchange stack e)
    (ho : operation.Allowed allowed) (hr : (operation.perform fuel).run e = .done () e') :
    Visited allowed exchange stack e'
  | failed (operation : Operation) (fuel : Nat) (h : Visited allowed exchange stack e)
    (ho : operation.Allowed allowed) (hr : (operation.perform fuel).run e = .failed error e') :
    Visited allowed exchange stack e'
  | refit {catalog : Catalog} (operations : Operations) (recorder : Option Recorder)
    (h : Visited allowed exchange stack e) (hx : exchange e.catalog catalog)
    (hm : catalog.Obeys allowed) :
    Visited allowed exchange stack { e with catalog, operations, recorder }
  | enter (raw : String) (h : Visited allowed exchange stack e) (hl : e.atLimit = false) :
    Visited allowed exchange (raw :: stack) e.enter
  | leave (h : Visited allowed exchange (raw :: stack) e) : Visited allowed exchange stack e.leave
  | call (method : String) (h : Visited allowed exchange stack e) (hx : e.document.get? i = some x) :
    Visited allowed exchange stack (e.tell [.invokeMethod i method])
  | log (line : String) (h : Visited allowed exchange stack e) :
    Visited allowed exchange stack { e with journal := e.journal ++ [line] }

/-- The states that engines pass through, whatever methods do and whichever kinds are exchanged. -/
abbrev Passed : List String → Engine → Prop :=
  Visited (fun _ => True) (fun _ _ => True)

variable {allowed : Action → Prop} {exchange : Catalog → Catalog → Prop}

/-- An invariant of every engine, with the settings that it was given, holds wherever one passes. -/
theorem Visited.keep {I : Settings → List String → Engine → Prop} {bound : Settings → Nat}
    (hI : ∀ settings, Invariant True (bound settings) allowed (I settings))
    (h₀ : ∀ settings catalog operations recorder, catalog.Obeys allowed →
      I settings [] (Engine.fresh settings catalog operations recorder))
    (hx : ∀ {settings stack e catalog} operations recorder, I settings stack e →
      exchange e.catalog catalog → catalog.Obeys allowed →
      I settings stack { e with catalog, operations, recorder })
    (h : Visited allowed exchange stack e) : ∃ settings, I settings stack e := by
  induction h with
  | fresh settings operations recorder h => exact ⟨settings, h₀ settings _ operations recorder h⟩
  | done operation fuel _ ho hr ih =>
    obtain ⟨settings, h⟩ := ih
    have hk := (hI settings).keeps_operation ho fuel _ _ h
    rw [hr] at hk
    exact ⟨settings, hk⟩
  | failed operation fuel _ ho hr ih =>
    obtain ⟨settings, h⟩ := ih
    have hk := (hI settings).keeps_operation ho fuel _ _ h
    rw [hr] at hk
    exact ⟨settings, hk⟩
  | refit operations recorder _ hx' hm ih =>
    obtain ⟨settings, h⟩ := ih
    exact ⟨settings, hx operations recorder h hx' hm⟩
  | enter raw _ hl ih =>
    obtain ⟨settings, h⟩ := ih
    exact ⟨settings, (hI settings).enter raw h hl⟩
  | leave _ ih =>
    obtain ⟨settings, h⟩ := ih
    exact ⟨settings, (hI settings).leave h⟩
  | call method _ hx ih =>
    obtain ⟨settings, h⟩ := ih
    exact ⟨settings, (hI settings).act h (.call method hx)⟩
  | log line _ ih =>
    obtain ⟨settings, h⟩ := ih
    exact ⟨settings, (hI settings).act h (.log line)⟩

/-- The depth counts the emits in flight, within the limit, and methods do only what is allowed. -/
structure Level (allowed : Action → Prop) (given : Settings) (stack : List String) (e : Engine) :
    Prop where
  coherent : Coherent e
  settings : e.settings = given
  depth : e.dispatchDepth = stack.length
  within : stack.length ≤ max 1 given.maxDispatchDepth
  methods : e.catalog.Obeys allowed

theorem Act.frame (h : Act e e') :
    e'.settings = e.settings ∧ e'.dispatchDepth = e.dispatchDepth ∧ e'.catalog = e.catalog := by
  cases h with
  | assign key value h hn =>
    exact assigned_keep (P := fun e' => e'.settings = e.settings ∧
      e'.dispatchDepth = e.dispatchDepth ∧ e'.catalog = e.catalog) ⟨rfl, rfl, rfl⟩
      (fun _ => ⟨rfl, rfl, rfl⟩) fun h => h
  | _ => exact ⟨rfl, rfl, rfl⟩

theorem Level.act (h : Level allowed given stack e) (hs : Act e e') : Level allowed given stack e' := by
  obtain ⟨h₁, h₂, h₃⟩ := hs.frame
  constructor
  · exact hs.coherent h.coherent
  · rw [h₁, h.settings]
  · rw [h₂, h.depth]
  · exact h.within
  · rw [h₃]
    exact h.methods

theorem Level.enter (h : Level allowed given stack e) (hl : e.atLimit = false) (raw : String) :
    Level allowed given (raw :: stack) e.enter where
  coherent := ⟨h.coherent.forest, h.coherent.names⟩
  settings := h.settings
  depth := by rw [List.length_cons, ← h.depth, Engine.enter]
  within := by
    -- the outermost emit is let in whatever the limit is
    rw [atLimit, h.settings, h.depth, Bool.and_eq_false_iff] at hl
    simp only [decide_eq_false_iff_not] at hl
    rw [List.length_cons]
    omega
  methods := h.methods

theorem Level.leave (h : Level allowed given (raw :: stack) e) : Level allowed given stack e.leave := by
  apply leave_keep
  · constructor
    · exact ⟨h.coherent.forest, h.coherent.names⟩
    · exact h.settings
    · rw [h.depth, List.length_cons, Nat.add_sub_cancel]
    · have hw := h.within
      rw [List.length_cons] at hw
      omega
    · exact h.methods
  · intro e h
    exact h.act .flush

theorem invariant_level (hl : Lawful spent allowed) (given : Settings) :
    Invariant spent (max 1 given.maxDispatchDepth) allowed (Level allowed given) where
  coherent h := h.coherent
  bounded h := .inr h.within
  act h hs := h.act hs
  render _ h hr := by
    obtain ⟨hb, -⟩ := builds_of_render h.coherent hr
    have hc := hb.coherent h.coherent
    obtain ⟨d, r, rfl⟩ := hb.frame
    exact ⟨hc, h.settings, h.depth, h.within, h.methods⟩
  define ha h :=
    ⟨⟨h.coherent.forest, h.coherent.names⟩, h.settings, h.depth, h.within,
      h.methods.define _ _ (hl.defined ha)⟩
  enter raw h hl := h.enter hl raw
  leave h := h.leave
  parsed h := hl.parsed h
  body h hm := h.methods.method? hm
  direct h := hl.direct h

theorem level_fresh {catalog : Catalog} (settings : Settings) (operations : Operations)
    (recorder : Option Recorder) (hm : catalog.Obeys allowed) :
    Level allowed settings [] (Engine.fresh settings catalog operations recorder) where
  coherent := coherent_fresh settings catalog operations recorder
  settings := rfl
  depth := rfl
  within := Nat.zero_le _
  methods := hm

theorem Level.refit {catalog : Catalog} (h : Level allowed given stack e) (operations : Operations)
    (recorder : Option Recorder) (hm : catalog.Obeys allowed) :
    Level allowed given stack { e with catalog, operations, recorder } where
  coherent := ⟨h.coherent.forest, h.coherent.names⟩
  settings := h.settings
  depth := h.depth
  within := h.within
  methods := hm

/-- What edits keep holds wherever one passes. -/
theorem Visited.keep_edit {P : Engine → Prop} (hl : Lawful True allowed)
    (h₀ : ∀ settings catalog operations recorder, P (Engine.fresh settings catalog operations recorder))
    (step : ∀ {e e'}, Coherent e → P e → Edit e e' → P e')
    (hx : ∀ {e catalog} operations recorder, P e → exchange e.catalog catalog →
      P { e with catalog, operations, recorder })
    (h : Visited allowed exchange stack e) : Level allowed e.settings stack e ∧ P e := by
  have hI (given : Settings) :=
    (Invariant.of_edit step).and (invariant_level hl given) fun _ _ => trivial
  obtain ⟨given, ⟨-, hp⟩, hk⟩ := h.keep hI
    (fun settings catalog operations recorder hm =>
      have hl := level_fresh settings operations recorder hm
      ⟨⟨hl.coherent, h₀ settings catalog operations recorder⟩, hl⟩)
    (fun operations recorder h hr hm =>
      have hl := h.2.refit operations recorder hm
      ⟨⟨hl.coherent, hx operations recorder h.1.2 hr⟩, hl⟩)
  rw [hk.settings]
  exact ⟨hk, hp⟩

theorem Visited.level (hl : Lawful True allowed) (h : Visited allowed exchange stack e) :
    Level allowed e.settings stack e :=
  (h.keep_edit (P := fun _ => True) hl (fun _ _ _ _ => trivial) (fun _ _ _ => trivial)
    fun _ _ _ _ => trivial).1

theorem Visited.act (hl : Lawful True allowed) (h : Visited allowed exchange stack e) (hs : Act e e') :
    Visited allowed exchange stack e' := by
  have hc := (h.level hl).coherent
  cases hs with
  | mount hx hn => exact h.done (.mount _) 0 trivial (run_mount hc.names hx hn)
  | remove hx => exact h.done (.unmount _) 0 trivial (run_unmount hc.forest hx)
  | assign key value hx hn =>
    exact h.done (.setAttribute _ key value) 0 trivial (run_setAttribute hc.names hx hn)
  | touch hx => exact h.done (.markDirty _) 0 trivial (run_markDirty hx)
  | flush => exact h.done .flush 0 trivial rfl
  | call method hx => exact h.call method hx
  | log line => exact h.log line

theorem invariant_visited (hl : Lawful True allowed) :
    Invariant True 0 allowed (Visited allowed exchange) where
  coherent h := (h.level hl).coherent
  bounded _ := .inl trivial
  act h hs := h.act hl hs
  render {stack tree e root e'} ha h hr := by
    have hr' : ((Operation.render tree).perform 0).run e = .done () e' :=
      EngineM.run_bind_done hr fun _ => pure ()
    exact h.done (.render tree) 0 ha hr'
  define ha h := h.done (.define _ _ _) 0 ha rfl
  enter raw h hl := h.enter raw hl
  leave h := h.leave
  parsed h := hl.parsed h
  body h hm := (h.level hl).methods.method? hm
  direct h := hl.direct h

theorem invariant_passed : Invariant True 0 (fun _ => True) Passed :=
  invariant_visited lawful_true

/-- An engine takes a step, or its kinds, payloads and host are exchanged at will. -/
inductive Turn : Engine → Engine → Prop
  | step (h : Step e e') : Turn e e'
  | refit (catalog : Catalog) (operations : Operations) (recorder : Option Recorder) :
    Turn e { e with catalog, operations, recorder }

def Becomes : Engine → Engine → Prop :=
  Relation.ReflTransGen Turn

theorem Run.becomes (h : Run e e') : Becomes e e' := by
  induction h with
  | refl => exact .refl
  | tail _ h ih => exact ih.tail (.step h)

/-- What edits keep, and exchanges do not concern, is kept for all time. -/
theorem Becomes.keep {P : Engine → Prop} (step : ∀ {e e'}, Coherent e → P e → Edit e e' → P e')
    (hx : ∀ {e} catalog operations recorder, P e → P { e with catalog, operations, recorder })
    (h : Becomes e e') (hc : Coherent e) (hp : P e) : Coherent e' ∧ P e' := by
  induction h with
  | refl => exact ⟨hc, hp⟩
  | tail _ h ih =>
    obtain ⟨hc, hp⟩ := ih
    cases h with
    | step h => exact ⟨Edits.coherent (h.edits hc) hc, Edits.keep step (h.edits hc) hc hp⟩
    | refit catalog operations recorder =>
      exact ⟨⟨hc.forest, hc.names⟩, hx catalog operations recorder hp⟩

theorem Visited.after {operations : List Operation} (fuel : Nat) (h : Visited allowed exchange stack e)
    (ho : ∀ operation ∈ operations, operation.Allowed allowed) :
    Visited allowed exchange stack (Engine.after fuel e operations) := by
  induction operations generalizing e with
  | nil => exact h
  | cons operation rest ih =>
    obtain ⟨hf, hr⟩ := List.forall_mem_cons.1 ho
    rw [Engine.after]
    split
    · rename_i hd
      exact ih (h.done operation fuel hf hd) hr
    · rename_i hd
      exact ih (h.failed operation fuel hf hd) hr
    · exact ih h hr

theorem visited_after (fuel : Nat) (settings : Settings) (catalog : Catalog) (operations : Operations)
    (recorder : Option Recorder) (asked : List Operation) :
    Visited (fun _ => True) exchange []
      (after fuel (fresh settings catalog operations recorder) asked) := by
  apply (Visited.fresh settings operations recorder catalog.obeys_true).after fuel
  intro operation _
  exact operation.allowed_of_forall fun _ => trivial

end LiveTree.Engine
