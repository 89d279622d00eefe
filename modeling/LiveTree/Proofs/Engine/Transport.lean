import LiveTree.Proofs.Engine.Hosts
import LiveTree.Proofs.Patch.MessagePack

namespace LiveTree
set_option autoImplicit true

namespace Engine

def keeping (ps : List Patch) : Rehosting where
  replace := Option.map fun r => ⟨ps ++ r.patches⟩
  replace_replay recorder qs := by
    cases recorder with
    | none => rfl
    | some r =>
      simp only [Option.map_some, Recorder.patches_replay, ← List.append_assoc]
      exact congrArg (fun qs => some (Recorder.mk qs)) (Recorder.patches_replay ⟨ps ++ r.patches⟩ qs).symm

/-- The engine with patches in its recorder that were recorded before. -/
def preceded (ps : List Patch) (e : Engine) : Engine :=
  e.rehosted (keeping ps)

theorem preceded_nil (e : Engine) : e.preceded [] = e := by
  cases e with
  | mk settings document names catalog operations recorder depth journal =>
    cases recorder <;> rfl

/-- What is done with an engine and the recorder it draws on. -/
inductive Request where
  | ask (operation : Operation)
  | draw (p : Patch)
  | drain
  | encode

def Request.draws : Request → Bool
  | .ask _ => true
  | .draw _ => true
  | .drain => false
  | .encode => false

inductive Delivery where
  | batch (ps : List Patch)
  | bytes (packed : List UInt8)

def Delivery.Holds : Delivery → List Patch → Prop
  | .batch ps, qs => qs = ps
  | .bytes packed, qs => Patch.pack qs = packed

/-- Serve a request. Without a recorder there is nothing to take. -/
def serve (fuel : Nat) (e : Engine) : Request → Option Delivery × Engine
  | .ask operation => (none, after fuel e [operation])
  | .draw p => (none, e.tell [p])
  | .drain => (e.recorder.map (.batch ·.drain.1), { e with recorder := e.recorder.map (·.drain.2) })
  | .encode => (e.recorder.map (.bytes ·.encode.1), { e with recorder := e.recorder.map (·.encode.2) })

def relay (fuel : Nat) (e : Engine) : List Request → List Delivery × Engine
  | [] => ([], e)
  | request :: rest =>
    let served := serve fuel e request
    let later := relay fuel served.2 rest
    (served.1.toList ++ later.1, later.2)

def told (fuel : Nat) (e : Engine) : Request → List Patch
  | .ask operation => (after fuel e [operation]).patches.drop e.patches.length
  | .draw p => [p]
  | .drain => []
  | .encode => []

def recorded (fuel : Nat) (e : Engine) : List Request → List Patch
  | [] => []
  | request :: rest => told fuel e request ++ recorded fuel (serve fuel e request).2 rest

theorem after_preceded (fuel : Nat) (ps : List Patch) (e : Engine) (operation : Operation) :
    after fuel (e.preceded ps) [operation] = (after fuel e [operation]).preceded ps := by
  have hc : Carries (keeping ps) (operation.perform fuel) := Carries.operation fuel operation
  simp only [preceded, after, hc e]
  cases (operation.perform fuel).run e <;> rfl

theorem coherent_after (fuel : Nat) {e : Engine} (hc : Coherent e) (operations : List Operation) :
    Coherent (after fuel e operations) :=
  Edits.coherent (Run.edits (run_after fuel e operations) hc) hc

theorem recorder_after (fuel : Nat) {e : Engine} (hc : Coherent e) (hr : e.recorder = some r)
    (operation : Operation) :
    (after fuel e [operation]).recorder = some (r.replay (told fuel e (.ask operation))) := by
  obtain ⟨ps, ht, -⟩ := Edits.followed (Run.edits (run_after fuel e [operation]) hc) hc
  rw [tell, hr, Option.map_some] at ht
  have hp : (after fuel e [operation]).patches = e.patches ++ ps := by
    rw [patches, patches, ht, hr, Option.map_some, Option.map_some, Option.getD_some, Option.getD_some,
      Recorder.patches_replay]
  rw [ht, told, hp, List.drop_left]

/-- What a run takes, what it records, and the run that takes nothing. -/
structure Relayed (fuel : Nat) (e : Engine) (r : Recorder) (requests : List Request) (ps : List Patch)
    (batches : List (List Patch)) (r' : Recorder) : Prop where
  deliveries : List.Forall₂ Delivery.Holds (relay fuel e requests).1 batches
  recorder : (relay fuel e requests).2.recorder = some r'
  recorded : r.patches ++ recorded fuel e requests = batches.flatten ++ r'.patches
  untaken : (relay fuel (e.preceded ps) (requests.filter Request.draws)).2 =
    (relay fuel e requests).2.preceded (ps ++ batches.flatten)

theorem Relayed.take {e : Engine} (hr : e.recorder = some r) (hn : request.draws = false)
    (hs : serve fuel e request = (some delivery, { e with recorder := some {} }))
    (ht : told fuel e request = []) (hd : delivery.Holds r.patches)
    (h : Relayed fuel { e with recorder := some {} } {} rest (ps ++ r.patches) batches r') :
    Relayed fuel e r (request :: rest) ps (r.patches :: batches) r' where
  deliveries := by
    rw [relay, hs]
    exact .cons hd h.deliveries
  recorder := by
    rw [relay, hs]
    exact h.recorder
  recorded := by
    have hrec := h.recorded
    rw [List.nil_append] at hrec
    rw [Engine.recorded, ht, hs, List.nil_append, hrec, List.flatten_cons, List.append_assoc]
  untaken := by
    have he : e.preceded ps = { e with recorder := some {} }.preceded (ps ++ r.patches) := by
      simp only [preceded, rehosted, keeping, hr, Option.map_some, List.append_nil]
    rw [relay, hs, List.filter_cons_of_neg (by simp [hn]), he, h.untaken, List.flatten_cons,
      List.append_assoc]

theorem Relayed.add {e e₁ : Engine} (hn : request.draws = true)
    (hs : serve fuel e request = (none, e₁))
    (hp : serve fuel (e.preceded ps) request = (none, e₁.preceded ps))
    (h : Relayed fuel e₁ (r.replay (told fuel e request)) rest ps batches r') :
    Relayed fuel e r (request :: rest) ps batches r' where
  deliveries := by
    rw [relay, hs]
    exact h.deliveries
  recorder := by
    rw [relay, hs]
    exact h.recorder
  recorded := by
    rw [← h.recorded, Engine.recorded, hs, Recorder.patches_replay, List.append_assoc]
  untaken := by
    rw [List.filter_cons_of_pos hn, relay, relay, hs, hp]
    exact h.untaken

theorem exists_relayed (fuel : Nat) (requests : List Request) {e : Engine} (hc : Coherent e)
    (hr : e.recorder = some r) (ps : List Patch) :
    ∃ batches r', Relayed fuel e r requests ps batches r' := by
  induction requests generalizing e r ps with
  | nil =>
    use [], r
    constructor
    · exact .nil
    · exact hr
    · rw [recorded, List.append_nil, List.flatten_nil, List.nil_append]
    · rw [List.flatten_nil, List.append_nil]
      rfl
  | cons request rest ih =>
    have hempty : Coherent { e with recorder := some {} } := ⟨hc.forest, hc.names⟩
    cases request with
    | ask operation =>
      obtain ⟨batches, r', h⟩ :=
        ih (coherent_after fuel hc [operation]) (recorder_after fuel hc hr operation) ps
      have hp := congrArg (Prod.mk (none : Option Delivery)) (after_preceded fuel ps e operation)
      exact ⟨batches, r', h.add rfl rfl hp⟩
    | draw p =>
      have hr₁ : (e.tell [p]).recorder = some (r.replay [p]) := by rw [tell, hr, Option.map_some]
      obtain ⟨batches, r', h⟩ := ih (e := e.tell [p]) ⟨hc.forest, hc.names⟩ hr₁ ps
      have hp := congrArg (Prod.mk (none : Option Delivery)) (rehosted_tell (keeping ps) [p] e)
      exact ⟨batches, r', h.add rfl rfl hp⟩
    | drain =>
      obtain ⟨batches, r', h⟩ := ih hempty rfl (ps ++ r.patches)
      have hs : serve fuel e .drain = (some (.batch r.patches), { e with recorder := some {} }) := by
        rw [serve, hr]
        rfl
      exact ⟨_, r', h.take hr rfl hs rfl rfl⟩
    | encode =>
      obtain ⟨batches, r', h⟩ := ih hempty rfl (ps ++ r.patches)
      have hs : serve fuel e .encode =
          (some (.bytes (Patch.pack r.patches)), { e with recorder := some {} }) := by
        rw [serve, hr]
        rfl
      exact ⟨_, r', h.take hr rfl hs rfl rfl⟩

theorem eq_of_holds {deliveries : List Delivery} {batches others : List (List Patch)}
    (h : List.Forall₂ Delivery.Holds deliveries batches)
    (h' : List.Forall₂ Delivery.Holds deliveries others) (hp : ∀ ps ∈ batches, Patch.Packable ps)
    (hp' : ∀ ps ∈ others, Patch.Packable ps) : others = batches := by
  induction h generalizing others with
  | nil =>
    cases h'
    rfl
  | @cons delivery batch _ _ hd _ ih =>
    cases h' with
    | @cons _ other _ _ hd' h' =>
      obtain ⟨hb, hbs⟩ := List.forall_mem_cons.1 hp
      obtain ⟨ho, hos⟩ := List.forall_mem_cons.1 hp'
      have he : other = batch := by
        cases delivery with
        | batch ps => exact hd'.trans hd.symm
        | bytes packed => exact (Patch.pack_inj ho hb (congrArg (· ++ []) (hd'.trans hd.symm))).1
      rw [he, ih h' hbs hos]

/-- What was recorded is what was taken, and after it what is left, each patch once and in order. -/
theorem transport_lossless (fuel : Nat) (requests : List Request) (h : Passed stack e)
    (hr : e.recorder = some r) :
    ∃ batches, List.Forall₂ Delivery.Holds (relay fuel e requests).1 batches ∧
      r.patches ++ recorded fuel e requests = batches.flatten ++ (relay fuel e requests).2.patches ∧
      (relay fuel e (requests.filter Request.draws)).2 =
        { (relay fuel e requests).2 with
          recorder := some ⟨batches.flatten ++ (relay fuel e requests).2.patches⟩ } ∧
      ((∀ ps ∈ batches, Patch.Packable ps) → ∀ others, (∀ ps ∈ others, Patch.Packable ps) →
        List.Forall₂ Delivery.Holds (relay fuel e requests).1 others → others = batches) ∧
      ∀ ps qs, Patch.Packable ps → Patch.Packable qs →
        (Patch.pack ps = Patch.pack qs → ps = qs) ∧ (Patch.pack ps <+: Patch.pack qs → ps = qs) := by
  obtain ⟨batches, r', hrel⟩ := exists_relayed fuel requests (h.level lawful_true).coherent hr []
  have hps : (relay fuel e requests).2.patches = r'.patches := by
    rw [patches, hrel.recorder]
    rfl
  have huntaken := hrel.untaken
  rw [preceded_nil, List.nil_append, preceded, rehosted, hrel.recorder] at huntaken
  rw [hps]
  refine ⟨batches, hrel.deliveries, hrel.recorded, huntaken,
    fun hp others hp' hd => eq_of_holds hrel.deliveries hd hp hp', ?_⟩
  intro ps qs hp hq
  constructor
  · intro he
    exact (Patch.pack_inj hp hq (congrArg (· ++ []) he)).1
  · rintro ⟨rest, he⟩
    rw [← List.append_nil (Patch.pack qs)] at he
    exact (Patch.pack_inj hp hq he).1

def recordedEngine : Engine :=
  fresh {} .standard (fun _ => none) (some {})

def takenTwice : List Request :=
  [ .ask (.renderAndMount ((Tree.leaf "Chip").withProp "name" (.str "tag"))),
    .drain,
    .draw (.invokeMethod 0 "focus"),
    .ask (.setAttribute 0 "label" (.arr [.null, .bool true])),
    .encode,
    .ask (.invoke 0 "hide") ]

def oneWritten (n : Number) : List Patch :=
  [.setAttribute 0 "label" (.num n)]

theorem transport_lossless_takenTwice :
    (recorded 2 recordedEngine takenTwice).map Patch.label =
        ["create", "set_attribute", "invoke_method", "set_attribute", "invoke_method", "set_attribute"] ∧
      (relay 2 recordedEngine takenTwice).2.patches.map Patch.label =
        ["invoke_method", "set_attribute"] ∧
      (∃ batches : List (List Patch), batches.length = 2 ∧
        recorded 2 recordedEngine takenTwice =
          batches.flatten ++ (relay 2 recordedEngine takenTwice).2.patches) ∧
      Patch.pack (oneWritten (.int (.ofNat 1))) ≠ Patch.pack (oneWritten (.double ⟨false, 1023, 0⟩)) := by
  have hpassed : Passed [] recordedEngine := visited_after 0 {} .standard (fun _ => none) (some {}) []
  have hlen : (relay 2 recordedEngine takenTwice).1.length = 2 := by decide +kernel
  have hsound (n : Number) : ∀ p ∈ oneWritten n, p.Sound := by
    simp [oneWritten, Patch.Sound, Patch.ids]
  have hint : Patch.Packable (oneWritten (.int (.ofNat 1))) := ⟨by decide +kernel, hsound _⟩
  have hdouble : Patch.Packable (oneWritten (.double ⟨false, 1023, 0⟩)) := ⟨by decide +kernel, hsound _⟩
  obtain ⟨batches, hd, hrec, -, -, hinj⟩ := transport_lossless 2 takenTwice hpassed rfl
  refine ⟨by decide +kernel, by decide +kernel, ⟨batches, ?_, hrec⟩, ?_⟩
  · rw [← hd.length_eq, hlen]
  · intro he
    cases (hinj _ _ hint hdouble).1 he

end Engine

end LiveTree
