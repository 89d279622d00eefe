import LiveTree.Engine.Basic

namespace LiveTree
set_option autoImplicit true

namespace EngineM

variable {α β : Type}

def run (x : EngineM α) (e : Engine) : Outcome α :=
  x e

theorem run_bind (x : EngineM α) (f : α → EngineM β) (e : Engine) :
    (x >>= f).run e =
      match x.run e with
      | .done a e => (f a).run e
      | .failed error e => .failed error e
      | .exhausted => .exhausted :=
  rfl

theorem run_bind_done {x : EngineM α} (h : x.run e = .done a e') (f : α → EngineM β) :
    (x >>= f).run e = (f a).run e' := by
  rw [run_bind, h]

theorem run_bind_failed {x : EngineM α} (h : x.run e = .failed error e') (f : α → EngineM β) :
    (x >>= f).run e = .failed error e' := by
  rw [run_bind, h]

@[simp] theorem run_pure (a : α) (e : Engine) : (pure a : EngineM α).run e = .done a e :=
  rfl

@[simp] theorem run_get (e : Engine) : (get : EngineM Engine).run e = .done e e :=
  rfl

@[simp] theorem run_set (e e' : Engine) : (set e' : EngineM PUnit).run e = .done ⟨⟩ e' :=
  rfl

@[simp] theorem run_modify (f : Engine → Engine) (e : Engine) :
    (modify f : EngineM PUnit).run e = .done ⟨⟩ (f e) :=
  rfl

@[simp] theorem run_throw (error : Error) (e : Engine) :
    (throw error : EngineM α).run e = .failed error e :=
  rfl

theorem run_tryCatch (x : EngineM α) (handler : Error → EngineM α) (e : Engine) :
    (tryCatch x handler).run e =
      match x.run e with
      | .failed error e => (handler error).run e
      | outcome => outcome :=
  rfl

@[simp] theorem ofExcept_ok (a : α) : ofExcept (.ok a) = pure a :=
  rfl

@[simp] theorem ofExcept_error (error : Error) :
    (ofExcept (.error error) : EngineM α) = throw error :=
  rfl

theorem forM_cons (f : α → EngineM PUnit) (x : α) (xs : List α) :
    (x :: xs).forM f = f x >>= fun _ => xs.forM f :=
  rfl

theorem run_bind_pure (x : EngineM PUnit) (e : Engine) : (x >>= fun _ => pure ⟨⟩).run e = x.run e := by
  rw [run_bind]
  cases x.run e <;> rfl

theorem run_forM_singleton (f : α → EngineM PUnit) (a : α) (e : Engine) :
    ([a].forM f).run e = (f a).run e :=
  run_bind_pure (f a) e

theorem run_forM_append {f : α → EngineM PUnit} {xs : List α} (h : (xs.forM f).run e = .done ⟨⟩ e')
    (ys : List α) : ((xs ++ ys).forM f).run e = (ys.forM f).run e' := by
  induction xs generalizing e with
  | nil =>
    cases h
    rfl
  | cons x xs ih =>
    rw [forM_cons, run_bind] at h
    cases hx : (f x).run e with
    | done a e₁ =>
      rw [hx] at h
      rw [List.cons_append, forM_cons, run_bind_done hx, ih h]
    | failed error e₁ =>
      rw [hx] at h
      cases h
    | exhausted =>
      rw [hx] at h
      cases h

end EngineM

namespace Recorder

theorem applyTo_host (r : Recorder) (p : Patch) : p.applyTo host r = r.record p := by
  cases p <;> rfl

theorem replay_cons (r : Recorder) (p : Patch) (ps : List Patch) :
    r.replay (p :: ps) = (r.record p).replay ps := by
  rw [replay, List.foldl_cons, applyTo_host, replay]

theorem patches_replay (r : Recorder) (ps : List Patch) :
    (r.replay ps).patches = r.patches ++ ps := by
  induction ps generalizing r with
  | nil => exact (List.append_nil _).symm
  | cons p ps ih => rw [replay_cons, ih, record, List.append_assoc, List.singleton_append]

theorem replay_eq (r : Recorder) (ps : List Patch) : r.replay ps = ⟨r.patches ++ ps⟩ :=
  congrArg Recorder.mk (r.patches_replay ps)

theorem replay_append (r : Recorder) (ps qs : List Patch) :
    r.replay (ps ++ qs) = (r.replay ps).replay qs :=
  List.foldl_append

end Recorder

namespace Engine

/-- Tell the host, one patch after the other. -/
def tell (e : Engine) (ps : List Patch) : Engine :=
  { e with recorder := e.recorder.map (·.replay ps) }

theorem tell_append (e : Engine) (ps qs : List Patch) : e.tell (ps ++ qs) = (e.tell ps).tell qs := by
  simp only [tell, Option.map_map, Function.comp_def, Recorder.replay_append]

theorem tell_nil (e : Engine) : e.tell [] = e := by
  cases e with
  | mk settings document names catalog operations recorder depth journal =>
    cases recorder <;> rfl

/-- What a host is told comes after what it was told before. -/
theorem tell_told {e e' : Engine} (h : e'.recorder = (e.tell ps).recorder) (qs : List Patch) :
    (e'.tell qs).recorder = (e.tell (ps ++ qs)).recorder := by
  rw [tell_append, tell, h]
  rfl

theorem run_record (p : Patch) (e : Engine) : (record p).run e = .done () (e.tell [p]) := by
  simp only [tell, Recorder.replay_cons]
  rfl

theorem run_forM_record {α : Type} (f : α → Patch) (xs : List α) (e : Engine) :
    (xs.forM fun x => record (f x)).run e = .done () (e.tell (xs.map f)) := by
  induction xs generalizing e with
  | nil =>
    rw [List.map_nil, tell_nil]
    rfl
  | cons x xs ih =>
    rw [EngineM.forM_cons, EngineM.run_bind_done (run_record (f x) e), ih, ← tell_append]
    rfl

theorem run_element_some {e : Engine} (h : e.document.get? i = some x) :
    (element i).run e = .done x e := by
  rw [element, EngineM.run_bind_done (EngineM.run_get e), h, EngineM.run_pure]

theorem run_element_none {e : Engine} (h : e.document.get? i = none) :
    (element i).run e = .failed (.unknownElement i) e := by
  rw [element, EngineM.run_bind_done (EngineM.run_get e), h, EngineM.run_throw]

end Engine

namespace Outcome

variable {α β : Type}

/-- A run ends in a state with a property. It runs out of fuel only if `spent` holds. -/
def Leaves (spent : Prop) (P : Engine → Prop) : Outcome α → Prop
  | .done _ e => P e
  | .failed _ e => P e
  | .exhausted => spent

/-- A run that ends, ends in a state with a property. -/
abbrev Ends (P : Engine → Prop) (o : Outcome α) : Prop :=
  o.Leaves True P

/-- A run ends, and it does so in a state with a property. -/
abbrev Settles (P : Engine → Prop) (o : Outcome α) : Prop :=
  o.Leaves False P

variable {P Q : Engine → Prop}

theorem Leaves.imp {o : Outcome α} (h : o.Leaves spent P) (hpq : ∀ e, P e → Q e) :
    o.Leaves spent Q := by
  cases o with
  | done a e => exact hpq e h
  | failed error e => exact hpq e h
  | exhausted => exact h

theorem Leaves.mapEngine {o : Outcome α} (h : o.Leaves spent P) {f : Engine → Engine}
    (hf : ∀ e, P e → Q (f e)) : (o.mapEngine f).Leaves spent Q := by
  cases o with
  | done a e => exact hf e h
  | failed error e => exact hf e h
  | exhausted => exact h

def error? : Outcome α → Option Error
  | .failed error _ => some error
  | _ => none

theorem error?_eq_some {o : Outcome α} : o.error? = some error ↔ ∃ e, o = .failed error e := by
  cases o with
  | done a e => simp [error?]
  | failed error' e => simp [error?]
  | exhausted => simp [error?]

def engine? : Outcome α → Option Engine
  | .done _ e => some e
  | .failed _ e => some e
  | .exhausted => none

theorem exists_done {o : Outcome Unit} {f : Engine → β} (he : o.error? = none)
    (hf : o.engine?.map f = some b) : ∃ e, o = .done () e ∧ f e = b := by
  cases o with
  | done a e => exact ⟨e, rfl, Option.some.inj hf⟩
  | failed error e => cases he
  | exhausted => cases hf

theorem error?_mapEngine (o : Outcome α) (f : Engine → Engine) : (o.mapEngine f).error? = o.error? := by
  cases o <;> rfl

end Outcome

end LiveTree
