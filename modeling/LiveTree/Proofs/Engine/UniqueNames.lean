import LiveTree.Proofs.Engine.Naming
import LiveTree.Proofs.Engine.Visit

namespace LiveTree
set_option autoImplicit true

namespace NameIndex

/-- No name stands for two ids. -/
def Single (index : NameIndex) : Prop :=
  ∀ n i j, i ∈ index.idsOf n → j ∈ index.idsOf n → i = j

theorem Single.of_subset {index index' : NameIndex} (h : index.Single)
    (hs : ∀ n i, i ∈ index'.idsOf n → i ∈ index.idsOf n) : index'.Single := by
  intro n i j hi hj
  exact h n i j (hs n i hi) (hs n j hj)

theorem Single.insert {index : NameIndex} (h : index.Single) (hw : index.WellFormed)
    (hi : ∀ j ∈ index.idsOf name, j = i) : (index.insert name i).Single := by
  intro n j k hj hk
  rcases hw.mem_idsOf_insert.1 hj with ⟨rfl, rfl⟩ | hj'
  · rcases hw.mem_idsOf_insert.1 hk with ⟨-, rfl⟩ | hk'
    · rfl
    · exact (hi k hk').symm
  · rcases hw.mem_idsOf_insert.1 hk with ⟨rfl, rfl⟩ | hk'
    · exact hi j hj'
    · exact h n j k hj' hk'

end NameIndex

namespace Engine

theorem single_enrolled {index : NameIndex} (h : index.Single) (hw : index.WellFormed)
    (hm : MayEnroll .reject index elements) : (enrolled index elements).Single := by
  induction elements generalizing index with
  | nil => exact h
  | cons x rest ih =>
    have hx := (hm rfl).1 x List.mem_cons_self
    exact ih (h.insert hw hx) (hw.insert x.name x.id) (hm.tail hw)

/-- Where clashes are rejected, no name stands for two ids. -/
def Exclusive (e : Engine) : Prop :=
  e.settings.namePolicy = .reject → e.names.Single

theorem exclusive_fresh (settings : Settings) (catalog : Catalog) (operations : Operations)
    (recorder : Option Recorder) : Exclusive (fresh settings catalog operations recorder) := by
  intro _ n i j hi
  simp [fresh, NameIndex.idsOf] at hi

theorem Exclusive.renamed {e : Engine} (h : Exclusive e) (hw : e.names.WellFormed)
    (hc : x.mounted = true → e.names.check e.settings.namePolicy name x.id = .ok ()) :
    Exclusive (e.renamed x name) := by
  intro hp
  simp only [Engine.renamed]
  split
  · rename_i hm
    have hi := NameIndex.check_eq_ok_iff.1 (hc hm) hp
    split
    · apply NameIndex.Single.insert
      · exact (h hp).of_subset fun n j hj => (hw.mem_idsOf_unregister.1 hj).1
      · exact hw.unregister x.name x.id
      · intro j hj
        exact hi j (hw.mem_idsOf_unregister.1 hj).1
    · exact (h hp).insert hw hi
  · exact h hp

theorem Act.exclusive (hs : Act e e') (hc : Coherent e) (h : Exclusive e) : Exclusive e' := by
  cases hs with
  | mount hx hn =>
    intro hp
    have hm := (checkNames_ok hn).1
    rw [show e.settings.namePolicy = .reject from hp] at hm
    exact single_enrolled (h hp) hc.names hm
  | remove hx =>
    intro hp
    exact (h hp).of_subset fun n j hj => ((mem_idsOf_struck hc.names).1 hj).1
  | assign key value hx hn =>
    rw [assigned]
    cases hs : newName? _ key _ with
    | none => exact h
    | some name => exact h.renamed hc.names (hn name hs)
  | _ => exact h

theorem Edit.exclusive (hs : Edit e e') (hc : Coherent e) (h : Exclusive e) : Exclusive e' := by
  cases hs with
  | build hs =>
    obtain ⟨d, r, rfl⟩ := hs.frame
    exact h
  | act hs => exact hs.exclusive hc h
  | depth n => exact h
  | define kind method script => exact h

theorem Visited.exclusive {allowed : Action → Prop} {exchange : Catalog → Catalog → Prop}
    (hl : Lawful True allowed) (h : Visited allowed exchange stack e) : Exclusive e :=
  (h.keep_edit hl (P := Exclusive) exclusive_fresh (fun hc h hs => hs.exclusive hc h)
    fun _ _ h _ => h).2

theorem Exclusive.eq_of_holds {e : Engine} (h : Exclusive e) (hc : Coherent e) (ha : Agrees e)
    (hp : e.settings.namePolicy = .reject) (hx : x ∈ e.document.elements) (hy : y ∈ e.document.elements)
    (hxn : x.holds n = true) (hyn : y.holds n = true) : x = y := by
  have hgx := hc.forest.get?_of_mem hx
  have hgy := hc.forest.get?_of_mem hy
  have hid : x.id = y.id := h hp n x.id y.id ((ha n x.id).2 ⟨x, hgx, hxn⟩) ((ha n y.id).2 ⟨y, hgy, hyn⟩)
  rw [hid, hgy] at hgx
  exact (Option.some.inj hgx).symm

theorem run_reregister {e : Engine} (hw : e.names.WellFormed)
    (h : e.names.check e.settings.namePolicy name i = .ok ()) (declared : Bool) (other : String) :
    ∃ e', ((if declared then unregister other i else pure ()) >>= fun _ => register name i).run e =
      .done () e' := by
  cases declared with
  | false => exact ⟨_, run_register h⟩
  | true =>
    have hu : (register name i).run { e with names := e.names.unregister other i } = .done () _ :=
      run_register (check_unregister hw h other)
    exact ⟨_, hu⟩

/-- Where clashes are rejected, mounted names differ, and a mount or a write that fails changes nothing. -/
theorem rejected_names (h : Passed stack e) (hp : e.settings.namePolicy = .reject) :
    (∀ x ∈ e.document.elements, ∀ y ∈ e.document.elements, x.mounted = true → x.declared = true →
      y.mounted = true → y.declared = true → x.name = y.name → x = y) ∧
    (∀ root error e', (mount root).run e = .failed error e' →
      e' = e ∧ (error = .unknownElement root ∨ ∃ name, error = .duplicateName name)) ∧
    (∀ i key value error e', (setAttribute i key value).run e = .failed error e' →
      e' = e ∧ (error = .unknownElement i ∨ ∃ name, error = .duplicateName name)) ∧
    (∀ root, checkNames e.names e.settings.namePolicy [] (pending e.document root) = .ok () →
      ∃ e', (((pending e.document root).filter (·.declared)).forM fun x =>
        register x.name x.id).run e = .done () e') ∧
    (∀ (x : Element) name, e.names.check e.settings.namePolicy name x.id = .ok () →
      ∃ e', ((if x.declared then unregister x.name x.id else pure ()) >>= fun _ =>
        register name x.id).run e = .done () e') := by
  obtain ⟨hl, ha, hx⟩ := h.keep_edit lawful_true (P := fun e => Agrees e ∧ Exclusive e)
    (fun settings catalog operations recorder =>
      ⟨agrees_fresh settings catalog operations recorder,
        exclusive_fresh settings catalog operations recorder⟩)
    (fun hc h hs => ⟨hs.agrees hc h.1, hs.exclusive hc h.2⟩) (fun _ _ h _ => h)
  have hc := hl.coherent
  refine ⟨?_, ?_, ?_, ?_, ?_⟩
  · intro x hmx y hmy hxm hxd hym hyd hn
    exact hx.eq_of_holds hc ha hp hmx hmy (holds_iff.2 ⟨hxm, hxd, hn⟩) (holds_iff.2 ⟨hym, hyd, rfl⟩)
  · intro root error e' hr
    rcases run_mount_cases hc root with ⟨e'', hr', -⟩ | ⟨error', hr', he⟩
    · rw [hr'] at hr
      cases hr
    · rw [hr'] at hr
      cases hr
      exact ⟨rfl, he⟩
  · intro i key value error e' hr
    rcases run_setAttribute_cases hc i key value with ⟨e'', hr', -⟩ | ⟨error', hr', he⟩
    · rw [hr'] at hr
      cases hr
    · rw [hr'] at hr
      cases hr
      exact ⟨rfl, he⟩
  · intro root hn
    exact ⟨_, run_forM_register hc.names (checkNames_ok hn).1⟩
  · intro x name hn
    exact run_reregister hc.names hn x.declared x.name

def claimedName : Engine :=
  let button (name : String) : Tree := (Tree.leaf "Button").withProp "name" (.str name)
  after 0 (fresh { namePolicy := .reject } .standard (fun _ => none) (some {}))
    [ .renderAndMount (button "save"),
      .renderAndMount (button "load"),
      .render (((Tree.leaf "Card").withChild "body" (button "draft")).withChild "body" (button "save")) ]

theorem rejected_names_claimedName :
    claimedName.document.idsNamed "save" = [0] ∧
      (mount 2).run claimedName = .failed (.duplicateName "save") claimedName ∧
      (setAttribute 1 "name" (.str "save")).run claimedName =
        .failed (.duplicateName "save") claimedName := by
  have h : Passed [] claimedName := visited_after _ _ _ _ _ _
  have hp : claimedName.settings.namePolicy = .reject := by decide +kernel
  have hmount : ((mount 2).run claimedName).error? = some (.duplicateName "save") := by decide +kernel
  have hwrite : ((setAttribute 1 "name" (.str "save")).run claimedName).error? =
      some (.duplicateName "save") := by decide +kernel
  obtain ⟨-, hm, hw, -⟩ := rejected_names h hp
  obtain ⟨e₁, h₁⟩ := Outcome.error?_eq_some.1 hmount
  obtain ⟨e₂, h₂⟩ := Outcome.error?_eq_some.1 hwrite
  refine ⟨by decide +kernel, ?_, ?_⟩
  · rw [h₁, (hm _ _ _ h₁).1]
  · rw [h₂, (hw _ _ _ _ _ h₂).1]

end Engine

end LiveTree
