import Mathlib.Data.Set.Card
import LiveTree.Proofs.NameIndex

namespace LiveTree.NameIndex
set_option autoImplicit true

inductive Request where
  | register (policy : NamePolicy) (name : String) (id : ElementId)
  | unregister (name : String) (id : ElementId)
  | check (policy : NamePolicy) (name : String) (id : ElementId)

def answer (index : NameIndex) : Request → Except Error Unit × NameIndex
  | .register policy name id =>
    match index.register policy name id with
    | .ok index' => (.ok (), index')
    | .error error => (.error error, index)
  | .unregister name id => (.ok (), index.unregister name id)
  | .check policy name id => (index.check policy name id, index)

def ofRequests (requests : List Request) : NameIndex :=
  requests.foldl (fun index request => (index.answer request).2) {}

/-- Clashes are rejected, and another id stands under the name. -/
def Clash (index : NameIndex) (policy : NamePolicy) (name : String) (id : ElementId) : Prop :=
  policy = .reject ∧ ∃ j ∈ index.idsOf name, j ≠ id

def Grants (index : NameIndex) (request : Request) (name : String) (id : ElementId) : Prop :=
  ∃ policy, request = .register policy name id ∧ (index.answer request).1 = .ok ()

def GrantedAt (requests : List Request) (name : String) (id : ElementId) (k : Nat) : Prop :=
  ∃ request, requests[k]? = some request ∧ (ofRequests (requests.take k)).Grants request name id

/-- The last request that put an id under a name was not followed by one that takes it away. -/
def Stands (requests : List Request) (name : String) (id : ElementId) : Prop :=
  ∃ k, GrantedAt requests name id k ∧
    ∀ m, k < m → ¬GrantedAt requests name id m ∧ requests[m]? ≠ some (.unregister name id)

theorem check_clash {index : NameIndex} (h : index.Clash policy name i) :
    index.check policy name i = .error (.duplicateName name) := by
  obtain ⟨hp, j, hj, hne⟩ := h
  cases hk : index.check policy name i with
  | ok => exact (hne (check_eq_ok_iff.1 hk hp j hj)).elim
  | error error => rw [(of_check_error hk).2]

theorem check_free {index : NameIndex} (h : ¬index.Clash policy name i) :
    index.check policy name i = .ok () := by
  rw [check_eq_ok_iff]
  intro hp j hj
  by_contra hne
  exact h ⟨hp, j, hj, hne⟩

theorem answer_clash {index : NameIndex} (h : index.Clash policy name i) :
    index.answer (.register policy name i) = (.error (.duplicateName name), index) := by
  simp only [answer, register, check_clash h]
  rfl

theorem answer_free {index : NameIndex} (h : ¬index.Clash policy name i) :
    index.answer (.register policy name i) = (.ok (), index.insert name i) := by
  simp only [answer, register_eq (check_free h)]

theorem answer_check (index : NameIndex) (policy : NamePolicy) (name : String) (i : ElementId) :
    index.answer (.check policy name i) = ((index.answer (.register policy name i)).1, index) := by
  by_cases hk : index.Clash policy name i
  · rw [answer_clash hk, answer, check_clash hk]
  · rw [answer_free hk, answer, check_free hk]

theorem WellFormed.answer (h : WellFormed index) (request : Request) :
    WellFormed (index.answer request).2 := by
  cases request with
  | register policy name i =>
    by_cases hk : index.Clash policy name i
    · rw [answer_clash hk]
      exact h
    · rw [answer_free hk]
      exact h.insert name i
  | unregister name i => exact h.unregister name i
  | check policy name i => exact h

/-- What one request changes: an id that it puts under a name is there, and one that it takes away is not. -/
theorem WellFormed.mem_idsOf_answer (h : WellFormed index) (request : Request) (m : String)
    (x : ElementId) :
    x ∈ (index.answer request).2.idsOf m ↔
      index.Grants request m x ∨ x ∈ index.idsOf m ∧ request ≠ .unregister m x := by
  cases request with
  | register policy name i =>
    by_cases hk : index.Clash policy name i
    · simp [Grants, answer_clash hk]
    · simp [Grants, answer_free hk, h.mem_idsOf_insert, eq_comm]
  | unregister name i => simp [Grants, NameIndex.answer, h.mem_idsOf_unregister, eq_comm]
  | check policy name i => simp [Grants, NameIndex.answer]

theorem ofRequests_concat (requests : List Request) (request : Request) :
    ofRequests (requests ++ [request]) = ((ofRequests requests).answer request).2 := by
  rw [ofRequests, List.foldl_append]
  rfl

theorem wellFormed_ofRequests (requests : List Request) : WellFormed (ofRequests requests) := by
  induction requests using List.reverseRecOn with
  | nil => exact wellFormed_empty
  | append_singleton requests request ih =>
    rw [ofRequests_concat]
    exact ih.answer request

theorem grantedAt_concat_of_lt {requests : List Request} (h : k < requests.length)
    (request : Request) :
    GrantedAt (requests ++ [request]) name i k ↔ GrantedAt requests name i k := by
  rw [GrantedAt, List.getElem?_append_left h, List.take_append_of_le_length (Nat.le_of_lt h), GrantedAt]

theorem grantedAt_concat_length {requests : List Request} {request : Request} :
    GrantedAt (requests ++ [request]) name i requests.length ↔
      (ofRequests requests).Grants request name i := by
  simp [GrantedAt]

theorem untouched_beyond {requests : List Request} (h : requests.length ≤ m) (name : String)
    (i : ElementId) : ¬GrantedAt requests name i m ∧ requests[m]? ≠ some (.unregister name i) := by
  rw [GrantedAt, List.getElem?_eq_none h]
  simp

/-- The last request decides if it is about the pair; otherwise what stood before it stands. -/
theorem stands_concat {requests : List Request} {request : Request} :
    Stands (requests ++ [request]) name i ↔
      (ofRequests requests).Grants request name i ∨
        Stands requests name i ∧ request ≠ .unregister name i := by
  have hlength : (requests ++ [request]).length = requests.length + 1 := List.length_append
  constructor
  · rintro ⟨k, hk, hlast⟩
    rcases Nat.lt_trichotomy k requests.length with hlt | rfl | hlt
    · refine .inr ⟨⟨k, (grantedAt_concat_of_lt hlt request).1 hk, fun m hm => ?_⟩, ?_⟩
      · rcases Nat.lt_or_ge m requests.length with hm' | hm'
        · rw [← grantedAt_concat_of_lt hm' request, ← List.getElem?_append_left hm']
          exact hlast m hm
        · exact untouched_beyond hm' name i
      · rintro rfl
        exact (hlast requests.length hlt).2 List.getElem?_concat_length
    · exact .inl (grantedAt_concat_length.1 hk)
    · exact ((untouched_beyond (hlength.trans_le hlt) name i).1 hk).elim
  · intro h
    by_cases hg : (ofRequests requests).Grants request name i
    · refine ⟨requests.length, grantedAt_concat_length.2 hg, fun m hm => ?_⟩
      exact untouched_beyond (hlength.trans_le hm) name i
    · obtain ⟨⟨k, hk, hlast⟩, hu⟩ := h.resolve_left hg
      have hlt : k < requests.length := by
        by_contra hge
        exact (untouched_beyond (Nat.le_of_not_lt hge) name i).1 hk
      refine ⟨k, (grantedAt_concat_of_lt hlt request).2 hk, fun m hm => ?_⟩
      rcases Nat.lt_trichotomy m requests.length with hm' | rfl | hm'
      · rw [grantedAt_concat_of_lt hm', List.getElem?_append_left hm']
        exact hlast m hm
      · rw [grantedAt_concat_length, List.getElem?_concat_length]
        exact ⟨hg, fun he => hu (Option.some.inj he)⟩
      · exact untouched_beyond (hlength.trans_le hm') name i

theorem mem_idsOf_ofRequests (requests : List Request) (name : String) (i : ElementId) :
    i ∈ (ofRequests requests).idsOf name ↔ Stands requests name i := by
  induction requests using List.reverseRecOn with
  | nil => simp [ofRequests, idsOf, Stands, GrantedAt]
  | append_singleton requests request ih =>
    rw [ofRequests_concat, (wellFormed_ofRequests requests).mem_idsOf_answer, ih, stands_concat]

theorem WellFormed.encard_names (h : WellFormed index) :
    {n | index.idsOf n ≠ []}.encard = index.size := by
  have hset : {n | index.idsOf n ≠ []} = ((OrderedMap.keys index.entries).toFinset : Set String) := by
    ext n
    rw [Finset.mem_coe, List.mem_toFinset, OrderedMap.keys, List.mem_map]
    constructor
    · intro hne
      exact ⟨(n, index.idsOf n), h.mem_entries.2 ⟨hne, rfl⟩, rfl⟩
    · rintro ⟨entry, he, rfl⟩
      obtain ⟨hne, hids⟩ := h.mem_entries.1 he
      exact hids.trans_ne hne
  rw [hset, Set.encard_coe_eq_coe_finsetCard, List.toFinset_card_of_nodup h.nodup_names,
    OrderedMap.keys, List.length_map, size]

/-- Under a name stand the ids that were put there and not taken away since, in any order of requests. -/
theorem requests_decide (requests : List Request) :
    (∀ entry ∈ (ofRequests requests).entries, entry.2.Pairwise (· < ·) ∧ entry.2 ≠ []) ∧
    (∀ n, ((ofRequests requests).idsOf n).Pairwise (· < ·) ∧
      ((ofRequests requests).contains n = true ↔ (ofRequests requests).idsOf n ≠ []) ∧
      (((ofRequests requests).find? n).isSome = true ↔ (ofRequests requests).idsOf n ≠ [])) ∧
    {n | (ofRequests requests).idsOf n ≠ []}.encard = (ofRequests requests).size ∧
    (∀ n i, i ∈ (ofRequests requests).idsOf n ↔ Stands requests n i) ∧
    (∀ policy n i,
      ((ofRequests requests).Clash policy n i → (ofRequests requests).answer (.register policy n i) =
        (.error (.duplicateName n), ofRequests requests)) ∧
      (¬(ofRequests requests).Clash policy n i →
        ((ofRequests requests).answer (.register policy n i)).1 = .ok ()) ∧
      (ofRequests requests).answer (.check policy n i) =
        (((ofRequests requests).answer (.register policy n i)).1, ofRequests requests)) ∧
    (∀ requests', (∀ n i, i ∈ (ofRequests requests).idsOf n ↔ i ∈ (ofRequests requests').idsOf n) →
      ofRequests requests = ofRequests requests') := by
  have hw := wellFormed_ofRequests requests
  refine ⟨?_, ?_, hw.encard_names, mem_idsOf_ofRequests requests, ?_, ?_⟩
  · exact fun entry he => ⟨hw.ids entry he, hw.inhabited entry he⟩
  · intro n
    refine ⟨hw.pairwise_idsOf n, hw.contains_iff, ?_⟩
    rw [find?, List.isSome_head?]
  · intro policy n i
    refine ⟨answer_clash, fun hk => ?_, answer_check _ policy n i⟩
    rw [answer_free hk]
  · intro requests' hp
    exact hw.ext (wellFormed_ofRequests requests') hp

example :
    let requests : List Request :=
      [ .register .firstMatch "save" 7, .register .reject "save" 3, .register .firstMatch "save" 3,
        .register .reject "load" 5, .check .reject "load" 2, .unregister "load" 5,
        .register .reject "save" 7, .unregister "save" 7 ]
    ofRequests requests = ⟨[("save", [3])]⟩ := by
  decide +kernel

end LiveTree.NameIndex
