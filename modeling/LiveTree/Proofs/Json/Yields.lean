import LiveTree.Json.Decoder
import LiveTree.Proofs.OrderedMap

namespace LiveTree
set_option autoImplicit true

namespace Reader

variable {α β σ : Type} {P : α → Prop} {Q : β → Prop} {I : σ → Prop}

/-- Every answer of a reader has a property. -/
def Yields (r : Reader α) (P : α → Prop) : Prop :=
  ∀ s a rest, r s = .ok (a, rest) → P a

namespace Yields

theorem pure (h : P a) : Yields (Pure.pure a) P := by
  intro s b rest hr
  cases hr
  exact h

theorem fail (fault : Fault) : Yields (Reader.fail fault : Reader α) P := by
  intro s b rest hr
  cases hr

theorem bind {x : Reader α} {f : α → Reader β} (hx : Yields x P) (hf : ∀ a, P a → Yields (f a) Q) :
    Yields (x >>= f) Q := by
  intro s b rest hr
  cases hs : x s with
  | error fault =>
    simp only [Bind.bind, StateT.bind, hs] at hr
    cases hr
  | ok answer =>
    simp only [Bind.bind, StateT.bind, hs] at hr
    exact hf answer.1 (hx s answer.1 answer.2 hs) answer.2 b rest hr

theorem after {x : Reader α} {f : α → Reader β} (hf : ∀ a, Yields (f a) Q) : Yields (x >>= f) Q :=
  bind (P := fun _ => True) (fun _ _ _ _ => trivial) fun a _ => hf a

theorem map {x : Reader α} {f : α → β} (hx : Yields x P) (hf : ∀ a, P a → Q (f a)) :
    Yields (f <$> x) Q :=
  bind hx fun a ha => pure (hf a ha)

theorem imp {x : Reader α} {P' : α → Prop} (hx : Yields x P) (h : ∀ a, P a → P' a) : Yields x P' :=
  fun s a rest hr => h a (hx s a rest hr)

theorem run {r : Reader α} (h : Yields r P) (hr : Reader.run r s = .ok a) : P a := by
  rw [Reader.run] at hr
  split at hr
  · cases hr
  · rename_i b rest hs
    split at hr
    · cases hr
      exact h _ _ _ hs
    · cases hr

theorem items {item : Reader α} (h : Yields item P) (first : Bool) (bound : List Char) :
    Yields (Reader.items item first bound) (∀ a ∈ ·, P a) := by
  have hnext (bound : List Char) (ih : Yields (Reader.items item false bound) (∀ a ∈ ·, P a)) :
      Yields (do
        let head ← item
        let tail ← Reader.items item false bound
        Pure.pure (head :: tail)) (∀ a ∈ ·, P a) :=
    bind h fun a ha => bind ih fun rest hrest => pure (List.forall_mem_cons.2 ⟨ha, hrest⟩)
  induction bound generalizing first with
  | nil => exact fail _
  | cons c bound ih =>
    rw [Reader.items]
    refine after fun c => ?_
    split
    · exact after fun _ => pure fun _ hm => (List.not_mem_nil hm).elim
    · split
      · refine after fun _ => after fun c => ?_
        split
        · exact after fun _ => hnext bound (ih false)
        · exact hnext bound (ih false)
      · exact hnext bound (ih false)

theorem list {item : Reader α} (h : Yields item P) : Yields (Reader.list item) (∀ a ∈ ·, P a) :=
  after fun _ => after fun s => items h true s

theorem members {name : Reader String} {member : σ → String → Reader σ}
    (h : ∀ gathered key, I gathered → Yields (member gathered key) I) (first : Bool)
    (hg : I gathered) (bound : List Char) :
    Yields (Reader.members name member first gathered bound) I := by
  induction bound generalizing first gathered with
  | nil => exact fail _
  | cons c bound ih =>
    rw [Reader.members]
    refine after fun c => ?_
    split
    · exact after fun _ => pure hg
    · split
      · exact after fun _ => after fun key => bind (h gathered key hg) fun _ hg => ih false hg
      · exact after fun key => bind (h gathered key hg) fun _ hg => ih false hg

theorem object {name : Reader String} {member : σ → String → Reader σ}
    (h : ∀ gathered key, I gathered → Yields (member gathered key) I) (hs : I start) :
    Yields (Reader.object name member start) I :=
  after fun _ => after fun s => members h true hs s

/-- An object read entry by entry has every key once. -/
theorem entries {value : Reader α} {name : Reader String} (h : Yields value P) :
    Yields (Reader.object name (entry value) [])
      (fun m => m.keys.Nodup ∧ ∀ entry ∈ m, P entry.2) := by
  refine object (fun m key hm => ?_) ⟨List.nodup_nil, fun _ he => (List.not_mem_nil he).elim⟩
  refine after fun _ => bind h fun a ha => pure ⟨OrderedMap.nodup_keys_update hm.1 key _, ?_⟩
  exact OrderedMap.forall_mem_update hm.2 key fun _ _ => ha

end Yields

end Reader

namespace Decoder

open Reader

variable {α σ : Type} {P : α → Prop}

theorem yields_mismatch : Yields (mismatch : Reader α) P := by
  refine .after fun c => ?_
  split
  · exact .fail _
  · exact .after fun _ => .fail _

theorem yields_nested {inner : Decoder α} {depth : Nat} (h : ∀ d < depth, Yields (inner d) P) :
    Yields (nested inner depth) P := by
  cases depth with
  | zero => exact .fail _
  | succ depth => exact h depth (Nat.lt_succ_self depth)

theorem yields_accept {a? : Option α} (h : ∀ a, a? = some a → P a) : Yields (accept a?) P := by
  cases a? with
  | none => exact .fail _
  | some a => exact .pure (h a rfl)

theorem yields_list {item : Decoder α} {depth : Nat} (h : ∀ d < depth, Yields (item d) P) :
    Yields (list item depth) (∀ a ∈ ·, P a) := by
  refine .after fun c => ?_
  split
  · exact yields_nested fun d hd => .list (h d hd)
  · exact yields_mismatch

theorem yields_map {value : Decoder α} {depth : Nat} (h : ∀ d < depth, Yields (value d) P) :
    Yields (map value depth) (fun m => m.keys.Nodup ∧ ∀ entry ∈ m, P entry.2) := by
  refine .after fun c => ?_
  split
  · exact yields_nested fun d hd => .entries (h d hd)
  · exact yields_mismatch

section Records

variable {fields : List (Field σ)} {I : σ → Prop} {depth : Nat}

theorem yields_member (h : ∀ f ∈ fields, ∀ draft, I draft → Yields (f.read draft depth) I)
    (hd : I draft) (key : String) : Yields (member fields depth draft key) I := by
  rw [member]
  split
  · rename_i f hf
    split
    · exact .fail _
    · exact .after fun _ => h f (List.mem_of_find?_eq_some hf) draft hd
  · exact .after fun _ => .after fun _ => .pure hd

theorem yields_positional (h : ∀ f ∈ fields, ∀ draft, I draft → Yields (f.read draft depth) I)
    (hd : I draft) (first : Bool) : Yields (positional depth first draft fields) I := by
  induction fields generalizing first draft with
  | nil => exact .pure hd
  | cons f rest ih =>
    obtain ⟨hf, hrest⟩ := List.forall_mem_cons.1 h
    have hnext : Yields (do positional depth false (← f.read draft depth) rest) I :=
      .bind (hf draft hd) fun _ hd => ih hrest hd false
    rw [positional]
    refine .after fun c => ?_
    split
    · exact .pure hd
    · split
      · refine .after fun _ => .after fun c => ?_
        split
        · exact .after fun _ => hnext
        · exact hnext
      · exact hnext

theorem yields_record
    (h : ∀ d < depth, ∀ f ∈ fields, ∀ draft, I draft → Yields (f.read draft d) I) (hs : I start)
    {finish : σ → Option α} (hf : ∀ draft a, I draft → finish draft = some a → P a) :
    Yields (record fields start finish depth) P := by
  refine .after fun c => ?_
  split
  · refine yields_nested fun d hd => ?_
    refine .bind (.object (fun draft key hI => yields_member (h d hd) hI key) hs) fun draft hI => ?_
    exact yields_accept (hf draft · hI)
  · split
    · refine yields_nested fun d hd => .after fun _ => ?_
      refine .bind (yields_positional (h d hd) hs true) fun draft hI => ?_
      exact .bind (yields_accept (hf draft · hI)) fun a ha => .after fun _ => .pure ha
    · exact yields_mismatch

end Records

end Decoder

end LiveTree
