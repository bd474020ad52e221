import Mathlib.Algebra.Order.BigOperators.Group.List
import Mathlib.Data.List.Forall2
import Mathlib.Tactic
/-!
# Lists related entry by entry

What the simulations use of `List.Forall₂` and of numbered lists beyond
the library.
-/

namespace Xpod

namespace Lists

variable {α β : Type*} {R : α → β → Prop} {l : List α} {l' : List β}

/-- An entry on the left has a partner on the right. -/
theorem exists_right_of_mem (h : List.Forall₂ R l l') {a : α} (ha : a ∈ l) : ∃ b ∈ l', R a b := by
  obtain ⟨i, hi, rfl⟩ := List.mem_iff_getElem.1 ha
  obtain ⟨hlen, hget⟩ := List.forall₂_iff_get.1 h
  exact ⟨l'[i], List.getElem_mem _, hget i hi (hlen ▸ hi)⟩

/-- An entry on the right has a partner on the left. -/
theorem exists_left_of_mem (h : List.Forall₂ R l l') {b : β} (hb : b ∈ l') : ∃ a ∈ l, R a b := by
  obtain ⟨i, hi, rfl⟩ := List.mem_iff_getElem.1 hb
  obtain ⟨hlen, hget⟩ := List.forall₂_iff_get.1 h
  exact ⟨l[i], List.getElem_mem _, hget i (hlen ▸ hi) hi⟩

/-- What holds of every pair of related entries in order carries over. -/
theorem pairwise_of_forall₂ {P : α → α → Prop} {Q : β → β → Prop} (h : List.Forall₂ R l l')
    (hQ : l'.Pairwise Q) (himp : ∀ a b a' b', R a a' → R b b' → Q a' b' → P a b) :
    l.Pairwise P := by
  induction h with
  | nil => exact List.Pairwise.nil
  | @cons a b l l' hab hl ih =>
    rw [List.pairwise_cons] at hQ ⊢
    refine ⟨fun c hc => ?_, ih hQ.2⟩
    obtain ⟨d, hd, hcd⟩ := exists_right_of_mem hl hc
    exact himp a c b d hab hcd (hQ.1 d hd)

/-- Of two different entries one stands before the other. -/
theorem eq_of_pairwise {P : α → α → Prop} (h : l.Pairwise P) {a b : α} (ha : a ∈ l) (hb : b ∈ l)
    (hab : ¬ P a b) (hba : ¬ P b a) : a = b := by
  by_contra hne
  have hall := List.Pairwise.forall_of_forall_of_flip (l := l)
    (R := fun a b => a ≠ b → P a b ∨ P b a) (fun a _ hne => absurd rfl hne)
    (h.imp fun hab _ => .inl hab) (h.imp fun hab _ => .inr hab)
  rcases hall ha hb hne with h | h
  · exact hab h
  · exact hba h

/-- A statement about every numbered entry, as one that can be decided. -/
theorem forall_getElem?_iff {P : ℕ → α → Prop} :
    (∀ i a, l[i]? = some a → P i a) ↔ ∀ p ∈ l.zipIdx, P p.2 p.1 := by
  simp only [Prod.forall, List.mem_zipIdx_iff_getElem?]
  exact ⟨fun h a i => h i a, fun h i a => h a i⟩

theorem flatMap_filter {α β : Type*} (p : α → Bool) (f : α → List β) (l : List α) :
    (l.filter p).flatMap f = l.flatMap fun a => if p a then f a else [] := by
  induction l with
  | nil => rfl
  | cons a l ih => by_cases h : p a <;> simp [h, ih]

/-- A filter that drops nothing relates the entries to what it makes of
them. -/
theorem forall₂_filterMap {f : α → Option β} (h : ∀ a ∈ l, ∃ b, f a = some b ∧ R a b) :
    List.Forall₂ R l (l.filterMap f) := by
  induction l with
  | nil => exact List.Forall₂.nil
  | cons a l ih =>
    obtain ⟨⟨b, hb, hab⟩, h⟩ := List.forall_mem_cons.1 h
    rw [List.filterMap_cons_some hb]
    exact List.Forall₂.cons hab (ih h)

/-- What every entry on the left can be related to. -/
theorem exists_forall₂ (h : ∀ a ∈ l, ∃ b, R a b) : ∃ l', List.Forall₂ R l l' := by
  induction l with
  | nil => exact ⟨[], List.Forall₂.nil⟩
  | cons a l ih =>
    obtain ⟨⟨b, hab⟩, h⟩ := List.forall_mem_cons.1 h
    obtain ⟨l', hl'⟩ := ih h
    exact ⟨b :: l', List.Forall₂.cons hab hl'⟩

/-- An entry on the left has its partner on the right. -/
theorem exists_right {α β : Type*} {R : α → β → Prop} {l : List α} {l' : List β} {a : α}
    (h : List.Forall₂ R l l') (ha : a ∈ l) : ∃ b ∈ l', R a b := by
  induction h with
  | nil => simp at ha
  | cons hab _ ih =>
    rcases List.mem_cons.1 ha with rfl | ha
    · exact ⟨_, List.mem_cons_self, hab⟩
    · obtain ⟨b, hb, hab⟩ := ih ha
      exact ⟨b, List.mem_cons_of_mem _ hb, hab⟩

/-- Where no key is twice, a lookup finds every entry. -/
theorem lookup_eq_some_iff_mem {κ ν : Type*} [BEq κ] [LawfulBEq κ] {l : List (κ × ν)} {k : κ}
    {v : ν} (h : (l.map Prod.fst).Nodup) : l.lookup k = some v ↔ (k, v) ∈ l := by
  induction l with
  | nil => simp
  | cons e l ih =>
    obtain ⟨k', v'⟩ := e
    rw [List.map_cons, List.nodup_cons] at h
    rw [List.mem_cons, Prod.mk.injEq]
    by_cases hk : k = k'
    · subst hk
      have hnot : (k, v) ∉ l := fun hmem => h.1 (List.mem_map.2 ⟨(k, v), hmem, rfl⟩)
      simp [hnot, eq_comm]
    · rw [List.lookup_cons, beq_eq_false_iff_ne.2 hk]
      simp [hk, ih h.2]

theorem length_of_mapM_eq_some {α β : Type*} {f : α → Option β} {l : List α} {l' : List β}
    (h : l.mapM f = some l') : l'.length = l.length := by
  induction l generalizing l' with
  | nil =>
    obtain rfl := Option.some.inj h
    rfl
  | cons a l ih =>
    rw [List.mapM_cons] at h
    obtain ⟨b, -, h⟩ := Option.bind_eq_some_iff.1 h
    obtain ⟨bs, hbs, h⟩ := Option.bind_eq_some_iff.1 h
    obtain rfl := Option.some.inj h
    rw [List.length_cons, List.length_cons, ih hbs]

/-- Terms that are at least others, with the same sum, are the others. -/
theorem eq_of_sum_map_eq {α M : Type*} [AddCommMonoid M] [PartialOrder M]
    [IsOrderedCancelAddMonoid M] {f g : α → M} {l : List α} (hle : ∀ a ∈ l, g a ≤ f a)
    (hsum : (l.map f).sum = (l.map g).sum) : ∀ a ∈ l, f a = g a := by
  induction l with
  | nil => simp
  | cons b l ih =>
    obtain ⟨hb, hle⟩ := List.forall_mem_cons.1 hle
    have htail : (l.map g).sum ≤ (l.map f).sum := List.sum_le_sum hle
    simp only [List.map_cons, List.sum_cons] at hsum
    obtain ⟨hhead, hrest⟩ := (add_eq_add_iff_eq_and_eq hb htail).1 hsum.symm
    exact List.forall_mem_cons.2 ⟨hhead.symm, ih hle hrest.symm⟩

end Lists

end Xpod
