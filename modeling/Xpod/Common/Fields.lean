import Mathlib.Data.List.Basic
import Mathlib.Tactic
import Xpod.Common.Java
/-!
# Fields with a separator between each two

A writer puts a separator between its fields and escapes nothing; a
reader who knows how many fields there are cuts at the first separator
until one field is left and takes the rest as the last. The two agree
exactly on the fields whose separators all stand in the last one.
-/

namespace Xpod

namespace Fields

variable {α : Type*}

theorem intercalate_cons_cons (sep : α) (t u : List α) (ts : List (List α)) :
    [sep].intercalate (t :: u :: ts) = t ++ sep :: [sep].intercalate (u :: ts) := by
  simp [List.intercalate, List.intersperse]

/-- What stands behind the last separator, and in front of it, can be read
off a text. -/
theorem append_cons_inj {sep : α} {a b d e : List α} (hd : sep ∉ d) (he : sep ∉ e) :
    a ++ sep :: d = b ++ sep :: e ↔ a = b ∧ d = e := by
  refine ⟨fun h => ?_, fun h => by rw [h.1, h.2]⟩
  rcases List.append_eq_append_iff.1 h with ⟨as, rfl, has⟩ | ⟨as, rfl, has⟩
  · rcases as with - | ⟨c, as⟩
    · exact ⟨(List.append_nil a).symm, (List.cons.inj has).2⟩
    · obtain ⟨-, rfl⟩ := List.cons.inj has
      simp at hd
  · rcases as with - | ⟨c, as⟩
    · exact ⟨List.append_nil b, (List.cons.inj has).2.symm⟩
    · obtain ⟨-, rfl⟩ := List.cons.inj has
      simp at he

/-- **Where two texts that each hold a mark between separators are equal.**
The mark `m` does not occur behind the mark of the second text, so the
first part ends where the second does, or inside it. -/
theorem append_mark_eq {sep m m' : α} {a b d e : List α} (hm : m ≠ sep) (hm' : m' ≠ sep)
    (he : m ∉ e) (h : a ++ sep :: m :: sep :: d = b ++ sep :: m' :: sep :: e) :
    (a = b ∧ m = m' ∧ d = e) ∨
      ∃ y, b = a ++ sep :: m :: y ∧ sep :: d = y ++ sep :: m' :: sep :: e := by
  rcases List.append_eq_append_iff.1 h with ⟨y, rfl, hy⟩ | ⟨y, rfl, hy⟩
  · rcases y with - | ⟨c, - | ⟨c', y⟩⟩
    · simp only [List.nil_append, List.cons.injEq, true_and] at hy
      exact Or.inl ⟨(List.append_nil a).symm, hy⟩
    · simp only [List.cons_append, List.nil_append, List.cons.injEq] at hy
      exact absurd hy.2.1 hm
    · simp only [List.cons_append, List.cons.injEq] at hy
      obtain ⟨rfl, rfl, hy⟩ := hy
      exact Or.inr ⟨y, rfl, hy⟩
  · rcases y with - | ⟨c, - | ⟨c', y⟩⟩
    · simp only [List.nil_append, List.cons.injEq, true_and] at hy
      exact Or.inl ⟨List.append_nil b, hy.1.symm, hy.2.symm⟩
    · simp only [List.cons_append, List.nil_append, List.cons.injEq] at hy
      exact absurd hy.2.1 hm'
    · -- the mark would stand behind the other one
      simp only [List.cons_append, List.cons.injEq] at hy
      have hmem : m ∈ sep :: e := by
        rw [hy.2.2]
        simp
      rcases List.mem_cons.1 hmem with hsep | hmem
      · exact absurd hsep hm
      · exact absurd hmem he

variable [DecidableEq α] (sep : α)

/-- **`n` cuts, each at the first separator of what is left.** What lies
behind the last cut is the last field. -/
def cuts : ℕ → List α → Option (List (List α))
  | 0, s => some [s]
  | n + 1, s => (Java.cutAt sep s).bind fun p => (cuts n p.2).map (p.1 :: ·)

variable {sep} {n : ℕ} {s t : List α} {ts fs : List (List α)}

theorem length_of_cuts (h : cuts sep n s = some fs) : fs.length = n + 1 := by
  induction n generalizing s fs with
  | zero =>
    obtain rfl := Option.some.inj h
    rfl
  | succ n ih =>
    obtain ⟨⟨a, b⟩, -, h⟩ := Option.bind_eq_some_iff.1 h
    obtain ⟨gs, hgs, rfl⟩ := Option.map_eq_some_iff.1 h
    rw [List.length_cons, ih hgs]

/-- **Too few separators** are what makes a cut fail. -/
theorem cuts_eq_none_iff : cuts sep n s = none ↔ s.count sep < n := by
  induction n generalizing s with
  | zero => simp [cuts]
  | succ n ih =>
    rcases hcut : Java.cutAt sep s with - | ⟨a, b⟩
    · have hs : sep ∉ s := Java.cutAt_eq_none.1 hcut
      simp [cuts, hcut, List.count_eq_zero_of_not_mem hs]
    · obtain ⟨rfl, ha⟩ := Java.cutAt_eq_some.1 hcut
      have hcount : (a ++ sep :: b).count sep = b.count sep + 1 := by
        rw [List.count_append, List.count_eq_zero_of_not_mem ha, List.count_cons_self]
        omega
      have hb : cuts sep n b = none ↔ b.count sep < n := ih
      rw [cuts, hcut, Option.bind_some, Option.map_eq_none_iff, hb, hcount]
      omega

/-- What was cut apart is joined again, and all fields but the last are
free of separators. -/
theorem intercalate_of_cuts (h : cuts sep n s = some fs) :
    [sep].intercalate fs = s ∧ ∀ u ∈ fs.dropLast, sep ∉ u := by
  induction n generalizing s fs with
  | zero =>
    obtain rfl := Option.some.inj h
    simp
  | succ n ih =>
    obtain ⟨⟨a, b⟩, hcut, h⟩ := Option.bind_eq_some_iff.1 h
    obtain ⟨gs, hgs, rfl⟩ := Option.map_eq_some_iff.1 h
    obtain ⟨rfl, ha⟩ := Java.cutAt_eq_some.1 hcut
    obtain ⟨hjoin, hfree⟩ := ih hgs
    have hlength := length_of_cuts hgs
    obtain ⟨g, gs, rfl⟩ := List.exists_cons_of_length_eq_add_one hlength
    rw [intercalate_cons_cons, hjoin, List.dropLast_cons_cons]
    exact ⟨rfl, List.forall_mem_cons.2 ⟨ha, hfree⟩⟩

/-- The last field holds every separator that was not cut at. -/
theorem count_getLast_of_cuts (h : cuts sep n s = some fs) :
    ∃ l, fs.getLast? = some l ∧ l.count sep + n = s.count sep := by
  induction n generalizing s fs with
  | zero =>
    obtain rfl := Option.some.inj h
    exact ⟨s, rfl, rfl⟩
  | succ n ih =>
    obtain ⟨⟨a, b⟩, hcut, h⟩ := Option.bind_eq_some_iff.1 h
    obtain ⟨gs, hgs, rfl⟩ := Option.map_eq_some_iff.1 h
    obtain ⟨rfl, ha⟩ := Java.cutAt_eq_some.1 hcut
    obtain ⟨l, hl, hcount⟩ := ih hgs
    refine ⟨l, by rw [List.getLast?_cons, hl]; rfl, ?_⟩
    simp only [List.count_append, List.count_cons_self, List.count_eq_zero_of_not_mem ha]
    change l.count sep + n = b.count sep at hcount
    omega

/-- **Joined fields are cut apart again** when only the last one may hold
a separator. -/
theorem cuts_intercalate (h : ∀ u ∈ (t :: ts).dropLast, sep ∉ u) :
    cuts sep ts.length ([sep].intercalate (t :: ts)) = some (t :: ts) := by
  induction ts generalizing t with
  | nil => simp [cuts]
  | cons u ts ih =>
    rw [List.dropLast_cons_cons] at h
    have ht : sep ∉ t := h t List.mem_cons_self
    have hrest : ∀ v ∈ (u :: ts).dropLast, sep ∉ v := fun v hv =>
      h v (List.mem_cons_of_mem _ hv)
    rw [intercalate_cons_cons, List.length_cons, cuts, Java.cutAt_append ht]
    simp [ih hrest]

theorem count_intercalate :
    ([sep].intercalate (t :: ts)).count sep
      = ((t :: ts).map (List.count sep)).sum + ts.length := by
  induction ts generalizing t with
  | nil => simp
  | cons u ts ih =>
    rw [intercalate_cons_cons, List.count_append, List.count_cons_self, ih]
    simp only [List.map_cons, List.sum_cons, List.length_cons]
    omega

/-- **A last field that comes back whole had no separator in front of
it**: one in an earlier field would have left one more for the last. -/
theorem not_mem_of_getLast_cuts
    (h : cuts sep ts.length ([sep].intercalate (t :: ts)) = some fs)
    (hlast : fs.getLast? = (t :: ts).getLast?) : ∀ u ∈ (t :: ts).dropLast, sep ∉ u := by
  obtain ⟨l, hl, hcount⟩ := count_getLast_of_cuts h
  rw [hl, List.getLast?_eq_some_getLast (List.cons_ne_nil t ts)] at hlast
  have hsplit := List.dropLast_append_getLast (List.cons_ne_nil t ts)
  rw [count_intercalate, ← hsplit, List.map_append, List.sum_append, Option.some.inj hlast]
    at hcount
  have hzero : ((t :: ts).dropLast.map (List.count sep)).sum = 0 := by
    simp only [List.map_cons, List.map_nil, List.sum_cons, List.sum_nil] at hcount
    omega
  intro u hu
  exact List.count_eq_zero.1 (List.sum_eq_zero_iff.1 hzero _ (List.mem_map_of_mem hu))

end Fields

end Xpod
