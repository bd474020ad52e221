import Mathlib.Data.List.Pairwise
import Mathlib.Order.Lattice
import Mathlib.Tactic
/-!
# Tables in the order of their keys

A table keeps one row for each key, in the order of the keys. A put makes
a new row or changes the row of its key; a scan gives the rows from one
key up to another, in order.
-/

namespace Xpod

/-- Rows with strictly increasing keys. -/
structure OrderedTable (κ ρ : Type*) [LinearOrder κ] where
  rows : List (κ × ρ) := []
  sorted : rows.Pairwise fun r r' => r.1 < r'.1 := by exact List.Pairwise.nil

namespace OrderedTable

variable {κ ρ π : Type*} [LinearOrder κ]

/-- The rows after a put at `k`, where `f` makes the row of the old one. -/
def putRows (k : κ) (f : Option ρ → ρ) : List (κ × ρ) → List (κ × ρ)
  | [] => [(k, f none)]
  | (k', r) :: rows =>
    if k < k' then (k, f none) :: (k', r) :: rows
    else if k = k' then (k, f (some r)) :: rows
    else (k', r) :: putRows k f rows

/-- The rows are the old ones and that of the put, made of nothing or of
the old row. -/
theorem of_mem_putRows {k : κ} {f : Option ρ → ρ} {rows : List (κ × ρ)} {r : κ × ρ}
    (h : r ∈ putRows k f rows) :
    r ∈ rows ∨ r.1 = k ∧ (r.2 = f none ∨ ∃ old, (k, old) ∈ rows ∧ r.2 = f (some old)) := by
  induction rows with
  | nil =>
    obtain rfl := List.mem_singleton.1 h
    exact Or.inr ⟨rfl, Or.inl rfl⟩
  | cons row rows ih =>
    obtain ⟨k', r'⟩ := row
    rw [putRows] at h
    split_ifs at h with hlt heq
    · rcases List.mem_cons.1 h with rfl | h
      · exact Or.inr ⟨rfl, Or.inl rfl⟩
      · exact Or.inl h
    · subst heq
      rcases List.mem_cons.1 h with rfl | h
      · exact Or.inr ⟨rfl, Or.inr ⟨r', List.mem_cons_self, rfl⟩⟩
      · exact Or.inl (List.mem_cons_of_mem _ h)
    · rcases List.mem_cons.1 h with rfl | h
      · exact Or.inl List.mem_cons_self
      · rcases ih h with h | ⟨hk, hnew | ⟨old, hold, hnew⟩⟩
        · exact Or.inl (List.mem_cons_of_mem _ h)
        · exact Or.inr ⟨hk, Or.inl hnew⟩
        · exact Or.inr ⟨hk, Or.inr ⟨old, List.mem_cons_of_mem _ hold, hnew⟩⟩

theorem mem_keys_putRows {k k' : κ} {f : Option ρ → ρ} {rows : List (κ × ρ)} :
    k' ∈ (putRows k f rows).map Prod.fst ↔ k' = k ∨ k' ∈ rows.map Prod.fst := by
  induction rows with
  | nil => simp [putRows]
  | cons row rows ih =>
    rw [putRows]
    split_ifs with hlt heq
    · simp
    · simp [heq]
    · rw [List.map_cons, List.mem_cons, ih, List.map_cons, List.mem_cons]
      tauto

theorem sorted_putRows {k : κ} {f : Option ρ → ρ} {rows : List (κ × ρ)}
    (h : rows.Pairwise fun r r' => r.1 < r'.1) :
    (putRows k f rows).Pairwise fun r r' => r.1 < r'.1 := by
  induction rows with
  | nil => exact List.pairwise_singleton _ _
  | cons row rows ih =>
    obtain ⟨hrow, hrows⟩ := List.pairwise_cons.1 h
    rw [putRows]
    split_ifs with hlt heq
    · refine List.pairwise_cons.2 ⟨fun r hr => ?_, h⟩
      rcases List.mem_cons.1 hr with rfl | hr
      · exact hlt
      · exact hlt.trans (hrow r hr)
    · subst heq
      exact List.pairwise_cons.2 ⟨hrow, hrows⟩
    · refine List.pairwise_cons.2 ⟨fun r hr => ?_, ih hrows⟩
      rcases of_mem_putRows hr with hr | ⟨hk, -⟩
      · exact hrow r hr
      · rw [hk]
        exact lt_of_le_of_ne (not_lt.1 hlt) (Ne.symm heq)

/-- A put. -/
def put (t : OrderedTable κ ρ) (k : κ) (f : Option ρ → ρ) : OrderedTable κ ρ where
  rows := putRows k f t.rows
  sorted := sorted_putRows t.sorted

/-- Puts, one after the other. -/
def putAll (f : π → Option ρ → ρ) (t : OrderedTable κ ρ) (puts : List (κ × π)) :
    OrderedTable κ ρ :=
  puts.foldl (fun t p => t.put p.1 (f p.2)) t

/-- The keys are the old ones and those of the puts. -/
theorem mem_keys_putAll {f : π → Option ρ → ρ} {t : OrderedTable κ ρ} {puts : List (κ × π)}
    {k : κ} :
    k ∈ (t.putAll f puts).rows.map Prod.fst ↔
      k ∈ puts.map Prod.fst ∨ k ∈ t.rows.map Prod.fst := by
  induction puts generalizing t with
  | nil => simp [putAll]
  | cons p puts ih =>
    have hstep : t.putAll f (p :: puts) = (t.put p.1 (f p.2)).putAll f puts := rfl
    rw [hstep, ih, put, mem_keys_putRows, List.map_cons, List.mem_cons]
    tauto

/-- **An invariant of rows**: puts that make good rows of nothing and of
good rows keep it. -/
theorem forall_putAll {P : ρ → Prop} {f : π → Option ρ → ρ} {t : OrderedTable κ ρ}
    {puts : List (κ × π)} (ht : ∀ r ∈ t.rows, P r.2)
    (hputs : ∀ p ∈ puts, P (f p.2 none) ∧ ∀ old, P old → P (f p.2 (some old))) :
    ∀ r ∈ (t.putAll f puts).rows, P r.2 := by
  induction puts generalizing t with
  | nil => exact ht
  | cons p puts ih =>
    obtain ⟨⟨hnone, hsome⟩, hputs⟩ := List.forall_mem_cons.1 hputs
    refine ih (t := t.put p.1 (f p.2)) (fun r hr => ?_) hputs
    rcases of_mem_putRows hr with hr | ⟨-, hnew | ⟨old, hold, hnew⟩⟩
    · exact ht r hr
    · rw [hnew]
      exact hnone
    · rw [hnew]
      exact hsome old (ht _ hold)

/-- The rows from `start` up to `stop`. -/
def scan (t : OrderedTable κ ρ) (start stop : κ) : List (κ × ρ) :=
  t.rows.filter fun r => start ≤ r.1 ∧ r.1 < stop

theorem mem_scan {t : OrderedTable κ ρ} {start stop : κ} {r : κ × ρ} :
    r ∈ t.scan start stop ↔ r ∈ t.rows ∧ start ≤ r.1 ∧ r.1 < stop := by
  rw [scan, List.mem_filter, decide_eq_true_eq]

theorem mem_keys_scan {t : OrderedTable κ ρ} {start stop k : κ} :
    k ∈ (t.scan start stop).map Prod.fst ↔
      k ∈ t.rows.map Prod.fst ∧ start ≤ k ∧ k < stop := by
  simp only [List.mem_map, mem_scan]
  constructor
  · rintro ⟨r, ⟨hr, hrange⟩, rfl⟩
    exact ⟨⟨r, hr, rfl⟩, hrange⟩
  · rintro ⟨⟨r, hr, rfl⟩, hrange⟩
    exact ⟨r, ⟨hr, hrange⟩, rfl⟩

theorem sorted_scan (t : OrderedTable κ ρ) (start stop : κ) :
    (t.scan start stop).Pairwise fun r r' => r.1 < r'.1 :=
  t.sorted.filter _

end OrderedTable

end Xpod
