import Xpod.LoadIp.Helpers.IpClear
/-!
# What the flattener delivers

Over every table in order, `transfer` flattens without losing or
inventing an address as long as no turn dereferences a null country, and
an address keeps the last row that contains it as long as no remainder
of another row is queued behind that row's piece.
-/

namespace Xpod

namespace LoadIp

namespace IpClear

open Sweep Location

/-- The loaded rows flatten the input: in order and disjoint, none empty,
the same addresses, each within a row whose attributes it carries, with
the texts of its own bounds. -/
structure Flattens (rows loaded : List Location) : Prop where
  order : loaded.Pairwise fun a b => a.nEndIp < b.nBeginIp
  valid : ∀ l ∈ loaded, l.Valid
  cover : ∀ x, (∃ l ∈ loaded, l.Has x) ↔ ∃ r ∈ rows, r.Has x
  source : ∀ l ∈ loaded, ∃ r ∈ rows,
    r.nBeginIp ≤ l.nBeginIp ∧ l.nEndIp ≤ r.nEndIp ∧ l.attrs = r.attrs
  named : ∀ l ∈ loaded, l.Named

section Loaded

variable {rows loaded : List Location} {ps : List Strip}

theorem CutFrom.has_iff {l : Location} {p : Strip} (h : CutFrom rows l p) {x : ℤ} :
    l.Has x ↔ p.Has x := by
  rw [Location.Has, Strip.Has, h.lo, h.hi]

/-- **The code loads what the sweep delivers**, so it flattens. -/
theorem flattens_of_result {t : State} (hi : Inv (strips rows) t) (ht : t.step = none)
    (h : List.Forall₂ (CutFrom rows) loaded t.result) (hn : ∀ r ∈ rows, r.Named) :
    Flattens rows loaded := by
  obtain ⟨hord, hval, hcut, hcov⟩ := result_of_stopped hi ht
  refine ⟨?_, fun l hl => ?_, fun x => ?_, fun l hl => ?_, fun l hl => ?_⟩
  · refine Lists.pairwise_of_forall₂ h hord fun a b p q hap hbq hpq => ?_
    rw [hap.hi, hbq.lo]
    exact hpq
  · obtain ⟨p, hp, hlp⟩ := Lists.exists_right_of_mem h hl
    rw [Location.Valid, hlp.lo, hlp.hi]
    exact hval p hp
  · refine Iff.trans (Iff.trans ?_ (hcov x)) exists_strip_has
    constructor
    · rintro ⟨l, hl, hx⟩
      obtain ⟨p, hp, hlp⟩ := Lists.exists_right_of_mem h hl
      exact ⟨p, hp, hlp.has_iff.1 hx⟩
    · rintro ⟨p, hp, hx⟩
      obtain ⟨l, hl, hlp⟩ := Lists.exists_left_of_mem h hp
      exact ⟨l, hl, hlp.has_iff.2 hx⟩
  · obtain ⟨p, hp, hlp⟩ := Lists.exists_right_of_mem h hl
    obtain ⟨q, hq, hpq⟩ := hcut p hp
    obtain ⟨r, hr, hlo, hhi⟩ := mem_strips.1 hq
    obtain ⟨r', hr', ha, -⟩ := hlp.source
    obtain rfl : r' = r := by
      rw [hpq.src, hr] at hr'
      exact (Option.some.inj hr').symm
    refine ⟨r', List.mem_of_getElem? hr, ?_, ?_, ha⟩
    · rw [hlp.lo, ← hlo]; exact hpq.lo
    · rw [hlp.hi, ← hhi]; exact hpq.hi
  · obtain ⟨p, -, hlp⟩ := Lists.exists_right_of_mem h hl
    obtain ⟨r, hr, -, hnamed⟩ := hlp.source
    exact hnamed (hn r (List.mem_of_getElem? hr))

end Loaded

/-- In a table without a null country no turn dereferences null. -/
theorem not_nullDeref {rows : List Location} (hv : ∀ r ∈ rows, r.Valid)
    (hs : rows.Pairwise fun a b => a.nBeginIp ≤ b.nBeginIp)
    (hc : ∀ r ∈ rows, r.country ≠ none) {t : State}
    (ht : Reaches (State.start (strips rows)) t) : ¬ NullDeref rows t := by
  have hsrc := sources_strips hv hs
  have hinv := inv_of_reaches (inv_start hsrc.valid hsrc.sorted) ht
  have hlive : ∀ p ∈ t.live, countryOf rows p.src ≠ none := by
    intro p hp
    obtain ⟨q, hq, hpq⟩ := hinv.cut p (Or.inl hp)
    obtain ⟨r, hr, -⟩ := mem_strips.1 hq
    rw [countryOf, hpq.src, hr]
    exact hc r (List.mem_of_getElem? hr)
  intro hbad
  obtain ⟨l, c, q, u, hl, hn, -, -, hnull | ⟨-, hnull⟩⟩ := hbad.cases
  · exact hlive l (mem_live.2 (Or.inl hl)) hnull
  · exact hlive c (mem_live.2 (Or.inr ((mem_next hn).2 (Or.inl rfl)))) hnull

/-- Row `m` is the last one, in read order, whose range contains `x`. -/
structure LastRow (rows : List Location) (x : ℤ) (m : ℕ) (r : Location) : Prop where
  get : rows[m]? = some r
  has : r.Has x
  le : ∀ i r', rows[i]? = some r' → r'.Has x → i ≤ m

/-- What is loaded for `x` carries the attributes `a`. -/
structure Carries (loaded : List Location) (x : ℤ) (a : Attrs) : Prop where
  mem : ∃ l ∈ loaded, l.Has x
  attrs : ∀ l ∈ loaded, l.Has x → l.attrs = a

/-- The loaded rows that contain `x`, by their attributes. -/
def found (s : IpClear) (x : ℤ) : List Attrs :=
  (s.loaded.filter fun l => l.Has x).map Location.attrs

theorem carries_of_found {s : IpClear} {x : ℤ} {a : Attrs} (h : s.found x = [a]) :
    Carries s.loaded x a := by
  have hall : ∀ b ∈ s.found x, b = a := by simp [h]
  simp only [found, List.mem_map, List.mem_filter, decide_eq_true_eq] at hall
  refine ⟨?_, fun l hl hx => hall _ ⟨l, ⟨hl, hx⟩, rfl⟩⟩
  have hmem : a ∈ s.found x := by simp [h]
  simp only [found, List.mem_map, List.mem_filter, decide_eq_true_eq] at hmem
  obtain ⟨l, ⟨hl, hx⟩, -⟩ := hmem
  exact ⟨l, hl, hx⟩

section LastRow

variable {rows : List Location} {x : ℤ} {m : ℕ} {r : Location}

theorem LastRow.top (h : LastRow rows x m r) : Top (strips rows) x m where
  mem := ⟨⟨r.nBeginIp, r.nEndIp, m⟩, mem_strips.2 ⟨r, h.get, rfl, rfl⟩, rfl, h.has⟩
  le := by
    intro p hp hx
    obtain ⟨r', hr', hlo, hhi⟩ := mem_strips.1 hp
    exact h.le p.src r' hr' ⟨hlo ▸ hx.1, hhi ▸ hx.2⟩

/-- The piece loaded for `x` is cut from row `m` if, and where no other row
containing `x` has the same attributes only if, it carries row `m`'s
attributes. -/
theorem carries_iff_src {s : IpClear} {t : State} (hm : LastRow rows x m r)
    (hi : Inv (strips rows) t) (hstop : t.step = none)
    (hload : List.Forall₂ (CutFrom rows) s.loaded t.result) :
    ((∀ p ∈ t.result, p.Has x → p.src = m) → Carries s.loaded x r.attrs) ∧
      ((∀ i r', rows[i]? = some r' → r'.Has x → i ≠ m → r'.attrs ≠ r.attrs) →
        Carries s.loaded x r.attrs → ∀ p ∈ t.result, p.Has x → p.src = m) := by
  obtain ⟨-, -, hcut, hcov⟩ := result_of_stopped hi hstop
  refine ⟨fun hsrc => ⟨?_, fun l hl hx => ?_⟩, fun hdiff hcar p hp hx => ?_⟩
  · obtain ⟨p, hp, hx⟩ := (hcov x).2 (exists_strip_has.2 ⟨r, List.mem_of_getElem? hm.get, hm.has⟩)
    obtain ⟨l, hl, hlp⟩ := Lists.exists_left_of_mem hload hp
    exact ⟨l, hl, hlp.has_iff.2 hx⟩
  · obtain ⟨p, hp, hlp⟩ := Lists.exists_right_of_mem hload hl
    obtain ⟨r', hr', ha, -⟩ := hlp.source
    rw [hsrc p hp (hlp.has_iff.1 hx), hm.get] at hr'
    rw [ha, Option.some.inj hr']
  · obtain ⟨l, hl, hlp⟩ := Lists.exists_left_of_mem hload hp
    obtain ⟨r', hr', ha, -⟩ := hlp.source
    obtain ⟨q, hq, hpq⟩ := hcut p hp
    obtain ⟨r'', hr'', hlo, hhi⟩ := mem_strips.1 hq
    rw [← hpq.src, hr'] at hr''
    obtain rfl := Option.some.inj hr''
    have hxq := hpq.has hx
    by_contra hne
    refine hdiff p.src r' hr' ⟨hlo ▸ hxq.1, hhi ▸ hxq.2⟩ hne ?_
    rw [← ha]
    exact hcar.attrs l hl (hlp.has_iff.2 hx)

end LastRow

/-- Three rows, the second and third inside the first and touching. -/
def nested : List Location :=
  [ofBounds 0 100 (some "A"), ofBounds 10 20 (some "B"), ofBounds 21 30 (some "C")]

end IpClear

end LoadIp

end Xpod
