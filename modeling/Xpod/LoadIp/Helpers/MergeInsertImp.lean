import Xpod.Common.Lists
import Xpod.Common.Overlay
import Xpod.LoadIp.Model.MergeInsertImp
import Mathlib.Data.List.Perm.Basic
/-!
# The merging loader lays patches

The statements `MergeInsertImp` collects are followed on the table itself.
`Tracks` splits the table into the rows behind the cursor, the row in
hand and the rows not read; rows behind the cursor end before every other
row begins, so a delete by first address hits the row in hand and nothing
else. In these terms one call of `Insert` is one `overlay` of the general
library.
-/

namespace Xpod

namespace LoadIp

/-- The attributes with null read as the empty text. -/
def Attrs.plain (a : Attrs) : Attrs :=
  ⟨some (a.country.getD ""), some (a.province.getD ""), some (a.city.getD ""), some (a.isp.getD "")⟩

/-- The attributes of a row, read so. -/
def Location.plain (l : Location) : Attrs := l.attrs.plain

namespace MergeInsertImp

open Overlay

/-- What a lookup of `x` finds in the rows. -/
def view (rows : List Location) (x : ℤ) : Multiset Attrs :=
  ((rows.filter fun l => l.Has x).map Location.plain : List Attrs)

/-- An incoming row as a patch. -/
def patch (m : Location) : Patch Attrs := ⟨m.nBeginIp, m.nEndIp, m.plain⟩

section View

variable {rows rows' : List Location} {l : Location} {x : ℤ}

@[simp] theorem view_nil : view [] x = 0 := rfl

theorem view_cons : view (l :: rows) x = (if l.Has x then {l.plain} else 0) + view rows x := by
  unfold view
  by_cases h : l.Has x
  · rw [List.filter_cons_of_pos (by simpa using h), if_pos h]
    rfl
  · rw [List.filter_cons_of_neg (by simpa using h), if_neg h, zero_add]

@[simp] theorem view_append : view (rows ++ rows') x = view rows x + view rows' x := by
  simp [view]

theorem view_perm (h : rows.Perm rows') : view rows x = view rows' x :=
  Multiset.coe_eq_coe.2 ((h.filter _).map _)

/-- Nothing is found where no row contains the address. -/
theorem view_eq_zero : view rows x = 0 ↔ ∀ l ∈ rows, ¬ l.Has x := by
  simp only [view, Multiset.coe_eq_zero, List.map_eq_nil_iff, List.filter_eq_nil_iff,
    decide_eq_true_eq]

/-- Rows that begin later are not found. -/
theorem view_of_lt (h : ∀ l ∈ rows, x < l.nBeginIp) : view rows x = 0 :=
  view_eq_zero.2 fun l hl hx => not_lt.2 hx.1 (h l hl)

/-- **Disjoint rows are a single-valued table**, and conversely. -/
theorem pairwise_disjoint_iff (hv : ∀ l ∈ rows, l.Valid) :
    rows.Pairwise Location.Disjoint ↔ ∀ x, (view rows x).card ≤ 1 := by
  induction rows with
  | nil => simp
  | cons l rows ih =>
    have hl := hv l List.mem_cons_self
    have hrest := fun r hr => hv r (List.mem_cons_of_mem l hr)
    rw [List.pairwise_cons, ih hrest]
    constructor
    · rintro ⟨hdis, hone⟩ x
      rw [view_cons, Multiset.card_add]
      by_cases hx : l.Has x
      · have hzero : view rows x = 0 := by
          refine view_eq_zero.2 ?_
          rintro r hr ⟨h1, h2⟩
          have h3 := hx.1
          have h4 := hx.2
          rcases hdis r hr with h | h <;> omega
        simp [hx, hzero]
      · simpa [hx] using hone x
    · intro h
      simp only [view_cons, Multiset.card_add] at h
      refine ⟨fun r hr => ?_, fun x => (Nat.le_add_left _ _).trans (h x)⟩
      have hrv := hrest r hr
      by_contra hno
      simp only [Location.Disjoint, not_or, not_lt] at hno
      simp only [Location.Valid] at hl hrv
      have hlx : l.Has (max l.nBeginIp r.nBeginIp) := ⟨le_max_left _ _, by omega⟩
      have hrx : r.Has (max l.nBeginIp r.nBeginIp) := ⟨le_max_right _ _, by omega⟩
      have hone := h (max l.nBeginIp r.nBeginIp)
      have hpos : 0 < (view rows (max l.nBeginIp r.nBeginIp)).card := by
        simp only [view, Multiset.coe_card, List.length_map]
        exact List.length_pos_of_mem (List.mem_filter.2 ⟨hr, by simpa using hrx⟩)
      rw [if_pos hlx, Multiset.card_singleton] at hone
      omega

end View

/-- Same range, same attributes. -/
structure Same (a b : Location) : Prop where
  nBeginIp : a.nBeginIp = b.nBeginIp
  nEndIp : a.nEndIp = b.nEndIp
  plain : a.plain = b.plain

theorem Same.has_iff {a b : Location} (h : Same a b) (x : ℤ) : a.Has x ↔ b.Has x := by
  rw [Location.Has, Location.Has, h.nBeginIp, h.nEndIp]

theorem view_same {rows rows' : List Location} (h : List.Forall₂ Same rows rows') (x : ℤ) :
    view rows x = view rows' x := by
  induction h with
  | nil => rfl
  | cons hab _ ih =>
    rw [view_cons, view_cons, ih, hab.plain]
    simp only [hab.has_iff]

theorem same_stored (ip : Location) : Same (stored ip) ip := ⟨rfl, rfl, rfl⟩

/-- The rows that still give way: the one in hand and those not read. -/
def ahead (s : MergeInsertImp) : List Location := s.current.toList ++ s.rs

/-- The table the statements so far produce. -/
def table (T : List Location) (s : MergeInsertImp) : List Location :=
  Statement.execAll T s.sqlStringList

/-- **Where the table stands.** Its rows are those behind the cursor (`A`),
the stored form of the row in hand (`C`) and the rows not read. -/
structure Tracks (T : List Location) (s : MergeInsertImp) (A C : List Location) : Prop where
  perm : (table T s).Perm (A ++ C ++ s.rs)
  same : List.Forall₂ Same C s.current.toList
  /-- A row that was not there before is one an insert stored. -/
  origin : ∀ r ∈ table T s, r ∈ T ∨ ∃ ip, r = stored ip
  /-- Rows behind the cursor end before the others begin. -/
  apart : ∀ a ∈ A, ∀ l ∈ s.ahead, a.nEndIp < l.nBeginIp
  order : s.ahead.Pairwise fun a b => a.nEndIp < b.nBeginIp
  valid : ∀ l ∈ A ++ s.ahead, l.Valid
  /-- What the code dereferences is not null. -/
  filled : ∀ l ∈ s.ahead, l.country ≠ none ∧ l.beginIp ≠ none
  /-- The branch for a wrong address was not taken. -/
  clean : s.errors = []

/-- The table as layers over the cursor. -/
def layers (A H : List Location) : Layers Attrs := ⟨view A, view H⟩

theorem Tracks.total {T A C : List Location} {s : MergeInsertImp} (h : Tracks T s A C) (x : ℤ) :
    (layers A s.ahead).total x = view (table T s) x := by
  simp only [view_perm h.perm, Layers.total, layers, ahead, view_append, view_same h.same,
    add_assoc]

/-! ## Single statements -/

section Statements

variable (T : List Location) (s : MergeInsertImp) (ip : Location)

@[simp] theorem table_insert : table T (s.insert ip) = table T s ++ [stored ip] := by
  simp [table, insert, Statement.execAll, Statement.exec]

@[simp] theorem table_delete :
    table T (s.delete ip) = (table T s).filter fun r => r.nBeginIp ≠ ip.nBeginIp := by
  simp [table, delete, Statement.execAll, Statement.exec]

end Statements

/-- The table without the row in hand `c`, which is about to be written
again in pieces. -/
structure Cleared (T : List Location) (s : MergeInsertImp) (A : List Location) (c : Location) :
    Prop where
  perm : (table T s).Perm (A ++ s.rs)
  origin : ∀ r ∈ table T s, r ∈ T ∨ ∃ ip, r = stored ip
  apart : ∀ a ∈ A, ∀ l ∈ c :: s.rs, a.nEndIp < l.nBeginIp
  order : (c :: s.rs).Pairwise fun a b => a.nEndIp < b.nBeginIp
  valid : ∀ l ∈ A ++ c :: s.rs, l.Valid
  filled : ∀ l ∈ c :: s.rs, l.country ≠ none ∧ l.beginIp ≠ none
  clean : s.errors = []

section Hand

variable {T A C : List Location} {s : MergeInsertImp} {c : Location}

theorem ahead_of_current (hc : s.current = some c) : s.ahead = c :: s.rs := by
  rw [ahead, hc]
  rfl

/-- The row in hand is stored once. -/
theorem Tracks.hand (h : Tracks T s A C) (hc : s.current = some c) :
    ∃ c', C = [c'] ∧ Same c' c := by
  have hsame := h.same
  rw [hc] at hsame
  obtain ⟨c', C', hc', hnil, rfl⟩ := List.forall₂_cons_right_iff.1 hsame
  obtain rfl := List.forall₂_nil_right_iff.1 hnil
  exact ⟨c', rfl, hc'⟩

/-- **A delete by first address hits the row in hand and nothing else.** -/
theorem Tracks.delete (h : Tracks T s A C) (hc : s.current = some c) :
    Cleared T (s.delete c) A c := by
  have hahead := ahead_of_current hc
  obtain ⟨c', rfl, hc'⟩ := h.hand hc
  have hcv := h.valid c (by simp [hahead])
  have hA : A.filter (fun r => r.nBeginIp ≠ c.nBeginIp) = A := by
    refine List.filter_eq_self.2 fun a ha => ?_
    have h1 := h.apart a ha c (by simp [hahead])
    have h2 := h.valid a (by simp [ha])
    simp only [Location.Valid] at h2
    simp only [ne_eq, decide_not, Bool.not_eq_true', decide_eq_false_iff_not]
    omega
  have hrs : s.rs.filter (fun r => r.nBeginIp ≠ c.nBeginIp) = s.rs := by
    refine List.filter_eq_self.2 fun r hr => ?_
    have h1 := h.order
    rw [hahead, List.pairwise_cons] at h1
    have h2 := h1.1 r hr
    simp only [Location.Valid] at hcv
    simp only [ne_eq, decide_not, Bool.not_eq_true', decide_eq_false_iff_not]
    omega
  refine ⟨?_, ?_, hahead ▸ h.apart, hahead ▸ h.order, hahead ▸ h.valid, hahead ▸ h.filled, h.clean⟩
  · rw [table_delete]
    refine (h.perm.filter _).trans ?_
    rw [List.filter_append, List.filter_append, hA, hrs]
    simp [hc'.nBeginIp, MergeInsertImp.delete]
  · intro r hr
    rw [table_delete] at hr
    exact h.origin r (List.mem_of_mem_filter hr)

/-- **The row in hand is written again in pieces.** `F` goes behind the
cursor, up to `k`; what stays in hand begins behind `k`. -/
theorem Cleared.settle {s' : MergeInsertImp} {F R : List Location} {k : ℤ}
    (h : Cleared T s A c) (hrs : s'.rs = s.rs) (herr : s'.errors = s.errors)
    (htable : table T s' = table T s ++ F ++ R) (hsame : List.Forall₂ Same R s'.current.toList)
    (hstored : ∀ f ∈ F ++ R, ∃ ip, f = stored ip) (hk : k ≤ c.nEndIp)
    (hF : ∀ f ∈ F, f.Valid ∧ f.nEndIp ≤ k)
    (hR : ∀ r, s'.current = some r → r.Valid ∧ k < r.nBeginIp ∧ c.nBeginIp ≤ r.nBeginIp ∧
      r.nEndIp = c.nEndIp ∧ r.country ≠ none ∧ r.beginIp ≠ none) :
    Tracks T s' (A ++ F) R := by
  have horder := List.pairwise_cons.1 h.order
  have hmem : ∀ l, l ∈ s'.ahead ↔ s'.current = some l ∨ l ∈ s.rs := by
    intro l
    simp [ahead, hrs]
  refine ⟨?_, hsame, ?_, ?_, ?_, ?_, ?_, herr.trans h.clean⟩
  · rw [htable, hrs]
    have h1 : (table T s ++ F ++ R).Perm (A ++ s.rs ++ F ++ R) :=
      (h.perm.append_right F).append_right R
    refine h1.trans ?_
    rw [List.append_assoc, List.append_assoc, List.append_assoc, List.append_assoc]
    refine List.Perm.append_left A ?_
    rw [← List.append_assoc F R]
    exact List.perm_append_comm
  · intro r hr
    rw [htable, List.append_assoc] at hr
    rcases List.mem_append.1 hr with hr | hr
    · exact h.origin r hr
    · exact Or.inr (hstored r hr)
  · -- `k` separates what goes behind the cursor from what stays ahead
    intro a ha l hl
    rcases List.mem_append.1 ha with ha | ha <;> rcases (hmem l).1 hl with hl | hl
    · have h1 := h.apart a ha c List.mem_cons_self
      have h2 := (hR l hl).2.2.1
      omega
    · exact h.apart a ha l (List.mem_cons_of_mem _ hl)
    · have h1 := (hF a ha).2
      have h2 := (hR l hl).2.1
      omega
    · have h1 := (hF a ha).2
      have h2 := horder.1 l hl
      omega
  · rw [ahead, hrs]
    rcases hcur : s'.current with - | r
    · exact horder.2
    · refine List.pairwise_cons.2 ⟨fun l hl => ?_, horder.2⟩
      rw [(hR r hcur).2.2.2.1]
      exact horder.1 l hl
  · intro l hl
    rcases List.mem_append.1 hl with hl | hl
    · rcases List.mem_append.1 hl with hl | hl
      · exact h.valid l (List.mem_append_left _ hl)
      · exact (hF l hl).1
    · rcases (hmem l).1 hl with hl | hl
      · exact (hR l hl).1
      · exact h.valid l (by simp [hl])
  · intro l hl
    rcases (hmem l).1 hl with hl | hl
    · exact (hR l hl).2.2.2.2
    · exact h.filled l (List.mem_cons_of_mem _ hl)

end Hand

/-! ## One round -/

/-- **Writing pieces is laying a patch**, when in front of the incoming row
the pieces are what was there, in it they are the row, behind it they are
nothing, and what stays ahead is what was ahead behind the row. -/
theorem layers_eq_overlay {A F H H' : List Location} {p : Patch Attrs} (hp : p.lo ≤ p.hi)
    (hlt : ∀ x, x < p.lo → view F x = view H x ∧ view H' x = 0)
    (hhas : ∀ x, p.Has x → view F x = {p.val} ∧ view H' x = 0)
    (hgt : ∀ x, p.hi < x → view F x = 0 ∧ view H' x = view H x) :
    layers (A ++ F) H' = (layers A H).overlay p := by
  have hpt : ∀ x, view (A ++ F) x = ((layers A H).overlay p).settled x ∧
      view H' x = ((layers A H).overlay p).ahead x := by
    intro x
    rw [view_append]
    rcases lt_or_ge x p.lo with h1 | h1
    · rw [(Layers.overlay_of_lt h1 hp).1, (Layers.overlay_of_lt h1 hp).2, (hlt x h1).1]
      exact ⟨rfl, (hlt x h1).2⟩
    · rcases le_or_gt x p.hi with h2 | h2
      · have hx : p.Has x := ⟨h1, h2⟩
        rw [(Layers.overlay_of_has hx).1, (Layers.overlay_of_has hx).2, (hhas x hx).1]
        exact ⟨rfl, (hhas x hx).2⟩
      · rw [(Layers.overlay_of_gt h2 hp).1, (Layers.overlay_of_gt h2 hp).2, (hgt x h2).1, add_zero]
        exact ⟨rfl, (hgt x h2).2⟩
  ext1
  · exact funext fun x => (hpt x).1
  · exact funext fun x => (hpt x).2

/-- What a round leaves of the incoming row `m`: nothing, and then the patch
is laid; or a rest, and then laying the rest lays the patch. `H` are the
rows that were ahead. -/
def Laid (T A H : List Location) (m : Location) (s' : MergeInsertImp) : Option Location → Prop
  | none => ∃ A' C', Tracks T s' A' C' ∧ s'.ahead.length ≤ H.length ∧
      layers A' s'.ahead = (layers A H).overlay (patch m)
  | some m' => ∃ A', Tracks T s' A' [] ∧ s'.current = none ∧ s'.ahead = H.tail ∧ m'.Valid ∧
      (layers A' s'.ahead).overlay (patch m') = (layers A H).overlay (patch m)

section Overlap

variable {T A : List Location} {s : MergeInsertImp} {c m : Location}

theorem view_singleton_of_has {l : Location} {x : ℤ} (h : l.nBeginIp ≤ x ∧ x ≤ l.nEndIp) :
    view [l] x = {l.plain} := by
  rw [view_cons, if_pos (show l.Has x from h), view_nil, add_zero]

theorem view_singleton_of_not_has {l : Location} {x : ℤ} (h : x < l.nBeginIp ∨ l.nEndIp < x) :
    view [l] x = 0 := by
  rw [view_cons, if_neg (fun hx : l.Has x => by have := hx.1; have := hx.2; omega), view_nil,
    add_zero]

theorem view_stored (l : Location) (x : ℤ) : view [stored l] x = view [l] x :=
  view_same (List.Forall₂.cons (same_stored l) List.Forall₂.nil) x

/-- The rows not read are behind the row in hand. -/
theorem Cleared.view_rs (h : Cleared T s A c) {x : ℤ} (hx : x ≤ c.nEndIp) : view s.rs x = 0 :=
  view_of_lt fun l hl => by
    have := (List.pairwise_cons.1 h.order).1 l hl
    omega

theorem Cleared.view_cons_of_lt (h : Cleared T s A c) {x : ℤ} (hx : x < c.nBeginIp) :
    view (c :: s.rs) x = 0 := by
  have hcv := h.valid c (by simp)
  simp only [Location.Valid] at hcv
  rw [view_cons, if_neg (fun hc : c.Has x => by have := hc.1; omega),
    h.view_rs (by omega), add_zero]

theorem Cleared.view_cons_of_gt {x : ℤ} (hx : c.nEndIp < x) :
    view (c :: s.rs) x = view s.rs x := by
  rw [view_cons, if_neg (fun hc : c.Has x => by have := hc.2; omega), zero_add]

/-- The incoming row covers the row in hand. -/
theorem laid_cover (h : Cleared T s A c) (h1 : c.nEndIp ≤ m.nEndIp)
    (h2 : m.nBeginIp ≤ c.nBeginIp) :
    Laid T A (c :: s.rs) m { s.insert (endAt m c.nEndIp) with current := none }
      (if m.nEndIp ≠ c.nEndIp then some (beginAt m (c.nEndIp + 1)) else none) := by
  have hcv := h.valid c (by simp)
  simp only [Location.Valid] at hcv
  have htracks : Tracks T { s.insert (endAt m c.nEndIp) with current := none }
      (A ++ [stored (endAt m c.nEndIp)]) [] := by
    refine h.settle (k := c.nEndIp) rfl rfl ?_ List.Forall₂.nil (by simp) le_rfl ?_ (by simp)
    · rw [List.append_nil]
      exact table_insert T s (endAt m c.nEndIp)
    · intro f hf
      obtain rfl := List.mem_singleton.1 hf
      exact ⟨h2.trans hcv, le_rfl⟩
  have hlay : layers (A ++ [stored (endAt m c.nEndIp)]) s.rs =
      (layers A (c :: s.rs)).overlay ⟨m.nBeginIp, c.nEndIp, m.plain⟩ := by
    refine layers_eq_overlay (h2.trans hcv) (fun x hx => ?_) (fun x hx => ?_) fun x hx => ?_
    · rw [h.view_cons_of_lt (by simp only at hx; omega), h.view_rs (by simp only at hx; omega)]
      exact ⟨view_singleton_of_not_has (Or.inl hx), rfl⟩
    · exact ⟨view_singleton_of_has hx, h.view_rs hx.2⟩
    · exact ⟨view_singleton_of_not_has (Or.inr hx), (Cleared.view_cons_of_gt hx).symm⟩
  split
  · next hne =>
    refine ⟨_, htracks, rfl, rfl, ?_, ?_⟩
    · simp only [Location.Valid, beginAt, Location.copy_nEndIp]
      omega
    · change (layers _ s.rs).overlay ⟨c.nEndIp + 1, m.nEndIp, m.plain⟩ = _
      rw [hlay]
      exact Layers.overlay_split (by omega) (by omega)
  · next heq =>
    have heq' : m.nEndIp = c.nEndIp := not_not.1 heq
    refine ⟨_, _, htracks, Nat.le_succ _, ?_⟩
    change layers _ s.rs = _
    rw [hlay, patch, heq']

/-- The incoming row ends within the row in hand: the pieces `F` are
written, and what is left of the row in hand stays in hand. -/
theorem laid_within {s' : MergeInsertImp} {F R : List Location} (h : Cleared T s A c)
    (hm : m.Valid) (hrs : s'.rs = s.rs) (herr : s'.errors = s.errors)
    (htable : table T s' = table T s ++ F ++ R) (h1 : m.nEndIp ≤ c.nEndIp)
    (h2 : c.nBeginIp ≤ m.nEndIp)
    (hcur : (c.nEndIp = m.nEndIp ∧ s'.current = none ∧ R = []) ∨
      (m.nEndIp < c.nEndIp ∧ s'.current = some (named (shrink c (m.nEndIp + 1))) ∧
        R = [stored (shrink c (m.nEndIp + 1))]))
    (hstored : ∀ f ∈ F, ∃ ip, f = stored ip) (hF : ∀ f ∈ F, f.Valid ∧ f.nEndIp ≤ m.nEndIp)
    (hlt : ∀ x, x < m.nBeginIp → view F x = view (c :: s.rs) x)
    (hhas : ∀ x, m.Has x → view F x = {m.plain}) (hgt : ∀ x, m.nEndIp < x → view F x = 0) :
    Laid T A (c :: s.rs) m s' none := by
  simp only [Location.Valid] at hm
  have hfill := h.filled c List.mem_cons_self
  refine ⟨A ++ F, R, h.settle (k := m.nEndIp) hrs herr htable ?_ ?_ h1 hF ?_, ?_, ?_⟩
  · rcases hcur with ⟨-, hc, rfl⟩ | ⟨-, hc, rfl⟩
    · rw [hc]; exact List.Forall₂.nil
    · rw [hc]; exact List.Forall₂.cons ⟨rfl, rfl, rfl⟩ List.Forall₂.nil
  · intro f hf
    rcases List.mem_append.1 hf with hf | hf
    · exact hstored f hf
    · rcases hcur with ⟨-, -, rfl⟩ | ⟨-, -, rfl⟩
      · simp at hf
      · exact ⟨_, List.mem_singleton.1 hf⟩
  · intro r hr
    rcases hcur with ⟨-, hc, -⟩ | ⟨hlt', hc, -⟩
    · rw [hc] at hr; simp at hr
    · rw [hc] at hr
      obtain rfl := Option.some.inj hr
      simp only [named, shrink, Location.Valid]
      exact ⟨by omega, by omega, by omega, trivial, hfill.1, by simp⟩
  · rw [ahead, hrs]
    rcases s'.current with - | r <;> simp
  · have hview : ∀ x, (x ≤ m.nEndIp → view s'.ahead x = 0) ∧
        (m.nEndIp < x → view s'.ahead x = view (c :: s.rs) x) := by
      intro x
      rcases hcur with ⟨heq, hc, -⟩ | ⟨hlt', hc, -⟩
      · rw [ahead, hc, hrs]
        refine ⟨fun hx => h.view_rs (by omega), fun hx => ?_⟩
        exact (Cleared.view_cons_of_gt (by omega)).symm
      · rw [ahead, hc, hrs]
        simp only [Option.toList_some, List.singleton_append]
        refine ⟨fun hx => ?_, fun hx => ?_⟩
        · have hnot : ¬ (named (shrink c (m.nEndIp + 1))).Has x := by
            simp only [Location.Has, named, shrink]
            omega
          rw [view_cons, if_neg hnot, h.view_rs (by omega), add_zero]
        · rw [view_cons, view_cons]
          have hiff : (named (shrink c (m.nEndIp + 1))).Has x ↔ c.Has x := by
            simp only [Location.Has, named, shrink]
            omega
          simp only [hiff]
          rfl
    refine layers_eq_overlay hm (fun x hx => ⟨hlt x hx, (hview x).1 ?_⟩)
      (fun x hx => ⟨hhas x hx, (hview x).1 hx.2⟩) fun x hx => ⟨hgt x hx, (hview x).2 hx⟩
    simp only [patch] at hx
    omega

/-- The piece of the row in hand in front of the incoming row. -/
def frontOf (c m : Location) : List Location :=
  if c.nBeginIp ≠ m.nBeginIp then [stored (endAt c (m.nBeginIp - 1))] else []

theorem mem_frontOf {f : Location} (hf : f ∈ frontOf c m) :
    c.nBeginIp ≠ m.nBeginIp ∧ f = stored (endAt c (m.nBeginIp - 1)) := by
  unfold frontOf at hf
  split at hf
  · next hne => exact ⟨hne, List.mem_singleton.1 hf⟩
  · simp at hf

/-- The front piece shows what the row in hand shows in front of the
incoming row, and nothing behind. -/
theorem view_frontOf (h : Cleared T s A c) (h1 : m.nBeginIp ≤ c.nEndIp) (x : ℤ) :
    (x < m.nBeginIp → view (frontOf c m) x = view (c :: s.rs) x) ∧
      (m.nBeginIp ≤ x → view (frontOf c m) x = 0) := by
  unfold frontOf
  split
  · refine ⟨fun hx => ?_, fun hx => view_singleton_of_not_has (Or.inr ?_)⟩
    · rw [view_cons, view_cons, view_nil, h.view_rs (by omega)]
      have hiff : (stored (endAt c (m.nBeginIp - 1))).Has x ↔ c.Has x := by
        simp only [Location.Has, stored, endAt, Location.copy_nBeginIp]
        omega
      simp only [hiff]
      rfl
    · simp only [stored, endAt]
      omega
  · exact ⟨fun hx => (h.view_cons_of_lt (by omega)).symm, fun _ => rfl⟩

/-- The row in hand covers the incoming row. -/
theorem laid_inside (h : Cleared T s A c) (hm : m.Valid) (h1 : m.nEndIp ≤ c.nEndIp)
    (h2 : c.nBeginIp ≤ m.nBeginIp) (s₁ : MergeInsertImp) (hrs : s₁.rs = s.rs)
    (herr : s₁.errors = s.errors)
    (htable : table T s₁ = table T s ++ (frontOf c m ++ [stored m])) :
    Laid T A (c :: s.rs) m
      (if c.nEndIp ≠ m.nEndIp then
        { s₁.insert (shrink c (m.nEndIp + 1)) with
          current := some (named (shrink c (m.nEndIp + 1))) }
      else { s₁ with current := none }) none := by
  have hmv := hm
  simp only [Location.Valid] at hmv
  have hfront := view_frontOf (m := m) h (by omega)
  have hF : ∀ f ∈ frontOf c m ++ [stored m], f.Valid ∧ f.nEndIp ≤ m.nEndIp := by
    intro f hf
    rcases List.mem_append.1 hf with hf | hf
    · obtain ⟨hne, rfl⟩ := mem_frontOf hf
      simp only [Location.Valid, stored, endAt, Location.copy_nBeginIp]
      omega
    · obtain rfl := List.mem_singleton.1 hf
      exact ⟨hm, le_rfl⟩
  have hstored : ∀ f ∈ frontOf c m ++ [stored m], ∃ ip, f = stored ip := by
    intro f hf
    rcases List.mem_append.1 hf with hf | hf
    · exact ⟨_, (mem_frontOf hf).2⟩
    · exact ⟨_, List.mem_singleton.1 hf⟩
  have hlt : ∀ x, x < m.nBeginIp →
      view (frontOf c m ++ [stored m]) x = view (c :: s.rs) x := fun x hx => by
    rw [view_append, (hfront x).1 hx, view_stored, view_singleton_of_not_has (Or.inl hx), add_zero]
  have hhas : ∀ x, m.Has x → view (frontOf c m ++ [stored m]) x = {m.plain} := fun x hx => by
    rw [view_append, (hfront x).2 hx.1, view_stored, view_singleton_of_has hx, zero_add]
  have hgt : ∀ x, m.nEndIp < x → view (frontOf c m ++ [stored m]) x = 0 := fun x hx => by
    rw [view_append, (hfront x).2 (by omega), view_stored, view_singleton_of_not_has (Or.inr hx),
      add_zero]
  split
  · next hne =>
    refine laid_within h hm hrs herr ?_ h1 (by omega)
      (Or.inr ⟨by omega, rfl, rfl⟩) hstored hF hlt hhas hgt
    change table T (s₁.insert _) = _
    rw [table_insert, htable]
  · next heq =>
    refine laid_within h hm hrs herr ?_ h1 (by omega)
      (Or.inl ⟨not_not.1 heq, rfl, rfl⟩) hstored hF hlt hhas hgt
    rw [List.append_nil]
    exact htable

/-- The incoming row begins in front of the row in hand and ends within it. -/
theorem laid_front (h : Cleared T s A c) (hm : m.Valid) (h1 : m.nBeginIp < c.nBeginIp)
    (h2 : m.nEndIp < c.nEndIp) (h3 : c.nBeginIp ≤ m.nEndIp) :
    Laid T A (c :: s.rs) m
      { (s.insert m).insert (shrink c (m.nEndIp + 1)) with
        current := some (named (shrink c (m.nEndIp + 1))) } none := by
  refine laid_within (F := [stored m]) h hm rfl rfl ?_ h2.le h3 (Or.inr ⟨h2, rfl, rfl⟩)
    (fun f hf => ⟨m, List.mem_singleton.1 hf⟩) ?_ (fun x hx => ?_) (fun x hx => ?_) fun x hx => ?_
  · change table T ((s.insert m).insert _) = _
    rw [table_insert, table_insert]
  · intro f hf
    obtain rfl := List.mem_singleton.1 hf
    exact ⟨hm, le_rfl⟩
  · rw [h.view_cons_of_lt (by omega), view_stored]
    exact view_singleton_of_not_has (Or.inl hx)
  · rw [view_stored]
    exact view_singleton_of_has hx
  · rw [view_stored]
    exact view_singleton_of_not_has (Or.inr hx)

/-- The incoming row begins within the row in hand and ends behind it: only
the front of the row in hand is written, and the whole incoming row is
left. -/
theorem laid_behind (h : Cleared T s A c) (hm : m.Valid) (h1 : c.nEndIp < m.nEndIp)
    (h2 : c.nBeginIp < m.nBeginIp) (h3 : m.nBeginIp ≤ c.nEndIp) {f : Location}
    (hf : Same f (endAt c (m.nBeginIp - 1))) :
    Laid T A (c :: s.rs) m { s.insert f with current := none } (some m) := by
  have htracks : Tracks T { s.insert f with current := none } (A ++ [stored f]) [] := by
    refine h.settle (k := m.nBeginIp - 1) rfl rfl ?_ List.Forall₂.nil (by simp) (by omega) ?_
      (by simp)
    · rw [List.append_nil]
      exact table_insert T s f
    · intro g hg
      obtain rfl := List.mem_singleton.1 hg
      have hb := hf.nBeginIp
      have he := hf.nEndIp
      simp only [endAt, Location.copy_nBeginIp] at hb he
      simp only [Location.Valid, stored]
      omega
  refine ⟨_, htracks, rfl, rfl, hm, ?_⟩
  have hview : ∀ x, view [stored f] x = view [endAt c (m.nBeginIp - 1)] x := fun x =>
    (view_stored f x).trans (view_same (List.Forall₂.cons hf List.Forall₂.nil) x)
  simp only [Location.Valid] at hm
  have hpiece : ∀ x, m.nBeginIp ≤ x → view [endAt c (m.nBeginIp - 1)] x = 0 := fun x hx =>
    view_singleton_of_not_has (Or.inr (by simp only [endAt]; omega))
  refine Layers.overlay_congr hm (fun x hx => ?_) (fun x hx => ?_) fun x hx => ?_
  · change view (A ++ [stored f]) x + view s.rs x = view A x + view (c :: s.rs) x
    rw [view_append, hview, add_assoc, view_cons, view_cons, view_nil, add_zero]
    have hiff : (endAt c (m.nBeginIp - 1)).Has x ↔ c.Has x := by
      simp only [patch] at hx
      simp only [Location.Has, endAt, Location.copy_nBeginIp]
      omega
    simp only [hiff]
    rfl
  · change view (A ++ [stored f]) x = view A x
    rw [view_append, hview, hpiece x hx.1, add_zero]
  · change view (A ++ [stored f]) x = view A x ∧ view s.rs x = view (c :: s.rs) x
    simp only [patch] at hx
    rw [view_append, hview, hpiece x (by omega), add_zero, Cleared.view_cons_of_gt (by omega)]
    exact ⟨rfl, rfl⟩

/-- **Every overlap has one of the four shapes**, and each lays the patch;
the branch for a wrong address is not taken. -/
theorem overlap_laid (h : Cleared T s A c) (hm : m.Valid) (h1 : c.nBeginIp ≤ m.nEndIp)
    (h2 : m.nBeginIp ≤ c.nEndIp) :
    Laid T A (c :: s.rs) m (s.overlap c m).1 (s.overlap c m).2 := by
  unfold overlap
  by_cases hcover : m.nEndIp ≥ c.nEndIp ∧ m.nBeginIp ≤ c.nBeginIp
  · rw [if_pos hcover]
    exact laid_cover h hcover.1 hcover.2
  rw [if_neg hcover]
  by_cases hinside : m.nEndIp ≤ c.nEndIp ∧ m.nBeginIp ≥ c.nBeginIp
  · rw [if_pos hinside]
    have hlaid := laid_inside h hm hinside.1 hinside.2
      ((if c.nBeginIp ≠ m.nBeginIp then s.insert (endAt c (m.nBeginIp - 1)) else s).insert m)
      (by split <;> rfl) (by split <;> rfl) (by
        rw [table_insert, frontOf]
        split
        · rw [table_insert, List.append_assoc]
        · rfl)
    split at hlaid
    · next hne => simpa only [if_pos hne] using hlaid
    · next heq => simpa only [if_neg heq] using hlaid
  rw [if_neg hinside]
  by_cases hfront : m.nBeginIp < c.nBeginIp ∧ m.nEndIp < c.nEndIp ∧ m.nEndIp ≥ c.nBeginIp
  · rw [if_pos hfront]
    exact laid_front h hm hfront.1 hfront.2.1 hfront.2.2
  rw [if_neg hfront]
  have hbehind : m.nEndIp > c.nEndIp ∧ m.nBeginIp > c.nBeginIp ∧ m.nBeginIp ≤ c.nEndIp := by
    omega
  rw [if_pos hbehind]
  exact laid_behind h hm hbehind.1 hbehind.2.1 hbehind.2.2 ⟨rfl, rfl, rfl⟩

/-- `merge` deletes the row in hand and writes the pieces. -/
theorem merge_laid {C : List Location} (h : Tracks T s A C) (hc : s.current = some c)
    (hm : m.Valid) (h1 : c.nBeginIp ≤ m.nEndIp) (h2 : m.nBeginIp ≤ c.nEndIp) :
    ∃ s' rest, s.merge c m = .ok (s', rest) ∧ Laid T A s.ahead m s' rest := by
  have hcl := h.delete hc
  obtain ⟨country, hcountry⟩ := Option.ne_none_iff_exists'.1 (hcl.filled c List.mem_cons_self).1
  rw [ahead_of_current hc]
  simp only [merge, hcountry, Java.equals_some, Java.ok_bind]
  split
  · have hcl' : Cleared T { s.delete c with
        outTxt := (s.delete c).outTxt ++ [overlayLine c m] } A c :=
      ⟨hcl.perm, hcl.origin, hcl.apart, hcl.order, hcl.valid, hcl.filled, hcl.clean⟩
    exact ⟨_, _, rfl, overlap_laid hcl' hm h1 h2⟩
  · exact ⟨_, _, rfl, overlap_laid hcl hm h1 h2⟩

/-- The incoming row lies in front of everything ahead. -/
theorem Tracks.insert_before {C : List Location} (h : Tracks T s A C) (hm : m.Valid)
    (hlt : ∀ l ∈ s.ahead, m.nEndIp < l.nBeginIp) :
    Laid T A s.ahead m (s.insert m) none := by
  refine ⟨A ++ [stored m], C, ⟨?_, h.same, ?_, ?_, h.order, ?_, h.filled, h.clean⟩, le_rfl, ?_⟩
  · rw [table_insert]
    refine (h.perm.append_right _).trans ?_
    simp only [insert, List.append_assoc]
    refine List.Perm.append_left A ?_
    rw [← List.append_assoc]
    exact List.perm_append_comm
  · intro r hr
    rw [table_insert] at hr
    rcases List.mem_append.1 hr with hr | hr
    · exact h.origin r hr
    · exact Or.inr ⟨m, List.mem_singleton.1 hr⟩
  · intro a ha l hl
    rcases List.mem_append.1 ha with ha | ha
    · exact h.apart a ha l hl
    · obtain rfl := List.mem_singleton.1 ha
      exact hlt l hl
  · intro l hl
    rcases List.mem_append.1 hl with hl | hl
    · rcases List.mem_append.1 hl with hl | hl
      · exact h.valid l (List.mem_append_left _ hl)
      · obtain rfl := List.mem_singleton.1 hl
        exact hm
    · exact h.valid l (List.mem_append_right _ hl)
  · change layers (A ++ [stored m]) s.ahead = _
    simp only [Location.Valid] at hm
    have hzero : ∀ x, x ≤ m.nEndIp → view s.ahead x = 0 := fun x hx =>
      view_of_lt fun l hl => by have := hlt l hl; omega
    refine layers_eq_overlay hm (fun x hx => ?_) (fun x hx => ?_) fun x hx => ?_
    · simp only [patch] at hx
      rw [view_stored, hzero x (by omega)]
      exact ⟨view_singleton_of_not_has (Or.inl hx), rfl⟩
    · rw [view_stored, hzero x hx.2]
      exact ⟨view_singleton_of_has hx, rfl⟩
    · rw [view_stored]
      exact ⟨view_singleton_of_not_has (Or.inr hx), rfl⟩

/-- The row in hand lies in front of the incoming row: it goes behind the
cursor. -/
theorem Tracks.drop {C : List Location} (h : Tracks T s A C) (hc : s.current = some c)
    (hm : m.Valid) (hlt : c.nEndIp < m.nBeginIp) :
    Laid T A s.ahead m { s with current := none } (some m) := by
  have hahead := ahead_of_current hc
  obtain ⟨c', rfl, hc'⟩ := h.hand hc
  have horder := h.order
  rw [hahead, List.pairwise_cons] at horder
  have hview : ∀ x, view [c'] x = view [c] x := fun x => view_same (.cons hc' .nil) x
  rw [hahead]
  refine ⟨A ++ [c'], ⟨?_, List.Forall₂.nil, h.origin, ?_, horder.2, ?_, ?_, h.clean⟩, rfl, rfl, hm,
    ?_⟩
  · rw [List.append_nil]
    exact h.perm
  · intro a ha l hl
    rcases List.mem_append.1 ha with ha | ha
    · exact h.apart a ha l (hahead ▸ List.mem_cons_of_mem c hl)
    · obtain rfl := List.mem_singleton.1 ha
      rw [hc'.nEndIp]
      exact horder.1 l hl
  · intro l hl
    rcases List.mem_append.1 hl with hl | hl
    · rcases List.mem_append.1 hl with hl | hl
      · exact h.valid l (List.mem_append_left _ hl)
      · obtain rfl := List.mem_singleton.1 hl
        rw [Location.Valid, hc'.nBeginIp, hc'.nEndIp]
        exact h.valid c (by simp [hahead])
    · exact h.valid l (List.mem_append_right _ (hahead ▸ List.mem_cons_of_mem c hl))
  · exact fun l hl => h.filled l (hahead ▸ List.mem_cons_of_mem c hl)
  · simp only [Location.Valid] at hm
    refine Layers.overlay_congr hm (fun x hx => ?_) (fun x hx => ?_) fun x hx => ?_
    · change view (A ++ [c']) x + view s.rs x = view A x + view (c :: s.rs) x
      rw [view_append, hview, add_assoc, ← view_append]
      rfl
    · change view (A ++ [c']) x = view A x
      have hx1 : m.nBeginIp ≤ x := hx.1
      rw [view_append, hview, view_singleton_of_not_has (Or.inr (by omega)), add_zero]
    · change view (A ++ [c']) x = view A x ∧ view s.rs x = view (c :: s.rs) x
      simp only [patch] at hx
      rw [view_append, hview, view_singleton_of_not_has (Or.inr (by omega)), add_zero,
        Cleared.view_cons_of_gt (by omega)]
      exact ⟨rfl, rfl⟩

/-- **One round**: it returns, and lays the patch or leaves a rest that
does. -/
theorem round_laid {C : List Location} (h : Tracks T s A C) (hc : s.current = some c)
    (hm : m.Valid) : ∃ s' rest, s.round c m = .ok (s', rest) ∧ Laid T A s.ahead m s' rest := by
  have hahead := ahead_of_current hc
  obtain ⟨b, hb⟩ := Option.ne_none_iff_exists'.1 (h.filled c (by simp [hahead])).2
  -- the line printed for one marked address changes nothing that is tracked
  obtain ⟨out, hs₁⟩ : ∃ out, (if (some "222.161.60.115" == some b) = true then
      { s with out := s.out ++ ["error"] } else s) = { s with out := out } := by
    split
    · exact ⟨_, rfl⟩
    · exact ⟨s.out, rfl⟩
  have h₁ : Tracks T { s with out := out } A C :=
    ⟨h.perm, h.same, h.origin, h.apart, h.order, h.valid, h.filled, h.clean⟩
  simp only [round, hb, Java.equals_some, Java.ok_bind, hs₁]
  by_cases hbefore : m.nEndIp < c.nBeginIp
  · rw [if_pos hbefore]
    refine ⟨_, _, rfl, h₁.insert_before hm fun l hl => ?_⟩
    change l ∈ s.ahead at hl
    rw [hahead] at hl
    have horder := h.order
    have hcv := h.valid c (by simp [hahead])
    simp only [Location.Valid] at hcv
    rw [hahead, List.pairwise_cons] at horder
    rcases List.mem_cons.1 hl with rfl | hl
    · exact hbefore
    · have := horder.1 l hl
      omega
  rw [if_neg hbefore]
  by_cases hafter : m.nBeginIp > c.nEndIp
  · rw [if_pos hafter]
    exact ⟨_, _, rfl, h₁.drop hc hm hafter⟩
  · rw [if_neg hafter]
    exact merge_laid h₁ hc hm (not_lt.1 hbefore) (not_lt.1 hafter)

theorem fetch_tracks {C : List Location} (h : Tracks T s A C) :
    ∃ C', Tracks T s.fetch A C' ∧ s.fetch.ahead = s.ahead := by
  obtain ⟨rs, current, sql, outTxt, out, errors⟩ := s
  rcases current with - | c
  · rcases rs with - | ⟨row, rs⟩
    · exact ⟨C, h, rfl⟩
    · have hnil : C = [] := List.forall₂_nil_right_iff.1 h.same
      refine ⟨[row], ⟨?_, ?_, h.origin, h.apart, h.order, h.valid, h.filled, h.clean⟩, rfl⟩
      · have hperm := h.perm
        rw [hnil, List.append_nil] at hperm
        rw [List.append_assoc]
        exact hperm
      · exact List.Forall₂.cons ⟨rfl, rfl, rfl⟩ List.Forall₂.nil
  · exact ⟨C, h, rfl⟩

theorem fetch_current (hc : s.fetch.current = none) : s.fetch.ahead = [] := by
  obtain ⟨rs, current, sql, outTxt, out, errors⟩ := s
  rcases current with - | c
  · rcases rs with - | ⟨row, rs⟩
    · rfl
    · simp [fetch] at hc
  · simp [fetch] at hc

/-- **`Insert` lays one patch.** With one unit of fuel more than rows ahead
it returns, and on the table it is the overlay. -/
theorem Insert_laid : ∀ {n : ℕ} {s : MergeInsertImp} {A C : List Location} {m : Location},
    Tracks T s A C → m.Valid → s.ahead.length < n →
    ∃ s' A' C', Insert n s m = some (.ok s') ∧ Tracks T s' A' C' ∧
      s'.ahead.length ≤ s.ahead.length ∧
      layers A' s'.ahead = (layers A s.ahead).overlay (patch m)
  | 0, _, _, _, _, _, _, hn => absurd hn (Nat.not_lt_zero _)
  | n + 1, s, A, C, m, h, hm, hn => by
    obtain ⟨C₁, h₁, hahead⟩ := fetch_tracks h
    rw [← hahead] at hn ⊢
    rw [Insert]
    rcases hc : s.fetch.current with - | c
    · obtain ⟨A', C', htracks, hlen, hlay⟩ := h₁.insert_before hm (by simp [fetch_current hc])
      exact ⟨_, A', C', rfl, htracks, hlen, hlay⟩
    · obtain ⟨s', rest, hround, hlaid⟩ := round_laid h₁ hc hm
      simp only [hround]
      rcases rest with - | m'
      · obtain ⟨A', C', htracks, hlen, hlay⟩ := hlaid
        exact ⟨s', A', C', rfl, htracks, hlen, hlay⟩
      · obtain ⟨A', htracks, -, htail, hm', hlay⟩ := hlaid
        have hshort : s'.ahead.length < n := by
          rw [htail, List.length_tail]
          rw [ahead_of_current hc] at hn ⊢
          simp only [List.length_cons] at hn ⊢
          omega
        obtain ⟨s'', A'', C'', hins, htracks', hlen, hlay'⟩ := Insert_laid htracks hm' hshort
        refine ⟨s'', A'', C'', hins, htracks', hlen.trans ?_, hlay'.trans hlay⟩
        rw [htail, List.length_tail]
        exact Nat.sub_le _ _

/-- **A sequence of rows lays a sequence of patches.** -/
theorem insertAll_laid {n : ℕ} {ms : List Location} (hm : ∀ m ∈ ms, m.Valid)
    {s : MergeInsertImp} {A C : List Location} (h : Tracks T s A C) (hn : s.ahead.length < n) :
    ∃ s' A' C', insertAll n s ms = some (.ok s') ∧ Tracks T s' A' C' ∧
      layers A' s'.ahead = (ms.map patch).foldl Layers.overlay (layers A s.ahead) := by
  induction ms generalizing s A C with
  | nil => exact ⟨s, A, C, rfl, h, rfl⟩
  | cons m ms ih =>
    obtain ⟨s₁, A₁, C₁, hins, h₁, hlen, hlay⟩ := Insert_laid h (hm m List.mem_cons_self) hn
    obtain ⟨s', A', C', hall, h', hlay'⟩ :=
      ih (fun r hr => hm r (List.mem_cons_of_mem _ hr)) h₁ (hlen.trans_lt hn)
    refine ⟨s', A', C', ?_, h', ?_⟩
    · rw [insertAll, hins]
      exact hall
    · rw [hlay', hlay]
      rfl

end Overlap

end MergeInsertImp

end LoadIp

end Xpod
