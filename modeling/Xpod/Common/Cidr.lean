import Mathlib.Data.Int.ModEq
import Mathlib.Tactic
import Xpod.Common.Lists
/-!
# Aligned blocks

A block is a range of `2 ^ bits` integers that begins at a multiple of its
size, as a network address with a prefix does. `Tiles a ps b` says that
the blocks `ps` follow one another from `a` up to but not including `b`.
A tiling whose blocks are as large as their place allows has the fewest
blocks of all that cover the range.
-/

namespace Xpod

namespace Cidr

/-- A block of `2 ^ bits` integers. -/
structure Block where
  lo : ℤ
  bits : ℕ
  aligned : (2 : ℤ) ^ bits ∣ lo

/-- The block contains the point. -/
def Block.Has (p : Block) (x : ℤ) : Prop := p.lo ≤ x ∧ x < p.lo + 2 ^ p.bits

/-- The blocks follow one another from `a` to `b`. -/
def Tiles (a : ℤ) : List Block → ℤ → Prop
  | [], b => a = b
  | p :: ps, b => p.lo = a ∧ Tiles (a + 2 ^ p.bits) ps b

variable {a b : ℤ} {ps qs : List Block}

theorem Tiles.append {c : ℤ} (h : Tiles a ps b) (h' : Tiles b qs c) : Tiles a (ps ++ qs) c := by
  induction ps generalizing a with
  | nil =>
    obtain rfl : a = b := h
    exact h'
  | cons p ps ih => exact ⟨h.1, ih h.2⟩

theorem Tiles.le (h : Tiles a ps b) : a ≤ b := by
  induction ps generalizing a with
  | nil => exact le_of_eq h
  | cons p ps ih =>
    have hpos : (0 : ℤ) < 2 ^ p.bits := by positivity
    have := ih h.2
    omega

/-- Every block lies between the ends. -/
theorem Tiles.bounds (h : Tiles a ps b) {p : Block} (hp : p ∈ ps) :
    a ≤ p.lo ∧ p.lo + 2 ^ p.bits ≤ b := by
  induction ps generalizing a with
  | nil => simp at hp
  | cons q ps ih =>
    have hpos : (0 : ℤ) < 2 ^ q.bits := by positivity
    obtain ⟨rfl, htail⟩ := h
    rcases List.mem_cons.1 hp with rfl | hp
    · exact ⟨le_rfl, htail.le⟩
    · have := ih htail hp
      omega

/-- **The blocks cover what lies between the ends, and nothing else.** -/
theorem Tiles.has_iff (h : Tiles a ps b) {x : ℤ} : (∃ p ∈ ps, p.Has x) ↔ a ≤ x ∧ x < b := by
  constructor
  · rintro ⟨p, hp, hx⟩
    obtain ⟨h1, h2⟩ := h.bounds hp
    have h3 := hx.1
    have h4 := hx.2
    omega
  · intro hx
    induction ps generalizing a with
    | nil =>
      obtain rfl : a = b := h
      omega
    | cons q ps ih =>
      obtain ⟨rfl, htail⟩ := h
      by_cases hq : x < q.lo + 2 ^ q.bits
      · exact ⟨q, List.mem_cons_self, hx.1, hq⟩
      · obtain ⟨p, hp, hpx⟩ := ih htail ⟨by omega, hx.2⟩
        exact ⟨p, List.mem_cons_of_mem _ hp, hpx⟩

/-- No point is in two of them. -/
theorem Tiles.pairwise (h : Tiles a ps b) :
    ps.Pairwise fun p q => p.lo + 2 ^ p.bits ≤ q.lo := by
  induction ps generalizing a with
  | nil => exact List.Pairwise.nil
  | cons p ps ih =>
    obtain ⟨rfl, htail⟩ := h
    exact List.pairwise_cons.2 ⟨fun q hq => (htail.bounds hq).1, ih htail⟩

/-- A multiple of `2 ^ k` whose next bit is clear is a multiple of
`2 ^ (k + 1)`. -/
theorem dvd_succ_of_bit {n : ℤ} {k : ℕ} (h : (2 : ℤ) ^ k ∣ n) (hbit : n / 2 ^ k % 2 = 0) :
    (2 : ℤ) ^ (k + 1) ∣ n := by
  obtain ⟨m, rfl⟩ := h
  have hpos : (2 : ℤ) ^ k ≠ 0 := by positivity
  rw [Int.mul_ediv_cancel_left m hpos] at hbit
  rw [pow_succ]
  exact mul_dvd_mul_left _ (Int.dvd_of_emod_eq_zero hbit)

/-- The other way round. -/
theorem bit_eq_zero_of_dvd {n : ℤ} {k : ℕ} (h : (2 : ℤ) ^ (k + 1) ∣ n) : n / 2 ^ k % 2 = 0 := by
  obtain ⟨m, rfl⟩ := h
  have hpos : (2 : ℤ) ^ k ≠ 0 := by positivity
  rw [pow_succ, mul_assoc, Int.mul_ediv_cancel_left _ hpos]
  exact Int.mul_emod_right 2 m

/-- A point is in one block at most of blocks in order. -/
theorem Block.eq_of_has {ps : List Block}
    (hord : ps.Pairwise fun p q => p.lo + 2 ^ p.bits ≤ q.lo) {p q : Block} (hp : p ∈ ps)
    (hq : q ∈ ps) {x : ℤ} (hpx : p.Has x) (hqx : q.Has x) : p = q := by
  obtain ⟨hp1, hp2⟩ := hpx
  obtain ⟨hq1, hq2⟩ := hqx
  refine Lists.eq_of_pairwise hord hp hq ?_ ?_
  · intro hlt
    omega
  · intro hlt
    omega

/-! ## The fewest blocks -/

/-- The blocks cover what lies from `a` up to but not including `b`, and
nothing else. They may overlap. -/
def Covers (a b : ℤ) (qs : List Block) : Prop := ∀ x, (∃ q ∈ qs, q.Has x) ↔ a ≤ x ∧ x < b

/-- A block of twice the size would not be aligned there, or not end by `b`. -/
def Block.Largest (b : ℤ) (p : Block) : Prop :=
  (2 : ℤ) ^ (p.bits + 1) ∣ p.lo → b < p.lo + 2 ^ (p.bits + 1)

theorem Block.has_lo (p : Block) : p.Has p.lo := by
  have hpos : (0 : ℤ) < 2 ^ p.bits := by positivity
  exact ⟨le_rfl, by omega⟩

/-- **Two blocks that meet are nested.** -/
theorem Block.nested {p q : Block} (hbits : p.bits ≤ q.bits) {x : ℤ} (hp : p.Has x)
    (hq : q.Has x) : q.lo ≤ p.lo ∧ p.lo + 2 ^ p.bits ≤ q.lo + 2 ^ q.bits := by
  obtain ⟨m, hm⟩ := p.aligned
  obtain ⟨k, hk⟩ := (pow_dvd_pow (2 : ℤ) hbits).trans q.aligned
  obtain ⟨r, hr⟩ := pow_dvd_pow (2 : ℤ) hbits
  have hpos : (0 : ℤ) < 2 ^ p.bits := by positivity
  have hlo : 2 ^ p.bits * k < 2 ^ p.bits * (m + 1) := by
    have h1 := hp.2
    have h2 := hq.1
    rw [mul_add, mul_one, ← hm, ← hk]
    omega
  have hhi : 2 ^ p.bits * m < 2 ^ p.bits * (k + r) := by
    have h1 := hp.1
    have h2 := hq.2
    rw [mul_add, ← hm, ← hk, ← hr]
    omega
  have hkm : k ≤ m := Int.lt_add_one_iff.1 (lt_of_mul_lt_mul_left hlo hpos.le)
  have hmr : m + 1 ≤ k + r := lt_of_mul_lt_mul_left hhi hpos.le
  constructor
  · rw [hm, hk]
    exact mul_le_mul_of_nonneg_left hkm hpos.le
  · rw [hm, hk, hr]
    have := mul_le_mul_of_nonneg_left hmr hpos.le
    rwa [mul_add, mul_one, mul_add] at this

/-- **Every block inside the range lies in one tile** of a tiling by
largest blocks. A block that is larger than a tile it meets begins where
some smaller tile begins, and there the larger one had room. -/
theorem Tiles.within (h : Tiles a ps b) (hmax : ∀ p ∈ ps, p.Largest b) {p q : Block} (hp : p ∈ ps)
    (ha : a ≤ q.lo) (hb : q.lo + 2 ^ q.bits ≤ b) {x : ℤ} (hpx : p.Has x) (hqx : q.Has x) :
    p.lo ≤ q.lo ∧ q.lo + 2 ^ q.bits ≤ p.lo + 2 ^ p.bits := by
  by_cases hbits : q.bits ≤ p.bits
  · exact Block.nested hbits hqx hpx
  exfalso
  have hpos : (0 : ℤ) < 2 ^ q.bits := by positivity
  obtain ⟨r, hr, hrq⟩ := h.has_iff.2 ⟨ha, by omega⟩
  by_cases hqr : q.bits ≤ r.bits
  · -- the tile at the beginning of `q` contains `q`, so it is `p`
    obtain ⟨h1, h2⟩ := Block.nested hqr q.has_lo hrq
    have hrx : r.Has x := ⟨h1.trans hqx.1, hqx.2.trans_le h2⟩
    obtain rfl := Block.eq_of_has h.pairwise hr hp hrx hpx
    exact hbits hqr
  · -- the tile at the beginning of `q` is smaller: it begins there too
    have hlt : r.bits + 1 ≤ q.bits := by omega
    obtain ⟨h1, -⟩ := Block.nested (by omega) hrq q.has_lo
    have hlo : r.lo = q.lo := le_antisymm hrq.1 h1
    have hdvd : (2 : ℤ) ^ (r.bits + 1) ∣ r.lo := by
      rw [hlo]
      exact (pow_dvd_pow 2 hlt).trans q.aligned
    have hroom := hmax r hr hdvd
    have hle : (2 : ℤ) ^ (r.bits + 1) ≤ 2 ^ q.bits := pow_le_pow_right₀ (by norm_num) hlt
    omega

/-- **A tiling by largest blocks has the fewest blocks.** Each tile holds a
block of the other cover, and no two tiles hold the same one. -/
theorem Tiles.length_le (h : Tiles a ps b) (hmax : ∀ p ∈ ps, p.Largest b) (hqs : Covers a b qs) :
    ps.length ≤ qs.length := by
  have hcov : ∀ p ∈ ps, ∃ q ∈ qs, q.Has p.lo := fun p hp =>
    (hqs p.lo).2 (h.has_iff.1 ⟨p, hp, p.has_lo⟩)
  have : Nonempty Block := ⟨⟨0, 0, dvd_zero _⟩⟩
  choose! f hmem hhas using hcov
  have hsub : ∀ p ∈ ps, p.lo ≤ (f p).lo ∧ (f p).lo + 2 ^ (f p).bits ≤ p.lo + 2 ^ p.bits := by
    intro p hp
    have hpos : (0 : ℤ) < 2 ^ (f p).bits := by positivity
    have hfirst := (hqs _).1 ⟨f p, hmem p hp, (f p).has_lo⟩
    have hlast := (hqs ((f p).lo + 2 ^ (f p).bits - 1)).1
      ⟨f p, hmem p hp, by omega, by omega⟩
    exact h.within hmax hp hfirst.1 (by omega) p.has_lo (hhas p hp)
  have hnodup : (ps.map f).Nodup := by
    refine List.pairwise_map.2 (h.pairwise.imp_of_mem fun {p q} hp hq hlt heq => ?_)
    have hpos : (0 : ℤ) < 2 ^ (f p).bits := by positivity
    have h1 := (hsub p hp).2
    have h2 := (hsub q hq).1
    rw [← heq] at h2
    omega
  have hincl : ps.map f ⊆ qs := by
    intro q hq
    obtain ⟨p, hp, rfl⟩ := List.mem_map.1 hq
    exact hmem p hp
  simpa using (List.subperm_of_subset hnodup hincl).length_le

end Cidr

end Xpod
