import Xpod.Common.Cidr
import Xpod.LoadIp.Model.CreateIndex
/-!
# The index represents the table

`createSub` cuts a range into aligned blocks that follow one another, so
the lines `load` writes for a table of disjoint ranges are disjoint
networks with the table's attributes. Each block is the largest its place
allows, so no other networks cover the range with fewer.
-/

namespace Xpod

namespace LoadIp

open Cidr

/-- The network of a block. -/
def netOf (p : Block) : SubNet := SubNet.new p.lo (32 - p.bits)

namespace CreateSub

/-- **What a round of the loop knows.** The blocks `ps` are emitted and
reach up to the current start; the start is a multiple of `2 ^ (i - 1)`
and that many addresses remain. -/
structure Progress (b nEnd : ℤ) (s : Loop) (ps : List Block) : Prop where
  pos : 1 ≤ s.i
  le : s.i ≤ 32
  aligned : (2 : ℤ) ^ (s.i - 1) ∣ s.nSatrt
  fits : 2 ^ (s.i - 1) - 1 ≤ s.d
  dist : s.d = nEnd - s.nSatrt
  ret : s.ret = ps.map netOf
  tiles : Tiles b ps s.nSatrt
  bits : ∀ p ∈ ps, p.bits ≤ 32

/-- The list leaves the loop: it tiles the range. -/
structure Done (b nEnd : ℤ) (ret : List SubNet) (ps : List Block) : Prop where
  ret : ret = ps.map netOf
  tiles : Tiles b ps (nEnd + 1)
  bits : ∀ p ∈ ps, p.bits ≤ 32

/-- Emitting shortens the distance, counting lengthens the counter. -/
def weight (s : Loop) : ℕ := 33 * (s.d.toNat + 1) - s.i

section Round

variable {b nEnd : ℤ} {s : Loop} {ps : List Block}

/-- What a round adds to the blocks emitted before it: largest blocks, if
any. -/
def Emits (b nEnd : ℤ) (s : Loop) (ps : List Block) : Round → Prop
  | .next s' => weight s' < weight s ∧
      ∃ qs, (∀ q ∈ qs, q.Largest (nEnd + 1)) ∧ Progress b nEnd s' (ps ++ qs)
  | .done ret => ∃ qs, (∀ q ∈ qs, q.Largest (nEnd + 1)) ∧ Done b nEnd ret (ps ++ qs)

/-- The block emitted next. -/
def Progress.block (h : Progress b nEnd s ps) : Block := ⟨s.nSatrt, s.i - 1, h.aligned⟩

theorem Progress.emit (h : Progress b nEnd s ps) (hmax : h.block.Largest (nEnd + 1)) :
    Emits b nEnd s ps (afterEmit (emit nEnd s)) := by
  have hmax' : ∀ q ∈ [h.block], q.Largest (nEnd + 1) := by
    simpa only [List.mem_singleton, forall_eq] using hmax
  have hpos := h.pos
  have hle := h.le
  have hfits := h.fits
  have hdist := h.dist
  have hpow : (0 : ℤ) < 2 ^ (s.i - 1) := by positivity
  have hstart : (CreateSub.emit nEnd s).nSatrt = s.nSatrt + 2 ^ (s.i - 1) := by
    simp [CreateSub.emit, getRangeWithIndex]
  have hd : (CreateSub.emit nEnd s).d = s.d - 2 ^ (s.i - 1) := by
    change nEnd - (CreateSub.emit nEnd s).nSatrt = _
    rw [hstart]
    omega
  have hret : (CreateSub.emit nEnd s).ret = (ps ++ [h.block]).map netOf := by
    simp only [CreateSub.emit, List.map_append, h.ret]
    rfl
  have htiles : Tiles b (ps ++ [h.block]) (CreateSub.emit nEnd s).nSatrt := by
    refine h.tiles.append ⟨rfl, ?_⟩
    rw [hstart]
    rfl
  have hbits : ∀ p ∈ ps ++ [h.block], p.bits ≤ 32 := by
    intro p hp
    rcases List.mem_append.1 hp with hp | hp
    · exact h.bits p hp
    · obtain rfl := List.mem_singleton.1 hp
      simp only [Progress.block]
      omega
  unfold afterEmit
  split
  · next hneg =>
    refine ⟨[h.block], hmax', hret, ?_, hbits⟩
    have hend : (CreateSub.emit nEnd s).nSatrt = nEnd + 1 := by
      rw [hd] at hneg
      rw [hstart]
      omega
    rw [← hend]
    exact htiles
  · next hneg =>
    refine ⟨?_, [h.block], hmax', le_rfl, Nat.le_of_ble_eq_true rfl, ?_, ?_, rfl, hret, htiles,
      hbits⟩
    · have hi : (CreateSub.emit nEnd s).i = 1 := rfl
      simp only [weight, hi, hd]
      rw [hd] at hneg
      omega
    · simp [CreateSub.emit]
    · simp only [CreateSub.emit] at hneg ⊢
      simpa using hneg

/-- The block emitted next is the largest when the bit above it is set, or
when twice the size passes the end. -/
theorem Progress.largest (h : Progress b nEnd s ps)
    (hfull : getBitValWithIndex s.nSatrt s.i ≠ 0 ∨ s.d < getRangeWithIndex s.i) :
    h.block.Largest (nEnd + 1) := by
  have hsucc : s.i - 1 + 1 = s.i := Nat.sub_add_cancel h.pos
  have hdist := h.dist
  intro hdvd
  simp only [Progress.block, hsucc] at hdvd ⊢
  rcases hfull with hbit | hroom
  · refine absurd (bit_eq_zero_of_dvd (k := s.i - 1) ?_) hbit
    rwa [hsucc]
  · simp only [getRangeWithIndex] at hroom
    omega

/-- **One round**: it counts, or it emits the largest block there is room
for. The loop comes closer to its end, or the list is complete. In
particular the counter never passes 32. -/
theorem Progress.round (h : Progress b nEnd s ps) (hb : 0 ≤ b) (hend : nEnd < 2 ^ 32) :
    Emits b nEnd s ps (round nEnd s) := by
  have hpos := h.pos
  have hle := h.le
  have hdist := h.dist
  have hlow := h.tiles.le
  have hsucc : s.i - 1 + 1 = s.i := by omega
  have hdvd : getBitValWithIndex s.nSatrt s.i = 0 → (2 : ℤ) ^ s.i ∣ s.nSatrt := by
    intro hbit
    have := dvd_succ_of_bit h.aligned hbit
    rwa [hsucc] at this
  unfold CreateSub.round
  rw [if_pos hle]
  by_cases h1 : getRangeWithIndex s.i < s.d
  · rw [if_pos h1]
    by_cases hbit : getBitValWithIndex s.nSatrt s.i = 0
    · -- nothing is emitted: the block may be twice as large
      rw [if_pos hbit]
      have hne : s.i ≠ 32 := by
        intro h32
        simp only [getRangeWithIndex, h32] at h1
        omega
      simp only [getRangeWithIndex] at h1
      refine ⟨?_, [], by simp, ?_⟩
      · simp only [weight]
        have : (0 : ℤ) < 2 ^ s.i := by positivity
        omega
      · rw [List.append_nil]
        refine ⟨by simp, ?_, ?_, ?_, hdist, h.ret, h.tiles, h.bits⟩
        · simp only
          omega
        · simpa using hdvd hbit
        · simp only [Nat.add_sub_cancel]
          omega
    · -- a larger block would not be aligned
      rw [if_neg hbit]
      exact h.emit (h.largest (.inl hbit))
  · rw [if_neg h1]
    by_cases h2 : getRangeWithIndex s.i = s.d
    · rw [if_pos h2]
      by_cases hbit : getBitValWithIndex s.nSatrt s.i = 0
      · rw [if_pos hbit]
        simp only [getRangeWithIndex] at h2
        refine ⟨[⟨s.nSatrt, s.i, hdvd hbit⟩], ?_, ?_, h.tiles.append ⟨rfl, ?_⟩, ?_⟩
        · -- the block ends where the range does
          simp only [List.mem_singleton, forall_eq, Block.Largest]
          intro _
          have : (0 : ℤ) < 2 ^ s.i := by positivity
          rw [pow_succ]
          omega
        · simp [h.ret, netOf]
        · change s.nSatrt + 2 ^ s.i = nEnd + 1
          omega
        · intro p hp
          rcases List.mem_append.1 hp with hp | hp
          · exact h.bits p hp
          · obtain rfl := List.mem_singleton.1 hp
            exact hle
      · rw [if_neg hbit]
        exact h.emit (h.largest (.inl hbit))
    · -- a larger block would end behind the range
      rw [if_neg h2]
      exact h.emit (h.largest (.inr (by omega)))

end Round

/-- **The loop ends, and its list tiles the range** by the blocks emitted
before and largest blocks. -/
theorem Progress.loop {b nEnd : ℤ} (hb : 0 ≤ b) (hend : nEnd < 2 ^ 32) :
    ∀ {n : ℕ} {s : Loop} {ps : List Block}, Progress b nEnd s ps → weight s < n →
      ∃ ret qs, loop nEnd n s = some ret ∧ (∀ q ∈ qs, q.Largest (nEnd + 1)) ∧
        Done b nEnd ret (ps ++ qs)
  | 0, _, _, _, hn => absurd hn (Nat.not_lt_zero _)
  | n + 1, s, ps, h, hn => by
    have hemits := h.round hb hend
    rw [CreateSub.loop]
    rcases hr : CreateSub.round nEnd s with s' | ret
    · rw [hr] at hemits
      obtain ⟨hw, qs, hqs, hs'⟩ := hemits
      obtain ⟨ret, qs', hloop, hqs', hdone⟩ := hs'.loop hb hend (n := n) (by omega)
      refine ⟨ret, qs ++ qs', hloop, ?_, by rwa [← List.append_assoc]⟩
      intro q hq
      rcases List.mem_append.1 hq with hq | hq
      · exact hqs q hq
      · exact hqs' q hq
    · rw [hr] at hemits
      obtain ⟨qs, hqs, hdone⟩ := hemits
      exact ⟨ret, qs, rfl, hqs, hdone⟩

theorem loop_mono {nEnd : ℤ} {ret : List SubNet} :
    ∀ {n k : ℕ} {s : Loop}, loop nEnd n s = some ret → n ≤ k → loop nEnd k s = some ret
  | 0, _, _, h, _ => by simp [loop] at h
  | n + 1, 0, _, _, hk => absurd hk (Nat.not_succ_le_zero n)
  | n + 1, k + 1, s, h, hk => by
    rw [loop] at h ⊢
    rcases hr : round nEnd s with s' | ret'
    · rw [hr] at h
      exact loop_mono h (Nat.le_of_succ_le_succ hk)
    · rw [hr] at h
      exact h

end CreateSub

/-- A row of the index's query with what its texts say: both bounds are
read, as addresses below `2 ^ 32`. -/
structure IndexRow where
  row : Location
  lo : ℤ
  hi : ℤ
  begin_eq : ipToLongOf row.beginIp = .ok lo
  end_eq : ipToLongOf row.endIp = .ok hi
  lo_nonneg : 0 ≤ lo
  lo_lt : lo < 2 ^ 32
  hi_nonneg : 0 ≤ hi
  hi_lt : hi < 2 ^ 32

/-- The row's range contains the address. -/
def IndexRow.Has (r : IndexRow) (x : ℤ) : Prop := r.lo ≤ x ∧ x ≤ r.hi

/-- Ranges that are not empty share no address. -/
def IndexRow.Apart (a b : IndexRow) : Prop := a.lo ≤ a.hi → b.lo ≤ b.hi → a.hi < b.lo ∨ b.hi < a.lo

theorem createSub_mono {start stop : Option String} {r : Except Java.Exception (List SubNet)}
    {n k : ℕ} (h : createSub n start stop = some r) (hk : n ≤ k) :
    createSub k start stop = some r := by
  unfold createSub at h ⊢
  rcases hs : ipToLongOf start with e | nSatrt
  · rw [hs] at h
    exact h
  rcases he : ipToLongOf stop with e | nEnd
  · rw [hs, he] at h
    exact h
  · rw [hs, he] at h
    dsimp only at h ⊢
    split at h
    · next hneg =>
      rw [if_pos hneg]
      exact h
    · next hneg =>
      rw [if_neg hneg]
      obtain ⟨ret, hret, rfl⟩ := Option.map_eq_some_iff.1 h
      rw [CreateSub.loop_mono hret hk]
      rfl

/-- **`createSub` tiles a range by largest blocks.** -/
theorem createSub_greedy (start stop : Option String) {lo hi : ℤ}
    (hs : ipToLongOf start = .ok lo) (he : ipToLongOf stop = .ok hi) (hlo : 0 ≤ lo)
    (hle : lo ≤ hi) (hhi : hi < 2 ^ 32) :
    ∃ (n : ℕ) (ps : List Block), createSub n start stop = some (.ok (ps.map netOf)) ∧
      Tiles lo ps (hi + 1) ∧ (∀ p ∈ ps, p.Largest (hi + 1)) ∧ ∀ p ∈ ps, p.bits ≤ 32 := by
  have hstart : CreateSub.Progress lo hi ⟨1, lo, hi - lo, []⟩ [] :=
    ⟨le_rfl, by simp, by simp, by simpa using hle, rfl, rfl, rfl, by simp⟩
  obtain ⟨ret, ps, hloop, hmax, hdone⟩ := hstart.loop hlo hhi (Nat.lt_succ_self _)
  refine ⟨CreateSub.weight ⟨1, lo, hi - lo, []⟩ + 1, ps, ?_, hdone.tiles, hmax, hdone.bits⟩
  unfold createSub
  simp only [hs, he]
  rw [if_neg (by omega), hloop, hdone.ret]
  rfl

/-- **`createSub` tiles the row's range**, and returns nothing for an empty
one. -/
theorem createSub_tiles (r : IndexRow) :
    ∃ (n : ℕ) (ps : List Block), createSub n r.row.beginIp r.row.endIp = some (.ok (ps.map netOf)) ∧
      (∀ p ∈ ps, p.bits ≤ 32 ∧ 0 ≤ p.lo ∧ p.lo + 2 ^ p.bits ≤ 2 ^ 32) ∧
      ps.Pairwise (fun p q => p.lo + 2 ^ p.bits ≤ q.lo) ∧
      ∀ x, (∃ p ∈ ps, p.Has x) ↔ r.Has x := by
  have hlo := r.lo_nonneg
  have hhi := r.hi_lt
  by_cases hneg : r.hi - r.lo < 0
  · refine ⟨0, [], ?_, by simp, List.Pairwise.nil, fun x => ?_⟩
    · unfold createSub
      simp only [r.begin_eq, r.end_eq]
      rw [if_pos hneg]
      rfl
    · simp only [List.not_mem_nil, false_and, exists_false, false_iff, IndexRow.Has]
      omega
  · obtain ⟨n, ps, hsub, htiles, -, hbits⟩ :=
      createSub_greedy _ _ r.begin_eq r.end_eq hlo (by omega) hhi
    refine ⟨n, ps, hsub, fun p hp => ?_, htiles.pairwise, fun x => ?_⟩
    · have hb := htiles.bounds hp
      exact ⟨hbits p hp, by omega, by omega⟩
    · rw [htiles.has_iff, IndexRow.Has]
      omega

/-- **`createSub` is minimal.** For every range of addresses below `2 ^ 32`
it ends, and the networks it returns are as few as the fewest aligned
blocks that cover exactly the range. -/
theorem createSub_isLeast (start stop : String) (lo hi : ℤ) (hs : Util.ipToLong start = .ok lo)
    (he : Util.ipToLong stop = .ok hi) (hlo : 0 ≤ lo) (hle : lo ≤ hi) (hhi : hi < 2 ^ 32) :
    ∃ ps : List Block,
      (∃ n, ∀ k, n ≤ k → createSub k (some start) (some stop) = some (.ok (ps.map netOf))) ∧
      Covers lo (hi + 1) ps ∧
      IsLeast {n | ∃ qs, Covers lo (hi + 1) qs ∧ qs.length = n} (ps.map netOf).length := by
  obtain ⟨n, ps, hsub, htiles, hmax, -⟩ :=
    createSub_greedy (some start) (some stop) hs he hlo hle hhi
  have hcov : Covers lo (hi + 1) ps := fun x => htiles.has_iff
  refine ⟨ps, ⟨n, fun k hk => createSub_mono hsub hk⟩, hcov, ⟨ps, hcov, by simp⟩, ?_⟩
  rintro m ⟨qs, hqs, rfl⟩
  rw [List.length_map]
  exact htiles.length_le hmax hqs

/-- A sample range of `test.main`. -/
theorem createSub_isLeast_sample :
    ∃ ps : List Block,
      (∃ n, ∀ k, n ≤ k →
        createSub k (some "101.224.0.0") (some "101.224.0.12") = some (.ok (ps.map netOf))) ∧
      Covers 1709178880 (1709178892 + 1) ps ∧
      IsLeast {n | ∃ qs, Covers 1709178880 (1709178892 + 1) qs ∧ qs.length = n}
        (ps.map netOf).length :=
  createSub_isLeast _ _ _ _ (by decide) (by decide) (by decide) (by decide) (by decide)

namespace CreateIndex

/-- What the index says about a row: the map with its four attributes. -/
def addressOf (loc : Location) : StringMap := putAll (fun _ => none) loc

/-- The map is used again for every row, and every row overwrites it. -/
theorem putAll_putAll (m : StringMap) (a b : Location) : putAll (putAll m a) b = putAll m b := by
  funext k
  simp only [putAll, Function.update_apply]
  split_ifs <;> rfl

/-- The line's network contains the address. -/
def Line.Has (l : Line) (x : ℤ) : Prop :=
  ∃ n, Util.ipToLong l.sub.startIp = .ok n ∧ n ≤ x ∧ x < n + 2 ^ (32 - l.sub.netMark).toNat

/-- The network is an address of 32 bits aligned to a prefix of 0 to 32
bits. -/
def Line.Aligned (l : Line) : Prop :=
  0 ≤ l.sub.netMark ∧ l.sub.netMark ≤ 32 ∧ ∃ n, Util.ipToLong l.sub.startIp = .ok n ∧
    0 ≤ n ∧ n + 2 ^ (32 - l.sub.netMark).toNat ≤ 2 ^ 32 ∧
    (2 : ℤ) ^ (32 - l.sub.netMark).toNat ∣ n

section Lines

variable {p : Block} {address : String}

theorem ipToLong_netOf (h0 : 0 ≤ p.lo) (h1 : p.lo + 2 ^ p.bits ≤ 2 ^ 32) :
    Util.ipToLong (netOf p).startIp = .ok p.lo := by
  have hpos : (0 : ℤ) < 2 ^ p.bits := by positivity
  exact Util.ipToLong_longToIP h0 (by omega)

theorem bits_netOf (hb : p.bits ≤ 32) : (32 - (netOf p).netMark).toNat = p.bits := by
  simp only [netOf, SubNet.new]
  omega

theorem line_has_iff (hb : p.bits ≤ 32) (h0 : 0 ≤ p.lo) (h1 : p.lo + 2 ^ p.bits ≤ 2 ^ 32)
    {x : ℤ} : (⟨netOf p, address⟩ : Line).Has x ↔ p.Has x := by
  simp only [Line.Has, ipToLong_netOf h0 h1, bits_netOf hb, Except.ok.injEq, exists_eq_left']
  rfl

theorem line_aligned (hb : p.bits ≤ 32) (h0 : 0 ≤ p.lo) (h1 : p.lo + 2 ^ p.bits ≤ 2 ^ 32) :
    (⟨netOf p, address⟩ : Line).Aligned := by
  refine ⟨?_, ?_, p.lo, ipToLong_netOf h0 h1, h0, ?_, ?_⟩
  · simp only [netOf, SubNet.new]
    omega
  · simp only [netOf, SubNet.new]
    omega
  · rw [bits_netOf hb]
    exact h1
  · rw [bits_netOf hb]
    exact p.aligned

end Lines

/-- **`load` writes these texts**: with enough fuel it returns them. -/
def Writes (toJSONString : StringMap → String) (rows : List Location) (texts : List String) :
    Prop :=
  ∃ n, ∀ k, n ≤ k → load toJSONString k rows = some (.ok texts)

theorem loadLoop_mono {toJSONString : StringMap → String} {n k : ℕ} (hk : n ≤ k)
    {rows : List Location} {m1 : StringMap} {lines : List Line}
    (h : loadLoop toJSONString n m1 rows = some (.ok lines)) :
    loadLoop toJSONString k m1 rows = some (.ok lines) := by
  induction rows generalizing m1 lines with
  | nil => exact h
  | cons loc rows ih =>
    rw [loadLoop] at h ⊢
    rcases hc : createSub n loc.beginIp loc.endIp with - | (e | x)
    · rw [hc] at h
      simp at h
    · rw [hc] at h
      simp at h
    rw [hc] at h
    rw [createSub_mono hc hk]
    rcases hl : loadLoop toJSONString n (putAll m1 loc) rows with - | (e | rest)
    · rw [hl] at h
      simp at h
    · rw [hl] at h
      simp at h
    · rw [hl] at h
      rw [ih hl]
      exact h

/-- The lines of a table: what the index promises of them. -/
structure Represents (toJSONString : StringMap → String) (rows : List IndexRow)
    (lines : List Line) : Prop where
  /-- Every network is aligned to its prefix. -/
  aligned : ∀ l ∈ lines, l.Aligned
  /-- No two networks share an address. -/
  disjoint : lines.Pairwise fun a b => ∀ x, ¬ (a.Has x ∧ b.Has x)
  /-- An address of a row is in one line, with the row's attributes. -/
  covers : ∀ r ∈ rows, ∀ x, r.Has x → ∃ l ∈ lines, l.Has x ∧
    l.address = toJSONString (addressOf r.row) ∧ ∀ l' ∈ lines, l'.Has x → l' = l
  /-- An address of no row is in no line. -/
  within : ∀ l ∈ lines, ∀ x, l.Has x → ∃ r ∈ rows, r.Has x

/-- The lines of one row in front of those of the others. -/
theorem Represents.cons {toJSONString : StringMap → String} {r : IndexRow} {rows : List IndexRow}
    {lines : List Line} {ps : List Block} (h : Represents toJSONString rows lines)
    (hd : ∀ r' ∈ rows, r.Apart r')
    (hps : ∀ p ∈ ps, p.bits ≤ 32 ∧ 0 ≤ p.lo ∧ p.lo + 2 ^ p.bits ≤ 2 ^ 32)
    (hord : ps.Pairwise fun p q => p.lo + 2 ^ p.bits ≤ q.lo)
    (hcov : ∀ x, (∃ p ∈ ps, p.Has x) ↔ r.Has x) :
    Represents toJSONString (r :: rows)
      ((ps.map netOf).map (fun sub => ⟨sub, toJSONString (addressOf r.row)⟩) ++ lines) := by
  have hmem : ∀ l, l ∈ (ps.map netOf).map
      (fun sub => (⟨sub, toJSONString (addressOf r.row)⟩ : Line)) ↔
      ∃ p ∈ ps, l = ⟨netOf p, toJSONString (addressOf r.row)⟩ := by
    intro l
    simp only [List.map_map, List.mem_map, Function.comp_apply, eq_comm]
  have hhas : ∀ p ∈ ps, ∀ x,
      (⟨netOf p, toJSONString (addressOf r.row)⟩ : Line).Has x ↔ p.Has x := fun p hp _ =>
    line_has_iff (hps p hp).1 (hps p hp).2.1 (hps p hp).2.2
  -- a line of this row and a line of another share no address
  have hcross : ∀ x, r.Has x → ∀ l ∈ lines, ¬ l.Has x := by
    intro x hx l hl hlx
    obtain ⟨r', hr', hx'⟩ := h.within l hl x hlx
    have h1 := hx.1
    have h2 := hx.2
    have h3 := hx'.1
    have h4 := hx'.2
    rcases hd r' hr' (by omega) (by omega) with h5 | h5 <;> omega
  refine ⟨fun l hl => ?_, List.pairwise_append.2 ⟨?_, h.disjoint, ?_⟩, fun r' hr' x hx => ?_,
    fun l hl x hx => ?_⟩
  · rcases List.mem_append.1 hl with hl | hl
    · obtain ⟨p, hp, rfl⟩ := (hmem l).1 hl
      exact line_aligned (hps p hp).1 (hps p hp).2.1 (hps p hp).2.2
    · exact h.aligned l hl
  · rw [List.map_map, List.pairwise_map]
    refine hord.imp_of_mem fun {p q} hp hq hlt x hx => ?_
    have h1 := ((hhas p hp x).1 hx.1).2
    have h2 := ((hhas q hq x).1 hx.2).1
    omega
  · intro a ha b hb x hx
    obtain ⟨p, hp, rfl⟩ := (hmem a).1 ha
    exact hcross x ((hcov x).1 ⟨p, hp, (hhas p hp x).1 hx.1⟩) b hb hx.2
  · rcases List.mem_cons.1 hr' with rfl | hr'
    · obtain ⟨p, hp, hpx⟩ := (hcov x).2 hx
      refine ⟨_, List.mem_append_left _ ((hmem _).2 ⟨p, hp, rfl⟩), (hhas p hp x).2 hpx, rfl,
        fun l' hl' hlx => ?_⟩
      rcases List.mem_append.1 hl' with hl' | hl'
      · obtain ⟨q, hq, rfl⟩ := (hmem l').1 hl'
        rw [Block.eq_of_has hord hq hp ((hhas q hq x).1 hlx) hpx]
      · exact absurd hlx (hcross x hx l' hl')
    · obtain ⟨l, hl, hlx, haddr, huniq⟩ := h.covers r' hr' x hx
      refine ⟨l, List.mem_append_right _ hl, hlx, haddr, fun l' hl' hlx' => ?_⟩
      rcases List.mem_append.1 hl' with hl' | hl'
      · obtain ⟨q, hq, rfl⟩ := (hmem l').1 hl'
        exact absurd hlx (hcross x ((hcov x).1 ⟨q, hq, (hhas q hq x).1 hlx'⟩) l hl)
      · exact huniq l' hl' hlx'
  · rcases List.mem_append.1 hl with hl | hl
    · obtain ⟨p, hp, rfl⟩ := (hmem l).1 hl
      exact ⟨r, List.mem_cons_self, (hcov x).1 ⟨p, hp, (hhas p hp x).1 hx⟩⟩
    · obtain ⟨r', hr', hx'⟩ := h.within l hl x hx
      exact ⟨r', List.mem_cons_of_mem _ hr', hx'⟩

theorem loadLoop_represents (toJSONString : StringMap → String) {rows : List IndexRow}
    (hd : rows.Pairwise IndexRow.Apart) {m1 : StringMap}
    (hm : ∀ loc, putAll m1 loc = addressOf loc) :
    ∃ n lines, loadLoop toJSONString n m1 (rows.map IndexRow.row) = some (.ok lines) ∧
      Represents toJSONString rows lines := by
  induction rows generalizing m1 with
  | nil => exact ⟨0, [], rfl, by simp, List.Pairwise.nil, by simp, by simp⟩
  | cons r rows ih =>
    rw [List.pairwise_cons] at hd
    obtain ⟨n₁, ps, hsub, hps, hord, hcov⟩ := createSub_tiles r
    have hput : ∀ loc, putAll (putAll m1 r.row) loc = addressOf loc := fun loc => by
      rw [putAll_putAll, hm]
    obtain ⟨n₂, lines, hload, hrep⟩ := ih hd.2 hput
    refine ⟨max n₁ n₂, _, ?_, hrep.cons hd.1 hps hord hcov⟩
    rw [List.map_cons, loadLoop, createSub_mono hsub (le_max_left n₁ n₂)]
    simp only [loadLoop_mono (le_max_right n₁ n₂) hload]
    rw [hm]

/-- **The index represents the table.** For every list of rows whose texts
are addresses below `2 ^ 32` and whose ranges that are not empty are
disjoint, `load` ends, and the lines it writes are aligned, disjoint, and
hold every address of a row, once and with the row's attributes, and no
other. -/
theorem load_represents_table (toJSONString : StringMap → String) (rows : List IndexRow)
    (hd : rows.Pairwise IndexRow.Apart) :
    ∃ lines, Writes toJSONString (rows.map IndexRow.row) (lines.map Line.text) ∧
      Represents toJSONString rows lines := by
  have hput : ∀ loc, putAll (fun _ => none) loc = addressOf loc := fun _ => rfl
  obtain ⟨n, lines, hload, hrep⟩ := loadLoop_represents toJSONString hd hput
  refine ⟨lines, ⟨n, fun k hk => ?_⟩, hrep⟩
  rw [load, loadLoop_mono hk hload]
  rfl

/-- Two of the sample ranges of `test.main`. -/
def sampleRows : List IndexRow :=
  [{ row := { beginIp := some "10.0.0.0", endIp := some "10.0.0.255" }
     lo := 167772160
     hi := 167772415
     begin_eq := by decide
     end_eq := by decide
     lo_nonneg := by decide
     lo_lt := by decide
     hi_nonneg := by decide
     hi_lt := by decide },
   { row := { beginIp := some "101.224.0.0", endIp := some "101.224.0.12" }
     lo := 1709178880
     hi := 1709178892
     begin_eq := by decide
     end_eq := by decide
     lo_nonneg := by decide
     lo_lt := by decide
     hi_nonneg := by decide
     hi_lt := by decide }]

theorem load_represents_sample :
    ∃ lines, Writes (fun _ => "") (sampleRows.map IndexRow.row) (lines.map Line.text) ∧
      Represents (fun _ => "") sampleRows lines :=
  load_represents_table _ sampleRows (by simp [sampleRows, IndexRow.Apart])

end CreateIndex

end LoadIp

end Xpod
