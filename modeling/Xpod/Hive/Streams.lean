import Mathlib.Data.List.Basic
import Mathlib.Tactic
import Xpod.Common.Lines
import Xpod.Hive.Model.RecordReader
import Xpod.Hive.Splits
/-!
# The readers of a stream

What a reader of a stream returns depends on its position and on the bytes
that are left, not on how its line reader cuts lines: a line that is
returned is never cut, and a line that is cut is either the last one before
the end, or cut at the most an `int` can say.

One constructor begins at the offset it is given, the other at zero. Their
readers return the same lines only as long as there is no line to return,
unless the offset is zero.
-/

namespace Xpod

namespace Hive

open Lines

/-! ## What one call consumes -/

/-- **The bytes of the first line that one call can consume.** -/
def pieceLength (rest : List UInt8) : ℕ := min (lineLength 13 10 rest) intMax

theorem pieceLength_pos {rest : List UInt8} (h : rest ≠ []) : 0 < pieceLength rest :=
  lt_min (lineLength_pos 13 10 h) (by decide)

/-- **The first line of less than so many bytes begins here.** A line of
more bytes than an `int` can say is read in pieces, and what is left of it
counts as a line. -/
inductive FirstShort (maxLineLength : ℤ) : List UInt8 → ℕ → Prop
  | here {rest : List UInt8} (hne : rest ≠ []) (hshort : pieceLength rest < maxLineLength) :
      FirstShort maxLineLength rest 0
  | skip {rest : List UInt8} {k : ℕ} (hne : rest ≠ []) (hlong : maxLineLength ≤ pieceLength rest)
      (hrest : FirstShort maxLineLength (rest.drop (pieceLength rest)) k) :
      FirstShort maxLineLength rest (pieceLength rest + k)

theorem FirstShort.unique {maxLineLength : ℤ} {rest : List UInt8} {k k' : ℕ}
    (h : FirstShort maxLineLength rest k) (h' : FirstShort maxLineLength rest k') : k = k' := by
  induction h generalizing k' with
  | here hne hshort =>
    cases h' with
    | here => rfl
    | skip _ hlong _ => exact absurd hshort (not_lt.2 hlong)
  | skip hne hlong hrest ih =>
    cases h' with
    | here _ hshort => exact absurd hshort (not_lt.2 hlong)
    | skip _ _ hrest' => rw [ih hrest']

namespace StreamReader

variable {r : StreamReader}

/-- The bytes consumed by the next call of `readLine`. -/
def newSize (r : StreamReader) : ℕ := r.lineReader.consumed r.rest r.maxBytesToConsume

theorem maxBytesToConsume_le (r : StreamReader) : r.maxBytesToConsume ≤ intMax := by
  have hle := r.maxLineLength_le
  unfold maxBytesToConsume
  omega

/-- **A call consumes a piece, or all that was left before the end.** What
is cut short is too long to be returned. -/
theorem newSize_cases (r : StreamReader) :
    r.newSize = pieceLength r.rest ∨
      r.endPos ≤ r.pos + r.newSize ∧ r.maxLineLength ≤ r.newSize ∧
        r.newSize < pieceLength r.rest := by
  have hlimit := r.maxBytesToConsume_le
  have hmax := r.lineReader.le_intMax r.rest _ hlimit
  have hcut := r.lineReader.whole_or_cut r.rest _ hlimit
  change r.newSize ≤ intMax at hmax
  change r.newSize = lineLength 13 10 r.rest ∨
    r.maxBytesToConsume ≤ r.newSize ∧ r.newSize < lineLength 13 10 r.rest at hcut
  unfold maxBytesToConsume at hcut
  unfold pieceLength
  omega

theorem next_of_le (h : r.endPos ≤ r.pos) : r.next = none := by
  rw [next, if_neg (not_lt.2 h)]

/-- One turn of the loop. -/
theorem next_eq (hlt : r.pos < r.endPos) :
    r.next =
      if r.newSize = 0 then none
      else if r.newSize < r.maxLineLength then
        some ((r.pos, RecordReader.valueOf ((body 13 10 r.rest).take
          (min r.newSize r.maxLineLength.toNat))), r.advance r.newSize)
      else (r.advance r.newSize).next := by
  rw [next, if_pos hlt]
  rfl

theorem next_of_long (hlt : r.pos < r.endPos) (hzero : r.newSize ≠ 0)
    (hlong : r.maxLineLength ≤ r.newSize) : r.next = (r.advance r.newSize).next := by
  rw [next_eq hlt, if_neg hzero, if_neg (not_lt.2 hlong)]

/-- A line that is returned is returned as a whole. -/
theorem next_of_short (hlt : r.pos < r.endPos) (hne : r.rest ≠ [])
    (hshort : pieceLength r.rest < r.maxLineLength) :
    r.next = some ((r.pos, RecordReader.valueOf (body 13 10 r.rest)),
      r.advance (pieceLength r.rest)) := by
  have hle := r.maxLineLength_le
  have hpos := pieceLength_pos hne
  have hsize : r.newSize = pieceLength r.rest := by
    rcases r.newSize_cases with hpiece | ⟨-, hlong, hcut⟩
    · exact hpiece
    · omega
  have hbody : (body 13 10 r.rest).length ≤ lineLength 13 10 r.rest := length_body_le _
  have hwhole : (body 13 10 r.rest).take (min r.newSize r.maxLineLength.toNat) =
      body 13 10 r.rest := by
    refine List.take_of_length_le ?_
    rw [hsize]
    unfold pieceLength at hshort ⊢
    omega
  rw [next_eq hlt, hwhole, hsize, if_neg hpos.ne', if_pos hshort]

/-! ## What `next` returns -/

/-- **The first line short enough is returned**, when it begins before the
end. -/
theorem next_of_firstShort {rest : List UInt8} {k : ℕ} {maxLineLength : ℤ}
    (h : FirstShort maxLineLength rest k) (hrest : r.rest = rest)
    (hmax : r.maxLineLength = maxLineLength) (hlt : r.pos + k < r.endPos) :
    r.next = some ((r.pos + k, RecordReader.valueOf (body 13 10 (rest.drop k))),
      r.advance (k + pieceLength (rest.drop k))) := by
  induction h generalizing r with
  | here hne hshort =>
    subst hrest hmax
    rw [next_of_short (by omega) hne hshort, Nat.cast_zero, add_zero, List.drop_zero, zero_add]
  | @skip rest k hne hlong _ ih =>
    subst hrest hmax
    have hpos := pieceLength_pos hne
    -- a piece that ends before the end is not cut
    have hsize : r.newSize = pieceLength r.rest := by
      rcases r.newSize_cases with hpiece | ⟨hend, -, hcut⟩
      · exact hpiece
      · omega
    have hbefore : (r.advance (pieceLength r.rest)).pos + k < r.endPos := by
      simp only [advance]
      omega
    have hnext := ih (r := r.advance (pieceLength r.rest)) rfl rfl hbefore
    rw [next_of_long (by omega) (by omega) (by omega), hsize, hnext]
    simp only [advance, List.drop_drop, Nat.cast_add, add_assoc]

/-- **Nothing is returned when no line short enough begins before the
end.** -/
theorem next_eq_none (h : ∀ k, FirstShort r.maxLineLength r.rest k → r.endPos ≤ r.pos + k) :
    r.next = none := by
  induction hn : (r.endPos - r.pos).toNat using Nat.strong_induction_on generalizing r with
  | _ n ih =>
    subst hn
    rcases le_or_gt r.endPos r.pos with hend | hlt
    · exact next_of_le hend
    rcases Nat.eq_zero_or_pos r.newSize with hzero | hpos
    · rw [next_eq hlt, if_pos hzero]
    have hne : r.rest ≠ [] := by
      intro hnil
      have hcases := r.newSize_cases
      rw [hnil, show pieceLength [] = 0 from rfl] at hcases
      omega
    -- a short line here would begin before the end
    have hlong : r.maxLineLength ≤ pieceLength r.rest := by
      by_contra hshort
      have hend := h 0 (.here hne (not_le.1 hshort))
      omega
    have hnewSize : r.maxLineLength ≤ r.newSize := by
      rcases r.newSize_cases with hpiece | ⟨-, hle, -⟩ <;> omega
    rw [next_of_long hlt hpos.ne' hnewSize]
    refine ih _ ?_ (fun k hk => ?_) rfl
    · simp only [advance]
      omega
    · simp only [advance] at hk ⊢
      rcases r.newSize_cases with hpiece | ⟨hend, -, -⟩
      · rw [hpiece] at hk ⊢
        have hend := h _ (.skip hne hlong hk)
        push_cast at hend
        omega
      · omega

theorem readAll_of_none (h : r.next = none) : r.readAll = [] := by
  rw [readAll]
  split
  · rfl
  · rename_i h'
    rw [h] at h'
    simp at h'

theorem readAll_of_some {r' : StreamReader} {record : ℤ × List UInt8}
    (h : r.next = some (record, r')) : r.readAll = record :: r'.readAll := by
  rw [readAll]
  split
  · rename_i h'
    rw [h] at h'
    simp at h'
  · rename_i h'
    rw [h] at h'
    obtain ⟨rfl, rfl⟩ := Prod.mk.inj (Option.some.inj h')
    rfl

/-- A reader returns no record exactly when no line short enough begins
before its end. -/
theorem readAll_eq_nil_iff :
    r.readAll = [] ↔ ∀ k, FirstShort r.maxLineLength r.rest k → r.endPos ≤ r.pos + k := by
  constructor
  · intro hnil k hk
    by_contra hlt
    rw [readAll_of_some (next_of_firstShort hk rfl rfl (not_le.1 hlt))] at hnil
    exact List.cons_ne_nil _ _ hnil
  · intro h
    exact readAll_of_none (next_eq_none h)

/-- **What is returned does not depend on the line reader.** -/
theorem readAll_setLineReader (r : StreamReader) (lineReader : LineReader) :
    ({ r with lineReader := lineReader } : StreamReader).readAll = r.readAll := by
  induction hn : (r.endPos - r.pos).toNat using Nat.strong_induction_on generalizing r with
  | _ n ih =>
    subst hn
    by_cases h : ∀ k, FirstShort r.maxLineLength r.rest k → r.endPos ≤ r.pos + k
    · rw [readAll_eq_nil_iff.2 h, readAll_eq_nil_iff]
      exact h
    · push Not at h
      obtain ⟨k, hk, hlt⟩ := h
      have hnext := next_of_firstShort hk rfl rfl hlt
      obtain ⟨hbefore, hforward, -⟩ := lt_of_next hnext
      rw [readAll_of_some hnext,
        readAll_of_some (r := { r with lineReader := lineReader })
          (next_of_firstShort hk rfl rfl hlt),
        ← ih _ ?_ (r.advance (k + pieceLength (r.rest.drop k))) rfl]
      · rfl
      · simp only [advance] at hforward ⊢
        omega

theorem readAll_of_short (hlt : r.pos < r.endPos) (hne : r.rest ≠ [])
    (hshort : pieceLength r.rest < r.maxLineLength) :
    r.readAll = (r.pos, RecordReader.valueOf (body 13 10 r.rest)) ::
      (r.advance (pieceLength r.rest)).readAll :=
  readAll_of_some (next_of_short hlt hne hshort)

/-! ## The two constructors -/

variable (lineReader lineReader' : LineReader) (content : List UInt8) (offset endOffset : ℤ)
  (maxLineLength : BitVec 32)

/-- The reader of a stream that a reader of a split is. -/
structure Same (r : RecordReader) (s : StreamReader) : Prop where
  lineReader : s.lineReader = r.lineReader
  maxLineLength : s.maxLineLength = r.maxLineLength
  pos : s.pos = r.pos
  endPos : s.endPos = r.endPos
  rest : s.rest = r.rest

variable {r : RecordReader} {s : StreamReader}

theorem Same.advance (h : Same r s) (newSize : ℕ) :
    Same (r.advance newSize) (s.advance newSize) where
  lineReader := h.lineReader
  maxLineLength := h.maxLineLength
  pos := by
    simp only [StreamReader.advance, RecordReader.advance, h.pos, Nat.cast_add]
  endPos := h.endPos
  rest := by
    simp only [StreamReader.advance, RecordReader.advance, h.rest]

theorem Same.pos_lt_iff (h : Same r s) : s.pos < s.endPos ↔ r.pos < r.endPos := by
  rw [h.pos, h.endPos, Nat.cast_lt]

theorem Same.lt_maxLineLength_iff (h : Same r s) (newSize : ℕ) :
    (newSize : ℤ) < s.maxLineLength ↔ newSize < r.maxLineLength := by
  rw [h.maxLineLength, Nat.cast_lt]

/-- Both read the same line. -/
theorem Same.readLine (h : Same r s) (hlt : r.pos < r.endPos) :
    s.lineReader.readLine s.rest s.maxLineLength.toNat s.maxBytesToConsume =
      r.lineReader.readLine r.rest r.maxLineLength
        (max (min intMax (r.endPos - r.pos)) r.maxLineLength) := by
  have hbytes : s.maxBytesToConsume =
      max (min intMax (r.endPos - r.pos)) r.maxLineLength := by
    unfold maxBytesToConsume
    rw [h.maxLineLength, h.pos, h.endPos]
    omega
  rw [hbytes, h.lineReader, h.rest, h.maxLineLength, Int.toNat_natCast]

/-- **One call.** -/
theorem Same.next (h : Same r s) :
    r.next = none ∧ s.next = none ∨
      ∃ record r' s', r.next = some (record, r') ∧ s.next = some ((↑record.1, record.2), s') ∧
        Same r' s' := by
  induction r using RecordReader.next.induct generalizing s with
  | case1 r hlt line hread =>
    left
    rw [RecordReader.next, StreamReader.next, if_pos hlt, if_pos (h.pos_lt_iff.2 hlt),
      h.readLine hlt, hread]
    exact ⟨rfl, rfl⟩
  | case2 r hlt line newSize hread hzero hshort =>
    right
    rw [RecordReader.next, StreamReader.next, if_pos hlt, if_pos (h.pos_lt_iff.2 hlt),
      h.readLine hlt, hread]
    simp only [if_neg hzero, if_pos hshort, if_pos ((h.lt_maxLineLength_iff _).2 hshort)]
    exact ⟨_, _, _, rfl, by rw [h.pos], h.advance newSize⟩
  | case3 r hlt line newSize hread hzero hlong ih =>
    rw [RecordReader.next, StreamReader.next, if_pos hlt, if_pos (h.pos_lt_iff.2 hlt),
      h.readLine hlt, hread]
    simp only [if_neg hzero, if_neg hlong, if_neg (mt (h.lt_maxLineLength_iff _).1 hlong)]
    exact ih (h.advance newSize)
  | case4 r hend =>
    left
    rw [RecordReader.next, StreamReader.next, if_neg hend, if_neg (mt h.pos_lt_iff.1 hend)]
    exact ⟨rfl, rfl⟩

/-- **All calls**: what a reader of a split returns is what the reader of
the stream at the same position returns. -/
theorem Same.readAll (h : Same r s) :
    s.readAll = r.readAll.map fun record => (↑record.1, record.2) := by
  induction hn : r.endPos - r.pos using Nat.strong_induction_on generalizing r s with
  | _ n ih =>
    subst hn
    obtain ⟨hr, hs⟩ | ⟨record, r', s', hr, hs, hsame⟩ := h.next
    · rw [readAll_of_none hs, RecordReader.readAll_of_none hr, List.map_nil]
    · obtain ⟨hlt, -, hforward, hend⟩ := RecordReader.lt_of_next hr
      rw [readAll_of_some hs, RecordReader.readAll_of_some hr, List.map_cons,
        ih _ (by omega) hsame rfl]

end StreamReader

end Hive

end Xpod
