import Mathlib.Data.List.Basic
import Mathlib.Tactic
import Xpod.Common.Lines
import Xpod.Common.Utf8
/-!
# The record reader of the table format

`MutilCharRecordReader` reads the lines of one split of a file, and puts a
control character where a line has the three letters of a separator. The
first line of a split that does not begin the file belongs to the split
before it.

`LineReader` is of the library: how much a call consumes is known only as
far as the library says.
-/

namespace Xpod

namespace Hive

/-- `Integer.MAX_VALUE` -/
def intMax : ℕ := 2 ^ 31 - 1

/-- `Long.MAX_VALUE` -/
def longMax : ℕ := 2 ^ 63 - 1

/-- **A `LineReader`**: how many bytes `readLine` consumes of what is left,
asked for no more than so many. It consumes the first line, or stops
within it when it has as many as it was asked for; and says so in an
`int`. -/
structure LineReader where
  consumed : List UInt8 → ℕ → ℕ
  whole_or_cut : ∀ rest maxBytesToConsume, maxBytesToConsume ≤ intMax →
    consumed rest maxBytesToConsume = Lines.lineLength 13 10 rest ∨
      maxBytesToConsume ≤ consumed rest maxBytesToConsume ∧
        consumed rest maxBytesToConsume < Lines.lineLength 13 10 rest
  le_intMax : ∀ rest maxBytesToConsume, maxBytesToConsume ≤ intMax →
    consumed rest maxBytesToConsume ≤ intMax

/-- `readLine(str, maxLineLength, maxBytesToConsume)`: what `str` is set to,
and the bytes consumed. -/
def LineReader.readLine (lineReader : LineReader) (rest : List UInt8)
    (maxLineLength maxBytesToConsume : ℕ) : List UInt8 × ℕ :=
  let consumed := lineReader.consumed rest maxBytesToConsume
  ((Lines.body 13 10 rest).take (min consumed maxLineLength), consumed)

/-- `replace("$#$", "\001")` -/
def strReplace : List Char → List Char
  | '$' :: '#' :: '$' :: s => '\u0001' :: strReplace s
  | c :: s => c :: strReplace s
  | [] => []

/-- `FileSplit` -/
structure FileSplit where
  start : ℕ
  length : ℕ

/-- A `MutilCharRecordReader`, with what its line reader has not read yet. -/
structure RecordReader where
  lineReader : LineReader
  maxLineLength : ℕ
  pos : ℕ
  endPos : ℕ
  rest : List UInt8

namespace RecordReader

/-- `MutilCharRecordReader(inputSplit, job)` for a file with this content.
The job may set a longest line, and the file may be compressed. -/
def ofSplit (lineReader : LineReader) (maxlength : Option ℕ)
    (codec : Option (List UInt8 → List UInt8)) (content : List UInt8) (inputSplit : FileSplit) :
    RecordReader :=
  let maxLineLength := maxlength.getD intMax
  let start := inputSplit.start
  let endPos := start + inputSplit.length
  match codec with
  | some createInputStream =>
    ⟨lineReader, maxLineLength, start, longMax, createInputStream content⟩
  | none =>
    if start ≠ 0 then
      let start := start - 1
      let fileIn := content.drop start
      let skipped := (lineReader.readLine fileIn 0 (min intMax (endPos - start))).2
      ⟨lineReader, maxLineLength, start + skipped, endPos, fileIn.drop skipped⟩
    else ⟨lineReader, maxLineLength, start, endPos, content⟩

/-- The value for a line. -/
def valueOf (line : List UInt8) : List UInt8 := Utf8.encode (strReplace (Utf8.decode line))

/-- The reader behind the bytes that were read. -/
def advance (r : RecordReader) (newSize : ℕ) : RecordReader :=
  { r with pos := r.pos + newSize, rest := r.rest.drop newSize }

/-- `next(key, value)`: the key and the value, unless it returns false. -/
def next (r : RecordReader) : Option ((ℕ × List UInt8) × RecordReader) :=
  if r.pos < r.endPos then
    match r.lineReader.readLine r.rest r.maxLineLength
        (max (min intMax (r.endPos - r.pos)) r.maxLineLength) with
    | (line, newSize) =>
      if newSize = 0 then none
      else if newSize < r.maxLineLength then some ((r.pos, valueOf line), r.advance newSize)
      -- line too long, try again
      else (r.advance newSize).next
  else none
termination_by r.endPos - r.pos
decreasing_by
  simp only [advance]
  omega

/-- A call goes forward. -/
theorem lt_of_next {r r' : RecordReader} {record : ℕ × List UInt8}
    (h : r.next = some (record, r')) :
    r.pos < r.endPos ∧ r.pos ≤ record.1 ∧ r.pos < r'.pos ∧ r'.endPos = r.endPos := by
  induction r using next.induct with
  | case1 r hlt line hread =>
    rw [next, if_pos hlt, hread] at h
    exact nomatch h
  | case2 r hlt line newSize hread hzero hshort =>
    rw [next, if_pos hlt, hread] at h
    simp only [if_neg hzero, if_pos hshort] at h
    obtain ⟨rfl, rfl⟩ := Prod.mk.inj (Option.some.inj h)
    exact ⟨hlt, le_rfl, Nat.lt_add_of_pos_right (Nat.pos_of_ne_zero hzero), rfl⟩
  | case3 r hlt line newSize hread hzero hlong ih =>
    rw [next, if_pos hlt, hread] at h
    simp only [if_neg hzero, if_neg hlong] at h
    obtain ⟨-, hkey, hforward, hend⟩ := ih h
    have hle : r.pos ≤ (r.advance newSize).pos := Nat.le_add_right _ _
    exact ⟨hlt, hle.trans hkey, hle.trans_lt hforward, hend⟩
  | case4 r hend =>
    rw [next, if_neg hend] at h
    exact nomatch h

/-- All that `next` returns, until it returns false. -/
def readAll (r : RecordReader) : List (ℕ × List UInt8) :=
  match _h : r.next with
  | none => []
  | some (record, r') => record :: r'.readAll
termination_by r.endPos - r.pos
decreasing_by
  obtain ⟨hlt, -, hforward, hend⟩ := lt_of_next _h
  omega

end RecordReader

/-! ## Readers of a stream

The other two constructors take a stream, with the offsets its caller says
it has. These may be any numbers, and so may the positions be; sums and
differences of them that a `long` cannot hold are no part of this. -/

/-- A `MutilCharRecordReader` of a stream, with what its line reader has not
read yet. -/
structure StreamReader where
  lineReader : LineReader
  maxLineLength : ℤ
  pos : ℤ
  endPos : ℤ
  rest : List UInt8
  maxLineLength_le : maxLineLength ≤ intMax

namespace StreamReader

theorem toInt_le_intMax (n : BitVec 32) : n.toInt ≤ intMax := by
  have hlt := BitVec.toInt_lt (x := n)
  unfold intMax
  omega

/-- `MutilCharRecordReader(in, offset, endOffset, maxLineLength)` -/
def ofMaxLineLength (lineReader : LineReader) (content : List UInt8) (offset endOffset : ℤ)
    (maxLineLength : BitVec 32) : StreamReader :=
  ⟨lineReader, maxLineLength.toInt, offset, endOffset, content, toInt_le_intMax _⟩

/-- `MutilCharRecordReader(in, offset, endOffset, job)` for a job that may
set a longest line: the offset is kept as `start`, and `pos` is left. -/
def ofJob (lineReader : LineReader) (content : List UInt8) (_offset endOffset : ℤ)
    (maxlength : Option (BitVec 32)) : StreamReader :=
  ⟨lineReader, (maxlength.getD (BitVec.intMax 32)).toInt, 0, endOffset, content,
    toInt_le_intMax _⟩

/-- The reader behind the bytes that were read. -/
def advance (r : StreamReader) (newSize : ℕ) : StreamReader :=
  { r with pos := r.pos + newSize, rest := r.rest.drop newSize }

/-- As many bytes are asked for as are left before the end, or as a line
may have. -/
def maxBytesToConsume (r : StreamReader) : ℕ :=
  (max (min (intMax : ℤ) (r.endPos - r.pos)) r.maxLineLength).toNat

/-- `next(key, value)`: the key and the value, unless it returns false. -/
def next (r : StreamReader) : Option ((ℤ × List UInt8) × StreamReader) :=
  if r.pos < r.endPos then
    match r.lineReader.readLine r.rest r.maxLineLength.toNat r.maxBytesToConsume with
    | (line, newSize) =>
      if newSize = 0 then none
      else if newSize < r.maxLineLength then
        some ((r.pos, RecordReader.valueOf line), r.advance newSize)
      -- line too long, try again
      else (r.advance newSize).next
  else none
termination_by (r.endPos - r.pos).toNat
decreasing_by
  simp only [advance]
  omega

/-- A call goes forward. -/
theorem lt_of_next {r r' : StreamReader} {record : ℤ × List UInt8}
    (h : r.next = some (record, r')) :
    r.pos < r.endPos ∧ r.pos < r'.pos ∧ r'.endPos = r.endPos := by
  induction r using next.induct with
  | case1 r hlt line hread =>
    rw [next, if_pos hlt, hread] at h
    exact nomatch h
  | case2 r hlt line newSize hread hzero hshort =>
    rw [next, if_pos hlt, hread] at h
    simp only [if_neg hzero, if_pos hshort] at h
    obtain ⟨rfl, rfl⟩ := Prod.mk.inj (Option.some.inj h)
    refine ⟨hlt, ?_, rfl⟩
    simp only [advance]
    omega
  | case3 r hlt line newSize hread hzero hlong ih =>
    rw [next, if_pos hlt, hread] at h
    simp only [if_neg hzero, if_neg hlong] at h
    obtain ⟨-, hforward, hend⟩ := ih h
    have hle : r.pos ≤ (r.advance newSize).pos := by
      simp only [advance]
      omega
    exact ⟨hlt, hle.trans_lt hforward, hend⟩
  | case4 r hend =>
    rw [next, if_neg hend] at h
    exact nomatch h

/-- All that `next` returns, until it returns false. -/
def readAll (r : StreamReader) : List (ℤ × List UInt8) :=
  match _h : r.next with
  | none => []
  | some (record, r') => record :: r'.readAll
termination_by (r.endPos - r.pos).toNat
decreasing_by
  obtain ⟨hlt, hforward, hend⟩ := lt_of_next _h
  omega

end StreamReader

end Hive

end Xpod
