import Mathlib.Data.List.Basic
import Mathlib.Tactic
import Xpod.Common.Lines
import Xpod.Common.Utf8
import Xpod.Hive.Model.RecordReader
/-!
# The splits of a file

A line belongs to the split in which it begins. A reader of a split stands
at the first line that begins in it, or at its end or behind it when none
does, and reads on while lines begin in it. So the splits of a file have
its lines, each once.

Lines of 2147483647 bytes or more are no part of this: such a line is
skipped as too long, even by the default.
-/

namespace Xpod

namespace Hive

open Lines

/-- A line of the file as the reader returns it. -/
def recordOf (line : ℕ × List UInt8) : ℕ × List UInt8 :=
  (line.1, RecordReader.valueOf (body 13 10 line.2))

/-! ## Reading on -/

namespace RecordReader

variable {r : RecordReader}

theorem readAll_of_none (h : r.next = none) : r.readAll = [] := by
  rw [readAll]
  split
  · rfl
  · rename_i h'
    rw [h] at h'
    simp at h'

theorem readAll_of_some {r' : RecordReader} {record : ℕ × List UInt8}
    (h : r.next = some (record, r')) : r.readAll = record :: r'.readAll := by
  rw [readAll]
  split
  · rename_i h'
    rw [h] at h'
    simp at h'
  · rename_i h'
    rw [h] at h'
    obtain ⟨rfl, rfl⟩ := Prod.mk.inj (Option.some.inj h')
    rfl

theorem readAll_of_le (h : r.endPos ≤ r.pos) : r.readAll = [] := by
  refine readAll_of_none ?_
  rw [next, if_neg (not_lt.2 h)]


/-- By default as many bytes are asked for as an `int` can say. -/
theorem maxBytesToConsume_eq (hmax : r.maxLineLength = intMax) :
    max (min intMax (r.endPos - r.pos)) r.maxLineLength = intMax := by
  rw [hmax]
  exact max_eq_right (min_le_left _ _)

/-- A line that is not too long is read as a whole. -/
theorem next_of_lt (hmax : r.maxLineLength = intMax) (hlt : r.pos < r.endPos) (hne : r.rest ≠ [])
    (hshort : lineLength 13 10 r.rest < intMax) :
    r.next = some ((r.pos, valueOf (body 13 10 r.rest)), r.advance (lineLength 13 10 r.rest)) := by
  have hconsumed : r.lineReader.consumed r.rest intMax = lineLength 13 10 r.rest := by
    rcases r.lineReader.whole_or_cut r.rest intMax le_rfl with hwhole | ⟨hle, hcut⟩
    · exact hwhole
    · omega
  have hbody : (body 13 10 r.rest).length ≤ lineLength 13 10 r.rest := length_body_le _
  have hpos := lineLength_pos (13 : UInt8) 10 hne
  have hread : r.lineReader.readLine r.rest r.maxLineLength intMax =
      (body 13 10 r.rest, lineLength 13 10 r.rest) := by
    unfold LineReader.readLine
    simp only [hconsumed, hmax]
    rw [List.take_of_length_le (by rw [min_eq_left hshort.le]; exact hbody)]
  rw [next, if_pos hlt, maxBytesToConsume_eq hmax, hread]
  simp only [hmax, if_neg hpos.ne', if_pos hshort]

theorem next_of_nil (hmax : r.maxLineLength = intMax) (hnil : r.rest = []) : r.next = none := by
  by_cases hlt : r.pos < r.endPos
  · have hzero : r.lineReader.consumed [] intMax = 0 := by
      rcases r.lineReader.whole_or_cut [] intMax le_rfl with hwhole | ⟨-, hcut⟩
      · exact hwhole
      · exact absurd hcut (Nat.not_lt_zero _)
    rw [next, if_pos hlt, maxBytesToConsume_eq hmax, hnil]
    unfold LineReader.readLine
    simp only [hzero, if_pos]
  · rw [next, if_neg hlt]

/-- **From the beginning of a line, the lines that begin before the end of
the split are read.** -/
theorem readAll_eq (hmax : r.maxLineLength = intMax)
    (hshort : ∀ line ∈ lines 13 10 r.rest, line.length < intMax) :
    r.readAll = ((offsets List.length r.pos (lines 13 10 r.rest)).takeWhile
      fun line => line.1 < r.endPos).map recordOf := by
  induction hrest : r.rest using line_induction (13 : UInt8) 10 generalizing r with
  | nil =>
    rw [readAll_of_none (next_of_nil hmax hrest), lines_nil]
    rfl
  | line xs hne ih =>
    subst hrest
    rcases Nat.lt_or_ge r.pos r.endPos with hlt | hge
    · have hlines : lines 13 10 r.rest = _ := lines_of_ne_nil hne
      rw [hlines] at hshort ⊢
      obtain ⟨hfirst, hbehind⟩ := List.forall_mem_cons.1 hshort
      rw [length_take_lineLength] at hfirst
      have hread := ih (r := r.advance (lineLength 13 10 r.rest)) hmax hbehind rfl
      rw [readAll_of_some (next_of_lt hmax hlt hne hfirst), takeWhile_offsets_cons hlt,
        List.map_cons, length_take_lineLength, hread, recordOf, body_take]
      rfl
    · rw [readAll_of_le hge, takeWhile_offsets hge]
      rfl

end RecordReader

/-! ## Where a split begins -/

section Split

variable {content : List UInt8}

/-- The lines of a file, with their offsets. -/
def fileLines (content : List UInt8) : List (ℕ × List UInt8) :=
  offsets List.length 0 (lines 13 10 content)

/-- **A reader of a split reads the lines that begin in it.** -/
theorem readAll_ofSplit (hshort : ∀ line ∈ lines 13 10 content, line.length < intMax)
    (lineReader : LineReader) (split : FileSplit)
    (hsplit : split.start + split.length ≤ content.length) :
    (RecordReader.ofSplit lineReader none none content split).readAll =
      (((fileLines content).dropWhile fun line => line.1 < split.start).takeWhile
        fun line => line.1 < split.start + split.length).map recordOf := by
  obtain ⟨start, length⟩ := split
  simp only at hsplit ⊢
  by_cases hstart : start = 0
  · subst hstart
    rw [fileLines, dropWhile_offsets le_rfl]
    exact RecordReader.readAll_eq (r := ⟨lineReader, intMax, 0, 0 + length, content⟩) rfl hshort
  · obtain ⟨j, rfl⟩ : ∃ j, start = j + 1 := Nat.exists_eq_succ_of_ne_zero hstart
    have hskip := dropWhile_lines (13 : UInt8) 10 (show j < content.length by omega) 0
    rw [Nat.zero_add] at hskip
    obtain ⟨line, hline, hle⟩ :=
      exists_lineLength_drop_le (13 : UInt8) 10 (show j < content.length by omega)
    have hlt := hle.trans_lt (hshort line hline)
    have hopen : RecordReader.ofSplit lineReader none none content ⟨j + 1, length⟩ =
        let skipped := lineReader.consumed (content.drop j) (min intMax (j + 1 + length - j))
        ⟨lineReader, intMax, j + skipped, j + 1 + length, (content.drop j).drop skipped⟩ := rfl
    rw [hopen, fileLines, hskip]
    rcases lineReader.whole_or_cut (content.drop j) _ (min_le_left intMax (j + 1 + length - j))
      with hwhole | ⟨hbytes, hcut⟩
    · -- the line in which the split begins is skipped
      simp only [hwhole, List.drop_drop]
      refine RecordReader.readAll_eq (r := ⟨lineReader, intMax, _, j + 1 + length, _⟩) rfl ?_
      intro line hline
      refine hshort line ?_
      have hbehind := congrArg (List.map Prod.snd) hskip
      rw [map_snd_offsets] at hbehind
      rw [← hbehind] at hline
      rw [← map_snd_offsets List.length 0 (lines 13 10 content)]
      exact List.map_subset _ (List.dropWhile_suffix _).subset hline
    · -- or it goes on to the end of the split
      have hend : j + 1 + length ≤
          j + lineReader.consumed (content.drop j) (min intMax (j + 1 + length - j)) := by
        omega
      rw [takeWhile_offsets (by omega)]
      exact RecordReader.readAll_of_le hend

end Split

/-! ## All splits -/

/-- What is read of a file cut into splits of these lengths, each with a
line reader of its own. -/
def readSplits (content : List UInt8) : ℕ → List (ℕ × LineReader) → List (ℕ × List UInt8)
  | _, [] => []
  | start, (length, lineReader) :: cuts =>
    (RecordReader.ofSplit lineReader none none content ⟨start, length⟩).readAll ++
      readSplits content (start + length) cuts

/-- **The splits from an offset on have the lines that begin there or
later.** -/
theorem readSplits_eq {content : List UInt8}
    (hshort : ∀ line ∈ lines 13 10 content, line.length < intMax) {start : ℕ}
    {cuts : List (ℕ × LineReader)} (hcuts : start + (cuts.map Prod.fst).sum = content.length) :
    readSplits content start cuts =
      ((fileLines content).dropWhile fun line => line.1 < start).map recordOf := by
  induction cuts generalizing start with
  | nil =>
    have hall := dropWhile_lines_length (13 : UInt8) 10 content 0
    rw [List.map_nil, List.sum_nil, Nat.add_zero] at hcuts
    rw [Nat.zero_add] at hall
    rw [readSplits, hcuts, fileLines, hall]
    rfl
  | cons cut cuts ih =>
    obtain ⟨length, lineReader⟩ := cut
    rw [List.map_cons, List.sum_cons] at hcuts
    have hwithin : ∀ line : ℕ × List UInt8,
        decide (line.1 < start) = true → decide (line.1 < start + length) = true := by
      intro line hline
      rw [decide_eq_true_eq] at hline ⊢
      omega
    have hsplit : start + length ≤ content.length := by omega
    rw [readSplits, readAll_ofSplit hshort lineReader ⟨start, length⟩ hsplit,
      ih (by omega), ← dropWhile_dropWhile hwithin, ← List.map_append,
      List.takeWhile_append_dropWhile]

/-- **The lines of a text as records**: the offset of each in bytes, and
what stands in it, with the separators replaced. -/
def textRecords (s : List Char) : List (ℕ × List UInt8) :=
  (offsets (fun line => (Utf8.encode line).length) 0 (lines '\r' '\n' s)).map fun line =>
    (line.1, Utf8.encode (strReplace (body '\r' '\n' line.2)))

theorem map_recordOf_fileLines (s : List Char) :
    (fileLines (Utf8.encode s)).map recordOf = textRecords s := by
  rw [fileLines, lines_encode, map_offsets, List.map_map, textRecords]
  refine List.map_congr_left fun line _ => ?_
  rw [Function.comp_apply, recordOf, RecordReader.valueOf, body_encode, Utf8.decode_encode]

/-! ## Lines that are too long -/

/-- A line that is too long is skipped, or as much of it as was consumed. -/
theorem RecordReader.next_of_long {r : RecordReader} (hmax : r.maxLineLength = intMax)
    (hlt : r.pos < r.endPos) (hlong : intMax ≤ lineLength 13 10 r.rest) :
    ∃ newSize, intMax ≤ newSize ∧ r.next = (r.advance newSize).next := by
  have hconsumed : intMax ≤ r.lineReader.consumed r.rest intMax := by
    rcases r.lineReader.whole_or_cut r.rest intMax le_rfl with hwhole | ⟨hle, -⟩
    · rwa [hwhole]
    · exact hle
  have hne : r.lineReader.consumed r.rest intMax ≠ 0 :=
    (lt_of_lt_of_le (by decide) hconsumed).ne'
  refine ⟨r.lineReader.consumed r.rest intMax, hconsumed, ?_⟩
  rw [next, if_pos hlt, maxBytesToConsume_eq hmax]
  unfold LineReader.readLine
  simp only [hmax, if_neg hne, if_neg (not_lt.2 hconsumed)]

/-- It is not returned under its key. -/
theorem RecordReader.lt_key_of_long {r : RecordReader} (hmax : r.maxLineLength = intMax)
    (hlong : intMax ≤ lineLength 13 10 r.rest) {record : ℕ × List UInt8} {r' : RecordReader}
    (h : r.next = some (record, r')) : r.pos < record.1 := by
  obtain ⟨hlt, -⟩ := lt_of_next h
  obtain ⟨newSize, hnewSize, hnext⟩ := next_of_long hmax hlt hlong
  rw [hnext] at h
  obtain ⟨-, hkey, -⟩ := lt_of_next h
  have hadvance : (r.advance newSize).pos = r.pos + newSize := rfl
  have hpositive : 0 < intMax := by decide
  omega

/-- **A reader that returns every line has none that is too long.** -/
theorem RecordReader.short_of_readAll {r : RecordReader} (hmax : r.maxLineLength = intMax)
    (hend : r.endPos = r.pos + r.rest.length)
    (h : r.readAll = (offsets List.length r.pos (lines 13 10 r.rest)).map recordOf) :
    ∀ line ∈ lines 13 10 r.rest, line.length < intMax := by
  induction hrest : r.rest using line_induction (13 : UInt8) 10 generalizing r with
  | nil =>
    rw [lines_nil]
    exact fun line hline => absurd hline List.not_mem_nil
  | line xs hne ih =>
    subst hrest
    have hpos := List.length_pos_iff.2 hne
    have hle := lineLength_le (13 : UInt8) 10 r.rest
    have hlines : lines 13 10 r.rest = _ := lines_of_ne_nil hne
    rw [hlines] at h ⊢
    rw [offsets, List.map_cons, length_take_lineLength] at h
    rcases Nat.lt_or_ge (lineLength 13 10 r.rest) intMax with hshort | hlong
    · rw [readAll_of_some (next_of_lt hmax (by omega) hne hshort)] at h
      have hbehind := ih (r := r.advance (lineLength 13 10 r.rest)) hmax
        (by simp only [advance, List.length_drop]; omega) (List.cons.inj h).2 rfl
      exact List.forall_mem_cons.2 ⟨by rw [length_take_lineLength]; exact hshort, hbehind⟩
    · -- the first record has the key of a later line
      rcases hnext : r.next with - | ⟨record, r'⟩
      · rw [readAll_of_none hnext] at h
        simp at h
      · have hkey := lt_key_of_long hmax hlong hnext
        rw [readAll_of_some hnext] at h
        obtain ⟨hrecord, -⟩ := List.cons.inj h
        have hfirst := congrArg Prod.fst hrecord
        simp only [recordOf] at hfirst
        omega

/-- A line reader that stops as soon as it may. -/
def LineReader.strict : LineReader where
  consumed rest maxBytesToConsume := min (lineLength 13 10 rest) maxBytesToConsume
  whole_or_cut := by
    intro rest maxBytesToConsume _
    omega
  le_intMax := by
    intro rest maxBytesToConsume h
    omega

/-- **Every way of cutting a file into splits gives its lines, each once and
in order, exactly when none of them is too long.** -/
theorem readSplits_lines_iff (s : List Char) :
    (∀ cuts : List (ℕ × LineReader), (cuts.map Prod.fst).sum = (Utf8.encode s).length →
      readSplits (Utf8.encode s) 0 cuts = textRecords s) ↔
    ∀ line ∈ lines '\r' '\n' s, (Utf8.encode line).length < 2147483647 := by
  have hshort_iff : (∀ line ∈ lines 13 10 (Utf8.encode s), line.length < intMax) ↔
      ∀ line ∈ lines '\r' '\n' s, (Utf8.encode line).length < 2147483647 := by
    rw [lines_encode, List.forall_mem_map]
    rfl
  rw [← hshort_iff]
  constructor
  · intro h
    have hwhole := h [((Utf8.encode s).length, LineReader.strict)]
      (by rw [List.map_singleton, List.sum_singleton])
    rw [readSplits, readSplits, List.append_nil, ← map_recordOf_fileLines] at hwhole
    exact RecordReader.short_of_readAll
      (r := ⟨LineReader.strict, intMax, 0, 0 + (Utf8.encode s).length, Utf8.encode s⟩) rfl rfl
      hwhole
  · intro hshort cuts hcuts
    rw [readSplits_eq hshort (by rw [Nat.zero_add]; exact hcuts), fileLines,
      dropWhile_offsets le_rfl]
    exact map_recordOf_fileLines s

/-! ### The shortest line that is too long -/

section Replicate

variable {n : ℕ}

theorem lineLength_replicate (n : ℕ) : lineLength '\r' '\n' (List.replicate n 'a') = n := by
  have happend : lineLength '\r' '\n' (List.replicate n 'a' ++ []) = _ :=
    lineLength_append (by simp)
  rw [List.append_nil, List.length_replicate] at happend
  exact happend

theorem lines_replicate (hn : n ≠ 0) :
    lines '\r' '\n' (List.replicate n 'a') = [List.replicate n 'a'] := by
  rw [lines_of_ne_nil (by simpa using hn), lineLength_replicate,
    List.take_of_length_le (by simp), List.drop_eq_nil_of_le (by simp), lines_nil]

theorem body_replicate (n : ℕ) : body '\r' '\n' (List.replicate n 'a') = List.replicate n 'a' := by
  induction n with
  | zero => rfl
  | succ n ih =>
    rw [body] at ih ⊢
    rw [List.replicate_succ, List.takeWhile_cons_of_pos (by decide), ih]

theorem strReplace_replicate (n : ℕ) :
    strReplace (List.replicate n 'a') = List.replicate n 'a' := by
  induction n with
  | zero => rfl
  | succ n ih => rw [List.replicate_succ, strReplace, ih]; simp

theorem length_encode_replicate (n : ℕ) : (Utf8.encode (List.replicate n 'a')).length = n := by
  induction n with
  | zero => rfl
  | succ n ih =>
    rw [List.replicate_succ, Utf8.encode_cons, List.length_append, ih]
    exact Nat.add_comm 1 n

/-- A file of one line of that length has no record. -/
theorem readAll_replicate (lineReader : LineReader) (hn : n = intMax) :
    (RecordReader.ofSplit lineReader none none (Utf8.encode (List.replicate n 'a'))
      ⟨0, n⟩).readAll = [] := by
  have hlong : intMax ≤ lineLength 13 10 (Utf8.encode (List.replicate n 'a')) := by
    rw [lineLength_encode, lineLength_replicate, List.take_of_length_le (by simp),
      length_encode_replicate, hn]
  have hpositive : 0 < intMax := by decide
  obtain ⟨newSize, hnewSize, hnext⟩ := RecordReader.next_of_long
    (r := ⟨lineReader, intMax, 0, 0 + n, Utf8.encode (List.replicate n 'a')⟩) rfl
    (by simp only; omega) hlong
  refine RecordReader.readAll_of_none (hnext.trans ?_)
  rw [RecordReader.next, if_neg]
  simp only [RecordReader.advance]
  omega

/-- But the file has that line. -/
theorem textRecords_replicate (hn : n ≠ 0) :
    textRecords (List.replicate n 'a') = [(0, Utf8.encode (List.replicate n 'a'))] := by
  rw [textRecords, lines_replicate hn, offsets, offsets, List.map_singleton, body_replicate,
    strReplace_replicate]

end Replicate

/-- **A line of 2147483647 bytes is lost**: no line reader makes a record of
it. -/
theorem long_line_lost :
    intMax = 2147483647 ∧ (Utf8.encode (List.replicate intMax 'a')).length = intMax ∧
      textRecords (List.replicate intMax 'a') =
        [(0, Utf8.encode (List.replicate intMax 'a'))] ∧
      ∀ lineReader,
        readSplits (Utf8.encode (List.replicate intMax 'a')) 0 [(intMax, lineReader)] = [] := by
  refine ⟨rfl, length_encode_replicate _, textRecords_replicate (by decide),
    fun lineReader => ?_⟩
  rw [readSplits, readSplits, List.append_nil, readAll_replicate lineReader rfl]

end Hive

end Xpod
