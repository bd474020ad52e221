import Mathlib.Data.List.Basic
import Mathlib.Tactic
import Xpod.IpLookUp.Buffers
import Xpod.IpLookUp.Model.Reader
/-!
# Where the metadata begins

The metadata stands behind the last marker of the file. The search goes
backwards over the places where a marker may end, and compares each one
backwards, so the first it finds is the last there is.
-/

namespace Xpod

namespace IpLookUp

open Buffer

variable {b : Buffer} {i : ℕ}

/-- The marker ends `i` bytes before the end of the file. -/
def MarkerBefore (b : Buffer) (i : ℕ) : Prop :=
  i + metadataStartMarker.length ≤ b.bytes.length ∧
    b.HasAt (b.bytes.length - i - metadataStartMarker.length) metadataStartMarker

instance decidableMarkerBefore (b : Buffer) (i : ℕ) : Decidable (MarkerBefore b i) :=
  inferInstanceAs (Decidable (_ ∧ _))

/-- The byte compared in turn `j`, and the byte of the marker. -/
theorem markerLoop_eq (hi : i + metadataStartMarker.length ≤ b.bytes.length) {js : List ℕ}
    (hjs : ∀ j ∈ js, j < metadataStartMarker.length) :
    markerLoop b i js = .ok (js.all fun j =>
      b.bytes[b.bytes.length - i - j - 1]? =
        metadataStartMarker[metadataStartMarker.length - j - 1]?) := by
  induction js with
  | nil => rfl
  | cons j js ih =>
    obtain ⟨hj, hjs⟩ := List.forall_mem_cons.1 hjs
    obtain ⟨x, hx⟩ : ∃ x, b.bytes[b.bytes.length - i - j - 1]? = some x :=
      ⟨_, List.getElem?_eq_getElem (by omega)⟩
    obtain ⟨m, hm⟩ :
        ∃ m, metadataStartMarker[metadataStartMarker.length - j - 1]? = some m :=
      ⟨_, List.getElem?_eq_getElem (by omega)⟩
    have hindex : fileSize b - i - j - 1 = ((b.bytes.length - i - j - 1 : ℕ) : ℤ) := by
      unfold fileSize
      omega
    have hindex' : (metadataStartMarker.length : ℤ) - j - 1 =
        ((metadataStartMarker.length - j - 1 : ℕ) : ℤ) := by
      omega
    rw [markerLoop, hindex, hindex', Java.elementAt_natCast hx, Java.elementAt_natCast hm,
      Java.ok_bind, Java.ok_bind, List.all_cons, hx, hm, ih hjs]
    by_cases hxm : x = m
    · simp [hxm]
    · simp [hxm]
      rfl

/-- **The inner loop looks for a marker.** -/
theorem markerLoop_range (hi : i + metadataStartMarker.length ≤ b.bytes.length) :
    markerLoop b i (List.range metadataStartMarker.length) = .ok (decide (MarkerBefore b i)) := by
  rw [markerLoop_eq hi fun j hj => List.mem_range.1 hj, Except.ok.injEq, Bool.eq_iff_iff,
    List.all_eq_true, decide_eq_true_iff, MarkerBefore, and_iff_right hi, HasAt,
    List.prefix_iff_getElem?]
  simp only [List.mem_range, decide_eq_true_iff, List.getElem?_drop]
  -- the comparison goes backwards, so turn `j` is for the byte `length - j - 1`
  constructor
  · intro h k hk
    have hturn := h (metadataStartMarker.length - k - 1) (by omega)
    rw [show metadataStartMarker.length - (metadataStartMarker.length - k - 1) - 1 = k by omega,
      List.getElem?_eq_getElem hk] at hturn
    rw [← hturn]
    congr 1
    omega
  · intro h j hj
    have hbyte := h (metadataStartMarker.length - j - 1) (by omega)
    rw [List.getElem?_eq_getElem (l := metadataStartMarker) (by omega), ← hbyte]
    congr 1
    omega

/-- What is thrown where there is no marker. -/
def noMarker (dbName : Option String) : Java.Exception :=
  .invalidDatabase ("Could not find DB metadata marker in this file (" ++ Java.text dbName ++
    "). Is this a valid DB file?")

/-- **The outer loop takes the first place it finds.** -/
theorem fileLoop_eq (dbName : Option String) {is : List ℕ}
    (his : ∀ i ∈ is, i + metadataStartMarker.length ≤ b.bytes.length) :
    fileLoop b dbName is = (is.find? fun i => decide (MarkerBefore b i)).elim
      (.error (noMarker dbName)) fun i => .ok (fileSize b - i) := by
  induction is with
  | nil => rfl
  | cons i is ih =>
    obtain ⟨hi, his⟩ := List.forall_mem_cons.1 his
    rw [fileLoop, markerLoop_range hi, Java.ok_bind]
    by_cases hmarker : MarkerBefore b i
    · simp only [List.find?_cons, hmarker, decide_true, if_true]
      rfl
    · simp only [List.find?_cons, hmarker, decide_false, Bool.false_eq_true, if_false]
      exact ih his

/-- Where a marker stands, it ends some bytes before the end of the file. -/
theorem exists_markerBefore {q : ℕ} (h : b.HasAt q metadataStartMarker) :
    ∃ i, MarkerBefore b i ∧ q + metadataStartMarker.length + i = b.bytes.length := by
  have hle : q + metadataStartMarker.length ≤ b.bytes.length := h.le (by decide)
  refine ⟨b.bytes.length - q - metadataStartMarker.length, ⟨by omega, ?_⟩, by omega⟩
  rwa [show b.bytes.length - (b.bytes.length - q - metadataStartMarker.length) -
    metadataStartMarker.length = q by omega]

/-- The place is the last one of a marker. -/
def LastMarkerAt (b : Buffer) (q : ℕ) : Prop :=
  b.HasAt q metadataStartMarker ∧ ∀ q' > q, ¬ b.HasAt q' metadataStartMarker

/-- The first turn that finds a marker finds the last marker. -/
theorem find?_eq_some_iff :
    ((List.range (fileSize b - metadataStartMarker.length + 1).toNat).find?
        fun i => decide (MarkerBefore b i)) = some i ↔
      i + metadataStartMarker.length ≤ b.bytes.length ∧
        LastMarkerAt b (b.bytes.length - i - metadataStartMarker.length) := by
  have hlen : metadataStartMarker.length = 12 := rfl
  rw [List.find?_range_eq_some, decide_eq_true_iff]
  constructor
  · rintro ⟨⟨hi, hmarker⟩, -, hfirst⟩
    refine ⟨hi, hmarker, fun q' hq' hlater => ?_⟩
    obtain ⟨i', hmarker', hi'⟩ := exists_markerBefore hlater
    have hno := hfirst i' (by omega)
    simp [hmarker'] at hno
  · rintro ⟨hi, hmarker, hlast⟩
    refine ⟨⟨hi, hmarker⟩, ?_, fun i' hi' => ?_⟩
    · rw [List.mem_range]
      unfold fileSize
      omega
    · have hlater := hlast (b.bytes.length - i' - metadataStartMarker.length) (by omega)
      simp [MarkerBefore, hlater]

theorem find?_eq_none_iff :
    ((List.range (fileSize b - metadataStartMarker.length + 1).toNat).find?
        fun i => decide (MarkerBefore b i)) = none ↔ ∀ q, ¬ b.HasAt q metadataStartMarker := by
  have hlen : metadataStartMarker.length = 12 := rfl
  rw [List.find?_eq_none]
  constructor
  · intro hnone q hmarker
    obtain ⟨i, hi, heq⟩ := exists_markerBefore hmarker
    refine hnone i ?_ (decide_eq_true hi)
    rw [List.mem_range]
    unfold fileSize
    omega
  · intro hnone i _ hi
    exact hnone _ (of_decide_eq_true hi).2

theorem findMetadataStart_eq (b : Buffer) (dbName : Option String) :
    findMetadataStart b dbName =
      ((List.range (fileSize b - metadataStartMarker.length + 1).toNat).find?
        fun i => decide (MarkerBefore b i)).elim
        (.error (noMarker dbName)) fun i => .ok (fileSize b - i) := by
  refine fileLoop_eq dbName fun i hi => ?_
  rw [List.mem_range, fileSize] at hi
  omega

/-- **The metadata begins behind the last marker.** For every buffer the
search returns a place if and only if a marker ends there and none stands
behind it, and throws if and only if there is none at all. It never reads
outside the buffer. -/
theorem findMetadataStart_finds_last (b : Buffer) (dbName : Option String) :
    (∀ p, findMetadataStart b dbName = .ok p ↔
        ∃ q : ℕ, p = q + metadataStartMarker.length ∧ LastMarkerAt b q) ∧
      (findMetadataStart b dbName = .error (noMarker dbName) ↔
        ∀ q, ¬ b.HasAt q metadataStartMarker) ∧
      findMetadataStart b dbName ≠ .error .indexOutOfBounds := by
  rw [findMetadataStart_eq, ← find?_eq_none_iff]
  rcases hfind : (List.range (fileSize b - metadataStartMarker.length + 1).toNat).find?
    fun i => decide (MarkerBefore b i) with - | i
  · refine ⟨fun p => ⟨?_, ?_⟩, by simp, by simp [noMarker]⟩
    · intro h
      simp at h
    · rintro ⟨q, -, hmarker, -⟩
      exact absurd hmarker (find?_eq_none_iff.1 hfind q)
  · obtain ⟨hi, hlast⟩ := find?_eq_some_iff.1 hfind
    refine ⟨fun p => ⟨?_, ?_⟩, by simp, by simp⟩
    · intro h
      refine ⟨_, ?_, hlast⟩
      rw [← Except.ok.inj h, fileSize]
      omega
    · rintro ⟨q, rfl, hq⟩
      -- two last places are one
      have hsame : q = b.bytes.length - i - metadataStartMarker.length := by
        by_contra hne
        rcases lt_or_gt_of_ne hne with hlt | hlt
        · exact hq.2 _ hlt hlast.1
        · exact hlast.2 _ hlt hq.1
      rw [Option.elim_some, fileSize, hsame]
      congr 1
      omega

end IpLookUp

end Xpod
