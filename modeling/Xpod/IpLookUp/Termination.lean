import Mathlib.Data.BitVec
import Mathlib.Tactic
import Xpod.Common.Java
import Xpod.Common.Recursion
import Xpod.IpLookUp.Decoding
import Xpod.IpLookUp.Model.Decoder
/-!
# Decoding any bytes

What `decode` does at an offset before it calls itself depends on the
bytes there; the calls then made are for what a pointer points to, or for
the values of an array or a map, one after the other. There is no check
that a pointer does not lead back to where it was met. So `decode` comes to
an end exactly when nothing that is decoded on the way is decoded again
within itself.
-/

namespace Xpod

namespace IpLookUp

open Recursion Relation
open Storm (Text)

/-! ## Exceptions of checks -/

/-- **The exceptions that a check throws**: of the database, of a position
or a limit in the buffer, of the bytes that are left, and of a type. -/
def Checked : Java.Exception → Prop
  | .invalidDatabase _ => True
  | .illegalArgument => True
  | .bufferUnderflow => True
  | .indexOutOfBounds => True
  | _ => False

/-- Nothing but the exceptions of checks is thrown. -/
def OnlyChecked {α : Type} (x : Except Java.Exception α) : Prop := ∀ e, x = .error e → Checked e

namespace OnlyChecked

variable {α β : Type}

theorem ok (a : α) : OnlyChecked (.ok a : Except Java.Exception α) := nofun

theorem error {e : Java.Exception} (h : Checked e) :
    OnlyChecked (.error e : Except Java.Exception α) := by
  intro e' he
  obtain rfl := Except.error.inj he
  exact h

theorem bind {x : Except Java.Exception α} {f : α → Except Java.Exception β} (hx : OnlyChecked x)
    (hf : ∀ a, OnlyChecked (f a)) : OnlyChecked (x >>= f) := by
  intro e he
  rcases Java.bind_eq_error.1 he with hxe | ⟨a, -, hfe⟩
  · exact hx e hxe
  · exact hf a e hfe

theorem position (b : Buffer) (p : BitVec 32) : OnlyChecked (b.position p) := by
  unfold Buffer.position
  split
  · exact error trivial
  · exact ok _

theorem get (b : Buffer) (pos : ℕ) : OnlyChecked (b.get pos) := by
  unfold Buffer.get
  split
  · exact error trivial
  · exact ok _

theorem getByteArray (b : Buffer) (length pos : ℕ) :
    OnlyChecked (b.getByteArray length pos) := by
  unfold Buffer.getByteArray
  split
  · exact ok _
  · exact error trivial

theorem slice (b : Buffer) (size pos : ℕ) : OnlyChecked (b.slice size pos) := by
  unfold Buffer.slice
  split
  · exact ok _
  · exact error trivial

theorem kind (i : BitVec 32) : OnlyChecked (Kind.get i) := by
  unfold Kind.get
  split
  · exact error trivial
  · exact ok _

theorem shiftIn (b : Buffer) {w : ℕ} (integer : BitVec w) (size pos : ℕ) :
    OnlyChecked (shiftIn b integer size pos) := by
  induction size generalizing integer pos with
  | zero => exact ok _
  | succ size ih => exact bind (get b pos) fun _ => ih _ _

variable (d : Decoder)

theorem decodePointer (ctrlByte offset : BitVec 32) (pos : ℕ) :
    OnlyChecked (d.decodePointer ctrlByte offset pos) :=
  bind (shiftIn _ _ _ _) fun _ => ok _

theorem sizeFromCtrlByte (ctrlByte offset : BitVec 32) (pos : ℕ) :
    OnlyChecked (d.sizeFromCtrlByte ctrlByte offset pos) := by
  unfold Decoder.sizeFromCtrlByte
  dsimp only
  split
  · exact bind (shiftIn _ _ _ _) fun _ => ok _
  split
  · exact bind (shiftIn _ _ _ _) fun _ => ok _
  split
  · exact bind (shiftIn _ _ _ _) fun _ => ok _
  · exact ok _

theorem extendedKind (nextByte : UInt8) : OnlyChecked (Decoder.extendedKind nextByte) := by
  unfold Decoder.extendedKind
  dsimp only
  split
  · exact error trivial
  · exact kind _

theorem decodeBoolean (size : ℕ) : OnlyChecked (Decoder.decodeBoolean size) := by
  unfold Decoder.decodeBoolean
  split
  · exact ok _
  · exact ok _
  · exact error trivial

theorem decodeDouble (size pos : ℕ) : OnlyChecked (d.decodeDouble size pos) := by
  unfold Decoder.decodeDouble
  split
  · exact error trivial
  · exact bind (getByteArray _ _ _) fun _ => ok _

theorem decodeFloat (size pos : ℕ) : OnlyChecked (d.decodeFloat size pos) := by
  unfold Decoder.decodeFloat
  split
  · exact error trivial
  · exact bind (getByteArray _ _ _) fun _ => ok _

end OnlyChecked

/-! ## What is known before any other value is decoded -/

/-- **What stands at an offset**: a value without others in it, a pointer, or
an array or a map of so many values from an offset on. -/
inductive Head
  | scalar (result : Result)
  | pointer (target newOffset : BitVec 32)
  | array (size : ℕ) (offset : BitVec 32)
  | map (size : ℕ) (offset : BitVec 32)

namespace Decoder

variable (d : Decoder)

/-- What `decodeByType` knows before it decodes other values. -/
def headByType (kind : Kind) (offset size : BitVec 32) (pos : ℕ) :
    Except Java.Exception Head :=
  match kind with
  | .map => .ok (.map size.toNat offset)
  | .array => .ok (.array size.toNat offset)
  | kind => do
    let result ← d.decodeByType (fun _ => .error .stackOverflow) kind offset size pos
    return .scalar result

/-- What `decode` knows before it decodes other values. -/
def head (offset : BitVec 32) : Except Java.Exception Head := do
  if d.buffer.bytes.length ≤ offset.toInt then
    .error (.invalidDatabase ("The MaxMind DB file's data section contains bad data: " ++
      "pointer larger than the database."))
  else
    let pos ← d.buffer.position offset
    let (x, pos) ← d.buffer.get pos
    let ctrlByte := unsigned 32 x
    let offset := offset + 1
    let kind ← Kind.fromControlByte ctrlByte
    if kind = .pointer then
      let (pointer, newOffset) ← d.decodePointer ctrlByte offset pos
      return .pointer (pointer.setWidth 32) newOffset
    else if kind = .extended then
      let (nextByte, pos) ← d.buffer.get pos
      let kind ← extendedKind nextByte
      let (size, offset, pos) ← d.sizeFromCtrlByte ctrlByte (offset + 1) pos
      d.headByType kind offset size pos
    else
      let (size, offset, pos) ← d.sizeFromCtrlByte ctrlByte offset pos
      d.headByType kind offset size pos

end Decoder

/-- A program that may call `decode`. -/
abbrev Decoding (ρ : Type) : Type := Prog (BitVec 32) Result Java.Exception ρ

/-- So many values from an offset on, each decoded by a call. -/
def callValues : ℕ → BitVec 32 → Decoding (List JsonNode × BitVec 32)
  | 0, offset => .ret ([], offset)
  | n + 1, offset => .call offset fun r =>
    (callValues n r.2).bind fun rs => .ret (r.1 :: rs.1, rs.2)

/-- What `decode` does with what it knows. -/
def Head.prog (rendered : JsonNode → Text) : Head → Decoding Result
  | scalar result => .ret result
  | pointer target newOffset => .call target fun r => .ret (r.1, newOffset)
  | array size offset => (callValues size offset).bind fun rs => .ret (.array rs.1, rs.2)
  | map size offset => (callValues (2 * size) offset).bind fun rs =>
    .ret (.object (putAll (readMembers rendered rs.1) []), rs.2)

namespace Decoder

variable (d : Decoder)

/-- **The body of `decode`.** -/
def body (offset : BitVec 32) : Decoding Result :=
  match d.head offset with
  | .error e => .throw e
  | .ok head => head.prog d.rendered

/-- **Decoding the value at one offset decodes the one at another**: a
pointer to it stands there, or an array or a map that it is in, behind
values that can be decoded. -/
def Calls (offset offset' : BitVec 32) : Prop := Recursion.Calls d.body offset offset'

/-! ### The model of the source -/

variable {d} {decode : BitVec 32 → Except Java.Exception Result}

theorem run_callValues (n : ℕ) (offset : BitVec 32) :
    (callValues n offset).run decode = decodeValues decode n offset := by
  induction n generalizing offset with
  | zero => rfl
  | succ n ih =>
    rw [callValues, decodeValues, Prog.run]
    rcases decode offset with e | ⟨node, next⟩
    · rfl
    · simp only [Java.ok_bind, Prog.run_bind, ih]
      rfl

/-- Only of arrays and maps are the values decoded by calls. -/
theorem decodeByType_of_ne (decode : BitVec 32 → Except Java.Exception Result) {kind : Kind}
    (hmap : kind ≠ .map) (harray : kind ≠ .array) (offset size : BitVec 32) (pos : ℕ) :
    d.headByType kind offset size pos =
      d.decodeByType decode kind offset size pos >>= fun result => .ok (.scalar result) := by
  cases kind with
  | map => exact absurd rfl hmap
  | array => exact absurd rfl harray
  | _ => rfl

theorem decodeByType_eq (kind : Kind) (offset size : BitVec 32) (pos : ℕ) :
    d.decodeByType decode kind offset size pos =
      d.headByType kind offset size pos >>= fun head => (head.prog d.rendered).run decode := by
  by_cases hmap : kind = .map
  · subst hmap
    rw [headByType, Java.ok_bind, Head.prog, Prog.run_bind, run_callValues]
    exact decodeMap_eq d size.toNat offset []
  by_cases harray : kind = .array
  · subst harray
    rw [headByType, Java.ok_bind, Head.prog, Prog.run_bind, run_callValues]
    exact decodeArray_eq size.toNat offset []
  · rw [decodeByType_of_ne decode hmap harray]
    rcases d.decodeByType decode kind offset size pos with e | result
    · rfl
    · rfl

theorem run_body (offset : BitVec 32) :
    (d.body offset).run decode =
      d.head offset >>= fun head => (head.prog d.rendered).run decode := by
  unfold body
  rcases d.head offset with e | head
  · rfl
  · rfl

/-- **One call of `decode` runs its body.** -/
theorem decode_eq_run (stack : ℕ) (offset : BitVec 32) :
    d.decode (stack + 1) offset = (d.body offset).run (d.decode stack) := by
  rw [run_body, Decoder.decode, head]
  -- a step that fails fails on both sides
  split
  · rfl
  rcases d.buffer.position offset with e | pos
  · rfl
  simp only [Java.ok_bind]
  rcases d.buffer.get pos with e | ⟨x, pos⟩
  · rfl
  simp only [Java.ok_bind]
  rcases Kind.fromControlByte (unsigned 32 x) with e | kind
  · rfl
  simp only [Java.ok_bind]
  split
  · rcases d.decodePointer (unsigned 32 x) (offset + 1) pos with e | ⟨pointer, newOffset⟩
    · rfl
    · rfl
  split
  · rcases d.buffer.get pos with e | ⟨nextByte, pos⟩
    · rfl
    simp only [Java.ok_bind]
    rcases extendedKind nextByte with e | kind
    · rfl
    simp only [Java.ok_bind]
    rcases d.sizeFromCtrlByte (unsigned 32 x) (offset + 1 + 1) pos with e | ⟨size, offset, pos⟩
    · rfl
    · exact decodeByType_eq kind offset size pos
  · rcases d.sizeFromCtrlByte (unsigned 32 x) (offset + 1) pos with e | ⟨size, offset, pos⟩
    · rfl
    · exact decodeByType_eq kind offset size pos

theorem decode_eq_eval (stack : ℕ) (offset : BitVec 32) :
    d.decode stack offset = eval d.body .stackOverflow stack offset := by
  induction stack generalizing offset with
  | zero => rfl
  | succ stack ih => rw [decode_eq_run, eval, funext ih]

/-! ### What the body throws -/

theorem onlyChecked_decodeByType {kind : Kind} (hmap : kind ≠ .map) (harray : kind ≠ .array)
    (offset size : BitVec 32) (pos : ℕ) :
    OnlyChecked (d.decodeByType decode kind offset size pos) := by
  cases kind with
  | map => exact absurd rfl hmap
  | array => exact absurd rfl harray
  | boolean => exact .bind (.decodeBoolean _) fun _ => .ok _
  | utf8String => exact .bind (.bind (.slice _ _ _) fun _ => .ok _) fun _ => .ok _
  | double => exact .bind (.decodeDouble _ _ _) fun _ => .ok _
  | float => exact .bind (.decodeFloat _ _ _) fun _ => .ok _
  | bytes => exact .bind (.getByteArray _ _ _) fun _ => .ok _
  | uint16 => exact .bind (.shiftIn _ _ _ _) fun _ => .ok _
  | uint32 => exact .bind (.shiftIn _ _ _ _) fun _ => .ok _
  | int32 => exact .bind (.shiftIn _ _ _ _) fun _ => .ok _
  | uint64 => exact .bind (.bind (.getByteArray _ _ _) fun _ => .ok _) fun _ => .ok _
  | uint128 => exact .bind (.bind (.getByteArray _ _ _) fun _ => .ok _) fun _ => .ok _
  | extended => exact .error trivial
  | pointer => exact .error trivial
  | container => exact .error trivial
  | endMarker => exact .error trivial

theorem onlyChecked_headByType (kind : Kind) (offset size : BitVec 32) (pos : ℕ) :
    OnlyChecked (d.headByType kind offset size pos) := by
  by_cases hmap : kind = .map
  · subst hmap
    exact .ok _
  by_cases harray : kind = .array
  · subst harray
    exact .ok _
  · rw [decodeByType_of_ne (fun _ => .error .stackOverflow) hmap harray]
    exact .bind (onlyChecked_decodeByType hmap harray _ _ _) fun _ => .ok _

theorem onlyChecked_head (offset : BitVec 32) : OnlyChecked (d.head offset) := by
  unfold head
  split
  · exact .error trivial
  refine .bind (.position _ _) fun pos => .bind (.get _ _) fun _ => .bind (.kind _) fun kind => ?_
  split
  · exact .bind (.decodePointer _ _ _ _) fun _ => .ok _
  split
  · exact .bind (.get _ _) fun _ => .bind (.extendedKind _) fun _ =>
      .bind (.sizeFromCtrlByte _ _ _ _) fun _ => onlyChecked_headByType _ _ _ _
  · exact .bind (.sizeFromCtrlByte _ _ _ _) fun _ => onlyChecked_headByType _ _ _ _

theorem throws_callValues (n : ℕ) (offset : BitVec 32) :
    (callValues n offset).Throws Checked := by
  induction n generalizing offset with
  | zero => trivial
  | succ n ih => exact fun r => Prog.throws_bind (ih r.2) fun _ => trivial

theorem throws_body (offset : BitVec 32) : (d.body offset).Throws Checked := by
  unfold body
  split
  · rename_i e he
    exact onlyChecked_head offset e he
  · rename_i head _
    cases head with
    | scalar result => trivial
    | pointer target newOffset => exact fun _ => trivial
    | array size offset => exact Prog.throws_bind (throws_callValues _ _) fun _ => trivial
    | map size offset => exact Prog.throws_bind (throws_callValues _ _) fun _ => trivial

end Decoder

/-! ## Which bytes are decoded -/

namespace Decoder

variable (d : Decoder)

/-- **Decoding comes to an end**: on every stack that is large enough, with
the same value or with the same exception of a check. -/
def Finishes (offset : BitVec 32) : Prop :=
  ∃ stack outcome, (∀ stack' ≥ stack, d.decode stack' offset = outcome) ∧
    ((∃ result, outcome = .ok result) ∨ ∃ e, Checked e ∧ outcome = .error e)

theorem finishes_iff_ne (offset : BitVec 32) :
    d.Finishes offset ↔ ∃ stack, d.decode stack offset ≠ .error .stackOverflow := by
  constructor
  · rintro ⟨stack, outcome, hstack, houtcome⟩
    refine ⟨stack, fun h => ?_⟩
    rw [hstack stack le_rfl] at h
    rcases houtcome with ⟨result, rfl⟩ | ⟨e, hchecked, rfl⟩
    · exact nomatch h
    · obtain rfl := Except.error.inj h
      exact hchecked
  · rintro ⟨stack, h⟩
    refine ⟨stack, d.decode stack offset, fun stack' hle => ?_, ?_⟩
    · rw [decode_eq_eval] at h ⊢
      rw [decode_eq_eval, eval_mono hle h]
    · rcases hdecode : d.decode stack offset with e | result
      · rw [hdecode] at h
        rw [decode_eq_eval] at hdecode
        rcases kind_of_eval throws_body hdecode with rfl | hchecked
        · exact absurd rfl h
        · exact .inr ⟨e, hchecked, rfl⟩
      · exact .inl ⟨result, rfl⟩

/-- A buffer of a pointer to itself. -/
def selfPointer : Decoder where
  buffer := ⟨[0x20, 0x00], by decide⟩
  pointerBase := 0
  rendered _ := []

end Decoder

end IpLookUp

end Xpod
