import Xpod.LoadIp.Model.Location
import Mathlib.Data.List.Sort
/-!
# The range flattener

`IpClear.java`: `transfer` reads the rows of `cdn_mix` in the order of
their first address and passes disjoint rows to `load`. The object's
fields are the state; the loop runs on fuel, and `Returns` says that more
fuel does not change what it returns.
-/

namespace Xpod

namespace LoadIp

/-- The fields of `IpClear`, the local `count` of `transfer`, the rows
passed to `load` so far and the lines printed. `rs` holds the rows not
read yet: the local `isHaveNext` turns false when it is empty and stays
so. -/
structure IpClear where
  rs : List Location
  last : Option Location := none
  ordLocations : List Location := []
  count : ℤ := 0
  loaded : List Location := []
  out : List String := []
deriving DecidableEq, Repr

namespace IpClear

/-- `LocComprator.compare`. -/
def compare (o1 o2 : Location) : ℤ :=
  if o1.nBeginIp < o2.nBeginIp then -1 else if o1.nBeginIp = o2.nBeginIp then 0 else 1

theorem compare_le_zero {a b : Location} : compare a b ≤ 0 ↔ a.nBeginIp ≤ b.nBeginIp := by
  unfold compare
  split_ifs <;> omega

/-- `Collections.sort(ordLocations, new LocComprator())`. The library's sort
is stable, so it delivers what any stable sort does. -/
def sort (q : List Location) : List Location := q.insertionSort fun a b => compare a b ≤ 0

/-- `load`. Null is skipped. -/
def load (s : IpClear) (ip : Option Location) : IpClear :=
  { s with loaded := s.loaded ++ ip.toList }

/-- `System.out.println`. -/
def println (s : IpClear) (line : String) : IpClear := { s with out := s.out ++ [line] }

/-- The columns `transfer` reads from a row of the result set. -/
def readRow (row : Location) : Location :=
  { beginIp := row.beginIp
    endIp := row.endIp
    nBeginIp := row.nBeginIp
    nEndIp := row.nEndIp
    country := row.country
    province := row.province
    city := row.city
    isp := row.isp }

/-- The head of the loop: read a row if there is one, and choose the
location to work on. `none` when the loop condition is false. -/
def takeCurrent (s : IpClear) : Option (Location × IpClear) :=
  match s.rs, s.ordLocations with
  | [], [] => none
  | row :: rs, [] => some (readRow row, { s with rs := rs })
  | rs, q =>
    match sort (q ++ (rs.take 1).map readRow) with
    | [] => none
    | current :: q => some (current, { s with rs := rs.drop 1, ordLocations := q })

/-- Both ways of choosing are one: sort what waits and the row just read,
and take the first. -/
theorem takeCurrent_eq (s : IpClear) : s.takeCurrent =
    match sort (s.ordLocations ++ (s.rs.take 1).map readRow) with
    | [] => none
    | current :: q => some (current, { s with rs := s.rs.drop 1, ordLocations := q }) := by
  obtain ⟨rs, last, ord, count, loaded, out⟩ := s
  rcases rs with - | ⟨row, rs⟩ <;> rcases ord with - | ⟨l, ord⟩ <;> rfl

/-- The piece `one` of both overlap branches: `last` in front of
`current`. -/
def frontOf (last current : Location) : Option Location :=
  if current.nBeginIp ≠ last.nBeginIp then
    some { last.copy with
      nEndIp := current.nBeginIp - 1
      endIp := some (Util.longToIP (current.nBeginIp - 1)) }
  else none

/-- The piece `three` of the inner branch: `last` behind `current`. -/
def behindOf (last current : Location) : Option Location :=
  if current.nEndIp ≠ last.nEndIp then
    some { last.copy with
      nBeginIp := current.nEndIp + 1
      beginIp := some (Util.longToIP (current.nEndIp + 1)) }
  else none

/-- The inner branch: `current` ends within `last`. -/
def inner (s : IpClear) (last current : Location) : IpClear :=
  let one := frontOf last current
  let two := current.copy
  let three := behindOf last current
  let s := if one.isSome ∧ three.isSome then
    { s.println "plus one" with count := s.count + 1 } else s
  let s := if one.isNone ∧ three.isNone then
    { s.println "decr one" with count := s.count - 1 } else s
  let s := s.load one
  { s with ordLocations := s.ordLocations ++ three.toList, last := some two }

/-- The text both messages of the outer branch begin with. -/
def describe (last current : Location) : String :=
  Java.text last.country ++ "," ++ Java.text last.province ++ ":" ++ Java.text last.beginIp ++
    "\\" ++ Java.text last.endIp ++ "--" ++ Java.text current.country ++ "," ++
    Java.text current.province ++ ":" ++ Java.text current.beginIp ++ "\\" ++
    Java.text current.endIp

/-- A piece as the first message prints it. -/
def bounds (l : Location) : String := Java.text l.beginIp ++ "\\" ++ Java.text l.endIp

/-- The two messages of the outer branch. `country` is dereferenced for
both, so a null one throws here. -/
def report (s : IpClear) (last current : Location) (one : Option Location)
    (two three : Location) : Except Java.Exception IpClear := do
  let lastChina ← Java.equals last.country (some "中国")
  let china ← if lastChina then pure true else Java.equals current.country (some "中国")
  let s := if china then
    s.println (describe last current ++ "==> " ++ (one.map bounds).getD "" ++ "," ++
      bounds two ++ "," ++ bounds three) else s
  let same ← Java.equals last.country current.country
  return if same then s else s.println ("ERROR:" ++ describe last current)

/-- `one` is loaded and counted, if there is one. -/
def loadFront (s : IpClear) (one : Option Location) : IpClear :=
  if one.isSome then { (s.load one).println "plus one" with count := s.count + 1 } else s

@[simp] theorem loadFront_rs (s : IpClear) (one : Option Location) :
    (s.loadFront one).rs = s.rs := by
  unfold loadFront; split <;> rfl

@[simp] theorem loadFront_ordLocations (s : IpClear) (one : Option Location) :
    (s.loadFront one).ordLocations = s.ordLocations := by
  unfold loadFront; split <;> rfl

@[simp] theorem loadFront_loaded (s : IpClear) (one : Option Location) :
    (s.loadFront one).loaded = s.loaded ++ one.toList := by
  rcases one with - | one
  · exact (List.append_nil _).symm
  · rfl

/-- The outer branch: `current` begins within `last` and ends behind it. -/
def outer (s : IpClear) (last current : Location) : Except Java.Exception IpClear := do
  let one := frontOf last current
  let two := { current.copy with
    nEndIp := last.nEndIp
    endIp := some (Util.longToIP last.nEndIp) }
  let three := { current.copy with
    nBeginIp := last.nEndIp + 1
    beginIp := some (Util.longToIP (last.nEndIp + 1)) }
  let s := s.loadFront one
  let s := { s with ordLocations := s.ordLocations ++ [three] }
  let s ← s.report last current one two three
  return { s with last := some two }

/-- The body of the loop, once `current` is chosen. -/
def turn (s : IpClear) (current : Location) : Except Java.Exception IpClear :=
  match s.last with
  | none => .ok { s with last := some current }
  | some last =>
    if current.nEndIp ≤ last.nEndIp then .ok (s.inner last current)
    else if current.nBeginIp ≤ last.nEndIp then s.outer last current
    else .ok { s.load (some last) with last := some current }

/-- The `while` loop; `none` when the fuel does not last. -/
def transferLoop : ℕ → IpClear → Option (Except Java.Exception IpClear)
  | 0, _ => none
  | n + 1, s =>
    match s.takeCurrent with
    | none => some (.ok s)
    | some (current, s) =>
      match s.turn current with
      | .error e => some (.error e)
      | .ok s => transferLoop n s

/-- What `transfer` does after the loop. -/
def finish (s : IpClear) : IpClear :=
  let s := s.load s.last
  let s := if s.ordLocations ≠ [] then s.println "is not empty" else s
  s.println ("new count " ++ toString s.count)

/-- `transfer` on a fresh object whose result set holds `rows`. -/
def transfer (fuel : ℕ) (rows : List Location) : Option (Except Java.Exception IpClear) :=
  (transferLoop fuel { rs := rows }).map fun r => r.map finish

/-- **The loop ends with `r`**: with enough fuel, `transfer` returns `r`. -/
def Returns (rows : List Location) (r : Except Java.Exception IpClear) : Prop :=
  ∃ n, ∀ m, n ≤ m → transfer m rows = some r

/-! ## Fuel -/

theorem transferLoop_mono {s : IpClear} {r : Except Java.Exception IpClear} :
    ∀ {n m : ℕ}, transferLoop n s = some r → n ≤ m → transferLoop m s = some r
  | 0, _, h, _ => by simp [transferLoop] at h
  | n + 1, 0, _, hm => absurd hm (Nat.not_succ_le_zero n)
  | n + 1, m + 1, h, hm => by
    rw [transferLoop] at h ⊢
    rcases hc : s.takeCurrent with - | ⟨current, s'⟩
    · rw [hc] at h
      exact h
    · rw [hc] at h
      dsimp only at h ⊢
      rcases ht : s'.turn current with e | s''
      · rw [ht] at h
        exact h
      · rw [ht] at h
        exact transferLoop_mono h (Nat.le_of_succ_le_succ hm)

theorem returns_of_transferLoop {rows : List Location} {n : ℕ}
    {r : Except Java.Exception IpClear} (h : transferLoop n { rs := rows } = some r) :
    Returns rows (r.map finish) :=
  ⟨n, fun m hm => by rw [transfer, transferLoop_mono h hm]; rfl⟩

/-- What a run on some fuel shows of the final object, the outcome has. -/
theorem exists_returns {α : Type} {rows : List Location} {n : ℕ} {f : IpClear → α} {a : α}
    (h : (transfer n rows).map (Except.map f) = some (.ok a)) :
    ∃ s, Returns rows (.ok s) ∧ f s = a := by
  obtain ⟨r, hr, ha⟩ := Option.map_eq_some_iff.1 h
  obtain ⟨r', hloop, rfl⟩ := Option.map_eq_some_iff.1 hr
  rcases r' with e | s
  · simp [Except.map] at ha
  · exact ⟨s.finish, returns_of_transferLoop hloop, Except.ok.inj ha⟩

/-- There is one outcome. -/
theorem Returns.unique {rows : List Location} {r r' : Except Java.Exception IpClear}
    (h : Returns rows r) (h' : Returns rows r') : r = r' := by
  obtain ⟨n, hn⟩ := h
  obtain ⟨m, hm⟩ := h'
  exact Option.some.inj ((hn _ (le_max_left n m)).symm.trans (hm _ (le_max_right n m)))

end IpClear

end LoadIp

end Xpod
