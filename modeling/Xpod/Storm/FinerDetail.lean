import Mathlib.Data.List.Basic
import Mathlib.Tactic
import Xpod.Storm.DownLoadStat
import Xpod.Storm.Model.DownLoadStat
import Xpod.Storm.RowKeys
import Xpod.Storm.RowNames
/-!
# Rows of a place and what is known beyond it

A client's place is known down to the country, the province or the city, and
each key of a message is crossed with the places it is known at, except the
last one. So a row of a key and a province is counted only if the city is
known, and one of a key and the country only if the province is.
-/

namespace Xpod

namespace Storm

namespace WriteToHbase

/-! ## Messages that differ in what is known -/

/-- **A province of the mainland and a city of it.** -/
structure Place where
  province : Text
  city : Text
  province_ne : province ≠ []
  mainland : province ∉ noDaLu
  city_ne : city ≠ []

/-- The message from a client in China with these fields. -/
def located (p : PubInfo) (isp province city : Option Text) : PubInfo :=
  { p with location := some { country := some china, province, city, isp } }

/-- The keys of such a message. They do not depend on the place. -/
def keysOf (stat : StatKey) (p : PubInfo) (isp : Option Text) : List (Option Text) :=
  keys stat p { isp }

/-- The increments a merge makes to a row, in order. -/
def rowAdds (t : Table) (stat : StatKey) (count : StatValue) (p : PubInfo) (row : Text) :
    List Add :=
  (adds (t.fields stat count) stat p).filter fun a => a.row = row

/-- The two messages make the same increments to the rows of the name, of the
day and of the hour. -/
def SameRows (t : Table) (stat : StatKey) (count : StatValue) (p p' : PubInfo)
    (name : Text) : Prop :=
  ∀ d ∈ [p.date, p.hour],
    rowAdds t stat count p (join name d) = rowAdds t stat count p' (join name d)

/-- **The city does not matter** to the rows of a key with the country or the
province. -/
def CityIrrelevant (t : Table) (stat : StatKey) (count : StatValue) (p : PubInfo)
    (isp : Option Text) (place : Place) : Prop :=
  ∀ k, some k ∈ keysOf stat p isp → ∀ empty, present empty = none →
    ∀ name ∈ [join k china, join k (join china place.province)],
      SameRows t stat count (located p isp (some place.province) (some place.city))
        (located p isp (some place.province) empty) name

/-- **The province does not matter** to the rows of a key with the country,
whatever the city is given as. -/
def ProvinceIrrelevant (t : Table) (stat : StatKey) (count : StatValue) (p : PubInfo)
    (isp : Option Text) (place : Place) : Prop :=
  ∀ k, some k ∈ keysOf stat p isp → ∀ empty, present empty = none → ∀ city city',
    SameRows t stat count (located p isp (some place.province) city)
      (located p isp empty city') (join k china)

/-- **The merge ends before it crosses a key**: the first key is the version,
and that is null. -/
def NoKey (stat : StatKey) (p : PubInfo) (isp : Option Text) : Prop :=
  present isp = none ∧ stat.cdnInfo = none ∧ p.version = none

/-! ## Names -/

section Names

variable {ls ls' : List Text} {ks rest : List (Option Text)}

/-- More places give more names. -/
theorem innerNames_sublist (h : ls.dropLast.Sublist ls'.dropLast) (i : ℕ) (key : Text) (j : ℕ)
    (ks : List (Option Text)) :
    (innerNames ls i key j ks).1.Sublist (innerNames ls' i key j ks).1 := by
  induction ks generalizing j with
  | nil => exact List.Sublist.refl _
  | cons k ks ih =>
    cases k with
    | none => exact List.Sublist.refl _
    | some other =>
      simp only [innerNames]
      refine List.Sublist.append ?_ (ih (j + 1))
      split_ifs
      · exact List.Sublist.refl _
      · exact (h.map _).cons_cons key
      · exact List.Sublist.refl _

/-- The names of a key, and those of the keys behind it unless a null ended
the loop. -/
theorem outerNames_some (i : ℕ) {key : Text} (hkey : key ≠ []) :
    (outerNames ls ks i (some key :: rest)).1 = (innerNames ls i key 0 ks).1 ++
      if none ∈ ks then [] else (outerNames ls ks (i + 1) rest).1 := by
  have hinner := innerNames_snd ls i key 0 ks
  rcases hn : innerNames ls i key 0 ks with ⟨names, e⟩
  rw [hn] at hinner
  rw [outerNames, if_neg (by simpa using hkey), hn]
  split_ifs at hinner ⊢ with hnull
  · obtain rfl : e = some .nullPointer := hinner
    simp
  · obtain rfl : e = none := hinner
    rfl

theorem outerNames_sublist (h : ls.dropLast.Sublist ls'.dropLast) (ks : List (Option Text))
    (i : ℕ) (rest : List (Option Text)) :
    (outerNames ls ks i rest).1.Sublist (outerNames ls' ks i rest).1 := by
  induction rest generalizing i with
  | nil => exact List.Sublist.refl _
  | cons k rest ih =>
    cases k with
    | none => exact List.Sublist.refl _
    | some key =>
      by_cases hkey : key = []
      · subst hkey
        exact ih (i + 1)
      · rw [outerNames_some i hkey, outerNames_some i hkey]
        refine (innerNames_sublist h i key 0 ks).append ?_
        split_ifs
        · exact List.Sublist.refl _
        · exact ih (i + 1)

/-- Empty keys are passed over. -/
theorem outerNames_append {skipped : List (Option Text)} (h : ∀ o ∈ skipped, o = some [])
    (i : ℕ) :
    (outerNames ls ks i (skipped ++ rest)).1 = (outerNames ls ks (i + skipped.length) rest).1 := by
  induction skipped generalizing i with
  | nil => rfl
  | cons o skipped ih =>
    obtain ⟨rfl, hskipped⟩ := List.forall_mem_cons.1 h
    rw [List.length_cons, Nat.add_comm skipped.length 1, ← Nat.add_assoc, ← ih hskipped]
    rfl

theorem innerNames_append {skipped : List (Option Text)} (h : ∀ o ∈ skipped, o = some [])
    (i : ℕ) (key : Text) (j : ℕ) :
    (innerNames ls i key j (skipped ++ rest)).1 =
      (innerNames ls i key (j + skipped.length) rest).1 := by
  induction skipped generalizing j with
  | nil => rfl
  | cons o skipped ih =>
    obtain ⟨rfl, hskipped⟩ := List.forall_mem_cons.1 h
    rw [List.length_cons, Nat.add_comm skipped.length 1, ← Nat.add_assoc, ← ih hskipped]
    rfl

/-- **The first key that is not empty is crossed with all places but the
last.** -/
theorem count_outerNames_lt {skipped behind : List (Option Text)} {k place : Text}
    (hks : ks = skipped ++ some k :: behind) (hskipped : ∀ o ∈ skipped, o = some [])
    (hk : k ≠ []) (hsub : ls.dropLast.Sublist ls'.dropLast)
    (hlt : ls.dropLast.count place < ls'.dropLast.count place) :
    (outerNames ls ks 0 ks).1.count (join k place) <
      (outerNames ls' ks 0 ks).1.count (join k place) := by
  subst hks
  -- the names of the first key, of the other keys with it, and of what follows
  have hfirst : ∀ ls, (outerNames ls (skipped ++ some k :: behind) 0
      (skipped ++ some k :: behind)).1 = (k :: ls.dropLast.map (join k)) ++
        ((innerNames ls skipped.length k (skipped.length + 1) behind).1 ++
          if none ∈ skipped ++ some k :: behind then []
          else (outerNames ls (skipped ++ some k :: behind) (skipped.length + 1) behind).1) := by
    intro ls
    rw [outerNames_append hskipped, Nat.zero_add, outerNames_some _ hk,
      innerNames_append hskipped, Nat.zero_add, ← List.append_assoc]
    congr 1
    rw [innerNames]
    simp [hk]
  have hcount : ∀ ls : List Text,
      (ls.dropLast.map (join k)).count (join k place) = ls.dropLast.count place := fun ls =>
    List.count_map_of_injective _ _ (join_right_injective k) _
  have hmore := (innerNames_sublist hsub skipped.length k (skipped.length + 1) behind).count_le
    (join k place)
  have hrest := (outerNames_sublist hsub (skipped ++ some k :: behind) (skipped.length + 1)
    behind).count_le (join k place)
  rw [hfirst, hfirst]
  simp only [List.count_append, List.count_cons, hcount]
  by_cases hnull : none ∈ skipped ++ some k :: behind
  · rw [if_pos hnull, if_pos hnull]
    omega
  · rw [if_neg hnull, if_neg hnull]
    omega

end Names

/-! ## Keys -/

/-- Some key that is not empty is met before a null, unless the version is
the first key and null. -/
theorem exists_key {stat : StatKey} {p : PubInfo} {isp : Option Text} (h : ¬ NoKey stat p isp) :
    ∃ skipped k behind, keysOf stat p isp = skipped ++ some k :: behind ∧
      (∀ o ∈ skipped, o = some []) ∧ k ≠ [] := by
  have hnet : intText p.nettype ≠ [] := by
    rcases p.nettype with n | n
    · exact Nat.toDigits_ne_nil
    · exact List.cons_ne_nil _ _
  unfold keysOf keys
  rcases hisp : present isp with - | i
  · rcases hcdn : stat.cdnInfo with - | ⟨name, domain⟩
    · -- the version comes first
      rcases hversion : p.version with - | v
      · exact absurd ⟨hisp, hcdn, hversion⟩ h
      · by_cases hv : v = []
        · subst hv
          exact ⟨[some []], _, [], rfl, by simp, hnet⟩
        · exact ⟨[], v, _, rfl, by simp, hv⟩
    · by_cases hname : name = []
      · subst hname
        exact ⟨[some []], join [] domain, _, rfl, by simp, join_ne_nil _ _⟩
      · exact ⟨[], name, _, rfl, by simp, hname⟩
  · have hi : i ≠ [] := by
      rintro rfl
      exact absurd hisp (by rcases isp with - | (- | ⟨c, cs⟩) <;> simp [present])
    exact ⟨[], i, _, rfl, by simp, hi⟩

/-! ## Increments -/

section Increments

variable {t : Table} {stat : StatKey} {count : StatValue} {p : PubInfo} {name : Text}

/-- A name makes increments to the rows of its own. -/
theorem rowAdds_eq_nil {d : Text} (hd : '_' ∉ d) (h : name ∉ (names stat p).1) :
    rowAdds t stat count p (join name d) = [] := by
  unfold rowAdds adds
  rw [List.filter_eq_nil_iff]
  intro a ha hrow
  obtain ⟨n, hn, ha⟩ := List.mem_flatMap.1 ha
  have hname : n = name := by
    rcases List.mem_append.1 ha with ha | ha
    · obtain ⟨f, -, rfl⟩ := List.mem_map.1 ha
      exact ((join_inj (underscore_notMem_date p) hd).1 (of_decide_eq_true hrow)).1
    · obtain ⟨f, -, rfl⟩ := List.mem_map.1 ha
      exact ((join_inj (underscore_notMem_hour p) hd).1 (of_decide_eq_true hrow)).1
  exact h (hname ▸ hn)

theorem length_filter_addsOf (fields : List (Text × Count)) (n : Text) :
    ((addsOf fields p n).filter fun a => a.row = join name p.date).length =
      if n = name then fields.length else 0 := by
  have hdate : join n p.date = join name p.date ↔ n = name := by
    rw [join_inj (underscore_notMem_date p) (underscore_notMem_date p)]
    simp
  have hhour : join n p.hour ≠ join name p.date := fun h =>
    date_ne_hour p p ((join_inj (underscore_notMem_hour p) (underscore_notMem_date p)).1 h).2.symm
  rw [addsOf, List.filter_append, List.length_append, List.filter_map, List.filter_map]
  by_cases hn : n = name
  · subst hn
    simp [Function.comp_def, hhour]
  · simp [Function.comp_def, hdate, hhour, hn]

/-- The increments to the row of a name: all columns for each time the name
is made. -/
theorem length_rowAdds :
    (rowAdds t stat count p (join name p.date)).length =
      (names stat p).1.count name * (t.fields stat count).length := by
  unfold rowAdds adds
  induction (names stat p).1 with
  | nil => simp
  | cons n ns ih =>
    rw [List.flatMap_cons, List.filter_append, List.length_append, ih, length_filter_addsOf,
      List.count_cons, Nat.add_mul]
    by_cases hn : n = name <;> simp [hn, Nat.add_comm]

theorem length_fields_pos : 0 < (t.fields stat count).length := by
  cases t <;> exact Nat.succ_pos _

/-- Messages that make a name different numbers of times differ in its
rows. -/
theorem not_sameRows {p' : PubInfo} (hdate : p'.date = p.date)
    (h : (names stat p').1.count name < (names stat p).1.count name) :
    ¬ SameRows t stat count p p' name := by
  intro hsame
  have hlen := congrArg List.length (hsame p.date List.mem_cons_self)
  have hright : (rowAdds t stat count p' (join name p'.date)).length =
      (names stat p').1.count name * (t.fields stat count).length := length_rowAdds
  rw [hdate] at hright
  rw [length_rowAdds, hright] at hlen
  exact h.ne' (Nat.eq_of_mul_eq_mul_right length_fields_pos hlen)

end Increments

/-! ## Places -/

/-- The places of such a message. -/
def places (province city : Option Text) : List Text := locs china { province, city }

/-- The province, if one is given, is of the mainland. -/
def Mainland (province : Option Text) : Prop := ∀ s, province = some s → s ∉ noDaLu

/-- The names of such a message: its places, and its keys crossed. -/
theorem names_located (stat : StatKey) (p : PubInfo) (isp : Option Text) {province : Option Text}
    (city : Option Text) (h : Mainland province) :
    (names stat (located p isp province city)).1 = places province city ++
      (outerNames (places province city) (keysOf stat p isp) 0 (keysOf stat p isp)).1 := by
  have hmain : isMainland { country := some china, province, city, isp } = true := by
    rcases province with - | s
    · rfl
    · simpa [isMainland, List.contains_eq_mem] using h s rfl
  simp only [names, located, hmain, if_true]
  rfl

section Places

variable {place : Place} {empty : Option Text}

theorem present_of_ne {s : Text} (h : s ≠ []) : present (some s) = some s := by
  rcases s with - | ⟨c, s⟩
  · exact absurd rfl h
  · rfl

theorem places_city (place : Place) :
    places (some place.province) (some place.city) =
      [china, join china place.province, join (join china place.province) place.city] := by
  simp only [places, locs, present_of_ne place.province_ne, present_of_ne place.city_ne]

theorem places_province (place : Place) (h : present empty = none) :
    places (some place.province) empty = [china, join china place.province] := by
  simp only [places, locs, present_of_ne place.province_ne, h]

theorem places_country (h : present empty = none) (city : Option Text) :
    places empty city = [china] := by
  simp only [places, locs, h]

theorem mainland_of_present (h : present empty = none) : Mainland empty := by
  rintro s rfl
  rcases s with - | ⟨c, s⟩
  · decide
  · cases h

end Places

/-! ## What the finer detail changes -/

section Detail

variable {t : Table} {stat : StatKey} {count : StatValue} {p : PubInfo} {isp : Option Text}
  {place : Place}

/-- **More places mean more names with them.** -/
theorem count_names_lt {province province' city city' : Option Text} {ls ls' : List Text}
    (here : Text) (hprovince : Mainland province)
    (hprovince' : Mainland province') (hls : places province city = ls)
    (hls' : places province' city' = ls') (hsub : ls.Sublist ls')
    (hdrop : ls.dropLast.Sublist ls'.dropLast)
    (hlt : ls.dropLast.count here < ls'.dropLast.count here) (h : ¬ NoKey stat p isp) :
    ∃ k, some k ∈ keysOf stat p isp ∧
      (names stat (located p isp province city)).1.count (join k here) <
        (names stat (located p isp province' city')).1.count (join k here) := by
  obtain ⟨skipped, k, behind, hkeys, hskipped, hk⟩ := exists_key h
  refine ⟨k, by rw [hkeys]; simp, ?_⟩
  rw [names_located stat p isp city hprovince, names_located stat p isp city' hprovince',
    List.count_append, List.count_append, hls, hls']
  exact Nat.add_lt_add_of_le_of_lt (hsub.count_le _)
    (count_outerNames_lt hkeys hskipped hk hdrop hlt)

theorem china_ne_intText (n : ℤ) : china ≠ intText n := by
  have hdigits : ∀ n, '中' ∉ Nat.toDigits 10 n := Java.not_mem_toDigits (by decide)
  intro h
  have hmem : '中' ∈ intText n := h ▸ List.mem_cons_self
  rcases n with n | n
  · exact hdigits n hmem
  · exact absurd hmem (by simp [intText, hdigits])

/-- Without a key the places are the only names, and no place is one of a key
and a place. -/
theorem join_notMem_names {province city : Option Text} {k here : Text} (h : NoKey stat p isp)
    (hprovince : Mainland province) (hk : some k ∈ keysOf stat p isp) :
    join k here ∉ (names stat (located p isp province city)).1 := by
  obtain ⟨hisp, hcdn, hversion⟩ := h
  have hkeys : keysOf stat p isp = [none, some (intText p.nettype)] := by
    simp [keysOf, keys, hisp, hcdn, hversion]
  rw [hkeys] at hk
  obtain rfl : k = intText p.nettype := by simpa using hk
  rw [names_located stat p isp city hprovince, hkeys]
  -- the null ends the loop over the keys at once
  change join _ here ∉ places province city ++ []
  rw [List.append_nil]
  intro hmem
  rcases starts_china_of_mem_locs hmem with heq | ⟨z, heq⟩
  · have hunderscore := underscore_mem_join (intText p.nettype) here
    rw [heq] at hunderscore
    exact absurd hunderscore (by decide)
  · have hchina := (join_cancel (underscore_notMem_intText _) (by decide) heq).1
    exact china_ne_intText _ hchina.symm

/-- Without a key there are no increments to rows of a key. -/
theorem sameRows_of_noKey {province province' city city' : Option Text} {k here : Text}
    (h : NoKey stat p isp) (hprovince : Mainland province)
    (hprovince' : Mainland province') (hk : some k ∈ keysOf stat p isp) :
    SameRows t stat count (located p isp province city) (located p isp province' city')
      (join k here) := by
  intro d hd
  have hunderscore : '_' ∉ d := by
    rcases List.mem_pair.1 hd with rfl | rfl
    · exact underscore_notMem_date _
    · exact underscore_notMem_hour _
  rw [rowAdds_eq_nil hunderscore (join_notMem_names h hprovince hk),
    rowAdds_eq_nil hunderscore (join_notMem_names h hprovince' hk)]

theorem Place.mainland_some (place : Place) : Mainland (some place.province) := by
  rintro s ⟨⟩
  exact place.mainland

/-- **The city matters** as soon as a key is crossed. -/
theorem cityIrrelevant_iff : CityIrrelevant t stat count p isp place ↔ NoKey stat p isp := by
  constructor
  · intro h
    by_contra hkey
    obtain ⟨k, hk, hlt⟩ := count_names_lt (join china place.province) place.mainland_some
      place.mainland_some (places_province place (rfl : present none = none)) (places_city place)
      (by simp) (by simp) (by simp [ne_join]) hkey
    have hsame := h k hk none rfl (join k (join china place.province)) (by simp)
    refine not_sameRows ?_ hlt hsame
    rfl
  · intro hkey k hk empty hempty name hname
    rcases List.mem_pair.1 hname with rfl | rfl
    · exact sameRows_of_noKey hkey place.mainland_some place.mainland_some hk
    · exact sameRows_of_noKey hkey place.mainland_some place.mainland_some hk

/-- **So does the province.** -/
theorem provinceIrrelevant_iff :
    ProvinceIrrelevant t stat count p isp place ↔ NoKey stat p isp := by
  constructor
  · intro h
    by_contra hkey
    obtain ⟨k, hk, hlt⟩ := count_names_lt china (mainland_of_present (rfl : present none = none))
      place.mainland_some (places_country (rfl : present none = none) none) (places_city place)
      (by simp) (by simp) (by simp) hkey
    have hsame := h k hk none rfl (some place.city) none
    refine not_sameRows ?_ hlt hsame
    rfl
  · intro hkey k hk empty hempty city city'
    exact sameRows_of_noKey hkey place.mainland_some (mainland_of_present hempty) hk

end Detail

/-- **Rows of a place are independent of finer detail only where no key is
crossed.** -/
theorem finer_detail_irrelevant_iff (t : Table) (stat : StatKey) (count : StatValue) (p : PubInfo)
    (isp : Option Text) (place : Place) :
    (CityIrrelevant t stat count p isp place ∧ ProvinceIrrelevant t stat count p isp place) ↔
      NoKey stat p isp := by
  rw [cityIrrelevant_iff, provinceIrrelevant_iff, and_self_iff]

/-- A place of the mainland. -/
def shenzhen : Place where
  province := ['广', '东', '省']
  city := ['深', '圳', '市']
  province_ne := by decide
  mainland := by decide
  city_ne := by decide

/-- The kind of the message's count. -/
def listenStat : StatKey := ⟨.songListen, 0, none, ['-', '1']⟩

/-- The row of the day of version 7 and the province. -/
def versionRow : Text := join (join ['7'] (join china shenzhen.province)) samplePubInfo.date

/-- **A client whose city is not known is missing in the row of its version
and province**, to which one of the same province with a city adds all five
columns. -/
theorem mergeSong_misses_province :
    (rowAdds .songStat listenStat { count := 1 } (located samplePubInfo none
      (some shenzhen.province) (some shenzhen.city)) versionRow).length = 5 ∧
    rowAdds .songStat listenStat { count := 1 } (located samplePubInfo none
      (some shenzhen.province) none) versionRow = [] := by
  decide

end WriteToHbase

end Storm

end Xpod
