import Mathlib.Data.List.Nodup
import Mathlib.Tactic
import Xpod.Common.Java
import Xpod.Storm.DownLoadStat
/-!
# The names of the rows of a message

A message is counted in a row for each combination of the client's
dimensions: a location, a key, a key with a location, an ordered pair of
keys. The combination's parts are joined with underscores, so different
combinations may spell the same name. They do not when the parts are
plain: no two alike, none empty and none with an underscore.
-/

namespace Xpod

namespace Storm

namespace WriteToHbase

/-! ## Names -/

theorem join_ne_nil (a b : Text) : join a b ≠ [] := by simp [join]

theorem ne_nil_of_mem_innerNames {ls : List Text} {i j : ℕ} {key name : Text}
    {ks : List (Option Text)} (hkey : key ≠ []) (h : name ∈ (innerNames ls i key j ks).1) :
    name ≠ [] := by
  induction ks generalizing j with
  | nil => simp [innerNames] at h
  | cons k ks ih =>
    cases k with
    | none => simp [innerNames] at h
    | some other =>
      rcases List.mem_append.1 h with h | h
      · split at h
        · simp at h
        · split at h
          · rcases List.mem_cons.1 h with rfl | h
            · exact hkey
            · obtain ⟨l, -, rfl⟩ := List.mem_map.1 h
              exact join_ne_nil key l
          · obtain rfl := List.mem_singleton.1 h
            exact join_ne_nil key other
      · exact ih h

theorem ne_nil_of_mem_outerNames {ls : List Text} {ks : List (Option Text)} (hks : none ∉ ks)
    {i : ℕ} {rest : List (Option Text)} {name : Text} (h : name ∈ (outerNames ls ks i rest).1) :
    name ≠ [] := by
  induction rest generalizing i with
  | nil => simp [outerNames] at h
  | cons k rest ih =>
    cases k with
    | none => simp [outerNames] at h
    | some key =>
      rw [outerNames_cons ls hks] at h
      by_cases hkey : key = []
      · exact ih (by simpa [hkey] using h)
      · rw [if_neg (by simpa using hkey)] at h
        rcases List.mem_append.1 h with h | h
        · exact ne_nil_of_mem_innerNames hkey h
        · exact ih h

/-- The inner loop meets its own key at its own index. -/
theorem mem_innerNames {ls : List Text} {i j : ℕ} {key : Text} (hkey : key ≠ [])
    {before after : List (Option Text)} (hnull : none ∉ before) (hi : i = j + before.length) :
    key ∈ (innerNames ls i key j (before ++ some key :: after)).1 := by
  induction before generalizing j with
  | nil => simp [innerNames, hkey, hi]
  | cons k before ih =>
    cases k with
    | none => simp at hnull
    | some other =>
      have hi' : i = j + 1 + before.length := by
        rw [List.length_cons] at hi
        omega
      have hrest := ih (by simpa using hnull) hi'
      exact List.mem_append_right _ hrest

/-- **Every key that is not empty has a row of its own.** -/
theorem mem_outerNames {ls : List Text} {ks : List (Option Text)} (hnull : none ∉ ks)
    {key : Text} (hkey : key ≠ []) {before rest : List (Option Text)}
    (hks : ks = before ++ rest) (hmem : some key ∈ rest) :
    key ∈ (outerNames ls ks before.length rest).1 := by
  induction rest generalizing before with
  | nil => simp at hmem
  | cons k rest ih =>
    cases k with
    | none => exact absurd (by rw [hks]; simp) hnull
    | some first =>
      have hstep : ks = (before ++ [some first]) ++ rest := by rw [hks]; simp
      rw [outerNames_cons ls hnull]
      rcases List.mem_cons.1 hmem with hfirst | hmem
      · obtain rfl := Option.some.inj hfirst
        rw [if_neg (by simpa using hkey), hks]
        refine List.mem_append_left _ (mem_innerNames hkey ?_ (by simp))
        exact fun h => hnull (by rw [hks]; exact List.mem_append_left _ h)
      · have hrest := ih hstep hmem
        rw [List.length_append, List.length_singleton] at hrest
        split
        · exact hrest
        · exact List.mem_append_right _ hrest

/-! ## Calls -/

/-- **A call of a merge that counts**: the client is on the mainland and
its version is known. -/
structure Call where
  stat : StatKey
  count : StatValue
  pubinfo : PubInfo
  loc : Location
  version : Text
  location_eq : pubinfo.location = some loc
  mainland : isMainland loc = true
  version_eq : pubinfo.version = some version

namespace Call

/-- The names of the rows the call adds to, one for each combination of
the client's dimensions. -/
def names (c : Call) : List Text := (WriteToHbase.names c.stat c.pubinfo).1

theorem null_notMem_keys (c : Call) : none ∉ keys c.stat c.pubinfo c.loc := by
  rw [none_mem_keys, c.version_eq]
  simp

theorem names_eq (c : Call) :
    c.names = locs china c.loc ++
      (outerNames (locs china c.loc) (keys c.stat c.pubinfo c.loc) 0
        (keys c.stat c.pubinfo c.loc)).1 := by
  simp [names, WriteToHbase.names, c.location_eq, c.mainland]

theorem version_mem_names {c : Call} (h : c.version ≠ []) : c.version ∈ c.names := by
  rw [names_eq]
  refine List.mem_append_right _ ?_
  have hkey : some c.version ∈ keys c.stat c.pubinfo c.loc := by
    rw [keys, c.version_eq]
    simp
  exact mem_outerNames c.null_notMem_keys h (List.nil_append _).symm hkey

theorem nil_notMem_names (c : Call) : [] ∉ c.names := by
  rw [names_eq, List.mem_append]
  rintro (h | h)
  · have hlocs : ∀ l ∈ locs china c.loc, l ≠ [] := by
      unfold locs
      split <;> simp [china, join_ne_nil]
    exact hlocs _ h rfl
  · exact ne_nil_of_mem_outerNames c.null_notMem_keys h rfl

end Call

/-! ## What a name begins with -/

/-- The name is `a`, or goes on with an underscore behind it. -/
def Starts (a x : Text) : Prop := x = a ∨ ∃ z, x = join a z

theorem join_cancel {a b y z : Text} (ha : '_' ∉ a) (hb : '_' ∉ b) (h : join a y = join b z) :
    a = b ∧ y = z := by
  have hcut := Java.cutAt_append (b := y) ha
  rw [← join, h, join, Java.cutAt_append hb] at hcut
  obtain ⟨hab, hyz⟩ := Prod.mk.inj (Option.some.inj hcut)
  exact ⟨hab.symm, hyz.symm⟩

theorem underscore_mem_join (a z : Text) : '_' ∈ join a z := by simp [join]

theorem join_assoc (a b z : Text) : join (join a b) z = join a (join b z) := by
  simp [join, List.append_assoc]

/-- **What a name begins with is told by the name**, up to the first
underscore. -/
theorem starts_unique {a b x : Text} (ha : '_' ∉ a) (hb : '_' ∉ b) (hxa : Starts a x)
    (hxb : Starts b x) : a = b := by
  rcases hxa with rfl | ⟨y, rfl⟩
  · rcases hxb with rfl | ⟨z, rfl⟩
    · rfl
    · exact absurd (underscore_mem_join b z) ha
  · rcases hxb with rfl | ⟨z, h⟩
    · exact absurd (underscore_mem_join a y) hb
    · exact (join_cancel ha hb h).1

/-- The names a key makes: itself, and itself with one of the others. -/
def Family (others : List Text) (key x : Text) : Prop :=
  x = key ∨ ∃ y ∈ others, x = join key y

theorem starts_of_family {others : List Text} {a key x : Text} (hkey : Starts a key)
    (hx : Family others key x) : Starts a x := by
  rcases hx with rfl | ⟨y, -, rfl⟩
  · exact hkey
  · rcases hkey with rfl | ⟨z, rfl⟩
    · exact Or.inr ⟨y, rfl⟩
    · exact Or.inr ⟨_, join_assoc a z y⟩

/-! ## Loops without a clash -/

section Loops

variable {ls ks : List Text} {i j : ℕ} {key x : Text}

/-- The inner loop makes names of its key: those with a location only at
its own index. -/
theorem mem_innerNames_cases (h : x ∈ (innerNames ls i key j (ks.map some)).1) :
    (j ≤ i ∧ (x = key ∨ ∃ l ∈ ls.dropLast, x = join key l)) ∨ ∃ o ∈ ks, x = join key o := by
  induction ks generalizing j with
  | nil => simp [innerNames] at h
  | cons other ks ih =>
    rcases List.mem_append.1 h with h | h
    · split at h
      · simp at h
      · split at h
        · rename_i hij
          rcases List.mem_cons.1 h with rfl | h
          · exact Or.inl ⟨hij.ge, Or.inl rfl⟩
          · obtain ⟨l, hl, rfl⟩ := List.mem_map.1 h
            exact Or.inl ⟨hij.ge, Or.inr ⟨l, hl, rfl⟩⟩
        · obtain rfl := List.mem_singleton.1 h
          exact Or.inr ⟨other, List.mem_cons_self, rfl⟩
    · rcases ih h with ⟨hij, hx⟩ | ⟨o, ho, rfl⟩
      · exact Or.inl ⟨by omega, hx⟩
      · exact Or.inr ⟨o, List.mem_cons_of_mem _ ho, rfl⟩

theorem family_of_mem_innerNames (h : x ∈ (innerNames ls i key j (ks.map some)).1) :
    Family (ls ++ ks) key x := by
  rcases mem_innerNames_cases h with ⟨-, rfl | ⟨l, hl, rfl⟩⟩ | ⟨o, ho, rfl⟩
  · exact Or.inl rfl
  · exact Or.inr ⟨l, List.mem_append_left _ (List.mem_of_mem_dropLast hl), rfl⟩
  · exact Or.inr ⟨o, List.mem_append_right _ ho, rfl⟩

theorem join_right_injective (key : Text) : Function.Injective (join key) := by
  intro a b h
  simpa [join] using h

theorem ne_join (key y : Text) : key ≠ join key y := by
  intro h
  have hlen := congrArg List.length h
  simp [join] at hlen

/-- The names of one key differ when locations and keys do. -/
theorem nodup_innerNames (hls : ls.Nodup) (hks : ks.Nodup) (hdisj : ls.Disjoint ks) :
    (innerNames ls i key j (ks.map some)).1.Nodup := by
  induction ks generalizing j with
  | nil => simp [innerNames]
  | cons other ks ih =>
    obtain ⟨hother, hks⟩ := List.nodup_cons.1 hks
    obtain ⟨hloc, hdisj⟩ := List.disjoint_cons_right.1 hdisj
    refine List.nodup_append'.2 ⟨?_, ih hks hdisj, fun x hx hrest => ?_⟩
    · split
      · exact List.nodup_nil
      · split
        · refine List.nodup_cons.2 ⟨fun hmem => ?_, ?_⟩
          · obtain ⟨l, -, hl⟩ := List.mem_map.1 hmem
            exact ne_join key l hl.symm
          · exact (hls.sublist (List.dropLast_sublist ls)).map (join_right_injective key)
        · exact List.nodup_singleton _
    · -- what is still ahead is another key's name, or the own index is
      rcases mem_innerNames_cases hrest with ⟨hji, hown⟩ | ⟨o, ho, rfl⟩
      · split at hx
        · simp at hx
        · rw [if_neg (by omega), List.mem_singleton] at hx
          rcases hown with rfl | ⟨l, hl, rfl⟩
          · exact ne_join _ _ hx
          · obtain rfl := join_right_injective key hx
            exact hloc (List.mem_of_mem_dropLast hl)
      · split at hx
        · simp at hx
        · split at hx
          · rcases List.mem_cons.1 hx with hx | hx
            · exact ne_join key o hx.symm
            · obtain ⟨l, hl, hlo⟩ := List.mem_map.1 hx
              obtain rfl := join_right_injective key hlo
              exact hdisj (List.mem_of_mem_dropLast hl) ho
          · obtain rfl := join_right_injective key (List.mem_singleton.1 hx)
            exact hother ho

variable {rest : List Text}

theorem none_notMem_map_some (ks : List Text) : none ∉ ks.map some := by simp

theorem family_of_mem_outerNames
    (h : x ∈ (outerNames ls (ks.map some) i (rest.map some)).1) :
    ∃ k ∈ rest, Family (ls ++ ks) k x := by
  induction rest generalizing i with
  | nil => simp [outerNames] at h
  | cons k rest ih =>
    rw [List.map_cons, outerNames_cons ls (none_notMem_map_some ks)] at h
    split at h
    · obtain ⟨k', hk', hx⟩ := ih h
      exact ⟨k', List.mem_cons_of_mem _ hk', hx⟩
    · rcases List.mem_append.1 h with h | h
      · exact ⟨k, List.mem_cons_self, family_of_mem_innerNames h⟩
      · obtain ⟨k', hk', hx⟩ := ih h
        exact ⟨k', List.mem_cons_of_mem _ hk', hx⟩

/-- **The names of all keys differ** when the families of the keys are
apart. -/
theorem nodup_outerNames (hls : ls.Nodup) (hks : ks.Nodup) (hdisj : ls.Disjoint ks)
    (hfam : rest.Pairwise fun k k' => ∀ x, Family (ls ++ ks) k x → ¬ Family (ls ++ ks) k' x) :
    (outerNames ls (ks.map some) i (rest.map some)).1.Nodup := by
  induction rest generalizing i with
  | nil => simp [outerNames]
  | cons k rest ih =>
    obtain ⟨hk, hrest⟩ := List.pairwise_cons.1 hfam
    rw [List.map_cons, outerNames_cons ls (none_notMem_map_some ks)]
    split
    · exact ih hrest
    · refine List.nodup_append'.2 ⟨nodup_innerNames hls hks hdisj, ih hrest, fun x hx hx' => ?_⟩
      obtain ⟨k', hk', hfam'⟩ := family_of_mem_outerNames hx'
      exact hk k' hk' x (family_of_mem_innerNames hx) hfam'

end Loops

/-! ## Plain dimensions -/

theorem apart_of_starts {others : List Text} {a b k k' : Text} (ha : '_' ∉ a) (hb : '_' ∉ b)
    (hab : a ≠ b) (hk : Starts a k) (hk' : Starts b k') :
    ∀ x, Family others k x → ¬ Family others k' x := fun _ hx hx' =>
  hab (starts_unique ha hb (starts_of_family hk hx) (starts_of_family hk' hx'))

/-- A CDN's name and its name with the domain make different names when
nothing else begins with the domain. -/
theorem apart_of_domain {others : List Text} {name domain : Text} (hdomain : '_' ∉ domain)
    (hothers : ∀ y ∈ others, ∃ a, '_' ∉ a ∧ a ≠ domain ∧ Starts a y) :
    ∀ x, Family others name x → ¬ Family others (join name domain) x := by
  intro x hx hx'
  have htail : ∃ w, Starts domain w ∧ x = join name w := by
    rcases hx' with rfl | ⟨y, -, rfl⟩
    · exact ⟨domain, Or.inl rfl, rfl⟩
    · exact ⟨_, Or.inr ⟨y, rfl⟩, join_assoc name domain y⟩
  obtain ⟨w, hw, rfl⟩ := htail
  rcases hx with hx | ⟨y, hy, hx⟩
  · exact ne_join name w hx.symm
  · obtain rfl := join_right_injective name hx
    obtain ⟨a, ha, hne, hstart⟩ := hothers w hy
    exact hne (starts_unique ha hdomain hstart hw)

theorem starts_china_of_mem_locs {loc : Location} {l : Text} (h : l ∈ locs china loc) :
    Starts china l := by
  unfold locs at h
  split at h
  · exact Or.inl (List.mem_singleton.1 h)
  · rcases List.mem_pair.1 h with rfl | rfl
    · exact Or.inl rfl
    · exact Or.inr ⟨_, rfl⟩
  · simp only [List.mem_cons, List.not_mem_nil, or_false] at h
    rcases h with rfl | rfl | rfl
    · exact Or.inl rfl
    · exact Or.inr ⟨_, rfl⟩
    · exact Or.inr ⟨_, join_assoc _ _ _⟩

theorem nodup_locs (loc : Location) : (locs china loc).Nodup := by
  unfold locs
  split
  · simp
  · simp [ne_join]
  · simp [ne_join, join_assoc, (join_right_injective china).ne_iff]

namespace Call

/-- The list `keys` of a call, none of which is null. -/
def keyTexts (c : Call) : List Text :=
  (present c.loc.isp).toList ++
    (match c.stat.cdnInfo with
      | none => []
      | some (name, domain) => [name, join name domain]) ++
    [c.version, intText c.pubinfo.nettype]

theorem keys_eq (c : Call) : keys c.stat c.pubinfo c.loc = c.keyTexts.map some := by
  rw [keys, keyTexts, c.version_eq]
  rcases c.stat.cdnInfo with - | ⟨name, domain⟩ <;> simp

/-- The texts a call's names are made of, the province and the city
apart. -/
def parts (c : Call) : List Text :=
  china :: (present c.loc.isp).toList ++
    (match c.stat.cdnInfo with
      | none => []
      | some (name, domain) => [name, domain]) ++
    [c.version, intText c.pubinfo.nettype]

/-- **Plain dimensions**: no two alike and none with an underscore. -/
structure Plain (c : Call) : Prop where
  nodup : c.parts.Nodup
  plain : ∀ a ∈ c.parts, '_' ∉ a

/-- The key a part stands for: the domain for the CDN's name with it, any
other part for itself. -/
def keyOf (c : Call) (a : Text) : Text :=
  match c.stat.cdnInfo with
  | none => a
  | some (name, domain) => if a = domain then join name domain else a

/-- The part that key begins with. -/
def headOf (c : Call) (a : Text) : Text :=
  match c.stat.cdnInfo with
  | none => a
  | some (name, domain) => if a = domain then name else a

theorem starts_keyOf (c : Call) (a : Text) : Starts (c.headOf a) (c.keyOf a) := by
  unfold headOf keyOf
  split
  · exact Or.inl rfl
  · split
    · exact Or.inr ⟨_, rfl⟩
    · exact Or.inl rfl

theorem headOf_mem {c : Call} {a : Text} (ha : a ∈ c.parts.tail) : c.headOf a ∈ c.parts.tail := by
  rcases hcdn : c.stat.cdnInfo with - | ⟨name, domain⟩
  · simpa [headOf, hcdn] using ha
  · simp only [headOf, hcdn]
    split
    · simp [parts, hcdn]
    · exact ha

section Plain

variable {c : Call} (hc : c.Plain)

include hc

theorem Plain.nodup_tail : c.parts.tail.Nodup := hc.nodup.sublist (List.tail_sublist _)

theorem Plain.china_notMem : china ∉ c.parts.tail := (List.nodup_cons.1 hc.nodup).1

theorem Plain.underscore_notMem {a : Text} (ha : a ∈ c.parts.tail) : '_' ∉ a :=
  hc.plain a (List.mem_of_mem_tail ha)

theorem Plain.keyTexts_eq : c.keyTexts = c.parts.tail.map c.keyOf := by
  have hnodup := hc.nodup_tail
  rcases hcdn : c.stat.cdnInfo with - | ⟨name, domain⟩ <;>
    rcases hisp : present c.loc.isp with - | isp
  · simp [keyTexts, parts, keyOf, hcdn, hisp]
  · simp [keyTexts, parts, keyOf, hcdn, hisp]
  -- the domain is none of the other parts, so only it is replaced
  · obtain ⟨⟨hname, -⟩, ⟨hver, hnet⟩, -⟩ : (name ≠ domain ∧ _) ∧ (domain ≠ c.version ∧
        domain ≠ intText c.pubinfo.nettype) ∧ _ := by simpa [parts, hcdn, hisp] using hnodup
    simp [keyTexts, parts, keyOf, hcdn, hisp, hname, Ne.symm hver, Ne.symm hnet]
  · obtain ⟨⟨-, hdom, -⟩, ⟨hname, -⟩, ⟨hver, hnet⟩, -⟩ : (_ ∧ isp ≠ domain ∧ _) ∧
        (name ≠ domain ∧ _) ∧ (domain ≠ c.version ∧ domain ≠ intText c.pubinfo.nettype) ∧ _ := by
      simpa [parts, hcdn, hisp] using hnodup
    simp [keyTexts, parts, keyOf, hcdn, hisp, hdom, hname, Ne.symm hver, Ne.symm hnet]

/-- Different parts stand for keys whose names are apart. -/
theorem Plain.apart {others : List Text}
    (hothers : ∀ y ∈ others, ∃ a ∈ c.parts, Starts a y ∧
      ∀ name domain, c.stat.cdnInfo = some (name, domain) → a ≠ domain)
    {a b : Text} (ha : a ∈ c.parts.tail) (hb : b ∈ c.parts.tail) (hab : a ≠ b) :
    ∀ x, Family others (c.keyOf a) x → ¬ Family others (c.keyOf b) x := by
  by_cases hhead : c.headOf a = c.headOf b
  · -- the two parts are then the CDN's name and its domain
    rcases hcdn : c.stat.cdnInfo with - | ⟨name, domain⟩
    · simp only [headOf, hcdn] at hhead
      exact absurd hhead hab
    have hdomain : domain ∈ c.parts.tail := by simp [parts, hcdn]
    have hpair : ∀ x, Family others name x → ¬ Family others (join name domain) x :=
      apart_of_domain (hc.underscore_notMem hdomain) fun y hy => by
        obtain ⟨p, hp, hstart, hpne⟩ := hothers y hy
        exact ⟨p, hc.plain p hp, hpne name domain hcdn, hstart⟩
    simp only [headOf, keyOf, hcdn] at hhead ⊢
    by_cases had : a = domain
    · have hbd : b ≠ domain := fun h => hab (had.trans h.symm)
      rw [if_pos had, if_neg hbd] at hhead
      rw [if_pos had, if_neg hbd, ← hhead]
      exact fun x hx hx' => hpair x hx' hx
    · by_cases hbd : b = domain
      · rw [if_neg had, if_pos hbd] at hhead
        rw [if_neg had, if_pos hbd, hhead]
        exact hpair
      · rw [if_neg had, if_neg hbd] at hhead
        exact absurd hhead hab
  · exact apart_of_starts (hc.underscore_notMem (headOf_mem ha))
      (hc.underscore_notMem (headOf_mem hb)) hhead (c.starts_keyOf a) (c.starts_keyOf b)

theorem Plain.headOf_ne_domain {a name domain : Text}
    (hcdn : c.stat.cdnInfo = some (name, domain)) :
    c.headOf a ≠ domain := by
  have hne : name ≠ domain := by
    have hpair : [name, domain].Sublist c.parts.tail := by
      simp only [parts, hcdn, List.cons_append, List.tail_cons]
      exact (List.sublist_append_right _ _).trans (List.sublist_append_left _ _)
    simpa using hc.nodup_tail.sublist hpair
  simp only [headOf, hcdn]
  split
  · exact hne
  · assumption

/-- Whatever a key is joined with begins with a part that is not the
domain. -/
theorem Plain.starts_of_mem_others {y : Text} (hy : y ∈ locs china c.loc ++ c.keyTexts) :
    ∃ a ∈ c.parts, Starts a y ∧
      ∀ name domain, c.stat.cdnInfo = some (name, domain) → a ≠ domain := by
  rcases List.mem_append.1 hy with hy | hy
  · refine ⟨china, List.mem_cons_self, starts_china_of_mem_locs hy, fun name domain hcdn h => ?_⟩
    exact hc.china_notMem (by simp [parts, hcdn, h])
  · rw [hc.keyTexts_eq] at hy
    obtain ⟨a, ha, rfl⟩ := List.mem_map.1 hy
    exact ⟨c.headOf a, List.mem_of_mem_tail (headOf_mem ha), c.starts_keyOf a,
      fun name domain hcdn => hc.headOf_ne_domain hcdn⟩

theorem Plain.pairwise_keyTexts :
    c.keyTexts.Pairwise fun k k' => ∀ x, Family (locs china c.loc ++ c.keyTexts) k x →
      ¬ Family (locs china c.loc ++ c.keyTexts) k' x := by
  have happart : ∀ {a b}, a ∈ c.parts.tail → b ∈ c.parts.tail → a ≠ b → ∀ x,
      Family (locs china c.loc ++ c.keyTexts) (c.keyOf a) x →
        ¬ Family (locs china c.loc ++ c.keyTexts) (c.keyOf b) x :=
    fun ha hb hab => hc.apart (fun y hy => hc.starts_of_mem_others hy) ha hb hab
  generalize locs china c.loc ++ c.keyTexts = others at happart ⊢
  rw [hc.keyTexts_eq, List.pairwise_map]
  exact hc.nodup_tail.imp_of_mem fun ha hb hab => happart ha hb hab

/-- No location is a name of a key. -/
theorem Plain.locs_apart {x : Text} (hx : x ∈ locs china c.loc) {k : Text} (hk : k ∈ c.keyTexts) :
    ¬ Family (locs china c.loc ++ c.keyTexts) k x := by
  intro hfam
  rw [hc.keyTexts_eq] at hk
  obtain ⟨a, ha, rfl⟩ := List.mem_map.1 hk
  have hhead := headOf_mem ha
  have heq := starts_unique (by decide) (hc.underscore_notMem hhead) (starts_china_of_mem_locs hx)
    (starts_of_family (c.starts_keyOf a) hfam)
  exact hc.china_notMem (heq ▸ hhead)

/-- **Plain dimensions make different names.** -/
theorem Plain.nodup_names : c.names.Nodup := by
  have hkeys : c.keyTexts.Nodup :=
    hc.pairwise_keyTexts.imp fun h hkk' => h _ (Or.inl rfl) (Or.inl hkk')
  have hdisj : (locs china c.loc).Disjoint c.keyTexts := fun x hx hk =>
    hc.locs_apart hx hk (Or.inl rfl)
  rw [names_eq, keys_eq]
  refine List.nodup_append'.2 ⟨nodup_locs c.loc,
    nodup_outerNames (nodup_locs c.loc) hkeys hdisj hc.pairwise_keyTexts, fun x hx hx' => ?_⟩
  obtain ⟨k, hk, hfam⟩ := family_of_mem_outerNames hx'
  exact hc.locs_apart hx hk hfam

/-- A name without an underscore is the country or a part. -/
theorem Plain.mem_parts_of_mem_names {v : Text} (hv : '_' ∉ v) (h : v ∈ c.names) : v ∈ c.parts := by
  have hself : ∀ {a}, a ∈ c.parts → Starts a v → v ∈ c.parts := by
    rintro a ha (rfl | ⟨z, rfl⟩)
    · exact ha
    · exact absurd (underscore_mem_join a z) hv
  rw [names_eq, keys_eq] at h
  rcases List.mem_append.1 h with h | h
  · exact hself List.mem_cons_self (starts_china_of_mem_locs h)
  · obtain ⟨k, hk, hfam⟩ := family_of_mem_outerNames h
    rw [hc.keyTexts_eq] at hk
    obtain ⟨a, ha, rfl⟩ := List.mem_map.1 hk
    exact hself (List.mem_of_mem_tail (headOf_mem ha)) (starts_of_family (c.starts_keyOf a) hfam)

end Plain

/-- A client as the logs have them, with all of its dimensions. -/
def plainCall : Call where
  stat := ⟨.songListen, 0, some (['网', '宿'], "ws.cs.hotchanson.com".toList), ['-', '1']⟩
  count := { count := 1 }
  pubinfo := { samplePubInfo with
    version := some ['v', '7']
    location := some ⟨some china, some ['上', '海'], some ['上', '海'], some ['电', '信']⟩ }
  loc := ⟨some china, some ['上', '海'], some ['上', '海'], some ['电', '信']⟩
  version := ['v', '7']
  location_eq := rfl
  mainland := by decide
  version_eq := rfl

example : plainCall.Plain := ⟨by decide, by decide⟩

end Call

end WriteToHbase

end Storm

end Xpod
