import Mathlib.Data.List.AList
import Mathlib.Tactic
import Xpod.Common.Java
import Xpod.Storm.LogSums
import Xpod.Storm.Model.StatBolt
/-!
# The URL of one operation and the others

The bolt looks up the CDN of an operation by its URL. `getCdnInfo` fails on
some URLs, and then the whole log is dropped. And where it does not fail, the
URL decides of which kind the operation is, and with that which operation is
the first of its kind: the others keep their kinds, but one that becomes the
first, or is the first no longer, has its response time counted elsewhere.

What is said here of an operation is its share of the message: its kind and
what it adds to the value of the kind.
-/

namespace Xpod

namespace Storm

namespace DownLoadStatBolt

/-! ## Shares -/

/-- What an operation adds to the value of its kind, as the first of the kind
or a later one. -/
def addition (op : Operation) (later : Bool) : Tally Count :=
  if isSong op then
    if later then
      ⟨1, op.getIntDefZero "buffer_count", 0,
        op.getIntDefZero "response_time" + op.getIntDefZero "loading_time"⟩
    else
      ⟨1, op.getIntDefZero "buffer_count", op.getIntDefZero "response_time",
        op.getIntDefZero "loading_time"⟩
  else ⟨1, 0, 0, 0⟩

/-- The share of an operation behind the `earlier` ones. -/
def shareOf (earlier : List Operation) (op : Operation) : Option (StatKey × Tally Count) :=
  match statOf op with
  | .ok (some k) => some (k, addition op (earlier.any (isOf k)))
  | _ => none

/-- The shares of operations behind the `earlier` ones. -/
def sharesFrom (earlier : List Operation) : List Operation → List (Option (StatKey × Tally Count))
  | [] => []
  | op :: ops => shareOf earlier op :: sharesFrom (earlier ++ [op]) ops

/-- The operation can be sorted. -/
def sorts (op : Operation) : Bool :=
  match statOf op with
  | .ok _ => true
  | .error _ => false

/-- Every operation can be sorted. -/
def Sortable (ops : List Operation) : Prop := ∀ op ∈ ops, sorts op = true

instance (ops : List Operation) : Decidable (Sortable ops) :=
  inferInstanceAs (Decidable (∀ op ∈ ops, _))

/-- **The shares of the operations of a log**: none if one of them cannot be
sorted, since then no message is sent. -/
def shares (ops : List Operation) : List (Option (StatKey × Tally Count)) :=
  if Sortable ops then sharesFrom [] ops else ops.map fun _ => none

/-! ## The message is the sum of the shares -/

/-- A share added to a value, or to none. -/
def plus (cc : Option (Tally Count)) (t : Tally Count) : Tally Count :=
  match cc with
  | none => t
  | some cc => ⟨cc.count + t.count, cc.kadunCount + t.kadunCount,
      cc.responseTime + t.responseTime, cc.loadTime + t.loadTime⟩

/-- A share added to the value of the kind `k`. -/
def addShare (k : StatKey) (cc : Option (Tally Count)) :
    Option (StatKey × Tally Count) → Option (Tally Count)
  | none => cc
  | some (k', t) => if k' = k then some (plus cc t) else cc

/-- The sum of the shares of the kind. -/
def totalOf (k : StatKey) (shares : List (Option (StatKey × Tally Count))) :
    Option (Tally Count) :=
  shares.foldl (addShare k) none

section Message

variable {k : StatKey} {op : Operation} {ops earlier : List Operation}

theorem sorts_iff : sorts op = true ↔ ∃ stat, statOf op = .ok stat := by
  unfold sorts
  rcases statOf op with e | stat <;> simp

/-- The loop adds the operation's share. -/
theorem accumulate_eq (cc : Option (Tally Count)) :
    accumulate op.getIntDefZero (isSong op) cc = plus cc (addition op cc.isSome) := by
  rcases cc with - | cc <;> by_cases hsong : isSong op = true <;>
    simp [accumulate, plus, addition, hsong, add_assoc]

theorem addShare_shareOf {cc : Option (Tally Count)} (h : cc.isSome = earlier.any (isOf k)) :
    addShare k cc (shareOf earlier op) =
      if isOf k op then some (accumulate op.getIntDefZero (isSong op) cc) else cc := by
  rcases hstat : statOf op with e | (- | k')
  · simp [shareOf, isOf, hstat, addShare]
  · simp [shareOf, isOf, hstat, addShare]
  · have hof : isOf k op = decide (k' = k) := by simp only [isOf, hstat]
    have hshare : shareOf earlier op = some (k', addition op (earlier.any (isOf k'))) := by
      simp only [shareOf, hstat]
    rw [hof, hshare, addShare]
    by_cases hk : k' = k
    · subst hk
      rw [if_pos rfl, if_pos (decide_eq_true rfl), accumulate_eq, h]
    · rw [if_neg hk, if_neg (by simpa using hk)]

/-- **The loop sums up the shares.** -/
theorem statsLoop_lookup_shares {stats stats' : Stats Count}
    (h : statsLoop Operation.getIntDefZero ops stats = .ok stats')
    (hseen : ∀ k, (stats.lookup k).isSome = earlier.any (isOf k)) (k : StatKey) :
    stats'.lookup k = (sharesFrom earlier ops).foldl (addShare k) (stats.lookup k) := by
  induction ops generalizing stats earlier with
  | nil =>
    obtain rfl := Except.ok.inj h
    rfl
  | cons op ops ih =>
    obtain ⟨stats₁, hrest, hlookup⟩ := statsLoop_cons h
    have hseen₁ : ∀ k, (stats₁.lookup k).isSome = (earlier ++ [op]).any (isOf k) := by
      intro k
      rw [hlookup k, List.any_append, ← hseen k]
      by_cases hk : isOf k op = true <;> simp [hk]
    rw [sharesFrom, List.foldl_cons, addShare_shareOf (hseen k), ← hlookup k]
    exact ih hrest hseen₁

/-- **The message has for each kind the sum of the shares.** -/
theorem execute_lookup (log : Log) (k : StatKey) :
    ((execute log).bind fun message => message.1.lookup k) = totalOf k (shares log.operations) := by
  by_cases hsort : Sortable log.operations
  · obtain ⟨stats, hrun⟩ : ∃ stats, myExecute log = .ok stats :=
      statsLoop_isOk_iff.2 fun op hop => sorts_iff.1 (hsort op hop)
    have htotal : stats.lookup k = totalOf k (shares log.operations) := by
      rw [shares, if_pos hsort]
      exact statsLoop_lookup_shares hrun (fun k => by simp) k
    rw [← htotal, execute, hrun]
    dsimp only
    split_ifs with hempty
    · have hnil : stats = ∅ := AList.ext (List.isEmpty_iff.1 hempty)
      rw [hnil, AList.lookup_empty]
      rfl
    · rfl
  · have hrun : ∃ e, myExecute log = .error e := by
      rcases hrun : myExecute log with e | stats
      · exact ⟨e, rfl⟩
      · exact absurd (fun op hop => sorts_iff.2 (statsLoop_isOk_iff.1 ⟨stats, hrun⟩ op hop)) hsort
    obtain ⟨e, hrun⟩ := hrun
    rw [shares, if_neg hsort, execute, hrun, totalOf, List.foldl_map]
    exact (List.foldl_fixed' (fun _ => rfl) _).symm

end Message

/-! ## Which URLs fail -/

/-- **A strange URL**: a slash behind the scheme, in front of it no host that
ends in `com`, and behind it no second slash. -/
def Strange (url : Text) : Prop :=
  ∃ scheme host rest, url = scheme ++ (host ++ '/' :: rest) ∧ scheme.length = 7 ∧ '/' ∉ host ∧
    "com".toList.isSuffixOf host = false ∧ '/' ∉ rest

/-- **`getCdnInfo` returns**: null, or a pair of the table. -/
def Resolves (url : Text) : Prop :=
  ∃ cdnInfo, getCdnInfo (some url) = .ok cdnInfo ∧
    ∀ cdn domain, cdnInfo = some (cdn, domain) → (domain, cdn) ∈ cndToDomain

section Urls

variable {url host rest : Text}

/-- A domain that is looked up is paired with its own name. -/
theorem mem_cndToDomain (domain cdn domain' : Text)
    (h : (cndToDomain.lookup domain).map (fun name => (name, domain)) = some (cdn, domain')) :
    (domain', cdn) ∈ cndToDomain := by
  obtain ⟨name, hname, hpair⟩ := Option.map_eq_some_iff.1 h
  obtain ⟨rfl, rfl⟩ := Prod.mk.inj hpair
  obtain ⟨l₁, l₂, htable, -⟩ := List.lookup_eq_some_iff.1 hname
  rw [htable]
  simp

theorem not_strange_of_cutAt (hcut : Java.cutAt '/' (url.drop 7) = none) : ¬ Strange url := by
  rintro ⟨scheme, host, rest, rfl, hlen, -⟩
  rw [List.drop_left' hlen, Java.cutAt_eq_none] at hcut
  exact hcut (by simp)

/-- Of a URL with a slash it is enough to look at the first one. -/
theorem strange_iff_of_cutAt (hcut : Java.cutAt '/' (url.drop 7) = some (host, rest)) :
    Strange url ↔ "com".toList.isSuffixOf host = false ∧ '/' ∉ rest := by
  obtain ⟨hdrop, hhost⟩ := Java.cutAt_eq_some.1 hcut
  constructor
  · rintro ⟨scheme, host', rest', rfl, hlen, hhost', hcom, hrest⟩
    rw [List.drop_left' hlen, Java.cutAt_append hhost'] at hcut
    obtain ⟨rfl, rfl⟩ := Prod.mk.inj (Option.some.inj hcut)
    exact ⟨hcom, hrest⟩
  · rintro ⟨hcom, hrest⟩
    refine ⟨url.take 7, host, rest, ?_, ?_, hhost, hcom, hrest⟩
    · rw [← hdrop, List.take_append_drop]
    · rw [List.length_take, min_eq_left]
      by_contra hlt
      rw [List.drop_eq_nil_of_le (by omega)] at hdrop
      simp at hdrop

/-- **`getCdnInfo` returns just if the URL is not strange.** -/
theorem resolves_iff : Resolves url ↔ ¬ Strange url := by
  rcases hcut : Java.cutAt '/' (url.drop 7) with - | ⟨host, rest⟩
  · -- no slash
    exact ⟨fun _ => not_strange_of_cutAt hcut,
      fun _ => ⟨none, by simp only [getCdnInfo, hcut], by simp⟩⟩
  rw [strange_iff_of_cutAt hcut]
  by_cases hcom : "com".toList.isSuffixOf host = true
  · refine ⟨fun _ h => absurd (hcom.symm.trans h.1) (by decide),
      fun _ => ⟨_, ?_, mem_cndToDomain host⟩⟩
    simp only [getCdnInfo, hcut, hcom, if_true, Java.ok_bind]
    rfl
  · rw [Bool.not_eq_true] at hcom
    rcases hsecond : Java.cutAt '/' rest with - | ⟨domain, tail⟩
    · -- `substring` gets a -1
      refine ⟨?_, fun h => absurd ⟨hcom, Java.cutAt_eq_none.1 hsecond⟩ h⟩
      rintro ⟨cdnInfo, hok, -⟩
      simp only [getCdnInfo, hcut, hcom, hsecond, Bool.false_eq_true, if_false,
        Java.error_bind] at hok
      cases hok
    · refine ⟨fun _ h => ?_, fun _ => ⟨_, ?_, mem_cndToDomain domain⟩⟩
      · rw [Java.cutAt_eq_none.2 h.2] at hsecond
        cases hsecond
      · simp only [getCdnInfo, hcut, hcom, hsecond, Bool.false_eq_true, if_false, Java.ok_bind]
        rfl

end Urls

end DownLoadStatBolt

/-! ## Another URL -/

/-- The operation with the URL in its map. -/
def Operation.withUrl (op : Operation) (url : Text) : Operation :=
  ⟨fun key => if key = "url".toList then some (.string url) else op.getObject key⟩

namespace Operation

variable {op : Operation} {url : Text} {key : String}

theorem getString_withUrl : (op.withUrl url).getString "url" = .ok (some url) := rfl

theorem getString_withUrl_of_ne (h : key.toList ≠ "url".toList) :
    (op.withUrl url).getString key = op.getString key := by
  simp only [getString, withUrl, if_neg h]

theorem getIntDefZero_withUrl_of_ne (h : key.toList ≠ "url".toList) :
    (op.withUrl url).getIntDefZero key = op.getIntDefZero key := by
  simp only [getIntDefZero, withUrl, if_neg h]

end Operation

namespace DownLoadStatBolt

/-- The second computation returns if the first one does. -/
def Follows {α β : Type} (x : Except Java.Exception α) (y : Except Java.Exception β) : Prop :=
  ∀ a, x = .ok a → ∃ b, y = .ok b

section Follows

variable {α β γ : Type} {x : Except Java.Exception α} {f g : α → Except Java.Exception β}

theorem Follows.bind (h : ∀ a, Follows (f a) (g a)) : Follows (x >>= f) (x >>= g) := by
  intro b hb
  obtain ⟨a, rfl, hfa⟩ := Java.bind_eq_ok.1 hb
  exact h a b hfa

theorem Follows.ite {c : Prop} [Decidable c] {a a' b b' : Except Java.Exception β}
    (ha : Follows a b) (hb : Follows a' b') :
    Follows (if c then a else a') (if c then b else b') := by
  split_ifs
  · exact ha
  · exact hb

theorem Follows.refl : Follows x x := fun a ha => ⟨a, ha⟩

theorem Follows.ok {a : α} {b : β} : Follows (.ok a) (.ok b) := fun _ _ => ⟨b, rfl⟩

end Follows

section Sorting

variable {op : Operation} {u u' : Text} {c c' : Option (Text × Text)}

theorem follows_listenKey (hu : getCdnInfo (some u) = .ok c) (hu' : getCdnInfo (some u') = .ok c')
    (statType : ℤ) : Follows (listenKey statType (some u)) (listenKey statType (some u')) := by
  unfold listenKey
  rw [hu, hu']
  exact .ok

theorem follows_downloadKey (op : Operation) (hu : getCdnInfo (some u) = .ok c)
    (hu' : getCdnInfo (some u') = .ok c') (statType : ℤ) :
    Follows (downloadKey (op.withUrl u) statType) (downloadKey (op.withUrl u') statType) := by
  unfold downloadKey
  simp only [Operation.getString_withUrl, Java.ok_bind, hu, hu',
    Operation.getString_withUrl_of_ne (show "quality".toList ≠ "url".toList by decide)]
  exact .bind fun quality => .ok

/-- **Whether an operation can be sorted does not depend on its URL** as long
as the URL is not strange. -/
theorem follows_statOf (hu : getCdnInfo (some u) = .ok c) (hu' : getCdnInfo (some u') = .ok c') :
    Follows (statOf (op.withUrl u)) (statOf (op.withUrl u')) := by
  have hlisten := follows_listenKey hu hu'
  have hdownload := follows_downloadKey op hu hu'
  unfold statOf
  simp only [Operation.getString_withUrl, Java.ok_bind,
    Operation.getString_withUrl_of_ne (show "module".toList ≠ "url".toList by decide),
    Operation.getString_withUrl_of_ne (show "type".toList ≠ "url".toList by decide),
    Operation.getString_withUrl_of_ne (show "origin".toList ≠ "url".toList by decide),
    Operation.getString_withUrl_of_ne (show "downstatus".toList ≠ "url".toList by decide),
    Operation.getIntDefZero_withUrl_of_ne (show "is_buffer".toList ≠ "url".toList by decide),
    Operation.getIntDefZero_withUrl_of_ne (show "buffer_count".toList ≠ "url".toList by decide)]
  refine .bind fun module => .ite ?_ (.ite ?_ (.ite ?_ .refl))
  · -- a song that was played
    refine .bind fun type => .ite (.bind fun origin => .ite (hlisten 10) ?_) .refl
    exact .ite (hlisten 0) (.ite (hlisten 0) (.ite (hlisten 1) .refl))
  · -- a download
    refine .bind fun type => .ite (.bind fun downstatus => ?_) .refl
    exact .ite (hdownload 0) (.ite (hdownload 1) (.ite (hdownload 2) .refl))
  · -- an error: that of a song looks up its origin instead
    refine .bind fun type => .ite .refl (.ite (.bind fun origin => ?_) .refl)
    refine .ite (hlisten 3) (.ite ?_ .refl)
    rw [hu, hu']
    exact .ok

end Sorting

/-! ## The first of a kind -/

section First

variable {k : StatKey} {op : Operation} {ops earlier earlier' : List Operation}

/-- Being the first matters to a song with a response time only. -/
theorem addition_eq_iff (later later' : Bool) :
    addition op later = addition op later' ↔
      (isSong op = true → op.getIntDefZero "response_time" ≠ 0 → later = later') := by
  unfold addition
  by_cases hsong : isSong op = true
  · cases later <;> cases later' <;> simp [hsong, eq_comm]
  · simp [hsong]

theorem shareOf_eq_iff :
    shareOf earlier op = shareOf earlier' op ↔
      ∀ k, isOf k op = true → isSong op = true → op.getIntDefZero "response_time" ≠ 0 →
        earlier.any (isOf k) = earlier'.any (isOf k) := by
  unfold shareOf
  rcases hstat : statOf op with e | (- | k')
  · simp [isOf_iff, hstat]
  · simp [isOf_iff, hstat]
  · simp only [Option.some.injEq, Prod.mk.injEq, true_and, addition_eq_iff, isOf_iff, hstat,
      Except.ok.injEq]
    constructor
    · rintro h k rfl
      exact h
    · intro h
      exact h k' rfl

/-- **Two pasts give the same shares** if they agree on every kind whose first
operation is a song with a response time. -/
theorem sharesFrom_eq_iff :
    sharesFrom earlier ops = sharesFrom earlier' ops ↔
      ∀ k first, ops.find? (isOf k) = some first → isSong first = true →
        first.getIntDefZero "response_time" ≠ 0 →
          earlier.any (isOf k) = earlier'.any (isOf k) := by
  induction ops generalizing earlier earlier' with
  | nil => simp [sharesFrom]
  | cons op ops ih =>
    rw [sharesFrom, sharesFrom, List.cons.injEq, shareOf_eq_iff, ih]
    constructor
    · rintro ⟨hhead, htail⟩ k first hfirst hsong htime
      by_cases hk : isOf k op = true
      · rw [List.find?_cons_of_pos hk] at hfirst
        obtain rfl := Option.some.inj hfirst
        exact hhead k hk hsong htime
      · rw [List.find?_cons_of_neg hk] at hfirst
        have hany := htail k first hfirst hsong htime
        simpa [List.any_append, hk] using hany
    · intro h
      refine ⟨fun k hk hsong htime => h k op (List.find?_cons_of_pos hk) hsong htime, ?_⟩
      intro k first hfirst hsong htime
      by_cases hk : isOf k op = true
      · simp [List.any_append, hk]
      · rw [List.any_append, List.any_append,
          h k first ((List.find?_cons_of_neg hk).trans hfirst) hsong htime]

theorem length_sharesFrom : (sharesFrom earlier ops).length = ops.length := by
  induction ops generalizing earlier with
  | nil => rfl
  | cons op ops ih => rw [sharesFrom, List.length_cons, List.length_cons, ih]

theorem sharesFrom_append (ops' : List Operation) :
    sharesFrom earlier (ops ++ ops') =
      sharesFrom earlier ops ++ sharesFrom (earlier ++ ops) ops' := by
  induction ops generalizing earlier with
  | nil => simp [sharesFrom]
  | cons op ops ih =>
    rw [List.cons_append, sharesFrom, sharesFrom, ih, List.append_assoc, List.singleton_append,
      List.cons_append]

end First

/-! ## One operation and the others -/

/-- **The others keep their shares** when the URL of the operation between
`front` and `behind` is the one or the other. -/
def OthersKept (front : List Operation) (op : Operation) (behind : List Operation)
    (u u' : Text) : Prop :=
  (shares (front ++ op.withUrl u :: behind)).eraseIdx front.length =
    (shares (front ++ op.withUrl u' :: behind)).eraseIdx front.length

/-- **The operation decides which of the others is the first of a kind**: the
log can be sorted, and a song with a response time behind the operation is the
first of its kind among the others, of which the operation is with one of the
two URLs. -/
def Displaces (front : List Operation) (op : Operation) (behind : List Operation)
    (u u' : Text) : Prop :=
  Sortable (front ++ op.withUrl u :: behind) ∧
    ∃ k first, behind.find? (isOf k) = some first ∧ isSong first = true ∧
      first.getIntDefZero "response_time" ≠ 0 ∧ front.any (isOf k) = false ∧
      isOf k (op.withUrl u) ≠ isOf k (op.withUrl u')

section Others

variable {front behind : List Operation} {op : Operation} {u u' : Text}

theorem eraseIdx_shares (h : Sortable (front ++ op :: behind)) :
    (shares (front ++ op :: behind)).eraseIdx front.length =
      sharesFrom [] front ++ sharesFrom (front ++ [op]) behind := by
  rw [shares, if_pos h, sharesFrom_append, sharesFrom, List.nil_append,
    List.eraseIdx_append_of_length_le (by rw [length_sharesFrom]), length_sharesFrom, Nat.sub_self,
    List.eraseIdx_cons_zero]

/-- URLs that are not strange leave a log sortable. -/
theorem sortable_iff (hu : ¬ Strange u) (hu' : ¬ Strange u') :
    Sortable (front ++ op.withUrl u :: behind) ↔ Sortable (front ++ op.withUrl u' :: behind) := by
  obtain ⟨c, hc, -⟩ := resolves_iff.2 hu
  obtain ⟨c', hc', -⟩ := resolves_iff.2 hu'
  have hop : sorts (op.withUrl u) = true ↔ sorts (op.withUrl u') = true := by
    rw [sorts_iff, sorts_iff]
    exact ⟨fun ⟨s, hs⟩ => follows_statOf hc hc' s hs, fun ⟨s, hs⟩ => follows_statOf hc' hc s hs⟩
  simp only [Sortable, List.forall_mem_append, List.forall_mem_cons, hop]

/-- **The others keep their shares just if none of them becomes or ceases to
be the first of its kind.** -/
theorem othersKept_iff (hu : ¬ Strange u) (hu' : ¬ Strange u') :
    OthersKept front op behind u u' ↔ ¬ Displaces front op behind u u' := by
  unfold OthersKept Displaces
  by_cases hsort : Sortable (front ++ op.withUrl u :: behind)
  · rw [eraseIdx_shares hsort, eraseIdx_shares ((sortable_iff hu hu').1 hsort),
      List.append_cancel_left_eq, sharesFrom_eq_iff]
    simp only [List.any_append, List.any_cons, List.any_nil, Bool.or_false]
    constructor
    · rintro h ⟨-, k, first, hfirst, hsong, htime, hfront, hne⟩
      have hany := h k first hfirst hsong htime
      rw [hfront, Bool.false_or, Bool.false_or] at hany
      exact hne hany
    · intro h k first hfirst hsong htime
      by_contra hne
      rcases hfront : front.any (isOf k) with - | -
      · rw [hfront, Bool.false_or, Bool.false_or] at hne
        exact h ⟨hsort, k, first, hfirst, hsong, htime, hfront, hne⟩
      · rw [hfront, Bool.true_or, Bool.true_or] at hne
        exact hne rfl
  · -- nothing is counted with either URL
    have hsort' : ¬ Sortable (front ++ op.withUrl u' :: behind) := fun h =>
      hsort ((sortable_iff hu hu').2 h)
    rw [shares, shares, if_neg hsort, if_neg hsort']
    simp [hsort]

end Others

/-- A URL of the table. -/
def tableUrl : Text := "http://a.ali.dongting.com/x".toList

/-- A URL with a host that does not end in `com` and no second slash. -/
def strangeUrl : Text := "http://host/x".toList

end DownLoadStatBolt

end Storm

end Xpod
