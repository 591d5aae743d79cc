import LoragonBFT.GenesisUpdates
import Mathlib.Algebra.BigOperators.Group.List.Basic
import Mathlib.Data.List.Induction
import Mathlib.Data.List.Sort
import Mathlib.Data.List.Perm.Basic

/-!
# What the genesis updates make of the validators

Once every validator is mentioned, `ApplyUpdatesToValidatorSet` ends, and this
module says with what. A validator of the set gets the power of the first
update that names it, unless it has power zero itself, in which case it goes;
the updates that named nobody are appended, in the order in which a map is
ranged over and up to the first key that cannot be decoded
(`applyUpdates_some`).

For the application, an update with power zero removes a validator. The code
asks for the old power where it should ask for the new one, so such an update
is written into the list like any other, and `NewValidatorSet` panics on it. A
key that cannot be decoded drops the updates that happen to come after it.
Hence the updates are applied exactly in two cases: all powers are positive
and all new keys can be decoded, or no new key can and the new powers are all
zero (`appliedExactly_iff`).
-/

namespace LoragonBFT

/-! ## The result of the first loop -/

variable {j : ℕ} {vset : ValidatorSet}

section Result

variable {updates : List TypedUpdate} {v : Validator} {vs done pending : List Validator}

/-- The validator with the power of the first update that names it. -/
def Validator.updated (updates : List TypedUpdate) (v : Validator) : Validator :=
  match findUpdate updates v with
  | none => v
  | some (update, _) => { v with votingPower := update.power }

@[simp]
theorem Validator.pubKey_updated (updates : List TypedUpdate) (v : Validator) :
    (v.updated updates).pubKey = v.pubKey := by
  unfold Validator.updated
  cases findUpdate updates v <;> rfl

@[simp]
theorem Validator.address_updated (updates : List TypedUpdate) (v : Validator) :
    (v.updated updates).address = v.address := by
  unfold Validator.updated
  cases findUpdate updates v <;> rfl

/-- The index of the first update that names the validator. -/
def usedIndex (updates : List TypedUpdate) (v : Validator) : Option ℕ :=
  (findUpdate updates v).map Prod.snd

/-- The updates that no validator uses, by their indices. -/
def unusedUpdates (updates : List TypedUpdate) (vs : List Validator) : List ℕ :=
  (List.range updates.length).filter (fun j => some j ∉ vs.map (usedIndex updates))

/-- The validators that stay, with their new powers. -/
def updatedValidators (updates : List TypedUpdate) (vs : List Validator) : List Validator :=
  (vs.filter (fun v => v.votingPower ≠ 0)).map (Validator.updated updates)

theorem updatedValidators_append (updates : List TypedUpdate) (vs ws : List Validator) :
    updatedValidators updates (vs ++ ws)
      = updatedValidators updates vs ++ updatedValidators updates ws := by
  unfold updatedValidators
  rw [List.filter_append, List.map_append]

theorem updatedValidators_of_ne (h : ∀ v ∈ vs, v.votingPower ≠ 0) :
    updatedValidators updates vs = vs.map (Validator.updated updates) := by
  unfold updatedValidators
  rw [List.filter_eq_self.mpr fun v hv => decide_eq_true (h v hv)]

theorem updatedValidators_eq_nil_iff :
    updatedValidators updates vs = [] ↔ ∀ v ∈ vs, v.votingPower = 0 := by
  unfold updatedValidators
  rw [List.map_eq_nil_iff, List.filter_eq_nil_iff]
  simp only [decide_eq_true_iff, not_not]

/-- The variables of the first loop when it is done with some validators. -/
def UpdateLoop.after (updates : List TypedUpdate) (done pending : List Validator) :
    UpdateLoop where
  vs := updatedValidators updates done ++ pending
  i := (updatedValidators updates done).length
  addedIndex := unusedUpdates updates done

theorem UpdateLoop.pending_after (updates : List TypedUpdate) (done pending : List Validator) :
    (UpdateLoop.after updates done pending).pending = pending :=
  List.drop_left

theorem nodup_unusedUpdates (updates : List TypedUpdate) (vs : List Validator) :
    (unusedUpdates updates vs).Nodup :=
  List.nodup_range.filter _

theorem unusedUpdates_concat (hj : usedIndex updates v = some j) :
    unusedUpdates updates (done ++ [v]) = (unusedUpdates updates done).erase j := by
  rw [(nodup_unusedUpdates updates done).erase_eq_filter]
  unfold unusedUpdates
  rw [List.filter_filter]
  refine List.filter_congr fun k _ => ?_
  rw [List.map_append, List.map_singleton, hj]
  by_cases hk : k = j
  · simp [hk]
  · simp [hk, List.mem_append]

/-- **One round is done with one validator.** -/
theorem updateValidator_after (hv : Named updates v) :
    updateValidator updates (.after updates done (v :: pending))
      = .after updates (done ++ [v]) pending := by
  obtain ⟨⟨update, j⟩, hfind⟩ :=
    Option.isSome_iff_exists.mp ((named_iff_findUpdate_isSome v).mp hv)
  have hused : usedIndex updates v = some j := by rw [usedIndex, hfind]; rfl
  unfold updateValidator
  rw [UpdateLoop.getElem?_of_pending (UpdateLoop.pending_after ..)]
  dsimp only
  rw [hfind]
  dsimp only
  by_cases hpower : v.votingPower = 0
  · rw [if_pos hpower]
    unfold UpdateLoop.after
    have hgone : updatedValidators updates [v] = [] :=
      updatedValidators_eq_nil_iff.mpr (by simpa using hpower)
    rw [updatedValidators_append, hgone, List.append_nil, unusedUpdates_concat hused]
    dsimp only
    rw [List.eraseIdx_append_of_length_le (le_refl _), Nat.sub_self]
    rfl
  · rw [if_neg hpower]
    have hupdated : v.updated updates = { v with votingPower := update.power } := by
      rw [Validator.updated, hfind]
    have hstays : updatedValidators updates [v] = [{ v with votingPower := update.power }] := by
      rw [updatedValidators_of_ne (by simpa using hpower), List.map_singleton, hupdated]
    unfold UpdateLoop.after
    rw [updatedValidators_append, hstays, unusedUpdates_concat hused]
    dsimp only
    rw [List.set_append_right _ _ (le_refl _), Nat.sub_self, List.length_append]
    simp

/-- **The first loop, once it has ended**, is done with all validators. -/
theorem exists_run_after (done pending : List Validator)
    (hnamed : ∀ v ∈ pending, Named updates v) :
    ∃ rounds, Loop.run UpdateLoop.goesOn (updateValidator updates) rounds
      (.after updates done pending) = some (.after updates (done ++ pending) []) := by
  induction pending generalizing done with
  | nil =>
    refine ⟨1, ?_⟩
    have hends : (UpdateLoop.after updates done []).goesOn = false := by
      rw [← Bool.not_eq_true, UpdateLoop.goesOn_iff, not_ne_iff, UpdateLoop.pending_after]
    unfold Loop.run
    rw [hends, List.append_nil]
    rfl
  | cons v pending ih =>
    obtain ⟨rounds, hrounds⟩ := ih (done ++ [v])
      fun w hw => hnamed w (List.mem_cons_of_mem v hw)
    refine ⟨rounds + 1, ?_⟩
    have hgoes : (UpdateLoop.after updates done (v :: pending)).goesOn = true := by
      rw [UpdateLoop.goesOn_iff, UpdateLoop.pending_after]
      exact List.cons_ne_nil v pending
    unfold Loop.run
    rw [if_pos hgoes, updateValidator_after (hnamed v List.mem_cons_self), hrounds,
      List.append_assoc, List.singleton_append]

theorem UpdateLoop.start_eq_after (vset : ValidatorSet) (updates : List TypedUpdate) :
    UpdateLoop.start vset updates = .after updates [] vset.validators := by
  unfold UpdateLoop.start UpdateLoop.after unusedUpdates
  simp [updatedValidators]

/-- **If the first loop has ended**, every validator was mentioned, and it is
done with all of them. -/
theorem run_start_eq {rounds : ℕ} {s : UpdateLoop}
    (h : Loop.run UpdateLoop.goesOn (updateValidator updates) rounds (.start vset updates)
      = some s) :
    s = .after updates vset.validators [] := by
  have hends : Loop.Terminates UpdateLoop.goesOn (updateValidator updates)
      (.start vset updates) := ⟨rounds, by rw [h]; rfl⟩
  have hnamed : ∀ v ∈ vset.validators, Named updates v := loop_terminates_iff.mp hends
  obtain ⟨rounds', hrounds⟩ := exists_run_after [] vset.validators hnamed
  rw [← UpdateLoop.start_eq_after, List.nil_append] at hrounds
  exact Loop.run_unique h hrounds

/-- What `NewValidatorSet` is called with in the end. -/
def appliedValidators (K : KeyLibrary) (order : List ℕ → List ℕ) (vset : ValidatorSet)
    (updates : List TypedUpdate) : List Validator :=
  addValidators K updates (order (unusedUpdates updates vset.validators))
    (updatedValidators updates vset.validators)

/-- What `NewValidatorSet` returns, or that it panics. -/
def newSet (E : Env) (vals : List Validator) : Except Panic ValidatorSet :=
  match E.newValidatorSet vals with
  | none => .error (.explicit "NewValidatorSet")
  | some vset => .ok vset

theorem newSet_eq_ok {E : Env} {vals : List Validator} :
    newSet E vals = .ok vset ↔ E.newValidatorSet vals = some vset := by
  unfold newSet
  cases E.newValidatorSet vals <;> simp

/-- **If `ApplyUpdatesToValidatorSet` returns**, it returns what
`NewValidatorSet` makes of the validators that stay and of the ones that are
added. -/
theorem applyUpdates_some {E : Env} {K : KeyLibrary} {order : List ℕ → List ℕ} {rounds : ℕ}
    {r : Except Panic ValidatorSet}
    (h : applyUpdatesToValidatorSet E K order vset updates rounds = some r) :
    r = newSet E (appliedValidators K order vset updates) := by
  obtain ⟨s, hs, rfl⟩ := Option.map_eq_some_iff.mp h
  have hvs : (UpdateLoop.after updates vset.validators []).vs
      = updatedValidators updates vset.validators := List.append_nil _
  rw [run_start_eq hs, hvs]
  rfl

/-- **It returns if every validator is mentioned.** -/
theorem applyUpdates_eq {E : Env} {K : KeyLibrary} {order : List ℕ → List ℕ}
    (hnamed : ∀ v ∈ vset.validators, Named updates v) (r : Except Panic ValidatorSet) :
    (∃ rounds, applyUpdatesToValidatorSet E K order vset updates rounds = some r)
      ↔ r = newSet E (appliedValidators K order vset updates) := by
  constructor
  · rintro ⟨rounds, h⟩
    exact applyUpdates_some h
  · rintro rfl
    have hends : UpdatesTerminate E K order vset updates := by
      rw [updatesTerminate_iff_loop, loop_terminates_iff]
      exact hnamed
    obtain ⟨rounds, hrounds⟩ := hends
    obtain ⟨r, hr⟩ := Option.isSome_iff_exists.mp hrounds
    exact ⟨rounds, hr.trans (congrArg some (applyUpdates_some hr))⟩

end Result

/-! ## The updates that are used -/

section Used

variable {updates : List TypedUpdate} {vs : List Validator}

/-- The key and the power of a validator. -/
def Validator.stake (v : Validator) : Bytes × ℤ := (v.pubKey.bytes, v.votingPower)

/-- The key and the power of an update. -/
def TypedUpdate.stake (u : TypedUpdate) : Bytes × ℤ := (u.pubKeyBytes, u.power)

/-- The updates whose key no validator has. -/
def newcomers (updates : List TypedUpdate) (vs : List Validator) : List TypedUpdate :=
  updates.filter (fun u => u.pubKeyBytes ∉ vs.map (·.pubKey.bytes))

theorem mem_newcomers {u : TypedUpdate} :
    u ∈ newcomers updates vs
      ↔ u ∈ updates ∧ u.pubKeyBytes ∉ vs.map (·.pubKey.bytes) := by
  unfold newcomers
  rw [List.mem_filter, decide_eq_true_iff]

theorem findUpdate_some {v : Validator} {u : TypedUpdate} (h : findUpdate updates v = some (u, j)) :
    updates[j]? = some u ∧ u.pubKeyBytes = v.pubKey.bytes := by
  unfold findUpdate at h
  have hkey := List.find?_some h
  exact ⟨List.mem_zipIdx_iff_getElem?.mp (List.mem_of_find?_eq_some h),
    (of_decide_eq_true hkey).symm⟩

/-- A validator that is named gets the stake of the update it uses. -/
theorem exists_used {v : Validator} (hv : Named updates v) :
    ∃ u j, usedIndex updates v = some j ∧ updates[j]? = some u
      ∧ (v.updated updates).stake = u.stake := by
  obtain ⟨⟨u, j⟩, hfind⟩ := Option.isSome_iff_exists.mp ((named_iff_findUpdate_isSome v).mp hv)
  obtain ⟨hget, hkey⟩ := findUpdate_some hfind
  refine ⟨u, j, by rw [usedIndex, hfind]; rfl, hget, ?_⟩
  rw [Validator.updated, hfind]
  exact Prod.ext hkey.symm rfl

/-- Two validators that use the same update have the same key. -/
theorem key_eq_of_usedIndex_eq {v w : Validator} (hv : usedIndex updates v = some j)
    (hw : usedIndex updates w = some j) : v.pubKey.bytes = w.pubKey.bytes := by
  obtain ⟨⟨u, _⟩, hfind, rfl⟩ := Option.map_eq_some_iff.mp hv
  obtain ⟨⟨u', _⟩, hfind', rfl⟩ := Option.map_eq_some_iff.mp hw
  obtain ⟨hget, hkey⟩ := findUpdate_some hfind
  obtain ⟨hget', hkey'⟩ := findUpdate_some hfind'
  obtain rfl : u = u' := Option.some.inj (hget.symm.trans hget')
  exact hkey.symm.trans hkey'

theorem filterMap_range_getElem? {α : Type} (l : List α) :
    (List.range l.length).filterMap (l[·]?) = l := by
  have hmap : (List.range l.length).map (l[·]?) = l.map some := by
    refine List.ext_getElem (by simp) fun n hn _ => ?_
    rw [List.length_map, List.length_range] at hn
    simp [hn]
  calc (List.range l.length).filterMap (l[·]?)
      = ((List.range l.length).map (l[·]?)).filterMap id := by rw [List.filterMap_map]; rfl
    _ = l := by rw [hmap, List.filterMap_map]; exact List.filterMap_some

/-- **Every update is used or left over**, if no two validators share a
key. -/
theorem perm_used (hvs : (vs.map (·.pubKey.bytes)).Nodup) (hnamed : ∀ v ∈ vs, Named updates v) :
    (vs.map (fun v => (v.updated updates).stake)
      ++ ((unusedUpdates updates vs).filterMap (updates[·]?)).map TypedUpdate.stake).Perm
      (updates.map TypedUpdate.stake) := by
  -- from the right: the last validator takes one update from those left over
  induction vs using List.reverseRecOn with
  | nil =>
    have hall : (unusedUpdates updates []).filterMap (updates[·]?) = updates := by
      unfold unusedUpdates
      rw [List.filter_eq_self.mpr (by simp)]
      exact filterMap_range_getElem? updates
    rw [hall]
    exact .refl _
  | append_singleton vs v ih =>
    rw [List.map_append, List.map_singleton, List.nodup_append] at hvs
    obtain ⟨u, j, hused, hget, hstake⟩ := exists_used (hnamed v (by simp))
    have hunused : j ∈ unusedUpdates updates vs := by
      refine List.mem_filter.mpr ⟨List.mem_range.mpr (List.getElem?_eq_some_iff.mp hget).1, ?_⟩
      rw [decide_eq_true_iff, List.mem_map]
      rintro ⟨w, hw, hused'⟩
      exact hvs.2.2 _ (List.mem_map_of_mem hw) _ (List.mem_singleton.mpr rfl)
        (key_eq_of_usedIndex_eq hused' hused)
    have hsplit := ((List.perm_cons_erase hunused).filterMap (updates[·]?)).map TypedUpdate.stake
    rw [List.filterMap_cons, hget, List.map_cons] at hsplit
    refine List.Perm.trans ?_ (ih hvs.1 fun w hw => hnamed w (List.mem_append_left _ hw))
    rw [unusedUpdates_concat hused, List.map_append, List.map_singleton, hstake,
      List.append_assoc]
    exact hsplit.symm.append_left _

/-- **The update with a validator's key is the one it uses**, if no two
updates share a key. -/
theorem usedIndex_eq_some_iff {v : Validator} {u : TypedUpdate}
    (hupdates : (updates.map (·.pubKeyBytes)).Nodup) (hget : updates[j]? = some u) :
    usedIndex updates v = some j ↔ v.pubKey.bytes = u.pubKeyBytes := by
  constructor
  · intro hused
    obtain ⟨⟨u', _⟩, hfind, rfl⟩ := Option.map_eq_some_iff.mp hused
    obtain ⟨hget', hkey⟩ := findUpdate_some hfind
    rw [← hkey, Option.some.inj (hget.symm.trans hget')]
  · intro hkey
    obtain ⟨u', j', hused, hget', hstake⟩ :=
      exists_used (v := v) ⟨u, List.mem_of_getElem? hget, hkey.symm⟩
    have hkeys : (updates.map (·.pubKeyBytes))[j']? = (updates.map (·.pubKeyBytes))[j]? := by
      have hkey' : (v.updated updates).pubKey.bytes = u'.pubKeyBytes := congrArg Prod.fst hstake
      rw [Validator.pubKey_updated, hkey] at hkey'
      rw [List.getElem?_map, List.getElem?_map, hget, hget', Option.map_some, Option.map_some,
        hkey']
    have hlt : j' < (updates.map (·.pubKeyBytes)).length := by
      rw [List.length_map]
      exact (List.getElem?_eq_some_iff.mp hget').1
    rwa [← (List.getElem?_inj hlt hupdates).mp hkeys]

/-- **What is left over are the newcomers**, in some order, if no two updates
share a key. -/
theorem perm_newcomers {l : List ℕ} (hupdates : (updates.map (·.pubKeyBytes)).Nodup)
    (hl : l.Perm (unusedUpdates updates vs)) :
    (l.filterMap (updates[·]?)).Perm (newcomers updates vs) := by
  refine (hl.filterMap _).trans ((List.perm_ext_iff_of_nodup ?_ (hupdates.of_map.filter _)).mpr ?_)
  · refine (nodup_unusedUpdates updates vs).filterMap fun j j' u hj hj' => ?_
    exact (List.getElem?_inj (List.getElem?_eq_some_iff.mp hj).1 hupdates.of_map).mp
      (hj.trans hj'.symm)
  · intro u
    show _ ↔ u ∈ newcomers updates vs
    rw [List.mem_filterMap, mem_newcomers]
    have hunused : ∀ j, updates[j]? = some u →
        (j ∈ unusedUpdates updates vs ↔ u.pubKeyBytes ∉ vs.map (·.pubKey.bytes)) := by
      intro j hget
      unfold unusedUpdates
      rw [List.mem_filter, decide_eq_true_iff, List.mem_map, List.mem_map,
        and_iff_right (List.mem_range.mpr (List.getElem?_eq_some_iff.mp hget).1)]
      simp only [usedIndex_eq_some_iff hupdates hget]
    constructor
    · rintro ⟨j, hj, hget⟩
      exact ⟨List.mem_of_getElem? hget, (hunused j hget).mp hj⟩
    · rintro ⟨hu, hkey⟩
      obtain ⟨j, hget⟩ := List.getElem?_of_mem hu
      exact ⟨j, (hunused j hget).mpr hkey, hget⟩

end Used

/-! ## The validators that are added -/

section Added

variable {K : KeyLibrary} {updates : List TypedUpdate} {vs : List Validator} {l : List ℕ}

/-- `cmttypes.NewValidator` of an update, if its key can be decoded. -/
def KeyLibrary.newValidator (K : KeyLibrary) (added : TypedUpdate) : Option Validator :=
  (K.pubKeyFromTypeAndBytes added.pubKeyType added.pubKeyBytes).map
    fun pubKey => ⟨K.address pubKey, pubKey, added.power⟩

theorem addValidators_cons {u : TypedUpdate} (hget : updates[j]? = some u) :
    addValidators K updates (j :: l) vs = match K.newValidator u with
      | none => vs
      | some v => addValidators K updates l (vs ++ [v]) := by
  rw [addValidators, hget]
  dsimp only
  unfold KeyLibrary.newValidator
  cases K.pubKeyFromTypeAndBytes u.pubKeyType u.pubKeyBytes <;> rfl

/-- **If all keys can be decoded, all are added.** -/
theorem addValidators_of_all (hindex : ∀ j ∈ l, j < updates.length)
    (hall : ∀ u ∈ l.filterMap (updates[·]?), (K.newValidator u).isSome = true) :
    addValidators K updates l vs = vs ++ (l.filterMap (updates[·]?)).filterMap K.newValidator := by
  induction l generalizing vs with
  | nil => exact (List.append_nil vs).symm
  | cons j l ih =>
    have hget := List.getElem?_eq_getElem (hindex j List.mem_cons_self)
    rw [List.filterMap_cons_some hget] at hall ⊢
    obtain ⟨v, hv⟩ := Option.isSome_iff_exists.mp (hall _ List.mem_cons_self)
    rw [addValidators_cons hget, hv, List.filterMap_cons_some hv]
    dsimp only
    rw [ih (fun k hk => hindex k (List.mem_cons_of_mem j hk))
      (fun u hu => hall u (List.mem_cons_of_mem _ hu)), List.append_assoc, List.singleton_append]

/-- **If no key can be decoded, none is added.** -/
theorem addValidators_of_none (hindex : ∀ j ∈ l, j < updates.length)
    (hnone : ∀ u ∈ l.filterMap (updates[·]?), K.newValidator u = none) :
    addValidators K updates l vs = vs := by
  cases l with
  | nil => rfl
  | cons j l =>
    have hget := List.getElem?_eq_getElem (hindex j List.mem_cons_self)
    rw [List.filterMap_cons_some hget] at hnone
    rw [addValidators_cons hget, hnone _ List.mem_cons_self]

/-- What is in the list stays in it. -/
theorem mem_addValidators_of_mem {v : Validator} (hindex : ∀ j ∈ l, j < updates.length)
    (hv : v ∈ vs) : v ∈ addValidators K updates l vs := by
  induction l generalizing vs with
  | nil => exact hv
  | cons j l ih =>
    have hj := hindex j List.mem_cons_self
    rw [addValidators_cons (List.getElem?_eq_getElem hj)]
    cases K.newValidator updates[j] with
    | none => exact hv
    | some w =>
      exact ih (fun k hk => hindex k (List.mem_cons_of_mem j hk)) (List.mem_append_left _ hv)

end Added

/-! ## Updates that are applied exactly -/

/-- `cmttypes.MaxTotalVotingPower`. -/
def maxTotalVotingPower : ℤ := (2 ^ 63 - 1) / 8

/-- **The lists `cmttypes.NewValidatorSet` does not panic on**: no address
twice, no power that is not positive, and not too much power. -/
structure Acceptable (vals : List Validator) : Prop where
  addresses : (vals.map (·.address)).Nodup
  powers : ∀ v ∈ vals, 0 < v.votingPower
  total : (vals.map (·.votingPower)).sum ≤ maxTotalVotingPower

/-- What is relied on of CometBFT: `NewValidatorSet` sorts the lists it
accepts, and a decoded key has the bytes it was decoded from. -/
structure SetLibrary (E : Env) (K : KeyLibrary) : Prop where
  accepts : ∀ vals, (E.newValidatorSet vals).isSome = true ↔ Acceptable vals
  perm : ∀ vals vset, E.newValidatorSet vals = some vset → vset.validators.Perm vals
  bytes : ∀ type bytes pubKey, K.pubKeyFromTypeAndBytes type bytes = some pubKey →
    pubKey.bytes = bytes

/-- **The updates are applied exactly**: in whichever order the map is ranged
over, a set is returned, and its validators are the updates with a power other
than zero. -/
def AppliedExactly (E : Env) (K : KeyLibrary) (vset : ValidatorSet)
    (updates : List TypedUpdate) : Prop :=
  ∀ order : List ℕ → List ℕ, (∀ l, (order l).Perm l) →
    ∃ rounds nextVSet,
      applyUpdatesToValidatorSet E K order vset updates rounds = some (.ok nextVSet)
        ∧ (nextVSet.validators.map Validator.stake).Perm
          ((updates.filter (fun u => u.power ≠ 0)).map TypedUpdate.stake)

/-- **The updates the code gets right.** An update of a validator has a
positive power. The others all have a key that can be decoded and a positive
power, or all a key that cannot be and power zero. -/
structure Applicable (K : KeyLibrary) (vs : List Validator) (updates : List TypedUpdate) :
    Prop where
  stays : ∀ u ∈ updates, u.pubKeyBytes ∈ vs.map (·.pubKey.bytes) → 0 < u.power
  joins : (∀ u ∈ newcomers updates vs, (K.newValidator u).isSome = true ∧ 0 < u.power)
    ∨ (∀ u ∈ newcomers updates vs, K.newValidator u = none ∧ u.power = 0)
  addresses : (vs.map (·.address)
    ++ ((newcomers updates vs).filterMap K.newValidator).map (·.address)).Nodup
  total : (updates.map (·.power)).sum ≤ maxTotalVotingPower

section Exact

variable {E : Env} {K : KeyLibrary} {vs : List Validator} {updates : List TypedUpdate}
  {l : List ℕ}

theorem SetLibrary.stake_newValidator (hlib : SetLibrary E K) {u : TypedUpdate} {v : Validator}
    (h : K.newValidator u = some v) : v.stake = u.stake := by
  obtain ⟨pubKey, hkey, rfl⟩ := Option.map_eq_some_iff.mp h
  exact Prod.ext (hlib.bytes _ _ _ hkey) rfl

theorem SetLibrary.map_stake_newValidator (hlib : SetLibrary E K) {us : List TypedUpdate}
    (hall : ∀ u ∈ us, (K.newValidator u).isSome = true) :
    (us.filterMap K.newValidator).map Validator.stake = us.map TypedUpdate.stake := by
  induction us with
  | nil => rfl
  | cons u us ih =>
    obtain ⟨v, hv⟩ := Option.isSome_iff_exists.mp (hall u List.mem_cons_self)
    rw [List.filterMap_cons_some hv, List.map_cons, List.map_cons, hlib.stake_newValidator hv,
      ih fun u' hu' => hall u' (List.mem_cons_of_mem u hu')]

/-- The total power is a matter of the stakes. -/
theorem sum_votingPower_eq (vals : List Validator) :
    (vals.map (·.votingPower)).sum = ((vals.map Validator.stake).map Prod.snd).sum := by
  rw [List.map_map]
  rfl

theorem sum_power_eq (updates : List TypedUpdate) :
    (updates.map (·.power)).sum = ((updates.map TypedUpdate.stake).map Prod.snd).sum := by
  rw [List.map_map]
  rfl

theorem stake_filter_eq (updates : List TypedUpdate) :
    (updates.filter (fun u => u.power ≠ 0)).map TypedUpdate.stake
      = (updates.map TypedUpdate.stake).filter (fun stake => stake.2 ≠ 0) := by
  rw [List.filter_map]
  rfl

/-- The list is accepted, and it is what the updates ask for. -/
structure IsExact (updates : List TypedUpdate) (vals : List Validator) : Prop where
  acceptable : Acceptable vals
  stakes : (vals.map Validator.stake).Perm
    ((updates.map TypedUpdate.stake).filter (fun stake => stake.2 ≠ 0))

/-- **Applied exactly** means that every list `NewValidatorSet` can be called
with is accepted and exact. -/
theorem appliedExactly_iff_isExact (hlib : SetLibrary E K)
    (hpos : ∀ v ∈ vset.validators, 0 < v.votingPower)
    (hnamed : ∀ v ∈ vset.validators, Named updates v) :
    AppliedExactly E K vset updates
      ↔ ∀ l, l.Perm (unusedUpdates updates vset.validators) → IsExact updates
        (addValidators K updates l (vset.validators.map (Validator.updated updates))) := by
  have hstay : updatedValidators updates vset.validators
      = vset.validators.map (Validator.updated updates) :=
    updatedValidators_of_ne fun v hv => (hpos v hv).ne'
  have hone : ∀ order : List ℕ → List ℕ, (∃ rounds nextVSet,
      applyUpdatesToValidatorSet E K order vset updates rounds = some (.ok nextVSet)
        ∧ (nextVSet.validators.map Validator.stake).Perm
          ((updates.filter (fun u => u.power ≠ 0)).map TypedUpdate.stake))
      ↔ IsExact updates (addValidators K updates (order (unusedUpdates updates vset.validators))
        (vset.validators.map (Validator.updated updates))) := by
    intro order
    have heq : ∀ r, (∃ rounds, applyUpdatesToValidatorSet E K order vset updates rounds = some r)
        ↔ r = newSet E (appliedValidators K order vset updates) :=
      fun r => applyUpdates_eq hnamed r
    unfold appliedValidators at heq
    rw [hstay] at heq
    generalize addValidators K updates (order (unusedUpdates updates vset.validators))
      (vset.validators.map (Validator.updated updates)) = vals at heq ⊢
    rw [stake_filter_eq]
    constructor
    · rintro ⟨rounds, nextVSet, happly, hstakes⟩
      have hvals := newSet_eq_ok.mp ((heq (.ok nextVSet)).mp ⟨rounds, happly⟩).symm
      refine ⟨(hlib.accepts vals).mp (hvals ▸ rfl), ?_⟩
      exact ((hlib.perm vals nextVSet hvals).map _).symm.trans hstakes
    · rintro ⟨hacceptable, hstakes⟩
      obtain ⟨nextVSet, hvals⟩ := Option.isSome_iff_exists.mp ((hlib.accepts vals).mpr hacceptable)
      obtain ⟨rounds, happly⟩ := (heq (.ok nextVSet)).mpr (newSet_eq_ok.mpr hvals).symm
      exact ⟨rounds, nextVSet, happly, ((hlib.perm vals nextVSet hvals).map _).trans hstakes⟩
  unfold AppliedExactly
  simp only [hone]
  constructor
  · intro h l hl
    -- a map that is ranged over in this order
    have hordered := h (fun m => if m = unusedUpdates updates vset.validators then l else m) ?_
    · rwa [if_pos rfl] at hordered
    · intro m
      split
      next hm => exact hm ▸ hl
      next => exact .refl m
  · exact fun h order horder => h _ (horder _)

section Lists

variable (hlib : SetLibrary E K) (hkeys : (vs.map (·.pubKey.bytes)).Nodup)
  (hupdates : (updates.map (·.pubKeyBytes)).Nodup) (hnamed : ∀ v ∈ vs, Named updates v)

include hkeys hupdates hnamed in
/-- The updates are those of the validators and the newcomers. -/
theorem perm_stakes :
    ((vs.map (Validator.updated updates)).map Validator.stake
      ++ (newcomers updates vs).map TypedUpdate.stake).Perm (updates.map TypedUpdate.stake) := by
  refine List.Perm.trans ?_ (perm_used hkeys hnamed)
  rw [List.map_map]
  exact ((perm_newcomers hupdates (.refl _)).map _).symm.append_left _

/-- The keys of the validators are those before. -/
theorem key_of_stake_mem {stake : Bytes × ℤ}
    (h : stake ∈ (vs.map (Validator.updated updates)).map Validator.stake) :
    stake.1 ∈ vs.map (·.pubKey.bytes) := by
  obtain ⟨w, hw, rfl⟩ := List.mem_map.mp h
  obtain ⟨v, hv, rfl⟩ := List.mem_map.mp hw
  refine List.mem_map.mpr ⟨v, hv, ?_⟩
  show v.pubKey.bytes = (v.updated updates).pubKey.bytes
  rw [Validator.pubKey_updated]

include hkeys hupdates hnamed in
/-- The validators have positive powers if their updates have. -/
theorem powers_updated_iff :
    (∀ v ∈ vs.map (Validator.updated updates), 0 < v.votingPower)
      ↔ ∀ u ∈ updates, u.pubKeyBytes ∈ vs.map (·.pubKey.bytes) → 0 < u.power := by
  have hperm := perm_stakes hkeys hupdates hnamed
  constructor
  · intro h u hu hkey
    rcases List.mem_append.mp (hperm.mem_iff.mpr (List.mem_map_of_mem hu)) with hmem | hmem
    · obtain ⟨v, hv, hstake⟩ := List.mem_map.mp hmem
      have hpower : v.votingPower = u.power := congrArg Prod.snd hstake
      exact hpower ▸ h v hv
    · obtain ⟨u', hu', hstake⟩ := List.mem_map.mp hmem
      have hkey' : u'.pubKeyBytes = u.pubKeyBytes := congrArg Prod.fst hstake
      exact absurd (hkey' ▸ hkey) (mem_newcomers.mp hu').2
  · intro h v hv
    have hmem := List.mem_map_of_mem (f := Validator.stake) hv
    obtain ⟨u, hu, hstake⟩ := List.mem_map.mp (hperm.mem_iff.mp (List.mem_append_left _ hmem))
    have hpower : u.power = v.votingPower := congrArg Prod.snd hstake
    have hkey : u.pubKeyBytes ∈ vs.map (·.pubKey.bytes) := by
      rw [show u.pubKeyBytes = v.stake.1 from congrArg Prod.fst hstake]
      exact key_of_stake_mem hmem
    exact hpower ▸ h u hu hkey

theorem index_lt (hl : l.Perm (unusedUpdates updates vs)) : ∀ j ∈ l, j < updates.length :=
  fun _ hj => List.mem_range.mp (List.mem_filter.mp (hl.mem_iff.mp hj)).1

include hupdates in
/-- **The list if all new keys can be decoded.** -/
theorem addValidators_perm (hl : l.Perm (unusedUpdates updates vs))
    (hall : ∀ u ∈ newcomers updates vs, (K.newValidator u).isSome = true) (ws : List Validator) :
    (addValidators K updates l ws).Perm
      (ws ++ (newcomers updates vs).filterMap K.newValidator) := by
  have hperm := perm_newcomers hupdates hl
  rw [addValidators_of_all (index_lt hl) fun u hu => hall u (hperm.mem_iff.mp hu)]
  exact (hperm.filterMap _).append_left ws

include hupdates in
/-- **The list if no new key can be decoded.** -/
theorem addValidators_eq_of_none (hl : l.Perm (unusedUpdates updates vs))
    (hnone : ∀ u ∈ newcomers updates vs, K.newValidator u = none) (ws : List Validator) :
    addValidators K updates l ws = ws :=
  addValidators_of_none (index_lt hl)
    fun u hu => hnone u ((perm_newcomers hupdates hl).mem_iff.mp hu)

theorem map_address_updated :
    (vs.map (Validator.updated updates)).map (·.address) = vs.map (·.address) := by
  rw [List.map_map]
  exact List.map_congr_left fun v _ => v.address_updated updates

include hkeys hupdates hnamed in
/-- Newcomers without power do not count. -/
theorem sum_power_of_zero (hzero : ∀ u ∈ newcomers updates vs, u.power = 0) :
    (updates.map (·.power)).sum
      = ((vs.map (Validator.updated updates)).map (·.votingPower)).sum := by
  have hnothing : ((newcomers updates vs).map (·.power)).sum = 0 := by
    refine List.sum_eq_zero fun power hpower => ?_
    obtain ⟨u, hu, rfl⟩ := List.mem_map.mp hpower
    exact hzero u hu
  have hsum := ((perm_stakes hkeys hupdates hnamed).map Prod.snd).sum_eq
  rw [List.map_append, List.sum_append, ← sum_votingPower_eq, ← sum_power_eq, ← sum_power_eq,
    hnothing, add_zero] at hsum
  exact hsum.symm

include hlib hkeys hupdates hnamed in
/-- **Applicable updates are applied exactly.** -/
theorem Applicable.isExact (h : Applicable K vs updates) (hl : l.Perm (unusedUpdates updates vs)) :
    IsExact updates (addValidators K updates l (vs.map (Validator.updated updates))) := by
  have hperm := perm_stakes hkeys hupdates hnamed
  have hpowers := (powers_updated_iff hkeys hupdates hnamed).mpr h.stays
  rcases h.joins with hall | hnone
  · have hvals := addValidators_perm hupdates hl (fun u hu => (hall u hu).1)
      (vs.map (Validator.updated updates))
    have hstakes := hvals.map Validator.stake
    rw [List.map_append, hlib.map_stake_newValidator fun u hu => (hall u hu).1] at hstakes
    have hpos : ∀ stake ∈ updates.map TypedUpdate.stake, 0 < stake.2 := by
      intro stake hstake
      obtain ⟨u, hu, rfl⟩ := List.mem_map.mp hstake
      by_cases hkey : u.pubKeyBytes ∈ vs.map (·.pubKey.bytes)
      · exact h.stays u hu hkey
      · exact (hall u (mem_newcomers.mpr ⟨hu, hkey⟩)).2
    have hsame := hstakes.trans hperm
    refine ⟨⟨?_, ?_, ?_⟩, ?_⟩
    · rw [(hvals.map _).nodup_iff, List.map_append, map_address_updated]
      exact h.addresses
    · exact fun v hv => hpos v.stake (hsame.mem_iff.mp (List.mem_map_of_mem hv))
    · rw [sum_votingPower_eq, (hsame.map _).sum_eq, ← sum_power_eq]
      exact h.total
    · rw [List.filter_eq_self.mpr fun stake hstake => decide_eq_true (hpos stake hstake).ne']
      exact hsame
  · rw [addValidators_eq_of_none hupdates hl fun u hu => (hnone u hu).1]
    have hzero : ∀ stake ∈ (newcomers updates vs).map TypedUpdate.stake, stake.2 = 0 := by
      intro stake hstake
      obtain ⟨u, hu, rfl⟩ := List.mem_map.mp hstake
      exact (hnone u hu).2
    refine ⟨⟨?_, hpowers, ?_⟩, ?_⟩
    · rw [map_address_updated]
      exact h.addresses.of_append_left
    · rw [← sum_power_of_zero hkeys hupdates hnamed fun u hu => (hnone u hu).2]
      exact h.total
    · refine List.Perm.trans ?_ (hperm.filter _)
      rw [List.filter_append, List.filter_eq_self.mpr ?_, List.filter_eq_nil_iff.mpr ?_,
        List.append_nil]
      · exact fun stake hstake => by simp [hzero stake hstake]
      · intro stake hstake
        obtain ⟨v, hv, rfl⟩ := List.mem_map.mp hstake
        exact decide_eq_true (hpowers v hv).ne'

include hupdates in
/-- A newcomer can come first. -/
theorem exists_first {u : TypedUpdate} (hu : u ∈ newcomers updates vs) :
    ∃ j l, (j :: l).Perm (unusedUpdates updates vs) ∧ updates[j]? = some u := by
  have hmem : u ∈ (unusedUpdates updates vs).filterMap (updates[·]?) :=
    (perm_newcomers hupdates (.refl _)).mem_iff.mpr hu
  obtain ⟨j, hj, hget⟩ := List.mem_filterMap.mp hmem
  exact ⟨j, _, (List.perm_cons_erase hj).symm, hget⟩

include hlib hkeys hupdates hnamed in
/-- **Only applicable updates are applied exactly**, whatever the order. -/
theorem applicable_of_isExact (h : ∀ l, l.Perm (unusedUpdates updates vs) →
      IsExact updates (addValidators K updates l (vs.map (Validator.updated updates)))) :
    Applicable K vs updates := by
  have hperm := perm_stakes hkeys hupdates hnamed
  by_cases hall : ∀ u ∈ newcomers updates vs, (K.newValidator u).isSome = true
  · obtain ⟨⟨haddresses, hpowers, htotal⟩, -⟩ := h _ (.refl _)
    have hvals := addValidators_perm hupdates (.refl _) hall (vs.map (Validator.updated updates))
    have hstakes := hvals.map Validator.stake
    rw [List.map_append, hlib.map_stake_newValidator hall] at hstakes
    refine ⟨?_, .inl fun u hu => ⟨hall u hu, ?_⟩, ?_, ?_⟩
    · refine (powers_updated_iff hkeys hupdates hnamed).mp fun v hv => ?_
      exact hpowers v (hvals.mem_iff.mpr (List.mem_append_left _ hv))
    · obtain ⟨v, hv⟩ := Option.isSome_iff_exists.mp (hall u hu)
      have hpower : v.votingPower = u.power := congrArg Prod.snd (hlib.stake_newValidator hv)
      rw [← hpower]
      refine hpowers v (hvals.mem_iff.mpr (List.mem_append_right _ ?_))
      exact List.mem_filterMap.mpr ⟨u, hu, hv⟩
    · rwa [(hvals.map _).nodup_iff, List.map_append, map_address_updated] at haddresses
    · rwa [sum_votingPower_eq, ((hstakes.trans hperm).map _).sum_eq, ← sum_power_eq] at htotal
  · -- the newcomer whose key cannot be decoded comes first, and nothing is added
    push Not at hall
    obtain ⟨u', hu', hnone'⟩ := hall
    rw [ne_eq, Option.not_isSome_iff_eq_none] at hnone'
    obtain ⟨j', l', hl', hget'⟩ := exists_first hupdates hu'
    have hexact := h _ hl'
    rw [addValidators_cons hget', hnone'] at hexact
    obtain ⟨⟨haddresses, hpowers, htotal⟩, hstakes⟩ := hexact
    have hzero : ∀ u ∈ newcomers updates vs, u.power = 0 := by
      intro u hu
      by_contra hpower
      have hmem : u.stake ∈ (updates.map TypedUpdate.stake).filter (fun stake => stake.2 ≠ 0) :=
        List.mem_filter.mpr ⟨List.mem_map_of_mem (mem_newcomers.mp hu).1, decide_eq_true hpower⟩
      exact (mem_newcomers.mp hu).2 (key_of_stake_mem (hstakes.mem_iff.mpr hmem))
    have hnone : ∀ u ∈ newcomers updates vs, K.newValidator u = none := by
      intro u hu
      cases hv : K.newValidator u with
      | none => rfl
      | some v =>
        -- this one comes first, and is added without power
        obtain ⟨j, l, hl, hget⟩ := exists_first hupdates hu
        have hmem : v ∈ addValidators K updates (j :: l) (vs.map (Validator.updated updates)) := by
          rw [addValidators_cons hget, hv]
          refine mem_addValidators_of_mem (fun k hk => ?_) (by simp)
          exact index_lt hl k (List.mem_cons_of_mem j hk)
        have hpower : v.votingPower = u.power := congrArg Prod.snd (hlib.stake_newValidator hv)
        have hpos := (h _ hl).acceptable.powers v hmem
        rw [hpower, hzero u hu] at hpos
        exact absurd hpos (lt_irrefl 0)
    refine ⟨(powers_updated_iff hkeys hupdates hnamed).mp hpowers,
      .inr fun u hu => ⟨hnone u hu, hzero u hu⟩, ?_, ?_⟩
    · rw [map_address_updated] at haddresses
      rwa [List.filterMap_eq_nil_iff.mpr hnone, List.map_nil, List.append_nil]
    · rwa [sum_power_of_zero hkeys hupdates hnamed hzero]

end Lists

/-- **The updates are applied exactly if and only if they are applicable**,
for validators with distinct keys and positive powers, and updates with
distinct keys that mention every validator. -/
theorem appliedExactly_iff {vset : ValidatorSet} (hlib : SetLibrary E K)
    (hkeys : (vset.validators.map (·.pubKey.bytes)).Nodup)
    (hpos : ∀ v ∈ vset.validators, 0 < v.votingPower)
    (hupdates : (updates.map (·.pubKeyBytes)).Nodup)
    (hall : ∀ v ∈ vset.validators, v.pubKey.bytes ∈ updates.map (·.pubKeyBytes)) :
    AppliedExactly E K vset updates ↔ Applicable K vset.validators updates := by
  have hnamed : ∀ v ∈ vset.validators, Named updates v :=
    fun v hv => List.mem_map.mp (hall v hv)
  rw [appliedExactly_iff_isExact hlib hpos hnamed]
  constructor
  · exact applicable_of_isExact hlib hkeys hupdates hnamed
  · exact fun h l hl => h.isExact hlib hkeys hupdates hnamed hl

end Exact

namespace Testnet

/-- `NewValidatorSet` as it is: by power, the highest first, then by
address. -/
def sortingEnv : Env :=
  { env with
    newValidatorSet := fun vals => if (vals.map (·.address)).Nodup
        ∧ (∀ v ∈ vals, 0 < v.votingPower)
        ∧ (vals.map (·.votingPower)).sum ≤ maxTotalVotingPower
      then some ⟨vals.insertionSort (fun v w => w.votingPower < v.votingPower
        ∨ v.votingPower = w.votingPower ∧ v.address ≤ w.address)⟩
      else none
    validatorSetHash := fun vset =>
      hashes.merkleRoot (vset.validators.map fun v =>
        v.pubKey.bytes ++ Rlp.beBytes 8 v.votingPower.toNat) }

theorem setLibrary : SetLibrary sortingEnv keyLibrary where
  accepts vals := by
    show (if _ then _ else none : Option ValidatorSet).isSome = true ↔ _
    split
    next h => exact ⟨fun _ => ⟨h.1, h.2.1, h.2.2⟩, fun _ => rfl⟩
    next h => exact ⟨fun hsome => (nomatch hsome), fun ha => absurd ⟨ha.1, ha.2, ha.3⟩ h⟩
  perm vals vset h := by
    change (if _ then _ else none : Option ValidatorSet) = some vset at h
    split at h
    next => exact Option.some.inj h ▸ List.perm_insertionSort _ vals
    next => exact nomatch h
  bytes _ _ _ h := by
    cases h
    rfl

/-- An update of a key by its number. -/
def update (k : UInt8) (power : ℤ) : TypedUpdate := ⟨⟨[k], power⟩, "bls12_381"⟩

/-- **A validator gets more power and a fifth one joins.** -/
theorem fifth_joins :
    AppliedExactly sortingEnv keyLibrary committee
      [update 0 1, update 1 5, update 2 1, update 3 1, update 4 2] :=
  (appliedExactly_iff setLibrary (by decide) (by decide) (by decide) (by decide)).mpr
    ⟨by decide, .inl (by decide), by decide, by decide⟩

/-- **A validator cannot be removed**: for the update with power zero, the
function panics. -/
theorem removal_panics :
    let updates := [update 0 1, update 1 1, update 2 1, update 3 0]
    (∀ v ∈ committee.validators, v.pubKey.bytes ∈ updates.map (·.pubKeyBytes))
      ∧ applyUpdatesToValidatorSet sortingEnv keyLibrary id committee updates 5
        = some (.error (.explicit "NewValidatorSet"))
      ∧ ¬ AppliedExactly sortingEnv keyLibrary committee updates := by
  have hpanics : applyUpdatesToValidatorSet sortingEnv keyLibrary id committee
      [update 0 1, update 1 1, update 2 1, update 3 0] 5
      = some (.error (.explicit "NewValidatorSet")) := rfl
  refine ⟨by decide, hpanics, fun happlied => ?_⟩
  obtain ⟨rounds, nextVSet, hreturns, -⟩ := happlied id fun l => .refl l
  exact nomatch (applyUpdates_some hreturns).trans (applyUpdates_some hpanics).symm

end Testnet

end LoragonBFT
