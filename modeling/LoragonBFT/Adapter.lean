import LoragonBFT.Testnet
import LoragonBFT.Util.Machine

/-!
# The adapter of a validator set

A `ValidatorSetAdapter` is a list of validators that one changes by key. What
it is for is a map from keys to validators: an upsert sets the value of its
key, a deletion removes it. Both are played next to each other here, the list
and the map (`AdapterState`), and the list represents the map if its keys are
distinct and a lookup finds what the map says (`AdapterState.Represents`).

A deletion keeps this. `Upsert`, however, appends the validator in any case,
and from an entry that is already there it only takes the address over. So an
upsert is an insertion: it keeps the representation exactly if the key is not
there (`represents_upsert_iff`), and the adapter is right along a sequence of
calls exactly if each of its upserts is one of a new key (`represents_iff`).
-/

namespace LoragonBFT

/-- The key of a validator, as the adapter compares it. -/
abbrev Validator.key (v : Validator) : Bytes := v.pubKey.bytes

/-- A call that changes an adapter. -/
inductive AdapterCall where
  | upsert (newV : Validator)
  | deleteByPubkey (pubkeyBytes : Bytes)

/-- The list of an adapter, and the map it is to be. -/
structure AdapterState where
  validators : List Validator
  /-- The value of the last upsert of a key, unless it was deleted since. -/
  latest : Bytes → Option Validator

namespace AdapterState

/-- `NewValidatorSetAdapter`: the validators of the set are there as if they
had been upserted. -/
def new (vset : ValidatorSet) : AdapterState :=
  ⟨vset.validators, getByPubkey vset.validators⟩

/-- A call, on the list and on the map. -/
def step (s : AdapterState) : AdapterCall → AdapterState
  | .upsert newV => ⟨upsert s.validators newV, Function.update s.latest newV.key (some newV)⟩
  | .deleteByPubkey key => ⟨deleteByPubkey s.validators key, Function.update s.latest key none⟩

/-- **The list represents the map.** -/
structure Represents (s : AdapterState) : Prop where
  nodup : (s.validators.map Validator.key).Nodup
  get : ∀ key, getByPubkey s.validators key = s.latest key

/-- The call is not an upsert of a key that is there. -/
def Fresh (s : AdapterState) : AdapterCall → Prop
  | .upsert newV => getByPubkey s.validators newV.key = none
  | .deleteByPubkey _ => True

variable {s : AdapterState} {vals : List Validator} {newV : Validator} {key key' : Bytes}

theorem getByPubkey_cons (v : Validator) :
    getByPubkey (v :: vals) key = if v.key = key then some v else getByPubkey vals key := by
  unfold getByPubkey
  rw [List.find?_cons]
  by_cases hv : v.key = key
  · rw [if_pos hv, decide_eq_true hv]
  · rw [if_neg hv, decide_eq_false hv]

theorem deleteByPubkey_cons (v : Validator) :
    deleteByPubkey (v :: vals) key
      = if v.key = key then vals else v :: deleteByPubkey vals key := by
  unfold deleteByPubkey
  rw [List.eraseP_cons]
  by_cases hv : v.key = key
  · rw [if_pos hv, decide_eq_true hv]
    rfl
  · rw [if_neg hv, decide_eq_false hv]
    rfl

theorem getByPubkey_eq_none : getByPubkey vals key = none ↔ key ∉ vals.map Validator.key := by
  unfold getByPubkey
  rw [List.find?_eq_none, List.mem_map]
  simp only [decide_eq_true_eq, not_exists, not_and]

/-! ## Deletions -/

/-- **A deletion deletes**: of distinct keys, the first entry of a key is its
only one. -/
theorem getByPubkey_deleteByPubkey (h : (vals.map Validator.key).Nodup) :
    getByPubkey (deleteByPubkey vals key) key'
      = if key' = key then none else getByPubkey vals key' := by
  induction vals with
  | nil => exact (ite_self none).symm
  | cons v vals ih =>
    rw [List.map_cons, List.nodup_cons] at h
    rw [deleteByPubkey_cons, getByPubkey_cons]
    by_cases hv : v.key = key
    · rw [if_pos hv]
      by_cases hkey : key' = key
      · rw [if_pos hkey, getByPubkey_eq_none, hkey, ← hv]
        exact h.1
      · rw [if_neg hkey, if_neg (fun hv' => hkey (hv'.symm.trans hv))]
    · rw [if_neg hv, getByPubkey_cons, ih h.2]
      by_cases hkey : key' = key
      · rw [if_pos hkey, if_pos hkey, if_neg (fun hv' => hv (hv'.trans hkey))]
      · rw [if_neg hkey, if_neg hkey]

theorem represents_deleteByPubkey (h : s.Represents) (key : Bytes) :
    (s.step (.deleteByPubkey key)).Represents where
  nodup := h.nodup.sublist ((List.eraseP_sublist).map _)
  get key' := by
    show getByPubkey (deleteByPubkey s.validators key) key' = Function.update s.latest key none key'
    rw [getByPubkey_deleteByPubkey h.nodup, Function.update_apply, h.get]

/-! ## Upserts -/

/-- The keys of the list: the new one comes on top. -/
theorem keys_upsert :
    (upsert vals newV).map Validator.key = vals.map Validator.key ++ [newV.key] := by
  have hkey : ∀ v : Validator, (if v.key = newV.key
      then { v with address := newV.address } else v).key = v.key := by
    intro v
    split <;> rfl
  unfold upsert
  rw [List.map_append, List.map_map, List.map_singleton]
  exact congrArg (· ++ [newV.key]) (List.map_congr_left fun v _ => hkey v)

/-- An upsert of a new key changes no entry. -/
theorem upsert_of_none (h : getByPubkey vals newV.key = none) :
    upsert vals newV = vals ++ [newV] := by
  unfold upsert
  have hmap : ∀ v ∈ vals, (if v.key = newV.key
      then { v with address := newV.address } else v) = id v := by
    intro v hv
    exact if_neg fun heq => getByPubkey_eq_none.mp h (List.mem_map.mpr ⟨v, hv, heq⟩)
  rw [List.map_congr_left hmap, List.map_id]

/-- **An upsert is right exactly for a new key**: the key of an old one would
be there twice. -/
theorem represents_upsert_iff (h : s.Represents) (newV : Validator) :
    (s.step (.upsert newV)).Represents ↔ getByPubkey s.validators newV.key = none := by
  constructor
  · intro h'
    have hnodup : ((upsert s.validators newV).map Validator.key).Nodup := h'.nodup
    rw [keys_upsert, List.nodup_append] at hnodup
    exact getByPubkey_eq_none.mpr fun hmem =>
      hnodup.2.2 _ hmem _ (List.mem_singleton_self _) rfl
  · intro hnone
    refine ⟨?_, fun key => ?_⟩
    · show ((upsert s.validators newV).map Validator.key).Nodup
      rw [keys_upsert]
      exact (List.perm_append_singleton _ _).nodup_iff.mpr
        (List.nodup_cons.mpr ⟨getByPubkey_eq_none.mp hnone, h.nodup⟩)
    · show getByPubkey (upsert s.validators newV) key
        = Function.update s.latest newV.key (some newV) key
      have happend : getByPubkey (s.validators ++ [newV]) key
          = (getByPubkey s.validators key).or (getByPubkey [newV] key) := List.find?_append
      rw [upsert_of_none hnone, happend, getByPubkey_cons, Function.update_apply]
      by_cases hkey : key = newV.key
      · rw [if_pos hkey, if_pos hkey.symm, hkey, hnone]
        rfl
      · rw [if_neg hkey, if_neg (Ne.symm hkey), h.get]
        exact Option.or_none

/-! ## Sequences of calls -/

theorem represents_new {vset : ValidatorSet} (h : (vset.validators.map Validator.key).Nodup) :
    (new vset).Represents := ⟨h, fun _ => rfl⟩

/-- **The adapter is right along a sequence of calls exactly if every upsert
among them is of a key that is not there at that time.** -/
theorem represents_iff (vset : ValidatorSet) (hvset : (vset.validators.map Validator.key).Nodup)
    (calls : List AdapterCall) :
    (∀ n, (Machine.play step (new vset) (calls.take n)).Represents)
      ↔ Machine.Plays step Fresh (new vset) calls := by
  have hany : Machine.Plays step (fun _ _ => True) (new vset) calls :=
    Machine.plays_of_forall (fun _ _ => trivial) calls _
  refine Machine.forall_take_iff_plays (I := fun _ => True) calls hany trivial
    (represents_new hvset) (fun _ _ _ _ _ _ => trivial) ?_
  intro s call _ h _
  cases call with
  | upsert newV => exact represents_upsert_iff h newV
  | deleteByPubkey key => exact iff_of_true (represents_deleteByPubkey h key) trivial

end AdapterState

namespace Testnet

/-- A validator of the test committee, with another power. -/
def raised : Validator := ⟨[0], ⟨.bls12381, [0]⟩, 5⟩

/-- To change the power of a validator one can delete it first. -/
theorem raised_after_delete_represented :
    (Machine.play AdapterState.step (AdapterState.new committee)
      [AdapterCall.deleteByPubkey [0], .upsert raised]).Represents :=
  have hnone : getByPubkey (deleteByPubkey committee.validators [0]) [0] = none := by decide
  (AdapterState.represents_iff committee (by decide) [.deleteByPubkey [0], .upsert raised]).mpr
    ⟨trivial, hnone, trivial⟩ 2

/-- **The upsert of a validator of the set**: the key is there twice, and the
lookup finds the old power. -/
theorem raised_not_represented :
    ¬ (Machine.play AdapterState.step (AdapterState.new committee)
      [AdapterCall.upsert raised]).Represents
    ∧ getByPubkey (upsert committee.validators raised) [0] = some ⟨[0], ⟨.bls12381, [0]⟩, 1⟩ :=
  ⟨fun h => absurd h.nodup (by decide), by decide⟩

end Testnet

end LoragonBFT
