import LoragonBFT.Util.Loop
import LoragonBFT.Testnet

/-!
# The validators of the genesis

Before the first block, the application may change the validators the genesis
document names. `ApplyUpdatesToValidatorSet` is what works its changes in: one
loop goes through the validators there are, and looks for the first update
that names each of them; a second one appends the updates that named none.

The first loop has no increment in its header. It moves on where the
validator's update is found – past the validator, or by taking the validator
out – and nowhere else. A validator no update names is looked at for ever. So
the function comes to an end exactly if the application mentions every
validator of the document (`terminates_iff_allNamed`), and an application that
answers without updates hangs every node of a network that has validators.
-/

namespace LoragonBFT

/-! ## The model -/

/-- `abci.ValidatorUpdate` with the type of its key. -/
structure TypedUpdate extends ValidatorUpdate where
  pubKeyType : String
deriving DecidableEq, Repr

/-- What CometBFT makes of keys. -/
structure KeyLibrary where
  /-- `cryptoencoding.PubKeyFromTypeAndBytes`. -/
  pubKeyFromTypeAndBytes : String → Bytes → Option PubKey
  /-- `PubKey.Address`. -/
  address : PubKey → Bytes

/-- The variables of the first loop of `ApplyUpdatesToValidatorSet`. -/
structure UpdateLoop where
  vs : List Validator
  i : ℕ
  /-- The indices of the updates that have named no validator yet. -/
  addedIndex : List ℕ

/-- The inner search: the first update with the validator's key, and its index. -/
def findUpdate (updates : List TypedUpdate) (v : Validator) : Option (TypedUpdate × ℕ) :=
  updates.zipIdx.find? (fun u => v.pubKey.bytes = u.1.pubKeyBytes)

/-- One round of the first loop. It is the validator's old power that decides
whether it goes. -/
def updateValidator (updates : List TypedUpdate) (s : UpdateLoop) : UpdateLoop :=
  match s.vs[s.i]? with
  -- the condition of the loop excludes this
  | none => s
  | some v =>
    match findUpdate updates v with
    | none => s
    | some (update, j) =>
      if v.votingPower = 0 then
        { vs := s.vs.eraseIdx s.i, i := s.i, addedIndex := s.addedIndex.erase j }
      else
        { vs := s.vs.set s.i { v with votingPower := update.power }, i := s.i + 1,
          addedIndex := s.addedIndex.erase j }

/-- The second loop. It goes through a map, so in any order, and a key that
cannot be decoded ends it. -/
def addValidators (K : KeyLibrary) (updates : List TypedUpdate) :
    List ℕ → List Validator → List Validator
  | [], vs => vs
  | i :: rest, vs =>
    match updates[i]? with
    -- the indices in the map are those of the updates
    | none => vs
    | some added =>
      match K.pubKeyFromTypeAndBytes added.pubKeyType added.pubKeyBytes with
      | none => vs
      | some pubKey =>
        addValidators K updates rest (vs ++ [⟨K.address pubKey, pubKey, added.power⟩])

/-- The state the first loop starts in. -/
def UpdateLoop.start (vset : ValidatorSet) (updates : List TypedUpdate) : UpdateLoop :=
  ⟨vset.validators, 0, List.range updates.length⟩

/-- The condition of the first loop. -/
def UpdateLoop.goesOn (s : UpdateLoop) : Bool := s.i < s.vs.length

/-- `ApplyUpdatesToValidatorSet`, with a bound on the rounds of its first loop
and the order in which the map is ranged over. Nothing is returned if the bound
is too small; what is returned otherwise is a validator set or, where
`NewValidatorSet` does not accept the list, a panic. -/
def applyUpdatesToValidatorSet (E : Env) (K : KeyLibrary) (order : List ℕ → List ℕ)
    (vset : ValidatorSet) (validatorUpdates : List TypedUpdate) (rounds : ℕ) :
    Option (Except Panic ValidatorSet) :=
  (Loop.run UpdateLoop.goesOn (updateValidator validatorUpdates) rounds
      (.start vset validatorUpdates)).map fun s =>
    match E.newValidatorSet (addValidators K validatorUpdates (order s.addedIndex) s.vs) with
    | none => .error (.explicit "NewValidatorSet")
    | some vset => .ok vset

/-! ## One round -/

section Rounds

variable {updates : List TypedUpdate} {s : UpdateLoop} {v : Validator} {rest : List Validator}

/-- The validators that have not been looked at. -/
def UpdateLoop.pending (s : UpdateLoop) : List Validator := s.vs.drop s.i

/-- Some update names the validator. -/
def Named (updates : List TypedUpdate) (v : Validator) : Prop :=
  ∃ u ∈ updates, u.pubKeyBytes = v.pubKey.bytes

theorem named_iff_findUpdate_isSome (v : Validator) :
    Named updates v ↔ (findUpdate updates v).isSome = true := by
  unfold findUpdate Named
  rw [List.find?_isSome]
  constructor
  · rintro ⟨u, hu, hkey⟩
    obtain ⟨j, hj⟩ := List.getElem?_of_mem hu
    exact ⟨(u, j), List.mem_zipIdx_iff_getElem?.mpr hj, by simp [hkey]⟩
  · rintro ⟨⟨u, j⟩, hmem, hkey⟩
    refine ⟨u, List.mem_of_getElem? (List.mem_zipIdx_iff_getElem?.mp hmem), ?_⟩
    exact (of_decide_eq_true hkey).symm

theorem UpdateLoop.goesOn_iff (s : UpdateLoop) : s.goesOn = true ↔ s.pending ≠ [] := by
  unfold goesOn pending
  rw [decide_eq_true_iff, ne_eq, List.drop_eq_nil_iff, not_le]

theorem UpdateLoop.getElem?_of_pending (h : s.pending = v :: rest) : s.vs[s.i]? = some v := by
  rw [← List.head?_drop, show s.vs.drop s.i = v :: rest from h]
  rfl

/-- **A validator that is named is done with**, whether it stays or goes. -/
theorem pending_updateValidator_of_named (h : s.pending = v :: rest) (hv : Named updates v) :
    (updateValidator updates s).pending = rest := by
  obtain ⟨⟨update, j⟩, hfind⟩ :=
    Option.isSome_iff_exists.mp ((named_iff_findUpdate_isSome v).mp hv)
  have hrest : s.vs.drop (s.i + 1) = rest := by
    rw [← List.tail_drop, show s.vs.drop s.i = v :: rest from h, List.tail_cons]
  unfold updateValidator
  rw [UpdateLoop.getElem?_of_pending h]
  dsimp only
  rw [hfind]
  dsimp only
  by_cases hpower : v.votingPower = 0
  · rw [if_pos hpower]
    unfold UpdateLoop.pending
    rw [List.eraseIdx_eq_take_drop_succ, hrest]
    have hlt : s.i ≤ s.vs.length :=
      le_of_lt (of_decide_eq_true ((UpdateLoop.goesOn_iff s).mpr (h ▸ List.cons_ne_nil v rest)))
    exact List.drop_left' (List.length_take_of_le hlt)
  · rw [if_neg hpower]
    unfold UpdateLoop.pending
    rw [List.drop_set_of_lt (Nat.lt_succ_self s.i), hrest]

/-- **A validator that is not named is looked at again**: nothing changes. -/
theorem updateValidator_of_not_named (h : s.pending = v :: rest) (hv : ¬ Named updates v) :
    updateValidator updates s = s := by
  rw [named_iff_findUpdate_isSome, Option.not_isSome_iff_eq_none] at hv
  unfold updateValidator
  rw [UpdateLoop.getElem?_of_pending h]
  dsimp only
  rw [hv]

/-! ## All rounds -/

/-- **The first loop ends exactly if every validator before it is named.** A
named validator makes what is pending shorter; one that is not named stays
pending. -/
theorem loop_terminates_iff :
    Loop.Terminates UpdateLoop.goesOn (updateValidator updates) s
      ↔ ∀ v ∈ s.pending, Named updates v := by
  have hcons : ∀ s : UpdateLoop, s.goesOn = true → ∃ v rest, s.pending = v :: rest :=
    fun s hs => List.exists_cons_of_ne_nil (s.goesOn_iff.mp hs)
  constructor
  · intro hends
    by_contra hnot
    push Not at hnot
    refine Loop.not_terminates_of_invariant
      (J := fun s => ∃ v ∈ s.pending, ¬ Named updates v) ?_ ?_ hnot hends
    · rintro s ⟨v, hv, -⟩
      exact s.goesOn_iff.mpr (List.ne_nil_of_mem hv)
    · rintro s ⟨v, hv, hnamed⟩
      obtain ⟨w, rest, hpending⟩ := hcons s (s.goesOn_iff.mpr (List.ne_nil_of_mem hv))
      by_cases hw : Named updates w
      · rw [pending_updateValidator_of_named hpending hw]
        rw [hpending] at hv
        rcases List.mem_cons.mp hv with rfl | hv
        · exact absurd hw hnamed
        · exact ⟨v, hv, hnamed⟩
      · rw [updateValidator_of_not_named hpending hw]
        exact ⟨v, hv, hnamed⟩
  · refine Loop.terminates_of_measure (I := fun s : UpdateLoop => ∀ v ∈ s.pending, Named updates v)
      (fun s => s.pending.length) ?_ ?_
    all_goals
      intro s hs hgoes
      obtain ⟨w, rest, hpending⟩ := hcons s hgoes
      have hw := hs w (hpending ▸ List.mem_cons_self)
      rw [pending_updateValidator_of_named hpending hw]
    · exact fun v hv => hs v (hpending ▸ List.mem_cons_of_mem w hv)
    · rw [hpending]
      exact Nat.lt_succ_self _

end Rounds

/-- **`ApplyUpdatesToValidatorSet` comes to an end**: some number of rounds is
enough for it to return or to panic. -/
def UpdatesTerminate (E : Env) (K : KeyLibrary) (order : List ℕ → List ℕ) (vset : ValidatorSet)
    (validatorUpdates : List TypedUpdate) : Prop :=
  ∃ rounds, (applyUpdatesToValidatorSet E K order vset validatorUpdates rounds).isSome = true

theorem updatesTerminate_iff_loop {E : Env} {K : KeyLibrary} {order : List ℕ → List ℕ}
    {vset : ValidatorSet} {updates : List TypedUpdate} :
    UpdatesTerminate E K order vset updates
      ↔ Loop.Terminates UpdateLoop.goesOn (updateValidator updates) (.start vset updates) := by
  unfold UpdatesTerminate applyUpdatesToValidatorSet Loop.Terminates
  simp only [Option.isSome_map]

/-- **The function comes to an end exactly if every validator of the set is
mentioned by some update.** -/
theorem terminates_iff_allNamed (E : Env) (K : KeyLibrary) (order : List ℕ → List ℕ)
    (vset : ValidatorSet) (validatorUpdates : List TypedUpdate) :
    UpdatesTerminate E K order vset validatorUpdates
      ↔ ∀ v ∈ vset.validators, v.pubKey.bytes ∈ validatorUpdates.map (·.pubKeyBytes) := by
  rw [updatesTerminate_iff_loop, loop_terminates_iff]
  show (∀ v ∈ vset.validators, Named validatorUpdates v) ↔ _
  simp only [Named, List.mem_map]

namespace Testnet

/-- Keys that are taken as they come. -/
def keyLibrary : KeyLibrary where
  pubKeyFromTypeAndBytes _ bytes := some ⟨.bls12381, bytes⟩
  address pubKey := pubKey.bytes

/-- **An application that changes nothing hangs the node**: for the committee
of four and no updates, no number of rounds is enough. -/
theorem no_updates_hang : ¬ UpdatesTerminate env keyLibrary id committee [] := by
  rw [updatesTerminate_iff_loop, loop_terminates_iff]
  intro hnamed
  obtain ⟨u, hu, -⟩ := hnamed ⟨[0], ⟨.bls12381, [0]⟩, 1⟩ (by decide)
  exact List.not_mem_nil hu

end Testnet

end LoragonBFT
