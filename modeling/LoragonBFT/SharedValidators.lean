import LoragonBFT.Util.SharedSlices
import LoragonBFT.AppliedUpdates
import LoragonBFT.Handshaker
import Mathlib.Data.List.TakeWhile

/-!
# The validator set behind the genesis updates

`ApplyUpdatesToValidatorSet` starts with `vs := vset.Validators`. From then on
it writes to the validators of its argument: a power that is updated is the
power of a validator `vset` points to, a removal in place shifts the entries
`vset` looks at, and what is appended after a removal is written over its last
ones. The model of this module keeps the shared array and the shared
validators (`Util.SharedSlices`); what the function returns is what the model
on lists returns (`applyUpdatesInPlace_fst`), and what has become of `vset` is
told by `exists_view`.

The builder of the genesis block takes the hash of `vset` after the call. It
is the hash of the genesis document only if no update changes a power
(`kept_iff_undisturbed`) – in which case there was little to update.
-/

namespace LoragonBFT

open SharedSlices (State)

/-! ## The model -/

/-- The variables of the first loop, with what they share with the argument. -/
structure SharedLoop where
  shared : State Validator
  i : ℕ
  addedIndex : List ℕ

/-- One round of the first loop. -/
def updateShared (updates : List TypedUpdate) (s : SharedLoop) : SharedLoop :=
  match s.shared.used[s.i]? with
  | none => s
  | some p =>
    match findUpdate updates (s.shared.objects p) with
    | none => s
    | some (update, j) =>
      if (s.shared.objects p).votingPower = 0 then
        { shared := s.shared.eraseAt s.i, i := s.i, addedIndex := s.addedIndex.erase j }
      else
        { shared := s.shared.setAt s.i { s.shared.objects p with votingPower := update.power },
          i := s.i + 1, addedIndex := s.addedIndex.erase j }

/-- The second loop. -/
def addShared (K : KeyLibrary) (updates : List TypedUpdate) :
    List ℕ → State Validator → State Validator
  | [], t => t
  | i :: rest, t =>
    match updates[i]? with
    | none => t
    | some added =>
      match K.newValidator added with
      | none => t
      | some v => addShared K updates rest (t.push v)

/-- The condition of the first loop. -/
def SharedLoop.goesOn (s : SharedLoop) : Bool := s.i < s.shared.used.length

/-- `vs := vset.Validators`. -/
def SharedLoop.start (vset : ValidatorSet) (updates : List TypedUpdate) : SharedLoop :=
  ⟨.share ⟨[], ⟨.bls12381, []⟩, 0⟩ vset.validators, 0, List.range updates.length⟩

/-- `ApplyUpdatesToValidatorSet` with what it does to its argument: what it
returns, and the argument after the call. -/
def applyUpdatesInPlace (E : Env) (K : KeyLibrary) (order : List ℕ → List ℕ)
    (vset : ValidatorSet) (validatorUpdates : List TypedUpdate) (rounds : ℕ) :
    Option (Except Panic ValidatorSet × ValidatorSet) :=
  (Loop.run SharedLoop.goesOn (updateShared validatorUpdates) rounds
      (.start vset validatorUpdates)).map fun s =>
    let shared := addShared K validatorUpdates (order s.addedIndex) s.shared
    (newSet E shared.contents, ⟨shared.view⟩)

/-! ## What is returned -/

section Returned

variable {updates : List TypedUpdate} {K : KeyLibrary} {s : SharedLoop} {t : State Validator}
  {l : List ℕ}

/-- The variables, without what they share. -/
def SharedLoop.forget (s : SharedLoop) : UpdateLoop := ⟨s.shared.contents, s.i, s.addedIndex⟩

theorem SharedLoop.goesOn_forget (s : SharedLoop) : s.forget.goesOn = s.goesOn := by
  show decide (s.i < (s.shared.used.map s.shared.objects).length) = _
  rw [List.length_map]
  rfl

theorem SharedLoop.forget_start (vset : ValidatorSet) (updates : List TypedUpdate) :
    (SharedLoop.start vset updates).forget = .start vset updates := by
  show UpdateLoop.mk _ _ _ = UpdateLoop.mk _ _ _
  rw [SharedLoop.start, State.contents_share]

/-- **A round on the shared validators is a round on a list.** -/
theorem forget_updateShared (h : s.shared.Sound) :
    (updateShared updates s).forget = updateValidator updates s.forget := by
  have hget : s.forget.vs[s.forget.i]? = (s.shared.used[s.i]?).map s.shared.objects :=
    List.getElem?_map
  unfold updateShared updateValidator
  rw [hget]
  cases s.shared.used[s.i]? with
  | none => rfl
  | some p =>
    dsimp only [Option.map_some]
    cases findUpdate updates (s.shared.objects p) with
    | none => rfl
    | some found =>
      dsimp only
      split
      · show UpdateLoop.mk _ _ _ = UpdateLoop.mk _ _ _
        rw [State.contents_eraseAt]
        rfl
      · show UpdateLoop.mk _ _ _ = UpdateLoop.mk _ _ _
        rw [h.contents_setAt]
        rfl

theorem sound_updateShared (h : s.shared.Sound) : (updateShared updates s).shared.Sound := by
  unfold updateShared
  cases s.shared.used[s.i]? with
  | none => exact h
  | some p =>
    dsimp only
    cases findUpdate updates (s.shared.objects p) with
    | none => exact h
    | some found =>
      dsimp only
      split
      · exact h.eraseAt _
      · exact h.setAt _ _

/-- **The second loop on the shared validators is the one on a list.** -/
theorem contents_addShared (h : t.Sound) :
    (addShared K updates l t).contents = addValidators K updates l t.contents := by
  induction l generalizing t with
  | nil => rfl
  | cons j l ih =>
    unfold addShared
    cases hget : updates[j]? with
    | none => rw [addValidators, hget]
    | some u =>
      rw [addValidators_cons hget]
      dsimp only
      cases K.newValidator u with
      | none => rfl
      | some v =>
        show (addShared K updates l (t.push v)).contents = _
        rw [ih (h.push v), h.contents_push]

/-- **The first loop on the shared validators is the one on a list.** -/
theorem run_forget (vset : ValidatorSet) (updates : List TypedUpdate) (rounds : ℕ) :
    (Loop.run SharedLoop.goesOn (updateShared updates) rounds (.start vset updates)).map
        SharedLoop.forget
      = Loop.run UpdateLoop.goesOn (updateValidator updates) rounds (.start vset updates) := by
  rw [← SharedLoop.forget_start]
  exact Loop.run_map (I := fun s => s.shared.Sound) (fun s _ => s.goesOn_forget)
    (fun _ hs _ => forget_updateShared hs) (fun _ hs _ => sound_updateShared hs) rounds
    (State.sound_share ..)

theorem sound_of_run {vset : ValidatorSet} {rounds : ℕ}
    (h : Loop.run SharedLoop.goesOn (updateShared updates) rounds (.start vset updates) = some s) :
    s.shared.Sound :=
  (Loop.run_invariant (I := fun s => s.shared.Sound) (fun _ hs _ => sound_updateShared hs)
    (State.sound_share ..) h).1

/-- **What is returned is what the model on lists returns.** -/
theorem applyUpdatesInPlace_fst (E : Env) (K : KeyLibrary) (order : List ℕ → List ℕ)
    (vset : ValidatorSet) (updates : List TypedUpdate) (rounds : ℕ) :
    (applyUpdatesInPlace E K order vset updates rounds).map Prod.fst
      = applyUpdatesToValidatorSet E K order vset updates rounds := by
  unfold applyUpdatesInPlace applyUpdatesToValidatorSet
  rw [← run_forget, Option.map_map, Option.map_map]
  cases hs : Loop.run SharedLoop.goesOn (updateShared updates) rounds (.start vset updates) with
  | none => rfl
  | some s =>
    simp only [Option.map_some, Function.comp_apply, contents_addShared (sound_of_run hs)]
    rfl

end Returned

/-! ## What becomes of the argument -/

/-- What a validator is after the call: one of power zero is not written
to. -/
def Validator.settled (updates : List TypedUpdate) (v : Validator) : Validator :=
  if v.votingPower = 0 then v else v.updated updates

/-- **Where the first loop is**, for the validators of the argument: it has
written to those before `m`, and is going to look at those from `m` on. -/
structure SharedLoop.At (updates : List TypedUpdate) (vs : List Validator) (m : ℕ)
    (s : SharedLoop) : Prop where
  sound : s.shared.Sound
  trails : s.shared.Trails vs.length (vs.length - 1)
  next_eq : s.shared.next = vs.length
  length_le : s.shared.used.length ≤ vs.length
  pending : s.shared.used.drop s.i = (List.range vs.length).drop m
  done : ∀ p v, vs[p]? = some v → p < m → s.shared.objects p = v.settled updates
  untouched : ∀ p v, vs[p]? = some v → m ≤ p → s.shared.objects p = v

section Argument

variable {updates : List TypedUpdate} {vs : List Validator} {K : KeyLibrary} {s : SharedLoop}
  {t : State Validator} {l : List ℕ}

theorem SharedLoop.at_start (vset : ValidatorSet) (updates : List TypedUpdate) :
    (SharedLoop.start vset updates).At updates vset.validators 0 where
  sound := State.sound_share ..
  trails := State.trails_share ..
  next_eq := rfl
  length_le := (List.length_range).le
  pending := rfl
  done _ _ _ h := absurd h (Nat.not_lt_zero _)
  untouched p v h _ := by
    show vset.validators.getD p _ = v
    rw [List.getD_eq_getElem?_getD, h]
    rfl

/-- The pointer that is looked at is the next one of the argument. -/
theorem SharedLoop.At.head {m p : ℕ} (h : s.At updates vs m)
    (hp : s.shared.used[s.i]? = some p) :
    p = m ∧ m < vs.length ∧ s.shared.used.drop (s.i + 1) = (List.range vs.length).drop (m + 1)
      ∧ s.shared.used.getLast? = some (vs.length - 1) := by
  have hhead : (List.range vs.length)[m]? = some p := by
    rw [← List.head?_drop, ← h.pending, List.head?_drop, hp]
  obtain ⟨hi, -⟩ := List.getElem?_eq_some_iff.mp hp
  obtain ⟨hm, hpm⟩ := List.getElem?_eq_some_iff.mp hhead
  rw [List.getElem_range] at hpm
  rw [List.length_range] at hm
  refine ⟨hpm.symm, hm, ?_, ?_⟩
  · rw [← List.tail_drop, h.pending, List.tail_drop]
  · have hlast := congrArg List.getLast? h.pending
    rw [List.getLast?_drop, List.getLast?_drop, if_neg (not_le.mpr hi),
      if_neg (by simpa using hm)] at hlast
    rw [hlast, List.getLast?_range, if_neg (Nat.ne_zero_of_lt hm)]

/-- **A round moves on by one validator, or by none.** -/
theorem SharedLoop.At.updateShared {m : ℕ} (h : s.At updates vs m) :
    ∃ m', (updateShared updates s).At updates vs m' := by
  unfold LoragonBFT.updateShared
  cases hp : s.shared.used[s.i]? with
  | none => exact ⟨m, h⟩
  | some p =>
    dsimp only
    cases hfind : findUpdate updates (s.shared.objects p) with
    | none => exact ⟨m, h⟩
    | some found =>
      obtain ⟨hi, -⟩ := List.getElem?_eq_some_iff.mp hp
      obtain ⟨rfl, hm, hrest, hlast⟩ := h.head hp
      obtain ⟨v, hv⟩ : ∃ v, vs[p]? = some v := ⟨_, List.getElem?_eq_getElem hm⟩
      have hobject := h.untouched p v hv (le_refl _)
      rw [hobject] at hfind ⊢
      refine ⟨p + 1, ?_⟩
      dsimp only
      by_cases hpower : v.votingPower = 0
      · rw [if_pos hpower]
        refine ⟨h.sound.eraseAt _, h.trails.eraseAt hi h.length_le hlast, h.next_eq, ?_, ?_, ?_, ?_⟩
        · exact (List.length_eraseIdx_le ..).trans h.length_le
        · show (s.shared.used.eraseIdx s.i).drop s.i = _
          rw [List.eraseIdx_eq_take_drop_succ, List.drop_left' (List.length_take_of_le hi.le),
            hrest]
        · intro q w hw hq
          rcases Nat.lt_succ_iff_lt_or_eq.mp hq with hlt | rfl
          · exact h.done q w hw hlt
          · obtain rfl : w = v := Option.some.inj (hw.symm.trans hv)
            rw [Validator.settled, if_pos hpower]
            exact hobject
        · exact fun q w hw hq => h.untouched q w hw (Nat.le_of_succ_le hq)
      · rw [if_neg hpower]
        have hobjects : ∀ x, (s.shared.setAt s.i x).objects
            = Function.update s.shared.objects p x :=
          fun x => by rw [State.setAt_of_some hp]
        have hused : ∀ x, (s.shared.setAt s.i x).used = s.shared.used :=
          fun x => by rw [State.setAt_of_some hp]
        refine ⟨h.sound.setAt _ _, h.trails.setAt _ _, ?_, ?_, ?_, ?_, ?_⟩
        · rw [State.setAt_of_some hp]
          exact h.next_eq
        · rw [hused]
          exact h.length_le
        · rw [hused]
          exact hrest
        · intro q w hw hq
          rw [hobjects]
          rcases Nat.lt_succ_iff_lt_or_eq.mp hq with hlt | rfl
          · rw [Function.update_of_ne hlt.ne]
            exact h.done q w hw hlt
          · obtain rfl : w = v := Option.some.inj (hw.symm.trans hv)
            rw [Function.update_self, Validator.settled, if_neg hpower, Validator.updated, hfind]
        · intro q w hw hq
          rw [hobjects, Function.update_of_ne (Nat.lt_of_succ_le hq).ne']
          exact h.untouched q w hw (Nat.le_of_succ_le hq)

/-- The second loop writes to none of the validators of the argument. -/
theorem addShared_objects {p : ℕ} (hp : p < t.next) :
    (addShared K updates l t).objects p = t.objects p := by
  induction l generalizing t with
  | nil => rfl
  | cons j l ih =>
    unfold addShared
    cases updates[j]? with
    | none => rfl
    | some u =>
      dsimp only
      cases K.newValidator u with
      | none => rfl
      | some v =>
        rw [ih (t := t.push v) (hp.trans (Nat.lt_succ_self _))]
        exact Function.update_of_ne hp.ne _ _

theorem trails_addShared {n last : ℕ} (h : t.Trails n last) :
    (addShared K updates l t).Trails n last := by
  induction l generalizing t with
  | nil => exact h
  | cons j l ih =>
    unfold addShared
    cases updates[j]? with
    | none => exact h
    | some u =>
      dsimp only
      cases K.newValidator u with
      | none => exact h
      | some v => exact ih (h.push v)

/-- **What the argument is after the call**: the validators the new set was
made of, as far as there is room, and behind them the last validator the
argument had. -/
theorem exists_view {E : Env} {order : List ℕ → List ℕ} {vset vset' : ValidatorSet} {rounds : ℕ}
    {r : Except Panic ValidatorSet}
    (h : applyUpdatesInPlace E K order vset updates rounds = some (r, vset')) :
    ∃ x, (∀ last, vset.validators.getLast? = some last → x = last.settled updates)
      ∧ vset'.validators
        = (appliedValidators K order vset updates).take vset.validators.length
          ++ List.replicate (vset.validators.length
            - (appliedValidators K order vset updates).length) x := by
  obtain ⟨s, hs, hr⟩ := Option.map_eq_some_iff.mp h
  obtain ⟨⟨m, hat⟩, hends⟩ := Loop.run_invariant
    (I := fun s => ∃ m, SharedLoop.At updates vset.validators m s)
    (fun s ⟨m, hm⟩ _ => hm.updateShared) ⟨0, SharedLoop.at_start vset updates⟩ hs
  have hcontents : (addShared K updates (order s.addedIndex) s.shared).contents
      = appliedValidators K order vset updates := by
    have hlist : Loop.run UpdateLoop.goesOn (updateValidator updates) rounds
        (.start vset updates) = some s.forget := by
      rw [← run_forget, hs]
      rfl
    have hforget := run_start_eq hlist
    rw [contents_addShared hat.sound,
      show s.shared.contents = updatedValidators updates vset.validators from
        (congrArg UpdateLoop.vs hforget).trans (List.append_nil _),
      show s.addedIndex = unusedUpdates updates vset.validators from
        congrArg UpdateLoop.addedIndex hforget]
    rfl
  have hm : vset.validators.length ≤ m := by
    have hnil : s.shared.used.drop s.i = [] :=
      List.drop_eq_nil_of_le (not_lt.mp (of_decide_eq_false hends))
    rw [hat.pending, List.drop_eq_nil_iff, List.length_range] at hnil
    exact hnil
  refine ⟨(addShared K updates (order s.addedIndex) s.shared).objects
    (vset.validators.length - 1), ?_, ?_⟩
  · intro last hlast
    rw [List.getLast?_eq_getElem?] at hlast
    have hlt := (List.getElem?_eq_some_iff.mp hlast).1
    rw [addShared_objects (by rwa [hat.next_eq])]
    exact hat.done _ last hlast (hlt.trans_le hm)
  · obtain rfl : _ = vset' := congrArg Prod.snd hr
    rw [← hcontents]
    exact (trails_addShared hat.trails).view_eq

end Argument

/-! ## When nothing is disturbed -/

/-- **The updates that leave the argument as it is.** No power is changed.
Validators of power zero stand behind the others and are all the same, and
where there are any, nothing is added: no update is left over, or the first
one that is ranged over has a key that cannot be decoded. -/
structure Undisturbed (K : KeyLibrary) (order : List ℕ → List ℕ) (vs : List Validator)
    (updates : List TypedUpdate) : Prop where
  powers : ∀ v ∈ vs, v.votingPower ≠ 0 → v.updated updates = v
  zeros : ∃ kept k v, vs = kept ++ List.replicate k v ∧ (∀ w ∈ kept, w.votingPower ≠ 0)
    ∧ (k ≠ 0 → v.votingPower = 0 ∧ ∀ j ∈ (order (unusedUpdates updates vs)).head?,
      ∀ u ∈ updates[j]?, K.newValidator u = none)

section Undisturbed

variable {updates : List TypedUpdate} {vs added : List Validator} {x : Validator}

/-- The validators before the first one of power zero. -/
theorem exists_split (vs : List Validator) :
    ∃ kept rest, vs = kept ++ rest ∧ (∀ w ∈ kept, w.votingPower ≠ 0)
      ∧ ∀ w, rest.head? = some w → w.votingPower = 0 := by
  refine ⟨vs.takeWhile (fun v => v.votingPower ≠ 0), vs.dropWhile (fun v => v.votingPower ≠ 0),
    List.takeWhile_append_dropWhile.symm, fun w hw => ?_, fun w hw => ?_⟩
  · have hne := List.mem_takeWhile_imp hw
    exact of_decide_eq_true hne
  · have hnot := List.head?_dropWhile_not (fun v : Validator => decide (v.votingPower ≠ 0)) vs
    rw [hw] at hnot
    exact not_not.mp (of_decide_eq_false hnot)

/-- A list that is its own beginning of updated validators, something added
and one validator repeated. -/
theorem trailing_eq_iff (hx : ∀ last, vs.getLast? = some last → x = last.settled updates)
    (hpos : ∀ v ∈ updatedValidators updates vs ++ added, v.votingPower ≠ 0) :
    (updatedValidators updates vs ++ added).take vs.length
        ++ List.replicate (vs.length - (updatedValidators updates vs ++ added).length) x = vs
      ↔ (∀ v ∈ vs, v.votingPower ≠ 0 → v.updated updates = v)
        ∧ ∃ kept k v, vs = kept ++ List.replicate k v ∧ (∀ w ∈ kept, w.votingPower ≠ 0)
          ∧ (k ≠ 0 → v.votingPower = 0 ∧ added = []) := by
  constructor
  · intro heq
    -- the validators before the first one of power zero
    obtain ⟨kept, rest, rfl, hkept, hhead⟩ := exists_split vs
    rw [updatedValidators_append, updatedValidators_of_ne hkept] at heq hpos
    cases rest with
    | nil =>
      have hall : kept.map (Validator.updated updates) = kept := by
        rw [List.append_nil, show updatedValidators updates [] = [] from rfl, List.append_nil,
          List.take_left' (List.length_map _), List.length_append, List.length_map,
          Nat.sub_eq_zero_of_le (Nat.le_add_right _ _), List.replicate_zero,
          List.append_nil] at heq
        exact heq
      have hsame := List.map_inj_left.mp (hall.trans (List.map_id kept).symm)
      rw [List.append_nil]
      exact ⟨fun v hv _ => hsame v hv, kept, 0, x, (List.append_nil _).symm, hkept,
        fun hk => absurd rfl hk⟩
    | cons g rest =>
      -- the place of the first one of power zero must be taken by the last one
      have hshort : (kept.map (Validator.updated updates) ++ updatedValidators updates (g :: rest)
          ++ added).length ≤ kept.length := by
        by_contra hlong
        rw [not_le] at hlong
        have hget := congrArg (·[kept.length]?) heq
        rw [List.getElem?_append_left (by simp at hlong ⊢; omega),
          List.getElem?_take_of_lt (by simp), List.getElem?_append_right (le_refl _),
          Nat.sub_self, List.getElem?_cons_zero] at hget
        exact hpos g (List.mem_of_getElem? hget) (hhead g rfl)
      rw [List.length_append, List.length_append, List.length_map] at hshort
      obtain rfl : added = [] := List.length_eq_zero_iff.mp (by omega)
      have hgone : updatedValidators updates (g :: rest) = [] :=
        List.length_eq_zero_iff.mp (by omega)
      rw [hgone, List.append_nil, List.append_nil,
        List.take_of_length_le (by simp)] at heq
      obtain ⟨hall, hrest⟩ := List.append_inj heq (List.length_map _)
      have hsame := List.map_inj_left.mp (hall.trans (List.map_id kept).symm)
      have hzero := updatedValidators_eq_nil_iff.mp hgone
      refine ⟨fun v hv hne => ?_, kept, _, x, by rw [hrest], hkept, fun hk => ⟨?_, rfl⟩⟩
      · rcases List.mem_append.mp hv with hv | hv
        · exact hsame v hv
        · exact absurd (hzero v hv) hne
      · exact hzero x (hrest ▸ List.mem_replicate.mpr ⟨hk, rfl⟩)
  · rintro ⟨hsame, kept, k, v, hvs, hkept, hzero⟩
    have hself : kept.map (Validator.updated updates) = kept := by
      refine (List.map_inj_left.mpr fun w hw => ?_).trans (List.map_id kept)
      exact hsame w (hvs ▸ List.mem_append_left _ hw) (hkept w hw)
    by_cases hk : k = 0
    · obtain rfl : vs = kept := by rw [hvs, hk, List.replicate_zero, List.append_nil]
      rw [updatedValidators_of_ne hkept, hself, List.take_left, List.length_append,
        Nat.sub_eq_zero_of_le (Nat.le_add_right _ _), List.replicate_zero, List.append_nil]
    · obtain ⟨hpower, rfl⟩ := hzero hk
      have hgone : updatedValidators updates (List.replicate k v) = [] :=
        updatedValidators_eq_nil_iff.mpr fun w hw => (List.eq_of_mem_replicate hw) ▸ hpower
      have hlast : vs.getLast? = some v := by
        rw [hvs, List.getLast?_append, List.getLast?_replicate, if_neg hk]
        rfl
      have hxv : x = v := by
        rw [hx v hlast, Validator.settled, if_pos hpower]
      rw [hvs, updatedValidators_append, hgone, updatedValidators_of_ne hkept, hself,
        List.append_nil, List.append_nil, List.length_append, List.length_replicate,
        List.take_of_length_le (Nat.le_add_right _ _), Nat.add_sub_cancel_left, hxv]

/-- The second loop adds to the list it is given. -/
theorem addValidators_eq_append (K : KeyLibrary) (updates : List TypedUpdate) (l : List ℕ)
    (vs : List Validator) :
    addValidators K updates l vs = vs ++ addValidators K updates l [] := by
  induction l generalizing vs with
  | nil => exact (List.append_nil vs).symm
  | cons j l ih =>
    cases hget : updates[j]? with
    | none =>
      rw [addValidators, addValidators, hget]
      exact (List.append_nil vs).symm
    | some u =>
      rw [addValidators_cons hget, addValidators_cons hget]
      cases K.newValidator u with
      | none => exact (List.append_nil vs).symm
      | some v =>
        dsimp only
        rw [ih, List.nil_append, ih [v], List.append_assoc]

/-- **It adds nothing exactly if there is no first update it could add.** -/
theorem addValidators_eq_nil_iff (K : KeyLibrary) (updates : List TypedUpdate) (l : List ℕ) :
    addValidators K updates l [] = []
      ↔ ∀ j ∈ l.head?, ∀ u ∈ updates[j]?, K.newValidator u = none := by
  cases l with
  | nil => simp [addValidators]
  | cons j l =>
    cases hget : updates[j]? with
    | none => simp [addValidators, hget]
    | some u =>
      rw [addValidators_cons hget]
      cases hnew : K.newValidator u with
      | none => simp [hget, hnew]
      | some v =>
        dsimp only
        rw [addValidators_eq_append]
        simp [hget, hnew]

end Undisturbed

/-- What the hash of a set is made of. -/
def ValidatorSet.stakes (vset : ValidatorSet) : List (PubKey × ℤ) :=
  vset.validators.map (fun v => (v.pubKey, v.votingPower))

/-- **The previous set is kept.** The validators and the hash of the argument
are what they were; the genesis block has the hash of the genesis document, and
is a block of a new committee exactly if the set was changed. -/
structure Kept (E : Env) (timestamp : UInt64) (extraData : Bytes32)
    (vset vset' nextVSet : ValidatorSet) : Prop where
  validators : vset'.validators = vset.validators
  hash : E.validatorSetHash vset' = E.validatorSetHash vset
  genesis : (Genesis.build E timestamp extraData vset' nextVSet).block.header.validatorsHash
    = E.validatorSetHash vset
  kBlock : (Genesis.build E timestamp extraData vset' nextVSet).block.isKBlock = true
    ↔ nextVSet.stakes ≠ vset.stakes

/-- **The previous set is kept exactly if the updates do not disturb it**,
whenever the function returns. -/
theorem kept_iff_undisturbed {E : Env} {K : KeyLibrary} {order : List ℕ → List ℕ}
    {vset vset' nextVSet : ValidatorSet} {updates : List TypedUpdate} {rounds : ℕ}
    (hlib : SetLibrary E K)
    (hreturns : applyUpdatesInPlace E K order vset updates rounds = some (.ok nextVSet, vset'))
    (hhash : E.validatorSetHash nextVSet = E.validatorSetHash vset
      ↔ nextVSet.stakes = vset.stakes)
    (timestamp : UInt64) (extraData : Bytes32) :
    Kept E timestamp extraData vset vset' nextVSet
      ↔ Undisturbed K order vset.validators updates := by
  obtain ⟨x, hx, hview⟩ := exists_view hreturns
  have hnew : E.newValidatorSet (appliedValidators K order vset updates) = some nextVSet := by
    have hlist : applyUpdatesToValidatorSet E K order vset updates rounds
        = some (.ok nextVSet) := by
      rw [← applyUpdatesInPlace_fst, hreturns]
      rfl
    exact newSet_eq_ok.mp (applyUpdates_some hlist).symm
  have hpos : ∀ v ∈ appliedValidators K order vset updates, v.votingPower ≠ 0 :=
    fun v hv => (((hlib.accepts _).mp (hnew ▸ rfl)).powers v hv).ne'
  have happlied : appliedValidators K order vset updates
      = updatedValidators updates vset.validators
        ++ addValidators K updates (order (unusedUpdates updates vset.validators)) [] :=
    addValidators_eq_append ..
  rw [happlied] at hview hpos
  have hvalidators : vset'.validators = vset.validators
      ↔ Undisturbed K order vset.validators updates := by
    rw [hview, trailing_eq_iff hx hpos]
    simp only [addValidators_eq_nil_iff]
    exact ⟨fun h => ⟨h.1, h.2⟩, fun h => ⟨h.1, h.2⟩⟩
  rw [← hvalidators]
  refine ⟨Kept.validators, fun h => ?_⟩
  -- the rest follows once the set is the same
  obtain rfl : vset' = vset := congrArg ValidatorSet.mk h
  refine ⟨rfl, rfl, rfl, ?_⟩
  show (E.validatorSetHash vset' != E.validatorSetHash nextVSet) = true ↔ _
  rw [bne_iff_ne, ne_comm, ne_eq, hhash]

namespace Testnet

/-- Updates that mention every validator with the power it has, and a fifth
one. -/
def joining : List TypedUpdate := [update 0 1, update 1 1, update 2 1, update 3 1, update 4 2]

/-- The committee with the fifth validator. -/
def joined : ValidatorSet := ⟨⟨[4], ⟨.bls12381, [4]⟩, 2⟩ :: committee.validators⟩

/-- **A validator joins and the old set is kept**: the genesis block announces
the new committee. -/
theorem kept_of_joining :
    applyUpdatesInPlace sortingEnv keyLibrary id committee joining 5 = some (.ok joined, committee)
      ∧ Kept sortingEnv 0 0 committee committee joined := by
  have hreturns : applyUpdatesInPlace sortingEnv keyLibrary id committee joining 5
      = some (.ok joined, committee) := rfl
  refine ⟨hreturns, (kept_iff_undisturbed setLibrary hreturns (by decide +kernel) 0 0).mpr ?_⟩
  exact ⟨by decide, committee.validators, 0, ⟨[], ⟨.bls12381, []⟩, 0⟩, rfl, by decide,
    fun h => absurd rfl h⟩

/-- **A power is updated, and the old set has the new power**: the genesis
block has the hash of the new set twice, and announces nothing. -/
theorem update_disturbs :
    ∃ nextVSet vset', applyUpdatesInPlace sortingEnv keyLibrary id committee
        [update 0 5, update 1 1, update 2 1, update 3 1] 5 = some (.ok nextVSet, vset')
      ∧ vset'.validators ≠ committee.validators
      ∧ (Genesis.build sortingEnv 0 0 vset' nextVSet).block.header.validatorsHash
        ≠ sortingEnv.validatorSetHash committee
      ∧ nextVSet.stakes ≠ committee.stakes
      ∧ (Genesis.build sortingEnv 0 0 vset' nextVSet).block.isKBlock = false :=
  ⟨_, _, rfl, by decide, by decide +kernel, by decide, by decide +kernel⟩

end Testnet

end LoragonBFT
