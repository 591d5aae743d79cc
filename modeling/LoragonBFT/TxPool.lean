import LoragonBFT.Testnet

/-!
# Washing the pool of transactions

Once in a while the pool is washed: transactions that are too old or on the
chain are taken out of it, and if more than `Limit` are left, those that come
last are taken out too. What stays is what the node may propose.

`wash` goes through the transactions in the order in which the map happens to
be iterated and sorts them into three lists. None of them is ever put among
the non-executable ones: `Executable` says that a transaction is executable or
fails. So the pool is left with the first `Limit` of those that pass both
tests (`TxPool.txs_wash_perm`).

That is right but for the test of the age. The lifetime is added to the time
the transaction came, in 64 bits, and a lifetime of some centuries – the
largest `time.Duration`, say, for transactions that never expire – overflows:
then the transaction is out of lifetime at once. `washedWell_iff` says when
this does no harm.
-/

namespace LoragonBFT

/-- `UnixNano` of the clock, as it is from 1970 to 2262. -/
abbrev UnixNano := Fin (2 ^ 63)

/-- `txpool.txObject`. -/
structure TxObject where
  tx : Bytes
  timeAdded : UnixNano
  executable : Bool

/-- `txpool.Options`. A pool with a negative limit cannot be made. -/
structure PoolOptions where
  limit : ℕ
  /-- A `time.Duration`. -/
  maxLifetime : Int64

/-- `Chain.HasTransactionMeta`. -/
def Chain.hasTransactionMeta (c : Chain) (txID : Bytes32) : Bool := !(c.kv.txMeta txID).isEmpty

namespace TxObject

/-- The key of the transaction in the pool. -/
def hash (H : Hashes) (o : TxObject) : Bytes32 := H.sha256 o.tx

/-- The first test of `wash`, with the sum as it is computed, in 64 bits. -/
def outOfLifetime (options : PoolOptions) (now : UnixNano) (o : TxObject) : Bool :=
  decide (Int.bmod ((o.timeAdded.val : ℤ) + options.maxLifetime.toInt) (2 ^ 64) < (now.val : ℤ))

/-- `txObject.Executable`. -/
def isExecutable (H : Hashes) (c : Chain) (o : TxObject) : Except String Bool :=
  if c.hasTransactionMeta (o.hash H) then .error "known tx" else .ok true

end TxObject

/-! ## The map of transactions -/

/-- `txpool.txObjectMap`, its entries in the order in which they are
iterated. -/
structure TxObjectMap (H : Hashes) where
  objs : List TxObject
  nodup : (objs.map (TxObject.hash H)).Nodup

namespace TxObjectMap

variable {H : Hashes}

/-- `txObjectMap.Remove`. -/
def remove (m : TxObjectMap H) (txId : Bytes32) : TxObjectMap H where
  objs := m.objs.filter (fun o => o.hash H != txId)
  nodup := m.nodup.sublist (List.filter_sublist.map _)

/-- The assignment `obj.executable = true`, for some of the objects. -/
def setExecutable (m : TxObjectMap H) (executable : List Bytes32) : TxObjectMap H where
  objs := m.objs.map (fun o => if o.hash H ∈ executable then { o with executable := true } else o)
  nodup := by
    have hhash : ∀ o : TxObject, TxObject.hash H
        (if o.hash H ∈ executable then { o with executable := true } else o) = o.hash H := by
      intro o
      split <;> rfl
    rw [List.map_map]
    exact (List.map_congr_left fun o _ => hhash o) ▸ m.nodup

theorem objs_foldl_remove (m : TxObjectMap H) (txIds : List Bytes32) :
    (txIds.foldl remove m).objs = m.objs.filter (fun o => o.hash H ∉ txIds) := by
  induction txIds generalizing m with
  | nil => exact (List.filter_eq_self.mpr fun _ _ => decide_eq_true List.not_mem_nil).symm
  | cons txId txIds ih =>
    rw [List.foldl_cons, ih]
    show (m.objs.filter _).filter _ = _
    rw [List.filter_filter]
    refine List.filter_congr fun o _ => ?_
    rw [Bool.eq_iff_iff]
    simp only [Bool.and_eq_true, decide_eq_true_eq, bne_iff_ne, List.mem_cons, not_or, and_comm]

theorem map_tx_setExecutable (m : TxObjectMap H) (executable : List Bytes32) :
    (m.setExecutable executable).objs.map TxObject.tx = m.objs.map TxObject.tx := by
  have htx : ∀ o : TxObject, TxObject.tx
      (if o.hash H ∈ executable then { o with executable := true } else o) = o.tx := by
    intro o
    split <;> rfl
  unfold setExecutable
  rw [List.map_map]
  exact List.map_congr_left fun o _ => htx o

end TxObjectMap

namespace TxPool

section Wash

variable (H : Hashes) (c : Chain) (options : PoolOptions) (now : UnixNano)

/-- The three lists `wash` sorts the transactions into. -/
structure Sorting where
  toRemove : List Bytes32
  executableObjs : List TxObject
  nonExecutableObjs : List TxObject

/-- A round of the loop, and whether it comes to look at the time. -/
def sortOne (s : Sorting) (o : TxObject) : Sorting × Bool :=
  if o.outOfLifetime options now then ({ s with toRemove := s.toRemove ++ [o.hash H] }, false)
  else match o.isExecutable H c with
    | .error _ => ({ s with toRemove := s.toRemove ++ [o.hash H] }, false)
    | .ok true => ({ s with executableObjs := s.executableObjs ++ [o] }, true)
    | .ok false => ({ s with nonExecutableObjs := s.nonExecutableObjs ++ [o] }, true)

/-- The loop, which ends early when a look at the time says so. -/
def sortAll (overtime : ℕ → Bool) : ℕ → Sorting → List TxObject → Sorting
  | _, s, [] => s
  | i, s, o :: rest =>
    let (s, looks) := sortOne H c options now s o
    if looks && overtime i then s else sortAll overtime (i + 1) s rest

/-- The transactions over the limit. -/
def cutToLimit (s : Sorting) : Sorting :=
  if options.limit < s.executableObjs.length then
    { s with
      toRemove := s.toRemove ++ s.nonExecutableObjs.map (TxObject.hash H)
        ++ (s.executableObjs.drop options.limit).map (TxObject.hash H)
      executableObjs := s.executableObjs.take options.limit }
  else if options.limit < s.executableObjs.length + s.nonExecutableObjs.length then
    { s with
      toRemove := s.toRemove
        ++ (s.nonExecutableObjs.drop (options.limit - s.executableObjs.length)).map
          (TxObject.hash H) }
  else s

/-- What `wash` returns, and what it leaves behind. -/
structure Wash where
  pool : TxObjectMap H
  executables : List Bytes
  removed : ℕ
  err : Bool
  toBroadcast : List Bytes

/-- `TxPool.wash`. The seeker is not asked for any block, so it has no error
in fact; if it had one, the pool would be cut to its limit. -/
def wash (seekerErr : Bool) (overtime : ℕ → Bool) (pool : TxObjectMap H) : Wash H :=
  let all := pool.objs
  if seekerErr then
    let cut := all.take (all.length - options.limit)
    { pool := (cut.map (TxObject.hash H)).foldl TxObjectMap.remove pool
      executables := [], removed := cut.length, err := true, toBroadcast := [] }
  else
    let s := cutToLimit H options (sortAll H c options now overtime 0 ⟨[], [], []⟩ all)
    { pool := (s.toRemove.foldl TxObjectMap.remove pool).setExecutable
        (s.executableObjs.map (TxObject.hash H))
      executables := s.executableObjs.map TxObject.tx
      removed := s.toRemove.length
      err := false
      toBroadcast := (s.executableObjs.filter (fun o => !o.executable)).map TxObject.tx }

end Wash

/-! ## What a wash should do -/

section Spec

variable (H : Hashes) (c : Chain) (options : PoolOptions) (now : UnixNano)

/-- **Expired**: the transaction has been there for longer than its
lifetime. -/
def Expired (o : TxObject) : Prop :=
  options.maxLifetime.toInt < (now.val : ℤ) - (o.timeAdded.val : ℤ)

instance : DecidablePred (Expired options now) := fun _ => inferInstanceAs (Decidable (_ < _))

/-- The transaction is on the chain. -/
def OnChain (o : TxObject) : Prop := c.hasTransactionMeta (o.hash H) = true

instance : DecidablePred (OnChain H c) := fun _ => inferInstanceAs (Decidable (_ = _))

/-- The transactions that may stay. -/
def qualified (objs : List TxObject) : List TxObject :=
  objs.filter (fun o => ¬ Expired options now o ∧ ¬ OnChain H c o)

/-- The time the transaction came and its lifetime are too large a sum for 64
bits. -/
def Overflows (o : TxObject) : Prop :=
  2 ^ 63 ≤ (o.timeAdded.val : ℤ) + options.maxLifetime.toInt

instance : DecidablePred (Overflows options) := fun _ => inferInstanceAs (Decidable (_ ≤ _))

variable {H} in
/-- **The pool is washed well.** -/
structure WashedWell (before : TxObjectMap H) (w : Wash H) : Prop where
  size : w.pool.objs.length ≤ options.limit
  nodup : w.executables.Nodup
  executables : w.executables.Perm (w.pool.objs.map TxObject.tx)
  subset : ∀ tx ∈ w.pool.objs.map TxObject.tx, tx ∈ before.objs.map TxObject.tx
  clean : ∀ o ∈ before.objs, o.tx ∈ w.pool.objs.map TxObject.tx →
    ¬ Expired options now o ∧ ¬ OnChain H c o
  removed : ∀ o ∈ before.objs, o.tx ∉ w.pool.objs.map TxObject.tx →
    Expired options now o ∨ OnChain H c o
      ∨ options.limit < (qualified H c options now before.objs).length
        ∧ w.pool.objs.length = options.limit

end Spec

variable {H : Hashes} {c : Chain} {options : PoolOptions} {now : UnixNano}

/-! ## The test of the age -/

variable {o : TxObject}

/-- An expired transaction does not overflow. -/
theorem not_expired_of_overflows (h : Overflows options o) :
    ¬ Expired options now o := by
  have hnow := now.isLt
  unfold Overflows at h
  unfold Expired
  omega

/-- **The test finds the expired transactions, and those that overflow.** -/
theorem outOfLifetime_iff :
    o.outOfLifetime options now = true ↔ Expired options now o ∨ Overflows options o := by
  have hnow := now.isLt
  have hadded := o.timeAdded.isLt
  have hmax := options.maxLifetime.toInt_lt
  have hmin := options.maxLifetime.le_toInt
  unfold TxObject.outOfLifetime
  rw [decide_eq_true_eq]
  unfold Expired Overflows
  by_cases hsum : (o.timeAdded.val : ℤ) + options.maxLifetime.toInt < 2 ^ 63
  · rw [Int.bmod_eq_of_le (by omega) (by omega)]
    omega
  · have hneg : Int.bmod ((o.timeAdded.val : ℤ) + options.maxLifetime.toInt) (2 ^ 64) < 0 := by
      rw [Int.bmod_def, Int.emod_eq_of_lt (by omega) (by omega), if_neg (by omega)]
      omega
    exact iff_of_true (by omega) (.inr (not_lt.mp hsum))

/-! ## What a wash does -/

section Passing

variable (H : Hashes) (c : Chain) (options : PoolOptions) (now : UnixNano)

/-- The transaction passes both tests. -/
def Passes (o : TxObject) : Prop :=
  ¬ Overflows options o ∧ ¬ Expired options now o ∧ ¬ OnChain H c o

instance : DecidablePred (Passes H c options now) := fun _ =>
  inferInstanceAs (Decidable (_ ∧ _))

/-- The transactions that pass. -/
def passing (objs : List TxObject) : List TxObject :=
  objs.filter (fun o => Passes H c options now o)

/-- The transactions that do not. -/
def failing (objs : List TxObject) : List TxObject :=
  objs.filter (fun o => ¬ Passes H c options now o)

end Passing

/-- **A round of the loop**: what passes is executable, what does not is to be
removed. -/
theorem sortOne_fst (s : Sorting) (o : TxObject) :
    (sortOne H c options now s o).1
      = if Passes H c options now o then { s with executableObjs := s.executableObjs ++ [o] }
        else { s with toRemove := s.toRemove ++ [o.hash H] } := by
  unfold sortOne TxObject.isExecutable
  by_cases hold : o.outOfLifetime options now = true
  · rw [if_pos hold, if_neg fun h => ?_]
    exact (outOfLifetime_iff.mp hold).elim h.2.1 h.1
  · rw [if_neg hold]
    have hyoung := mt outOfLifetime_iff.mpr hold
    by_cases hchain : c.hasTransactionMeta (o.hash H) = true
    · rw [if_pos hchain]
      exact (if_neg fun h => h.2.2 hchain).symm
    · rw [if_neg hchain]
      exact (if_pos ⟨fun h => hyoung (.inr h), fun h => hyoung (.inl h), hchain⟩).symm

/-- **The loop, when it is not ended early.** -/
theorem sortAll_eq {overtime : ℕ → Bool} (hover : ∀ i, overtime i = false) (i : ℕ) (s : Sorting)
    (objs : List TxObject) :
    sortAll H c options now overtime i s objs
      = ⟨s.toRemove ++ (failing H c options now objs).map (TxObject.hash H),
          s.executableObjs ++ passing H c options now objs, s.nonExecutableObjs⟩ := by
  unfold failing passing
  induction objs generalizing i s with
  | nil => simp only [sortAll, List.filter_nil, List.map_nil, List.append_nil]
  | cons o rest ih =>
    unfold sortAll
    simp only [hover, Bool.and_false, Bool.false_eq_true, if_false]
    rw [ih, sortOne_fst]
    by_cases hpass : Passes H c options now o
    · simp [hpass]
    · simp [hpass]

/-- What `cutToLimit` does when there are no non-executable transactions. -/
theorem cutToLimit_eq (toRemove : List Bytes32) (objs : List TxObject) :
    cutToLimit H options ⟨toRemove, objs, []⟩
      = ⟨toRemove ++ (objs.drop options.limit).map (TxObject.hash H), objs.take options.limit,
          []⟩ := by
  unfold cutToLimit
  by_cases hlimit : options.limit < objs.length
  · rw [if_pos hlimit, List.map_nil, List.append_nil]
  · have hle := not_lt.mp hlimit
    rw [if_neg hlimit, List.drop_of_length_le hle, List.take_of_length_le hle, List.map_nil,
      List.append_nil]
    exact if_neg hlimit

/-- Of distinct keys, taking out those of some entries leaves the others. -/
theorem filter_notMem_perm {objs kept gone : List TxObject}
    (hnodup : (objs.map (TxObject.hash H)).Nodup) (hperm : objs.Perm (kept ++ gone)) :
    (objs.filter (fun o => o.hash H ∉ gone.map (TxObject.hash H))).Perm kept := by
  have hdisjoint : ((kept ++ gone).map (TxObject.hash H)).Nodup :=
    (hperm.map _).nodup_iff.mp hnodup
  rw [List.map_append, List.nodup_append] at hdisjoint
  refine (hperm.filter _).trans (.of_eq ?_)
  rw [List.filter_append]
  have hkept : kept.filter (fun o => o.hash H ∉ gone.map (TxObject.hash H)) = kept :=
    List.filter_eq_self.mpr fun o ho => decide_eq_true fun hmem =>
      hdisjoint.2.2 _ (List.mem_map_of_mem ho) _ hmem rfl
  have hgone : gone.filter (fun o => o.hash H ∉ gone.map (TxObject.hash H)) = [] :=
    List.filter_eq_nil_iff.mpr fun o ho => by
      rw [decide_eq_true_eq, not_not]
      exact List.mem_map_of_mem ho
  rw [hkept, hgone, List.append_nil]

section Result

variable {overtime : ℕ → Bool} {pool : TxObjectMap H}

theorem executables_wash (hover : ∀ i, overtime i = false) :
    (wash H c options now false overtime pool).executables
      = ((passing H c options now pool.objs).take options.limit).map TxObject.tx := by
  unfold wash
  simp only [Bool.false_eq_true, if_false]
  rw [sortAll_eq hover, List.nil_append, List.nil_append, cutToLimit_eq]

/-- **What is left of the pool**: the first transactions of those that pass. -/
theorem txs_wash_perm (hover : ∀ i, overtime i = false) :
    ((wash H c options now false overtime pool).pool.objs.map TxObject.tx).Perm
      (((passing H c options now pool.objs).take options.limit).map TxObject.tx) := by
  unfold wash
  simp only [Bool.false_eq_true, if_false]
  rw [sortAll_eq hover, List.nil_append, List.nil_append, cutToLimit_eq,
    TxObjectMap.map_tx_setExecutable, TxObjectMap.objs_foldl_remove, ← List.map_append]
  refine (filter_notMem_perm pool.nodup ?_).map _
  -- Passing and failing transactions are all, and the passing ones are cut in two.
  have hall : (passing H c options now pool.objs ++ failing H c options now pool.objs).Perm
      pool.objs := by
    unfold passing failing
    simp only [decide_not]
    exact List.filter_append_perm _ pool.objs
  refine hall.symm.trans ?_
  have hcut := List.take_append_drop options.limit (passing H c options now pool.objs)
  rw [← List.append_assoc]
  nth_rewrite 1 [← hcut]
  rw [List.append_assoc, List.append_assoc]
  exact List.perm_append_comm.append_left _

/-- The transactions that may stay are those that pass and those that
overflow. -/
theorem length_qualified (objs : List TxObject) :
    (qualified H c options now objs).length
      = (objs.filter (fun o => Overflows options o ∧ ¬ OnChain H c o)).length
        + (passing H c options now objs).length := by
  have hoverflowing : (qualified H c options now objs).filter (fun o => Overflows options o)
      = objs.filter (fun o => Overflows options o ∧ ¬ OnChain H c o) := by
    unfold qualified
    rw [List.filter_filter]
    refine List.filter_congr fun o _ => Bool.eq_iff_iff.mpr ?_
    rw [Bool.and_eq_true, decide_eq_true_eq, decide_eq_true_eq, decide_eq_true_eq]
    exact ⟨fun h => ⟨h.1, h.2.2⟩, fun h => ⟨h.1, not_expired_of_overflows h.1, h.2⟩⟩
  have hpassing : (qualified H c options now objs).filter (fun o => !decide (Overflows options o))
      = passing H c options now objs := by
    unfold qualified passing
    rw [List.filter_filter]
    refine List.filter_congr fun o _ => Bool.eq_iff_iff.mpr ?_
    rw [Bool.and_eq_true, Bool.not_eq_true', decide_eq_false_iff_not, decide_eq_true_eq,
      decide_eq_true_eq]
    exact Iff.rfl
  rw [← hoverflowing, ← hpassing]
  exact List.length_eq_length_filter_add _

/-- A transaction of the pool is left exactly if it is one of the first that
pass. -/
theorem mem_txs_wash_iff (hover : ∀ i, overtime i = false) (ho : o ∈ pool.objs) :
    o.tx ∈ (wash H c options now false overtime pool).pool.objs.map TxObject.tx
      ↔ o ∈ (passing H c options now pool.objs).take options.limit := by
  rw [(txs_wash_perm hover).mem_iff]
  refine ⟨fun hmem => ?_, List.mem_map_of_mem⟩
  obtain ⟨o', ho', htx⟩ := List.mem_map.mp hmem
  have hpool : o' ∈ pool.objs := (List.mem_filter.mp (List.mem_of_mem_take ho')).1
  have hhash : o'.hash H = o.hash H := congrArg H.sha256 htx
  exact List.inj_on_of_nodup_map pool.nodup hpool ho hhash ▸ ho'

theorem nodup_executables_wash (hover : ∀ i, overtime i = false) :
    (wash H c options now false overtime pool).executables.Nodup := by
  rw [executables_wash hover]
  refine List.Nodup.of_map H.sha256 ?_
  rw [List.map_map]
  have hsublist : ((passing H c options now pool.objs).take options.limit).Sublist pool.objs :=
    (List.take_sublist _ _).trans List.filter_sublist
  exact pool.nodup.sublist (hsublist.map _)

/-- A transaction that passes and is not left is over the limit. -/
theorem limit_lt_of_notMem (ho : o ∈ pool.objs) (hpasses : Passes H c options now o)
    (hgone : o ∉ (passing H c options now pool.objs).take options.limit) :
    options.limit < (passing H c options now pool.objs).length := by
  by_contra hle
  rw [List.take_of_length_le (not_lt.mp hle)] at hgone
  exact hgone (List.mem_filter.mpr ⟨ho, decide_eq_true hpasses⟩)

/-- **A wash without error and with time enough leaves the pool as it should
be exactly if no transaction that is not on the chain has a lifetime that
overflows, or as many as the limit pass without one.** In the second case the
pool is full whether the others are taken for expired or not. -/
theorem washedWell_iff (hover : ∀ i, overtime i = false) :
    WashedWell c options now pool (wash H c options now false overtime pool)
      ↔ (∀ o ∈ pool.objs, ¬ OnChain H c o → ¬ Overflows options o)
        ∨ options.limit ≤ (pool.objs.filter (fun o => ¬ Overflows options o
          ∧ ¬ Expired options now o ∧ ¬ OnChain H c o)).length := by
  show _ ↔ _ ∨ options.limit ≤ (passing H c options now pool.objs).length
  have hlength : (wash H c options now false overtime pool).pool.objs.length
      = min options.limit (passing H c options now pool.objs).length := by
    rw [← List.length_map, (txs_wash_perm hover).length_eq, List.length_map, List.length_take]
  constructor
  · intro hwell
    by_contra hnot
    obtain ⟨hsome, hfew⟩ := not_or.mp hnot
    push Not at hsome
    obtain ⟨o, ho, hchain, hoverflows⟩ := hsome
    -- An overflowing transaction is removed, so the pool has to be full.
    have hgone : o.tx ∉ (wash H c options now false overtime pool).pool.objs.map TxObject.tx := by
      rw [mem_txs_wash_iff hover ho]
      intro hmem
      have hpasses := (List.mem_filter.mp (List.mem_of_mem_take hmem)).2
      exact (of_decide_eq_true hpasses).1 hoverflows
    rcases hwell.removed o ho hgone with hexpired | hon | ⟨-, hfull⟩
    · exact not_expired_of_overflows hoverflows hexpired
    · exact hchain hon
    · rw [hlength] at hfull
      omega
  · intro hcond
    refine ⟨?_, nodup_executables_wash hover, ?_, fun tx htx => ?_, fun o ho hleft => ?_,
      fun o ho hgone => ?_⟩
    · rw [hlength]
      exact Nat.min_le_left _ _
    · rw [executables_wash hover]
      exact (txs_wash_perm hover).symm
    · obtain ⟨o, ho, rfl⟩ := List.mem_map.mp ((txs_wash_perm hover).mem_iff.mp htx)
      exact List.mem_map_of_mem (List.mem_filter.mp (List.mem_of_mem_take ho)).1
    · have hpasses := (List.mem_filter.mp
        (List.mem_of_mem_take ((mem_txs_wash_iff hover ho).mp hleft))).2
      exact (of_decide_eq_true hpasses).2
    · by_cases hmay : Expired options now o ∨ OnChain H c o
      · exact hmay.imp_right .inl
      obtain ⟨hexpired, hchain⟩ := not_or.mp hmay
      rw [mem_txs_wash_iff hover ho] at hgone
      refine .inr (.inr ?_)
      rw [hlength, length_qualified]
      by_cases hoverflows : Overflows options o
      · -- Then the pool is full without it, and it is one more that qualifies.
        have hlimit := hcond.resolve_left fun hnone => hnone o ho hchain hoverflows
        have hpos : 0 < (pool.objs.filter
            (fun o => Overflows options o ∧ ¬ OnChain H c o)).length :=
          List.length_pos_of_mem (List.mem_filter.mpr
            ⟨ho, decide_eq_true ⟨hoverflows, hchain⟩⟩)
        omega
      · have hlimit := limit_lt_of_notMem ho ⟨hoverflows, hexpired, hchain⟩ hgone
        omega

end Result

end TxPool

namespace Testnet

/-- A transaction of the last minute. -/
def freshTx (k : UInt8) : TxObject := ⟨[k], 1700000000000000000, false⟩

/-- A pool of three. -/
def freshPool : TxObjectMap hashes := ⟨[freshTx 7, freshTx 8, freshTx 9], by decide⟩

/-- The time of the wash. -/
def washTime : UnixNano := 1700000060000000000

/-- With the lifetime of the default options and a limit of two, one
transaction is over the limit. -/
theorem twenty_minutes_washedWell :
    TxPool.WashedWell chain ⟨2, 1200000000000⟩ washTime freshPool
      (TxPool.wash hashes chain ⟨2, 1200000000000⟩ washTime false (fun _ => false) freshPool) :=
  (TxPool.washedWell_iff fun _ => rfl).mpr (.inl (by decide))

/-- **The largest lifetime there is**: all transactions are removed after a
minute. -/
theorem longest_lifetime_not_washedWell :
    (TxPool.wash hashes chain ⟨10, Int64.maxValue⟩ washTime false (fun _ => false)
        freshPool).pool.objs = []
      ∧ ¬ TxPool.WashedWell chain ⟨10, Int64.maxValue⟩ washTime freshPool
        (TxPool.wash hashes chain ⟨10, Int64.maxValue⟩ washTime false (fun _ => false)
          freshPool) := by
  have hempty : (TxPool.wash hashes chain ⟨10, Int64.maxValue⟩ washTime false (fun _ => false)
      freshPool).pool.objs = [] := List.isEmpty_iff.mp (by decide)
  refine ⟨hempty, fun h => ?_⟩
  have hgone := h.removed (freshTx 7) List.mem_cons_self (by rw [hempty]; exact List.not_mem_nil)
  rcases hgone with hexpired | hchain | ⟨-, hfull⟩
  · exact absurd hexpired (by decide)
  · exact absurd hchain (by decide)
  · rw [hempty] at hfull
    exact nomatch hfull

end Testnet

end LoragonBFT
