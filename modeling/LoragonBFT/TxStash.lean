import LoragonBFT.Testnet
import Mathlib.Data.List.Induction
import Mathlib.Data.List.Sort
import Mathlib.Data.Finset.Card

/-!
# The stash of transactions

Transactions that cannot be executed yet are put aside in a key-value store,
so that they survive a restart. The stash is to be a bounded queue: next to
the store it has the keys in the order in which they came, and when there are
too many it deletes the oldest one from both.

The keys go into a list of values of any type, as byte slices – that is what
`Hash` of a transaction returns – and they are taken out of it as `Bytes32`.
The assertion of the type fails, and so the first eviction is a panic. Up to
it the stash is right, hence it is a bounded queue exactly of sequences that
never fill it (`stashed_iff`).
-/

namespace LoragonBFT

/-- The key-value store: its entries in the order in which they are iterated,
which is that of the keys. -/
abbrev Store := List (Bytes × Bytes)

namespace Store

/-- `Has`. -/
def has (kv : Store) (key : Bytes) : Bool := kv.any (fun entry => entry.1 == key)

/-- `Put`. -/
def put (kv : Store) (key value : Bytes) : Store :=
  (kv.filter (fun entry => entry.1 != key)).orderedInsert (fun a b => a.1 ≤ b.1) (key, value)

/-- `Delete`. -/
def delete (kv : Store) (key : Bytes) : Store := kv.filter (fun entry => entry.1 != key)

theorem has_iff {kv : Store} {key : Bytes} : kv.has key = true ↔ key ∈ kv.map Prod.fst := by
  unfold has
  rw [List.any_eq_true, List.mem_map]
  simp only [beq_iff_eq]

/-- A new entry is added. -/
theorem put_perm {kv : Store} {key : Bytes} (h : kv.has key = false) (value : Bytes) :
    (kv.put key value).Perm ((key, value) :: kv) := by
  have hnone : kv.filter (fun entry => entry.1 != key) = kv := by
    refine List.filter_eq_self.mpr fun entry hentry => bne_iff_ne.mpr fun heq => ?_
    have hhas : kv.has key = true := has_iff.mpr (List.mem_map.mpr ⟨entry, hentry, heq⟩)
    exact Bool.false_ne_true (h.symm.trans hhas)
  unfold put
  rw [hnone]
  exact List.perm_orderedInsert _ _ _

end Store

/-- A value of the list, with its type. -/
inductive FifoValue where
  /-- A `[]byte`. -/
  | bytes (key : Bytes)
  /-- A `types.Bytes32`. -/
  | bytes32 (key : Bytes32)
deriving DecidableEq, Repr

/-- The assertion `.(types.Bytes32)`. -/
def FifoValue.bytes32! : FifoValue → Except Panic Bytes32
  | .bytes32 key => .ok key
  | .bytes _ => .error (.explicit "interface conversion: interface is []uint8, not types.Bytes32")

/-- `node.txStash`. -/
structure TxStash where
  kv : Store
  fifo : List FifoValue
  maxSize : ℕ

namespace TxStash

variable {H : Hashes}

/-- `newTxStash`. -/
def new (kv : Store) (maxSize : ℕ) : TxStash := ⟨kv, [], maxSize⟩

/-- The loop of `Save` that deletes what is too much. -/
def evict (maxSize : ℕ) : List FifoValue → Store → Except Panic (List FifoValue × Store)
  | [], kv => .ok ([], kv)
  | front :: rest, kv =>
    if maxSize < rest.length + 1 then do
      let keyToDelete ← front.bytes32!
      evict maxSize rest (kv.delete (Bytes32.bytes keyToDelete))
    else .ok (front :: rest, kv)

/-- `Tx.Hash`, a byte slice. -/
def txHash (H : Hashes) (tx : Bytes) : Bytes := Bytes32.bytes (H.sha256 tx)

/-- `txStash.Save`, with a store that does not fail. -/
def save (H : Hashes) (ts : TxStash) (tx : Bytes) : Except Panic TxStash :=
  if ts.kv.has (txHash H tx) then .ok ts
  else do
    let kv := ts.kv.put (txHash H tx) (Rlp.Item.str tx).encode
    let (fifo, kv) ← evict ts.maxSize (ts.fifo ++ [.bytes (txHash H tx)]) kv
    return { ts with kv, fifo }

/-- What `LoadAll` makes of a value. -/
def decodeTx (value : Bytes) : Option Bytes := (Rlp.decode value).bind Rlp.Item.bytes?

/-- `txStash.LoadAll`: the transactions, and the stash with their keys. An
entry that cannot be decoded is deleted. -/
def loadAll (H : Hashes) (ts : TxStash) : List Bytes × TxStash :=
  ts.kv.foldl (fun (txs, ts) entry =>
    match decodeTx entry.2 with
    | none => (txs, { ts with kv := ts.kv.delete entry.1 })
    | some tx => (txs ++ [tx], { ts with fifo := ts.fifo ++ [.bytes (txHash H tx)] })) ([], ts)

/-! ## What it should be -/

/-- The last elements of a list. -/
def lastOf {α : Type} (n : ℕ) (l : List α) : List α := l.drop (l.length - n)

/-- The transactions saved while not present, when one more is saved: those
present are the last ones. -/
def admitOne (H : Hashes) (maxSize : ℕ) (saved : List Bytes) (tx : Bytes) : List Bytes :=
  if txHash H tx ∈ (lastOf maxSize saved).map (txHash H) then saved else saved ++ [tx]

/-- The transactions that were saved while not present. -/
def admitted (H : Hashes) (maxSize : ℕ) (txs : List Bytes) : List Bytes :=
  txs.foldl (admitOne H maxSize) []

/-- The entry of a transaction. -/
def entry (H : Hashes) (tx : Bytes) : Bytes × Bytes := (txHash H tx, (Rlp.Item.str tx).encode)

/-- **The stash is a bounded queue**: all the calls return, the store has the
last transactions of those saved while not present, and a new stash loads
them. -/
def Stashed (H : Hashes) (maxSize : ℕ) (txs : List Bytes) : Prop :=
  ∃ ts, txs.foldlM (save H) (new [] maxSize) = .ok ts
    ∧ ts.kv.Perm ((lastOf maxSize (admitted H maxSize txs)).map (entry H))
    ∧ ((new ts.kv maxSize).loadAll H).1.Perm (lastOf maxSize (admitted H maxSize txs))

/-- The number of different transactions, by their hashes. -/
def distinct (H : Hashes) (txs : List Bytes) : ℕ := (txs.map H.sha256).toFinset.card

variable {maxSize : ℕ} {saved txs : List Bytes} {ts : TxStash} {tx : Bytes}

theorem lastOf_eq_self {α : Type} {l : List α} (h : l.length ≤ maxSize) : lastOf maxSize l = l := by
  unfold lastOf
  rw [Nat.sub_eq_zero_of_le h, List.drop_zero]

theorem mem_map_txHash : txHash H tx ∈ saved.map (txHash H) ↔ H.sha256 tx ∈ saved.map H.sha256 := by
  have hmap : saved.map (txHash H) = (saved.map H.sha256).map Bytes32.bytes := by
    rw [List.map_map]
    rfl
  rw [hmap]
  exact List.mem_map_of_injective Bytes32.bytes_injective

theorem admitted_concat :
    admitted H maxSize (txs ++ [tx]) = admitOne H maxSize (admitted H maxSize txs) tx := by
  unfold admitted
  rw [List.foldl_append]
  rfl

/-- A transaction more is at most one hash more. -/
theorem distinct_concat :
    distinct H (txs ++ [tx])
      = if H.sha256 tx ∈ txs.map H.sha256 then distinct H txs else distinct H txs + 1 := by
  have hset : ((txs ++ [tx]).map H.sha256).toFinset
      = insert (H.sha256 tx) (txs.map H.sha256).toFinset := by
    rw [List.map_append, List.toFinset_append, List.map_singleton, Finset.union_comm]
    rfl
  unfold distinct
  rw [hset, Finset.card_insert_eq_ite]
  simp only [List.mem_toFinset]

/-! ## One call -/

/-- **The stash as long as nothing is evicted**: store and queue have what was
saved, and that is one transaction of each hash among the calls. -/
structure Holds (H : Hashes) (maxSize : ℕ) (txs saved : List Bytes) (ts : TxStash) : Prop where
  size : ts.maxSize = maxSize
  kv : ts.kv.Perm (saved.map (entry H))
  fifo : ts.fifo = saved.map (fun tx => .bytes (txHash H tx))
  hashes : ∀ hash, hash ∈ saved.map H.sha256 ↔ hash ∈ txs.map H.sha256
  length : saved.length = distinct H txs
  room : saved.length ≤ maxSize

theorem Holds.has_iff (h : Holds H maxSize txs saved ts) :
    ts.kv.has (txHash H tx) = true ↔ H.sha256 tx ∈ txs.map H.sha256 := by
  have hkeys : (saved.map (entry H)).map Prod.fst = saved.map (txHash H) := by
    rw [List.map_map]
    rfl
  rw [Store.has_iff, (h.kv.map Prod.fst).mem_iff, hkeys, mem_map_txHash, h.hashes]

/-- The specification takes the transactions the stash takes. -/
theorem Holds.admit_eq (h : Holds H maxSize txs saved ts) :
    admitOne H maxSize saved tx
      = if H.sha256 tx ∈ txs.map H.sha256 then saved else saved ++ [tx] := by
  unfold admitOne
  rw [lastOf_eq_self h.room]
  exact if_congr (mem_map_txHash.trans (h.hashes _)) rfl rfl

/-- A queue that is not too long is left as it is. -/
theorem evict_of_le {fifo : List FifoValue} (h : fifo.length ≤ maxSize) (kv : Store) :
    evict maxSize fifo kv = .ok (fifo, kv) := by
  cases fifo with
  | nil => rfl
  | cons front rest =>
    unfold evict
    exact if_neg (not_lt.mpr h)

/-- **A queue of byte slices that is too long is a panic.** -/
theorem evict_of_lt {key : Bytes} {rest : List FifoValue} (h : maxSize < rest.length + 1)
    (kv : Store) : ∃ fault, evict maxSize (.bytes key :: rest) kv = .error fault := by
  unfold evict
  rw [if_pos h]
  exact ⟨_, rfl⟩

/-- A transaction that is there. -/
theorem Holds.save_of_mem (h : Holds H maxSize txs saved ts)
    (hmem : H.sha256 tx ∈ txs.map H.sha256) :
    save H ts tx = .ok ts ∧ Holds H maxSize (txs ++ [tx]) saved ts := by
  refine ⟨?_, h.size, h.kv, h.fifo, fun hash => ?_, ?_, h.room⟩
  · unfold save
    rw [if_pos (h.has_iff.mpr hmem)]
  · rw [h.hashes hash, List.map_append, List.mem_append, List.map_singleton, List.mem_singleton]
    refine ⟨Or.inl, ?_⟩
    rintro (hin | rfl)
    · exact hin
    · exact hmem
  · rw [h.length, distinct_concat, if_pos hmem]

/-- What `Save` does with a new transaction: all depends on the eviction. -/
theorem Holds.save_eq (h : Holds H maxSize txs saved ts)
    (hnew : H.sha256 tx ∉ txs.map H.sha256) :
    save H ts tx = (evict maxSize ((saved ++ [tx]).map (fun tx => .bytes (txHash H tx)))
      (ts.kv.put (txHash H tx) (Rlp.Item.str tx).encode)).map (fun r => ⟨r.2, r.1, maxSize⟩) := by
  unfold save
  rw [if_neg (mt h.has_iff.mp hnew), List.map_append, List.map_singleton, ← h.fifo, h.size]
  rfl

/-- **A new transaction there is room for.** -/
theorem Holds.save_of_lt (h : Holds H maxSize txs saved ts)
    (hnew : H.sha256 tx ∉ txs.map H.sha256) (hroom : saved.length < maxSize) :
    ∃ ts', save H ts tx = .ok ts' ∧ Holds H maxSize (txs ++ [tx]) (saved ++ [tx]) ts' := by
  have hroom' : (saved ++ [tx]).length ≤ maxSize := by
    rw [List.length_append]
    exact hroom
  have hhas : ts.kv.has (txHash H tx) = false := Bool.eq_false_iff.mpr (mt h.has_iff.mp hnew)
  refine ⟨⟨ts.kv.put (txHash H tx) (Rlp.Item.str tx).encode,
    (saved ++ [tx]).map (fun tx => .bytes (txHash H tx)), maxSize⟩,
    ?_, rfl, ?_, rfl, fun hash => ?_, ?_, hroom'⟩
  · rw [h.save_eq hnew, evict_of_le (by rw [List.length_map]; exact hroom')]
    rfl
  · show (ts.kv.put (txHash H tx) (Rlp.Item.str tx).encode).Perm ((saved ++ [tx]).map (entry H))
    rw [List.map_append, List.map_singleton]
    refine (Store.put_perm hhas _).trans ?_
    exact (h.kv.cons _).trans (List.perm_append_singleton _ _).symm
  · rw [List.map_append, List.map_append, List.mem_append, List.mem_append, h.hashes]
  · rw [List.length_append, h.length, distinct_concat, if_neg hnew]
    rfl

/-- **A new transaction when the stash is full**: the assertion panics. -/
theorem Holds.save_of_full (h : Holds H maxSize txs saved ts)
    (hnew : H.sha256 tx ∉ txs.map H.sha256) (hfull : maxSize ≤ saved.length) :
    ∃ fault, save H ts tx = .error fault := by
  rw [h.save_eq hnew]
  -- The front of the queue is a byte slice whatever was saved first.
  obtain ⟨first, rest, hqueue⟩ : ∃ first rest, saved ++ [tx] = first :: rest :=
    List.exists_cons_of_ne_nil (List.append_ne_nil_of_right_ne_nil _ (List.cons_ne_nil _ _))
  have hlen : (saved ++ [tx]).length = rest.length + 1 := by
    rw [hqueue, List.length_cons]
  rw [List.length_append, List.length_singleton] at hlen
  have hlong : maxSize < (rest.map (fun tx => FifoValue.bytes (txHash H tx))).length + 1 := by
    rw [List.length_map]
    omega
  rw [hqueue, List.map_cons]
  obtain ⟨fault, hfault⟩ := evict_of_lt hlong (ts.kv.put (txHash H tx) (Rlp.Item.str tx).encode)
  rw [hfault]
  exact ⟨fault, rfl⟩

/-! ## A sequence of calls -/

/-- **As long as the different transactions fit, all of them are there.** -/
theorem holds_of_le (h : distinct H txs ≤ maxSize) :
    ∃ ts, txs.foldlM (save H) (new [] maxSize) = .ok ts
      ∧ Holds H maxSize txs (admitted H maxSize txs) ts := by
  -- The calls are made from the left, so the induction is on the last one.
  induction txs using List.reverseRecOn with
  | nil => exact ⟨_, rfl, rfl, .refl _, rfl, fun _ => Iff.rfl, rfl, Nat.zero_le _⟩
  | append_singleton txs tx ih =>
    rw [distinct_concat] at h
    rw [List.foldlM_append, admitted_concat]
    by_cases hmem : H.sha256 tx ∈ txs.map H.sha256
    · rw [if_pos hmem] at h
      obtain ⟨ts, hts, hholds⟩ := ih h
      obtain ⟨hsave, hholds'⟩ := hholds.save_of_mem hmem
      rw [hts, hholds.admit_eq, if_pos hmem]
      exact ⟨ts, (bind_pure _).trans hsave, hholds'⟩
    · rw [if_neg hmem] at h
      obtain ⟨ts, hts, hholds⟩ := ih (Nat.le_of_succ_le h)
      obtain ⟨ts', hsave, hholds'⟩ := hholds.save_of_lt hmem (by rw [hholds.length]; exact h)
      rw [hts, hholds.admit_eq, if_neg hmem]
      exact ⟨ts', (bind_pure _).trans hsave, hholds'⟩

/-- **The call with the first transaction that does not fit panics**, and with
it the sequence. -/
theorem error_of_lt (h : maxSize < distinct H txs) :
    ∃ fault, txs.foldlM (save H) (new [] maxSize) = .error fault := by
  induction txs using List.reverseRecOn with
  | nil => exact absurd h (Nat.not_lt_zero _)
  | append_singleton txs tx ih =>
    rw [List.foldlM_append]
    by_cases hlt : maxSize < distinct H txs
    · obtain ⟨fault, hfault⟩ := ih hlt
      rw [hfault]
      exact ⟨fault, rfl⟩
    · -- This is the first one: the transactions before it fill the stash.
      obtain ⟨ts, hts, hholds⟩ := holds_of_le (not_lt.mp hlt)
      rw [distinct_concat] at h
      split at h
      · exact absurd h hlt
      · rename_i hnew
        obtain ⟨fault, hfault⟩ := hholds.save_of_full hnew (by rw [hholds.length]; omega)
        rw [hts]
        exact ⟨fault, (bind_pure _).trans hfault⟩

/-! ## Loading -/

/-- The value of an entry is its transaction. -/
theorem decodeTx_encode (h : (Rlp.Item.str tx).encode.length < 2 ^ 64) :
    decodeTx (Rlp.Item.str tx).encode = some tx := by
  unfold decodeTx
  rw [Rlp.decode_encode _ h]
  rfl

/-- **What is loaded are the values that can be decoded**, in the order of the
keys. -/
theorem loadAll_fst (ts : TxStash) :
    (ts.loadAll H).1 = ts.kv.filterMap (fun entry => decodeTx entry.2) := by
  -- The loop changes the stash too, but reads only what it iterates over.
  suffices hloop : ∀ (entries : Store) (txs : List Bytes) (ts : TxStash),
      (entries.foldl (fun (txs, ts) entry =>
        match decodeTx entry.2 with
        | none => (txs, { ts with kv := ts.kv.delete entry.1 })
        | some tx => (txs ++ [tx], { ts with fifo := ts.fifo ++ [.bytes (txHash H tx)] }))
        ((txs, ts) : List Bytes × TxStash)).1
        = txs ++ entries.filterMap (fun entry => decodeTx entry.2) from hloop ts.kv [] ts
  intro entries
  induction entries with
  | nil => exact fun txs _ => (List.append_nil txs).symm
  | cons entry rest ih =>
    intro txs ts
    rw [List.foldl_cons, List.filterMap_cons]
    cases decodeTx entry.2 with
    | none => exact ih txs _
    | some tx => exact (ih _ _).trans (List.append_assoc _ _ _)

/-- A new stash over a store with these transactions loads them. -/
theorem loadAll_perm {kv : Store} (hkv : kv.Perm (saved.map (entry H)))
    (hlen : ∀ tx ∈ saved, (Rlp.Item.str tx).encode.length < 2 ^ 64) :
    ((new kv maxSize).loadAll H).1.Perm saved := by
  rw [loadAll_fst]
  have hall : (saved.map (entry H)).filterMap (fun entry => decodeTx entry.2) = saved := by
    rw [List.filterMap_map]
    exact (List.filterMap_congr fun tx htx => decodeTx_encode (hlen tx htx)).trans
      List.filterMap_some
  exact (hkv.filterMap _).trans (.of_eq hall)

/-- What was saved was given. -/
theorem mem_of_mem_admitted (h : tx ∈ admitted H maxSize txs) : tx ∈ txs := by
  induction txs using List.reverseRecOn with
  | nil => exact h
  | append_singleton txs last ih =>
    rw [admitted_concat] at h
    unfold admitOne at h
    split at h
    · exact List.mem_append_left _ (ih h)
    · rw [List.mem_append] at h
      exact List.mem_append.mpr (h.imp_left ih)

/-- **The stash is a bounded queue of a sequence of transactions exactly if it
never has to evict one**: the transactions of the sequence have at most
`maxSize` different hashes. Go's slices are short enough to be encoded. -/
theorem stashed_iff (H : Hashes) (maxSize : ℕ) (txs : List Bytes)
    (hlen : ∀ tx ∈ txs, (Rlp.Item.str tx).encode.length < 2 ^ 64) :
    Stashed H maxSize txs ↔ (txs.map H.sha256).toFinset.card ≤ maxSize := by
  constructor
  · rintro ⟨ts, hts, -⟩
    by_contra hlt
    obtain ⟨fault, hfault⟩ := error_of_lt (not_le.mp hlt)
    exact nomatch hts.symm.trans hfault
  · intro hle
    obtain ⟨ts, hts, hholds⟩ := holds_of_le hle
    refine ⟨ts, hts, ?_, ?_⟩
    · rw [lastOf_eq_self hholds.room]
      exact hholds.kv
    · rw [lastOf_eq_self hholds.room]
      exact loadAll_perm hholds.kv fun tx htx => hlen tx (mem_of_mem_admitted htx)

end TxStash

namespace Testnet

/-- A stash of two takes two transactions, one of them twice. -/
theorem two_transactions_stashed :
    TxStash.Stashed hashes 2 [[1], [2], [1]] :=
  (TxStash.stashed_iff hashes 2 [[1], [2], [1]] (by decide)).mpr (by decide)

/-- **The second transaction of a stash of one**: the first has to go, and the
call panics. -/
theorem second_transaction_not_stashed : ¬ TxStash.Stashed hashes 1 [[1], [2]] := by
  rintro ⟨ts, hts, -⟩
  have hlt : 1 < TxStash.distinct hashes [[1], [2]] := by decide
  obtain ⟨fault, hfault⟩ := TxStash.error_of_lt hlt
  exact nomatch hts.symm.trans hfault

end Testnet

end LoragonBFT
