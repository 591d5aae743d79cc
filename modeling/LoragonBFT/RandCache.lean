import LoragonBFT.Util.Machine
import LoragonBFT.Util.Slots

/-!
# The cache that evicts at random

`RandCache` files its entries in a map and in a slice, so that an entry can be
picked at random. One that is removed leaves a hole in the slice. The last
entry is put there, and is told so – unless it is the one removed, which then
is told where it was.

A new key in a full cache is added first and an entry dropped afterwards, so
the one dropped may be the one just added. What `rand.Intn` returns is part of
the input here: any number at all, taken modulo the number of entries.

The cache may be any after any calls. `Tracked` therefore goes along with it
and remembers what was last set under each key and neither removed nor evicted
since. That this is what is read from the cache, and that map and slice hold
the same entries throughout, is `randCache_represents`.
-/

namespace LoragonBFT

open Slots

variable {κ α : Type}

/-- `RandCache`: the map `m` and the slice `s` are those of the table. -/
structure RandCache (κ α : Type) where
  table : Table κ α
  limit : ℕ

namespace RandCache

/-- `NewRandCache`, which panics without room for an entry. -/
def newRandCache (limit : ℕ) : Option (RandCache κ α) :=
  if limit < 1 then none else some ⟨.empty, limit⟩

/-- `RandCache.Len`. -/
def len (rc : RandCache κ α) : ℕ := rc.table.s.length

/-- `RandCache.Get`. -/
def get (rc : RandCache κ α) (key : κ) : Option α := rc.table.get key

/-- `RandCache.Contains`. -/
def contains (rc : RandCache κ α) (key : κ) : Bool := (rc.table.m key).isSome

variable [DecidableEq κ]

/-- `RandCache.remove`. An index outside the slice would panic. -/
def remove (rc : RandCache κ α) (key : κ) : Option (RandCache κ α × Bool) :=
  match rc.table.m key with
  | none => some (rc, false)
  | some r => do
    let ent ← rc.table.cells r
    let last ← rc.table.s.getLast?
    if 0 ≤ ent.index ∧ ent.index.toNat < rc.table.s.length then
      let entLast ← rc.table.cells last
      let table := rc.table.write last { entLast with index := ent.index }
      return ({ rc with table := { table with
        m := Function.update table.m key none
        s := (table.s.set ent.index.toNat last).dropLast } }, true)
    else none

/-- `RandCache.randDrop`, with what the random choice was. -/
def randDrop (rc : RandCache κ α) (pick : ℕ) : Option (RandCache κ α) :=
  if rc.table.s.length = 0 then some rc
  else do
    let r ← rc.table.s[pick % rc.table.s.length]?
    let ent ← rc.table.cells r
    let (rc, _) ← rc.remove ent.key
    return rc

/-- A new entry at the end of the slice. -/
def add (rc : RandCache κ α) (key : κ) (value : α) : RandCache κ α :=
  { rc with table := {
      m := Function.update rc.table.m key (some rc.table.next)
      s := rc.table.s ++ [rc.table.next]
      cells := Function.update rc.table.cells rc.table.next
        (some ⟨key, value, rc.table.s.length⟩)
      next := rc.table.next + 1 } }

/-- `RandCache.Set`. -/
def set (rc : RandCache κ α) (key : κ) (value : α) (pick : ℕ) : Option (RandCache κ α) :=
  match rc.table.m key with
  | some r => do
    let ent ← rc.table.cells r
    return { rc with table := rc.table.write r { ent with val := value } }
  | none =>
    if rc.limit < (rc.add key value).table.s.length then (rc.add key value).randDrop pick
    else some (rc.add key value)

/-! ## One call -/

variable {rc : RandCache κ α}

/-- Putting the last element in the place of another takes that one out. -/
theorem perm_dropLast_set {s : List ℕ} {i r last : ℕ} (hi : s[i]? = some r)
    (hlast : s.getLast? = some last) : (r :: (s.set i last).dropLast).Perm s := by
  obtain ⟨hlt, hr⟩ := List.getElem?_eq_some_iff.mp hi
  have hset : (s.set i last).dropLast ++ [last] = s.set i last := by
    refine List.dropLast_append_getLast? last ?_
    rw [Option.mem_def, List.getLast?_eq_getElem?, List.length_set]
    rw [List.getLast?_eq_getElem?] at hlast
    by_cases hend : i = s.length - 1
    · rw [← hend, List.getElem?_set_self hlt]
    · rw [List.getElem?_set_ne hend, hlast]
  have hperm : (last :: (s.set i last).dropLast).Perm (last :: s.eraseIdx i) :=
    calc (last :: (s.set i last).dropLast).Perm ((s.set i last).dropLast ++ [last]) :=
          (List.perm_append_singleton last _).symm
      _ = s.set i last := hset
      List.Perm _ _ := List.set_perm_cons_eraseIdx hlt last
  calc (r :: (s.set i last).dropLast).Perm (r :: s.eraseIdx i) := hperm.cons_inv.cons r
    _ = s[i] :: s.eraseIdx i := by rw [hr]
    List.Perm _ _ := List.getElem_cons_eraseIdx_perm hlt

theorem remove_of_none {key : κ} (h : rc.table.m key = none) :
    rc.remove key = some (rc, false) := by
  rw [remove, h]

/-- **An entry is removed**: it is in neither the map nor the slice, and all
others are where they say. -/
theorem remove_spec (h : rc.table.Filed) {key : κ} {r : ℕ} (hm : rc.table.m key = some r) :
    ∃ rc', rc.remove key = some (rc', true) ∧ rc'.limit = rc.limit ∧ rc'.table.Filed
      ∧ rc'.table.get = Function.update rc.table.get key none ∧ rc'.len + 1 = rc.len := by
  obtain ⟨i, ent, hi, hent, -, hindex⟩ := h.entry hm
  obtain ⟨hlt, -⟩ := List.getElem?_eq_some_iff.mp hi
  obtain ⟨last, hlast⟩ : ∃ last, rc.table.s.getLast? = some last := by
    rw [List.getLast?_eq_getElem?]
    exact ⟨_, List.getElem?_eq_getElem (by omega)⟩
  have hend : rc.table.s[rc.table.s.length - 1]? = some last := by
    rw [← List.getLast?_eq_getElem?, hlast]
  obtain ⟨entLast, hentLast, -⟩ := h.place _ last hend
  have hremove : rc.remove key = some ({ rc with table :=
      { rc.table.write last { entLast with index := i } with
        m := Function.update rc.table.m key none
        s := (rc.table.s.set i last).dropLast } }, true) := by
    simp only [remove, hm, hent, hlast, hentLast, Option.bind_eq_bind, Option.bind_some, hindex]
    rw [if_pos ⟨Int.natCast_nonneg i, hlt⟩]
    rfl
  have hperm := perm_dropLast_set hi hlast
  have hcontent : ∀ q, (rc.table.write last { entLast with index := i }).content q
      = rc.table.content q := Table.content_write hentLast i
  refine ⟨_, hremove, rfl, ?_⟩
  refine (and_assoc.mp ⟨h.erase ⟨fun j q hj => ?_, fun q hq => ?_⟩ hm rfl hperm hcontent, ?_⟩)
  · -- the last entry is now in the hole only
    show ∃ c, (rc.table.write last { entLast with index := i }).cells q = some c ∧ _
    obtain ⟨hjlt, hj⟩ : j < rc.table.s.length - 1 ∧ (rc.table.s.set i last)[j]? = some q := by
      rw [show ((rc.table.s.set i last).dropLast)[j]? = _ from List.getElem?_dropLast ..,
        List.length_set] at hj
      exact Option.ite_none_right_eq_some.mp hj
    by_cases hji : j = i
    · rw [hji, List.getElem?_set_self hlt] at hj
      rw [← Option.some.inj hj, Table.cells_write_self]
      exact ⟨_, rfl, congrArg Nat.cast hji.symm⟩
    · rw [List.getElem?_set_ne (Ne.symm hji)] at hj
      have hq : q ≠ last := fun hq => absurd (h.position hj (hq ▸ hend)) (Nat.ne_of_lt hjlt)
      rw [Table.cells_write_of_ne hq]
      exact h.place j q hj
  · show (rc.table.write last _).cells q = none
    rw [Table.cells_write_of_ne, h.fresh q hq]
    exact Nat.ne_of_gt (Nat.lt_of_lt_of_le (h.lt_next (List.mem_of_getElem? hend)) hq)
  · exact hperm.length_eq

/-- **An entry is added**, under a key that is new. -/
theorem add_spec (h : rc.table.Filed) {key : κ} (value : α) (hm : rc.table.m key = none) :
    (rc.add key value).table.Filed
      ∧ (rc.add key value).table.get = Function.update rc.table.get key (some value) := by
  have hself : (rc.add key value).table.cells rc.table.next
      = some ⟨key, value, rc.table.s.length⟩ := by
    show Function.update rc.table.cells _ _ _ = _
    rw [Function.update_self]
  have hother : ∀ q, q ≠ rc.table.next →
      (rc.add key value).table.cells q = rc.table.cells q := by
    intro q hq
    show Function.update rc.table.cells _ _ _ = _
    rw [Function.update_of_ne hq]
  have hplaced : (rc.add key value).table.Placed :=
    h.append rfl hself rfl h.next_not_mem hother (Nat.lt_succ_self _) (Nat.le_succ _)
  exact h.insert hplaced hm rfl (List.perm_append_singleton _ _) h.next_not_mem
    (Table.content_eq hself) fun q hq => congrArg (Option.map _) (hother q hq)

/-- **A random entry is dropped.** -/
theorem randDrop_spec (h : rc.table.Filed) (hlen : 0 < rc.len) (pick : ℕ) :
    ∃ e rc', rc.randDrop pick = some rc' ∧ rc.table.m e ≠ none ∧ rc'.limit = rc.limit
      ∧ rc'.table.Filed ∧ rc'.table.get = Function.update rc.table.get e none
      ∧ rc'.len + 1 = rc.len := by
  have hpick : pick % rc.table.s.length < rc.table.s.length := Nat.mod_lt pick hlen
  obtain ⟨r, hr⟩ : ∃ r, rc.table.s[pick % rc.table.s.length]? = some r :=
    ⟨_, List.getElem?_eq_getElem hpick⟩
  obtain ⟨ent, hent, -⟩ := h.place _ r hr
  have hm := h.m_key (List.mem_of_getElem? hr) hent
  obtain ⟨rc', hremove, hrest⟩ := remove_spec h hm
  refine ⟨ent.key, rc', ?_, by rw [hm]; exact nofun, hrest⟩
  have hne : rc.table.s.length ≠ 0 := Nat.ne_of_gt hlen
  rw [randDrop, if_neg hne, hr]
  show (rc.table.cells r >>= _) = _
  rw [hent]
  show (rc.remove ent.key >>= _) = _
  rw [hremove]
  rfl

/-- **A value is set**: it is filed under its key, and one entry – possibly
that very one – gives way if the key is new and the cache was full. -/
theorem set_spec (h : rc.table.Filed) (hlen : rc.len ≤ rc.limit) (key : κ) (value : α)
    (pick : ℕ) :
    ∃ rc' o, rc.set key value pick = some rc' ∧ rc'.limit = rc.limit ∧ rc'.len ≤ rc.limit
      ∧ rc'.table.Filed ∧ rc'.table.get = Table.after rc.table.get key value o
      ∧ (∀ e, o = some e → e = key ∨ rc.table.m e ≠ none)
      ∧ (o ≠ none ↔ rc.table.m key = none ∧ rc.len = rc.limit) := by
  unfold set
  cases hm : rc.table.m key with
  | some r =>
    obtain ⟨i, ent, -, hent, -⟩ := h.entry hm
    obtain ⟨hfiled, hget⟩ := h.write hm hent (v := value)
    refine ⟨{ rc with table := rc.table.write r { ent with val := value } }, none, ?_, rfl, hlen,
      hfiled, hget, nofun, ?_⟩
    · show (rc.table.cells r >>= _) = _
      rw [hent]
      rfl
    · exact ⟨fun hne => absurd rfl hne, fun ⟨hnone, _⟩ => (nomatch hnone)⟩
  | none =>
    obtain ⟨hfiled, hget⟩ := add_spec h value hm
    have hadd : (rc.add key value).len = rc.len + 1 := List.length_append
    by_cases hfull : rc.len = rc.limit
    · -- the entry dropped was there before or is the one added
      obtain ⟨e, rc', hdrop, he, hlimit', hfiled', hget', hlen'⟩ :=
        randDrop_spec hfiled (by omega) pick
      refine ⟨rc', some e, ?_, hlimit', by omega, hfiled', by rw [hget', hget]; rfl, ?_,
        fun _ => ⟨rfl, hfull⟩, nofun⟩
      · show (if rc.limit < (rc.add key value).len then _ else _) = _
        rw [if_pos (by omega)]
        exact hdrop
      · rintro d hd
        obtain rfl : e = d := Option.some.inj hd
        by_cases hek : e = key
        · exact .inl hek
        · rw [show (rc.add key value).table.m = _ from rfl, add] at he
          exact .inr ((Function.update_of_ne hek _ _).symm.trans_ne he)
    · refine ⟨rc.add key value, none, ?_, rfl, by omega, hfiled, hget, nofun, ?_⟩
      · show (if rc.limit < (rc.add key value).len then _ else _) = _
        rw [if_neg (by omega)]
      · exact ⟨fun hne => absurd rfl hne, fun ⟨_, heq⟩ => absurd heq hfull⟩

/-! ## Any calls -/

/-- A call that changes the cache. -/
inductive Op (κ α : Type)
  | set (key : κ) (value : α) (pick : ℕ)
  | remove (key : κ)

/-- A cache, and what was last set under each key if it has been neither
removed nor evicted since. -/
structure Tracked (κ α : Type) where
  cache : RandCache κ α
  latest : κ → Option α

/-- A call of `Set` or `Remove`. -/
def Tracked.step (x : Tracked κ α) : Op κ α → Option (Tracked κ α)
  | .set key value pick => do
    let cache ← x.cache.set key value pick
    return ⟨cache, fun e =>
      if Table.Evicted x.cache.table cache.table key e then none
      else if e = key then some value else x.latest e⟩
  | .remove key => do
    let (cache, _) ← x.cache.remove key
    return ⟨cache, fun e => if e = key then none else x.latest e⟩

/-- A new cache, and calls to it. -/
def run (limit : ℕ) (ops : List (Op κ α)) : Option (Tracked κ α) := do
  let cache ← newRandCache limit
  ops.foldlM Tracked.step ⟨cache, fun _ => none⟩

/-- What any calls keep. -/
structure Kept (limit : ℕ) (x : Tracked κ α) : Prop where
  filed : x.cache.table.Filed
  limit_eq : x.cache.limit = limit
  len_le : x.cache.len ≤ x.cache.limit
  get_eq : ∀ k, x.cache.get k = x.latest k

theorem Kept.step {limit : ℕ} {x : Tracked κ α} (h : Kept limit x) (op : Op κ α) :
    ∃ x', x.step op = some x' ∧ Kept limit x' := by
  cases op with
  | set key value pick =>
    obtain ⟨rc', o, hset, hlimit', hlen, hfiled, hget, ho, -⟩ :=
      set_spec h.filed h.len_le key value pick
    refine ⟨_, by rw [Tracked.step, hset]; rfl, hfiled, hlimit'.trans h.limit_eq,
      hlimit' ▸ hlen, fun e => ?_⟩
    exact Table.get_eq_of_after h.filed hfiled hget ho h.get_eq e
  | remove key =>
    cases hm : x.cache.table.m key with
    | none =>
      refine ⟨⟨x.cache, fun e => if e = key then none else x.latest e⟩, ?_, h.filed, h.limit_eq,
        h.len_le, fun e => ?_⟩
      · rw [Tracked.step, remove_of_none hm]
        rfl
      show x.cache.table.get e = if e = key then none else x.latest e
      by_cases hek : e = key
      · rw [if_pos hek, hek, h.filed.get_eq_none, hm]
      · rw [if_neg hek]
        exact h.get_eq e
    | some r =>
      obtain ⟨rc', hremove, hlimit, hfiled, hget, hlen⟩ := remove_spec h.filed hm
      refine ⟨_, by rw [Tracked.step, hremove]; rfl, hfiled, hlimit.trans h.limit_eq, ?_,
        fun e => ?_⟩
      · have := h.len_le
        show rc'.len ≤ rc'.limit
        omega
      · show rc'.table.get e = if e = key then none else x.latest e
        rw [hget, Function.update_apply, ← h.get_eq]
        rfl

/-- **The cache represents what was set.** After any calls, with any random
choices, the map and the slice hold the same entries, at the positions these
hold, with distinct keys and no more than allowed; what is read under a key is
what was last set, if it was neither removed nor evicted since; and a `Set`
that comes next evicts an entry – exactly one – if and only if its key is new
and the cache full. -/
theorem randCache_represents (limit : ℕ) (hlimit : 1 ≤ limit) (ops : List (Op κ α)) :
    ∃ x, run limit ops = some x
      ∧ x.cache.table.Filed ∧ x.cache.table.keys.Nodup ∧ x.cache.len ≤ limit
      ∧ (∀ k, x.cache.get k = x.latest k)
      ∧ ∀ key value pick, ∃ rc', x.cache.set key value pick = some rc'
        ∧ ((∃! e, Table.Evicted x.cache.table rc'.table key e)
          ↔ x.cache.contains key = false ∧ x.cache.len = limit)
        ∧ ((∃ e, Table.Evicted x.cache.table rc'.table key e)
          ↔ x.cache.contains key = false ∧ x.cache.len = limit) := by
  have hnew : newRandCache limit = some (⟨.empty, limit⟩ : RandCache κ α) :=
    if_neg (Nat.not_lt.mpr hlimit)
  have hkept : Kept limit (⟨⟨.empty, limit⟩, fun _ => none⟩ : Tracked κ α) :=
    ⟨Table.filed_empty, rfl, Nat.zero_le _, fun _ => rfl⟩
  obtain ⟨x, hrun, h⟩ := Machine.exists_foldlM (P := fun _ => Kept limit)
    (fun _ _ op hx => hx.step op) ops [] hkept
  refine ⟨x, ?_, h.filed, h.filed.nodup_keys, h.limit_eq ▸ h.len_le, h.get_eq, ?_⟩
  · rw [run, hnew]
    exact hrun
  · intro key value pick
    obtain ⟨rc', o, hset, -, -, hfiled, hget, ho, hfull⟩ :=
      set_spec h.filed h.len_le key value pick
    have hcond : o ≠ none ↔ x.cache.contains key = false ∧ x.cache.len = limit := by
      rw [hfull, h.limit_eq, contains, Option.isSome_eq_false_iff, Option.isNone_iff_eq_none]
    refine ⟨rc', hset, ?_⟩
    rw [← hcond]
    exact Table.exists_evicted_iff h.filed hfiled hget ho

/-- Three values in a cache of two. The second has to go, and the third is put
in its place. -/
theorem three_values_represented :
    1 ≤ 2 ∧ ∃ x, run 2 [.set 7 'a' 0, .set 8 'b' 0, .set 9 'c' 1] = some x
      ∧ x.cache.table.Filed ∧ x.cache.len ≤ 2
      ∧ x.latest 8 = none ∧ x.cache.get 8 = none
      ∧ x.latest 9 = some 'c' ∧ x.cache.get 9 = some 'c' := by
  obtain ⟨x, hrun, hfiled, -, hlen, hget, -⟩ :=
    randCache_represents 2 (by decide) [.set 7 'a' 0, .set 8 'b' 0, .set 9 'c' 1]
  have hlatest : x.latest 8 = none ∧ x.latest 9 = some 'c' := by
    obtain rfl : _ = x := Option.some.inj hrun
    decide
  exact ⟨by decide, x, hrun, hfiled, hlen, hlatest.1, hget 8 ▸ hlatest.1, hlatest.2,
    hget 9 ▸ hlatest.2⟩

end RandCache

end LoragonBFT
