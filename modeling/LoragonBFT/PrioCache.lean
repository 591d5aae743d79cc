import LoragonBFT.Util.BinaryHeap
import LoragonBFT.Util.Machine
import LoragonBFT.Util.Slots
import Mathlib.Order.WithBot

/-!
# The cache that evicts the lowest priority

`PrioCache` files its entries in a map and in a slice which `container/heap`
keeps as a heap by priority. The heap moves the entries about: `Swap` tells
them their new places, and so an entry found in the map can be removed from
the heap, or be given another priority.

A new entry is pushed first, and filed in the map after that. If there is one
too many, the first of the heap goes, which may be the one just pushed. As it
has the lowest priority of all, those that stay are the best
(`prioCache_keeps_best`): for distinct keys that are only set, what stays are
the largest of all priorities. Which priorities these are is not read back from
the cache. `Tracked` goes along with it and remembers what was last set under
each key, and neither removed nor evicted since.
-/

namespace LoragonBFT

open Slots BinaryHeap

variable {κ α π : Type}

/-! ## The largest of a list -/

/-- The `n` largest elements of a list, or all if there are fewer: no element
left out is larger than one kept. -/
def Largest [LE π] (n : ℕ) (all kept : List π) : Prop :=
  ∃ dropped, (kept ++ dropped).Perm all ∧ (∀ r ∈ kept, ∀ d ∈ dropped, d ≤ r)
    ∧ kept.length = min n all.length

namespace Largest

variable [LinearOrder π] {n : ℕ} {all kept kept' : List π} {p x : π}

theorem nil (n : ℕ) : Largest n ([] : List π) [] :=
  ⟨[], .nil, fun _ hr => absurd hr List.not_mem_nil, (Nat.min_zero n).symm⟩

/-- While there is room, nothing is left out. -/
theorem add (h : Largest n all kept) (hroom : kept.length < n) (hkept : kept'.Perm (p :: kept)) :
    Largest n (all ++ [p]) kept' := by
  obtain ⟨dropped, hperm, -, hlen⟩ := h
  have hall : kept.length + dropped.length = all.length := by
    rw [← List.length_append, hperm.length_eq]
  obtain rfl : dropped = [] := List.eq_nil_of_length_eq_zero (by omega)
  rw [List.append_nil] at hperm
  refine ⟨[], ?_, fun _ _ d hd => absurd hd List.not_mem_nil, ?_⟩
  · rw [List.append_nil]
    exact hkept.trans ((hperm.cons p).trans (List.perm_append_singleton p all).symm)
  · rw [hkept.length_eq, List.length_append, List.length_cons, List.length_singleton]
    omega

/-- Without room, a smallest one is left out. -/
theorem replace (h : Largest n all kept) (hfull : kept.length = n)
    (hkept : (x :: kept').Perm (p :: kept)) (hx : ∀ r ∈ kept', x ≤ r) :
    Largest n (all ++ [p]) kept' := by
  obtain ⟨dropped, hperm, hle, hlen⟩ := h
  have hlen' : kept'.length = kept.length := Nat.succ.inj hkept.length_eq
  refine ⟨x :: dropped, ?_, fun r hr d hd => ?_, ?_⟩
  · calc (kept' ++ x :: dropped).Perm (x :: kept' ++ dropped) := List.perm_middle
      List.Perm _ (p :: kept ++ dropped) := hkept.append_right dropped
      List.Perm _ (p :: all) := hperm.cons p
      List.Perm _ (all ++ [p]) := (List.perm_append_singleton p all).symm
  · rcases List.mem_cons.mp hd with rfl | hd
    · exact hx r hr
    · -- what was left out before is below all that was kept then
      rcases List.mem_cons.mp (hkept.mem_iff.mp List.mem_cons_self) with rfl | hxkept
      · exact hle r (hkept.cons_inv.mem_iff.mp hr) d hd
      · exact (hle x hxkept d hd).trans (hx r hr)
  · rw [hlen', List.length_append, List.length_singleton]
    omega

end Largest

/-! ## The cache -/

/-- What is filed under a key: the value and the priority of a `PrioEntry`. -/
structure Prio (α π : Type) where
  value : α
  priority : π

/-- `PrioCache`: the map `m` and the slice `s` are those of the table. -/
structure PrioCache (κ α π : Type) where
  table : Table κ (Prio α π)
  limit : ℕ

namespace PrioCache

/-- `NewPrioCache`, which panics without room for an entry. -/
def newPrioCache (limit : ℕ) : Option (PrioCache κ α π) :=
  if limit < 1 then none else some ⟨.empty, limit⟩

/-- `PrioCache.Len`. -/
def len (pc : PrioCache κ α π) : ℕ := pc.table.s.length

/-- `PrioCache.Get`. -/
def get (pc : PrioCache κ α π) (key : κ) : Option (Prio α π) := pc.table.get key

/-- The priority of the entry at a position, and the bottom where there is
none. -/
def priorityAt (t : Table κ (Prio α π)) (k : ℕ) : WithBot π :=
  ((t.s[k]?).bind fun r => (t.content r).map fun e => e.2.priority : Option π)

/-- The priorities of all entries. -/
def priorities (t : Table κ (Prio α π)) : List π :=
  t.s.filterMap fun r => (t.content r).map fun e => e.2.priority

variable [LinearOrder π]

/-- `prioEntries`, as the heap sees them. The elements it is given and gives
back are references. -/
def prioEntries : Interface (Table κ (Prio α π)) ℕ where
  len t := t.s.length
  less t i j := do
    let entI ← t.cells (← t.s[i]?)
    let entJ ← t.cells (← t.s[j]?)
    return decide (entI.val.priority < entJ.val.priority)
  swap := Table.swap
  push t r := do
    let ent ← t.cells r
    let t := t.write r { ent with index := t.s.length }
    return { t with s := t.s ++ [r] }
  pop t := do
    let r ← t.s.getLast?
    let ent ← t.cells r
    let t := t.write r { ent with index := -1 }
    return ({ t with s := t.s.dropLast }, r)

variable [DecidableEq κ]

/-- `PrioCache.popLowest`. -/
def popLowest (pc : PrioCache κ α π) : Option (PrioCache κ α π) :=
  if pc.table.s.length = 0 then some pc
  else do
    let (t, r) ← pop prioEntries pc.table
    let ent ← t.cells r
    return { pc with table := { t with m := Function.update t.m ent.key none } }

/-- A new entry, which is not filed yet. -/
def alloc (t : Table κ (Prio α π)) (key : κ) (v : Prio α π) : Table κ (Prio α π) :=
  { t with cells := Function.update t.cells t.next (some ⟨key, v, 0⟩), next := t.next + 1 }

/-- `PrioCache.Set`. The index of an entry that is in the map is never
negative. -/
def set (pc : PrioCache κ α π) (key : κ) (v : Prio α π) : Option (PrioCache κ α π) :=
  match pc.table.m key with
  | some r => do
    let ent ← pc.table.cells r
    let t ← fix prioEntries (pc.table.write r { ent with val := v }) ent.index.toNat
    return { pc with table := t }
  | none => do
    let r := pc.table.next
    let t ← push prioEntries (alloc pc.table key v) r
    let pc := { pc with table := { t with m := Function.update t.m key (some r) } }
    if pc.limit < pc.table.s.length then pc.popLowest else return pc

/-- `PrioCache.Remove`, with the entry removed. -/
def remove (pc : PrioCache κ α π) (key : κ) :
    Option (PrioCache κ α π × Option (κ × Prio α π)) :=
  match pc.table.m key with
  | none => some (pc, none)
  | some r => do
    let ent ← pc.table.cells r
    let t := { pc.table with m := Function.update pc.table.m key none }
    let (t, _) ← BinaryHeap.remove prioEntries t ent.index.toNat
    return ({ pc with table := t }, t.content r)

/-! ## The heap of the entries -/

section Heap

omit [DecidableEq κ]

variable {t t₁ t₂ : Table κ (Prio α π)} {n r : ℕ}

omit [LinearOrder π] in
theorem priorityAt_eq {k : ℕ} {c : Cell κ (Prio α π)} (hk : t.s[k]? = some r)
    (hc : t.cells r = some c) : priorityAt t k = (c.val.priority : WithBot π) := by
  rw [priorityAt, hk, Option.bind_some, Table.content_eq hc]
  rfl

omit [LinearOrder π] in
/-- The priorities move with the entries. -/
theorem priorityAt_congr {i k : ℕ} (hs : t₂.s[k]? = t₁.s[i]?)
    (hcontent : ∀ q, t₂.content q = t₁.content q) : priorityAt t₂ k = priorityAt t₁ i := by
  have hfun : t₂.content = t₁.content := funext hcontent
  unfold priorityAt
  rw [hs, hfun]

/-- Only the entries at the first positions have moved. -/
structure Moved (t₁ : Table κ (Prio α π)) (n : ℕ) (t : Table κ (Prio α π)) : Prop where
  placed : t.Placed
  same : Table.Same t₁ t
  rest : ∀ k, n ≤ k → t.s[k]? = t₁.s[k]?

omit [LinearOrder π] in
theorem Moved.refl (h : t₁.Placed) : Moved t₁ n t₁ := ⟨h, .refl t₁, fun _ _ => rfl⟩

/-- **The entries tell the heap what it needs**, and are told where they are. -/
theorem implements_prioEntries (hn : n ≤ t₁.s.length) :
    Implements prioEntries n priorityAt (Moved t₁ n) where
  less {t i j} h hi hj := by
    have hlen : t.s.length = t₁.s.length := h.same.perm.length_eq
    obtain ⟨a, ha⟩ : ∃ a, t.s[i]? = some a := ⟨_, List.getElem?_eq_getElem (by omega)⟩
    obtain ⟨b, hb⟩ : ∃ b, t.s[j]? = some b := ⟨_, List.getElem?_eq_getElem (by omega)⟩
    obtain ⟨entA, hentA, -⟩ := h.placed.place i a ha
    obtain ⟨entB, hentB, -⟩ := h.placed.place j b hb
    rw [priorityAt_eq ha hentA, priorityAt_eq hb hentB]
    simp only [prioEntries, ha, hb, hentA, hentB, Option.bind_eq_bind, Option.bind_some,
      WithBot.coe_lt_coe]
    rfl
  swap {t i j} h hi hj := by
    have hlen : t.s.length = t₁.s.length := h.same.perm.length_eq
    obtain ⟨t', hswap, hplaced, hsame, hget⟩ :=
      h.placed.swap (by omega : i < t.s.length) (by omega : j < t.s.length)
    refine ⟨t', hswap, ⟨hplaced, h.same.trans hsame, fun k hk => ?_⟩, funext fun k => ?_⟩
    · rw [hget, Equiv.swap_apply_of_ne_of_ne (by omega) (by omega)]
      exact h.rest k hk
    · exact priorityAt_congr (hget k) hsame.content

/-- An entry has been taken out, and the others are a heap. -/
structure TakenOut (t : Table κ (Prio α π)) (r n : ℕ) (t' : Table κ (Prio α π)) : Prop where
  placed : t'.Placed
  m : t'.m = t.m
  perm : (r :: t'.s).Perm t.s
  content : ∀ q, t'.content q = t.content q
  heap : IsHeap (priorityAt t') n

/-- **The last entry is taken off.** -/
theorem pop_prioEntries (hsame : Table.Same t₁ t₂) (hplaced : t₂.Placed)
    (hlen : t₁.s.length = n + 1) (hlast : t₂.s[n]? = some r) (hheap : IsHeap (priorityAt t₂) n) :
    ∃ t, prioEntries.pop t₂ = some (t, r) ∧ TakenOut t₁ r n t := by
  have hlen₂ : t₂.s.length = n + 1 := hsame.perm.length_eq.trans hlen
  obtain ⟨ent, hent, -⟩ := hplaced.place n r hlast
  have hgetLast : t₂.s.getLast? = some r := by
    rw [List.getLast?_eq_getElem?, hlen₂, Nat.add_sub_cancel, hlast]
  have hdrop : ∀ k < n, t₂.s.dropLast[k]? = t₂.s[k]? := fun k hk => by
    rw [List.getElem?_dropLast, if_pos (by omega)]
  have hcontent : ∀ q, (t₂.write r { ent with index := -1 }).content q = t₂.content q :=
    Table.content_write hent (-1)
  refine ⟨{ t₂.write r { ent with index := -1 } with s := t₂.s.dropLast }, ?_,
    ⟨fun k q hk => ?_, fun q hq => ?_⟩, hsame.m, ?_,
    fun q => (hcontent q).trans (hsame.content q),
    hheap.congr fun k hk => priorityAt_congr (hdrop k hk) hcontent⟩
  · simp only [prioEntries, hgetLast, hent, Option.bind_eq_bind, Option.bind_some]
    rfl
  · obtain ⟨hkn, hk⟩ : k < n ∧ t₂.s[k]? = some q := by
      rw [show t₂.s.dropLast[k]? = _ from List.getElem?_dropLast .., hlen₂] at hk
      exact Option.ite_none_right_eq_some.mp hk
    have hqr : q ≠ r := fun hq => absurd (hplaced.position hk (hq ▸ hlast)) (by omega)
    show ∃ c, (t₂.write r _).cells q = some c ∧ _
    rw [Table.cells_write_of_ne hqr]
    exact hplaced.place k q hk
  · have hlt := hplaced.lt_next (List.mem_of_getElem? hlast)
    show (t₂.write r _).cells q = none
    rw [Table.cells_write_of_ne (Nat.ne_of_gt (Nat.lt_of_lt_of_le hlt hq))]
    exact hplaced.fresh q hq
  · have hsplit : t₂.s.dropLast ++ [r] = t₂.s := List.dropLast_append_getLast? r hgetLast
    calc (r :: t₂.s.dropLast).Perm (t₂.s.dropLast ++ [r]) :=
          (List.perm_append_singleton r _).symm
      _ = t₂.s := hsplit
      List.Perm _ t₁.s := hsame.perm

/-- An entry is taken off once it has been swapped with the last one, and the
heap of the others has been repaired. -/
theorem pop_swapped (hlen : t.s.length = n + 1) {i : ℕ} (hi : t.s[i]? = some r)
    (hsame : Table.Same t t₁) (hget : ∀ k, t₁.s[k]? = t.s[Equiv.swap i n k]?)
    (hmoved : Moved t₁ n t₂) (hheap : IsHeap (priorityAt t₂) n) :
    ∃ t', prioEntries.pop t₂ = some (t', r) ∧ TakenOut t r n t' := by
  have hlast : t₂.s[n]? = some r := by
    rw [hmoved.rest n le_rfl, hget, Equiv.swap_apply_right, hi]
  exact pop_prioEntries (hsame.trans hmoved.same) hmoved.placed hlen hlast hheap

/-- **The entry at a position is taken out of the heap**, wherever it is. -/
theorem remove_prioEntries (hplaced : t.Placed) (hlen : t.s.length = n + 1)
    (hheap : IsHeap (priorityAt t) (n + 1)) {i : ℕ} (hi : t.s[i]? = some r) :
    ∃ t', BinaryHeap.remove prioEntries t i = some (t', r) ∧ TakenOut t r n t' := by
  obtain ⟨hilt, -⟩ := List.getElem?_eq_some_iff.mp hi
  by_cases hin : i = n
  · obtain ⟨t', hpop, htaken⟩ := pop_prioEntries (.refl t) hplaced hlen (hin ▸ hi)
      fun k hk hpos => hheap k (by omega) hpos
    exact ⟨t', by rw [hin, remove_last hlen, hpop], htaken⟩
  · obtain ⟨t₁, hswap, hplaced₁, hsame₁, hget₁⟩ :=
      hplaced.swap hilt (by omega : n < t.s.length)
    have hlen₁ : t₁.s.length = n + 1 := hsame₁.perm.length_eq.trans hlen
    obtain ⟨t₂, hremove, hmoved, hheap₂⟩ :=
      remove_isHeap (implements_prioEntries (by omega)) hlen (by omega) hheap hswap
        (Moved.refl hplaced₁) (funext fun k => priorityAt_congr (hget₁ k) hsame₁.content)
    obtain ⟨t', hpop, htaken⟩ := pop_swapped hlen hi hsame₁ hget₁ hmoved hheap₂
    exact ⟨t', hremove.trans hpop, htaken⟩

/-- **The first entry is taken out of the heap.** -/
theorem pop_heap (hplaced : t.Placed) (hlen : t.s.length = n + 1)
    (hheap : IsHeap (priorityAt t) (n + 1)) (hr : t.s[0]? = some r) :
    ∃ t', BinaryHeap.pop prioEntries t = some (t', r) ∧ TakenOut t r n t' := by
  obtain ⟨t₁, hswap, hplaced₁, hsame₁, hget₁⟩ :=
    hplaced.swap (by omega : 0 < t.s.length) (by omega : n < t.s.length)
  have hlen₁ : t₁.s.length = n + 1 := hsame₁.perm.length_eq.trans hlen
  obtain ⟨t₂, hpopped, hmoved, hheap₂⟩ :=
    pop_isHeap (implements_prioEntries (by omega)) hlen hheap hswap (Moved.refl hplaced₁)
      (funext fun k => priorityAt_congr (hget₁ k) hsame₁.content)
  obtain ⟨t', hpop, htaken⟩ := pop_swapped hlen hr hsame₁ hget₁ hmoved hheap₂
  exact ⟨t', hpopped.trans hpop, htaken⟩

/-- **A new entry is put on the heap.** -/
theorem push_heap (hplaced : t.Placed) (hlen : t.s.length = n) (hheap : IsHeap (priorityAt t) n)
    (key : κ) (v : Prio α π) :
    ∃ t', BinaryHeap.push prioEntries (alloc t key v) t.next = some t' ∧ t'.Placed ∧ t'.m = t.m
      ∧ t'.s.Perm (t.next :: t.s) ∧ t'.content t.next = some (key, v)
      ∧ (∀ q, q ≠ t.next → t'.content q = t.content q) ∧ IsHeap (priorityAt t') (n + 1) := by
  have hfresh : t.next ∉ t.s := hplaced.next_not_mem
  have halloc : (alloc t key v).cells t.next = some ⟨key, v, 0⟩ := by
    show Function.update t.cells _ _ _ = _
    rw [Function.update_self]
  have hother : ∀ q, q ≠ t.next → ((alloc t key v).write t.next ⟨key, v, t.s.length⟩).cells q
      = t.cells q := by
    intro q hq
    rw [Table.cells_write_of_ne hq]
    show Function.update t.cells _ _ _ = _
    rw [Function.update_of_ne hq]
  obtain ⟨t₁, ht₁⟩ : ∃ t₁, t₁ = { (alloc t key v).write t.next ⟨key, v, t.s.length⟩ with
      s := t.s ++ [t.next] } := ⟨_, rfl⟩
  have hpush : prioEntries.push (alloc t key v) t.next = some t₁ := by
    simp only [prioEntries, halloc, Option.bind_eq_bind, Option.bind_some, ht₁]
    rfl
  have hself : t₁.cells t.next = some ⟨key, v, t.s.length⟩ := by
    rw [ht₁]
    exact Table.cells_write_self t.next _
  have hcells : ∀ q, q ≠ t.next → t₁.cells q = t.cells q := by
    rw [ht₁]
    exact hother
  have hs₁ : t₁.s = t.s ++ [t.next] := by rw [ht₁]
  have hcontent : ∀ q, q ≠ t.next → t₁.content q = t.content q :=
    fun q hq => congrArg (Option.map _) (hcells q hq)
  have hplaced₁ : t₁.Placed := hplaced.append hs₁ hself rfl hfresh hcells
    (by rw [ht₁]; exact Nat.lt_succ_self _) (by rw [ht₁]; exact Nat.le_succ _)
  have hlen₁ : t₁.s.length = n + 1 := by rw [hs₁, List.length_append, hlen]; rfl
  have hheap₁ : IsHeap (priorityAt t₁) n := by
    refine hheap.congr fun k hk => ?_
    obtain ⟨q, hq⟩ : ∃ q, t.s[k]? = some q := ⟨_, List.getElem?_eq_getElem (by omega)⟩
    have hqne : q ≠ t.next := fun h => hfresh (h ▸ List.mem_of_getElem? hq)
    have hq₁ : t₁.s[k]? = some q := by
      rw [hs₁, List.getElem?_append_left (by omega), hq]
    unfold priorityAt
    rw [hq, hq₁, Option.bind_some, Option.bind_some, hcontent q hqne]
  obtain ⟨t', hpushed, hmoved, hheap'⟩ :=
    push_isHeap (implements_prioEntries (by omega)) hpush hlen₁ (Moved.refl hplaced₁) hheap₁
  refine ⟨t', hpushed, hmoved.placed, hmoved.same.m.trans (by rw [ht₁]; rfl), ?_, ?_, ?_, hheap'⟩
  · exact hmoved.same.perm.trans (hs₁ ▸ List.perm_append_singleton t.next t.s)
  · rw [hmoved.same.content]
    exact Table.content_eq hself
  · exact fun q hq => (hmoved.same.content q).trans (hcontent q hq)

end Heap

/-! ## One call -/

variable {pc : PrioCache κ α π}

/-- What every call keeps. -/
structure Kept (limit : ℕ) (pc : PrioCache κ α π) : Prop where
  filed : pc.table.Filed
  heap : IsHeap (priorityAt pc.table) pc.len
  limit_eq : pc.limit = limit
  len_le : pc.len ≤ limit

variable {v : Prio α π} {limit : ℕ}

omit [DecidableEq κ] [LinearOrder π] in
/-- The entry under a key is at some position, with its priority. -/
theorem exists_priorityAt {t : Table κ (Prio α π)} (h : t.Filed) {k : κ} (hget : t.get k = some v) :
    ∃ i < t.s.length, priorityAt t i = (v.priority : WithBot π) := by
  obtain ⟨r, hm, hr⟩ := Option.bind_eq_some_iff.mp hget
  obtain ⟨i, c, hi, hc, -⟩ := h.entry hm
  rw [hc] at hr
  obtain rfl : c.val = v := Option.some.inj hr
  obtain ⟨hlt, -⟩ := List.getElem?_eq_some_iff.mp hi
  exact ⟨i, hlt, priorityAt_eq hi hc⟩

omit [DecidableEq κ] [LinearOrder π] in
/-- A priority is that of an entry under some key. -/
theorem exists_get_of_mem_priorities {t : Table κ (Prio α π)} (h : t.Filed) {p : π}
    (hp : p ∈ priorities t) : ∃ k v, t.get k = some v ∧ v.priority = p := by
  obtain ⟨r, hr, hcontent⟩ := List.mem_filterMap.mp hp
  obtain ⟨⟨k, v⟩, hkv, hv⟩ := Option.map_eq_some_iff.mp hcontent
  refine ⟨k, v, ?_, hv⟩
  rw [Table.get_eq_content, (h.filed k r).mpr ⟨hr, v, hkv⟩, Option.bind_some, hkv]
  rfl

omit [DecidableEq κ] [LinearOrder π] in
theorem priorities_erase {t t' : Table κ (Prio α π)} {r : ℕ} {k : κ} (hs : (r :: t'.s).Perm t.s)
    (hcontent : ∀ q, t'.content q = t.content q) (hr : t.content r = some (k, v)) :
    (v.priority :: priorities t').Perm (priorities t) := by
  have hfun : t'.content = t.content := funext hcontent
  have hperm := hs.filterMap fun q => (t.content q).map fun e => e.2.priority
  rw [List.filterMap_cons, hr] at hperm
  unfold priorities
  rw [hfun]
  exact hperm

omit [DecidableEq κ] [LinearOrder π] in
theorem priorities_insert {t t' : Table κ (Prio α π)} {r : ℕ} {k : κ} (hs : t'.s.Perm (r :: t.s))
    (hr : r ∉ t.s) (hnew : t'.content r = some (k, v))
    (hold : ∀ q, q ≠ r → t'.content q = t.content q) :
    (priorities t').Perm (v.priority :: priorities t) := by
  have hperm := hs.filterMap fun q => (t'.content q).map fun e => e.2.priority
  rw [List.filterMap_cons, hnew] at hperm
  have hrest : (t.s.filterMap fun q => (t'.content q).map fun e => e.2.priority)
      = priorities t :=
    List.filterMap_congr fun q hq => by rw [hold q fun h => hr (h ▸ hq)]
  rw [← hrest]
  exact hperm

/-- **The entry of lowest priority goes.** -/
theorem popLowest_spec (h : pc.table.Filed) {n : ℕ} (hlen : pc.len = n + 1)
    (hheap : IsHeap (priorityAt pc.table) (n + 1)) :
    ∃ pc' e v, pc.popLowest = some pc' ∧ pc'.limit = pc.limit ∧ pc'.len = n ∧ pc'.table.Filed
      ∧ IsHeap (priorityAt pc'.table) n ∧ pc.table.get e = some v
      ∧ pc'.table.get = Function.update pc.table.get e none
      ∧ (v.priority :: priorities pc'.table).Perm (priorities pc.table)
      ∧ ∀ k w, pc.table.get k = some w → v.priority ≤ w.priority := by
  have hpos : pc.table.s.length = n + 1 := hlen
  obtain ⟨r, hr⟩ : ∃ r, pc.table.s[0]? = some r := ⟨_, List.getElem?_eq_getElem (by omega)⟩
  obtain ⟨ent, hent, -⟩ := h.place 0 r hr
  have hm := h.m_key (List.mem_of_getElem? hr) hent
  have hget : pc.table.get ent.key = some ent.val := by
    rw [Table.get, hm, Option.bind_some, hent]
    rfl
  obtain ⟨t, hpop, hplaced, htm, hperm, hcontent, hheap'⟩ :=
    pop_heap h.toPlaced hpos hheap hr
  obtain ⟨ent', hent', hkey⟩ : ∃ ent', t.cells r = some ent' ∧ ent'.key = ent.key := by
    have hc := (hcontent r).trans (Table.content_eq hent)
    obtain ⟨ent', hent', hpair⟩ := Option.map_eq_some_iff.mp hc
    exact ⟨ent', hent', congrArg Prod.fst hpair⟩
  obtain ⟨t', ht'⟩ : ∃ t', t' = { t with m := Function.update pc.table.m ent.key none } := ⟨_, rfl⟩
  have hplaced' : t'.Placed := by
    rw [ht']
    exact ⟨hplaced.place, hplaced.fresh⟩
  have hperm' : (r :: t'.s).Perm pc.table.s := by rwa [ht']
  have hcontent' : ∀ q, t'.content q = pc.table.content q := by rwa [ht']
  obtain ⟨hfiled, hget'⟩ := h.erase hplaced' hm (by rw [ht']) hperm' hcontent'
  refine ⟨⟨t', pc.limit⟩, ent.key, ent.val, ?_, rfl, ?_, hfiled, by rwa [ht'], hget, hget',
    priorities_erase hperm' hcontent' (Table.content_eq hent), fun k w hw => ?_⟩
  · rw [popLowest, if_neg (by omega), hpop]
    show (t.cells r >>= _) = _
    rw [hent', ht', ← hkey, ← htm]
    rfl
  · exact Nat.succ.inj (hperm'.length_eq.trans hpos)
  · obtain ⟨i, hi, hpri⟩ := exists_priorityAt h hw
    have hroot := hheap.root_le (hpos ▸ hi)
    rw [hpri, priorityAt_eq hr hent] at hroot
    exact WithBot.coe_le_coe.mp hroot

/-- An entry is given another value and priority. -/
theorem set_existing (h : Kept limit pc) {key : κ} (v : Prio α π) {r : ℕ}
    (hm : pc.table.m key = some r) :
    ∃ pc', pc.set key v = some pc' ∧ Kept limit pc'
      ∧ pc'.table.get = Function.update pc.table.get key (some v) := by
  obtain ⟨i, ent, hi, hent, -, hindex⟩ := h.filed.entry hm
  obtain ⟨hlt, -⟩ := List.getElem?_eq_some_iff.mp hi
  obtain ⟨hfiled, hget⟩ := h.filed.write hm hent (v := v)
  have hloose : Loose (priorityAt (pc.table.write r { ent with val := v })) pc.len i := by
    refine h.heap.loose fun k hk hki => ?_
    obtain ⟨q, hq⟩ : ∃ q, pc.table.s[k]? = some q := ⟨_, List.getElem?_eq_getElem hk⟩
    have hqr : q ≠ r := fun hqr => hki (h.filed.position hq (hqr ▸ hi))
    obtain ⟨c, hc, -⟩ := h.filed.place k q hq
    rw [priorityAt_eq hq hc]
    exact priorityAt_eq hq ((Table.cells_write_of_ne hqr _).trans hc)
  obtain ⟨t₁, ht₁⟩ : ∃ t₁, t₁ = pc.table.write r { ent with val := v } := ⟨_, rfl⟩
  have hlen₁ : t₁.s.length = pc.len := by rw [ht₁]; rfl
  rw [← ht₁] at hfiled hget hloose
  obtain ⟨t', hfix, hmoved, hheap⟩ :=
    settle_isHeap (implements_prioEntries hlen₁.ge) (Moved.refl hfiled.toPlaced) hlt hloose
  have hlen : t'.s.length = pc.len := hmoved.same.perm.length_eq.trans hlen₁
  refine ⟨⟨t', pc.limit⟩, ?_, ⟨hfiled.of_same hmoved.same hmoved.placed, ?_, h.limit_eq, ?_⟩,
    hmoved.same.get.trans hget⟩
  · rw [set, hm]
    show (pc.table.cells r >>= _) = _
    rw [hent]
    show (fix prioEntries (pc.table.write r { ent with val := v }) ent.index.toNat >>= _) = _
    rw [← ht₁, hindex, Int.toNat_natCast, fix]
    show (settle prioEntries t₁.s.length t₁ i >>= _) = _
    rw [hlen₁, hfix]
    rfl
  · show IsHeap (priorityAt t') t'.s.length
    rw [hlen]
    exact hheap
  · show t'.s.length ≤ limit
    rw [hlen]
    exact h.len_le

/-- A new entry is filed, before one is taken out if there is one too many. -/
theorem set_new (h : Kept limit pc) {key : κ} (v : Prio α π) (hm : pc.table.m key = none) :
    ∃ pc₁ : PrioCache κ α π, pc.set key v
        = (if pc₁.limit < pc₁.table.s.length then pc₁.popLowest else some pc₁)
      ∧ pc₁.limit = limit ∧ pc₁.len = pc.len + 1 ∧ pc₁.table.Filed
      ∧ IsHeap (priorityAt pc₁.table) (pc.len + 1)
      ∧ pc₁.table.get = Function.update pc.table.get key (some v)
      ∧ (priorities pc₁.table).Perm (v.priority :: priorities pc.table) := by
  obtain ⟨t, hpush, hplaced, htm, hperm, hnew, hold, hheap⟩ :=
    push_heap h.filed.toPlaced rfl h.heap key v
  have hfresh : pc.table.next ∉ pc.table.s := h.filed.next_not_mem
  obtain ⟨t₁, ht₁⟩ : ∃ t₁, t₁ = { t with m := Function.update t.m key (some pc.table.next) } :=
    ⟨_, rfl⟩
  have hplaced₁ : t₁.Placed := by
    rw [ht₁]
    exact ⟨hplaced.place, hplaced.fresh⟩
  have hperm₁ : t₁.s.Perm (pc.table.next :: pc.table.s) := by rwa [ht₁]
  have hnew₁ : t₁.content pc.table.next = some (key, v) := by rwa [ht₁]
  have hold₁ : ∀ q, q ≠ pc.table.next → t₁.content q = pc.table.content q := by rwa [ht₁]
  obtain ⟨hfiled, hget⟩ :=
    h.filed.insert hplaced₁ hm (by rw [ht₁, htm]) hperm₁ hfresh hnew₁ hold₁
  refine ⟨⟨t₁, pc.limit⟩, ?_, h.limit_eq, hperm₁.length_eq, hfiled, by rwa [ht₁], hget,
    priorities_insert hperm₁ hfresh hnew₁ hold₁⟩
  rw [set, hm]
  show (BinaryHeap.push prioEntries _ _ >>= _) = _
  rw [hpush, ht₁]
  rfl

/-- **A value is set.** If the key is new and the cache full, an entry goes
that has the lowest priority of all, the new one included. -/
theorem set_spec (h : Kept limit pc) (key : κ) (v : Prio α π) :
    ∃ pc' o, pc.set key v = some pc' ∧ Kept limit pc'
      ∧ pc'.table.get = Table.after pc.table.get key v o
      ∧ (o ≠ none ↔ pc.table.m key = none ∧ pc.len = limit)
      ∧ (∀ e, o = some e → ∃ w, Function.update pc.table.get key (some v) e = some w
        ∧ ∀ k u, Function.update pc.table.get key (some v) k = some u → w.priority ≤ u.priority)
      ∧ (pc.table.m key = none → pc.len < limit →
        (priorities pc'.table).Perm (v.priority :: priorities pc.table))
      ∧ (pc.table.m key = none → pc.len = limit →
        ∃ x, (x :: priorities pc'.table).Perm (v.priority :: priorities pc.table)
          ∧ ∀ p ∈ priorities pc'.table, x ≤ p) := by
  cases hm : pc.table.m key with
  | some r =>
    obtain ⟨pc', hset, hkept, hget⟩ := set_existing h v hm
    exact ⟨pc', none, hset, hkept, hget, by simp, nofun, nofun, nofun⟩
  | none =>
    obtain ⟨pc₁, hset, hlimit, hlen, hfiled, hheap, hget, hperm⟩ := set_new h v hm
    have hlen₁ : pc₁.table.s.length = pc.len + 1 := hlen
    rw [hlimit, hlen₁] at hset
    by_cases hfull : pc.len = limit
    · obtain ⟨pc', e, w, hpop, hlimit', hlen', hfiled', hheap', hew, hget', hperm', hmin⟩ :=
        popLowest_spec hfiled hlen hheap
      rw [if_pos (by omega), hpop] at hset
      refine ⟨pc', some e, hset, ⟨hfiled', hlen' ▸ hheap', hlimit'.trans hlimit, by omega⟩,
        hget'.trans (by rw [hget]; rfl), by simp [hfull], fun d hd => ?_, fun _ hlt =>
          absurd hfull (by omega),
        fun _ _ => ⟨w.priority, hperm'.trans hperm, fun p hp => ?_⟩⟩
      · obtain rfl : e = d := Option.some.inj hd
        rw [← hget]
        exact ⟨w, hew, hmin⟩
      · obtain ⟨k, u, hu, rfl⟩ := exists_get_of_mem_priorities hfiled' hp
        rw [hget', Function.update_apply] at hu
        exact hmin k u (Option.ite_none_left_eq_some.mp hu).2
    · have hle := h.len_le
      rw [if_neg (by omega)] at hset
      exact ⟨pc₁, none, hset, ⟨hfiled, hlen ▸ hheap, hlimit, by omega⟩, hget, by simp [hfull],
        nofun, fun _ _ => hperm, fun _ heq => absurd heq hfull⟩

omit [DecidableEq κ] [LinearOrder π] in
/-- What goes is under a key that was there, or has just been set. -/
theorem eq_or_filed_of_update [DecidableEq κ] {t : Table κ (Prio α π)} (h : t.Filed) {key e : κ}
    {w : Prio α π} (hw : Function.update t.get key (some v) e = some w) :
    e = key ∨ t.m e ≠ none := by
  by_cases hek : e = key
  · exact .inl hek
  · rw [Function.update_of_ne hek] at hw
    refine .inr fun hnone => ?_
    rw [h.get_eq_none.mpr hnone] at hw
    cases hw

/-- **An entry is removed**, and returned if there is one. -/
theorem remove_spec (h : Kept limit pc) (key : κ) :
    ∃ pc', pc.remove key = some (pc', (pc.get key).map (Prod.mk key)) ∧ Kept limit pc'
      ∧ pc'.table.get = Function.update pc.table.get key none := by
  cases hm : pc.table.m key with
  | none =>
    have hnone : pc.table.get key = none := h.filed.get_eq_none.mpr hm
    refine ⟨pc, ?_, h, (Function.update_eq_self_iff.mpr hnone.symm).symm⟩
    rw [remove, hm, get, hnone]
    rfl
  | some r =>
    obtain ⟨i, ent, hi, hent, hkey, hindex⟩ := h.filed.entry hm
    obtain ⟨hlt, -⟩ := List.getElem?_eq_some_iff.mp hi
    obtain ⟨n, hn⟩ : ∃ n, pc.table.s.length = n + 1 := ⟨pc.table.s.length - 1, by omega⟩
    have hheap : IsHeap (priorityAt pc.table) (n + 1) := hn ▸ h.heap
    obtain ⟨t₀, ht₀⟩ : ∃ t₀, t₀ = { pc.table with m := Function.update pc.table.m key none } :=
      ⟨_, rfl⟩
    have hplaced₀ : t₀.Placed := by
      rw [ht₀]
      exact ⟨h.filed.place, h.filed.fresh⟩
    have hi₀ : t₀.s[i]? = some r := by rwa [ht₀]
    obtain ⟨t, hremove, hplaced, htm, hperm, hcontent, hheap'⟩ :=
      remove_prioEntries hplaced₀ (by rwa [ht₀]) (by rwa [ht₀]) hi₀
    rw [ht₀] at htm hperm hcontent
    obtain ⟨hfiled, hget⟩ := h.filed.erase hplaced hm htm hperm hcontent
    have hlen : t.s.length = n := Nat.succ.inj (hperm.length_eq.trans hn)
    have hold : t.content r = (pc.get key).map (Prod.mk key) := by
      rw [show t.content r = pc.table.content r from hcontent r, Table.content_eq hent, hkey,
        PrioCache.get, Table.get, hm, Option.bind_some, hent]
      rfl
    refine ⟨⟨t, pc.limit⟩, ?_, ⟨hfiled, ?_, h.limit_eq, ?_⟩, hget⟩
    · rw [← hold, remove, hm]
      show (pc.table.cells r >>= _) = _
      rw [hent]
      show (BinaryHeap.remove prioEntries { pc.table with m := _ } ent.index.toNat >>= _) = _
      rw [← ht₀, hindex, Int.toNat_natCast, hremove]
      rfl
    · show IsHeap (priorityAt t) t.s.length
      rw [hlen]
      exact hheap'
    · have hle : pc.table.s.length ≤ limit := h.len_le
      show t.s.length ≤ limit
      omega

/-! ## Any calls -/

/-- A call that changes the cache. -/
inductive Op (κ α π : Type)
  | set (key : κ) (v : Prio α π)
  | remove (key : κ)

/-- A cache, and what was last set under each key if it has been neither
removed nor evicted since. -/
structure Tracked (κ α π : Type) where
  cache : PrioCache κ α π
  latest : κ → Option (Prio α π)

/-- A call of `Set` or `Remove`. -/
def Tracked.step (x : Tracked κ α π) : Op κ α π → Option (Tracked κ α π)
  | .set key v => do
    let cache ← x.cache.set key v
    return ⟨cache, fun e =>
      if Table.Evicted x.cache.table cache.table key e then none
      else if e = key then some v else x.latest e⟩
  | .remove key => do
    let (cache, _) ← x.cache.remove key
    return ⟨cache, fun e => if e = key then none else x.latest e⟩

/-- A new cache, and calls to it. -/
def run (limit : ℕ) (ops : List (Op κ α π)) : Option (Tracked κ α π) := do
  let cache ← newPrioCache limit
  ops.foldlM Tracked.step ⟨cache, fun _ => none⟩

/-- What any calls keep. -/
structure Tracks (limit : ℕ) (x : Tracked κ α π) : Prop extends Kept limit x.cache where
  get_eq : ∀ k, x.cache.get k = x.latest k

theorem Tracks.step {x : Tracked κ α π} (h : Tracks limit x) (op : Op κ α π) :
    ∃ x', x.step op = some x' ∧ Tracks limit x'
      ∧ ∀ key v, op = .set key v → x.cache.set key v = some x'.cache := by
  cases op with
  | set key v =>
    obtain ⟨pc', o, hset, hkept, hget, -, hmin, -⟩ := set_spec h.toKept key v
    have ho : ∀ e, o = some e → e = key ∨ x.cache.table.m e ≠ none := fun e he => by
      obtain ⟨w, hw, -⟩ := hmin e he
      exact eq_or_filed_of_update h.filed hw
    refine ⟨_, by rw [Tracked.step, hset]; rfl, ⟨hkept, fun e => ?_⟩, fun key' v' hop => ?_⟩
    · exact Table.get_eq_of_after h.filed hkept.filed hget ho h.get_eq e
    · cases hop
      exact hset
  | remove key =>
    obtain ⟨pc', hremove, hkept, hget⟩ := remove_spec h.toKept key
    refine ⟨_, by rw [Tracked.step, hremove]; rfl, ⟨hkept, fun e => ?_⟩, fun _ _ hop => ?_⟩
    · show pc'.table.get e = if e = key then none else x.latest e
      rw [hget, Function.update_apply, ← h.get_eq]
      rfl
    · cases hop

/-- Sets of some entries, in this order. -/
def sets (entries : List (κ × Prio α π)) : List (Op κ α π) := entries.map fun e => .set e.1 e.2

/-- After sets of distinct keys: there is nothing but what was set, and the
priorities are the largest. -/
structure KeptBest (limit : ℕ) (entries : List (κ × Prio α π)) (pc : PrioCache κ α π) : Prop where
  keys : ∀ k, pc.table.m k ≠ none → k ∈ entries.map Prod.fst
  largest : Largest limit (entries.map fun e => e.2.priority) (priorities pc.table)

omit [DecidableEq κ] [LinearOrder π] in
theorem length_priorities {t : Table κ (Prio α π)} (h : t.Placed) :
    (priorities t).length = t.s.length := by
  refine List.filterMap_length_eq_length.mpr fun r hr => ?_
  obtain ⟨-, c, -, hc, -⟩ := h.cell hr
  rw [Table.content_eq hc]
  rfl

theorem KeptBest.set (h : Kept limit pc) {entries : List (κ × Prio α π)}
    (hbest : KeptBest limit entries pc) {key : κ} (v : Prio α π) (hkey : key ∉ entries.map Prod.fst)
    {pc' : PrioCache κ α π} (hset : pc.set key v = some pc') :
    KeptBest limit (entries ++ [(key, v)]) pc' := by
  have hm : pc.table.m key = none := by
    by_contra hne
    exact hkey (hbest.keys key hne)
  obtain ⟨pc'', o, hset', hkept, hget, -, -, hroom, hfull⟩ := set_spec h key v
  obtain rfl : pc' = pc'' := Option.some.inj (hset.symm.trans hset')
  have hlen : (priorities pc.table).length = pc.len := length_priorities h.filed.toPlaced
  refine ⟨fun k hk => ?_, ?_⟩
  · rw [List.map_append, List.mem_append]
    by_cases hkk : k = key
    · exact .inr (List.mem_singleton.mpr hkk)
    · refine .inl (hbest.keys k fun hnone => hk ?_)
      rw [← hkept.filed.get_eq_none, hget, Table.after_apply, if_neg hkk,
        h.filed.get_eq_none.mpr hnone, ite_self]
  · rw [List.map_append]
    rcases Nat.lt_or_eq_of_le h.len_le with hlt | heq
    · exact hbest.largest.add (hlen ▸ hlt) (hroom hm hlt)
    · obtain ⟨x, hperm, hmin⟩ := hfull hm heq
      exact hbest.largest.replace (hlen.trans heq) hperm hmin

theorem keptBest_step {done : List (Op κ α π)} {x : Tracked κ α π} (h : Tracks limit x)
    (hbest : ∀ entries, done = sets entries → (entries.map Prod.fst).Nodup →
      KeptBest limit entries x.cache) (op : Op κ α π) :
    ∃ x', x.step op = some x' ∧ Tracks limit x' ∧ ∀ entries, done ++ [op] = sets entries →
      (entries.map Prod.fst).Nodup → KeptBest limit entries x'.cache := by
  obtain ⟨x', hstep, htracks, hset⟩ := h.step op
  refine ⟨x', hstep, htracks, fun entries hops hnodup => ?_⟩
  obtain ⟨before, last, rfl, hbefore, hlast⟩ := List.map_eq_append_iff.mp hops.symm
  obtain ⟨⟨key, v⟩, rfl, rfl⟩ := List.map_eq_singleton_iff.mp hlast
  rw [List.map_append, List.nodup_append] at hnodup
  obtain ⟨hdistinct, -, hnew⟩ := hnodup
  have hkey : key ∉ before.map Prod.fst :=
    fun hmem => hnew key hmem key (List.mem_singleton.mpr rfl) rfl
  exact (hbest before hbefore.symm hdistinct).set h.toKept v hkey (hset key v rfl)

omit [DecidableEq κ] in
theorem tracks_new (limit : ℕ) : Tracks limit (⟨⟨.empty, limit⟩, fun _ => none⟩ : Tracked κ α π)
    ∧ ∀ entries : List (κ × Prio α π), [] = sets entries → (entries.map Prod.fst).Nodup →
      KeptBest limit entries (⟨.empty, limit⟩ : PrioCache κ α π) := by
  refine ⟨⟨⟨Table.filed_empty, fun k hk => absurd hk (Nat.not_lt_zero k), rfl, Nat.zero_le _⟩,
    fun _ => rfl⟩, fun entries hnil _ => ?_⟩
  obtain rfl : entries = [] := List.map_eq_nil_iff.mp hnil.symm
  exact ⟨fun _ hk => absurd rfl hk, Largest.nil limit⟩

/-- **The cache keeps the best entries.** After any calls the map and the slice
hold the same entries, at the positions these hold, the slice is a heap by
priority and no longer than allowed, and what is read under a key is what was
last set, if it was neither removed nor evicted since. A `Set` that comes next
evicts an entry – exactly one – if and only if its key is new and the cache
full, and it is one of minimal priority among what was last set before and the
new one; a `Remove` returns what was last set. If the calls were sets of
distinct keys, the priorities kept are the largest ones, as many as there is
room for. -/
theorem prioCache_keeps_best (limit : ℕ) (hlimit : 1 ≤ limit) (ops : List (Op κ α π)) :
    ∃ x, run limit ops = some x
      ∧ x.cache.table.Filed ∧ IsHeap (priorityAt x.cache.table) x.cache.len
      ∧ x.cache.len ≤ limit ∧ (∀ k, x.cache.get k = x.latest k)
      ∧ (∀ key v, ∃ pc', x.cache.set key v = some pc'
        ∧ ((∃! e, Table.Evicted x.cache.table pc'.table key e)
          ↔ x.latest key = none ∧ x.cache.len = limit)
        ∧ ((∃ e, Table.Evicted x.cache.table pc'.table key e)
          ↔ x.latest key = none ∧ x.cache.len = limit)
        ∧ ∀ e, Table.Evicted x.cache.table pc'.table key e →
          ∃ w, Function.update x.latest key (some v) e = some w
            ∧ ∀ k u, Function.update x.latest key (some v) k = some u → w.priority ≤ u.priority)
      ∧ (∀ key, ∃ pc', x.cache.remove key = some (pc', (x.latest key).map (Prod.mk key)))
      ∧ ∀ entries, ops = sets entries → (entries.map Prod.fst).Nodup →
        Largest limit (entries.map fun e => e.2.priority) (priorities x.cache.table) := by
  have hnew : newPrioCache limit = some (⟨.empty, limit⟩ : PrioCache κ α π) :=
    if_neg (Nat.not_lt.mpr hlimit)
  obtain ⟨x, hrun, h, hbest⟩ := Machine.exists_foldlM
    (P := fun done (x : Tracked κ α π) => Tracks limit x ∧ ∀ entries, done = sets entries →
      (entries.map Prod.fst).Nodup → KeptBest limit entries x.cache)
    (fun done x op hx => keptBest_step hx.1 hx.2 op) ops [] (tracks_new limit)
  have hlatest : x.cache.table.get = x.latest := funext h.get_eq
  refine ⟨x, ?_, h.filed, h.heap, h.len_le, h.get_eq, fun key v => ?_, fun key => ?_,
    fun entries hops hnodup => (hbest entries hops hnodup).largest⟩
  · rw [run, hnew]
    exact hrun
  · obtain ⟨pc', o, hset, hkept, hget, hfull, hmin, -⟩ := set_spec h.toKept key v
    have ho : ∀ e, o = some e → e = key ∨ x.cache.table.m e ≠ none := fun e he => by
      obtain ⟨w, hw, -⟩ := hmin e he
      exact eq_or_filed_of_update h.filed hw
    rw [← h.filed.get_eq_none] at hfull
    rw [hlatest] at hfull hmin
    obtain ⟨hone, hany⟩ := Table.exists_evicted_iff h.filed hkept.filed hget ho
    exact ⟨pc', hset, hone.trans hfull, hany.trans hfull, fun e he =>
      hmin e ((Table.evicted_iff h.filed hkept.filed hget ho e).mp he)⟩
  · obtain ⟨pc', hremove, -⟩ := remove_spec h.toKept key
    exact ⟨pc', h.get_eq key ▸ hremove⟩

/-- A priority is raised before a third key comes to a cache of two: it is the
other entry that goes. -/
theorem raised_priority_kept :
    1 ≤ 2 ∧ ∃ x, run 2 [.set 1 ⟨'a', 5⟩, .set 2 ⟨'b', 1⟩, .set 2 ⟨'c', 9⟩, .set 3 ⟨'d', 7⟩] = some x
      ∧ x.cache.table.Filed ∧ IsHeap (priorityAt x.cache.table) x.cache.len
      ∧ [1, 2, 3].map (fun k => (x.cache.get k).map Prio.priority) = [none, some 9, some 7] := by
  obtain ⟨x, hrun, hfiled, hheap, -, hget, -⟩ := prioCache_keeps_best 2 (by decide)
    [.set 1 ⟨'a', 5⟩, .set 2 ⟨'b', 1⟩, .set 2 ⟨'c', 9⟩, .set 3 ⟨'d', 7⟩]
  have hlatest : ((run 2 [.set 1 ⟨'a', 5⟩, .set 2 ⟨'b', 1⟩, .set 2 ⟨'c', 9⟩, .set 3 ⟨'d', 7⟩]).map
      fun x => [1, 2, 3].map (fun k => (x.latest k).map Prio.priority))
      = some [none, some 9, some 7] := by decide +kernel
  rw [hrun] at hlatest
  refine ⟨by decide, x, hrun, hfiled, hheap, ?_⟩
  simp only [hget]
  exact Option.some.inj hlatest

end PrioCache

end LoragonBFT
