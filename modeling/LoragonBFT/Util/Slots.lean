import Mathlib.Data.List.Nodup
import Mathlib.Data.List.Perm.Basic
import Mathlib.Logic.Equiv.Basic
import Mathlib.Logic.Function.Basic
import Mathlib.Tactic.Common

/-!
# Entries that know their place

A table files its entries twice: in a map by their key, and in a slice, in
some order. An entry holds its place in the slice, so that one found by its
key can be taken out of the slice at once. Map and slice hold *references*:
what is written to an entry through one of them is read through the other.

A table is `Placed` if every entry of the slice holds its own position, and
`Filed` if moreover the map holds exactly the entries of the slice, each under
its key. What is done to a table comes down to three things, each with a lemma
that says the table stays filed and what is read from it afterwards: entries
change their places (`Same`), an entry is added (`Filed.insert`) or taken out
(`Filed.erase`).
-/

namespace Slots

variable {κ ε : Type}

/-- An entry with its place in the slice. -/
structure Cell (κ ε : Type) where
  key : κ
  val : ε
  index : ℤ

/-- Entries filed in a map and in a slice. -/
structure Table (κ ε : Type) where
  m : κ → Option ℕ
  s : List ℕ
  /-- What the references point to. -/
  cells : ℕ → Option (Cell κ ε)
  /-- The next reference that points to nothing. -/
  next : ℕ

namespace Table

variable {t t' : Table κ ε}

def empty : Table κ ε := ⟨fun _ => none, [], fun _ => none, 0⟩

/-- What an entry is apart from its place. -/
def content (t : Table κ ε) (r : ℕ) : Option (κ × ε) := (t.cells r).map fun c => (c.key, c.val)

/-- The value filed under a key. -/
def get (t : Table κ ε) (k : κ) : Option ε := (t.m k).bind fun r => (t.cells r).map Cell.val

/-- An entry is written to. -/
def write (t : Table κ ε) (r : ℕ) (c : Cell κ ε) : Table κ ε :=
  { t with cells := Function.update t.cells r (some c) }

/-- Every entry of the slice holds its position. -/
structure Placed (t : Table κ ε) : Prop where
  place : ∀ (i : ℕ) r, t.s[i]? = some r → ∃ c, t.cells r = some c ∧ c.index = i
  fresh : ∀ r, t.next ≤ r → t.cells r = none

/-- **The map and the slice hold the same entries**, and these their positions. -/
structure Filed (t : Table κ ε) : Prop extends Placed t where
  filed : ∀ k r, t.m k = some r ↔ r ∈ t.s ∧ ∃ v, t.content r = some (k, v)

theorem filed_empty : (empty : Table κ ε).Filed where
  place _ _ h := nomatch h
  fresh _ _ := rfl
  filed _ _ := ⟨fun h => (nomatch h), fun h => absurd h.1 List.not_mem_nil⟩

variable {c : Cell κ ε}

theorem content_eq {r : ℕ} (h : t.cells r = some c) :
    t.content r = some (c.key, c.val) := by
  rw [content, h]
  rfl

theorem get_eq_content (k : κ) : t.get k = (t.m k).bind fun r => (t.content r).map Prod.snd := by
  unfold get content
  congr 1
  funext r
  rw [Option.map_map]
  rfl

/-! ## What is in a filed table -/

theorem Placed.cell (h : t.Placed) {r : ℕ} (hr : r ∈ t.s) :
    ∃ (i : ℕ) (c : Cell κ ε), t.s[i]? = some r ∧ t.cells r = some c ∧ c.index = i := by
  obtain ⟨i, hi⟩ := List.mem_iff_getElem?.mp hr
  obtain ⟨c, hc, hindex⟩ := h.place i r hi
  exact ⟨i, c, hi, hc, hindex⟩

theorem Placed.lt_next (h : t.Placed) {r : ℕ} (hr : r ∈ t.s) : r < t.next := by
  obtain ⟨i, c, -, hc, -⟩ := h.cell hr
  refine Nat.lt_of_not_le fun hle => ?_
  rw [h.fresh r hle] at hc
  exact nomatch hc

theorem Placed.next_not_mem (h : t.Placed) : t.next ∉ t.s :=
  fun hmem => absurd (h.lt_next hmem) (Nat.lt_irrefl _)

/-- An entry is at one position only: it holds no other. -/
theorem Placed.position (h : t.Placed) {i j r : ℕ} (hi : t.s[i]? = some r)
    (hj : t.s[j]? = some r) : i = j := by
  obtain ⟨c, hc, hci⟩ := h.place i r hi
  obtain ⟨c', hc', hcj⟩ := h.place j r hj
  obtain rfl : c = c' := Option.some.inj (hc.symm.trans hc')
  exact Int.ofNat.inj (hci.symm.trans hcj)

theorem Placed.nodup (h : t.Placed) : t.s.Nodup := by
  rw [List.nodup_iff_getElem?_ne_getElem?]
  intro i j hij hj heq
  have hsome : t.s[j]? = some t.s[j] := List.getElem?_eq_getElem hj
  exact absurd (h.position (heq.trans hsome) hsome) (Nat.ne_of_lt hij)

/-- The entry filed under a key, with its position. -/
theorem Filed.entry (h : t.Filed) {k : κ} {r : ℕ} (hm : t.m k = some r) :
    ∃ (i : ℕ) (c : Cell κ ε),
      t.s[i]? = some r ∧ t.cells r = some c ∧ c.key = k ∧ c.index = i := by
  obtain ⟨hr, v, hv⟩ := (h.filed k r).mp hm
  obtain ⟨i, c, hi, hc, hindex⟩ := h.cell hr
  rw [content_eq hc] at hv
  exact ⟨i, c, hi, hc, congrArg Prod.fst (Option.some.inj hv), hindex⟩

/-- An entry of the slice is filed under its key. -/
theorem Filed.m_key (h : t.Filed) {r : ℕ} (hr : r ∈ t.s) (hc : t.cells r = some c) :
    t.m c.key = some r :=
  (h.filed c.key r).mpr ⟨hr, c.val, content_eq hc⟩

theorem Filed.get_eq_none (h : t.Filed) {k : κ} : t.get k = none ↔ t.m k = none := by
  cases hm : t.m k with
  | none => simp [get, hm]
  | some r =>
    obtain ⟨i, c, -, hc, -⟩ := h.entry hm
    simp [get, hm, hc]

/-- The keys in the slice. -/
def keys (t : Table κ ε) : List (Option κ) := t.s.map fun r => (t.cells r).map Cell.key

/-- The keys in the slice are distinct, as each has one entry in the map. -/
theorem Filed.nodup_keys (h : t.Filed) : t.keys.Nodup := by
  refine List.Nodup.map_on (fun q hq r hr hkey => ?_) h.nodup
  obtain ⟨-, c, -, hc, -⟩ := h.cell hq
  obtain ⟨-, d, -, hd, -⟩ := h.cell hr
  rw [hc, hd] at hkey
  have hqr : some q = some r :=
    calc some q = t.m c.key := (h.m_key hq hc).symm
      _ = t.m d.key := congrArg t.m (Option.some.inj hkey)
      _ = some r := h.m_key hr hd
  exact Option.some.inj hqr

/-! ## Entries change their places -/

/-- Only the places of the entries have changed. -/
structure Same (t t' : Table κ ε) : Prop where
  m : t'.m = t.m
  next : t'.next = t.next
  perm : t'.s.Perm t.s
  content : ∀ r, t'.content r = t.content r

theorem Same.refl (t : Table κ ε) : Same t t := ⟨rfl, rfl, .refl _, fun _ => rfl⟩

theorem Same.trans {t'' : Table κ ε} (h : Same t t') (h' : Same t' t'') : Same t t'' :=
  ⟨h'.m.trans h.m, h'.next.trans h.next, h'.perm.trans h.perm,
    fun r => (h'.content r).trans (h.content r)⟩

theorem Filed.of_same (h : t.Filed) (hsame : Same t t') (hplaced : t'.Placed) : t'.Filed where
  toPlaced := hplaced
  filed k r := by
    rw [hsame.m, hsame.perm.mem_iff, hsame.content]
    exact h.filed k r

theorem Same.get (h : Same t t') : t'.get = t.get := by
  funext k
  rw [get_eq_content, get_eq_content, h.m]
  simp only [h.content]

/-- The entries at two positions change places. -/
def swap (t : Table κ ε) (i j : ℕ) : Option (Table κ ε) := do
  let a ← t.s[i]?
  let b ← t.s[j]?
  let entA ← t.cells a
  let t := t.write a { entA with index := j }
  let entB ← t.cells b
  let t := t.write b { entB with index := i }
  return { t with s := (t.s.set i b).set j a }

theorem cells_write_self (r : ℕ) (c : Cell κ ε) : (t.write r c).cells r = some c := by
  show Function.update t.cells r (some c) r = some c
  rw [Function.update_self]

theorem cells_write_of_ne {q r : ℕ} (h : q ≠ r) (c : Cell κ ε) :
    (t.write r c).cells q = t.cells q := by
  show Function.update t.cells r (some c) q = t.cells q
  rw [Function.update_of_ne h]

/-- Writing only the place of an entry. -/
theorem content_write {r : ℕ} (hc : t.cells r = some c) (i : ℤ) (q : ℕ) :
    (t.write r { c with index := i }).content q = t.content q := by
  by_cases hq : q = r
  · rw [hq, content_eq hc, content_eq (cells_write_self r { c with index := i })]
  · exact congrArg (Option.map _) (cells_write_of_ne hq { c with index := i })

theorem getElem?_swap {s : List ℕ} {i j a b : ℕ} (hi : s[i]? = some a) (hj : s[j]? = some b)
    (k : ℕ) : ((s.set i b).set j a)[k]? = s[Equiv.swap i j k]? := by
  obtain ⟨hilt, -⟩ := List.getElem?_eq_some_iff.mp hi
  obtain ⟨hjlt, -⟩ := List.getElem?_eq_some_iff.mp hj
  by_cases hkj : k = j
  · rw [hkj, Equiv.swap_apply_right, hi, List.getElem?_set_self (by rwa [List.length_set])]
  · rw [List.getElem?_set_ne (Ne.symm hkj)]
    by_cases hki : k = i
    · rw [hki, Equiv.swap_apply_left, hj, List.getElem?_set_self hilt]
    · rw [List.getElem?_set_ne (Ne.symm hki), Equiv.swap_apply_of_ne_of_ne hki hkj]

/-- **A swap only changes places**, and the entries know their new ones. -/
theorem Placed.swap (h : t.Placed) {i j : ℕ} (hi : i < t.s.length) (hj : j < t.s.length) :
    ∃ t', t.swap i j = some t' ∧ t'.Placed ∧ Same t t'
      ∧ ∀ k, t'.s[k]? = t.s[Equiv.swap i j k]? := by
  obtain ⟨a, ha⟩ : ∃ a, t.s[i]? = some a := ⟨_, List.getElem?_eq_getElem hi⟩
  obtain ⟨b, hb⟩ : ∃ b, t.s[j]? = some b := ⟨_, List.getElem?_eq_getElem hj⟩
  obtain ⟨entA, hentA, hA⟩ := h.place i a ha
  obtain ⟨entB, hentB⟩ : ∃ entB, (t.write a { entA with index := j }).cells b = some entB := by
    by_cases hab : b = a
    · exact ⟨{ entA with index := j }, by rw [hab, cells_write_self]⟩
    · obtain ⟨c, hc, -⟩ := h.place j b hb
      exact ⟨c, (cells_write_of_ne hab _).trans hc⟩
  have hget := getElem?_swap ha hb
  have hswap : t.swap i j = some
      { (t.write a { entA with index := j }).write b { entB with index := i } with
        s := (t.s.set i b).set j a } := by
    simp only [Table.swap, ha, hb, hentA, hentB, Option.bind_eq_bind, Option.bind_some]
    rfl
  refine ⟨_, hswap, ⟨?_, ?_⟩, ⟨rfl, rfl, ?_, ?_⟩, hget⟩
  · intro k r hk
    rw [show ((t.s.set i b).set j a)[k]? = _ from hget k] at hk
    show ∃ c, ((t.write a _).write b _).cells r = some c ∧ _
    by_cases hrb : r = b
    · -- what stands at `k` was at `j`, so `k` is `i`
      have hkj : Equiv.swap i j k = j := h.position hk (hrb ▸ hb)
      have hki : k = i := (Equiv.swap_apply_eq_iff.mp hkj).trans (Equiv.swap_apply_right i j)
      exact ⟨{ entB with index := i }, by rw [hrb, cells_write_self], congrArg _ hki.symm⟩
    · rw [cells_write_of_ne hrb]
      by_cases hra : r = a
      · have hki : Equiv.swap i j k = i := h.position hk (hra ▸ ha)
        have hkj : k = j := (Equiv.swap_apply_eq_iff.mp hki).trans (Equiv.swap_apply_left i j)
        exact ⟨{ entA with index := j }, by rw [hra, cells_write_self], congrArg _ hkj.symm⟩
      · rw [cells_write_of_ne hra]
        have hki : k ≠ i := by
          rintro rfl
          rw [Equiv.swap_apply_left, hb] at hk
          exact hrb (Option.some.inj hk).symm
        have hkj : k ≠ j := by
          rintro rfl
          rw [Equiv.swap_apply_right, ha] at hk
          exact hra (Option.some.inj hk).symm
        rw [Equiv.swap_apply_of_ne_of_ne hki hkj] at hk
        exact h.place k r hk
  · intro r hr
    have hne : ∀ q ∈ t.s, r ≠ q := fun q hq hrq =>
      absurd (h.lt_next hq) (Nat.not_lt.mpr (hrq ▸ hr))
    show ((t.write a _).write b _).cells r = none
    rw [cells_write_of_ne (hne b (List.mem_of_getElem? hb)),
      cells_write_of_ne (hne a (List.mem_of_getElem? ha))]
    exact h.fresh r hr
  · obtain ⟨_, rfl⟩ := List.getElem?_eq_some_iff.mp ha
    obtain ⟨_, rfl⟩ := List.getElem?_eq_some_iff.mp hb
    exact List.set_set_perm hi hj
  · intro q
    exact (content_write hentB i q).trans (content_write hentA j q)

/-- An entry at the end of the slice. -/
theorem Placed.append (h : t.Placed) {r : ℕ} (hs : t'.s = t.s ++ [r]) (hnew : t'.cells r = some c)
    (hindex : c.index = t.s.length) (hr : r ∉ t.s) (hold : ∀ q, q ≠ r → t'.cells q = t.cells q)
    (hlt : r < t'.next) (hnext : t.next ≤ t'.next) :
    t'.Placed where
  place i q hi := by
    rw [hs, List.getElem?_append] at hi
    by_cases hlen : i < t.s.length
    · rw [if_pos hlen] at hi
      rw [hold q fun hq => hr (hq ▸ List.mem_of_getElem? hi)]
      exact h.place i q hi
    · rw [if_neg hlen, List.getElem?_singleton] at hi
      obtain ⟨hzero, hq⟩ := Option.ite_none_right_eq_some.mp hi
      obtain rfl : i = t.s.length := by omega
      exact ⟨c, Option.some.inj hq ▸ hnew, hindex⟩
  fresh q hq := by
    rw [hold q (by omega)]
    exact h.fresh q (Nat.le_trans hnext hq)

/-! ## An entry is written to, added or taken out -/

section Keys

variable [DecidableEq κ] {k : κ} {v : ε} {r : ℕ}

/-- A value is written to an entry. -/
theorem Filed.write (h : t.Filed) (hm : t.m k = some r) (hc : t.cells r = some c) :
    (t.write r { c with val := v }).Filed
      ∧ (t.write r { c with val := v }).get = Function.update t.get k (some v) := by
  obtain ⟨i, c', hi, hc', hkey, -⟩ := h.entry hm
  obtain rfl : c = c' := Option.some.inj (hc.symm.trans hc')
  have hself : (t.write r { c with val := v }).cells r = some { c with val := v } :=
    cells_write_self r _
  have hother : ∀ q, q ≠ r → (t.write r { c with val := v }).cells q = t.cells q :=
    fun q hq => cells_write_of_ne hq _
  refine ⟨⟨⟨fun j q hj => ?_, fun q hq => ?_⟩, fun k' q => ?_⟩, ?_⟩
  · obtain ⟨d, hd, hindex⟩ := h.place j q hj
    by_cases hq : q = r
    · obtain rfl : c = d := Option.some.inj (hc.symm.trans (hq ▸ hd))
      exact ⟨{ c with val := v }, hq ▸ hself, hindex⟩
    · exact ⟨d, (hother q hq).trans hd, hindex⟩
  · have hlt : r < t.next := h.lt_next (List.mem_of_getElem? hi)
    rw [hother q (Nat.ne_of_gt (Nat.lt_of_lt_of_le hlt hq))]
    exact h.fresh q hq
  · refine (h.filed k' q).trans (and_congr_right fun _ => ?_)
    by_cases hq : q = r
    · rw [hq, content_eq hc, content_eq hself]
      simp
    · rw [content, content, hother q hq]
  · funext k'
    by_cases hk : k' = k
    · rw [hk, Function.update_self, get, show (t.write r _).m k = _ from hm, Option.bind_some,
        hself]
      rfl
    · rw [Function.update_of_ne hk, get, get]
      refine Option.bind_congr fun q hq => ?_
      have hqr : q ≠ r := by
        rintro rfl
        obtain ⟨-, d, -, hd, hdkey, -⟩ := h.entry hq
        obtain rfl : c = d := Option.some.inj (hc.symm.trans hd)
        exact hk (hdkey.symm.trans hkey)
      rw [hother q hqr]

/-- **An entry is added** under a new key. -/
theorem Filed.insert (h : t.Filed) (hplaced : t'.Placed) (hm : t.m k = none)
    (hm' : t'.m = Function.update t.m k (some r)) (hs : t'.s.Perm (r :: t.s)) (hr : r ∉ t.s)
    (hnew : t'.content r = some (k, v)) (hold : ∀ q, q ≠ r → t'.content q = t.content q) :
    t'.Filed ∧ t'.get = Function.update t.get k (some v) := by
  have hne : ∀ {q}, q ∈ t.s → q ≠ r := fun hq hqr => hr (hqr ▸ hq)
  refine ⟨⟨hplaced, fun k' q => ?_⟩, ?_⟩
  · rw [hm', hs.mem_iff, List.mem_cons]
    by_cases hk : k' = k
    · rw [hk, Function.update_self, Option.some.injEq]
      constructor
      · rintro rfl
        exact ⟨.inl rfl, v, hnew⟩
      · rintro ⟨rfl | hq, w, hw⟩
        · rfl
        · -- an old entry under the new key would be in the map
          rw [hold q (hne hq)] at hw
          rw [(h.filed k q).mpr ⟨hq, w, hw⟩] at hm
          exact nomatch hm
    · rw [Function.update_of_ne hk, h.filed]
      constructor
      · rintro ⟨hq, w, hw⟩
        exact ⟨.inr hq, w, (hold q (hne hq)).trans hw⟩
      · rintro ⟨rfl | hq, w, hw⟩
        · rw [hnew] at hw
          exact absurd (congrArg Prod.fst (Option.some.inj hw)).symm hk
        · exact ⟨hq, w, (hold q (hne hq)).symm.trans hw⟩
  · funext k'
    rw [get_eq_content, hm']
    by_cases hk : k' = k
    · rw [hk, Function.update_self, Function.update_self, Option.bind_some, hnew]
      rfl
    · rw [Function.update_of_ne hk, Function.update_of_ne hk, get_eq_content]
      refine Option.bind_congr fun q hq => ?_
      rw [hold q (hne ((h.filed k' q).mp hq).1)]

/-- **An entry is taken out.** -/
theorem Filed.erase (h : t.Filed) (hplaced : t'.Placed) (hm : t.m k = some r)
    (hm' : t'.m = Function.update t.m k none) (hs : (r :: t'.s).Perm t.s)
    (hold : ∀ q, t'.content q = t.content q) :
    t'.Filed ∧ t'.get = Function.update t.get k none := by
  have hr : r ∉ t'.s := (List.nodup_cons.mp (hs.nodup_iff.mpr h.nodup)).1
  obtain ⟨-, v, hv⟩ := (h.filed k r).mp hm
  refine ⟨⟨hplaced, fun k' q => ?_⟩, ?_⟩
  · have hmem : q ∈ t.s ↔ q = r ∨ q ∈ t'.s := by rw [← hs.mem_iff, List.mem_cons]
    rw [hm', hold]
    by_cases hk : k' = k
    · rw [hk, Function.update_self]
      refine ⟨fun hnone => (nomatch hnone), fun ⟨hq, w, hw⟩ => ?_⟩
      have hkq : t.m k = some q := (h.filed k q).mpr ⟨hmem.mpr (.inr hq), w, hw⟩
      obtain rfl : r = q := Option.some.inj (hm.symm.trans hkq)
      exact absurd hq hr
    · rw [Function.update_of_ne hk, h.filed, hmem]
      refine ⟨fun ⟨hq, w, hw⟩ => ⟨hq.resolve_left ?_, w, hw⟩, fun ⟨hq, hw⟩ => ⟨.inr hq, hw⟩⟩
      rintro rfl
      exact hk (congrArg Prod.fst (Option.some.inj (hw.symm.trans hv)))
  · funext k'
    rw [get_eq_content, hm']
    by_cases hk : k' = k
    · rw [hk, Function.update_self, Function.update_self]
      rfl
    · rw [Function.update_of_ne hk, Function.update_of_ne hk, get_eq_content]
      simp only [hold]

/-! ## One entry gives way to another -/

/-- What is filed once a value has been set and the entry under another key, if
any, has been taken out. -/
def after (get : κ → Option ε) (k : κ) (v : ε) : Option κ → κ → Option ε
  | none => Function.update get k (some v)
  | some e => Function.update (Function.update get k (some v)) e none

theorem after_apply (get : κ → Option ε) (k : κ) (v : ε) (o : Option κ) (e : κ) :
    after get k v o e
      = if o = some e then none else if e = k then some v else get e := by
  cases o with
  | none => rw [if_neg nofun, after, Function.update_apply]
  | some d =>
    rw [after, Function.update_apply, Function.update_apply]
    have hiff : e = d ↔ some d = some e :=
      ⟨fun hed => congrArg some hed.symm, fun hde => (Option.some.inj hde).symm⟩
    exact if_congr hiff rfl rfl

/-- The entry under a key has had to go: it was there, or has just been set,
and is not there any more. -/
def Evicted (t t' : Table κ ε) (k e : κ) : Prop := (e = k ∨ t.m e ≠ none) ∧ t'.m e = none

instance (t t' : Table κ ε) (k e : κ) : Decidable (Evicted t t' k e) :=
  inferInstanceAs (Decidable (_ ∧ _))

variable {o : Option κ}

/-- The entry that has been taken out is the one evicted. -/
theorem evicted_iff (h : t.Filed) (h' : t'.Filed) (hget : t'.get = after t.get k v o)
    (ho : ∀ e, o = some e → e = k ∨ t.m e ≠ none) (e : κ) :
    Evicted t t' k e ↔ o = some e := by
  unfold Evicted
  rw [← h'.get_eq_none, hget, after_apply]
  by_cases he : o = some e
  · rw [if_pos he]
    exact ⟨fun _ => he, fun _ => ⟨ho e he, rfl⟩⟩
  · rw [if_neg he]
    refine ⟨fun ⟨hold, hnone⟩ => ?_, fun h => absurd h he⟩
    by_cases hek : e = k
    · rw [if_pos hek] at hnone
      exact nomatch hnone
    · rw [if_neg hek, h.get_eq_none] at hnone
      exact absurd hnone (hold.resolve_left hek)

/-- A ledger of what is filed stays right, if it notes the value that is set
and strikes out what is evicted. -/
theorem get_eq_of_after (h : t.Filed) (h' : t'.Filed) (hget : t'.get = after t.get k v o)
    (ho : ∀ e, o = some e → e = k ∨ t.m e ≠ none) {latest : κ → Option ε}
    (hlatest : ∀ e, t.get e = latest e) (e : κ) :
    t'.get e = if Evicted t t' k e then none else if e = k then some v else latest e := by
  have hev := evicted_iff h h' hget ho e
  rw [hget, after_apply, hlatest]
  by_cases he : o = some e
  · rw [if_pos he, if_pos (hev.mpr he)]
  · rw [if_neg he, if_neg fun h => he (hev.mp h)]

/-- An entry is evicted by a `Set`, and only one, if one is taken out. -/
theorem exists_evicted_iff (h : t.Filed) (h' : t'.Filed) (hget : t'.get = after t.get k v o)
    (ho : ∀ e, o = some e → e = k ∨ t.m e ≠ none) :
    ((∃! e, Evicted t t' k e) ↔ o ≠ none) ∧ ((∃ e, Evicted t t' k e) ↔ o ≠ none) := by
  have hev := evicted_iff h h' hget ho
  rw [existsUnique_congr hev, exists_congr hev]
  refine ⟨?_, Option.ne_none_iff_exists'.symm⟩
  cases o with
  | none => exact ⟨fun ⟨_, he, _⟩ => (nomatch he), fun hne => absurd rfl hne⟩
  | some e => exact ⟨fun _ => nofun, fun _ => ⟨e, rfl, fun d hd => (Option.some.inj hd).symm⟩⟩

end Keys

end Table

end Slots
