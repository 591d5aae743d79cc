import Mathlib.Data.List.Nodup
import Mathlib.Order.Nat

/-!
# Two slices of one array of pointers

A slice that was assigned from another one shares its array, and a slice of
pointers shares the objects as well. What is done to the second slice is then
seen through the first: an object that is written to is the same object, a
removal in place shifts the entries of the array, and an append writes behind
the entries of the second slice, where the first one may still be looking.

The state keeps the objects, the array as far as the owner of the first slice
sees it, and the second slice. Read through its own pointers, the second slice
is a list on which the operations do what they do on lists
(`contents_eraseAt`, `contents_setAt`, `contents_push`). The owner sees the
beginning of that list and, behind it, the entry that was last at the outset,
as often as there is room (`Trails.view_eq`).
-/

namespace SharedSlices

variable {α : Type}

/-- The objects and the two slices of pointers to them. -/
structure State (α : Type) where
  objects : ℕ → α
  /-- The next pointer that is free. -/
  next : ℕ
  /-- The array, as far as the owner sees it. -/
  owned : List ℕ
  /-- The entries of the second slice. -/
  used : List ℕ

namespace State

/-- `used := owned`, for a slice of objects of their own. -/
def share (default : α) (l : List α) : State α where
  objects p := l.getD p default
  next := l.length
  owned := List.range l.length
  used := List.range l.length

/-- `used = append(used[:i], used[i+1:]...)`: what is behind the shorter slice
stays in the array. -/
def eraseAt (i : ℕ) (s : State α) : State α :=
  { s with
    used := s.used.eraseIdx i
    owned := s.used.eraseIdx i ++ s.owned.drop (s.used.length - 1) }

/-- `*used[i] = x`. -/
def setAt (i : ℕ) (x : α) (s : State α) : State α :=
  match s.used[i]? with
  | none => s
  | some p => { s with objects := Function.update s.objects p x }

/-- `used = append(used, &x)`. There is room in the array as far as the owner
sees; what is written behind that, or to a new array, the owner does not
see. -/
def push (x : α) (s : State α) : State α where
  objects := Function.update s.objects s.next x
  next := s.next + 1
  owned := s.owned.set s.used.length s.next
  used := s.used ++ [s.next]

/-- The second slice. -/
def contents (s : State α) : List α := s.used.map s.objects

/-- What the owner sees. -/
def view (s : State α) : List α := s.owned.map s.objects

/-- No pointer twice, and none that is free. -/
structure Sound (s : State α) : Prop where
  nodup : s.used.Nodup
  lt_next : ∀ p ∈ s.used, p < s.next

variable {s : State α} {i : ℕ} {x : α}

/-! ## The second slice -/

theorem contents_share (default : α) (l : List α) : (share default l).contents = l := by
  refine List.ext_getElem (by simp [contents, share]) fun n hn hn' => ?_
  simp [contents, share, List.getD_eq_getElem?_getD, hn']

theorem sound_share (default : α) (l : List α) : (share default l).Sound :=
  ⟨List.nodup_range, fun _ hp => List.mem_range.mp hp⟩

theorem contents_eraseAt (i : ℕ) (s : State α) :
    (s.eraseAt i).contents = s.contents.eraseIdx i := by
  show (s.used.eraseIdx i).map s.objects = (s.used.map s.objects).eraseIdx i
  rw [List.eraseIdx_eq_take_drop_succ, List.eraseIdx_eq_take_drop_succ, List.map_append,
    List.map_take, List.map_drop]

theorem Sound.eraseAt (h : s.Sound) (i : ℕ) : (s.eraseAt i).Sound :=
  ⟨h.nodup.sublist (List.eraseIdx_sublist ..),
    fun p hp => h.lt_next p (List.mem_of_mem_eraseIdx hp)⟩

theorem setAt_of_some {p : ℕ} (hp : s.used[i]? = some p) :
    s.setAt i x = { s with objects := Function.update s.objects p x } := by
  unfold setAt
  rw [hp]

theorem Sound.contents_setAt (h : s.Sound) (i : ℕ) (x : α) :
    (s.setAt i x).contents = s.contents.set i x := by
  cases hp : s.used[i]? with
  | none =>
    have hlength := List.getElem?_eq_none_iff.mp hp
    unfold setAt
    rw [hp, List.set_eq_of_length_le (by rwa [contents, List.length_map])]
  | some p =>
    obtain ⟨hi, rfl⟩ := List.getElem?_eq_some_iff.mp hp
    rw [setAt_of_some hp]
    show s.used.map (Function.update s.objects s.used[i] x) = (s.used.map s.objects).set i x
    rw [h.nodup.map_update, if_pos (List.getElem_mem hi), h.nodup.idxOf_getElem]

theorem Sound.setAt (h : s.Sound) (i : ℕ) (x : α) : (s.setAt i x).Sound := by
  cases hp : s.used[i]? with
  | none =>
    unfold State.setAt
    rwa [hp]
  | some p =>
    rw [setAt_of_some hp]
    exact ⟨h.nodup, h.lt_next⟩

theorem Sound.contents_push (h : s.Sound) (x : α) : (s.push x).contents = s.contents ++ [x] := by
  show (s.used ++ [s.next]).map (Function.update s.objects s.next x) = s.used.map s.objects ++ [x]
  rw [List.map_append, List.map_singleton, Function.update_self]
  congr 1
  exact List.map_congr_left fun p hp => Function.update_of_ne (h.lt_next p hp).ne _ _

theorem Sound.push (h : s.Sound) (x : α) : (s.push x).Sound := by
  refine ⟨List.nodup_append.mpr ⟨h.nodup, List.nodup_singleton _, ?_⟩, ?_⟩
  · intro p hp q hq
    rw [List.mem_singleton.mp hq]
    exact (h.lt_next p hp).ne
  · intro p hp
    rcases List.mem_append.mp hp with hp | hp
    · exact (h.lt_next p hp).trans (Nat.lt_succ_self _)
    · rw [List.mem_singleton.mp hp]
      exact Nat.lt_succ_self _

/-! ## What the owner sees -/

/-- **The array of the owner**: the second slice as far as there is room, and
one pointer behind it. -/
def Trails (n last : ℕ) (s : State α) : Prop :=
  s.owned = s.used.take n ++ List.replicate (n - s.used.length) last

theorem trails_share (default : α) (l : List α) (last : ℕ) :
    (share default l).Trails l.length last := by
  unfold Trails share
  simp

/-- A removal leaves the last entry behind once more. -/
theorem Trails.eraseAt {n last : ℕ} (h : s.Trails n last) (hi : i < s.used.length)
    (hn : s.used.length ≤ n) (hlast : s.used.getLast? = some last) :
    (s.eraseAt i).Trails n last := by
  have hlength : (s.used.eraseIdx i).length = s.used.length - 1 := List.length_eraseIdx_of_lt hi
  have hdrop : s.used.drop (s.used.length - 1) = [last] := by
    obtain ⟨init, hinit⟩ := List.getLast?_eq_some_iff.mp hlast
    rw [hinit, List.length_append, List.length_singleton, Nat.add_sub_cancel, List.drop_left]
  show s.used.eraseIdx i ++ s.owned.drop (s.used.length - 1)
    = (s.used.eraseIdx i).take n ++ List.replicate (n - (s.used.eraseIdx i).length) last
  have hone : n - (s.used.length - 1) = (n - s.used.length) + 1 := by omega
  rw [h, List.take_of_length_le hn, List.drop_append_of_le_length (Nat.sub_le _ _), hdrop, hlength,
    List.take_of_length_le (by omega), hone, List.replicate_succ, List.singleton_append]

theorem Trails.setAt {n last : ℕ} (h : s.Trails n last) (i : ℕ) (x : α) :
    (s.setAt i x).Trails n last := by
  cases hp : s.used[i]? with
  | none =>
    unfold State.setAt
    rwa [hp]
  | some p =>
    rw [setAt_of_some hp]
    exact h

/-- An append overwrites what was left behind. -/
theorem Trails.push {n last : ℕ} (h : s.Trails n last) (x : α) : (s.push x).Trails n last := by
  show s.owned.set s.used.length s.next = (s.used ++ [s.next]).take n
    ++ List.replicate (n - (s.used ++ [s.next]).length) last
  rw [h, List.length_append, List.length_singleton]
  by_cases hlt : s.used.length < n
  · have hone : n - s.used.length = (n - (s.used.length + 1)) + 1 := by omega
    have hlength : (s.used ++ [s.next]).length ≤ n := by
      rw [List.length_append]
      exact hlt
    rw [List.take_of_length_le hlt.le, List.take_of_length_le hlength, hone,
      List.set_append_right _ _ (le_refl _), Nat.sub_self, List.replicate_succ, List.append_assoc]
    rfl
  · rw [not_lt] at hlt
    rw [Nat.sub_eq_zero_of_le hlt, Nat.sub_eq_zero_of_le (hlt.trans (Nat.le_succ _)),
      List.replicate_zero, List.append_nil, List.append_nil, List.take_append_of_le_length hlt]
    exact List.set_eq_of_length_le ((List.length_take_le ..).trans hlt)

/-- **What the owner sees** is the second slice as far as there is room, and
one object behind it. -/
theorem Trails.view_eq {n last : ℕ} (h : s.Trails n last) :
    s.view = s.contents.take n ++ List.replicate (n - s.contents.length) (s.objects last) := by
  show s.owned.map s.objects = (s.used.map s.objects).take n
    ++ List.replicate (n - (s.used.map s.objects).length) (s.objects last)
  rw [h, List.map_append, List.map_take, List.map_replicate, List.length_map]

end State

end SharedSlices
