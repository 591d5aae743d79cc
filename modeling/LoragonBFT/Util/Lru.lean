import Mathlib.Data.Nat.Notation
import Mathlib.Logic.Function.Basic
import Mathlib.Data.List.Basic

/-!
# Caches in front of a store

A cache of bounded size keeps the entries used last. In front of a store it
answers a lookup from its entries, and a miss is loaded and kept. So looking
something up changes the cache, and may push an entry out of it, while the
answers stay those of the store as long as **the cache is coherent**: every
entry is what would be loaded.

`Sees` is the calculus for computations that look things up: such a computation
comes to the result the store gives, and leaves the cache that its lookups, one
after the other, leave.
-/

namespace Lru

variable {κ α β γ : Type} [DecidableEq κ]

/-- The entries of a cache, the one used last first. -/
abbrev Cache (κ α : Type) := List (κ × α)

/-- What a cache holds for a key. -/
def find (cache : Cache κ α) (key : κ) : Option α :=
  (cache.find? (fun e => e.1 = key)).map Prod.snd

/-- The entry of a key is used: it comes first. -/
def use (key : κ) (value : α) (cache : Cache κ α) : Cache κ α :=
  (key, value) :: cache.filter (fun e => e.1 ≠ key)

/-- An entry is added, and the one used longest ago falls out of a full
cache. -/
def add (size : ℕ) (key : κ) (value : α) (cache : Cache κ α) : Cache κ α :=
  (use key value cache).take size

/-- A lookup. A miss is loaded and kept. -/
def getOrLoad (size : ℕ) (load : κ → Option α) (key : κ) : StateM (Cache κ α) (Option α) :=
  fun cache =>
    match find cache key with
    | some value => (some value, use key value cache)
    | none =>
      match load key with
      | none => (none, cache)
      | some value => (some value, add size key value cache)

/-- **The cache is coherent**: its entries are what would be loaded. -/
def Coherent (load : κ → Option α) (cache : Cache κ α) : Prop :=
  ∀ e ∈ cache, load e.1 = some e.2

/-- The cache once some keys have been looked up in turn. -/
def lookups (size : ℕ) (load : κ → Option α) (keys : List κ) (cache : Cache κ α) : Cache κ α :=
  keys.foldl (fun cache key => (getOrLoad size load key cache).2) cache

section Coherence

variable {size : ℕ} {load : κ → Option α} {cache : Cache κ α} {key : κ} {value : α}

theorem Coherent.use (h : Coherent load cache) (hvalue : load key = some value) :
    Coherent load (use key value cache) := by
  intro e he
  rcases List.mem_cons.mp he with rfl | he
  · exact hvalue
  · exact h e (List.mem_filter.mp he).1

theorem Coherent.add (h : Coherent load cache) (hvalue : load key = some value) :
    Coherent load (add size key value cache) :=
  fun e he => h.use hvalue e (List.mem_of_mem_take he)

theorem Coherent.of_find (h : Coherent load cache) (hfind : find cache key = some value) :
    load key = some value := by
  obtain ⟨e, he, rfl⟩ := Option.map_eq_some_iff.mp hfind
  have hkey : e.1 = key := by simpa using List.find?_some he
  exact hkey ▸ h e (List.mem_of_find?_eq_some he)

/-- **A lookup in a coherent cache answers what would be loaded.** -/
theorem Coherent.fst_getOrLoad (h : Coherent load cache) :
    (getOrLoad size load key cache).1 = load key := by
  unfold getOrLoad
  cases hfind : find cache key with
  | some value => exact (h.of_find hfind).symm
  | none => cases load key <;> rfl

/-- A lookup leaves a coherent cache coherent. -/
theorem Coherent.snd_getOrLoad (h : Coherent load cache) :
    Coherent load (getOrLoad size load key cache).2 := by
  unfold getOrLoad
  cases hfind : find cache key with
  | some value => exact h.use (h.of_find hfind)
  | none =>
    dsimp only
    cases hload : load key with
    | none => exact h
    | some value => exact h.add hload

theorem Coherent.lookups (h : Coherent load cache) (keys : List κ) :
    Coherent load (lookups size load keys cache) := by
  induction keys generalizing cache with
  | nil => exact h
  | cons key keys ih => exact ih h.snd_getOrLoad

/-- **Store and cache are written together**: what the cache held for the key
goes. -/
theorem Coherent.write (h : Coherent load cache) (key : κ) (value : α) :
    Coherent (Function.update load key (some value)) (Lru.add size key value cache) := by
  intro e he
  rcases List.mem_cons.mp (List.mem_of_mem_take he) with rfl | he
  · exact Function.update_self ..
  · obtain ⟨hmem, hne⟩ := List.mem_filter.mp he
    rw [Function.update_of_ne (of_decide_eq_true hne)]
    exact h e hmem

end Coherence

/-! ## Computations that look things up -/

/-- **A computation sees the store**: from a coherent cache it comes to a
result, and leaves the cache that looking up some keys leaves. -/
def Sees (size : ℕ) (load : κ → Option α) (x : StateM (Cache κ α) β) (b : β) (keys : List κ) :
    Prop :=
  ∀ cache, Coherent load cache → x cache = (b, lookups size load keys cache)

section Sees

variable {size : ℕ} {load : κ → Option α}

theorem Sees.pure (b : β) : Sees size load (pure b) b [] := fun _ _ => rfl

theorem Sees.getOrLoad (key : κ) : Sees size load (getOrLoad size load key) (load key) [key] :=
  fun _ h => Prod.ext h.fst_getOrLoad rfl

variable {x : StateM (Cache κ α) β} {keys : List κ}

/-- What comes after a computation starts from its result and its lookups. -/
theorem Sees.bind_apply {b : β} (hx : Sees size load x b keys) (f : β → StateM (Cache κ α) γ)
    {cache : Cache κ α} (hcache : Coherent load cache) :
    (x >>= f) cache = f b (lookups size load keys cache) := by
  have hbind : (x >>= f) cache = f (x cache).1 (x cache).2 := rfl
  rw [hbind, hx cache hcache]

theorem lookups_append (keys keys' : List κ) (cache : Cache κ α) :
    lookups size load (keys ++ keys') cache
      = lookups size load keys' (lookups size load keys cache) :=
  List.foldl_append

/-- **One computation after the other** looks up the keys of both. -/
theorem Sees.bind {f : β → StateM (Cache κ α) γ} {b : β} {c : γ} {keys' : List κ}
    (hx : Sees size load x b keys) (hf : Sees size load (f b) c keys') :
    Sees size load (x >>= f) c (keys ++ keys') := by
  intro cache hcache
  rw [hx.bind_apply f hcache, hf _ (hcache.lookups keys), lookups_append]

theorem Sees.map {b : β} (f : β → γ) (hx : Sees size load x b keys) :
    Sees size load (f <$> x) (f b) keys := by
  intro cache hcache
  have hmap : (f <$> x) cache = (f (x cache).1, (x cache).2) := rfl
  rw [hmap, hx cache hcache]

end Sees

end Lru
