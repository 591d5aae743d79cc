import LoragonBFT.Types
import LoragonBFT.Util.Machine

/-!
# Fetching announced blocks

A peer that has a new block announces its identifier, and the node fetches the
block from that peer. `announcementLoop` decides which announcements to act
on: a peer is asked for one block at a time, and a block is asked for from
three peers at most. To know how things stand it keeps two maps, the peers
that are being asked and, for each block, from how many.

Every fetch is a goroutine of its own, and it tells the loop when it is done.
So the maps are written by two kinds of events that come in any order, and
whether they are right is a statement about all of them: after any sequence of
announcements and completions the maps say exactly which fetches are in flight
(`accounted_of_run`). A fetch is in flight from the announcement that starts it
to the completion that the loop takes.
-/

namespace LoragonBFT

/-- `rpc.announcement`, from a peer of some kind. -/
structure Announcement (π : Type) where
  newBlockID : Bytes32
  peerID : π
deriving DecidableEq

/-- The variables of `announcementLoop`, and the fetches in flight: the
goroutines whose completion the loop has not taken yet. A key a map does not
have is read as `false` and as zero. -/
structure Fetches (π : Type) where
  fetchingPeers : π → Option Bool
  fetchingBlockIDs : Bytes32 → Option ℤ
  inFlight : List (Announcement π)

/-- What the loop waits for. -/
inductive FetchEvent (π : Type) where
  /-- An announcement comes in. -/
  | announced (ann : Announcement π)
  /-- A fetch is done. -/
  | fetched (ann : Announcement π)

namespace Fetches

variable {π : Type} [DecidableEq π]

/-- `maxFetches`: fetches of one block. -/
def maxFetches : ℤ := 3

/-- The loop before the first event. -/
def init : Fetches π := ⟨fun _ => none, fun _ => none, []⟩

/-- The case of the completed fetch. -/
def onFetchDone (s : Fetches π) (ann : Announcement π) : Fetches π :=
  let n := (s.fetchingBlockIDs ann.newBlockID).getD 0 - 1
  { fetchingPeers := Function.update s.fetchingPeers ann.peerID none
    fetchingBlockIDs := Function.update s.fetchingBlockIDs ann.newBlockID
      (if n > 0 then some n else none)
    inFlight := s.inFlight.erase ann }

/-- The case of the announcement. -/
def onAnnouncement (s : Fetches π) (ann : Announcement π) : Fetches π :=
  let f := (s.fetchingPeers ann.peerID).getD false
  let n := (s.fetchingBlockIDs ann.newBlockID).getD 0
  if !f && n < maxFetches then
    { fetchingPeers := Function.update s.fetchingPeers ann.peerID (some true)
      fetchingBlockIDs := Function.update s.fetchingBlockIDs ann.newBlockID (some (n + 1))
      inFlight := ann :: s.inFlight }
  else s

/-- One round of `announcementLoop`. -/
def step (s : Fetches π) : FetchEvent π → Fetches π
  | .announced ann => s.onAnnouncement ann
  | .fetched ann => s.onFetchDone ann

/-- What can happen: any announcement, and the completion of a fetch that is
in flight. -/
def Happens (s : Fetches π) : FetchEvent π → Prop
  | .announced _ => True
  | .fetched ann => ann ∈ s.inFlight

/-- The number of fetches in flight of a block. -/
def fetches (s : Fetches π) (id : Bytes32) : ℕ :=
  s.inFlight.countP (fun ann => ann.newBlockID = id)

/-- **The maps are right**: a peer has one fetch in flight at most and a block
three, the first map has the peers with a fetch in flight, and the second one
has for each block the number of its fetches, if there are any. -/
structure Accounted (s : Fetches π) : Prop where
  peer_once : (s.inFlight.map Announcement.peerID).Nodup
  block_at_most : ∀ id, s.fetches id ≤ 3
  peers : ∀ p,
    s.fetchingPeers p = if p ∈ s.inFlight.map Announcement.peerID then some true else none
  blocks : ∀ id, s.fetchingBlockIDs id = if s.fetches id = 0 then none else some (s.fetches id : ℤ)

variable {s : Fetches π} {ann : Announcement π}

/-- The count read from the second map. -/
theorem Accounted.getD_blocks (h : s.Accounted) (id : Bytes32) :
    (s.fetchingBlockIDs id).getD 0 = s.fetches id := by
  rw [h.blocks]
  split
  next hzero => rw [hzero]; rfl
  next => rfl

/-- The flag read from the first map. -/
theorem Accounted.getD_peers (h : s.Accounted) (p : π) :
    (s.fetchingPeers p).getD false = decide (p ∈ s.inFlight.map Announcement.peerID) := by
  rw [h.peers]
  split
  next hmem => rw [decide_eq_true hmem]; rfl
  next hmem => rw [decide_eq_false hmem]; rfl

theorem accounted_init : (init : Fetches π).Accounted where
  peer_once := List.nodup_nil
  block_at_most _ := Nat.zero_le 3
  peers _ := rfl
  blocks _ := rfl

/-- **An announcement keeps the maps right**, whether it is acted on or
not. -/
theorem Accounted.onAnnouncement (h : s.Accounted) (ann : Announcement π) :
    (s.onAnnouncement ann).Accounted := by
  unfold Fetches.onAnnouncement
  rw [h.getD_peers, h.getD_blocks]
  dsimp only
  split
  next hacts =>
    obtain ⟨hnew, hroom⟩ : ann.peerID ∉ s.inFlight.map Announcement.peerID
        ∧ (s.fetches ann.newBlockID : ℤ) < maxFetches := by
      simpa using hacts
    have hroom : s.fetches ann.newBlockID < 3 := by
      unfold maxFetches at hroom
      omega
    have hcount : ∀ id, (ann :: s.inFlight).countP (fun ann => ann.newBlockID = id)
        = s.fetches id + if ann.newBlockID = id then 1 else 0 := by
      intro id
      rw [List.countP_cons]
      simp only [decide_eq_true_eq]
      rfl
    refine ⟨List.nodup_cons.mpr ⟨hnew, h.peer_once⟩, fun id => ?_, fun p => ?_, fun id => ?_⟩
    · show (ann :: s.inFlight).countP _ ≤ 3
      rw [hcount]
      split
      next heq =>
        rw [← heq]
        exact hroom
      next => exact h.block_at_most id
    · show Function.update s.fetchingPeers ann.peerID (some true) p = _
      rw [Function.update_apply, h.peers, List.map_cons]
      by_cases heq : p = ann.peerID
      · rw [if_pos heq, if_pos (heq ▸ List.mem_cons_self)]
      · rw [if_neg heq]
        simp only [List.mem_cons, heq, false_or]
    · show Function.update s.fetchingBlockIDs ann.newBlockID _ id
        = if (ann :: s.inFlight).countP _ = 0 then none else some ↑((ann :: s.inFlight).countP _)
      rw [Function.update_apply, hcount]
      by_cases heq : id = ann.newBlockID
      · rw [if_pos heq, heq, if_pos rfl, if_neg (Nat.succ_ne_zero _)]
        rfl
      · rw [if_neg heq, if_neg (Ne.symm heq), Nat.add_zero]
        exact h.blocks id
  next => exact h

/-- **A completion keeps the maps right**: the fetch was the only one of its
peer, and one of those of its block. -/
theorem Accounted.onFetchDone (h : s.Accounted) (hmem : ann ∈ s.inFlight) :
    (s.onFetchDone ann).Accounted := by
  have hperm : s.inFlight.Perm (ann :: s.inFlight.erase ann) := List.perm_cons_erase hmem
  have hpeers := hperm.map Announcement.peerID
  obtain ⟨hgone, hrest⟩ := List.nodup_cons.mp (hpeers.nodup_iff.mp h.peer_once)
  have hcount : ∀ id, s.fetches id = (s.inFlight.erase ann).countP (fun ann => ann.newBlockID = id)
      + if ann.newBlockID = id then 1 else 0 := by
    intro id
    show s.inFlight.countP _ = _
    rw [hperm.countP_eq, List.countP_cons]
    simp only [decide_eq_true_eq]
  unfold Fetches.onFetchDone
  rw [h.getD_blocks]
  dsimp only
  refine ⟨hrest, fun id => ?_, fun p => ?_, fun id => ?_⟩
  · show (s.inFlight.erase ann).countP _ ≤ 3
    have hle := h.block_at_most id
    rw [hcount] at hle
    omega
  · show Function.update s.fetchingPeers ann.peerID none p
      = if p ∈ (s.inFlight.erase ann).map Announcement.peerID then some true else none
    rw [Function.update_apply]
    by_cases heq : p = ann.peerID
    · rw [if_pos heq, if_neg (heq ▸ hgone)]
    · have hiff : p ∈ s.inFlight.map Announcement.peerID
          ↔ p ∈ (s.inFlight.erase ann).map Announcement.peerID := by
        rw [hpeers.mem_iff, List.map_cons, List.mem_cons]
        simp only [heq, false_or]
      rw [if_neg heq, h.peers]
      simp only [hiff]
  · show Function.update s.fetchingBlockIDs ann.newBlockID _ id
      = if (s.inFlight.erase ann).countP _ = 0 then none
        else some ↑((s.inFlight.erase ann).countP _)
    rw [Function.update_apply]
    by_cases heq : id = ann.newBlockID
    · have hone := hcount id
      rw [if_pos heq.symm] at hone
      rw [if_pos heq, ← heq, hone]
      generalize (s.inFlight.erase ann).countP _ = n
      rw [Nat.cast_succ, Int.add_sub_cancel]
      cases n with
      | zero => rfl
      | succ n => rw [if_pos (Int.natCast_pos.mpr n.succ_pos), if_neg n.succ_ne_zero]
    · have hsame := hcount id
      rw [if_neg (Ne.symm heq), Nat.add_zero] at hsame
      rw [if_neg heq, ← hsame]
      exact h.blocks id

end Fetches

/-- **After any sequence of announcements and completions the maps say which
fetches are in flight**, and these are as few as they should be. -/
theorem accounted_of_run {π : Type} [DecidableEq π] {s : Fetches π}
    (hrun : Machine.Run Fetches.step Fetches.Happens Fetches.init s) : s.Accounted := by
  refine hrun.invariant Fetches.accounted_init fun s event hhappens h => ?_
  cases event with
  | announced ann => exact h.onAnnouncement ann
  | fetched ann => exact h.onFetchDone hhappens

/-- Two peers announce a block, the first one announces it again, and the
first fetch is done. -/
theorem accounted_of_two_peers :
    let a₁ : Announcement ℕ := ⟨7, 1⟩
    let a₂ : Announcement ℕ := ⟨7, 2⟩
    let s := Machine.play Fetches.step Fetches.init
      [.announced a₁, .announced a₂, .announced a₁, .fetched a₁]
    s.inFlight = [a₂] ∧ s.fetchingBlockIDs 7 = some 1 ∧ s.Accounted := by
  refine ⟨rfl, rfl, accounted_of_run (Machine.Run.of_plays _ ?_)⟩
  refine ⟨trivial, trivial, trivial, ?_, trivial⟩
  exact List.mem_cons_of_mem _ List.mem_cons_self

end LoragonBFT
