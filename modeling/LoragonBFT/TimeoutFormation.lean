import Mathlib.Data.List.Induction
import Mathlib.Data.List.Perm.Basic
import LoragonBFT.QuorumFormation

/-!
# What timeout votes make

A timeout vote says which hash it signs. `AddTCVote` verifies the signature
on that hash and never looks at the hash itself, while votes are counted by
epoch and round, whatever they sign. A quorum of them seals the round and is
made into a certificate that takes the hash of the vote read last. The reader
of the certificate, `verifyTC`, insists on the hash that
`BuildTimeoutVotingHash` gives and verifies the aggregate on it.

So a certificate is of use exactly if every vote it is made of signs that
hash. One member who signs something else among the first two thirds spoils
the certificate of the round, whichever vote happens to be read last, and the
round is sealed: no other certificate is made for it.
-/

namespace LoragonBFT

/-- What is assumed of the keys of a committee, for signatures on different
messages: if every signature of a list verifies on its own message under the
key it comes with, the aggregate of the list does not verify under these keys
on a message that is not the message of all of them. -/
def Bls.Separates (B : Bls) (members : List Bytes) : Prop :=
  ∀ (votes : List (Bytes × Bytes × Bytes32)) (keys : List Bytes) (msg : Bytes32),
    keys.Sublist members → keys.Perm (votes.map Prod.fst) →
    (∀ v ∈ votes, B.validSignature v.2.1 = true ∧ B.verify v.1 v.2.2 v.2.1 = true) →
    B.fastAggregateVerify keys msg (B.aggregateSignatures (votes.map (fun v => v.2.1))) = true →
    ∀ v ∈ votes, v.2.2 = msg

/-! ## The calls -/

/-- The arguments of a call of `AddTCVote`. -/
structure TCVote where
  signerIndex : UInt32
  round : UInt32
  sig : Bytes
  hash : Bytes32
deriving DecidableEq, Repr

/-- Whether a vote verifies, on the hash it brings along. -/
def TCVote.isValid (B : Bls) (es : EpochState) (w : TCVote) : Bool :=
  match es.verifyVote B w.signerIndex w.hash w.sig with
  | .ok valid => valid
  | .error _ => false

/-- A sequence of calls of `AddTCVote`, with what each returns and the epoch
state they leave behind. -/
def EpochState.addTCVotes (B : Bls) (es : EpochState) :
    List TCVote → Except Panic (List (Option TimeoutCert) × EpochState)
  | [] => .ok ([], es)
  | w :: ws => do
    let (tc, es) ← es.addTCVote B w.signerIndex w.round w.sig w.hash
    let (tcs, es) ← es.addTCVotes B ws
    return (tc :: tcs, es)

/-- The last valid vote of each signer in a round. -/
def latestVotes (B : Bls) (es : EpochState) (round : UInt32) (received : List TCVote) : VoteMap :=
  received.foldl (fun votes w =>
    if w.round = round ∧ w.isValid B es = true then votes.set w.signerIndex w.sig w.hash
    else votes) []

/-- Whether two thirds of the committee voted for a round. -/
def timedOut (B : Bls) (es : EpochState) (round : UInt32) (received : List TCVote) : Bool :=
  majorityTwoThird (UInt32.ofNat (latestVotes B es round received).length) es.committeeSize

/-- A vote that completes the quorum of its round. -/
def TCVote.Completes (B : Bls) (es : EpochState) (received : List TCVote) (w : TCVote) : Prop :=
  timedOut B es w.round received = false ∧ timedOut B es w.round (received ++ [w]) = true

variable {round : UInt32}

section Latest

variable {B : Bls} {es : EpochState} {received : List TCVote} {w : TCVote}

theorem TCVote.isValid_iff :
    w.isValid B es = true ↔ es.verifyVote B w.signerIndex w.hash w.sig = .ok true := by
  unfold isValid
  cases es.verifyVote B w.signerIndex w.hash w.sig <;> simp

theorem latestVotes_append (round : UInt32) :
    latestVotes B es round (received ++ [w])
      = if w.round = round ∧ w.isValid B es = true then
          (latestVotes B es round received).set w.signerIndex w.sig w.hash
        else latestVotes B es round received := by
  unfold latestVotes
  rw [List.foldl_append]
  rfl

variable (B es) in
theorem latestVotes_checked (round : UInt32) (received : List TCVote) :
    VoteMap.Checked B es.committee (latestVotes B es round received) := by
  induction received using List.reverseRecOn with
  | nil => exact .nil
  | append_singleton received w ih =>
    rw [latestVotes_append]
    split
    · rename_i hw
      exact ih.set rfl (TCVote.isValid_iff.mp hw.2)
    · exact ih

theorem VoteMap.length_le_length_set {votes : VoteMap} (hnodup : (votes.map Prod.fst).Nodup)
    (index : UInt32) (sig : Bytes) (hash : Bytes32) :
    votes.length ≤ (votes.set index sig hash).length := by
  rw [← @List.length_map _ _ votes Prod.fst]
  refine length_le_of_voters hnodup fun i hi => ?_
  obtain ⟨v, hv, rfl⟩ := List.mem_map.mp hi
  exact exists_mem_set hv index sig hash

/-- **A round that has timed out stays so.** -/
theorem timedOut_append (hn : es.committee.size < 2 ^ 32)
    (h : timedOut B es round received = true) : timedOut B es round (received ++ [w]) = true := by
  have hle : (latestVotes B es round received).length
      ≤ (latestVotes B es round (received ++ [w])).length := by
    rw [latestVotes_append]
    split
    · exact VoteMap.length_le_length_set (latestVotes_checked B es round received).nodup _ _ _
    · exact le_rfl
  have hsmall := (latestVotes_checked B es round (received ++ [w])).length_le hn
  unfold timedOut at h ⊢
  rw [majorityTwoThird_iff, UInt32.toNat_ofNat_of_lt' (lt_of_le_of_lt (hle.trans hsmall) hn)] at h
  rw [majorityTwoThird_iff, UInt32.toNat_ofNat_of_lt' (lt_of_le_of_lt hsmall hn)]
  exact ⟨h.1, by omega⟩

/-- What does not vote for a round does not change its votes. -/
theorem latestVotes_of_not (h : ¬ (w.round = round ∧ w.isValid B es = true)) :
    latestVotes B es round (received ++ [w]) = latestVotes B es round received := by
  rw [latestVotes_append, if_neg h]

theorem latestVotes_of_valid (h : w.isValid B es = true) :
    latestVotes B es w.round (received ++ [w])
      = (latestVotes B es w.round received).set w.signerIndex w.sig w.hash := by
  rw [latestVotes_append, if_pos ⟨rfl, h⟩]

end Latest

/-! ## The reader of a certificate -/

section Reader

variable {B : Bls} {committee : ValidatorSet} {votes : VoteMap}

/-- `verifyTC` collects the keys of the members whose bit is set, if they
parse. -/
theorem timeoutKeys_eq {bA : BitArray} (hwords : bA.size ≤ 64 * bA.elems.length) (index : ℕ)
    (vs : List Validator)
    (hvalid : ∀ v ∈ vs.zipIdx index, bA.bit v.2 = true →
      B.validPublicKey v.1.pubKey.bytes = true) :
    timeoutKeys B bA index vs
      = .ok (((vs.zipIdx index).filter (fun v => bA.bit v.2)).map (fun v => v.1.pubKey.bytes)) := by
  induction vs generalizing index with
  | nil => rfl
  | cons v vs ih =>
    rw [List.zipIdx_cons] at hvalid ⊢
    have hrest := ih (index + 1) fun w hw => hvalid w (List.mem_cons_of_mem _ hw)
    unfold timeoutKeys
    rw [List.filter_cons, BitArray.getIndex_eq_ok hwords, hrest]
    cases hbit : bA.bit index with
    | false =>
      by_cases hkey : B.validPublicKey v.pubKey.bytes = true
      · rw [if_pos hkey]
        rfl
      · rw [if_neg hkey]
        rfl
    | true =>
      rw [if_pos (hvalid (v, index) List.mem_cons_self hbit)]
      rfl

/-- **The aggregate verifies on no hash but the one all votes sign.** -/
theorem VoteMap.Checked.hash_eq_of_verifies (h : Checked B committee votes)
    (hkeys : B.Separates committee.keys) {bA : BitArray} (hsize : bA.size = committee.size)
    (hperm : ((List.range bA.size).filter bA.bit).Perm (votes.map (fun v => v.1.toNat)))
    {hash : Bytes32}
    (hverify : B.fastAggregateVerify ((signers committee bA).map (fun v => v.1.pubKey.bytes)) hash
      (B.aggregateSignatures (votes.map (fun v => v.2.1))) = true) :
    ∀ v ∈ votes, v.2.2 = hash := by
  set triples : List (Bytes × Bytes × Bytes32) :=
    votes.map (fun v => (committee.keyAt v.1.toNat, v.2)) with htriples
  have hsigs : votes.map (fun v => v.2.1) = triples.map (fun v => v.2.1) := by
    rw [htriples, List.map_map]
    rfl
  have hfst : votes.map (fun v => committee.keyAt v.1.toNat) = triples.map Prod.fst := by
    rw [htriples, List.map_map]
    rfl
  rw [hsigs] at hverify
  intro v hv
  refine hkeys triples _ hash (sublist_keys_signers committee bA)
    (hfst ▸ perm_keys hsize hperm) ?_ hverify
    (committee.keyAt v.1.toNat, v.2) (List.mem_map.mpr ⟨v, hv, rfl⟩)
  intro triple htriple
  obtain ⟨v', hv', rfl⟩ := List.mem_map.mp htriple
  exact h.verify_keyAt hv'

/-- **A certificate made of a quorum of checked votes is of use if all of
them sign the hash of the epoch and the round**, and only then if the keys
separate messages. -/
theorem TCVoteManager.verifyTC_aggregate {E : Env} (hB : E.B.Aggregates) {p : Pacemaker}
    (hn : p.epochState.committee.size < 2 ^ 32) {m : TCVoteManager}
    (hsize : m.committeeSize = p.epochState.committeeSize)
    (hvotes : m.votes (p.epochState.epoch, round) = votes)
    (hchecked : VoteMap.Checked E.B p.epochState.committee votes)
    (hmajority : majorityTwoThird (UInt32.ofNat votes.length) p.epochState.committeeSize = true) :
    ∃ tc, m.aggregate E.B p.epochState.epoch round = .ok tc
      ∧ ((∀ v ∈ votes, v.2.2 = buildTimeoutVotingHash E.H p.epochState.epoch round) →
        p.verifyTC E (some tc) tc.round = .ok true)
      ∧ (E.B.Separates p.epochState.committee.keys →
        p.verifyTC E (some tc) tc.round = .ok true →
        ∀ v ∈ votes, v.2.2 = buildTimeoutVotingHash E.H p.epochState.epoch round) := by
  obtain ⟨bA, hbits, hsizeA, hwords, hset, hperm⟩ := hchecked.bitArray hn
  have hcount : bA.count = .ok votes.length := by
    rw [BitArray.count_eq_ok hwords, hperm.length_eq, List.length_map]
  have hne : votes ≠ [] := by
    rintro rfl
    rw [majorityTwoThird_iff] at hmajority
    have hpos := hmajority.1
    have hmany : 2 * p.epochState.committeeSize.toNat ≤ 0 := hmajority.2
    omega
  have hkeys := timeoutKeys_eq (B := E.B) hwords 0 p.epochState.committee.validators
    fun v hv hbit => by
      obtain ⟨v', hv', hj⟩ := (hset v.2).mp hbit
      obtain ⟨val, hval, -, hkey, -⟩ := hchecked.verified v' hv'
      rw [hj, List.mk_mem_zipIdx_iff_getElem?.mp hv] at hval
      exact Option.some.inj hval ▸ hkey
  set hash := buildTimeoutVotingHash E.H p.epochState.epoch round with hhash
  set agg := E.B.aggregateSignatures (votes.map (fun v => v.2.1)) with hagg
  set taken := (votes.getLast?.map (fun v => v.2.2)).getD 0 with htaken
  refine ⟨⟨p.epochState.epoch, round, some bA, taken, agg⟩, ?_, ?_⟩
  · unfold TCVoteManager.aggregate
    dsimp only
    rw [hvotes, hsize, EpochState.committeeSize, hbits]
    rfl
  -- the hash that is taken is one of the votes'
  have hmem : ∃ v ∈ votes, v.2.2 = taken := by
    obtain ⟨v, hv⟩ := List.getLast?_isSome.mpr hne |> Option.isSome_iff_exists.mp
    exact ⟨v, List.mem_of_getLast? hv, by rw [htaken, hv]; rfl⟩
  have hverifyTC : p.verifyTC E (some ⟨p.epochState.epoch, round, some bA, taken, agg⟩) round
      = .ok (decide (taken = hash) && (E.B.validSignature agg && E.B.fastAggregateVerify
        ((signers p.epochState.committee bA).map (fun v => v.1.pubKey.bytes)) taken agg)) := by
    unfold Pacemaker.verifyTC
    dsimp only
    rw [if_neg (by simp), ← hhash]
    by_cases htake : taken = hash
    · rw [if_neg (not_not.mpr htake), decide_eq_true htake]
      simp only [deref, bind, Except.bind, hcount, hmajority, hkeys]
      rfl
    · rw [if_pos htake, decide_eq_false htake]
      rfl
  show (_ → p.verifyTC E _ round = _) ∧ (_ → p.verifyTC E _ round = _ → _)
  rw [hverifyTC]
  constructor
  · intro hall
    obtain ⟨v, hv, htake⟩ := hmem
    have htakenEq : taken = hash := htake ▸ hall v hv
    obtain ⟨hvalid, hverify⟩ := hchecked.verifies hB hsizeA hperm hne hall _ (.refl _)
    rw [htakenEq, hvalid, hverify, decide_eq_true rfl]
    rfl
  · intro hkeys' htrue
    obtain ⟨htake, hrest⟩ := Bool.and_eq_true_iff.mp (Except.ok.inj htrue)
    have htakenEq : taken = hash := of_decide_eq_true htake
    exact htakenEq ▸
      hchecked.hash_eq_of_verifies hkeys' hsizeA hperm (Bool.and_eq_true_iff.mp hrest).2

end Reader

/-! ## Counting timeout votes -/

/-- What a manager that started without votes holds after some calls: a round
is sealed if it has timed out, and until then its votes are the last valid
ones of each signer. -/
structure TCVoteManager.Holds (B : Bls) (es : EpochState) (received : List TCVote)
    (m : TCVoteManager) : Prop where
  size_eq : m.committeeSize = es.committeeSize
  sealed_eq : ∀ round, m.sealed (es.epoch, round) = timedOut B es round received
  votes_eq : ∀ round, timedOut B es round received = false →
    m.votes (es.epoch, round) = latestVotes B es round received

namespace TCVoteManager

variable {B : Bls} {es : EpochState} {received : List TCVote} {m : TCVoteManager} {w : TCVote}

/-- Without votes no round has timed out. -/
theorem Holds.new (B : Bls) (es : EpochState) : (TCVoteManager.new es.committeeSize).Holds B es []
    where
  size_eq := rfl
  sealed_eq round := by
    show false = timedOut B es round []
    rw [timedOut, eq_comm, Bool.eq_false_iff]
    intro h
    rw [majorityTwoThird_iff] at h
    have hpos := h.1
    have hmany : 2 * es.committeeSize.toNat ≤ 0 := h.2
    omega
  votes_eq _ _ := rfl

/-- A call that notes nothing. -/
theorem Holds.skip (h : m.Holds B es received) (hn : es.committee.size < 2 ^ 32)
    (hskip : w.isValid B es = true → timedOut B es w.round received = true) :
    m.Holds B es (received ++ [w]) := by
  have hsame : ∀ round, timedOut B es round (received ++ [w]) = timedOut B es round received := by
    intro round
    by_cases hw : w.round = round ∧ w.isValid B es = true
    · rw [hw.1] at hskip
      rw [hskip hw.2, timedOut_append hn (hskip hw.2)]
    · rw [timedOut, latestVotes_of_not hw]
      rfl
  refine ⟨h.size_eq, fun round => (h.sealed_eq round).trans (hsame round).symm,
    fun round hopen => ?_⟩
  rw [hsame] at hopen
  rw [h.votes_eq round hopen, latestVotes_of_not]
  rintro ⟨hround, hvalid⟩
  rw [← hround, hskip hvalid] at hopen
  exact nomatch hopen

/-- A call that notes a valid vote, and seals the round if that completes the
quorum. -/
theorem Holds.note (h : m.Holds B es received) {m' : TCVoteManager}
    (hsize : m'.committeeSize = es.committeeSize)
    (hvotes : m'.votes = Function.update m.votes (es.epoch, w.round)
      (latestVotes B es w.round (received ++ [w])))
    (hsealed : m'.sealed (es.epoch, w.round) = timedOut B es w.round (received ++ [w]))
    (hother : ∀ key, key ≠ (es.epoch, w.round) → m'.sealed key = m.sealed key) :
    m'.Holds B es (received ++ [w]) := by
  have hsame : ∀ round, round ≠ w.round →
      latestVotes B es round (received ++ [w]) = latestVotes B es round received := fun round hne =>
    latestVotes_of_not fun hw => hne hw.1.symm
  have hkey : ∀ round, round ≠ w.round → (es.epoch, round) ≠ (es.epoch, w.round) :=
    fun round hne heq => hne (Prod.mk.inj heq).2
  refine ⟨hsize, fun round => ?_, fun round hopen => ?_⟩
  · by_cases hround : round = w.round
    · rw [hround, hsealed]
    · rw [hother _ (hkey round hround), h.sealed_eq round, timedOut, timedOut, hsame round hround]
  · by_cases hround : round = w.round
    · rw [hround, hvotes, Function.update_self]
    · rw [timedOut, hsame round hround] at hopen
      rw [hvotes, Function.update_of_ne (hkey round hround), hsame round hround,
        h.votes_eq round hopen]

end TCVoteManager

namespace Pacemaker

variable {E : Env} {p : Pacemaker} {received : List TCVote}

/-- Whether the last valid votes of a round all sign the hash that
`verifyTC` asks for. -/
def SignsRound (E : Env) (p : Pacemaker) (round : UInt32) (received : List TCVote) : Prop :=
  ∀ v ∈ latestVotes E.B p.epochState round received,
    v.2.2 = buildTimeoutVotingHash E.H p.epochState.epoch round

/-- A certificate is of use if the last valid votes of its round sign the hash
of the round, and only then if the keys of the committee separate messages. -/
structure Judges (E : Env) (p : Pacemaker) (tc : TimeoutCert) (round : UInt32)
    (received : List TCVote) : Prop where
  accepts : p.SignsRound E round received → p.verifyTC E (some tc) tc.round = .ok true
  rejects : E.B.Separates p.epochState.committee.keys →
    p.verifyTC E (some tc) tc.round = .ok true → p.SignsRound E round received

/-- A certificate is read under an epoch and a committee. -/
theorem verifyTC_congr {q : Pacemaker} (hepoch : q.epochState.epoch = p.epochState.epoch)
    (hcommittee : q.epochState.committee = p.epochState.committee) (tc : Option TimeoutCert)
    (round : UInt32) : q.verifyTC E tc round = p.verifyTC E tc round := by
  unfold verifyTC EpochState.committeeSize
  rw [hepoch, hcommittee]

/-- **`AddVote` with a valid timeout vote** returns a certificate if it
completes the quorum of its round, and the certificate is of use if the votes
of the round sign its hash. -/
theorem addVote_holds (hB : E.B.Aggregates) (hn : p.epochState.committee.size < 2 ^ 32)
    {m : TCVoteManager} (h : m.Holds E.B p.epochState received) {w : TCVote}
    (hvalid : w.isValid E.B p.epochState = true) :
    ∃ tc m', m.addVote E.B w.signerIndex p.epochState.epoch w.round w.sig w.hash = .ok (tc, m')
      ∧ m'.Holds E.B p.epochState (received ++ [w])
      ∧ (w.Completes E.B p.epochState received ↔ tc.isSome)
      ∧ ∀ t, tc = some t → p.Judges E t w.round (received ++ [w]) := by
  have hsig := EpochState.validSignature_of_verifyVote (TCVote.isValid_iff.mp hvalid)
  unfold TCVoteManager.addVote
  rw [h.sealed_eq]
  by_cases hsealed : timedOut E.B p.epochState w.round received = true
  · rw [if_pos hsealed]
    refine ⟨none, m, rfl, h.skip hn fun _ => hsealed, ?_, fun _ ht => nomatch ht⟩
    simp [TCVote.Completes, hsealed]
  have hopen : timedOut E.B p.epochState w.round received = false := Bool.eq_false_iff.mpr hsealed
  rw [if_neg hsealed, hsig, if_neg (by decide), h.votes_eq w.round hopen,
    ← latestVotes_of_valid hvalid, h.size_eq]
  set votes := latestVotes E.B p.epochState w.round (received ++ [w]) with hvotes
  have hchecked : VoteMap.Checked E.B p.epochState.committee votes :=
    latestVotes_checked E.B p.epochState _ _
  have hcomplete : w.Completes E.B p.epochState received
      ↔ majorityTwoThird (UInt32.ofNat votes.length) p.epochState.committeeSize = true :=
    ⟨And.right, fun hmajority => ⟨hopen, hmajority⟩⟩
  by_cases hmajority :
      majorityTwoThird (UInt32.ofNat votes.length) p.epochState.committeeSize = true
  · set closed : TCVoteManager :=
      { votes := Function.update m.votes (p.epochState.epoch, w.round) votes
        sealed := Function.update m.sealed (p.epochState.epoch, w.round) true
        committeeSize := p.epochState.committeeSize }
    obtain ⟨tc, htc, hverify⟩ := TCVoteManager.verifyTC_aggregate hB hn (m := closed) rfl
      (Function.update_self (p.epochState.epoch, w.round) votes m.votes) hchecked hmajority
    refine ⟨some tc, closed, ?_, h.note rfl rfl ?_ fun key hkey => ?_, ?_, fun t ht => ?_⟩
    · rw [if_pos hmajority]
      show (do return (some (← closed.aggregate E.B p.epochState.epoch w.round), closed)) = _
      rw [htc]
      rfl
    · rw [timedOut, ← hvotes, hmajority]
      exact Function.update_self _ _ _
    · exact Function.update_of_ne hkey _ _
    · rw [hcomplete]
      simp [hmajority]
    · exact Option.some.inj ht ▸ ⟨hverify.1, hverify.2⟩
  · rw [if_neg hmajority]
    refine ⟨none, _, rfl, h.note rfl rfl ?_ fun _ _ => rfl, ?_, fun _ ht => nomatch ht⟩
    · show m.sealed _ = _
      rw [h.sealed_eq, hopen, timedOut, ← hvotes]
      exact (Bool.eq_false_iff.mpr hmajority).symm
    · rw [hcomplete]
      simp [hmajority]

/-- **One call.** -/
theorem addTCVote_holds (hB : E.B.Aggregates) (hn : p.epochState.committee.size < 2 ^ 32)
    {cur : EpochState} (hcommittee : cur.committee = p.epochState.committee)
    (hepoch : cur.epoch = p.epochState.epoch)
    (h : cur.tcVoteManager.Holds E.B p.epochState received) {w : TCVote}
    (hindex : w.signerIndex.toNat < p.epochState.committee.size) :
    ∃ tc next, cur.addTCVote E.B w.signerIndex w.round w.sig w.hash = .ok (tc, next)
      ∧ next.committee = p.epochState.committee ∧ next.epoch = p.epochState.epoch
      ∧ next.tcVoteManager.Holds E.B p.epochState (received ++ [w])
      ∧ (w.Completes E.B p.epochState received ↔ tc.isSome)
      ∧ ∀ t, tc = some t → p.Judges E t w.round (received ++ [w]) := by
  obtain ⟨valid, hverify⟩ :=
    EpochState.exists_verifyVote E.B p.epochState hindex w.hash w.sig
  unfold EpochState.addTCVote
  rw [EpochState.verifyVote_congr hcommittee, hverify, hepoch]
  cases valid with
  | false =>
    have hinvalid : w.isValid E.B p.epochState ≠ true := by
      rw [ne_eq, TCVote.isValid_iff, hverify]
      exact fun heq => nomatch heq
    refine ⟨none, cur, rfl, hcommittee, hepoch, h.skip hn fun hw => absurd hw hinvalid, ?_,
      fun _ ht => nomatch ht⟩
    rw [TCVote.Completes, timedOut, timedOut, latestVotes_of_not fun hw => hinvalid hw.2]
    simp
  | true =>
    obtain ⟨tc, m, hadd, hholds, hrest⟩ := addVote_holds hB hn h (TCVote.isValid_iff.mpr hverify)
    refine ⟨tc, { cur with tcVoteManager := m }, ?_, hcommittee, hepoch, hholds, hrest⟩
    simp only [bind, Except.bind, if_true, hadd]
    rw [hepoch]
    rfl

/-- **A sequence of calls**: exactly the votes that complete a quorum return a
certificate, and it is of use if the votes of the round sign its hash. -/
theorem addTCVotes_holds (hB : E.B.Aggregates) (hn : p.epochState.committee.size < 2 ^ 32)
    (calls : List TCVote) (hindex : ∀ w ∈ calls, w.signerIndex.toNat < p.epochState.committee.size)
    {cur : EpochState} (hcommittee : cur.committee = p.epochState.committee)
    (hepoch : cur.epoch = p.epochState.epoch)
    (h : cur.tcVoteManager.Holds E.B p.epochState received) :
    ∃ tcs last, cur.addTCVotes E.B calls = .ok (tcs, last)
      ∧ last.committee = p.epochState.committee ∧ last.epoch = p.epochState.epoch
      ∧ tcs.length = calls.length
      ∧ ∀ n w tc, calls[n]? = some w → tcs[n]? = some tc →
        (w.Completes E.B p.epochState (received ++ calls.take n) ↔ tc.isSome)
        ∧ ∀ t, tc = some t → p.Judges E t w.round (received ++ calls.take n ++ [w]) := by
  induction calls generalizing cur received with
  | nil => exact ⟨[], cur, rfl, hcommittee, hepoch, rfl, fun n w tc hw => nomatch hw⟩
  | cons w ws ih =>
    obtain ⟨first, next, hcall, hcommittee', hepoch', hholds, hfirst⟩ :=
      addTCVote_holds hB hn hcommittee hepoch h (hindex w List.mem_cons_self)
    obtain ⟨tcs, last, hcalls, hcommittee'', hepoch'', hlength, hrest⟩ :=
      ih (fun w' hw' => hindex w' (List.mem_cons_of_mem _ hw')) hcommittee' hepoch' hholds
    refine ⟨first :: tcs, last, ?_, hcommittee'', hepoch'', by simp [hlength], ?_⟩
    · unfold EpochState.addTCVotes
      rw [hcall]
      show (do let (tcs, es) ← next.addTCVotes E.B ws; return (first :: tcs, es)) = _
      rw [hcalls]
      rfl
    intro n w' tc hw' htc
    cases n with
    | zero =>
      obtain rfl := Option.some.inj hw'
      obtain rfl := Option.some.inj htc
      simpa using hfirst
    | succ n =>
      have hn' := hrest n w' tc hw' htc
      rwa [List.append_assoc received, List.singleton_append] at hn'

/-- **Exactly when every timeout certificate that is formed is of use.** On a
fresh epoch state no sequence of calls of `AddTCVote` faults, and `verifyTC`
accepts each certificate that is returned if, whenever a vote completes the
quorum of its round, the last valid votes of the round all sign the hash of
the epoch and the round. If the keys of the committee separate messages, it is
only then that it does. -/
theorem formed_usable_iff (hB : E.B.Aggregates)
    (hn : p.epochState.committee.size < 2 ^ 32)
    (hfresh : p.epochState.tcVoteManager = .new p.epochState.committeeSize) (calls : List TCVote)
    (hindex : ∀ w ∈ calls, w.signerIndex.toNat < p.epochState.committee.size) :
    ∃ tcs last, p.epochState.addTCVotes E.B calls = .ok (tcs, last)
      ∧ ((∀ n w, calls[n]? = some w → w.Completes E.B p.epochState (calls.take n) →
          p.SignsRound E w.round (calls.take n ++ [w])) →
        ∀ (n : ℕ) (tc : TimeoutCert), tcs[n]? = some (some tc) →
          { p with epochState := last }.verifyTC E (some tc) tc.round = .ok true)
      ∧ (E.B.Separates p.epochState.committee.keys →
        (∀ (n : ℕ) (tc : TimeoutCert), tcs[n]? = some (some tc) →
          { p with epochState := last }.verifyTC E (some tc) tc.round = .ok true) →
        ∀ n w, calls[n]? = some w → w.Completes E.B p.epochState (calls.take n) →
          p.SignsRound E w.round (calls.take n ++ [w])) := by
  obtain ⟨tcs, last, hcalls, hcommittee, hepoch, hlength, hformed⟩ :=
    addTCVotes_holds hB hn calls hindex rfl rfl
      (hfresh ▸ TCVoteManager.Holds.new E.B p.epochState)
  refine ⟨tcs, last, hcalls, ?_⟩
  have hread : ∀ tc round, { p with epochState := last }.verifyTC E tc round
      = p.verifyTC E tc round := fun tc round => verifyTC_congr hepoch hcommittee tc round
  constructor
  · intro hsigns n tc htc
    have hlt : n < calls.length := hlength ▸ (List.getElem?_eq_some_iff.mp htc).1
    obtain ⟨hiff, hjudges⟩ := hformed n _ _ (List.getElem?_eq_getElem hlt) htc
    rw [hread]
    exact (hjudges tc rfl).accepts (hsigns n _ (List.getElem?_eq_getElem hlt) (hiff.mpr rfl))
  · intro hkeys husable n w hw hcompletes
    have hlt : n < tcs.length := hlength ▸ (List.getElem?_eq_some_iff.mp hw).1
    obtain ⟨hiff, hjudges⟩ := hformed n w _ hw (List.getElem?_eq_getElem hlt)
    obtain ⟨tc, htc⟩ := Option.isSome_iff_exists.mp (hiff.mp hcompletes)
    refine (hjudges tc htc).rejects hkeys ?_
    rw [← hread]
    exact husable n tc (by rw [List.getElem?_eq_getElem hlt, htc])

end Pacemaker

/-! ## A spoiled certificate -/

namespace Testnet

theorem additive_separates (members : List Bytes) : additive.Separates members := by
  intro votes keys msg _ hperm hverify hagg v hv
  have hsig : ∀ v ∈ votes, v.2.1 = Bytes32.bytes v.2.2 ++ v.1 := fun v hv => by
    simpa [additive] using (hverify v hv).2
  have htake : ∀ v ∈ votes, v.2.1.take 32 = Bytes32.bytes v.2.2 := fun v hv => by
    rw [hsig v hv, List.take_left' (length_bytes _)]
  set head := ((votes.map (fun v => v.2.1)).headD []).take 32 with hhead
  have hagg' : additive.aggregateSignatures (votes.map (fun v => v.2.1))
      = Bytes32.bytes msg ++ Rlp.beBytes 8 (keys.map Rlp.beValue).sum := by
    simpa [additive] using (Bool.and_eq_true_iff.mp hagg).2
  unfold additive at hagg'
  dsimp only at hagg'
  rw [← hhead] at hagg'
  split at hagg'
  · rename_i hall
    -- all signatures start like the first, and that is how the aggregate starts
    have hstart := (List.append_inj' hagg' (by simp)).1
    have hv' := List.all_eq_true.mp hall v.2.1 (List.mem_map.mpr ⟨v, hv, rfl⟩)
    rw [beq_iff_eq, htake v hv, hstart] at hv'
    exact Bytes32.bytes_injective hv'
  · have hlength := congrArg List.length hagg'
    rw [List.length_append, length_bytes] at hlength
    simp at hlength

/-- The libraries of the test network, with the additive scheme. -/
def additiveEnv : Env := { env with B := additive }

/-- Timeout votes of the four members in round 1. The third signs a number of
its own instead of the hash of the round. -/
def mixedTimeouts : List TCVote :=
  let hash := buildTimeoutVotingHash hashes 1 1
  [⟨0, 1, additive.sign [0] hash, hash⟩, ⟨1, 1, additive.sign [1] hash, hash⟩,
    ⟨2, 1, additive.sign [2] 5, 5⟩, ⟨3, 1, additive.sign [3] hash, hash⟩]

/-- The third vote returns the one certificate, and it does not verify. -/
def rejectsMixed (p : Pacemaker) : Bool :=
  match epochState.addTCVotes additive mixedTimeouts with
  | .ok ([none, none, some tc, none], last) =>
    match Pacemaker.verifyTC additiveEnv { p with epochState := last } (some tc) tc.round with
    | .ok valid => !valid
    | .error _ => false
  | _ => false

/-- **One member spoils the certificate of a round.** All four votes pass the
signature check, the third completes the quorum, `verifyTC` rejects the
certificate it makes, and the fourth vote comes to a sealed round. -/
theorem timeout_certificate_spoiled :
    additive.Aggregates ∧ additive.Separates committee.keys
      ∧ epochState.tcVoteManager = .new epochState.committeeSize
      ∧ (∀ w ∈ mixedTimeouts, w.signerIndex.toNat < epochState.committee.size
        ∧ epochState.verifyVote additive w.signerIndex w.hash w.sig = .ok true)
      ∧ ∃ (p : Pacemaker) (tc : TimeoutCert) (last : EpochState), p.epochState = epochState
        ∧ epochState.addTCVotes additive mixedTimeouts = .ok ([none, none, some tc, none], last)
        ∧ { p with epochState := last }.verifyTC additiveEnv (some tc) tc.round = .ok false := by
  refine ⟨additive_aggregates, additive_separates _, rfl, by decide +kernel, ?_⟩
  obtain ⟨p, -, htest⟩ := exists_of_start (k := 1) rejectsMixed (by decide +kernel)
  unfold rejectsMixed at htest
  split at htest
  · rename_i tc last hcalls
    refine ⟨{ p with epochState := epochState }, tc, last, rfl, hcalls, ?_⟩
    split at htest
    · rename_i valid hverify
      rw [Bool.not_eq_true'] at htest
      exact htest ▸ hverify
    · exact nomatch htest
  · exact nomatch htest

/-- Timeout votes of three members who sign the hash of the round. -/
def plainTimeouts : List TCVote :=
  let hash := buildTimeoutVotingHash hashes 1 1
  [⟨0, 1, additive.sign [0] hash, hash⟩, ⟨3, 1, additive.sign [3] hash, hash⟩,
    ⟨1, 1, additive.sign [1] hash, hash⟩]

/-- The third of them makes a certificate, and it is of use. -/
theorem usable_of_plainTimeouts :
    ∃ p : Pacemaker, p.epochState = epochState
      ∧ (∃ tcs last, p.epochState.addTCVotes additive plainTimeouts = .ok (tcs, last)
        ∧ ((∀ n w, plainTimeouts[n]? = some w →
            w.Completes additive p.epochState (plainTimeouts.take n) →
            p.SignsRound additiveEnv w.round (plainTimeouts.take n ++ [w])) →
          ∀ (n : ℕ) (tc : TimeoutCert), tcs[n]? = some (some tc) →
            { p with epochState := last }.verifyTC additiveEnv (some tc) tc.round = .ok true)
        ∧ (additive.Separates committee.keys →
          (∀ (n : ℕ) (tc : TimeoutCert), tcs[n]? = some (some tc) →
            { p with epochState := last }.verifyTC additiveEnv (some tc) tc.round = .ok true) →
          ∀ n w, plainTimeouts[n]? = some w →
            w.Completes additive p.epochState (plainTimeouts.take n) →
            p.SignsRound additiveEnv w.round (plainTimeouts.take n ++ [w])))
      ∧ additive.Separates committee.keys
      ∧ timedOut additive epochState 1 (plainTimeouts.take 2) = false
      ∧ timedOut additive epochState 1 plainTimeouts = true := by
  obtain ⟨p, -, -⟩ := exists_of_start (k := 1) (fun _ => true) (by decide +kernel)
  exact ⟨{ p with epochState := epochState }, rfl,
    Pacemaker.formed_usable_iff (E := additiveEnv) (p := { p with epochState := epochState })
      additive_aggregates (show committee.size < 2 ^ 32 by decide) rfl plainTimeouts
      (show ∀ w ∈ plainTimeouts, w.signerIndex.toNat < committee.size by decide +kernel),
    additive_separates _, by decide +kernel, by decide +kernel⟩

end Testnet

end LoragonBFT
