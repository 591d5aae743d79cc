import LoragonBFT.Util.Machine
import LoragonBFT.Testnet

/-!
# The cache of verified certificates

Verifying a certificate is a pairing computation, so `ValidateQC` remembers the
certificates it has verified, by a digest of the certificate. `VerifyQC` has
two more arguments: the block, because a certificate of one of the first two
blocks needs no votes if it names the block, and the committee of the epoch.
Neither is part of the key. A certificate that was verified once is accepted
for every block and in every later epoch until 256 others have been verified.

The module follows a history of calls and epoch changes. `validQCs_play` says
what the cache holds after it – the last 256 certificates that were verified –
and `transparent_iff` when the next call answers as `VerifyQC` would.
-/

namespace LoragonBFT

open EStateM

/-- What can happen to the cache: a certificate is validated, or another epoch
state is put in place. -/
inductive CacheStep where
  | validate (b : Block) (escortQC : QuorumCert)
  | enterEpoch (es : EpochState)

namespace Pacemaker

/-- A call of `ValidateQC`, or a change of epoch. -/
def cacheStep (E : Env) (p : Pacemaker) : CacheStep → Pacemaker
  | .validate b escortQC => (validateQC E b escortQC).exec p
  | .enterEpoch es => { p with epochState := es }

/-- What `VerifyQC` finds out under the committee of the node: whether it
returns true and no error. -/
def verdict (E : Env) (p : Pacemaker) (b : Block) (qc : QuorumCert) : Except Panic Bool :=
  (b.verifyQC E.H E.B qc p.epochState.committee).map (fun r => r.1 && r.2.isNone)

/-- Whether a certificate is verified, and then added to the cache. -/
def verifiesNew (E : Env) (p : Pacemaker) (b : Block) (qc : QuorumCert) : Bool :=
  !p.validQCs.contains (qcID E.H qc) && !decide (p.epochState.committeeSize ≤ 0)
    && (p.verdict E b qc).toOption == some true

/-- The digest of the certificate a step adds to the cache. -/
def newlyVerified (E : Env) (p : Pacemaker) : CacheStep → Option Bytes32
  | .validate b qc => if p.verifiesNew E b qc then some (qcID E.H qc) else none
  | .enterEpoch _ => none

/-- The digests of the certificates verified in a history, the last one
first. -/
def verifiedIn (E : Env) (p : Pacemaker) : List CacheStep → List Bytes32
  | [] => []
  | i :: history =>
    verifiedIn E (p.cacheStep E i) history ++ (p.newlyVerified E i).toList

/-- What `ValidateQC` answers, or that it faults. -/
def answer (E : Env) (p : Pacemaker) (b : Block) (qc : QuorumCert) : Except Panic Bool :=
  match validateQC E b qc p with
  | .ok valid _ => .ok valid
  | .error fault _ => .error fault

/-- **The cache is transparent to a call**: `ValidateQC` answers, or faults, as
`VerifyQC` does under the committee of the node. -/
def Transparent (E : Env) (p : Pacemaker) (b : Block) (qc : QuorumCert) : Prop :=
  p.answer E b qc = p.verdict E b qc

/-! ## What the cache holds -/

section History

variable {E : Env} {p : Pacemaker} {b : Block} {qc : QuorumCert}

/-- **What a call of `ValidateQC` answers.** -/
theorem answer_eq : p.answer E b qc
    = if p.validQCs.contains (qcID E.H qc) then .ok true
      else if p.epochState.committeeSize ≤ 0 then .ok false else p.verdict E b qc := by
  unfold answer validateQC verdict
  have hget : (EStateM.get : PM Pacemaker) p = .ok p p := rfl
  simp only [bind, EStateM.bind, get, getThe, MonadStateOf.get, hget]
  generalize lruAdd 256 p.validQCs (qcID E.H qc) = added
  by_cases hcached : p.validQCs.contains (qcID E.H qc) = true
  · rw [if_pos hcached, if_pos hcached]
    rfl
  rw [if_neg hcached, if_neg hcached]
  by_cases hempty : p.epochState.committeeSize ≤ 0
  · rw [if_pos hempty, if_pos hempty]
    rfl
  rw [if_neg hempty, if_neg hempty]
  cases b.verifyQC E.H E.B qc p.epochState.committee with
  | error fault => rfl
  | ok r =>
    obtain ⟨valid, err⟩ := r
    cases valid <;> cases err <;> rfl

/-- **What a call does to the cache.** -/
theorem validQCs_validate : (p.cacheStep E (.validate b qc)).validQCs
    = if p.verifiesNew E b qc then lruAdd 256 p.validQCs (qcID E.H qc) else p.validQCs := by
  unfold cacheStep EStateM.exec validateQC verifiesNew verdict
  have hget : (EStateM.get : PM Pacemaker) p = .ok p p := rfl
  simp only [bind, EStateM.bind, get, getThe, MonadStateOf.get, hget]
  generalize lruAdd 256 p.validQCs (qcID E.H qc) = added
  cases p.validQCs.contains (qcID E.H qc) with
  | true => rfl
  | false =>
    by_cases hempty : p.epochState.committeeSize ≤ 0
    · rw [decide_eq_true hempty, if_neg Bool.false_ne_true, if_pos hempty]
      rfl
    rw [decide_eq_false hempty, if_neg Bool.false_ne_true, if_neg hempty]
    cases b.verifyQC E.H E.B qc p.epochState.committee with
    | error fault => rfl
    | ok r =>
      obtain ⟨valid, err⟩ := r
      cases valid <;> cases err <;> rfl

/-- A certificate that is not in the cache is put in front. -/
theorem lruAdd_of_not_mem {size : ℕ} {cache : List Bytes32} {key : Bytes32} (h : key ∉ cache) :
    lruAdd size cache key = (key :: cache).take size := by
  unfold lruAdd
  rw [List.filter_eq_self.mpr]
  intro x hx
  rw [bne_iff_ne]
  rintro rfl
  exact h hx

/-- A step puts the certificate it verifies in front. -/
theorem validQCs_cacheStep (hlength : p.validQCs.length ≤ 256) (i : CacheStep) :
    (p.cacheStep E i).validQCs = ((p.newlyVerified E i).toList ++ p.validQCs).take 256 := by
  cases i with
  | enterEpoch es =>
    show p.validQCs = ([] ++ p.validQCs).take 256
    rw [List.nil_append, List.take_of_length_le hlength]
  | validate b qc =>
    rw [validQCs_validate, newlyVerified]
    cases hnew : p.verifiesNew E b qc with
    | false =>
      rw [if_neg Bool.false_ne_true, if_neg Bool.false_ne_true, Option.toList_none,
        List.nil_append, List.take_of_length_le hlength]
    | true =>
      rw [if_pos rfl, if_pos rfl, Option.toList_some, List.singleton_append]
      refine lruAdd_of_not_mem fun hmem => ?_
      unfold verifiesNew at hnew
      rw [List.contains_iff_mem.mpr hmem] at hnew
      exact nomatch hnew

/-- **What the cache holds after a history**: the last 256 certificates that
were verified. -/
theorem validQCs_play (history : List CacheStep) (hlength : p.validQCs.length ≤ 256) :
    (Machine.play (cacheStep E) p history).validQCs
      = (p.verifiedIn E history ++ p.validQCs).take 256 := by
  induction history generalizing p with
  | nil => exact (List.take_of_length_le hlength).symm
  | cons i history ih =>
    have hstep := validQCs_cacheStep (E := E) hlength i
    have hshort : (p.cacheStep E i).validQCs.length ≤ 256 := by
      rw [hstep]
      exact List.length_take_le ..
    have hplay := ih hshort
    rw [hstep] at hplay
    rw [verifiedIn, List.append_assoc]
    refine hplay.trans ?_
    generalize (p.newlyVerified E i).toList ++ p.validQCs = earlier
    rw [List.take_append, List.take_append, List.take_take, Nat.min_eq_left (Nat.sub_le ..)]

/-! ## When the cache is transparent -/

/-- **A call that the cache is transparent to**, in terms of what was verified
before: a certificate that is remembered verifies now, for this block and under
this committee, and one that is not remembered is not checked under an empty
committee, unless its bits can be counted and it is not exempt. -/
structure Unaffected (E : Env) (remembered : List Bytes32) (p : Pacemaker) (b : Block)
    (qc : QuorumCert) : Prop where
  again : qcID E.H qc ∈ remembered →
    b.verifyQC E.H E.B qc p.epochState.committee = .ok (true, none)
  empty : qcID E.H qc ∉ remembered → p.epochState.committeeSize = 0 →
    ¬ (b.id E.H = qc.blockID ∧ (b.number = 0 ∨ b.number = 1)) ∧ ∃ c, qc.bitArray.count = .ok c

theorem verdict_eq_true_iff : p.verdict E b qc = .ok true
    ↔ b.verifyQC E.H E.B qc p.epochState.committee = .ok (true, none) := by
  unfold verdict
  cases b.verifyQC E.H E.B qc p.epochState.committee with
  | error fault => exact ⟨fun h => (nomatch h), fun h => nomatch h⟩
  | ok r =>
    obtain ⟨valid, err⟩ := r
    cases valid <;> cases err <;> simp [Except.map]

/-- Under an empty committee `VerifyQC` accepts what is exempt, faults on bits
that cannot be counted, and rejects the rest. -/
theorem verdict_eq_false_iff (hempty : p.epochState.committeeSize = 0) :
    p.verdict E b qc = .ok false
      ↔ ¬ (b.id E.H = qc.blockID ∧ (b.number = 0 ∨ b.number = 1))
        ∧ ∃ c, qc.bitArray.count = .ok c := by
  have hsize : UInt32.ofNat p.epochState.committee.size = 0 := hempty
  unfold verdict Block.verifyQC
  by_cases hfirst : b.id E.H = qc.blockID ∧ (b.number = 0 ∨ b.number = 1)
  · rw [if_pos hfirst]
    exact ⟨fun h => (nomatch h), fun h => absurd hfirst h.1⟩
  rw [if_neg hfirst]
  cases hcount : qc.bitArray.count with
  | error e => exact ⟨fun h => (nomatch h), fun ⟨_, _, h⟩ => nomatch h⟩
  | ok c =>
    have hmajority : majorityTwoThird (UInt32.ofNat c) 0 = false := by
      rw [Bool.eq_false_iff, ne_eq, majorityTwoThird_iff]
      exact fun h => absurd h.1 (by decide)
    simp only [bind, Except.bind, hsize, hmajority]
    exact ⟨fun _ => ⟨hfirst, c, rfl⟩, fun _ => rfl⟩

theorem transparent_iff_unaffected :
    p.Transparent E b qc ↔ Unaffected E p.validQCs p b qc := by
  unfold Transparent
  rw [answer_eq]
  by_cases hcached : p.validQCs.contains (qcID E.H qc) = true
  · have hmem := List.contains_iff_mem.mp hcached
    rw [if_pos hcached, eq_comm, verdict_eq_true_iff]
    exact ⟨fun h => ⟨fun _ => h, fun hnot => absurd hmem hnot⟩, fun h => h.again hmem⟩
  have hnotin : qcID E.H qc ∉ p.validQCs := fun h => hcached (List.contains_iff_mem.mpr h)
  rw [if_neg hcached]
  by_cases hempty : p.epochState.committeeSize ≤ 0
  · have hzero : p.epochState.committeeSize = 0 := UInt32.le_zero_iff.mp hempty
    rw [if_pos hempty, eq_comm, verdict_eq_false_iff hzero]
    exact ⟨fun h => ⟨fun hmem => absurd hmem hnotin, fun _ _ => h⟩,
      fun h => h.empty hnotin hzero⟩
  · rw [if_neg hempty]
    refine ⟨fun _ => ⟨fun hmem => absurd hmem hnotin, fun _ hzero => ?_⟩, fun _ => rfl⟩
    exact absurd (hzero ▸ UInt32.le_refl 0) hempty

/-- **The cache is transparent to the next call exactly if the certificate, if
it is among the last 256 that were verified, verifies now** – and, if it is not
among them, the committee is not empty or makes no difference. -/
theorem transparent_iff (hfresh : p.validQCs = []) (history : List CacheStep) (b : Block)
    (qc : QuorumCert) :
    (Machine.play (cacheStep E) p history).Transparent E b qc
      ↔ Unaffected E ((p.verifiedIn E history).take 256) (Machine.play (cacheStep E) p history)
        b qc := by
  rw [transparent_iff_unaffected, validQCs_play history (by rw [hfresh]; exact Nat.zero_le _),
    hfresh, List.append_nil]

end History

end Pacemaker

namespace Testnet

open Pacemaker

/-- A first block of the network, and one on top of it. -/
def cachedBlock : Block := block genesis 1 genesisQC []

def cachedChild : Block := block cachedBlock 2 (certificate cachedBlock 1) []

/-- A certificate that names the first block and carries no signature. -/
def voteless : QuorumCert := ⟨1, 1, cachedBlock.id hashes, [], .new 4⟩

theorem ok_of_toOption {x : Except Panic Bool} {valid : Bool}
    (h : (x.toOption == some valid) = true) : x = .ok valid := by
  cases x with
  | error fault => exact nomatch h
  | ok r => rw [Option.some.inj (eq_of_beq h)]

/-- **A certificate of three votes is validated twice**, and the second answer
is as good as the first. -/
theorem transparent_of_signed : ∃ p, start 0 = .ok p ∧ p.validQCs = []
    ∧ (Machine.play (cacheStep env) p
      [.validate cachedChild (certificate cachedChild 2)]).Transparent env cachedChild
        (certificate cachedChild 2) := by
  obtain ⟨p, hstart, htest⟩ := exists_of_start (k := 0) (fun p => p.validQCs.isEmpty
    && (Machine.play (cacheStep env) p
      [.validate cachedChild (certificate cachedChild 2)]).epochState.committee == committee)
    (by decide +kernel)
  obtain ⟨hempty, hcommittee⟩ := Bool.and_eq_true_iff.mp htest
  have hfresh := List.isEmpty_iff.mp hempty
  refine ⟨p, hstart, hfresh, (transparent_iff hfresh _ _ _).mpr ⟨fun _ => ?_, fun _ hzero => ?_⟩⟩
  · rw [eq_of_beq hcommittee]
    decide +kernel
  · unfold EpochState.committeeSize at hzero
    rw [eq_of_beq hcommittee] at hzero
    exact absurd hzero (by decide)

/-- **A certificate without votes is accepted for a later block.** It names the
first block, which needs no votes; once it is in the cache it passes for the
certificate of any other block, where `VerifyQC` misses the votes. -/
theorem voteless_accepted : ∃ p, start 0 = .ok p ∧ p.validQCs = []
    ∧ (Machine.play (cacheStep env) p [.validate cachedBlock voteless]).answer env cachedChild
        voteless = .ok true
    ∧ (Machine.play (cacheStep env) p [.validate cachedBlock voteless]).verdict env cachedChild
        voteless = .ok false := by
  obtain ⟨p, hstart, htest⟩ := exists_of_start (k := 0) (fun p => p.validQCs.isEmpty
    && (((Machine.play (cacheStep env) p [.validate cachedBlock voteless]).answer env cachedChild
        voteless).toOption == some true
      && ((Machine.play (cacheStep env) p [.validate cachedBlock voteless]).verdict env cachedChild
        voteless).toOption == some false)) (by decide +kernel)
  obtain ⟨hempty, hanswers⟩ := Bool.and_eq_true_iff.mp htest
  obtain ⟨hanswer, hverdict⟩ := Bool.and_eq_true_iff.mp hanswers
  exact ⟨p, hstart, List.isEmpty_iff.mp hempty, ok_of_toOption hanswer, ok_of_toOption hverdict⟩

end Testnet

end LoragonBFT
