import LoragonBFT.Messages

/-!
# What is read back of a block

A block leaves a node as bytes in two ways: it is stored, and it is sent in a
proposal. Both times it is encoded with `rlp.EncodeToBytes`, and whoever reads
it decodes the header, the transactions and the certificate again.

Nothing is lost that anyone looks at. Every field comes back as it was, with
one difference in the bit array: it is written as a text with one character a
bit, and the words of the array that is read are made anew from that text.
They agree with the old ones on the bits below the size, and those are all
that `GetIndex`, `Count` and the encoder read. `wire` is what comes back; it
has the bits, the encoding and hence the hash of what was written.

A timeout certificate carries its bit array as a string, empty if there is no
array, and text that does not parse is read as none: so it comes back, too.

The decoder is the one of the RLP library, so what is assumed is only that an
encoding is shorter than `2 ^ 64` bytes, as every slice is. The encoder reads
every bit, so an array with fewer words than its size asks for makes it fault;
`Covered` excludes that (`roundTrip`).
-/

namespace LoragonBFT

/-! ## Bit arrays -/

variable {bA : BitArray} {qc : QuorumCert}

namespace BitArray

/-- The characters of an array: one a bit. -/
def text (bA : BitArray) : Bytes :=
  (List.range bA.size).map (fun i => if bA.bit i then 0x78 else 0x5f)

theorem marshalJSON_eq (bA : BitArray) : bA.marshalJSON = 0x22 :: (bA.text ++ [0x22]) := rfl

theorem length_text (bA : BitArray) : bA.text.length = bA.size := by
  rw [text, List.length_map, List.length_range]

theorem length_text_lt (bA : BitArray) : bA.text.length < 2 ^ 32 := by
  rw [length_text]
  exact bA.bits.toNat_lt

theorem mem_text {c : UInt8} (h : c ∈ bA.text) : c = 0x5f ∨ c = 0x78 := by
  obtain ⟨i, -, rfl⟩ := List.mem_map.mp h
  split
  · exact .inr rfl
  · exact .inl rfl

/-- The array that is read back: made from the text. -/
def wire (bA : BitArray) : BitArray := ofText bA.text

/-- **A quoted text is parsed.** -/
theorem unmarshalJSON_quoted {text : Bytes} (hchars : ∀ c ∈ text, c = 0x5f ∨ c = 0x78) :
    unmarshalJSON (0x22 :: (text ++ [0x22])) = some (ofText text) := by
  have hall : text.reverse.all (fun c => c == 0x5f || c == 0x78) = true := by
    rw [List.all_reverse, List.all_eq_true]
    intro c hc
    rcases hchars c hc with rfl | rfl <;> rfl
  have hreverse : (text ++ [0x22]).reverse = 0x22 :: text.reverse := by
    rw [List.reverse_append]
    rfl
  unfold unmarshalJSON
  rw [if_neg (fun h => absurd (List.cons.inj h).1 (by decide))]
  simp only [hreverse, hall, if_true, List.reverse_reverse]

theorem unmarshalJSON_marshalJSON (bA : BitArray) :
    unmarshalJSON bA.marshalJSON = some bA.wire :=
  unmarshalJSON_quoted fun _ hc => mem_text hc

theorem ofItem_item (bA : BitArray) : ofItem bA.item = some bA.wire := by
  show some ((unmarshalJSON bA.marshalJSON).getD ⟨0, []⟩) = _
  rw [unmarshalJSON_marshalJSON]
  rfl

theorem size_wire (bA : BitArray) : bA.wire.size = bA.size :=
  (bit_ofText bA.length_text_lt).1.trans bA.length_text

/-- **Every bit is read back.** -/
theorem bit_wire (bA : BitArray) (i : ℕ) : bA.wire.bit i = bA.bit i := by
  rw [wire, (bit_ofText bA.length_text_lt).2 i]
  by_cases hi : i < bA.size
  · rw [text, List.getElem?_map, List.getElem?_range hi]
    cases hbit : bA.bit i <;> simp [hbit]
  · rw [bit_of_size_le (not_lt.mp hi),
      List.getElem?_eq_none (bA.length_text.trans_le (not_lt.mp hi))]
    rfl

theorem item_wire (bA : BitArray) : bA.wire.item = bA.item := by
  unfold item
  rw [wire, marshalJSON_ofText bA.length_text_lt fun c hc => mem_text hc]
  rfl

end BitArray

/-! ## Certificates -/

/-- A block identifier is read back. -/
theorem Bytes32.ofNat_beValue_bytes (x : Bytes32) :
    BitVec.ofNat 256 (Rlp.beValue (Bytes32.bytes x)) = x := by
  have hlt : x.toNat < 256 ^ 32 := lt_of_lt_of_eq x.isLt (by norm_num)
  rw [Bytes32.bytes, Rlp.beValue_beBytes hlt, BitVec.ofNat_toNat, BitVec.setWidth_eq]

theorem Bytes32.length_bytes (x : Bytes32) : (Bytes32.bytes x).length = 32 :=
  Rlp.length_beBytes _ _

theorem uint?_uint64 (x : UInt64) : (Rlp.Item.uint x.toNat).uint? 8 = some x.toNat :=
  Rlp.Item.uint?_uint le_rfl (lt_of_lt_of_eq x.toNat_lt (by norm_num))

theorem uint?_uint32 (x : UInt32) : (Rlp.Item.uint x.toNat).uint? 4 = some x.toNat :=
  Rlp.Item.uint?_uint (by decide) (lt_of_lt_of_eq x.toNat_lt (by norm_num))

theorem array?_bytes32 (x : Bytes32) :
    (Rlp.Item.str (Bytes32.bytes x)).array? 32 = some (Bytes32.bytes x) :=
  Rlp.Item.array?_str x.length_bytes

namespace QuorumCert

/-- The certificate that is read back. -/
def wire (qc : QuorumCert) : QuorumCert := { qc with bitArray := qc.bitArray.wire }

/-- **A certificate is read back.** -/
theorem ofItem_item (qc : QuorumCert) : ofItem qc.item = some qc.wire := by
  unfold item ofItem
  dsimp only
  rw [uint?_uint64, uint?_uint32, array?_bytes32, BitArray.ofItem_item]
  show some _ = some _
  rw [Bytes32.ofNat_beValue_bytes, UInt64.ofNat_toNat, UInt32.ofNat_toNat]
  rfl

theorem item_wire (qc : QuorumCert) : qc.wire.item = qc.item := by
  show Rlp.Item.list [_, _, _, _, qc.bitArray.wire.item] = _
  rw [BitArray.item_wire]
  rfl

end QuorumCert

/-- Two certificates say the same: they agree on every field, and on every bit
of the bit array. -/
structure QuorumCert.Same (qc qc' : QuorumCert) : Prop where
  epoch : qc.epoch = qc'.epoch
  round : qc.round = qc'.round
  blockID : qc.blockID = qc'.blockID
  aggSig : qc.aggSig = qc'.aggSig
  size : qc.bitArray.size = qc'.bitArray.size
  bits : ∀ i, qc.bitArray.bit i = qc'.bitArray.bit i

theorem QuorumCert.same_wire (qc : QuorumCert) : qc.Same qc.wire :=
  ⟨rfl, rfl, rfl, rfl, qc.bitArray.size_wire.symm, fun i => (qc.bitArray.bit_wire i).symm⟩

theorem qcDecodeFromBytes_encode (h : qc.item.encode.length < 2 ^ 64) :
    qcDecodeFromBytes qc.item.encode = some qc.wire := by
  rw [qcDecodeFromBytes, Rlp.decode_encode _ h, Option.bind_some, qc.ofItem_item]

/-! ## Blocks -/

/-- **A header is read back as it was.** -/
theorem Header.ofItem_item (h : Header) : ofItem h.item = some h := by
  unfold item ofItem
  dsimp only
  rw [array?_bytes32, uint?_uint64, uint?_uint32, uint?_uint32, uint?_uint64]
  show some _ = some _
  rw [Bytes32.ofNat_beValue_bytes, UInt64.ofNat_toNat, UInt64.ofNat_toNat, UInt32.ofNat_toNat,
    UInt32.ofNat_toNat]

/-- A header is about as long as its hashes. -/
theorem Header.weight_item_le (h : Header) :
    h.item.weight ≤ 200 + h.txsRoot.length + h.qcHash.length + h.validatorsHash.length
      + h.nextValidatorsHash.length + h.appHash.length := by
  have htimestamp := Rlp.Item.weight_uint_le h.timestamp.toNat
  have hindex := Rlp.Item.weight_uint_le h.proposerIndex.toNat
  have hlast := Rlp.Item.weight_uint_le h.lastKBlock.toNat
  have hnonce := Rlp.Item.weight_uint_le h.nonce.toNat
  have hid := Bytes32.length_bytes h.parentID
  simp only [Header.item, Rlp.Item.weight, Rlp.weightAll] at *
  omega

namespace Block

/-- The block that is read back. -/
def wire (b : Block) : Block := { b with qc := b.qc.wire }

/-- **A block is read back.** -/
theorem ofItem_item (b : Block) : ofItem b.item = some b.wire := by
  have htxs : (b.txs.map Rlp.Item.str).mapM Rlp.Item.bytes? = some b.txs :=
    Rlp.mapM_map (f := Rlp.Item.str) (fun _ => rfl) b.txs
  unfold item ofItem
  dsimp only
  rw [Header.ofItem_item, QuorumCert.ofItem_item]
  show ((b.txs.map Rlp.Item.str).mapM Rlp.Item.bytes?).bind _ = _
  rw [htxs]
  rfl

end Block

theorem blockDecodeFromBytes_encode {b : Block} (h : b.item.encode.length < 2 ^ 64) :
    blockDecodeFromBytes b.item.encode = some b.wire := by
  rw [blockDecodeFromBytes, Rlp.decode_encode _ h, Option.bind_some, b.ofItem_item]

/-! ## Timeout certificates -/

namespace TimeoutCert

/-- `TimeoutCert.DecodeRLP`. Text that does not parse leaves no bit array. -/
def ofItem : Rlp.Item → Option TimeoutCert
  | .list [epoch, round, bitArrayStr, msgHash, aggSig] => do
    let epoch ← epoch.uint? 8
    let round ← round.uint? 4
    let bitArrayStr ← bitArrayStr.bytes?
    let msgHash ← msgHash.array? 32
    let aggSig ← aggSig.bytes?
    return { epoch := UInt64.ofNat epoch, round := UInt32.ofNat round,
             bitArray := BitArray.unmarshalJSON bitArrayStr,
             msgHash := BitVec.ofNat 256 (Rlp.beValue msgHash), aggSig }
  | _ => none

/-- `rlp.DecodeBytes` into a timeout certificate. -/
def decodeBytes (raw : Bytes) : Option TimeoutCert := (Rlp.decode raw).bind ofItem

/-- The timeout certificate that is read back. -/
def wire (tc : TimeoutCert) : TimeoutCert := { tc with bitArray := tc.bitArray.map BitArray.wire }

/-- **A timeout certificate is read back**, with its bit array or without. -/
theorem ofItem_item (tc : TimeoutCert) : ofItem tc.item = some tc.wire := by
  have htext : BitArray.unmarshalJSON ((tc.bitArray.map BitArray.marshalJSON).getD [])
      = tc.bitArray.map BitArray.wire := by
    cases tc.bitArray with
    | none => rfl
    | some bA => exact bA.unmarshalJSON_marshalJSON
  unfold item ofItem
  dsimp only
  rw [uint?_uint64, uint?_uint32, array?_bytes32]
  show some _ = some _
  rw [Bytes32.ofNat_beValue_bytes, UInt64.ofNat_toNat, UInt32.ofNat_toNat, htext]
  rfl

/-- Two timeout certificates say the same: they agree on every field, on
whether there is a bit array, and on its size and its bits. -/
structure Same (tc tc' : TimeoutCert) : Prop where
  epoch : tc.epoch = tc'.epoch
  round : tc.round = tc'.round
  msgHash : tc.msgHash = tc'.msgHash
  aggSig : tc.aggSig = tc'.aggSig
  array : tc.bitArray.isSome = tc'.bitArray.isSome
  bits : ∀ bA bA', tc.bitArray = some bA → tc'.bitArray = some bA' →
    bA.size = bA'.size ∧ ∀ i, bA.bit i = bA'.bit i

theorem same_wire (tc : TimeoutCert) : tc.Same tc.wire := by
  refine ⟨rfl, rfl, rfl, rfl, Option.isSome_map.symm, fun bA bA' hbA hbA' => ?_⟩
  obtain rfl : bA.wire = bA' := by
    rw [wire, hbA] at hbA'
    exact Option.some.inj hbA'
  exact ⟨bA.size_wire.symm, fun i => (bA.bit_wire i).symm⟩

end TimeoutCert

/-! ## Encoding and decoding -/

/-- The words are those the size asks for. -/
def BitArray.Covered (bA : BitArray) : Prop := bA.elems.length = (bA.size + 63) / 64

/-- `BitArray.MarshalJSON`, with the fault of a bit that has no word. -/
def BitArray.marshal (bA : BitArray) : Except Panic Bytes := do
  let bits ← (List.range bA.size).mapM bA.getIndex
  return [0x22] ++ bits.map (fun b => if b then 0x78 else 0x5f) ++ [0x22]

/-- `QuorumCert.EncodeRLP`. -/
def QuorumCert.rlp (qc : QuorumCert) : Except Panic Rlp.Item := do
  return .list [.uint qc.epoch.toNat, .uint qc.round.toNat, .str (Bytes32.bytes qc.blockID),
    .str qc.aggSig, .str (← qc.bitArray.marshal)]

/-- `QCEncodeBytes`. -/
def qcEncodeBytes (qc : QuorumCert) : Except Panic Bytes := do return (← qc.rlp).encode

/-- `Block.ToBytes`. -/
def Block.toBytes (b : Block) : Except Panic Bytes := do
  return (Rlp.Item.list [b.header.item, .list (b.txs.map .str), ← b.qc.rlp]).encode

/-- `rlp.EncodeToBytes` of a timeout certificate. -/
def TimeoutCert.toBytes (tc : TimeoutCert) : Except Panic Bytes := do
  let s ← match tc.bitArray with
    | none => pure []
    | some bA => bA.marshal
  return (Rlp.Item.list [.uint tc.epoch.toNat, .uint tc.round.toNat, .str s,
    .str (Bytes32.bytes tc.msgHash), .str tc.aggSig]).encode

/-- **The encoder does not fault on a covered array.** -/
theorem BitArray.Covered.marshal_eq (h : bA.Covered) :
    bA.marshal = .ok bA.marshalJSON := by
  have hwords : bA.size ≤ 64 * bA.elems.length := by
    rw [h]
    omega
  have hmap : ∀ l : List ℕ, l.mapM bA.getIndex = .ok (l.map bA.bit) := by
    intro l
    induction l with
    | nil => rfl
    | cons i l ih =>
      rw [List.mapM_cons, getIndex_eq_ok hwords i, ih]
      rfl
  unfold marshal marshalJSON
  rw [hmap]
  show Except.ok _ = Except.ok _
  rw [List.map_map]
  rfl

/-! ## The texts of bit arrays

`DecodeRLP` calls `UnmarshalJSON` and drops its error, so it takes every
string: one that is not the text of an array leaves the receiver as it was, and
`null` empties it. What it makes of a string is encoded as that string only
where the string is a text to begin with. -/

namespace BitArray

/-- `BitArray.DecodeRLP` into an array. -/
def decodeRLP (bA : BitArray) (i : Rlp.Item) : Option BitArray :=
  i.bytes?.map (fun payload => (unmarshalJSON payload).getD bA)

/-- A quoted string of `_` and `x`, of a length that can be a size. -/
def IsText (p : Bytes) : Prop :=
  ∃ text : Bytes, p = 0x22 :: (text ++ [0x22]) ∧ (∀ c ∈ text, c = 0x5f ∨ c = 0x78)
    ∧ text.length < 2 ^ 32

/-- If the string is decoded, the array is encoded as the string. -/
def Reencodes (bA : BitArray) (p : Bytes) : Prop :=
  ∀ bA', bA.decodeRLP (.str p) = some bA' → bA'.marshal = .ok p

theorem length_of_mapM {α β : Type} {f : α → Except Panic β} {l : List α} {bs : List β}
    (h : l.mapM f = .ok bs) : bs.length = l.length := by
  induction l generalizing bs with
  | nil => exact (Except.ok.inj h) ▸ rfl
  | cons a l ih =>
    rw [List.mapM_cons] at h
    obtain ⟨b, -, h⟩ := Except.exists_of_bind_eq_ok h
    obtain ⟨bs', hl, h⟩ := Except.exists_of_bind_eq_ok h
    obtain rfl : b :: bs' = bs := Except.ok.inj h
    exact congrArg Nat.succ (ih hl)

/-- What the encoder writes is a text. -/
theorem isText_of_marshal {p : Bytes} (h : bA.marshal = .ok p) : IsText p := by
  unfold marshal at h
  obtain ⟨bits, hbits, h⟩ := Except.exists_of_bind_eq_ok h
  have hp : p = 0x22 :: (bits.map (fun b => if b then 0x78 else 0x5f) ++ [0x22]) :=
    (Except.ok.inj h).symm
  refine ⟨_, hp, ?_, ?_⟩
  · intro c hc
    obtain ⟨b, -, rfl⟩ := List.mem_map.mp hc
    cases b
    · exact .inl rfl
    · exact .inr rfl
  · rw [List.length_map, length_of_mapM hbits, List.length_range]
    exact bA.bits.toNat_lt

/-- A decoded array has the words its size asks for. -/
theorem covered_ofText {text : Bytes} (hlen : text.length < 2 ^ 32) : (ofText text).Covered := by
  obtain ⟨hsize, helems, -⟩ := foldl_ofText text hlen text.length le_rfl
  exact helems.trans (by rw [← hsize]; rfl)

/-- **A string is decoded to what it encodes exactly if it is a text**,
whatever the receiver was. -/
theorem reencodes_iff_isText (bA : BitArray) (p : Bytes) : bA.Reencodes p ↔ IsText p := by
  constructor
  · exact fun h => isText_of_marshal (h _ rfl)
  · rintro ⟨text, rfl, hchars, hlen⟩ bA' hdecode
    have hjson : bA' = ofText text := by
      obtain ⟨payload, hpayload, rfl⟩ := Option.map_eq_some_iff.mp hdecode
      obtain rfl := Option.some.inj hpayload
      rw [unmarshalJSON_quoted hchars]
      rfl
    rw [hjson, (covered_ofText hlen).marshal_eq, marshalJSON_ofText hlen hchars]
    rfl

/-- **Garbage is taken for the empty array**, and so is `null`, which the
encoder never writes. -/
theorem garbage_decoded :
    decodeRLP ⟨0, []⟩ (.str [0x61]) = some ⟨0, []⟩ ∧ ¬ Reencodes ⟨0, []⟩ [0x61]
      ∧ decodeRLP ⟨0, []⟩ (.str [0x6e, 0x75, 0x6c, 0x6c]) = some ⟨0, []⟩
      ∧ ¬ Reencodes ⟨0, []⟩ [0x6e, 0x75, 0x6c, 0x6c] := by
  have hempty : marshal ⟨0, []⟩ = .ok [0x22, 0x22] := rfl
  refine ⟨rfl, fun h => ?_, rfl, fun h => ?_⟩
  · exact absurd (Except.ok.inj (hempty.symm.trans (h _ rfl))) (by decide)
  · exact absurd (Except.ok.inj (hempty.symm.trans (h _ rfl))) (by decide)

end BitArray

theorem QuorumCert.rlp_eq (h : qc.bitArray.Covered) : qc.rlp = .ok qc.item := by
  unfold rlp
  rw [h.marshal_eq]
  rfl

theorem qcEncodeBytes_eq (h : qc.bitArray.Covered) :
    qcEncodeBytes qc = .ok qc.item.encode := by
  unfold qcEncodeBytes
  rw [QuorumCert.rlp_eq h]
  rfl

theorem Block.toBytes_eq {b : Block} (h : b.qc.bitArray.Covered) :
    b.toBytes = .ok b.item.encode := by
  unfold toBytes
  rw [QuorumCert.rlp_eq h]
  rfl

theorem TimeoutCert.toBytes_eq {tc : TimeoutCert} (h : ∀ bA ∈ tc.bitArray, bA.Covered) :
    tc.toBytes = .ok tc.item.encode := by
  unfold toBytes item
  cases hbA : tc.bitArray with
  | none => rfl
  | some bA =>
    dsimp only
    rw [(h bA hbA).marshal_eq]
    rfl

theorem TimeoutCert.decodeBytes_encode {tc : TimeoutCert} (h : tc.item.encode.length < 2 ^ 64) :
    decodeBytes tc.item.encode = some tc.wire := by
  rw [decodeBytes, Rlp.decode_encode _ h, Option.bind_some, tc.ofItem_item]

/-- **What is encoded is decoded**: a block with its header, identifier,
transactions and certificate, a certificate, and a timeout certificate, the
bits of their arrays included. -/
theorem roundTrip :
    (∀ b : Block, b.qc.bitArray.Covered → ∃ raw, b.toBytes = .ok raw
      ∧ (raw.length < 2 ^ 64 → ∃ b', blockDecodeFromBytes raw = some b' ∧ b'.header = b.header
        ∧ (∀ H, b'.id H = b.id H) ∧ b'.txs = b.txs ∧ b.qc.Same b'.qc))
    ∧ (∀ qc : QuorumCert, qc.bitArray.Covered → ∃ raw, qcEncodeBytes qc = .ok raw
      ∧ (raw.length < 2 ^ 64 → ∃ qc', qcDecodeFromBytes raw = some qc' ∧ qc.Same qc'))
    ∧ ∀ tc : TimeoutCert, (∀ bA ∈ tc.bitArray, bA.Covered) → ∃ raw, tc.toBytes = .ok raw
      ∧ (raw.length < 2 ^ 64 → ∃ tc', TimeoutCert.decodeBytes raw = some tc' ∧ tc.Same tc') := by
  refine ⟨fun b h => ⟨_, Block.toBytes_eq h, fun hfits => ?_⟩,
    fun qc h => ⟨_, qcEncodeBytes_eq h, fun hfits => ?_⟩,
    fun tc h => ⟨_, TimeoutCert.toBytes_eq h, fun hfits => ?_⟩⟩
  · exact ⟨b.wire, blockDecodeFromBytes_encode hfits, rfl, fun _ => rfl, rfl, b.qc.same_wire⟩
  · exact ⟨qc.wire, qcDecodeFromBytes_encode hfits, qc.same_wire⟩
  · exact ⟨tc.wire, TimeoutCert.decodeBytes_encode hfits, tc.same_wire⟩

/-- A block whose certificate has a bit array of two words. -/
def sample : Block where
  header := ⟨7, 1, 2, [3], 4, 5, [6], [], [8, 9], []⟩
  txs := [[], [1], [128, 2]]
  qc := ⟨1, 2, 3, [4], ⟨66, [5, 2]⟩⟩

/-- The block, its certificate, and a timeout certificate without a bit array
are read back. -/
theorem roundTrip_sample :
    (∃ raw b', sample.toBytes = .ok raw ∧ blockDecodeFromBytes raw = some b'
      ∧ b'.txs = sample.txs ∧ sample.qc.Same b'.qc)
    ∧ (∃ raw qc', qcEncodeBytes sample.qc = .ok raw ∧ qcDecodeFromBytes raw = some qc'
      ∧ sample.qc.Same qc')
    ∧ ∃ raw tc', TimeoutCert.toBytes ⟨1, 2, none, 3, []⟩ = .ok raw
      ∧ TimeoutCert.decodeBytes raw = some tc' ∧ tc'.bitArray = none := by
  have hcovered : sample.qc.bitArray.Covered := rfl
  obtain ⟨rawB, hrawB, hblock⟩ := roundTrip.1 sample hcovered
  obtain ⟨rawQ, hrawQ, hqc⟩ := roundTrip.2.1 sample.qc hcovered
  have hnone : ∀ bA ∈ (⟨1, 2, none, 3, []⟩ : TimeoutCert).bitArray, bA.Covered :=
    fun _ h => nomatch h
  obtain ⟨rawT, hrawT, htc⟩ := roundTrip.2.2 _ hnone
  have hshortB : rawB.length < 2 ^ 64 := by
    rw [← Except.ok.inj ((Block.toBytes_eq hcovered).symm.trans hrawB)]
    decide +kernel
  have hshortQ : rawQ.length < 2 ^ 64 := by
    rw [← Except.ok.inj ((qcEncodeBytes_eq hcovered).symm.trans hrawQ)]
    decide +kernel
  have hshortT : rawT.length < 2 ^ 64 := by
    rw [← Except.ok.inj ((TimeoutCert.toBytes_eq hnone).symm.trans hrawT)]
    decide +kernel
  obtain ⟨b', hb', -, -, htxs, hsameB⟩ := hblock hshortB
  obtain ⟨qc', hqc', hsameQ⟩ := hqc hshortQ
  obtain ⟨tc', htc', hsameT⟩ := htc hshortT
  refine ⟨⟨rawB, b', hrawB, hb', htxs, hsameB⟩, ⟨rawQ, qc', hrawQ, hqc', hsameQ⟩,
    ⟨rawT, tc', hrawT, htc', ?_⟩⟩
  exact Option.isNone_iff_eq_none.mp (by simpa using hsameT.array.symm)

end LoragonBFT
