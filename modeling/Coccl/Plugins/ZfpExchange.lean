import Coccl.Plugins.Zfp

/-!
# Moving ZFP chunks

The communication stages move the equal segments of an encoded buffer, one for each chunk. A segment
holds its chunk just if chunks end at segment boundaries (`Splits`): then a chunk's bits can be put
anywhere (`decompress_join`). Where they do not, the bytes cannot be cut, or the second of two
gathered streams is read too early (`gathered_ne`).
-/

namespace Coccl

open Segments List

namespace ZfpCompressor

open BlockCodec

variable {α : Type} {config : ZfpConfig} {elementsPerChunk chunks : ℕ}

/-! ## The stages -/

/-- An encoded edge of the pipeline. -/
structure EncodedEdge where
  bits : List Bool
  view : CompressorView

namespace EncodedEdge

/-- `runAllToAll` without frames: rank `rank` gets block `rank` of every member. -/
def runAllToAll (nRanks rank : ℕ) (edges : ℕ → EncodedEdge) : EncodedEdge :=
  let sendBytes := (edges rank).view.bytes / nRanks
  ⟨join nRanks fun q => piece (8 * sendBytes) (edges q).bits rank, (edges rank).view⟩

/-- `runAllGather` without frames. -/
def runAllGather (nRanks rank : ℕ) (edges : ℕ → EncodedEdge) : EncodedEdge :=
  let view := (edges rank).view
  ⟨join nRanks fun q => (edges q).bits,
    { view with
      bytes := view.bytes * nRanks
      elements := view.elements * nRanks
      chunks := view.chunks * nRanks }⟩

/-- `runDecompress` into `output`. -/
def runDecompress (codec : BlockCodec α config.blockBits) (rawSliceCount : ℕ)
    (rawDatatype : DataType) (output : CompressorView) (edge : EncodedEdge) : Result (List α) :=
  decompress codec edge.view
    { output with
      bytes := 0
      elements := rawSliceCount * edge.view.chunks
      chunks := edge.view.chunks
      datatype := rawDatatype
      frameMetadata := none
      frameStrideBytes := 0 } edge.bits

end EncodedEdge

/-- A chunk of the input of a rank. -/
def chunk (elementsPerChunk : ℕ) (x : ℕ → ℕ → α) (i : ℕ) : List α :=
  (List.range elementsPerChunk).map (x i)

@[simp] theorem length_chunk (x : ℕ → ℕ → α) (i : ℕ) :
    (chunk elementsPerChunk x i).length = elementsPerChunk := by
  simp [chunk]

/-- Every rank has compressed its chunks, and where the communication stages move the segments
the chunks are found: `x q i` are the values of chunk `i` of rank `q`, and what is expected is what
a reader gets for that chunk alone. -/
structure Exchanges (codec : BlockCodec α config.blockBits) (datatype : DataType)
    (chunks elementsPerChunk nRanks : ℕ) (output : CompressorView) (x : ℕ → ℕ → ℕ → α)
    (edges : ℕ → EncodedEdge) : Prop where
  compressed : ∀ q data, compress codec (rawInput data datatype chunks elementsPerChunk) output
    (join chunks (chunk elementsPerChunk (x q))) = .ok (.encoded (edges q).bits, (edges q).view)
  gathered : ∀ rank output, (EncodedEdge.runAllGather nRanks rank edges).runDecompress codec
      elementsPerChunk datatype output =
    .ok (join nRanks fun q => join chunks fun i =>
      codec.chunkValues (chunk elementsPerChunk (x q) i))
  exchanged : ∀ rank < nRanks, ∀ block output, chunks = nRanks * block →
    (EncodedEdge.runAllToAll nRanks rank edges).runDecompress codec elementsPerChunk datatype
      output =
    .ok (join nRanks fun q => join block fun j =>
      codec.chunkValues (chunk elementsPerChunk (x q) (rank * block + j)))

/-- Chunks can be moved one by one: whatever the values, the library's coding of a block and the
number of ranks. -/
def MovesChunks (config : ZfpConfig) (datatype : DataType) (chunks elementsPerChunk : ℕ)
    (output : CompressorView) : Prop :=
  ∀ (codec : BlockCodec (Element datatype) config.blockBits) (nRanks : ℕ)
    (x : ℕ → ℕ → ℕ → Element datatype), 0 < nRanks →
    ∃ edges, Exchanges codec datatype chunks elementsPerChunk nRanks output x edges

/-- Segments end where chunks end: always for chunks with a block of their own at the end, and for
chunks of whole blocks if the blocks of a chunk are whole bytes and the blocks of all chunks whole
words. -/
def Splits (config : ZfpConfig) (chunks elementsPerChunk : ℕ) : Prop :=
  elementsPerChunk % 4 = 0 → 8 ∣ elementsPerChunk / 4 * config.blockBits ∧
    64 ∣ chunks * (elementsPerChunk / 4 * config.blockBits)

/-! ## Chunks of whole blocks -/

section

variable {k : ℕ}

theorem splits_four_mul : Splits config chunks (4 * k) ↔
    8 ∣ k * config.blockBits ∧ 64 ∣ chunks * (k * config.blockBits) := by
  simp [Splits]

theorem batchElements_four_mul : batchElements (4 * k) chunks = 4 * (chunks * k) := by
  rw [batchElements, chunksPerBatch_of_whole (Nat.mul_mod_right 4 k)]
  ring

theorem batches_four_mul (hchunks : 0 < chunks) : batches (4 * k) chunks = 1 := by
  rw [batches, chunksPerBatch_of_whole (Nat.mul_mod_right 4 k), Nat.div_self hchunks]

theorem streamBits_four_mul : streamBits config.blockBits (4 * (chunks * k)) =
    roundUp streamWordBits (chunks * (k * config.blockBits)) := by
  rw [streamBits, blocks_four_mul, mul_assoc]

theorem encodedBytes_four_mul (hchunks : 0 < chunks) : encodedBytes config (4 * k) chunks =
    roundUp streamWordBits (chunks * (k * config.blockBits)) / 8 := by
  rw [encodedBytes, batches_four_mul hchunks, batchElements_four_mul, mul_one, streamBits_four_mul]

end

section

variable (codec : BlockCodec α config.blockBits)

/-- The bits of one chunk inside the encoded chunks. -/
def chunkBits (values : List α) : List Bool :=
  if values.length % 4 = 0 then codec.encodeBlocks values else codec.stream values

/-- The bytes of one segment. -/
def segmentBytes (config : ZfpConfig) (elementsPerChunk : ℕ) : ℕ :=
  if elementsPerChunk % 4 = 0 then elementsPerChunk / 4 * config.blockBits / 8
  else streamBits config.blockBits elementsPerChunk / 8

section

variable (hsplits : Splits config chunks elementsPerChunk)

include hsplits

theorem length_chunkBits {values : List α} (hlength : values.length = elementsPerChunk) :
    (chunkBits codec values).length = 8 * segmentBytes config elementsPerChunk := by
  subst hlength
  unfold chunkBits segmentBytes
  by_cases hwhole : values.length % 4 = 0
  · have hblocks : blocks values.length = values.length / 4 := by
      unfold blocks zfpBlockElements
      omega
    rw [if_pos hwhole, if_pos hwhole, length_encodeBlocks, hblocks,
      Nat.mul_div_cancel' (hsplits hwhole).1]
  · rw [if_neg hwhole, if_neg hwhole, length_stream, Nat.mul_div_cancel' (eight_dvd_streamBits _)]

variable {values : ℕ → List α}

theorem encodedBits_join (hchunks : 0 < chunks)
    (hlength : ∀ i < chunks, (values i).length = elementsPerChunk) :
    encodedBits codec elementsPerChunk chunks (join chunks values) =
      join chunks fun i => chunkBits codec (values i) := by
  unfold encodedBits
  by_cases hwhole : elementsPerChunk % 4 = 0
  · obtain ⟨k, rfl⟩ := Nat.dvd_of_mod_eq_zero hwhole
    have hjoin : (join chunks values).length = 4 * (chunks * k) :=
      (length_join hlength).trans (by ring)
    have hblocks := @encodeBlocks_join _ _ codec chunks k values
      fun i hi => by rw [hlength i hi, mul_comm]
    have hwords : streamWordBits ∣ (codec.encodeBlocks (join chunks values)).length := by
      rw [length_encodeBlocks, hjoin, blocks_four_mul, mul_assoc]
      exact (splits_four_mul.mp hsplits).2
    rw [batches_four_mul hchunks, batchElements_four_mul, join_one, piece_zero hjoin.le, stream,
      padTo_of_dvd (by decide) _ hwords, hblocks]
    refine join_congr fun i hi => ?_
    rw [chunkBits, hlength i hi, if_pos hwhole]
  · rw [batches, batchElements, chunksPerBatch_of_part hwhole, Nat.div_one, mul_one]
    refine join_congr fun i hi => ?_
    rw [piece_join hlength hi, chunkBits, hlength i hi, if_neg hwhole]

theorem encodedBytes_eq (hchunks : 0 < chunks) :
    encodedBytes config elementsPerChunk chunks =
      segmentBytes config elementsPerChunk * chunks := by
  unfold segmentBytes
  by_cases hwhole : elementsPerChunk % 4 = 0
  · obtain ⟨k, rfl⟩ := Nat.dvd_of_mod_eq_zero hwhole
    obtain ⟨hbytes, hwords⟩ := splits_four_mul.mp hsplits
    rw [encodedBytes_four_mul hchunks, if_pos hwhole,
      @roundUp_of_dvd streamWordBits _ (by decide) hwords, Nat.mul_div_assoc _ hbytes, mul_comm,
      Nat.mul_div_cancel_left _ (by decide : 0 < 4)]
  · rw [encodedBytes, batches, batchElements, chunksPerBatch_of_part hwhole, if_neg hwhole,
      Nat.div_one, mul_one]

theorem segmentBytes_pos (hn : 0 < elementsPerChunk) :
    0 < segmentBytes config elementsPerChunk := by
  unfold segmentBytes
  split
  · next hwhole =>
    have hdvd := (hsplits hwhole).1
    have hmul := mul_le_mul (show 1 ≤ elementsPerChunk / 4 by omega) (blockBits_pos config)
    omega
  · have := nine_le_streamBits config hn
    omega

variable {datatype : DataType}

/-- **Chunks' bits at any positions are decoded to the chunks' values at these positions.** -/
theorem decompress_join {positions : ℕ} {input output : CompressorView}
    (htype : zfpType datatype ≠ none) (hn : 0 < elementsPerChunk) (hpositions : 0 < positions)
    (hlength : ∀ p < positions, (values p).length = elementsPerChunk)
    (hchunks : input.chunks = positions)
    (hbytes : input.bytes = segmentBytes config elementsPerChunk * positions)
    (hout : output.chunks = positions) (helements : output.elements = elementsPerChunk * positions)
    (hdatatype : output.datatype = datatype) :
    decompress codec input output (join positions fun p => chunkBits codec (values p)) =
      .ok (join positions fun p => codec.chunkValues (values p)) := by
  have hsegment := segmentBytes_pos hsplits hn
  have hbits : ∀ p < positions, (chunkBits codec (values p)).length =
      8 * segmentBytes config elementsPerChunk :=
    fun p hp => length_chunkBits codec hsplits (hlength p hp)
  unfold decompress
  rw [hdatatype, hchunks, hbytes, hout, helements]
  rw [if_neg, if_neg (mul_pos hsegment hpositions).ne',
    if_neg (by rw [Nat.mul_mod_left, Nat.mul_mod_left]; simp)]
  · simp only [Nat.mul_div_cancel _ hpositions]
    congr 1
    by_cases hwhole : elementsPerChunk % 4 = 0
    · obtain ⟨k, rfl⟩ := Nat.dvd_of_mod_eq_zero hwhole
      have hblocks : ∀ p < positions, (chunkBits codec (values p)).length =
          k * config.blockBits := by
        intro p hp
        rw [chunkBits, hlength p hp, if_pos hwhole, length_encodeBlocks, hlength p hp,
          blocks_four_mul]
      rw [batches_four_mul hpositions, batchElements, chunksPerBatch_of_whole hwhole, join_one,
        piece_zero (by rw [length_join hbits, mul_comm, mul_assoc]),
        zfpDecompress_join codec hblocks]
      refine join_congr fun p hp => ?_
      rw [chunkValues_eq, hlength p hp, chunkBits, hlength p hp, if_pos hwhole]
    · rw [batches, batchElements, chunksPerBatch_of_part hwhole, Nat.div_one, mul_one, mul_one]
      refine join_congr fun p hp => ?_
      rw [piece_join hbits hp, chunkBits, hlength p hp, if_neg hwhole, chunkValues, hlength p hp]
  · have hpos := mul_pos hn hpositions
    simp only [not_or, Decidable.not_not]
    exact ⟨htype, hpos.ne', hpositions.ne', trivial⟩

variable {output : CompressorView}

/-- Encoded chunks whose segments end where chunks end can be moved one by one. -/
theorem exchanges_of_splits {nRanks : ℕ} (x : ℕ → ℕ → ℕ → α) (hranks : 0 < nRanks)
    (hpass : ¬ PassesThrough config datatype chunks elementsPerChunk)
    (haccepts : Accepts datatype chunks elementsPerChunk)
    (hroom : Room config chunks elementsPerChunk output) :
    Exchanges codec datatype chunks elementsPerChunk nRanks output x fun q =>
      ⟨join chunks fun i => chunkBits codec (chunk elementsPerChunk (x q) i),
        encodedView config elementsPerChunk chunks output⟩ := by
  have hchunks := haccepts.chunks_pos
  have hlength : ∀ q, ∀ i < chunks, (chunk elementsPerChunk (x q) i).length = elementsPerChunk :=
    fun q i _ => length_chunk _ _
  have hbits : ∀ q, ∀ i < chunks, (chunkBits codec (chunk elementsPerChunk (x q) i)).length =
      8 * segmentBytes config elementsPerChunk :=
    fun q i _ => length_chunkBits codec hsplits (length_chunk _ _)
  have hbytes := encodedBytes_eq hsplits hchunks
  refine ⟨fun q data => ?_, fun rank out => ?_, fun rank hrank block out hblock => ?_⟩
  · refine (compress_eq_ok codec (length_join (hlength q)) hpass).mpr ⟨haccepts, hroom, ?_, ?_, rfl⟩
    · rw [hbytes]
      exact dvd_mul_left _ _
    · rw [encodedBits_join codec hsplits hchunks (hlength q)]
  · rw [EncodedEdge.runDecompress, EncodedEdge.runAllGather]
    simp only [join_join_div_mod]
    refine decompress_join codec hsplits haccepts.type haccepts.elements_pos
      (mul_pos hranks hchunks) (fun p _ => length_chunk _ _) ?_ ?_ ?_ ?_ rfl
    · exact mul_comm _ _
    · show encodedBytes _ _ _ * nRanks = _
      rw [hbytes, mul_assoc, mul_comm chunks]
    · exact mul_comm _ _
    · show elementsPerChunk * (chunks * nRanks) = _
      rw [mul_comm chunks]
  · have hpos : 0 < block := pos_of_ne_zero fun h => by simp [hblock, h] at hchunks
    have hsend : (encodedView config elementsPerChunk chunks output).bytes / nRanks =
        block * segmentBytes config elementsPerChunk := by
      show encodedBytes _ _ _ / nRanks = _
      rw [hbytes, hblock, mul_left_comm, Nat.mul_div_cancel_left _ hranks, mul_comm]
    have hpiece : ∀ q, piece (8 * (block * segmentBytes config elementsPerChunk))
        (join chunks fun i => chunkBits codec (chunk elementsPerChunk (x q) i)) rank =
        join block fun j => chunkBits codec (chunk elementsPerChunk (x q) (rank * block + j)) := by
      intro q
      rw [mul_left_comm, hblock]
      exact piece_join_mul (fun i hi => hbits q i (hblock ▸ hi)) hrank
    rw [EncodedEdge.runDecompress, EncodedEdge.runAllToAll]
    simp only [hsend, hpiece, join_join_div_mod]
    refine decompress_join codec hsplits haccepts.type haccepts.elements_pos
      (mul_pos hranks hpos) (fun p _ => length_chunk _ _) hblock ?_ hblock ?_ rfl
    · show encodedBytes _ _ _ = _
      rw [hbytes, hblock]
    · show elementsPerChunk * chunks = _
      rw [hblock]

end

theorem decompress_eq_ok {codec : BlockCodec α config.blockBits} {input output : CompressorView}
    {bits : List Bool} {values : List α} (h : decompress codec input output bits = .ok values) :
    values = join (batches (output.elements / output.chunks) output.chunks) fun batch =>
      codec.zfpDecompress (batchElements (output.elements / output.chunks) output.chunks)
        (piece (8 * (input.bytes / input.chunks *
          chunksPerBatch (output.elements / output.chunks) output.chunks)) bits batch) := by
  unfold decompress at h
  simp only [Checked.ite_error_eq_ok] at h
  exact (Except.ok.inj h.2.2.2).symm

end

/-! ## Chunks that end inside a segment -/

section

variable {blockBits : ℕ} [DecidableEq α] (mark other : α)

/-- A coding of blocks that tells whether the first value is `mark`, in all bits. -/
def markCodec (blockBits : ℕ) : BlockCodec α blockBits where
  encode values := List.replicate blockBits (decide (values.head? = some mark))
  decode n bits := List.replicate n (if bits.head? = some true then mark else other)
  length_encode _ := length_replicate
  length_decode _ _ := length_replicate

theorem markCodec_chunkValues (hbits : 0 < blockBits) (k : ℕ) (x : ℕ → ℕ → α)
    (hx : ∀ i j, x i j = mark) (i : ℕ) :
    (markCodec mark other blockBits).chunkValues (chunk (4 * k) x i) =
      join k fun _ => List.replicate 4 mark := by
  rw [chunkValues_eq, length_chunk, zfpDecompress, blocks_four_mul]
  refine join_congr fun b hb => ?_
  have hblocks : b < blocks (chunk (4 * k) x i).length := by rwa [length_chunk, blocks_four_mul]
  have hhead : (piece zfpBlockElements (chunk (4 * k) x i) b).head? = some mark := by
    rw [piece, head?_take, if_neg (by decide), head?_drop, chunk, zfpBlockElements,
      getElem?_map, getElem?_range (by omega), Option.map_some, hx]
  have hpiece : piece blockBits
      ((markCodec mark other blockBits).encodeBlocks (chunk (4 * k) x i)) b =
      List.replicate blockBits true := by
    rw [encodeBlocks, piece_join (fun _ _ => BlockCodec.length_encode _ _) hblocks]
    exact congrArg _ (decide_eq_true hhead)
  have hfull : min zfpBlockElements (4 * k - b * zfpBlockElements) = 4 := by
    simp only [zfpBlockElements]
    omega
  have hfirst : (List.replicate blockBits true).head? = some true := by
    rw [head?_replicate, if_neg hbits.ne']
  rw [hpiece, hfull]
  simp [markCodec, hfirst]

/-- Chunks of whole blocks that end inside a word: the second of two gathered streams starts
behind the padding of the first, and is read before it. -/
theorem padding_read (hne : mark ≠ other) {k nBlocks : ℕ} {blockBits : ℕ} (hbits : 0 < blockBits)
    {stream : List Bool} {pad : ℕ} (rest : List Bool) (hlength : stream.length = k * blockBits)
    (hpad : 0 < pad) (hk : k < nBlocks) :
    (markCodec mark other blockBits).zfpDecompress (4 * nBlocks)
      (stream ++ List.replicate pad false ++ rest) ≠
      join nBlocks fun _ => List.replicate 4 mark := by
  intro h
  have hread := congrArg (fun values => piece 4 values k) h
  have hfull : min zfpBlockElements (4 * nBlocks - k * zfpBlockElements) = 4 := by
    simp only [zfpBlockElements]
    omega
  have hlengths : ∀ b < nBlocks, ((markCodec mark other blockBits).decode
      (min zfpBlockElements (4 * nBlocks - b * zfpBlockElements))
      (piece blockBits (stream ++ List.replicate pad false ++ rest) b)).length = 4 := by
    intro b hb
    rw [BlockCodec.length_decode]
    simp only [zfpBlockElements]
    omega
  have hhead : (piece blockBits (stream ++ List.replicate pad false ++ rest) k).head? =
      some false := by
    rw [piece, head?_take, if_neg hbits.ne', head?_drop, append_assoc, ← hlength,
      getElem?_append_right le_rfl, Nat.sub_self]
    obtain ⟨pad, rfl⟩ := Nat.exists_eq_succ_of_ne_zero hpad.ne'
    rfl
  simp only [zfpDecompress, blocks_four_mul] at hread
  rw [piece_join hlengths hk, piece_join (fun _ _ => length_replicate) hk, hfull] at hread
  simp only [markCodec, hhead] at hread
  exact hne (by simpa using hread.symm)

end

/-- A whole number of words that is cut into one segment for each chunk: the segments end where the
chunks end. -/
theorem eight_dvd_of_cut {k : ℕ} (hchunks : 0 < chunks)
    (hwords : 64 ∣ chunks * (k * config.blockBits))
    (hcut : chunks ∣ chunks * (k * config.blockBits) / 8) : 8 ∣ k * config.blockBits := by
  obtain ⟨segment, hsegment⟩ := hcut
  have hbits : chunks * (k * config.blockBits) = chunks * (8 * segment) := by
    rw [← Nat.div_mul_cancel (dvd_trans (by decide : 8 ∣ 64) hwords), hsegment]
    ring
  exact ⟨segment, Nat.eq_of_mul_eq_mul_left hchunks hbits⟩

theorem one_ne_zero_of_type (h : zfpType datatype ≠ none) : (1 : Element datatype) ≠ 0 := by
  cases datatype <;> first | exact absurd rfl h | decide

/-- `markCodec` on the elements of a type. -/
def markOnes (config : ZfpConfig) (datatype : DataType) :
    BlockCodec (Element datatype) config.blockBits := markCodec 1 0 _

/-- Chunks of marks. -/
def ones (datatype : DataType) (_ _ : ℕ) : Element datatype := 1

/-- Chunks of whole blocks that end inside a word: in what two ranks gather, the first chunk of the
second rank lies behind the padding of the first rank's stream. -/
theorem gathered_ne {k : ℕ} (hwords : ¬ streamWordBits ∣ chunks * (k * config.blockBits))
    (hchunks : 0 < chunks) (hk : 0 < k) (hcut : chunks ∣ encodedBytes config (4 * k) chunks)
    (htype : zfpType datatype ≠ none) (edges : ℕ → EncodedEdge)
    (hbits : ∀ q, (edges q).bits = (markOnes config datatype).stream
      (join chunks (chunk (4 * k) (ones datatype))))
    (hview : (edges 0).view = encodedView config (4 * k) chunks output) :
    (EncodedEdge.runAllGather 2 0 edges).runDecompress (markOnes config datatype) (4 * k)
        datatype output ≠
      .ok (join 2 fun _ => join chunks fun i =>
        (markOnes config datatype).chunkValues (chunk (4 * k) (ones datatype) i)) := by
  intro h
  have hpos := blockBits_pos config
  have hwhole : 4 * k % 4 = 0 := Nat.mul_mod_right 4 k
  have hlength : (join chunks (chunk (4 * k) (ones datatype))).length = 4 * (chunks * k) := by
    rw [length_join fun i _ => length_chunk _ _]
    ring
  have hstream : ((markOnes config datatype).stream
      (join chunks (chunk (4 * k) (ones datatype)))).length =
      8 * encodedBytes config (4 * k) chunks := by
    rw [length_stream, hlength, encodedBytes_four_mul hchunks, ← streamBits_four_mul,
      Nat.mul_div_cancel' (eight_dvd_streamBits _)]
  have hread := decompress_eq_ok h
  have hedge : (EncodedEdge.runAllGather 2 0 edges).view.chunks = chunks * 2 := by
    show (edges 0).view.chunks * 2 = _
    rw [hview]
    rfl
  have hbytes : (EncodedEdge.runAllGather 2 0 edges).view.bytes =
      encodedBytes config (4 * k) chunks * 2 := by
    show (edges 0).view.bytes * 2 = _
    rw [hview]
    rfl
  simp only [hedge, hbytes, Nat.mul_div_cancel _ (show 0 < chunks * 2 by omega)] at hread
  rw [batches_four_mul (by omega), batchElements_four_mul, chunksPerBatch_of_whole hwhole, join_one,
    Nat.div_mul_cancel (mul_dvd_mul_right hcut 2)] at hread
  have hgathered : (EncodedEdge.runAllGather 2 0 edges).bits =
      (markOnes config datatype).encodeBlocks (join chunks (chunk (4 * k) (ones datatype))) ++
        List.replicate (roundUp streamWordBits (chunks * (k * config.blockBits)) -
          chunks * (k * config.blockBits)) false ++ (edges 1).bits := by
    show join 2 (fun q => (edges q).bits) = _
    rw [join_succ, join_one, hbits 0, stream, padTo, length_encodeBlocks, hlength, blocks_four_mul,
      mul_assoc]
  have hall : (EncodedEdge.runAllGather 2 0 edges).bits.length ≤
      8 * (encodedBytes config (4 * k) chunks * 2) := by
    show (join 2 fun q => (edges q).bits).length ≤ _
    rw [length_join fun q _ => by rw [hbits q, hstream]]
    omega
  have hpad : 0 < roundUp streamWordBits (chunks * (k * config.blockBits)) -
      chunks * (k * config.blockBits) := by
    have hle := @le_roundUp streamWordBits (by decide) (chunks * (k * config.blockBits))
    have hne : roundUp streamWordBits (chunks * (k * config.blockBits)) ≠
        chunks * (k * config.blockBits) := fun h => hwords (h ▸ dvd_roundUp _ _)
    omega
  have hexpected : (join 2 fun _ => join chunks fun i =>
      (markOnes config datatype).chunkValues (chunk (4 * k) (ones datatype) i)) =
      join (2 * (chunks * k)) fun _ => List.replicate 4 (1 : Element datatype) := by
    rw [← join_join 2 (chunks * k)]
    refine join_congr fun _ _ => ?_
    rw [← join_join chunks k]
    exact join_congr fun i _ => markCodec_chunkValues 1 0 (by omega) k _ (fun _ _ => rfl) i
  rw [hexpected, piece_zero hall, hgathered, mul_comm chunks 2, mul_assoc] at hread
  have hsecond : chunks * k < 2 * (chunks * k) := by
    have := mul_pos hchunks hk
    omega
  exact padding_read 1 0 (one_ne_zero_of_type htype) (Nat.zero_lt_of_lt hpos) (edges 1).bits
    (by rw [length_encodeBlocks, hlength, blocks_four_mul]) hpad hsecond hread.symm

/-- Moving chunks one by one needs segments that end where chunks end. -/
theorem splits_of_moves (hpass : ¬ PassesThrough config datatype chunks elementsPerChunk)
    (h : MovesChunks config datatype chunks elementsPerChunk output) :
    Accepts datatype chunks elementsPerChunk ∧
      Room config chunks elementsPerChunk output ∧ Splits config chunks elementsPerChunk := by
  obtain ⟨edges, hcompressed, hgathered, -⟩ := h (markOnes config datatype) 2
    (fun _ => ones datatype) (by decide)
  have hlength : (join chunks (chunk elementsPerChunk (ones datatype))).length =
      chunks * elementsPerChunk := length_join fun i _ => length_chunk _ _
  have hedges := fun q => (compress_eq_ok _ hlength hpass).mp (hcompressed q 0)
  obtain ⟨haccepts, hroom, hdvd, -⟩ := hedges 0
  refine ⟨haccepts, hroom, fun hwhole => ?_⟩
  have hchunks := haccepts.chunks_pos
  obtain ⟨k, rfl⟩ := Nat.dvd_of_mod_eq_zero hwhole
  rw [Nat.mul_div_cancel_left _ (by decide : 0 < 4)]
  by_cases hwords : streamWordBits ∣ chunks * (k * config.blockBits)
  · rw [encodedBytes_four_mul hchunks, roundUp_of_dvd (by decide) hwords] at hdvd
    exact ⟨eight_dvd_of_cut hchunks hwords hdvd, hwords⟩
  · exfalso
    have hk : 0 < k := Nat.pos_of_mul_pos_left haccepts.elements_pos
    refine gathered_ne hwords hchunks hk hdvd haccepts.type edges (fun q => ?_)
      (hedges 0).2.2.2.2 (hgathered 0 output)
    obtain ⟨-, -, -, hpayload, -⟩ := hedges q
    rw [Payload.encoded.inj hpayload, encodedBits, batches_four_mul hchunks, join_one,
      batchElements_four_mul, piece_zero (by rw [hlength]; exact (by ring : _ = _).le)]

/-- **Chunks can be moved one by one just where segments end with chunks.** -/
theorem movesChunks_iff (config : ZfpConfig) (datatype : DataType) (chunks elementsPerChunk : ℕ)
    (output : CompressorView) :
    (¬ PassesThrough config datatype chunks elementsPerChunk →
      MovesChunks config datatype chunks elementsPerChunk output) ↔
    (¬ PassesThrough config datatype chunks elementsPerChunk →
      Accepts datatype chunks elementsPerChunk ∧
      Room config chunks elementsPerChunk output ∧ Splits config chunks elementsPerChunk) := by
  refine forall_congr' fun hpass => ⟨splits_of_moves hpass, ?_⟩
  rintro ⟨haccepts, hroom, hsplits⟩ codec nRanks x hranks
  exact ⟨_, exchanges_of_splits codec hsplits x hranks hpass haccepts hroom⟩

/-- The default rate. -/
def defaultConfig : ZfpConfig := ⟨4, by decide, by decide⟩

def threeOutput : CompressorView := ⟨1, 48, 0, 0, 0, .int8, none, 0⟩

/-- Three chunks of four 32-bit values: their 48 bits make one word, whose eight bytes cannot be cut
in three, so the plugin fails. -/
theorem three_chunks_fail : ¬ PassesThrough defaultConfig .float32 3 4 ∧
    (∀ (codec : BlockCodec (Element .float32) defaultConfig.blockBits) values,
      values.length = 3 * 4 → ∀ encoded,
        compress codec (rawInput 1 .float32 3 4) threeOutput values ≠ .ok encoded) ∧
    ¬ MovesChunks defaultConfig .float32 3 4 threeOutput := by
  have hbound : maxBytes defaultConfig 4 3 = some (32, 32) := by decide
  have hpass : ¬ PassesThrough defaultConfig .float32 3 4 := by
    rintro ⟨-, bounds, hbounds, hlt⟩
    rw [hbound] at hbounds
    obtain rfl := Option.some.inj hbounds
    exact absurd hlt (by decide)
  refine ⟨hpass, fun codec values hlength encoded h => ?_, fun h => ?_⟩
  · obtain ⟨-, -, hdvd, -⟩ := (compress_eq_ok codec hlength hpass).mp h
    exact absurd hdvd (by decide)
  · have hsplits := (splits_of_moves hpass h).2.2 rfl
    exact absurd hsplits.2 (by decide)

end ZfpCompressor

end Coccl
