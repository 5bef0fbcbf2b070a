import Coccl.Compression.Execute
import Coccl.Foundations.Blocks
import Coccl.Foundations.Segments

/-!
# ZFP

`ZfpCompressor`, on the values it moves. In fixed-rate mode the library codes blocks of four values
in a fixed number of bits each and pads a stream with zeros to whole words of 64 bits
(`BlockCodec`). Chunks of whole blocks are coded as one stream, padded at its end only. The bytes
are then cut into segments of equal size, one for each chunk.
-/

namespace Coccl

open Segments Checked

/-! ## The library -/

/-- The element types ZFP is used for. -/
inductive ZfpType where
  | float
  | float16
  | bfloat16
  deriving DecidableEq

def zfpType : DataType → Option ZfpType
  | .float32 => some .float
  | .float16 => some .float16
  | .bfloat16 => some .bfloat16
  | _ => none

/-- `kZfpBlockElements`. -/
def zfpBlockElements : ℕ := 4

/-- `stream_word_bits`. -/
def streamWordBits : ℕ := 64

/-- `ZFP_HEADER_MAX_BITS`. -/
def zfpHeaderMaxBits : ℕ := 148

/-- `ZfpConfig`, as `configure` leaves it. -/
structure ZfpConfig where
  rate : ℕ
  rate_pos : 1 ≤ rate
  rate_le : rate ≤ 64

/-- `zfp_stream_set_rate` in one dimension without alignment: the bits of a block. A block of
floating-point values has room for a sign and an exponent at least. -/
def ZfpConfig.blockBits (config : ZfpConfig) : ℕ := max (4 * config.rate) 9

/-- `zfp_field_blocks` in one dimension. -/
def zfpFieldBlocks (elements : ℕ) : ℕ := sizeAdd elements 3 / zfpBlockElements

/-- `zfp_stream_maximum_size`, with the header's bits. -/
def zfpStreamMaximumSize (blockBits elements : ℕ) : ℕ :=
  sizeAdd (sizeAdd zfpHeaderMaxBits (sizeMul (zfpFieldBlocks elements) blockBits))
    (streamWordBits - 1) / streamWordBits * streamWordBits / 8

/-- An element as its bits. -/
abbrev Element (datatype : DataType) : Type := BitVec (8 * dataTypeSize datatype)

/-- How the library codes one block of at most four values: in `blockBits` bits, back to as many
values as it is asked for. -/
structure BlockCodec (α : Type) (blockBits : ℕ) where
  encode : List α → List Bool
  decode : ℕ → List Bool → List α
  length_encode : ∀ values, (encode values).length = blockBits
  length_decode : ∀ n bits, (decode n bits).length = n

namespace BlockCodec

variable {α : Type} {blockBits : ℕ} (codec : BlockCodec α blockBits)

/-- Blocks of a stream of `elements` values. -/
def blocks (elements : ℕ) : ℕ := (elements + 3) / zfpBlockElements

/-- The blocks of a stream, without padding. -/
def encodeBlocks (values : List α) : List Bool :=
  join (blocks values.length) fun b => codec.encode (piece zfpBlockElements values b)

/-- The bits `zfp_compress` writes. -/
def stream (values : List α) : List Bool := padTo streamWordBits false (codec.encodeBlocks values)

/-- `zfp_compress` into a bit stream of `capacity` bytes. A stream that does not fit is no
result. -/
def zfpCompress (capacity : ℕ) (values : List α) : Option (List Bool) :=
  if (codec.stream values).length ≤ 8 * capacity then some (codec.stream values) else none

/-- `zfp_decompress` of `elements` values. -/
def zfpDecompress (elements : ℕ) (bits : List Bool) : List α :=
  join (blocks elements) fun b =>
    codec.decode (min zfpBlockElements (elements - b * zfpBlockElements)) (piece blockBits bits b)

end BlockCodec

/-! ## The plugin -/

/-- What a compressor leaves in its output. -/
inductive Payload (α : Type) where
  | raw (values : List α)
  | encoded (bits : List Bool)

/-- `maximumCompressedBytes`. -/
def maximumCompressedBytes (blockBits elements : ℕ) : Option ℕ :=
  let maxBytes := zfpStreamMaximumSize blockBits elements
  if elements = 0 ∨ maxBytes = 0 then none else some maxBytes

namespace ZfpCompressor

variable {α : Type} {config : ZfpConfig} (codec : BlockCodec α config.blockBits)

/-- How many chunks are coded as one stream. -/
def chunksPerBatch (elementsPerChunk chunks : ℕ) : ℕ :=
  if elementsPerChunk % zfpBlockElements = 0 then chunks else 1

def batches (elementsPerChunk chunks : ℕ) : ℕ := chunks / chunksPerBatch elementsPerChunk chunks

def batchElements (elementsPerChunk chunks : ℕ) : ℕ :=
  elementsPerChunk * chunksPerBatch elementsPerChunk chunks

/-- The bound on the bytes of a batch and of all batches, where all products fit. -/
def maxBytes (config : ZfpConfig) (elementsPerChunk chunks : ℕ) : Option (ℕ × ℕ) := do
  let batchElements ← mul sizeMax elementsPerChunk (chunksPerBatch elementsPerChunk chunks)
  let maxBatchBytes ← maximumCompressedBytes config.blockBits batchElements
  let maxBytes ← mul sizeMax maxBatchBytes (batches elementsPerChunk chunks)
  some (maxBatchBytes, maxBytes)

/-- The batches from `batch` on, `remaining` of them: each one is written behind the ones before,
and all have as many bytes as the first. -/
def compressBatches (maxBatchBytes batchElements inputBatchBytes typeBytes : ℕ) (values : List α) :
    ℕ → ℕ → ℕ → List Bool → Result (List Bool × ℕ)
  | 0, _, compressedBatchBytes, written => .ok (written, compressedBatchBytes)
  | remaining + 1, batch, compressedBatchBytes, written =>
    match codec.zfpCompress maxBatchBytes
        ((values.drop (batch * inputBatchBytes / typeBytes)).take batchElements) with
    | none => .error .internalError
    | some bits =>
      let bytes := bits.length / 8
      if bytes = 0 ∨ (batch ≠ 0 ∧ bytes ≠ compressedBatchBytes) then .error .internalError
      else compressBatches maxBatchBytes batchElements inputBatchBytes typeBytes values remaining
        (batch + 1) bytes (written ++ bits)

/-- The part of `compress` that encodes: all batches, then the commit of their bytes. -/
def encodeBatches (maxBatchBytes : ℕ) (input output : CompressorView) (values : List α) :
    Result (Payload α × CompressorView) := do
  let elementsPerChunk := input.elementsPerChunk
  let batches := batches elementsPerChunk input.chunks
  let (bits, compressedBatchBytes) ← compressBatches codec maxBatchBytes
    (batchElements elementsPerChunk input.chunks) (input.bytes / batches)
    (dataTypeSize input.datatype) values batches 0 0 []
  let compressedBytes ←
    orElse .invalidArgument (mul sizeMax compressedBatchBytes batches)
  let view ← output.commitBytes compressedBytes input.chunks
  pure (.encoded bits, view)

def compress (input output : CompressorView) (values : List α) :
    Result (Payload α × CompressorView) :=
  if zfpType input.datatype = none ∨ input.elementsPerChunk = 0 ∨ intMax < input.chunks then
    .error .invalidArgument
  else
    match maxBytes config input.elementsPerChunk input.chunks with
    | none => .error .invalidArgument
    | some (maxBatchBytes, maxBytes) =>
      if shouldPassthrough input maxBytes then do
        let view ← output.passthrough input
        pure (.raw values, view)
      else if output.capacityBytes < maxBytes then .error .invalidArgument
      else encodeBatches codec maxBatchBytes input output values

def decompress (input output : CompressorView) (bits : List Bool) : Result (List α) :=
  if zfpType output.datatype = none ∨ output.elements = 0 ∨ output.chunks = 0 ∨
      input.chunks ≠ output.chunks then
    .error .invalidArgument
  else if input.bytes = 0 then .error .invalidArgument
  else if input.bytes % input.chunks ≠ 0 ∨ output.elements % output.chunks ≠ 0 then
    .error .invalidArgument
  else
    let inputChunkBytes := input.bytes / input.chunks
    let outputChunkElements := output.elements / output.chunks
    let inputBatchBytes := inputChunkBytes * chunksPerBatch outputChunkElements output.chunks
    .ok (join (batches outputChunkElements output.chunks) fun batch =>
      codec.zfpDecompress (batchElements outputChunkElements output.chunks)
        (piece (8 * inputBatchBytes) bits batch))

end ZfpCompressor

/-! ## Streams -/

namespace BlockCodec

variable {α : Type} {blockBits : ℕ} (codec : BlockCodec α blockBits)

theorem blocks_four_mul (k : ℕ) : blocks (4 * k) = k := by
  unfold blocks zfpBlockElements
  omega

theorem length_encodeBlocks (values : List α) :
    (codec.encodeBlocks values).length = blocks values.length * blockBits :=
  length_join fun _ _ => codec.length_encode _

/-- The bits of a stream of `elements` values. -/
def streamBits (blockBits elements : ℕ) : ℕ := roundUp streamWordBits (blocks elements * blockBits)

theorem length_stream (values : List α) :
    (codec.stream values).length = streamBits blockBits values.length := by
  rw [stream, length_padTo (by decide), length_encodeBlocks, streamBits]

theorem eight_dvd_streamBits (elements : ℕ) : 8 ∣ streamBits blockBits elements :=
  dvd_trans (by decide : 8 ∣ streamWordBits) (dvd_roundUp _ _)

theorem le_streamBits (elements : ℕ) :
    blocks elements * blockBits ≤ streamBits blockBits elements :=
  le_roundUp (by decide) _

/-- Decoding sees the blocks only. -/
theorem zfpDecompress_append {elements : ℕ} {bits : List Bool} (rest : List Bool)
    (h : blocks elements * blockBits ≤ bits.length) :
    codec.zfpDecompress elements (bits ++ rest) = codec.zfpDecompress elements bits := by
  refine join_congr fun b hb => ?_
  rw [piece_append _ ((Blocks.mul_add_le hb).trans h)]

/-- The values a reader gets for a chunk that is coded alone. -/
def chunkValues (chunk : List α) : List α := codec.zfpDecompress chunk.length (codec.stream chunk)

theorem chunkValues_eq (chunk : List α) :
    codec.chunkValues chunk = codec.zfpDecompress chunk.length (codec.encodeBlocks chunk) :=
  codec.zfpDecompress_append _ (codec.length_encodeBlocks chunk).ge

/-- Chunks of whole blocks, coded as one list of values. -/
theorem encodeBlocks_join {m k : ℕ} {chunk : ℕ → List α} (h : ∀ i < m, (chunk i).length = k * 4) :
    codec.encodeBlocks (join m chunk) = join m fun i => codec.encodeBlocks (chunk i) := by
  have hblocks : blocks (join m chunk).length = m * k := by
    rw [length_join h, show m * (k * 4) = 4 * (m * k) by ring, blocks_four_mul]
  rw [encodeBlocks, hblocks, ← join_join]
  refine join_congr fun i hi => ?_
  rw [encodeBlocks, h i hi, mul_comm k 4, blocks_four_mul]
  refine join_congr fun b hb => ?_
  have hpiece := @piece_piece α zfpBlockElements k i b (join m chunk) hb
  rw [show k * zfpBlockElements = k * 4 from rfl, piece_join h hi] at hpiece
  rw [hpiece]

/-- Chunks of whole blocks, decoded from one stream. -/
theorem zfpDecompress_join {m k : ℕ} {bits : ℕ → List Bool}
    (h : ∀ i < m, (bits i).length = k * blockBits) :
    codec.zfpDecompress (4 * k * m) (join m bits) =
      join m fun i => codec.zfpDecompress (4 * k) (bits i) := by
  rw [zfpDecompress, show 4 * k * m = 4 * (m * k) by ring, blocks_four_mul, ← join_join]
  refine join_congr fun i hi => ?_
  rw [zfpDecompress, blocks_four_mul]
  refine join_congr fun b hb => ?_
  have hpiece := @piece_piece _ blockBits k i b (join m bits) hb
  rw [piece_join h hi] at hpiece
  have hfull : 4 ≤ 4 * (m * k) - (i * k + b) * 4 := by
    have := @Blocks.mul_add_le _ k _ hi
    omega
  have hfull' : 4 ≤ 4 * k - b * 4 := by omega
  rw [hpiece, zfpBlockElements, min_eq_left hfull, min_eq_left hfull']

end BlockCodec

namespace ZfpCompressor

open BlockCodec

variable {α : Type} {config : ZfpConfig} {elementsPerChunk chunks : ℕ}

theorem blockBits_pos (config : ZfpConfig) : 9 ≤ config.blockBits := le_max_right _ _

/-- A stream of some values has a block. -/
theorem nine_le_streamBits (config : ZfpConfig) {elements : ℕ} (h : 0 < elements) :
    9 ≤ streamBits config.blockBits elements := by
  have hblocks : 1 ≤ blocks elements := by
    unfold blocks zfpBlockElements
    omega
  exact (Nat.mul_le_mul hblocks (blockBits_pos config)).trans (le_streamBits elements)

/-! ## Batches -/

theorem chunksPerBatch_of_whole (h : elementsPerChunk % 4 = 0) :
    chunksPerBatch elementsPerChunk chunks = chunks := if_pos h

theorem chunksPerBatch_of_part (h : elementsPerChunk % 4 ≠ 0) :
    chunksPerBatch elementsPerChunk chunks = 1 := if_neg h

theorem batches_mul_chunksPerBatch (hchunks : 0 < chunks) :
    batches elementsPerChunk chunks * chunksPerBatch elementsPerChunk chunks = chunks := by
  unfold batches chunksPerBatch
  split
  · rw [Nat.div_self hchunks, one_mul]
  · rw [Nat.div_one, mul_one]

theorem batches_mul_batchElements (hchunks : 0 < chunks) :
    batches elementsPerChunk chunks * batchElements elementsPerChunk chunks =
      chunks * elementsPerChunk := by
  rw [batchElements, mul_left_comm, batches_mul_chunksPerBatch hchunks, mul_comm]

theorem batches_pos (hchunks : 0 < chunks) : 0 < batches elementsPerChunk chunks :=
  Nat.pos_of_mul_pos_right ((batches_mul_chunksPerBatch hchunks).symm ▸ hchunks)

theorem batchElements_pos (hn : 0 < elementsPerChunk) (hchunks : 0 < chunks) :
    0 < batchElements elementsPerChunk chunks :=
  Nat.pos_of_mul_pos_left ((batches_mul_batchElements hchunks).symm ▸ mul_pos hchunks hn)

/-! ## Sizes -/

/-- The size of a batch's stream, header included, does not wrap. -/
def Fits (config : ZfpConfig) (elementsPerChunk chunks : ℕ) : Prop :=
  blocks (batchElements elementsPerChunk chunks) * config.blockBits + 211 ≤ sizeMax

/-- The bytes a batch's stream is given. -/
def maxBatchBytes (config : ZfpConfig) (elementsPerChunk chunks : ℕ) : ℕ :=
  zfpStreamMaximumSize config.blockBits (batchElements elementsPerChunk chunks)

/-- A size that wrapped is smaller than the stream. -/
theorem streamBits_le_iff {blockBits elements : ℕ} (hpos : 9 ≤ blockBits) :
    streamBits blockBits elements ≤ 8 * zfpStreamMaximumSize blockBits elements ↔
      blocks elements * blockBits + 211 ≤ sizeMax := by
  have hle : blocks elements * 9 ≤ blocks elements * blockBits := Nat.mul_le_mul_left _ hpos
  have hblocks : 4 * blocks elements ≥ elements := by
    unfold blocks zfpBlockElements
    omega
  unfold streamBits zfpStreamMaximumSize zfpFieldBlocks roundUp
  simp only [streamWordBits, zfpHeaderMaxBits]
  constructor
  · intro h
    by_contra hwraps
    simp only [sizeMax] at hwraps
    rcases lt_or_ge (blocks elements * blockBits) (2 ^ 64) with hlt | hge
    · have hfield : sizeAdd elements 3 / zfpBlockElements = blocks elements := by
        rw [sizeAdd_eq (by simp only [sizeMax]; omega), blocks]
      rw [hfield, sizeMul_eq (by simp only [sizeMax]; omega)] at h
      simp only [sizeAdd, sizeMax] at h
      omega
    · simp only [sizeAdd, sizeMax] at h
      omega
  · intro h
    have hfield : sizeAdd elements 3 / zfpBlockElements = blocks elements := by
      rw [sizeAdd_eq (by simp only [sizeMax] at h ⊢; omega), blocks]
    rw [hfield, sizeMul_eq (by omega), sizeAdd_eq (a := 148) (by omega), sizeAdd_eq (by omega)]
    omega

theorem maxBytes_eq_some {bounds : ℕ × ℕ} : maxBytes config elementsPerChunk chunks = some bounds ↔
      batchElements elementsPerChunk chunks ≤ sizeMax ∧
      batchElements elementsPerChunk chunks ≠ 0 ∧
      maxBatchBytes config elementsPerChunk chunks ≠ 0 ∧
      maxBatchBytes config elementsPerChunk chunks * batches elementsPerChunk chunks ≤ sizeMax ∧
      bounds = (maxBatchBytes config elementsPerChunk chunks,
        maxBatchBytes config elementsPerChunk chunks * batches elementsPerChunk chunks) := by
  simp only [maxBytes, Option.bind_eq_bind, Option.bind_eq_some_iff, mul_eq_some,
    maximumCompressedBytes, Option.ite_none_left_eq_some, Option.some.injEq, not_or]
  constructor
  · rintro ⟨_, ⟨rfl, helements⟩, _, ⟨⟨hpos, hbytes⟩, rfl⟩, _, ⟨rfl, hmax⟩, rfl⟩
    exact ⟨helements, hpos, hbytes, hmax, rfl⟩
  · rintro ⟨helements, hpos, hbytes, hmax, rfl⟩
    exact ⟨_, ⟨rfl, helements⟩, _, ⟨⟨hpos, hbytes⟩, rfl⟩, _, ⟨rfl, hmax⟩, rfl⟩

section

variable (codec : BlockCodec α config.blockBits)

/-- The loop over batches of equal length: each stream must fit the bytes it is given. -/
theorem compressBatches_eq {maxBatchBytes elements typeBytes : ℕ} {values : List α}
    (helements : 0 < elements) (htype : 0 < typeBytes) (remaining batch compressedBatchBytes : ℕ)
    (written : List Bool) (hlength : values.length = (batch + remaining) * elements)
    (hbytes : batch ≠ 0 → compressedBatchBytes = streamBits config.blockBits elements / 8) :
    compressBatches codec maxBatchBytes elements (elements * typeBytes) typeBytes values remaining
        batch compressedBatchBytes written =
      if remaining = 0 then .ok (written, compressedBatchBytes)
      else if streamBits config.blockBits elements ≤ 8 * maxBatchBytes then
        .ok (written ++ join remaining fun j => codec.stream (piece elements values (batch + j)),
          streamBits config.blockBits elements / 8)
      else .error .internalError := by
  induction remaining generalizing batch compressedBatchBytes written with
  | zero => rfl
  | succ remaining ih =>
    have hfull : batch * elements + elements ≤ values.length := by
      rw [hlength]
      exact Blocks.mul_add_le (by omega)
    have hpiece : (values.drop (batch * (elements * typeBytes) / typeBytes)).take elements =
        piece elements values batch := by
      rw [← mul_assoc, Nat.mul_div_cancel _ htype, piece]
    have hstream : (codec.stream (piece elements values batch)).length =
        streamBits config.blockBits elements := by
      rw [length_stream, length_piece hfull]
    have hpos : streamBits config.blockBits elements / 8 ≠ 0 := by
      have := nine_le_streamBits config helements
      omega
    rw [compressBatches, hpiece, zfpCompress, hstream, if_neg (Nat.succ_ne_zero _)]
    by_cases hfits : streamBits config.blockBits elements ≤ 8 * maxBatchBytes
    · rw [if_pos hfits, if_pos hfits]
      simp only [hstream]
      rw [if_neg, ih (batch + 1) _ _ (by rw [hlength]; ring) fun _ => rfl, join_succ',
        List.append_assoc]
      · by_cases hlast : remaining = 0
        · simp [hlast, join]
        · simp only [if_neg hlast, if_pos hfits, add_zero]
          congr 6
          funext j
          congr 2
          omega
      · rintro (hzero | ⟨hbatch, hne⟩)
        · exact hpos hzero
        · exact hne (hbytes hbatch).symm
    · rw [if_neg hfits, if_neg hfits]

/-- A buffer of raw chunks. -/
def rawInput (data : ℕ) (datatype : DataType) (chunks elementsPerChunk : ℕ) : CompressorView where
  data := data
  capacityBytes := chunks * elementsPerChunk * dataTypeSize datatype
  bytes := chunks * elementsPerChunk * dataTypeSize datatype
  elements := chunks * elementsPerChunk
  chunks := chunks
  datatype := datatype
  frameMetadata := none
  frameStrideBytes := 0

theorem rawInput_elementsPerChunk (data : ℕ) (datatype : DataType) (hchunks : 0 < chunks) :
    (rawInput data datatype chunks elementsPerChunk).elementsPerChunk = elementsPerChunk :=
  (if_neg hchunks.ne').trans (Nat.mul_div_cancel_left _ hchunks)

/-- The checks of the plugin on the shape of its input. -/
structure Accepts (datatype : DataType) (chunks elementsPerChunk : ℕ) : Prop where
  type : zfpType datatype ≠ none
  elements_pos : 0 < elementsPerChunk
  chunks_pos : 0 < chunks
  chunks_le : chunks ≤ intMax

/-- The plugin passes its input through: the bound on what it would encode exceeds it. -/
def PassesThrough (config : ZfpConfig) (datatype : DataType) (chunks elementsPerChunk : ℕ) : Prop :=
  Accepts datatype chunks elementsPerChunk ∧
    ∃ bounds, maxBytes config elementsPerChunk chunks = some bounds ∧
      chunks * elementsPerChunk * dataTypeSize datatype < bounds.2

/-- The bytes of all streams. -/
def encodedBytes (config : ZfpConfig) (elementsPerChunk chunks : ℕ) : ℕ :=
  streamBits config.blockBits (batchElements elementsPerChunk chunks) / 8 *
    batches elementsPerChunk chunks

/-- The view of an encoded output. -/
def encodedView (config : ZfpConfig) (elementsPerChunk chunks : ℕ) (output : CompressorView) :
    CompressorView :=
  { output with
    bytes := encodedBytes config elementsPerChunk chunks
    elements := encodedBytes config elementsPerChunk chunks
    chunks := chunks
    datatype := .int8 }

/-- The bits of all streams. -/
def encodedBits (elementsPerChunk chunks : ℕ) (values : List α) : List Bool :=
  join (batches elementsPerChunk chunks) fun batch =>
    codec.stream (piece (batchElements elementsPerChunk chunks) values batch)

/-- There is room for what may be encoded. -/
structure Room (config : ZfpConfig) (chunks elementsPerChunk : ℕ) (output : CompressorView) :
    Prop where
  data : output.data ≠ 0
  fits : Fits config elementsPerChunk chunks
  product : maxBatchBytes config elementsPerChunk chunks * batches elementsPerChunk chunks ≤ sizeMax
  capacity : maxBatchBytes config elementsPerChunk chunks * batches elementsPerChunk chunks ≤
    output.capacityBytes

variable {datatype : DataType}

theorem dataTypeSize_pos (h : zfpType datatype ≠ none) : 2 ≤ dataTypeSize datatype := by
  cases datatype <;> first | exact absurd rfl h | decide

theorem rawInput_batchBytes (data : ℕ) (datatype : DataType) (hchunks : 0 < chunks) :
    (rawInput data datatype chunks elementsPerChunk).bytes / batches elementsPerChunk chunks =
      batchElements elementsPerChunk chunks * dataTypeSize datatype := by
  rw [rawInput, ← batches_mul_batchElements hchunks, mul_assoc,
    Nat.mul_div_cancel_left _ (batches_pos hchunks)]

theorem fits_iff : streamBits config.blockBits (batchElements elementsPerChunk chunks) ≤
    8 * maxBatchBytes config elementsPerChunk chunks ↔ Fits config elementsPerChunk chunks :=
  streamBits_le_iff (blockBits_pos config)

theorem Fits.batchElements_le (h : Fits config elementsPerChunk chunks) :
    batchElements elementsPerChunk chunks ≤ sizeMax := by
  unfold Fits blocks zfpBlockElements at h
  have := Nat.mul_le_mul_left ((batchElements elementsPerChunk chunks + 3) / 4)
    (blockBits_pos config)
  omega

theorem maxBatchBytes_pos (helements : 0 < batchElements elementsPerChunk chunks)
    (h : Fits config elementsPerChunk chunks) :
    maxBatchBytes config elementsPerChunk chunks ≠ 0 := by
  have hfits := fits_iff.mpr h
  have := nine_le_streamBits config helements
  omega

theorem encodedBytes_le (h : Fits config elementsPerChunk chunks) :
    encodedBytes config elementsPerChunk chunks ≤
      maxBatchBytes config elementsPerChunk chunks * batches elementsPerChunk chunks :=
  Nat.mul_le_mul_right _ (Nat.div_le_of_le_mul (fits_iff.mpr h))

instance (config : ZfpConfig) (elementsPerChunk chunks : ℕ) :
    Decidable (Fits config elementsPerChunk chunks) :=
  inferInstanceAs (Decidable (_ ≤ _))

/-- The first check of `compress`. -/
theorem accepts_iff (data : ℕ) {datatype : DataType} :
    (¬ (zfpType (rawInput data datatype chunks elementsPerChunk).datatype = none ∨
      (rawInput data datatype chunks elementsPerChunk).elementsPerChunk = 0 ∨
      intMax < (rawInput data datatype chunks elementsPerChunk).chunks)) ↔
      Accepts datatype chunks elementsPerChunk := by
  rcases eq_zero_or_pos chunks with rfl | hchunks
  · exact iff_of_false (fun h => h (.inr (.inl rfl))) fun h => absurd h.chunks_pos (lt_irrefl 0)
  · rw [rawInput_elementsPerChunk data datatype hchunks]
    simp only [not_or, not_lt]
    exact ⟨fun ⟨htype, hn, hle⟩ => ⟨htype, pos_of_ne_zero hn, hchunks, hle⟩,
      fun h => ⟨h.type, h.elements_pos.ne', h.chunks_le⟩⟩

variable {payload : Payload α} {data : ℕ}

theorem encodeBatches_eq_ok {output view : CompressorView} {values : List α}
    (hlength : values.length = chunks * elementsPerChunk)
    (haccepts : Accepts datatype chunks elementsPerChunk) (hproduct : maxBatchBytes config
      elementsPerChunk chunks * batches elementsPerChunk chunks ≤ sizeMax) :
    encodeBatches codec (maxBatchBytes config elementsPerChunk chunks)
        (rawInput data datatype chunks elementsPerChunk) output values = .ok (payload, view) ↔
      Fits config elementsPerChunk chunks ∧ output.data ≠ 0 ∧
      chunks ∣ encodedBytes config elementsPerChunk chunks ∧
      encodedBytes config elementsPerChunk chunks ≤ output.capacityBytes ∧
      payload = .encoded (encodedBits codec elementsPerChunk chunks values) ∧
      view = encodedView config elementsPerChunk chunks output := by
  have hchunks := haccepts.chunks_pos
  have helements := batchElements_pos haccepts.elements_pos hchunks
  have htype : 0 < dataTypeSize datatype := (dataTypeSize_pos haccepts.type).trans' (by decide)
  have hloop := @compressBatches_eq α config codec
    (maxBatchBytes config elementsPerChunk chunks) _ _ values helements htype
    (batches elementsPerChunk chunks) 0 0 []
    (by rw [hlength, zero_add, batches_mul_batchElements hchunks]) (fun h => absurd rfl h)
  rw [if_neg (batches_pos hchunks).ne', List.nil_append] at hloop
  simp only [zero_add, fits_iff] at hloop
  unfold encodeBatches
  simp only [rawInput_elementsPerChunk data datatype hchunks]
  rw [show (rawInput data datatype chunks elementsPerChunk).chunks = chunks from rfl,
    rawInput_batchBytes data datatype hchunks,
    show (rawInput data datatype chunks elementsPerChunk).datatype = datatype from rfl, hloop]
  by_cases hfits : Fits config elementsPerChunk chunks
  · have hbytes := (encodedBytes_le hfits).trans hproduct
    have hmul : mul sizeMax
        (streamBits config.blockBits (batchElements elementsPerChunk chunks) / 8)
        (batches elementsPerChunk chunks) = some (encodedBytes config elementsPerChunk chunks) :=
      mul_eq_some.mpr ⟨rfl, hbytes⟩
    rw [if_pos hfits]
    change (orElse NcclError.invalidArgument (mul sizeMax _ _) >>= _) = _ ↔ _
    rw [hmul]
    change (output.commitBytes (encodedBytes config elementsPerChunk chunks) chunks >>= _) = _ ↔ _
    rw [bind_eq_ok]
    simp only [CompressorView.commitBytes_eq_ok hbytes hchunks, hfits, true_and]
    constructor
    · rintro ⟨_, ⟨hdata, hdvd, hle, rfl⟩, h⟩
      cases h
      exact ⟨hdata, hdvd, hle, rfl, rfl⟩
    · rintro ⟨hdata, hdvd, hle, rfl, rfl⟩
      exact ⟨_, ⟨hdata, hdvd, hle, rfl⟩, rfl⟩
  · rw [if_neg hfits]
    exact iff_of_false nofun fun h => hfits h.1

/-- **What the plugin does with an input it does not pass through.** It succeeds where the shape is
accepted, there is room and the streams' bytes can be cut into one segment for each chunk. -/
theorem compress_eq_ok {output view : CompressorView} {values : List α}
    (hlength : values.length = chunks * elementsPerChunk)
    (hpass : ¬ PassesThrough config datatype chunks elementsPerChunk) :
    compress codec (rawInput data datatype chunks elementsPerChunk) output values =
        .ok (payload, view) ↔
      Accepts datatype chunks elementsPerChunk ∧
      Room config chunks elementsPerChunk output ∧
      chunks ∣ encodedBytes config elementsPerChunk chunks ∧
      payload = .encoded (encodedBits codec elementsPerChunk chunks values) ∧
      view = encodedView config elementsPerChunk chunks output := by
  unfold compress
  rw [ite_error_eq_ok, @accepts_iff _ _ data]
  refine and_congr_right fun haccepts => ?_
  have hchunks := haccepts.chunks_pos
  rw [rawInput_elementsPerChunk data datatype hchunks,
    show (rawInput data datatype chunks elementsPerChunk).chunks = chunks from rfl]
  cases hbounds : maxBytes config elementsPerChunk chunks with
  | none =>
    refine iff_of_false nofun fun ⟨hroom, _⟩ => ?_
    have helements := batchElements_pos haccepts.elements_pos hchunks
    have hsome := maxBytes_eq_some.mpr ⟨hroom.fits.batchElements_le, helements.ne',
      maxBatchBytes_pos helements hroom.fits, hroom.product, rfl⟩
    rw [hbounds] at hsome
    cases hsome
  | some bounds =>
    obtain ⟨-, -, -, hproduct, rfl⟩ := maxBytes_eq_some.mp hbounds
    have hraw : ¬ shouldPassthrough (rawInput data datatype chunks elementsPerChunk)
        (maxBatchBytes config elementsPerChunk chunks * batches elementsPerChunk chunks) =
        true := fun h => hpass ⟨haccepts, _, hbounds, of_decide_eq_true h⟩
    simp only [if_neg hraw, ite_error_eq_ok, not_lt,
      encodeBatches_eq_ok codec hlength haccepts hproduct]
    constructor
    · rintro ⟨hcapacity, hfits, hdata, hdvd, -, h⟩
      exact ⟨⟨hdata, hfits, hproduct, hcapacity⟩, hdvd, h⟩
    · rintro ⟨hroom, hdvd, h⟩
      exact ⟨hroom.capacity, hroom.fits, hroom.data, hdvd,
        (encodedBytes_le hroom.fits).trans hroom.capacity, h⟩

end

end ZfpCompressor

end Coccl
