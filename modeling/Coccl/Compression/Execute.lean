import Coccl.Compression.Plugin

/-!
# Running a compressor

The calls the pipeline's stages make into a compressor, by the sizes they move: the views of the
buffers, what the plugin commits, the core's check of an encoded output, and the generic paths that
decode into scratch memory first. What a plugin commits is its own affair
(`CompressorRuntime.execute`). Copies and kernels are taken to succeed.
-/

namespace Coccl

open Checked

/-! ## Views and commits -/

/-- A buffer as a compressor sees it. `data` and `frameMetadata` are addresses. -/
structure CompressorView where
  data : ℕ
  capacityBytes : ℕ
  bytes : ℕ
  elements : ℕ
  chunks : ℕ
  datatype : DataType
  frameMetadata : Option ℕ
  frameStrideBytes : ℕ

/-- `COCCL_COMPRESSOR_RAW_PASSTHROUGH`: marks an output that holds the raw input. -/
def compressorRawPassthrough : DataType := .uint8

/-- `dataTypeSize`: `0` for anything that is not an element type. -/
def dataTypeSize (datatype : DataType) : ℕ := (ncclTypeSize datatype).toNat

structure CompressorCall where
  operation : CompressorOperation
  input : CompressorView
  output : CompressorView
  reduceChunks : ℕ
  originalDatatype : DataType
  originalElements : ℕ

/-- The arguments of the last `Output::commit` of a call. -/
structure Commit where
  elements : ℕ
  datatype : DataType
  chunks : ℕ

/-- `Output::commit`. -/
def CompressorView.commit (view : CompressorView) (args : Commit) : Result CompressorView :=
  let typeBytes := dataTypeSize args.datatype
  if view.data = 0 ∨ args.chunks = 0 ∨ args.elements % args.chunks ≠ 0 ∨ typeBytes = 0 ∨
      (args.elements ≠ 0 ∧ sizeMax / args.elements < typeBytes) then
    .error .invalidArgument
  else if view.capacityBytes < args.elements * typeBytes then .error .invalidArgument
  else
    .ok { view with
      bytes := args.elements * typeBytes
      elements := args.elements
      chunks := args.chunks
      datatype := args.datatype }

/-- `Output::commitPlanned`. -/
def CompressorView.commitPlanned (view : CompressorView) : Result CompressorView :=
  view.commit ⟨view.elements, view.datatype, view.chunks⟩

/-- `shouldPassthrough`. -/
def shouldPassthrough (input : CompressorView) (encodedBytes : ℕ) : Bool :=
  input.bytes < encodedBytes

/-- `Input::elementsPerChunk`. -/
def CompressorView.elementsPerChunk (view : CompressorView) : ℕ :=
  if view.chunks = 0 then 0 else view.elements / view.chunks

/-- `Output::passthrough`. -/
def CompressorView.passthrough (output input : CompressorView) : Result CompressorView :=
  if output.data = 0 ∨ input.data = 0 ∨ output.capacityBytes < input.bytes then
    .error .invalidArgument
  else output.commit ⟨input.bytes, compressorRawPassthrough, input.chunks⟩

/-- `Output::commitBytes`. -/
def CompressorView.commitBytes (output : CompressorView) (bytes chunks : ℕ) :
    Result CompressorView :=
  output.commit ⟨bytes, .int8, chunks⟩

variable {output view : CompressorView} {args : Commit}

/-- Bytes are committed where they fit and split evenly. -/
theorem CompressorView.commit_eq_ok (hone : dataTypeSize args.datatype = 1)
    (hbytes : args.elements ≤ sizeMax) (hchunks : 0 < args.chunks) : output.commit args = .ok view ↔
      output.data ≠ 0 ∧ args.chunks ∣ args.elements ∧ args.elements ≤ output.capacityBytes ∧
      view = { output with
        bytes := args.elements, elements := args.elements, chunks := args.chunks
        datatype := args.datatype } := by
  have hquot : ¬ (args.elements ≠ 0 ∧ sizeMax / args.elements < 1) := by
    rintro ⟨hne, hlt⟩
    have := Nat.div_pos hbytes (pos_of_ne_zero hne)
    omega
  unfold CompressorView.commit
  simp only [hone, mul_one, ite_error_eq_ok, not_or, hquot, hchunks.ne',
    Nat.one_ne_zero, not_false_eq_true, and_true, true_and, not_lt, Decidable.not_not,
    Except.ok.injEq,
    Nat.dvd_iff_mod_eq_zero, eq_comm (b := view)]
  tauto

/-- `commitBytes` accepts bytes that fit and split evenly. -/
theorem CompressorView.commitBytes_eq_ok {bytes chunks : ℕ} (hbytes : bytes ≤ sizeMax)
    (hchunks : 0 < chunks) : output.commitBytes bytes chunks = .ok view ↔
      output.data ≠ 0 ∧ chunks ∣ bytes ∧ bytes ≤ output.capacityBytes ∧
      view = { output with
        bytes := bytes, elements := bytes, chunks := chunks, datatype := .int8 } :=
  CompressorView.commit_eq_ok rfl hbytes hchunks

/-- `INT_MAX`. -/
def intMax : ℕ := 2 ^ 31 - 1

/-- The plugins and the scratch pool of a process: what a plugin commits in a call, if anything,
and the address and bytes of a scratch buffer. -/
structure CompressorRuntime (κ : Type) where
  execute : κ → CompressorCall → Result (Option Commit)
  getUnregisteredBuffer : ℕ → Result (ℕ × ℕ)

def encodedOutput (operation : CompressorOperation) : Bool :=
  operation = .compress ∨ operation = .decompressReduceCompress

def validateEncodedOutput (output : CompressorView) (expectedChunks : ℕ) : Result CompressorView :=
  let typeBytes := dataTypeSize output.datatype
  if output.data = 0 ∨ output.chunks ≠ expectedChunks ∨ output.chunks = 0 ∨
      output.elements % output.chunks ≠ 0 ∨
      (output.datatype ≠ .int8 ∧ output.datatype ≠ compressorRawPassthrough) ∨
      typeBytes = 0 ∨ sizeMul output.elements typeBytes ≠ output.bytes ∨
      output.capacityBytes < output.bytes then
    .error .invalidUsage
  else .ok output

section

variable {κ : Type} (plugins : κ → Plugin) (runtime : CompressorRuntime κ)

/-- The plugin's side of a call: an encoded output must be committed, any other is committed as
planned by default. -/
def executePlugin (policy : κ) (call : CompressorCall) : Result CompressorView := do
  let committed ← runtime.execute policy call
  match committed with
  | some args => call.output.commit args
  | none =>
    if encodedOutput call.operation then .error .invalidUsage else call.output.commitPlanned

def cocclExecuteCompressor (compressor : Option κ) (call : CompressorCall) :
    Result CompressorView :=
  match compressor with
  | none => .error .invalidArgument
  | some policy => do
    let output ← executePlugin runtime policy call
    match call.operation with
    | .compress => validateEncodedOutput output call.input.chunks
    | .decompressReduceCompress =>
      validateEncodedOutput output (call.input.chunks / call.reduceChunks)
    | .decompress | .decompressReduce => .ok output

def CompressorRuntime.ncclCompress (compressor : Option κ) (input output : CompressorView) :
    Result CompressorView :=
  cocclExecuteCompressor runtime compressor
    ⟨.compress, input, output, 0, input.datatype, input.elements⟩

/-- A raw input is copied. -/
def CompressorRuntime.ncclDecompress (compressor : Option κ) (input output : CompressorView) :
    Result CompressorView :=
  if input.datatype = compressorRawPassthrough then
    if output.capacityBytes < input.bytes then .error .invalidUsage
    else .ok { output with bytes := input.bytes }
  else
    cocclExecuteCompressor runtime compressor
      ⟨.decompress, input, output, 0, output.datatype, output.elements⟩

/-- Decode into scratch memory, for `elements` elements after the reduction. -/
def decompressToScratch (compressor : Option κ) (input : CompressorView) (datatype : DataType)
    (elements reduceChunks : ℕ) : Result (ℕ × CompressorView) := do
  let decompressedElements := sizeMul elements reduceChunks
  let decompressedBytes := sizeMul decompressedElements (dataTypeSize datatype)
  let workspace ← runtime.getUnregisteredBuffer decompressedBytes
  let decompressed ← runtime.ncclDecompress compressor input
    ⟨workspace.1, workspace.2, decompressedBytes, decompressedElements, input.chunks, datatype,
      none, 0⟩
  pure (workspace.1, decompressed)

def CompressorRuntime.ncclDecompressReduce (compressor : Option κ) (input output : CompressorView)
    (reduceChunks : ℕ) : Result CompressorView :=
  if input.frameMetadata = none ∧ input.datatype ≠ compressorRawPassthrough ∧
      cocclCompressorSupports plugins compressor .decompressReduce then
    cocclExecuteCompressor runtime compressor
      ⟨.decompressReduce, input, output, reduceChunks, output.datatype, output.elements⟩
  else do
    let _ ← decompressToScratch runtime compressor input output.datatype output.elements
      reduceChunks
    pure { output with
      bytes := sizeMul output.elements (dataTypeSize output.datatype)
      chunks := input.chunks / reduceChunks }

def CompressorRuntime.ncclDecompReduceComp [DecidableEq κ] (decoder encoder : Option κ)
    (input output : CompressorView) (reduceChunks : ℕ) (originalDatatype : DataType)
    (originalElements : ℕ) : Result CompressorView :=
  if input.frameMetadata = none ∧ input.datatype ≠ compressorRawPassthrough ∧
      decoder = encoder ∧ cocclCompressorSupports plugins decoder .decompressReduceCompress then
    cocclExecuteCompressor runtime decoder
      ⟨.decompressReduceCompress, input, output, reduceChunks, originalDatatype, originalElements⟩
  else do
    let workspace ← decompressToScratch runtime decoder input originalDatatype originalElements
      reduceChunks
    let reducedBytes := sizeMul originalElements (dataTypeSize originalDatatype)
    runtime.ncclCompress encoder
      ⟨workspace.1, reducedBytes, reducedBytes, originalElements, input.chunks / reduceChunks,
        originalDatatype, none, 0⟩ output

end

/-! ## What a call leaves -/

/-- `view` is `output` after a call that left `chunks` chunks of equal size inside its capacity. -/
structure Fills (output view : CompressorView) (chunks : ℕ) : Prop where
  data : view.data = output.data
  frameMetadata : view.frameMetadata = output.frameMetadata
  frameStrideBytes : view.frameStrideBytes = output.frameStrideBytes
  chunks_eq : view.chunks = chunks
  dvd : chunks ∣ view.bytes
  bytes_le : view.bytes ≤ output.capacityBytes

theorem CompressorView.commit_fills (h : output.commit args = .ok view) :
    Fills output view args.chunks := by
  obtain ⟨hargs, h⟩ := ite_error_eq_ok.mp h
  obtain ⟨hcapacity, h⟩ := ite_error_eq_ok.mp h
  simp only [not_or, not_not] at hargs
  obtain rfl := Except.ok.inj h
  exact ⟨rfl, rfl, rfl, rfl, (Nat.dvd_of_mod_eq_zero hargs.2.2.1).mul_right _, not_lt.mp hcapacity⟩

theorem validateEncodedOutput_eq {chunks : ℕ} (h : validateEncodedOutput output chunks = .ok view) :
    view = output ∧ output.chunks = chunks := by
  obtain ⟨hvalid, h⟩ := ite_error_eq_ok.mp h
  simp only [not_or, not_not] at hvalid
  exact ⟨(Except.ok.inj h).symm, hvalid.2.1⟩

section

variable {κ : Type} {plugins : κ → Plugin} {runtime : CompressorRuntime κ}

/-- A plugin that decodes commits what was planned for its output. -/
def DecodesAsPlanned (runtime : CompressorRuntime κ) : Prop :=
  ∀ policy call args, encodedOutput call.operation = false →
    runtime.execute policy call = .ok (some args) →
      args.chunks = call.output.chunks

variable {call : CompressorCall} {view : CompressorView} {policy : κ}

theorem executePlugin_fills (h : executePlugin runtime policy call = .ok view) :
    Fills call.output view view.chunks ∧
      (DecodesAsPlanned runtime → encodedOutput call.operation = false →
        view.chunks = call.output.chunks) := by
  obtain ⟨committed, hcommitted, h⟩ := bind_eq_ok.mp h
  cases committed with
  | some args =>
    have hfills := CompressorView.commit_fills h
    refine ⟨hfills.chunks_eq ▸ hfills, fun hdecodes hoperation => ?_⟩
    rw [hfills.chunks_eq]
    exact hdecodes policy call args hoperation hcommitted
  | none =>
    obtain ⟨-, h⟩ := ite_error_eq_ok.mp h
    have hfills := CompressorView.commit_fills h
    exact ⟨hfills.chunks_eq ▸ hfills, fun _ _ => hfills.chunks_eq⟩

variable {compressor : Option κ}

/-- An encoded output has the chunks the core expects. -/
theorem cocclExecuteCompressor_fills
    (h : cocclExecuteCompressor runtime compressor call = .ok view) :
    Fills call.output view view.chunks ∧
      (call.operation = .compress → view.chunks = call.input.chunks) ∧
      (call.operation = .decompressReduceCompress →
        view.chunks = call.input.chunks / call.reduceChunks) ∧
      (DecodesAsPlanned runtime → encodedOutput call.operation = false →
        view.chunks = call.output.chunks) := by
  cases compressor with
  | none => cases h
  | some policy =>
    obtain ⟨output, houtput, h⟩ := bind_eq_ok.mp h
    obtain ⟨hfills, hplanned⟩ := executePlugin_fills houtput
    cases hoperation : call.operation with
    | compress =>
      simp only [hoperation] at h
      obtain ⟨rfl, hchunks⟩ := validateEncodedOutput_eq h
      exact ⟨hfills, fun _ => hchunks, nofun, fun _ hencoded => nomatch hencoded⟩
    | decompressReduceCompress =>
      simp only [hoperation] at h
      obtain ⟨rfl, hchunks⟩ := validateEncodedOutput_eq h
      exact ⟨hfills, nofun, fun _ => hchunks, fun _ hencoded => nomatch hencoded⟩
    | decompress | decompressReduce =>
      simp only [hoperation] at h
      obtain rfl := Except.ok.inj h
      exact ⟨hfills, nofun, nofun, fun hdecodes _ => hplanned hdecodes (by rw [hoperation]; rfl)⟩

/-- `args` commits bytes in `chunks` equal chunks: encoded ones, or the raw ones handed on. -/
structure Commit.Encodes (args : Commit) (chunks : ℕ) : Prop where
  datatype : args.datatype = .int8 ∨ args.datatype = compressorRawPassthrough
  chunks_eq : args.chunks = chunks
  dvd : chunks ∣ args.elements
  elements_le : args.elements ≤ sizeMax

/-- A call that encodes, into a buffer with the chunks the core expects. -/
def CompressorCall.Encodes (call : CompressorCall) : Prop :=
  call.operation = .compress ∧ call.output.chunks = call.input.chunks ∨
    call.operation = .decompressReduceCompress ∧
      call.output.chunks = call.input.chunks / call.reduceChunks

/-- **What a plugin encodes is accepted where it fits.** -/
theorem cocclExecuteCompressor_accepts (hcall : call.Encodes) (hdata : call.output.data ≠ 0)
    (hchunks : 0 < call.output.chunks) (hargs : args.Encodes call.output.chunks)
    (h : runtime.execute policy call = .ok (some args)) :
    (∃ view, cocclExecuteCompressor runtime (some policy) call = .ok view ∧
        view.bytes = args.elements) ↔ args.elements ≤ call.output.capacityBytes := by
  have hone : dataTypeSize args.datatype = 1 := by
    rcases hargs.datatype with htype | htype <;> rw [htype] <;> rfl
  have hpos : 0 < args.chunks := hargs.chunks_eq ▸ hchunks
  have hplugin : executePlugin runtime policy call = call.output.commit args := by
    simp [executePlugin, h, bind, Except.bind]
  have hvalid : ∀ view, call.output.commit args = .ok view →
      validateEncodedOutput view call.output.chunks = .ok view := by
    intro view hview
    obtain ⟨-, hdvd, hle, rfl⟩ := (CompressorView.commit_eq_ok hone hargs.elements_le hpos).mp hview
    have hmod := Nat.mod_eq_zero_of_dvd hdvd
    have hbytes : sizeMul args.elements 1 = args.elements := by
      rw [sizeMul_eq (by simpa using hargs.elements_le), mul_one]
    refine ite_error_eq_ok.mpr ⟨?_, rfl⟩
    have htype := hargs.datatype
    have hexpected := hargs.chunks_eq
    have hnonzero := hpos.ne'
    have hcapacity := hle.not_gt
    simp only [hone, hbytes]
    tauto
  have hexecute : cocclExecuteCompressor runtime (some policy) call = call.output.commit args := by
    unfold cocclExecuteCompressor
    simp only [hplugin]
    cases hview : call.output.commit args with
    | error e => rfl
    | ok view =>
      rcases hcall with ⟨hoperation, hexpected⟩ | ⟨hoperation, hexpected⟩ <;>
        simpa [bind, Except.bind, hoperation, ← hexpected] using hvalid view hview
  have hdvd : args.chunks ∣ args.elements := hargs.chunks_eq ▸ hargs.dvd
  simp only [hexecute, CompressorView.commit_eq_ok hone hargs.elements_le hpos]
  refine ⟨fun haccepted => ?_, fun hle => ⟨_, ⟨hdata, hdvd, hle, rfl⟩, rfl⟩⟩
  obtain ⟨view, ⟨-, -, hle, -⟩, -⟩ := haccepted
  exact hle

namespace CompressorRuntime

variable {input output view : CompressorView}

theorem ncclCompress_fills (h : runtime.ncclCompress compressor input output = .ok view) :
    Fills output view input.chunks := by
  obtain ⟨hfills, hchunks, -, -⟩ := cocclExecuteCompressor_fills h
  rw [hchunks rfl] at hfills
  exact hfills

theorem ncclDecompress_fills (hdecodes : DecodesAsPlanned runtime)
    (hchunks : output.chunks = input.chunks) (hdvd : input.chunks ∣ input.bytes)
    (h : runtime.ncclDecompress compressor input output = .ok view) :
    Fills output view output.chunks := by
  unfold ncclDecompress at h
  split at h
  · obtain ⟨hcapacity, h⟩ := ite_error_eq_ok.mp h
    obtain rfl := Except.ok.inj h
    exact ⟨rfl, rfl, rfl, rfl, hchunks ▸ hdvd, not_lt.mp hcapacity⟩
  · obtain ⟨hfills, -, -, hplanned⟩ := cocclExecuteCompressor_fills h
    rw [hplanned hdecodes rfl] at hfills
    exact hfills

theorem ncclDecompressReduce_fills (hdecodes : DecodesAsPlanned runtime) {reduceChunks : ℕ}
    (hchunks : output.chunks = input.chunks / reduceChunks)
    (hdvd : output.chunks ∣ sizeMul output.elements (dataTypeSize output.datatype))
    (hcapacity : sizeMul output.elements (dataTypeSize output.datatype) ≤ output.capacityBytes)
    (h : runtime.ncclDecompressReduce plugins compressor input output reduceChunks = .ok view) :
    Fills output view output.chunks := by
  unfold ncclDecompressReduce at h
  split at h
  · obtain ⟨hfills, -, -, hplanned⟩ := cocclExecuteCompressor_fills h
    rw [hplanned hdecodes rfl] at hfills
    exact hfills
  · obtain ⟨_, -, h⟩ := bind_eq_ok.mp h
    obtain rfl := Except.ok.inj h
    exact ⟨rfl, rfl, rfl, hchunks.symm, hdvd, hcapacity⟩

theorem ncclDecompReduceComp_fills [DecidableEq κ] {decoder encoder : Option κ}
    {reduceChunks originalElements : ℕ} {originalDatatype : DataType}
    (h : runtime.ncclDecompReduceComp plugins decoder encoder input output reduceChunks
      originalDatatype originalElements = .ok view) :
    Fills output view (input.chunks / reduceChunks) := by
  unfold ncclDecompReduceComp at h
  split at h
  · obtain ⟨hfills, -, hchunks, -⟩ := cocclExecuteCompressor_fills h
    rw [hchunks rfl] at hfills
    exact hfills
  · obtain ⟨_, -, h⟩ := bind_eq_ok.mp h
    exact ncclCompress_fills h

end CompressorRuntime

end

end Coccl
