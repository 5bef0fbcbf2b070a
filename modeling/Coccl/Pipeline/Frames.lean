import Coccl.Foundations.Blocks
import Coccl.Foundations.Messages
import Coccl.Pipeline.Stage

/-!
# The exchange of frames

A framed compressor leaves a payload of its own size in every slot of a strided buffer, and a
metadata entry for each slot. A framed stage moves the metadata and then the payloads, message by
message. Every rank builds its list of messages alone, from its own metadata and from the metadata
it got.
-/

namespace Coccl

open Messages

/-! ## Metadata and slots -/

/-- `cocclCompressorFrameMetadata`, as it lies in memory: `encoding` may be any number. -/
structure FrameMetadata where
  payloadBytes : ℕ
  encoding : ℕ
  reserved : ℕ
  deriving DecidableEq

/-- `cocclCompressorFrameEncoded`. -/
def frameEncoded : ℕ := 0

/-- `cocclCompressorFrameRaw`. -/
def frameRaw : ℕ := 1

def cocclFrameMetadataValid (metadata : FrameMetadata) (frameStrideBytes : ℕ) : Bool :=
  0 < metadata.payloadBytes ∧ metadata.payloadBytes ≤ frameStrideBytes ∧
    (metadata.encoding = frameEncoded ∨ metadata.encoding = frameRaw)

/-- The address of a slot; a null base is `0`. -/
def frameSlot (base frame strideBytes : ℕ) : Option ℕ :=
  if base = 0 ∨ strideBytes = 0 ∨ sizeMax / strideBytes < frame then none
  else some (base + frame * strideBytes)

def validSlot (slot bytes slotBytes : ℕ) : Bool :=
  if bytes = 0 then slot = 0 ∨ slotBytes ≠ 0 else slot ≠ 0 ∧ bytes ≤ slotBytes

/-- `cocclFrameExchange`: a message in each direction, none where the bytes are `0`. Without a
communicator of its own an exchange uses the one of the call. -/
structure FrameExchange where
  peer : ℕ
  sendSlot : ℕ
  recvSlot : ℕ
  sendBytes : ℕ
  recvBytes : ℕ
  slotBytes : ℕ
  comm : Option Comm
  stream : ℕ

/-! ## Building the lists -/

/-- The stages that exchange frames. -/
inductive FrameKind where
  | allToAll
  | allGather
  deriving DecidableEq

/-- The body of both loops: the exchange of slot `sendIndex` for slot `recvIndex`. -/
def frameExchange (sendBase recvBase frameStrideBytes : ℕ)
    (sendMetadata recvMetadata : ℕ → FrameMetadata) (peer sendIndex recvIndex : ℕ) :
    Result FrameExchange :=
  let send := sendMetadata sendIndex
  let recv := recvMetadata recvIndex
  if cocclFrameMetadataValid send frameStrideBytes ∧
      cocclFrameMetadataValid recv frameStrideBytes then
    match frameSlot sendBase sendIndex frameStrideBytes,
        frameSlot recvBase recvIndex frameStrideBytes with
    | some sendSlot, some recvSlot =>
      .ok ⟨peer, sendSlot, recvSlot, send.payloadBytes, recv.payloadBytes, frameStrideBytes, none,
        0⟩
    | _, _ => .error .invalidUsage
  else .error .invalidUsage

/-- The two loops over the peers and the frames of each peer. -/
def exchangeLoop (nRanks framesPerPeer : ℕ) (body : ℕ → ℕ → Result FrameExchange) :
    Result (List FrameExchange) :=
  ((List.range nRanks).flatMap fun peer => (List.range framesPerPeer).map fun frame =>
    (peer, frame)).mapM fun index => body index.1 index.2

def cocclBuildAllToAllFrameExchanges (sendBase recvBase frames frameStrideBytes nRanks : ℕ)
    (sendMetadata recvMetadata : ℕ → FrameMetadata) (exchangeCapacity : ℕ) :
    Result (List FrameExchange) :=
  if frames = 0 ∨ nRanks = 0 ∨ frames % nRanks ≠ 0 ∨ exchangeCapacity < frames then
    .error .invalidArgument
  else
    let framesPerPeer := frames / nRanks
    exchangeLoop nRanks framesPerPeer fun peer frame =>
      let frameIndex := peer * framesPerPeer + frame
      frameExchange sendBase recvBase frameStrideBytes sendMetadata recvMetadata peer frameIndex
        frameIndex

def cocclBuildAllGatherFrameExchanges (sendBase recvBase localFrames frameStrideBytes nRanks : ℕ)
    (sendMetadata recvMetadata : ℕ → FrameMetadata) (exchangeCapacity : ℕ) :
    Result (List FrameExchange) :=
  if localFrames = 0 ∨ nRanks = 0 ∨ sizeMax / nRanks < localFrames ∨
      localFrames * nRanks = 0 ∨ exchangeCapacity < localFrames * nRanks then
    .error .invalidArgument
  else
    exchangeLoop nRanks localFrames fun peer frame =>
      let recvIndex := peer * localFrames + frame
      frameExchange sendBase recvBase frameStrideBytes sendMetadata recvMetadata peer frame
        recvIndex

def cocclBuildFrameExchanges : FrameKind → ℕ → ℕ → ℕ → ℕ → ℕ → (ℕ → FrameMetadata) →
    (ℕ → FrameMetadata) → ℕ → Result (List FrameExchange)
  | .allToAll => cocclBuildAllToAllFrameExchanges
  | .allGather => cocclBuildAllGatherFrameExchanges

/-! ## Committing a list -/

/-- A channel of NCCL's point-to-point calls: a communicator, the sender and the receiver. -/
abbrev Channel := ℕ × ℕ × ℕ

/-- The communicator of an exchange. -/
def FrameExchange.exchangeComm (exchange : FrameExchange) (comm : Option Comm) : Option Comm :=
  match exchange.comm with
  | none => comm
  | some own => some own

/-- The check of every exchange before the first call. -/
def FrameExchange.accepted (exchange : FrameExchange) (comm : Option Comm) : Bool :=
  match exchange.exchangeComm comm with
  | none => false
  | some exchangeComm =>
    exchange.peer < exchangeComm.nRanks ∧ ¬ (exchange.sendBytes = 0 ∧ exchange.recvBytes = 0) ∧
      validSlot exchange.sendSlot exchange.sendBytes exchange.slotBytes ∧
      validSlot exchange.recvSlot exchange.recvBytes exchange.slotBytes

/-- The native calls of an exchange, the receive first. -/
def FrameExchange.posts (exchange : FrameExchange) (comm : Option Comm) : List (Post Channel) :=
  match exchange.exchangeComm comm with
  | none => []
  | some exchangeComm =>
    (if exchange.recvBytes ≠ 0 then
      [.recv (exchangeComm.handle, exchange.peer, exchangeComm.rank)
        ⟨exchange.recvSlot, exchange.recvBytes⟩] else []) ++
    (if exchange.sendBytes ≠ 0 then
      [.send (exchangeComm.handle, exchangeComm.rank, exchange.peer)
        ⟨exchange.sendSlot, exchange.sendBytes⟩] else [])

/-- `cocclCommitFrameExchange`: the native calls it issues in one group. -/
def cocclCommitFrameExchange (exchanges : List FrameExchange) (comm : Option Comm) :
    Result (List (Post Channel)) :=
  if exchanges = [] then .error .invalidArgument
  else if exchanges.all (fun exchange => exchange.accepted comm) then
    .ok (exchanges.flatMap fun exchange => exchange.posts comm)
  else .error .invalidArgument

/-! ## A framed stage -/

/-- One rank's side of a framed stage: its strided buffer and the one it receives in, with the
metadata of its frames. -/
structure FrameEdge where
  ptr : ℕ
  bytes : ℕ
  output : ℕ
  capacityBytes : ℕ
  metadata : ℕ → FrameMetadata

namespace FrameKind

variable (kind : FrameKind) (nRanks frames : ℕ)

/-- Frames exchanged with each rank, of `frames` frames held by a rank. -/
def framesPerPeer : ℕ :=
  match kind with
  | .allToAll => frames / nRanks
  | .allGather => frames

/-- Frames held afterwards. -/
def outputFrames : ℕ :=
  match kind with
  | .allToAll => frames
  | .allGather => frames * nRanks

/-- The frame that is sent to `peer` as number `frame`. -/
def sendIndex (peer frame : ℕ) : ℕ :=
  match kind with
  | .allToAll => peer * (frames / nRanks) + frame
  | .allGather => frame

/-- The metadata round: on rank `rank`, entry `f` after `ncclAllToAll` or `ncclAllGather` of the
entries, with `framesPerPeer` entries for each rank. -/
def gatherMetadata (edges : ℕ → FrameEdge) (rank f : ℕ) : FrameMetadata :=
  let block := kind.framesPerPeer nRanks frames
  (edges (f / block)).metadata (kind.sendIndex nRanks frames rank (f % block))

end FrameKind

/-- `cocclPreparePipelineFrameExchange`: the metadata a rank gets. -/
def cocclPreparePipelineFrameExchange (kind : FrameKind) (nRanks frames : ℕ)
    (edges : ℕ → FrameEdge) (rank : ℕ) : Result (ℕ → FrameMetadata) :=
  let edge := edges rank
  if buffersOverlap edge.ptr edge.bytes edge.output edge.capacityBytes then .error .invalidUsage
  else .ok (kind.gatherMetadata nRanks frames edges rank)

/-- `cocclCommitPipelineFrameExchange`; the array of exchanges grows to the frames that arrive. -/
def cocclCommitPipelineFrameExchange (kind : FrameKind) (frames frameStrideBytes : ℕ) (comm : Comm)
    (edge : FrameEdge) (recvMetadata : ℕ → FrameMetadata) (exchangeCapacity : ℕ) :
    Result (List (Post Channel)) := do
  let exchanges ← cocclBuildFrameExchanges kind edge.ptr edge.output frames frameStrideBytes
    comm.nRanks edge.metadata recvMetadata
    (max exchangeCapacity (kind.outputFrames comm.nRanks frames))
  cocclCommitFrameExchange exchanges (some comm)

/-! ## What a list holds -/

/-- Every entry is valid, the buffers are there and every slot's offset fits. -/
def FramesFit (sendBase recvBase frameStrideBytes : ℕ) (send recv : FrameMetadata)
    (sendIndex recvIndex : ℕ) : Prop :=
  cocclFrameMetadataValid send frameStrideBytes = true ∧
    cocclFrameMetadataValid recv frameStrideBytes = true ∧ sendBase ≠ 0 ∧ recvBase ≠ 0 ∧
    sendIndex ≤ sizeMax / frameStrideBytes ∧ recvIndex ≤ sizeMax / frameStrideBytes

instance (sendBase recvBase frameStrideBytes : ℕ) (send recv : FrameMetadata)
    (sendIndex recvIndex : ℕ) :
    Decidable (FramesFit sendBase recvBase frameStrideBytes send recv sendIndex recvIndex) :=
  inferInstanceAs (Decidable (_ ∧ _))

theorem cocclFrameMetadataValid_iff {metadata : FrameMetadata} {frameStrideBytes : ℕ} :
    cocclFrameMetadataValid metadata frameStrideBytes = true ↔ 0 < metadata.payloadBytes ∧
      metadata.payloadBytes ≤ frameStrideBytes ∧
      (metadata.encoding = frameEncoded ∨ metadata.encoding = frameRaw) := by
  simp [cocclFrameMetadataValid]

theorem frameSlot_eq_some {base frame strideBytes slot : ℕ} :
    frameSlot base frame strideBytes = some slot ↔ base ≠ 0 ∧ strideBytes ≠ 0 ∧
      frame ≤ sizeMax / strideBytes ∧ slot = base + frame * strideBytes := by
  simp only [frameSlot, Option.ite_none_left_eq_some, not_or, not_lt, Option.some.injEq,
    @eq_comm _ slot]
  tauto

theorem validSlot_of_le {slot bytes slotBytes : ℕ} (hslot : slot ≠ 0) (hbytes : bytes ≠ 0)
    (hle : bytes ≤ slotBytes) : validSlot slot bytes slotBytes = true := by
  simp [validSlot, hslot, hbytes, hle]

section

variable {sendBase recvBase stride : ℕ} {sendMetadata recvMetadata : ℕ → FrameMetadata}

theorem frameExchange_eq (peer sendIndex recvIndex : ℕ) :
    frameExchange sendBase recvBase stride sendMetadata recvMetadata peer sendIndex recvIndex =
      if FramesFit sendBase recvBase stride (sendMetadata sendIndex) (recvMetadata recvIndex)
          sendIndex recvIndex then
        .ok ⟨peer, sendBase + sendIndex * stride, recvBase + recvIndex * stride,
          (sendMetadata sendIndex).payloadBytes, (recvMetadata recvIndex).payloadBytes, stride,
          none, 0⟩
      else .error .invalidUsage := by
  by_cases hfit : FramesFit sendBase recvBase stride (sendMetadata sendIndex)
      (recvMetadata recvIndex) sendIndex recvIndex
  · obtain ⟨hsend, hrecv, hsendBase, hrecvBase, hsendIndex, hrecvIndex⟩ := id hfit
    have hstride : stride ≠ 0 := by
      have := cocclFrameMetadataValid_iff.mp hsend
      omega
    rw [if_pos hfit]
    simp [frameExchange, hsend, hrecv, frameSlot_eq_some.mpr ⟨hsendBase, hstride, hsendIndex, rfl⟩,
      frameSlot_eq_some.mpr ⟨hrecvBase, hstride, hrecvIndex, rfl⟩]
  · rw [if_neg hfit]
    unfold frameExchange
    simp only
    split
    · next hvalid =>
      split
      · next hsendSlot hrecvSlot =>
        obtain ⟨hsendBase, -, hsendIndex, -⟩ := frameSlot_eq_some.mp hsendSlot
        obtain ⟨hrecvBase, -, hrecvIndex, -⟩ := frameSlot_eq_some.mp hrecvSlot
        exact absurd ⟨hvalid.1, hvalid.2, hsendBase, hrecvBase, hsendIndex, hrecvIndex⟩ hfit
      · rfl
    · rfl

end

section

variable (kind : FrameKind) (nRanks frames stride sendBase recvBase : ℕ)
  (sendMetadata recvMetadata : ℕ → FrameMetadata)

namespace FrameKind

/-- The conditions on the shape of an exchange. -/
def Shape (exchangeCapacity : ℕ) : Prop :=
  frames ≠ 0 ∧ nRanks ≠ 0 ∧ (kind = .allToAll → frames % nRanks = 0) ∧
    (kind = .allGather → frames * nRanks ≤ sizeMax) ∧
    kind.outputFrames nRanks frames ≤ exchangeCapacity

/-- The exchange of a frame with a peer. -/
def exchangeOf (peer frame : ℕ) : FrameExchange :=
  let sendIndex := kind.sendIndex nRanks frames peer frame
  let recvIndex := peer * kind.framesPerPeer nRanks frames + frame
  ⟨peer, sendBase + sendIndex * stride, recvBase + recvIndex * stride,
    (sendMetadata sendIndex).payloadBytes, (recvMetadata recvIndex).payloadBytes, stride, none, 0⟩

end FrameKind

/-- A frame exchanged with a peer fits. -/
def FitsAt (peer frame : ℕ) : Prop :=
  FramesFit sendBase recvBase stride (sendMetadata (kind.sendIndex nRanks frames peer frame))
    (recvMetadata (peer * kind.framesPerPeer nRanks frames + frame))
    (kind.sendIndex nRanks frames peer frame) (peer * kind.framesPerPeer nRanks frames + frame)

instance (peer frame : ℕ) : Decidable (FitsAt kind nRanks frames stride sendBase recvBase
    sendMetadata recvMetadata peer frame) :=
  inferInstanceAs (Decidable (FramesFit _ _ _ _ _ _ _))

/-- All frames fit. -/
def AllFit : Prop :=
  ∀ peer < nRanks, ∀ frame < kind.framesPerPeer nRanks frames,
    FitsAt kind nRanks frames stride sendBase recvBase sendMetadata recvMetadata peer frame

/-- The list of a successful build. -/
def exchangeList : List FrameExchange :=
  (List.range nRanks).flatMap fun peer => (List.range (kind.framesPerPeer nRanks frames)).map
    (kind.exchangeOf nRanks frames stride sendBase recvBase sendMetadata recvMetadata peer)

end

open FrameKind

section

variable {kind : FrameKind} {nRanks frames stride sendBase recvBase capacity : ℕ}
  {sendMetadata recvMetadata : ℕ → FrameMetadata}

/-- The pairs of loop indices. -/
theorem mem_loop {framesPerPeer peer frame : ℕ} :
    (peer, frame) ∈ ((List.range nRanks).flatMap fun peer => (List.range framesPerPeer).map
      fun frame => (peer, frame)) ↔ peer < nRanks ∧ frame < framesPerPeer := by
  simp

/-- The loops, where every body is guarded by its frames. -/
theorem exchangeLoop_eq_ok {exchanges : List FrameExchange} :
    (exchangeLoop nRanks (kind.framesPerPeer nRanks frames) fun peer frame =>
      frameExchange sendBase recvBase stride sendMetadata recvMetadata peer
        (kind.sendIndex nRanks frames peer frame)
        (peer * kind.framesPerPeer nRanks frames + frame)) = .ok exchanges ↔
      AllFit kind nRanks frames stride sendBase recvBase sendMetadata recvMetadata ∧
      exchanges = exchangeList kind nRanks frames stride sendBase recvBase sendMetadata
        recvMetadata := by
  have hguard := @Checked.mapM_guard _ _ _ NcclError.invalidUsage
    (fun index : ℕ × ℕ => FitsAt kind nRanks frames stride sendBase recvBase sendMetadata
      recvMetadata index.1 index.2) _
    (fun index => kind.exchangeOf nRanks frames stride sendBase recvBase sendMetadata recvMetadata
      index.1 index.2)
    ((List.range nRanks).flatMap fun peer => (List.range (kind.framesPerPeer nRanks frames)).map
      fun frame => (peer, frame))
  simp only [exchangeLoop, frameExchange_eq]
  refine (Eq.congr_left hguard).trans ?_
  rw [List.map_flatMap]
  simp only [List.map_map]
  by_cases hfit : AllFit kind nRanks frames stride sendBase recvBase sendMetadata recvMetadata
  · rw [if_pos fun index hindex => hfit _ (mem_loop.mp hindex).1 _ (mem_loop.mp hindex).2,
      Except.ok.injEq]
    exact ⟨fun h => ⟨hfit, h.symm⟩, fun h => h.2.symm⟩
  · rw [if_neg fun h => hfit fun peer hpeer frame hframe =>
      h (peer, frame) (mem_loop.mpr ⟨hpeer, hframe⟩)]
    exact iff_of_false nofun fun h => hfit h.1

/-- **The builders succeed exactly where the shape is right and all frames fit.** -/
theorem cocclBuildFrameExchanges_eq_ok {exchanges : List FrameExchange} :
    cocclBuildFrameExchanges kind sendBase recvBase frames stride nRanks sendMetadata recvMetadata
        capacity = .ok exchanges ↔
      kind.Shape nRanks frames capacity ∧
      AllFit kind nRanks frames stride sendBase recvBase sendMetadata recvMetadata ∧
      exchanges = exchangeList kind nRanks frames stride sendBase recvBase sendMetadata
        recvMetadata := by
  cases kind with
  | allToAll =>
    show cocclBuildAllToAllFrameExchanges _ _ _ _ _ _ _ _ = _ ↔ _
    unfold cocclBuildAllToAllFrameExchanges
    rw [Checked.ite_error_eq_ok]
    refine and_congr ?_ (@exchangeLoop_eq_ok .allToAll _ _ _ _ _ _ _ _)
    simp [Shape, outputFrames]
  | allGather =>
    show cocclBuildAllGatherFrameExchanges _ _ _ _ _ _ _ _ = _ ↔ _
    unfold cocclBuildAllGatherFrameExchanges
    rw [Checked.ite_error_eq_ok]
    refine and_congr ?_ (@exchangeLoop_eq_ok .allGather _ _ _ _ _ _ _ _)
    simp only [Shape, outputFrames, not_or, not_lt, ne_eq]
    constructor
    · rintro ⟨hframes, hranks, hle, -, hcapacity⟩
      exact ⟨hframes, hranks, nofun, fun _ => Nat.mul_le_of_le_div _ _ _ hle, hcapacity⟩
    · rintro ⟨hframes, hranks, -, hle, hcapacity⟩
      exact ⟨hframes, hranks, (Nat.le_div_iff_mul_le (pos_of_ne_zero hranks)).mpr (hle trivial),
        mul_ne_zero hframes hranks, hcapacity⟩

end

section

variable {kind : FrameKind} {nRanks frames stride : ℕ}

theorem FrameKind.le_outputFrames (hranks : nRanks ≠ 0) :
    frames ≤ kind.outputFrames nRanks frames := by
  cases kind with
  | allToAll => exact le_rfl
  | allGather => exact Nat.le_mul_of_pos_right _ (pos_of_ne_zero hranks)

variable (hshape : kind = .allToAll → frames % nRanks = 0)

include hshape

theorem FrameKind.outputFrames_eq :
    kind.outputFrames nRanks frames = nRanks * kind.framesPerPeer nRanks frames := by
  cases kind with
  | allToAll => exact (Nat.mul_div_cancel' (Nat.dvd_of_mod_eq_zero (hshape rfl))).symm
  | allGather => exact mul_comm _ _

theorem FrameKind.sendIndex_lt {peer frame : ℕ} (hpeer : peer < nRanks)
    (hframe : frame < kind.framesPerPeer nRanks frames) :
    kind.sendIndex nRanks frames peer frame < frames := by
  cases kind with
  | allToAll =>
    have hdvd := Nat.dvd_of_mod_eq_zero (hshape rfl)
    have hlt := Blocks.div_add_lt hpeer hframe
    rwa [show nRanks * framesPerPeer .allToAll nRanks frames = frames from
      Nat.mul_div_cancel' hdvd] at hlt
  | allGather => exact hframe

/-- Every frame is sent to some rank. -/
theorem FrameKind.exists_sendIndex (hranks : nRanks ≠ 0) {f : ℕ} (hf : f < frames) :
    ∃ peer < nRanks, ∃ frame < kind.framesPerPeer nRanks frames,
      kind.sendIndex nRanks frames peer frame = f := by
  cases kind with
  | allToAll =>
    have hmul := Nat.mul_div_cancel' (Nat.dvd_of_mod_eq_zero (hshape rfl))
    have hpos : 0 < frames / nRanks := pos_of_ne_zero fun h => by simp [h] at hmul; omega
    exact ⟨f / (frames / nRanks), Nat.div_lt_of_lt_mul (by rwa [mul_comm, hmul]),
      f % (frames / nRanks), Nat.mod_lt _ hpos, Nat.div_add_mod' f _⟩
  | allGather => exact ⟨0, pos_of_ne_zero hranks, f, hf, rfl⟩

/-- Entries in rank-major order. -/
theorem FrameKind.exists_recvIndex {f : ℕ} (hf : f < kind.outputFrames nRanks frames) :
    ∃ peer < nRanks, ∃ frame < kind.framesPerPeer nRanks frames,
      peer * kind.framesPerPeer nRanks frames + frame = f := by
  rw [outputFrames_eq hshape] at hf
  have hpos : 0 < kind.framesPerPeer nRanks frames :=
    pos_of_ne_zero fun h => by rw [h, mul_zero] at hf; omega
  exact ⟨f / kind.framesPerPeer nRanks frames, Nat.div_lt_of_lt_mul (by rwa [mul_comm]),
    f % kind.framesPerPeer nRanks frames, Nat.mod_lt _ hpos, Nat.div_add_mod' f _⟩

theorem FrameKind.recvIndex_lt {peer frame : ℕ} (hpeer : peer < nRanks)
    (hframe : frame < kind.framesPerPeer nRanks frames) :
    peer * kind.framesPerPeer nRanks frames + frame < kind.outputFrames nRanks frames := by
  rw [outputFrames_eq hshape]
  exact Blocks.div_add_lt hpeer hframe

/-- Where no slot's offset wraps, all frames fit if all entries are valid. -/
theorem allFit_iff {sendBase recvBase : ℕ} {sendMetadata recvMetadata : ℕ → FrameMetadata}
    (hframes : frames ≠ 0) (hranks : nRanks ≠ 0)
    (hwrap : kind.outputFrames nRanks frames * stride ≤ sizeMax) :
    AllFit kind nRanks frames stride sendBase recvBase sendMetadata recvMetadata ↔
      sendBase ≠ 0 ∧ recvBase ≠ 0 ∧
      (∀ f < frames, cocclFrameMetadataValid (sendMetadata f) stride = true) ∧
      ∀ f < kind.outputFrames nRanks frames,
        cocclFrameMetadataValid (recvMetadata f) stride = true := by
  constructor
  · intro h
    obtain ⟨peer, hpeer, frame, hframe, -⟩ :=
      exists_sendIndex hshape hranks (pos_of_ne_zero hframes)
    obtain ⟨-, -, hsendBase, hrecvBase, -⟩ := h peer hpeer frame hframe
    refine ⟨hsendBase, hrecvBase, fun f hf => ?_, fun f hf => ?_⟩
    · obtain ⟨peer, hpeer, frame, hframe, rfl⟩ := exists_sendIndex hshape hranks hf
      exact (h peer hpeer frame hframe).1
    · obtain ⟨peer, hpeer, frame, hframe, rfl⟩ := exists_recvIndex hshape hf
      exact (h peer hpeer frame hframe).2.1
  · rintro ⟨hsendBase, hrecvBase, hsend, hrecv⟩ peer hpeer frame hframe
    have hsendIndex := sendIndex_lt hshape hpeer hframe
    have hrecvIndex := recvIndex_lt hshape hpeer hframe
    have hvalid := hsend _ hsendIndex
    have hstride : 0 < stride := by
      have := cocclFrameMetadataValid_iff.mp hvalid
      omega
    have hle : ∀ {f}, f ≤ kind.outputFrames nRanks frames → f ≤ sizeMax / stride := fun hf =>
      (Nat.le_div_iff_mul_le hstride).mpr ((Nat.mul_le_mul_right _ hf).trans hwrap)
    exact ⟨hvalid, hrecv _ hrecvIndex, hsendBase, hrecvBase,
      hle (hsendIndex.le.trans (le_outputFrames hranks)), hle hrecvIndex.le⟩

end

/-! ## The messages of a list -/

section

variable {comm : Comm}

/-- An exchange with a message in both directions on the call's communicator. -/
def FrameExchange.BothWays (exchange : FrameExchange) : Prop :=
  exchange.comm = none ∧ exchange.sendBytes ≠ 0 ∧ exchange.recvBytes ≠ 0

theorem FrameExchange.posts_eq {exchange : FrameExchange} (h : exchange.BothWays) :
    exchange.posts (some comm) =
      [.recv (comm.handle, exchange.peer, comm.rank) ⟨exchange.recvSlot, exchange.recvBytes⟩,
        .send (comm.handle, comm.rank, exchange.peer) ⟨exchange.sendSlot, exchange.sendBytes⟩] := by
  simp [FrameExchange.posts, FrameExchange.exchangeComm, h.1, h.2.1, h.2.2]

/-- What is sent to a peer and received from it: the exchanges with it, in order. -/
theorem flatMap_posts {exchanges : List FrameExchange} (h : ∀ e ∈ exchanges, e.BothWays)
    (peer : ℕ) :
    sends (exchanges.flatMap fun e => e.posts (some comm)) (comm.handle, comm.rank, peer) =
        ((exchanges.filter fun e => e.peer = peer).map fun e => ⟨e.sendSlot, e.sendBytes⟩) ∧
      recvs (exchanges.flatMap fun e => e.posts (some comm)) (comm.handle, peer, comm.rank) =
        (exchanges.filter fun e => e.peer = peer).map fun e => ⟨e.recvSlot, e.recvBytes⟩ := by
  induction exchanges with
  | nil => exact ⟨rfl, rfl⟩
  | cons e exchanges ih =>
    obtain ⟨hsends, hrecvs⟩ := ih fun e he => h e (List.mem_cons_of_mem _ he)
    rw [List.flatMap_cons, sends_append, recvs_append, hsends, hrecvs,
      FrameExchange.posts_eq (h e List.mem_cons_self)]
    by_cases hpeer : e.peer = peer <;> simp [sends, recvs, hpeer]

end

end Coccl
