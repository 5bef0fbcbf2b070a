import Coccl.Pipeline.Frames
import Coccl.Runtime.Route

/-!
# The devices of a batch

The current device is a thread's own. `cocclExecuteSendRecvBatch` sets that of the first call, and
from then on only taking a buffer sets one, in the first loop. The decompressions come in a loop
after the exchange, so they all run on the device of the last call (`onOwnDevices_iff`).
-/

namespace Coccl.SendRecv

/-! ## Steps -/

/-- What a batch does, one after the other until something fails: a call that leaves the device as
it is, `cudaSetDevice`, and a codec call for one of the calls. -/
inductive DeviceStep where
  | check (failure : Option NcclError)
  | setDevice (failure : Option NcclError) (device : ℕ)
  | codec (call : ℕ) (failure : Option NcclError)

namespace DeviceStep

/-- The result of the steps, and the codec calls they issue, with the devices they run on. -/
def run : List DeviceStep → ℕ → Option NcclError × List (ℕ × ℕ)
  | [], _ => (none, [])
  | check none :: rest, device => run rest device
  | setDevice none device :: rest, _ => run rest device
  | codec call none :: rest, device =>
    let (result, issued) := run rest device
    (result, (call, device) :: issued)
  | check (some e) :: _, _ => (some e, [])
  | setDevice (some e) _ :: _, _ => (some e, [])
  | codec call (some e) :: _, device => (some e, [(call, device)])

variable {tail : List DeviceStep} {failure : Option NcclError} {device : ℕ} {entry : ℕ × ℕ}

@[simp]
theorem mem_run_check : entry ∈ (run (check failure :: tail) device).2 ↔
    failure = none ∧ entry ∈ (run tail device).2 := by
  cases failure <;> simp [run]

@[simp]
theorem mem_run_setDevice {d : ℕ} : entry ∈ (run (setDevice failure d :: tail) device).2 ↔
    failure = none ∧ entry ∈ (run tail d).2 := by
  cases failure <;> simp [run]

@[simp]
theorem mem_run_codec {call : ℕ} : entry ∈ (run (codec call failure :: tail) device).2 ↔
    entry = (call, device) ∨ failure = none ∧ entry ∈ (run tail device).2 := by
  cases failure <;> simp [run]

theorem mem_run_checks {failures : List (Option NcclError)} :
    entry ∈ (run (failures.map check ++ tail) device).2 ↔
      (∀ failure ∈ failures, failure = none) ∧ entry ∈ (run tail device).2 := by
  induction failures with
  | nil => simp
  | cons failure failures ih => simp [ih, and_assoc]

/-- Codec calls one after the other are on one device, and all issued if none fails. -/
theorem mem_run_codecs {calls : List ℕ} {failure : ℕ → Option NcclError} :
    (∀ entry ∈ (run (calls.map fun i => codec i (failure i)) device).2,
        entry.1 ∈ calls ∧ entry.2 = device) ∧
      ((∀ i, failure i = none) → ∀ i ∈ calls,
        (i, device) ∈ (run (calls.map fun i => codec i (failure i)) device).2) := by
  induction calls with
  | nil => simp [run]
  | cons call calls ih =>
    simp only [List.map_cons, mem_run_codec, List.mem_cons]
    refine ⟨?_, fun hok i => Or.imp (congrArg (·, device)) fun hi => ⟨hok call, ih.2 hok i hi⟩⟩
    rintro entry (rfl | ⟨-, h⟩)
    · exact ⟨.inl rfl, rfl⟩
    · exact (ih.1 entry h).imp_left .inr

end DeviceStep

open DeviceStep List

/-! ## The batch -/

def kMetadataAlignment : ℕ := 256

structure SendRecvLayout where
  rawBytes : ℕ
  metadataOffset : ℕ
  allocationBytes : ℕ

def sendRecvLayout (count : ℕ) (datatype : DataType) : Option SendRecvLayout :=
  let typeBytes := ncclTypeSize datatype
  if typeBytes ≤ 0 ∨ sizeMax / typeBytes.toNat < count then none
  else
    let rawBytes := count * typeBytes.toNat
    if sizeMax - (kMetadataAlignment - 1) < rawBytes then none
    else
      let metadataOffset :=
        (rawBytes + kMetadataAlignment - 1) / kMetadataAlignment * kMetadataAlignment
      if sizeMax - frameMetadataSize < metadataOffset then none
      else some ⟨rawBytes, metadataOffset, metadataOffset + frameMetadataSize⟩

/-- A call of a batch, with the device of its communicator, which is that of the communicator's
pool, and whether its compressor frames what it encodes. -/
structure SendRecvCall where
  info : Info
  cudaDev : ℕ
  framed : Bool

namespace SendRecvCall

variable (call : SendRecvCall)

def layout : Option SendRecvLayout := sendRecvLayout call.info.count call.info.datatype

/-- The bytes of the call's data, `0` without a layout. -/
def rawBytes : ℕ := (call.layout.map (·.rawBytes)).getD 0

/-- Whether the metadata is read back from the device. -/
def readMetadata : Bool := call.info.func ≠ .send ∨ call.framed

end SendRecvCall

/-- What a batch calls, some of it for each of its calls. -/
inductive BatchCall where
  | setDevice
  | poolSetDevice (call : ℕ)
  | acquire (call : ℕ)
  | compress (call : ℕ)
  | storeMetadata (call : ℕ)
  | commitMetadata
  | loadMetadata (call : ℕ)
  | synchronize (call : ℕ)
  | commitPayload
  | decompress (call : ℕ)

/-- How it turns out. An encoded output has its bytes and whether it is the raw data; `metadata` is
what is read back. -/
structure BatchOutcomes where
  findPool : ℕ → Bool
  failure : BatchCall → Option NcclError
  encoded : ℕ → ℕ × Bool
  metadata : ℕ → FrameMetadata

namespace BatchOutcomes

variable (outcomes : BatchOutcomes)

/-- The first loop: a buffer from the communicator's pool, and the compression of what is sent. -/
def encodeSteps (x : SendRecvCall × ℕ) : List DeviceStep :=
  [check (if x.1.layout.isSome then none else some .invalidArgument),
    check (if outcomes.findPool x.2 then none else some .invalidUsage),
    .setDevice (outcomes.failure (.poolSetDevice x.2)) x.1.cudaDev,
    check (outcomes.failure (.acquire x.2))] ++
  if x.1.info.func = .send then
    [codec x.2 (outcomes.failure (.compress x.2)),
      check (if x.1.framed then none else outcomes.failure (.storeMetadata x.2))]
  else []

/-- A call's metadata before the payload is exchanged. -/
def metadataOf (x : SendRecvCall × ℕ) : FrameMetadata :=
  if x.1.readMetadata then outcomes.metadata x.2
  else ⟨(outcomes.encoded x.2).1, if (outcomes.encoded x.2).2 then frameRaw else frameEncoded, 0⟩

/-- From the exchange of the metadata to that of the payload; a group call restores the device. -/
def exchangeChecks (calls : List (SendRecvCall × ℕ)) : List (Option NcclError) :=
  let loaded := (calls.filter fun x => x.1.readMetadata).map Prod.snd
  [outcomes.failure .commitMetadata] ++
    loaded.map (fun i => outcomes.failure (.loadMetadata i)) ++
    loaded.map (fun i => outcomes.failure (.synchronize i)) ++
    calls.map (fun x => if cocclFrameMetadataValid (outcomes.metadataOf x) x.1.rawBytes then none
      else some .invalidUsage) ++
    [outcomes.failure .commitPayload]

/-- The last loop. -/
def decodeSteps (calls : List (SendRecvCall × ℕ)) : List DeviceStep :=
  ((calls.filter fun x => x.1.info.func = .recv).map Prod.snd).map fun i =>
    codec i (outcomes.failure (.decompress i))

end BatchOutcomes

open BatchOutcomes

/-- `cocclExecuteSendRecvBatch` up to the release of the buffers, after which no codec is called. -/
def cocclExecuteSendRecvBatch (outcomes : BatchOutcomes) (first : SendRecvCall)
    (rest : List SendRecvCall) : ℕ → Option NcclError × List (ℕ × ℕ) :=
  let calls := (first :: rest).zipIdx
  run (.setDevice (outcomes.failure .setDevice) first.cudaDev ::
    (calls.flatMap outcomes.encodeSteps ++
      ((outcomes.exchangeChecks calls).map check ++ outcomes.decodeSteps calls)))

/-! ## The devices -/

/-- The device of the last call. -/
def lastDevice (device : ℕ) (calls : List (SendRecvCall × ℕ)) : ℕ :=
  (calls.map (·.1.cudaDev)).getLastD device

section

variable {outcomes : BatchOutcomes} {calls : List (SendRecvCall × ℕ)} {tail : List DeviceStep}
  {device : ℕ} {entry : ℕ × ℕ}

/-- The first loop compresses on each call's own device, and leaves that of the last call. -/
theorem encode_issued (h : entry ∈ (run (calls.flatMap outcomes.encodeSteps ++ tail) device).2) :
    (∃ x ∈ calls, entry = (x.2, x.1.cudaDev)) ∨ entry ∈ (run tail (lastDevice device calls)).2 := by
  induction calls generalizing device with
  | nil => exact .inr h
  | cons x calls ih =>
    rw [flatMap_cons, append_assoc, encodeSteps, append_assoc] at h
    simp only [cons_append, nil_append, mem_run_check, mem_run_setDevice] at h
    obtain ⟨-, -, -, -, h⟩ := h
    have hrest : entry = (x.2, x.1.cudaDev) ∨
        entry ∈ (run (calls.flatMap outcomes.encodeSteps ++ tail) x.1.cudaDev).2 := by
      split at h
      · simp only [cons_append, nil_append, mem_run_codec, mem_run_check] at h
        exact h.imp_right fun h => h.2.2
      · exact .inr h
    rw [lastDevice, map_cons, getLastD_cons]
    rcases hrest with rfl | h
    · exact .inl ⟨x, mem_cons_self, rfl⟩
    · exact (ih h).imp_left fun ⟨y, hy, heq⟩ => ⟨y, mem_cons_of_mem _ hy, heq⟩

/-- Without failures the first loop comes to its end. -/
theorem encode_reaches (hlayout : ∀ x ∈ calls, x.1.layout.isSome = true)
    (hpool : ∀ i, outcomes.findPool i = true) (hok : ∀ call, outcomes.failure call = none)
    (h : entry ∈ (run tail (lastDevice device calls)).2) :
    entry ∈ (run (calls.flatMap outcomes.encodeSteps ++ tail) device).2 := by
  induction calls generalizing device with
  | nil => exact h
  | cons x calls ih =>
    rw [lastDevice, map_cons, getLastD_cons] at h
    rw [forall_mem_cons] at hlayout
    have hrest := ih hlayout.2 h
    rw [flatMap_cons, append_assoc, encodeSteps, append_assoc]
    by_cases hsend : x.1.info.func = .send <;> simp [hlayout.1, hpool, hok, hrest, hsend]

end

section

variable (first : SendRecvCall) (rest : List SendRecvCall)

/-- Every codec call of every run is on its call's device. -/
def OnOwnDevices : Prop :=
  ∀ outcomes device, ∀ entry ∈ (cocclExecuteSendRecvBatch outcomes first rest device).2,
    ∃ call, (first :: rest)[entry.1]? = some call ∧ call.cudaDev = entry.2

/-- Outcomes without a failure; what is exchanged is the raw data. -/
def succeeding (calls : List SendRecvCall) : BatchOutcomes where
  findPool _ := true
  failure _ := none
  encoded i := ((calls[i]?.map (·.rawBytes)).getD 0, true)
  metadata i := ⟨(calls[i]?.map (·.rawBytes)).getD 0, frameRaw, 0⟩

theorem succeeding_checks {calls : List SendRecvCall} (hraw : ∀ call ∈ calls, 0 < call.rawBytes) :
    ∀ failure ∈ (succeeding calls).exchangeChecks calls.zipIdx, failure = none := by
  have hvalid : ∀ x ∈ calls.zipIdx,
      cocclFrameMetadataValid ((succeeding calls).metadataOf x) x.1.rawBytes = true := by
    intro x hx
    have hget := mem_zipIdx_iff_getElem?.mp hx
    have hpos := hraw x.1 (mem_of_getElem? hget)
    have hmetadata : (succeeding calls).metadataOf x = ⟨x.1.rawBytes, frameRaw, 0⟩ := by
      unfold metadataOf
      split <;> simp [succeeding, hget]
    simp [hmetadata, cocclFrameMetadataValid, hpos]
  intro failure h
  simp only [exchangeChecks, mem_append, mem_map, mem_singleton] at h
  rcases h with (((rfl | ⟨_, -, rfl⟩) | ⟨_, -, rfl⟩) | ⟨x, hx, rfl⟩) | rfl
  · rfl
  · rfl
  · rfl
  · exact if_pos (hvalid x hx)
  · rfl

/-- **A batch whose data can be transferred runs every codec call on its call's device** exactly if
all its receives are on the device of the last call. -/
theorem onOwnDevices_iff : OnOwnDevices first rest ↔
    ((∀ call ∈ first :: rest, 0 < call.rawBytes) → ∀ call ∈ first :: rest,
      call.info.func = .recv → call.cudaDev = ((first :: rest).getLast nofun).cudaDev) := by
  have hdevice : lastDevice first.cudaDev (first :: rest).zipIdx =
      ((first :: rest).getLast nofun).cudaDev := by
    have hmap : (first :: rest).zipIdx.map (·.1.cudaDev) = (first :: rest).map (·.cudaDev) := by
      conv_rhs => rw [← zipIdx_map_fst 0 (first :: rest), map_map]
      rfl
    rw [lastDevice, hmap, getLastD_eq_getLast?, getLast?_map,
      getLast?_eq_getLast_of_ne_nil (cons_ne_nil _ _)]
    rfl
  rw [← hdevice]
  constructor
  · intro hown hraw call hmem hrecv
    obtain ⟨i, hi⟩ := getElem?_of_mem hmem
    have hx : (call, i) ∈ (first :: rest).zipIdx := mem_zipIdx_iff_getElem?.mpr hi
    have hissued : (i, lastDevice first.cudaDev (first :: rest).zipIdx) ∈
        (cocclExecuteSendRecvBatch (succeeding (first :: rest)) first rest 0).2 := by
      refine mem_run_setDevice.mpr ⟨rfl, encode_reaches ?_ (fun _ => rfl) (fun _ => rfl)
        (mem_run_checks.mpr ⟨succeeding_checks hraw, mem_run_codecs.2 (fun _ => rfl) i ?_⟩)⟩
      · intro x hx
        have hpos := hraw x.1 (mem_of_getElem? (mem_zipIdx_iff_getElem?.mp hx))
        by_contra hnone
        simp [SendRecvCall.rawBytes, Option.not_isSome_iff_eq_none.mp hnone] at hpos
      · exact mem_map.mpr ⟨(call, i), mem_filter.mpr ⟨hx, by simp [hrecv]⟩, rfl⟩
    obtain ⟨call', hcall', heq⟩ := hown _ 0 _ hissued
    rw [hi] at hcall'
    cases hcall'
    exact heq
  · intro hlast outcomes device entry hentry
    rcases encode_issued (mem_run_setDevice.mp hentry).2 with ⟨x, hx, rfl⟩ | h
    · exact ⟨x.1, mem_zipIdx_iff_getElem?.mp hx, rfl⟩
    · obtain ⟨hchecks, h⟩ := mem_run_checks.mp h
      obtain ⟨hcall, heq⟩ := mem_run_codecs.1 entry h
      obtain ⟨x, hx, hindex⟩ := mem_map.mp hcall
      obtain ⟨hx, hrecv⟩ := mem_filter.mp hx
      have hget := mem_zipIdx_iff_getElem?.mp hx
      refine ⟨x.1, hindex ▸ hget, heq ▸ hlast (fun call hmem => ?_) x.1
        (mem_of_getElem? hget) (of_decide_eq_true hrecv)⟩
      obtain ⟨i, hi⟩ := getElem?_of_mem hmem
      have hvalid := hchecks _ (mem_append_left _ (mem_append_right _
        (mem_map_of_mem (mem_zipIdx_iff_getElem?.mpr hi : (call, i) ∈ _))))
      simp only [ite_eq_left_iff, reduceCtorEq, imp_false, not_not] at hvalid
      have hvalid := cocclFrameMetadataValid_iff.mp hvalid
      omega

end

/-- A receive of four values on a communicator of device `cudaDev`. -/
def receiveOn (cudaDev : ℕ) : SendRecvCall :=
  ⟨⟨0, 4096, 4, .float32, .sum, 0, .recv, .sendRecv,
    { handle := cudaDev, rank := 0, nRanks := 1, localRanks := 1, nNodes := 1
      rank_lt := Nat.one_pos, localRanks_pos := Nat.one_pos, rankToNode := fun _ => 0 }, 0⟩,
    cudaDev, false⟩

/-- Of two receives on two devices the first is decompressed on the other's device. -/
theorem receives_not_onOwnDevices : ¬OnOwnDevices (receiveOn 0) [receiveOn 1] := by
  intro hown
  obtain ⟨call, hcall, hdevice⟩ := hown (succeeding [receiveOn 0, receiveOn 1]) 0 (0, 1) (by decide)
  cases hcall
  exact absurd hdevice (by decide)

end Coccl.SendRecv
