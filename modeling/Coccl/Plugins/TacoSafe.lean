import Coccl.Plugins.TacoLayout

/-!
# Safety of the layout of TACO

What the checks of `compress` and `decompress` leave to their kernels is well formed, and the
condition of a safe layout on top of it is that elements come in fours.
-/

namespace Coccl

open Checked List CompressorView

namespace TacoCompressor

namespace Launch

variable {launch : Launch} {chunks : ℕ} (h : launch.WellFormed chunks)

/-! ## Scales -/

theorem eq_of_mem_ite {p : Prop} [Decidable p] {x a : ℕ} (ha : a ∈ if p then [x] else []) :
    a = x := by
  split_ifs at ha
  · exact mem_singleton.mp ha
  · cases ha

/-- The offsets of a list of addresses in the encoded buffer. -/
def offsets (launch : Launch) (accesses : Thread → List ℕ) : List ℕ :=
  (launch.threads.flatMap accesses).map (· - launch.encoded)

/-- The offset of a scale of some group, where scales begin at `start` in their chunk. -/
def ScaleAt (launch : Launch) (chunks start offset : ℕ) : Prop :=
  ∃ chunk < chunks, ∃ group < launch.groups,
    offset = chunk * launch.encodedStride + (start + group * 4)

variable {offset : ℕ}

include h

theorem first_mem {group chunk : ℕ} (hgroup : group < launch.groups) (hchunk : chunk < chunks) :
    (group, chunk, 0) ∈ launch.threads :=
  (mem_threads h).mpr ⟨hgroup, hchunk, (groupSize_spec h.groupSize).1⟩

/-- Some threads of a group access its scale: the first one that writes it, or any that read it. -/
theorem mem_offsets_scale {p : Thread → Prop} [DecidablePred p] {scale : Thread → ℕ} {start : ℕ}
    (hfirst : ∀ group < launch.groups, ∀ chunk < chunks, p (group, chunk, 0))
    (hscale : ∀ thread ∈ launch.threads, scale thread =
      launch.encoded + thread.2.1 * launch.encodedStride + (start + thread.1 * 4)) :
    (offset ∈ launch.offsets fun thread => if p thread then [scale thread] else []) ↔
      launch.ScaleAt chunks start offset := by
  simp only [offsets, mem_map, mem_flatMap]
  constructor
  · rintro ⟨a, ⟨thread, hthread, ha⟩, rfl⟩
    obtain ⟨hgroup, hchunk, -⟩ := (mem_threads h).mp hthread
    refine ⟨thread.2.1, hchunk, thread.1, hgroup, ?_⟩
    rw [eq_of_mem_ite ha, hscale thread hthread]
    omega
  · rintro ⟨chunk, hchunk, group, hgroup, rfl⟩
    have hthread := first_mem h hgroup hchunk
    refine ⟨_, ⟨_, hthread, mem_ite_nil_right.mpr
      ⟨hfirst group hgroup chunk hchunk, mem_singleton_self _⟩⟩, ?_⟩
    rw [hscale _ hthread]
    dsimp only
    omega

theorem mem_offsets_quantScaleStores : offset ∈ launch.offsets launch.quantScaleStores ↔
    launch.ScaleAt chunks launch.elementsPerChunk offset :=
  mem_offsets_scale h (fun _ _ _ _ => rfl) fun _ hthread => quantScale_eq h hthread

theorem mem_offsets_adaScaleStores : offset ∈ launch.offsets launch.adaScaleStores ↔
    launch.ScaleAt chunks (launch.elementsPerChunk + launch.scaleBytes) offset :=
  mem_offsets_scale h (fun _ _ _ _ => rfl) fun _ hthread => adaScale_eq h hthread

theorem idx_first_lt (group : ℕ) (hgroup : group < launch.groups) (chunk : ℕ)
    (hchunk : chunk < chunks) : launch.idx (group, chunk, 0) < launch.elementsPerChunk := by
  obtain ⟨hpos, -, -, hlast⟩ := groups_spec h
  have hmul := @Blocks.mul_add_le _ launch.groupSize _ hgroup
  rw [idx_eq h (first_mem h hgroup hchunk), Nat.cast_lt, element]
  dsimp only
  omega

theorem mem_offsets_quantScaleLoads : offset ∈ launch.offsets launch.quantScaleLoads ↔
    launch.ScaleAt chunks launch.elementsPerChunk offset :=
  mem_offsets_scale h (idx_first_lt h) fun _ hthread => quantScale_eq h hthread

theorem mem_offsets_adaScaleLoads : offset ∈ launch.offsets launch.adaScaleLoads ↔
    launch.ScaleAt chunks (launch.elementsPerChunk + launch.scaleBytes) offset :=
  mem_offsets_scale h (idx_first_lt h) fun _ hthread => adaScale_eq h hthread

/-! ## Data -/

/-- The offsets of the data. -/
def dataOffsets (launch : Launch) (chunks : ℕ) : List ℕ :=
  (List.range chunks ×ˢ List.range launch.elementsPerChunk).map fun byte =>
    byte.1 * launch.encodedStride + byte.2

theorem offsets_perm {accesses : Thread → List ℕ}
    (hperm : (launch.threads.flatMap accesses).Perm launch.dataAddresses) :
    (launch.offsets accesses).Perm (launch.dataOffsets chunks) := by
  refine (hperm.map _).trans (List.Perm.of_eq ?_)
  rw [dataAddresses, dataOffsets, map_map, h.gridY]
  refine map_congr_left fun byte _ => ?_
  rw [Function.comp_apply]
  omega

/-- **Every byte of data is written once.** -/
theorem offsets_dataStores :
    (launch.offsets launch.dataStores).Perm (launch.dataOffsets chunks) := by
  refine offsets_perm h (flatMap_perm_dataAddresses h (fun i hi => ?_) launch.dataStores_nodup
    fun thread hthread a => mem_dataStores h hthread)
  unfold writer
  split_ifs <;> omega

theorem offsets_dataLoads : (launch.offsets launch.dataLoads).Perm (launch.dataOffsets chunks) := by
  refine offsets_perm h (flatMap_perm_dataAddresses h (fun i hi => hi) (fun thread => ?_)
    fun thread hthread a => mem_dataLoads h hthread)
  unfold dataLoads
  split_ifs
  · exact nodup_singleton _
  · exact nodup_nil

/-! ## Regions -/

/-- The data, quantisation scales and adaptive scales of a chunk, each with its offset and size. -/
def chunkRegions (launch : Launch) (chunk : ℕ) : List (ℕ × ℕ) :=
  [(chunk * launch.encodedStride, launch.elementsPerChunk),
    (chunk * launch.encodedStride + launch.elementsPerChunk, launch.scaleBytes),
    (chunk * launch.encodedStride + launch.elementsPerChunk + launch.scaleBytes,
      launch.scaleBytes)]

/-- The regions of the chunks follow one another. -/
theorem chunkRegions_tile (count : ℕ) : Tiling.Tiles Prod.fst Prod.snd 0
    ((List.range count).flatMap launch.chunkRegions) (count * launch.encodedStride) := by
  have hpos := h.elements_pos
  have hgroups := (groups_spec h).1
  have hscale := h.scaleBytes
  have hstride := h.encodedStride
  induction count with
  | zero => exact (zero_mul _).symm
  | succ count ih =>
    rw [range_succ, flatMap_append, flatMap_singleton]
    refine ih.append ⟨rfl, hpos, rfl, ?_, rfl, ?_, ?_⟩
    · dsimp only
      omega
    · dsimp only
      omega
    · rw [Tiling.Tiles, Nat.succ_mul]
      dsimp only
      omega

/-! ## Alignment -/

variable {thread : Thread}

section

variable (hencoded : 256 ∣ launch.encoded) (hfour : launch.elementsPerChunk % 4 = 0)

include hencoded hfour

/-- If elements come in fours, so does every chunk. -/
theorem four_dvd_chunk (chunk : ℕ) : 4 ∣ launch.encoded + chunk * launch.encodedStride := by
  have hstride : 4 ∣ launch.encodedStride := by
    rw [h.encodedStride]
    omega
  exact (dvd_trans (by norm_num) hencoded).add (hstride.mul_left chunk)

theorem four_dvd_wordStores (hthread : thread ∈ launch.threads) {a : ℕ}
    (ha : a ∈ launch.wordStores thread) : 4 ∣ a := by
  have hchunk := four_dvd_chunk h hencoded hfour thread.2.1
  unfold wordStores at ha
  split_ifs at ha with hword
  · have hfull := (fullWord_iff h hthread).mp hword.2
    rw [mem_singleton, idx_div_four h hthread, dataAddress_eq h hthread (by omega)] at ha
    rw [ha]
    exact hchunk.add (dvd_mul_left 4 _)
  · cases ha

theorem four_dvd_quantScale (hthread : thread ∈ launch.threads) : 4 ∣ launch.quantScale thread := by
  have hchunk := four_dvd_chunk h hencoded hfour thread.2.1
  rw [quantScale_eq h hthread]
  omega

theorem four_dvd_adaScale (hthread : thread ∈ launch.threads) : 4 ∣ launch.adaScale thread := by
  have hchunk := four_dvd_chunk h hencoded hfour thread.2.1
  have hscale := h.scaleBytes
  rw [adaScale_eq h hthread]
  omega

end

/-- The elements of a chunk of `float` are aligned whatever their number is. -/
theorem four_dvd_rawAccesses (hraw : 256 ∣ launch.raw) (hfloat : launch.datatype = .float32)
    (hthread : thread ∈ launch.threads) {a : ℕ} (ha : a ∈ launch.rawAccesses thread) : 4 ∣ a := by
  obtain ⟨-, hchunk, -⟩ := (mem_threads h).mp hthread
  have hsize : dataTypeSize launch.datatype = 4 := by rw [hfloat]; rfl
  have hstride := h.rawStride
  have hle := h.raw_le
  have hrow := @Blocks.mul_add_le _ launch.rawStride _ hchunk
  rw [hsize] at hstride
  unfold rawAccesses at ha
  split_ifs at ha with helement
  · rw [idx_eq h hthread, Nat.cast_lt] at helement
    have hbase : launch.rawBase thread = launch.raw + thread.2.1 * launch.rawStride := by
      rw [rawBase, sizeMul_eq (by omega), sizeAdd_eq (by omega)]
    rw [mem_singleton, idx_eq h hthread, hsize, hbase, pointer_eq (by omega) (by omega)] at ha
    have hrow4 : 4 ∣ thread.2.1 * launch.rawStride :=
      Dvd.dvd.mul_left (by rw [hstride]; exact dvd_mul_left 4 _) _
    omega
  · cases ha

end Launch

/-! ## Safety -/

/-- The layout that one kernel writes and the other reads is safe, for buffers whose addresses are
multiples of 256. -/
structure LayoutSafe (encode decode : Launch) (chunks committed : ℕ) : Prop where
  launchable : ∀ launch ∈ [encode, decode], launch.gridX ≤ 2 ^ 31 - 1 ∧ launch.gridY ≤ 65535
  tiled : Tiling.Tiles Prod.fst Prod.snd 0
    ((List.range chunks).flatMap encode.chunkRegions) committed
  written : (encode.offsets encode.dataStores).Perm (encode.dataOffsets chunks)
  quantScales : ∀ offset, offset ∈ encode.offsets encode.quantScaleStores ↔
    ∃ chunk < chunks, ∃ group < encode.groups,
      offset = chunk * encode.encodedStride + (encode.elementsPerChunk + group * 4)
  adaScales : ∀ offset, offset ∈ encode.offsets encode.adaScaleStores ↔
    ∃ chunk < chunks, ∃ group < encode.groups, offset = chunk * encode.encodedStride +
      (encode.elementsPerChunk + encode.scaleBytes + group * 4)
  storesAligned : ∀ thread ∈ encode.threads, ∀ a ∈ encode.wordStores thread ++
    encode.quantScaleStores thread ++ encode.adaScaleStores thread, 4 ∣ a
  loadsAligned : ∀ thread ∈ decode.threads,
    ∀ a ∈ decode.quantScaleLoads thread ++ decode.adaScaleLoads thread, 4 ∣ a
  rawAligned : ∀ launch ∈ [encode, decode], launch.datatype = .float32 →
    ∀ thread ∈ launch.threads, ∀ a ∈ launch.rawAccesses thread, 4 ∣ a
  dataRead : (decode.offsets decode.dataLoads).Perm (encode.offsets encode.dataStores)
  quantScalesRead : ∀ offset, offset ∈ decode.offsets decode.quantScaleLoads ↔
    offset ∈ encode.offsets encode.quantScaleStores
  adaScalesRead : ∀ offset, offset ∈ decode.offsets decode.adaScaleLoads ↔
    offset ∈ encode.offsets encode.adaScaleStores

section

variable {encode decode : Launch} {chunks : ℕ} (hencode : encode.WellFormed chunks)
  (hdecode : decode.WellFormed chunks)
  (helements : decode.elementsPerChunk = encode.elementsPerChunk)
  (hgroupSize : decode.groupSize = encode.groupSize)

include hencode hdecode helements hgroupSize in
theorem layoutSafe_iff (hlaunched : ∀ launch ∈ [encode, decode],
      launch.gridX ≤ 2 ^ 31 - 1 ∧ launch.gridY ≤ 65535)
    (hencodeAligned : 256 ∣ encode.encoded ∧ 256 ∣ encode.raw)
    (hdecodeAligned : 256 ∣ decode.encoded ∧ 256 ∣ decode.raw) :
    LayoutSafe encode decode chunks (chunks * encode.encodedStride) ↔
      encode.elementsPerChunk % 4 = 0 := by
  have hgroups : decode.groups = encode.groups := by
    rw [Launch.groups, Launch.groups, helements, hgroupSize]
  have hscale : decode.scaleBytes = encode.scaleBytes := by
    rw [hdecode.scaleBytes, hencode.scaleBytes, hgroups]
  have hstride : decode.encodedStride = encode.encodedStride := by
    rw [hdecode.encodedStride, hencode.encodedStride, hgroups, helements]
  constructor
  · intro hsafe
    have hthread := Launch.first_mem hencode (Launch.groups_spec hencode).1 hencode.chunks_pos
    have haligned := hsafe.storesAligned _ hthread (encode.quantScale (0, 0, 0))
      (mem_append_left _ (mem_append_right _ (mem_singleton_self _)))
    rw [Launch.quantScale_eq hencode hthread] at haligned
    dsimp only at haligned
    omega
  · intro hfour
    have hfour' : decode.elementsPerChunk % 4 = 0 := by rwa [helements]
    refine ⟨hlaunched, Launch.chunkRegions_tile hencode chunks, Launch.offsets_dataStores hencode,
      fun _ => Launch.mem_offsets_quantScaleStores hencode,
      fun _ => Launch.mem_offsets_adaScaleStores hencode, fun thread hthread a ha => ?_,
      fun thread hthread a ha => ?_, ?_, ?_, fun offset => ?_, fun offset => ?_⟩
    · rcases mem_append.mp ha with ha | ha
      · rcases mem_append.mp ha with ha | ha
        · exact Launch.four_dvd_wordStores hencode hencodeAligned.1 hfour hthread ha
        · rw [Launch.eq_of_mem_ite ha]
          exact Launch.four_dvd_quantScale hencode hencodeAligned.1 hfour hthread
      · rw [Launch.eq_of_mem_ite ha]
        exact Launch.four_dvd_adaScale hencode hencodeAligned.1 hfour hthread
    · rcases mem_append.mp ha with ha | ha <;> rw [Launch.eq_of_mem_ite ha]
      · exact Launch.four_dvd_quantScale hdecode hdecodeAligned.1 hfour' hthread
      · exact Launch.four_dvd_adaScale hdecode hdecodeAligned.1 hfour' hthread
    · rintro launch (_ | ⟨_, _ | ⟨_, ⟨⟩⟩⟩) hfloat thread hthread a ha
      · exact Launch.four_dvd_rawAccesses hencode hencodeAligned.2 hfloat hthread ha
      · exact Launch.four_dvd_rawAccesses hdecode hdecodeAligned.2 hfloat hthread ha
    · have hoffsets : decode.dataOffsets chunks = encode.dataOffsets chunks := by
        rw [Launch.dataOffsets, Launch.dataOffsets, helements, hstride]
      exact (Launch.offsets_dataLoads hdecode).trans
        (hoffsets ▸ (Launch.offsets_dataStores hencode).symm)
    · rw [Launch.mem_offsets_quantScaleLoads hdecode, Launch.mem_offsets_quantScaleStores hencode,
        Launch.ScaleAt, Launch.ScaleAt, hgroups, hstride, helements]
    · rw [Launch.mem_offsets_adaScaleLoads hdecode, Launch.mem_offsets_adaScaleStores hencode,
        Launch.ScaleAt, Launch.ScaleAt, hgroups, hstride, helements, hscale]

end

/-! ## The calls -/

section

variable {device : Device} {config : TacoConfig}

/-- The groups of a chunk. -/
def groupsOf (config : TacoConfig) (elementsPerChunk : ℕ) : ℕ :=
  (elementsPerChunk + (config.groupSize - 1)) / config.groupSize

/-- What both calls launch. -/
def tacoLaunch (config : TacoConfig) (datatype : DataType)
    (raw encoded elementsPerChunk rawStride chunks : ℕ) : Launch where
  datatype := datatype
  groupSize := config.groupSize
  raw := raw
  encoded := encoded
  elementsPerChunk := elementsPerChunk
  rawStride := rawStride
  encodedStride := elementsPerChunk + groupsOf config elementsPerChunk * 8
  scaleBytes := groupsOf config elementsPerChunk * 4
  gridX := groupsOf config elementsPerChunk
  gridY := chunks

variable {elementsPerChunk : ℕ}

section

variable (hvalid : validGroupSize config.groupSize = true)

include hvalid

theorem divUp_eq (hle : elementsPerChunk ≤ intMax) :
    divUp elementsPerChunk config.groupSize = groupsOf config elementsPerChunk := by
  obtain ⟨hpos, -, hdvd⟩ := Launch.groupSize_spec hvalid
  have hgroupSize := Nat.le_of_dvd (by norm_num) hdvd
  unfold intMax at hle
  rw [divUp, sizeAdd_eq (by norm_num [sizeMax]; omega)]
  rfl

theorem chunkLayout_eq (hle : elementsPerChunk ≤ intMax) {layout : ℕ × ℕ}
    (h : chunkLayout config elementsPerChunk = some layout) :
    layout = (groupsOf config elementsPerChunk * 4,
      elementsPerChunk + groupsOf config elementsPerChunk * 8) := by
  rw [chunkLayout, divUp_eq hvalid hle] at h
  obtain ⟨scaleBytes, hscale, h⟩ := Option.bind_eq_some_iff.mp h
  obtain ⟨metadataBytes, hmetadata, h⟩ := Option.bind_eq_some_iff.mp h
  obtain ⟨chunkBytes, hchunk, h⟩ := Option.bind_eq_some_iff.mp h
  obtain ⟨rfl, -⟩ := mul_eq_some.mp hscale
  obtain ⟨rfl, -⟩ := mul_eq_some.mp hmetadata
  obtain rfl := add_le hchunk
  obtain rfl := Option.some.inj h
  rw [Nat.mul_assoc]

theorem groupsOf_lt (hle : elementsPerChunk ≤ intMax) :
    groupsOf config elementsPerChunk < 2 ^ 32 := by
  obtain ⟨hpos, -, hdvd⟩ := Launch.groupSize_spec hvalid
  have hgroupSize := Nat.le_of_dvd (by norm_num) hdvd
  unfold intMax at hle
  exact (Nat.div_le_self _ _).trans_lt (by omega)

end

/-- What a compress that encodes launches and commits. -/
theorem compress_eq_ok {input output view : CompressorView} {launch : Launch}
    (h : compress device config input output = .ok (some launch, view)) :
    device.launches launch = true ∧ validGroupSize config.groupSize = true ∧
      0 < input.elementsPerChunk ∧ input.elementsPerChunk ≤ intMax ∧ 0 < input.chunks ∧
      view.chunks = input.chunks ∧ view.bytes = input.chunks * launch.encodedStride ∧
      launch = tacoLaunch config input.datatype input.data output.data input.elementsPerChunk
        (input.bytes / input.chunks) input.chunks := by
  unfold compress at h
  rw [ite_error_eq_ok] at h
  obtain ⟨hchecks, h⟩ := h
  simp only [not_or, Bool.not_eq_false, not_lt] at hchecks
  obtain ⟨-, helements, hle, hchunksLe⟩ := hchecks
  obtain ⟨outputBytes, hbytes, h⟩ := bind_eq_ok.mp h
  obtain ⟨layout, hlayout, h⟩ := bind_eq_ok.mp h
  have hbytes := orElse_eq_ok.mp hbytes
  have hlayout := orElse_eq_ok.mp hlayout
  rw [compressedBytes] at hbytes
  split_ifs at hbytes with hvalid
  simp only [not_or, Bool.not_eq_false] at hvalid
  obtain ⟨layout', hlayout', hbytes⟩ := Option.bind_eq_some_iff.mp hbytes
  obtain rfl := Option.some.inj (hlayout'.symm.trans hlayout)
  obtain ⟨rfl, hsize⟩ := mul_eq_some.mp hbytes
  obtain rfl := chunkLayout_eq hvalid.2 hle hlayout
  have hchunks : 0 < input.chunks := by
    refine pos_of_ne_zero fun hzero => helements ?_
    rw [elementsPerChunk, if_pos hzero]
  split_ifs at h with hraw hcapacity
  · obtain ⟨_, -, h⟩ := bind_eq_ok.mp h
    cases h
  · dsimp only at h
    rw [ite_error_eq_ok, Bool.not_eq_false] at h
    obtain ⟨hlaunched, h⟩ := h
    obtain ⟨view', hview, h⟩ := bind_eq_ok.mp h
    obtain ⟨hlaunch, rfl⟩ := Prod.ext_iff.mp (Except.ok.inj h)
    obtain ⟨-, -, -, rfl⟩ := (commitBytes_eq_ok hsize hchunks).mp hview
    obtain rfl := Option.some.inj hlaunch
    refine ⟨hlaunched, hvalid.2, pos_of_ne_zero helements, hle, hchunks, rfl,
      mul_comm _ _, ?_⟩
    rw [tacoLaunch, divUp_eq hvalid.2 hle, Nat.mod_eq_of_lt (groupsOf_lt hvalid.2 hle),
      Nat.mod_eq_of_lt (hchunksLe.trans_lt (by norm_num [intMax]))]

/-- What a decompress launches. -/
theorem decompress_eq_ok {input output : CompressorView} {launch : Launch}
    (h : decompress device config input output = .ok launch) :
    device.launches launch = true ∧ input.chunks = output.chunks ∧
      input.bytes = input.chunks * launch.encodedStride ∧
      launch = tacoLaunch config output.datatype output.data input.data
        (output.elements / output.chunks)
        (output.elements / output.chunks * dataTypeSize output.datatype) input.chunks := by
  unfold decompress at h
  rw [ite_error_eq_ok] at h
  obtain ⟨hchecks, h⟩ := h
  simp only [not_or, Bool.not_eq_false, not_lt, Decidable.not_not] at hchecks
  obtain ⟨-, -, -, hle, hchunks, hchunksLe⟩ := hchecks
  obtain ⟨layout, hlayout, h⟩ := bind_eq_ok.mp h
  obtain ⟨expected, hexpected, h⟩ := bind_eq_ok.mp h
  rw [ite_error_eq_ok, Decidable.not_not] at h
  obtain ⟨hbytes, h⟩ := h
  obtain ⟨stride, hstride, h⟩ := bind_eq_ok.mp h
  rw [ite_error_eq_ok, Bool.not_eq_false] at h
  obtain ⟨hvalid, h⟩ := h
  obtain rfl := chunkLayout_eq hvalid hle (orElse_eq_ok.mp hlayout)
  obtain ⟨rfl, -⟩ := mul_eq_some.mp (orElse_eq_ok.mp hexpected)
  obtain ⟨rfl, -⟩ := mul_eq_some.mp (orElse_eq_ok.mp hstride)
  rw [ite_error_eq_ok, Bool.not_eq_false] at h
  obtain ⟨hlaunched, h⟩ := h
  obtain rfl := Except.ok.inj h
  refine ⟨hlaunched, hchunks, hbytes.symm.trans (mul_comm _ _), ?_⟩
  rw [tacoLaunch, divUp_eq hvalid hle, Nat.mod_eq_of_lt (groupsOf_lt hvalid hle),
    Nat.mod_eq_of_lt (hchunksLe.trans_lt (by norm_num [intMax]))]

/-- The layout that TACO encodes to and decodes from is safe if and only if elements come in
fours. -/
theorem tacoLayout_safe_iff {input output view received decoded : CompressorView}
    {encode decode : Launch}
    (hcompress : compress device config input output = .ok (some encode, view))
    (hdecompress : decompress device config received decoded = .ok decode)
    (hraw : input.bytes = input.chunks * (input.elementsPerChunk * dataTypeSize input.datatype))
    (hreceived : received.chunks = view.chunks ∧ received.bytes = view.bytes)
    (hdecoded : decoded.elementsPerChunk = input.elementsPerChunk)
    (hencodeSpace : output.data + view.bytes ≤ sizeMax + 1 ∧
      input.data + input.bytes ≤ sizeMax + 1)
    (hdecodeSpace : received.data + received.bytes ≤ sizeMax + 1 ∧
      decoded.data + decoded.chunks * (decoded.elementsPerChunk * dataTypeSize decoded.datatype) ≤
        sizeMax + 1)
    (hencodeAligned : 256 ∣ output.data ∧ 256 ∣ input.data)
    (hdecodeAligned : 256 ∣ received.data ∧ 256 ∣ decoded.data) :
    LayoutSafe encode decode input.chunks view.bytes ↔ input.elementsPerChunk % 4 = 0 := by
  obtain ⟨hencodes, hvalid, hpos, hle, hchunks, hviewChunks, hviewBytes, rfl⟩ :=
    compress_eq_ok hcompress
  obtain ⟨hdecodes, hdecodedChunks, hreceivedBytes, rfl⟩ := decompress_eq_ok hdecompress
  have hchunksSame : received.chunks = input.chunks := hreceived.1.trans hviewChunks
  have helements : decoded.elements / decoded.chunks = input.elementsPerChunk := by
    rw [← hdecoded, elementsPerChunk, if_neg (by omega)]
  have hrawStride : input.bytes / input.chunks =
      input.elementsPerChunk * dataTypeSize input.datatype := by
    rw [hraw, Nat.mul_div_cancel_left _ hchunks]
  rw [hviewBytes]
  refine layoutSafe_iff ?_ ?_ helements rfl ?_ hencodeAligned hdecodeAligned
  · exact ⟨hvalid, hpos, hle, hchunks, rfl, rfl, hrawStride, rfl, rfl,
      hviewBytes ▸ hencodeSpace.1, by rw [hraw, ← hrawStride] at hencodeSpace; exact hencodeSpace.2⟩
  · refine ⟨hvalid, helements ▸ hpos, helements ▸ hle, hchunks, rfl, rfl, rfl, rfl, hchunksSame,
      ?_, ?_⟩
    · rw [← hchunksSame, ← hreceivedBytes]
      exact hdecodeSpace.1
    · rw [← hchunksSame, hdecodedChunks, helements, ← hdecoded]
      exact hdecodeSpace.2
  · rintro launch (_ | ⟨_, _ | ⟨_, ⟨⟩⟩⟩)
    · exact device.limits _ hencodes
    · exact device.limits _ hdecodes

/-- The default configuration. -/
def defaultConfig : TacoConfig := ⟨128⟩

/-- A device that takes every grid within the limits. -/
def freeDevice : Device where
  launches launch := launch.gridX ≤ 2 ^ 31 - 1 ∧ launch.gridY ≤ 65535
  limits _ h := of_decide_eq_true h

/-- A buffer of `float`s. -/
def floats (data elements chunks : ℕ) : CompressorView :=
  ⟨data, elements * 4, elements * 4, elements, chunks, .float32, none, 0⟩

/-- A buffer of bytes. -/
def encodedBuffer (data bytes chunks : ℕ) : CompressorView :=
  ⟨data, bytes, bytes, bytes, chunks, .int8, none, 0⟩

/-- What is launched for some chunks of `elements` in one group each. -/
def singleGroup (raw encoded elements chunks : ℕ) : Launch :=
  ⟨.float32, 128, raw, encoded, elements, elements * 4, elements + 8, 4, 1, chunks⟩

/-- Two chunks of a hundred elements. -/
theorem tacoLayout_safe_hundred :
    LayoutSafe (singleGroup 4096 8192 100 2) (singleGroup 16384 8192 100 2) 2 216 := by
  have hcompress : compress freeDevice defaultConfig (floats 4096 200 2)
      (encodedBuffer 8192 216 2) = .ok (some (singleGroup 4096 8192 100 2),
        encodedBuffer 8192 216 2) := rfl
  have hdecompress : decompress freeDevice defaultConfig (encodedBuffer 8192 216 2)
      (floats 16384 200 2) = .ok (singleGroup 16384 8192 100 2) := rfl
  exact (tacoLayout_safe_iff hcompress hdecompress rfl ⟨rfl, rfl⟩ rfl (by decide) (by decide)
    (by decide) (by decide)).mpr (by decide)

/-- A chunk of five elements: its scales are not aligned. -/
theorem tacoLayout_unsafe_five :
    compress freeDevice defaultConfig (floats 4096 5 1) (encodedBuffer 8192 13 1) =
      .ok (some (singleGroup 4096 8192 5 1), encodedBuffer 8192 13 1) ∧
    decompress freeDevice defaultConfig (encodedBuffer 8192 13 1) (floats 16384 5 1) =
      .ok (singleGroup 16384 8192 5 1) ∧
    ¬ LayoutSafe (singleGroup 4096 8192 5 1) (singleGroup 16384 8192 5 1) 1 13 := by
  refine ⟨rfl, rfl, fun hsafe => ?_⟩
  have haligned := hsafe.storesAligned (0, 0, 0) (by decide)
    ((singleGroup 4096 8192 5 1).quantScale (0, 0, 0)) (by decide)
  exact absurd haligned (by decide)

end

end TacoCompressor

end Coccl
