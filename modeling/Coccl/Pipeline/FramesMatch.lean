import Coccl.Pipeline.Frames

/-!
# Framed exchanges match

Rank `a` sends to rank `b` the frames it has for it, in order, and rank `b` expects the sizes that
it read from the metadata of rank `a`. So on each channel the calls match (`matches_postsOf`), and
every slot gets the payload its metadata entry belongs to (`receivedFrames_eq`).
-/

namespace Coccl

open Messages Blocks List FrameKind FrameExchange

/-! ## All ranks -/

/-- The memory of a rank after the group of messages, from what every rank held before. -/
def receivedFrames {β : Type} (handle nRanks : ℕ) (posts : ℕ → List (Post Channel))
    (memory : ℕ → ℕ → β) (rank : ℕ) : ℕ → β :=
  deliver (memory rank) ((List.range nRanks).flatMap fun q =>
    (transfers (posts q) (posts rank) (handle, q, rank)).map fun message =>
      ⟨memory q, message.2, message.1⟩)

/-- The lists that the ranks built fit together. `edges` are the ranks' sides of the stage,
`recvMetadata` the metadata they got, `lists` their exchanges and `posts` the native calls they
issue. -/
structure FramesMatch (kind : FrameKind) (handle nRanks frames stride : ℕ) (edges : ℕ → FrameEdge)
    (recvMetadata : ℕ → ℕ → FrameMetadata) (lists : ℕ → List FrameExchange)
    (posts : ℕ → List (Post Channel)) : Prop where
  /-- Exchange by exchange, one rank sends what the other expects. -/
  paired : ∀ a < nRanks, ∀ b < nRanks,
    ((lists a).filter fun e => e.peer = b).map sendBytes =
      ((lists b).filter fun e => e.peer = a).map recvBytes
  /-- So the native calls match. -/
  matched : ∀ a < nRanks, ∀ b < nRanks, Matches (posts a) (posts b) (handle, a, b)
  /-- Every slot is received in, once. -/
  slots : ∀ a < nRanks, (lists a).map recvSlot =
    (List.range (kind.outputFrames nRanks frames)).map fun f => (edges a).output + f * stride
  inside : ∀ a < nRanks, ∀ e ∈ lists a, 0 < e.recvBytes ∧ (edges a).output ≤ e.recvSlot ∧
    e.recvSlot + e.recvBytes ≤ (edges a).output + kind.outputFrames nRanks frames * stride
  apart : ∀ a < nRanks, (lists a).Pairwise fun e e' =>
    Span.Apart ⟨e.recvSlot, e.recvBytes⟩ ⟨e'.recvSlot, e'.recvBytes⟩
  /-- Nothing else is written. -/
  kept : ∀ (β : Type) (memory : ℕ → ℕ → β), ∀ a < nRanks, ∀ x,
    (x < (edges a).output ∨ (edges a).output + kind.outputFrames nRanks frames * stride ≤ x) →
    receivedFrames handle nRanks posts memory a x = memory a x
  /-- The entry and the payload of a slot come from one frame: number `f % framesPerPeer` of those
  that rank `f / framesPerPeer` has for this rank. -/
  delivered : ∀ (β : Type) (memory : ℕ → ℕ → β), ∀ a < nRanks,
    ∀ f < kind.outputFrames nRanks frames, ∃ source frame,
      source = f / kind.framesPerPeer nRanks frames ∧ source < nRanks ∧
      frame = kind.sendIndex nRanks frames a (f % kind.framesPerPeer nRanks frames) ∧
      frame < frames ∧
      recvMetadata a f = (edges source).metadata frame ∧
      ∀ j < ((edges source).metadata frame).payloadBytes,
        receivedFrames handle nRanks posts memory a ((edges a).output + f * stride + j) =
          memory source ((edges source).ptr + frame * stride + j)

section

variable {kind : FrameKind} {nRanks frames stride : ℕ} {edges : ℕ → FrameEdge}

/-- The list that rank `a` builds from the metadata it got. -/
def FrameKind.listOf (kind : FrameKind) (nRanks frames stride : ℕ) (edges : ℕ → FrameEdge) (a : ℕ) :
    List FrameExchange :=
  exchangeList kind nRanks frames stride (edges a).ptr (edges a).output (edges a).metadata
    (kind.gatherMetadata nRanks frames edges a)

/-- The exchange of frame `i` between rank `a` and rank `q`, as rank `a` lists it. -/
def FrameKind.exchangeAt (kind : FrameKind) (nRanks frames stride : ℕ) (edges : ℕ → FrameEdge)
    (a q i : ℕ) : FrameExchange :=
  kind.exchangeOf nRanks frames stride (edges a).ptr (edges a).output (edges a).metadata
    (kind.gatherMetadata nRanks frames edges a) q i

/-- The frame that rank `a` sends to rank `b` as number `i`. -/
def FrameKind.sentSpan (kind : FrameKind) (nRanks frames stride : ℕ) (edges : ℕ → FrameEdge)
    (a b i : ℕ) : Span :=
  ⟨(edges a).ptr + kind.sendIndex nRanks frames b i * stride,
    ((edges a).metadata (kind.sendIndex nRanks frames b i)).payloadBytes⟩

/-- Where rank `b` receives frame `i` of rank `a`. -/
def FrameKind.receivedSpan (kind : FrameKind) (nRanks frames stride : ℕ) (edges : ℕ → FrameEdge)
    (a b i : ℕ) : Span :=
  ⟨(edges b).output + (a * kind.framesPerPeer nRanks frames + i) * stride,
    ((edges a).metadata (kind.sendIndex nRanks frames b i)).payloadBytes⟩

/-- The gathered metadata in rank-major order. -/
theorem gatherMetadata_eq (a b : ℕ) {i : ℕ} (hi : i < kind.framesPerPeer nRanks frames) :
    kind.gatherMetadata nRanks frames edges b (a * kind.framesPerPeer nRanks frames + i) =
      (edges a).metadata (kind.sendIndex nRanks frames b i) := by
  simp only [gatherMetadata]
  rw [mul_add_div hi, mul_add_mod hi]

theorem filter_listOf (a : ℕ) {b : ℕ} (hb : b < nRanks) :
    ((kind.listOf nRanks frames stride edges a).filter fun e => e.peer = b) =
      (List.range (kind.framesPerPeer nRanks frames)).map
        (kind.exchangeAt nRanks frames stride edges a b) :=
  filter_blocks (fun _ _ => rfl) hb

theorem sentSpans (a : ℕ) {b : ℕ} (hb : b < nRanks) :
    (((kind.listOf nRanks frames stride edges a).filter fun e => e.peer = b).map fun e =>
      (⟨e.sendSlot, e.sendBytes⟩ : Span)) =
      (List.range (kind.framesPerPeer nRanks frames)).map
        (kind.sentSpan nRanks frames stride edges a b) := by
  rw [filter_listOf a hb, map_map]
  rfl

theorem receivedSpans (b : ℕ) {a : ℕ} (ha : a < nRanks) :
    (((kind.listOf nRanks frames stride edges b).filter fun e => e.peer = a).map fun e =>
      (⟨e.recvSlot, e.recvBytes⟩ : Span)) =
      (List.range (kind.framesPerPeer nRanks frames)).map
        (kind.receivedSpan nRanks frames stride edges a b) := by
  rw [filter_listOf b ha, map_map]
  refine map_congr_left fun i hi => ?_
  simp only [Function.comp_apply, exchangeAt, FrameKind.exchangeOf, receivedSpan]
  rw [gatherMetadata_eq a b (mem_range.mp hi)]

variable {a : ℕ}

theorem mem_listOf {e : FrameExchange} :
    e ∈ kind.listOf nRanks frames stride edges a ↔ ∃ q < nRanks,
      ∃ i < kind.framesPerPeer nRanks frames,
        kind.exchangeAt nRanks frames stride edges a q i = e := by
  simp [listOf, exchangeList, exchangeAt]

@[simp] theorem recvSlot_exchangeAt (f : ℕ) : (kind.exchangeAt nRanks frames stride edges a
      (f / kind.framesPerPeer nRanks frames) (f % kind.framesPerPeer nRanks frames)).recvSlot =
    (edges a).output + f * stride := by
  simp only [exchangeAt, FrameKind.exchangeOf, Nat.div_add_mod']

@[simp] theorem recvBytes_exchangeAt (f : ℕ) : (kind.exchangeAt nRanks frames stride edges a
      (f / kind.framesPerPeer nRanks frames) (f % kind.framesPerPeer nRanks frames)).recvBytes =
    (kind.gatherMetadata nRanks frames edges a f).payloadBytes := by
  simp only [exchangeAt, FrameKind.exchangeOf, Nat.div_add_mod']

variable (hshape : kind = .allToAll → frames % nRanks = 0)

include hshape

/-- A list of exchanges as one loop over the slots. -/
theorem listOf_eq_map (a : ℕ) : kind.listOf nRanks frames stride edges a =
    (List.range (kind.outputFrames nRanks frames)).map fun f =>
      kind.exchangeAt nRanks frames stride edges a (f / kind.framesPerPeer nRanks frames)
        (f % kind.framesPerPeer nRanks frames) := by
  rw [outputFrames_eq hshape]
  exact flatMap_range_blocks _ _ _

/-! ## The ranks together -/

/-- All entries of all ranks are valid. -/
def EntriesValid (nRanks frames stride : ℕ) (edges : ℕ → FrameEdge) : Prop :=
  ∀ a < nRanks, (edges a).ptr ≠ 0 ∧ (edges a).output ≠ 0 ∧
    ∀ f < frames, cocclFrameMetadataValid ((edges a).metadata f) stride = true

variable (hvalid : EntriesValid nRanks frames stride edges)

include hvalid

theorem EntriesValid.gathered {a f : ℕ} (ha : a < nRanks)
    (hf : f < kind.outputFrames nRanks frames) :
    cocclFrameMetadataValid (kind.gatherMetadata nRanks frames edges a f) stride = true := by
  obtain ⟨q, hq, i, hi, rfl⟩ := exists_recvIndex hshape hf
  rw [gatherMetadata_eq q a hi]
  exact (hvalid q hq).2.2 _ (sendIndex_lt hshape ha hi)

theorem EntriesValid.bothWays (ha : a < nRanks) :
    ∀ e ∈ kind.listOf nRanks frames stride edges a, e.BothWays := by
  intro e he
  obtain ⟨q, hq, i, hi, rfl⟩ := mem_listOf.mp he
  have hsend := cocclFrameMetadataValid_iff.mp ((hvalid a ha).2.2 _ (sendIndex_lt hshape hq hi))
  have hrecv := cocclFrameMetadataValid_iff.mp
    (hvalid.gathered hshape ha (recvIndex_lt hshape hq hi))
  exact ⟨rfl, hsend.1.ne', hrecv.1.ne'⟩

theorem EntriesValid.commit (hframes : frames ≠ 0) {comm : Comm} (ha : a < nRanks)
    (hranks : comm.nRanks = nRanks) :
    cocclCommitFrameExchange (kind.listOf nRanks frames stride edges a) (some comm) =
      .ok ((kind.listOf nRanks frames stride edges a).flatMap fun e => e.posts (some comm)) := by
  have hne : kind.listOf nRanks frames stride edges a ≠ [] := by
    obtain ⟨q, hq, i, hi, -⟩ :=
      exists_sendIndex hshape (by omega) (pos_of_ne_zero hframes)
    exact ne_nil_of_mem (mem_listOf.mpr ⟨q, hq, i, hi, rfl⟩)
  rw [cocclCommitFrameExchange, if_neg hne, if_pos]
  refine all_eq_true.mpr fun e he => ?_
  obtain ⟨-, hsendBytes, hrecvBytes⟩ := hvalid.bothWays hshape ha e he
  obtain ⟨q, hq, i, hi, rfl⟩ := mem_listOf.mp he
  obtain ⟨hptr, houtput, hentries⟩ := hvalid a ha
  have hsend := cocclFrameMetadataValid_iff.mp (hentries _ (sendIndex_lt hshape hq hi))
  have hrecv := cocclFrameMetadataValid_iff.mp
    (hvalid.gathered hshape ha (recvIndex_lt hshape hq hi))
  simp only [accepted, exchangeComm, exchangeAt, FrameKind.exchangeOf, hranks, decide_eq_true_eq]
  exact ⟨hq, fun h => hsendBytes h.1, validSlot_of_le (by omega) hsendBytes hsend.2.1,
    validSlot_of_le (by omega) hrecvBytes hrecv.2.1⟩

end

variable {edges : ℕ → FrameEdge} {kind : FrameKind}

theorem FramesMatch.congr {handle nRanks frames stride : ℕ}
    {recvMetadata recvMetadata' : ℕ → ℕ → FrameMetadata} {lists lists' : ℕ → List FrameExchange}
    {posts : ℕ → List (Post Channel)} (hrecv : ∀ a < nRanks, recvMetadata a = recvMetadata' a)
    (hlists : ∀ a < nRanks, lists a = lists' a)
    (h : FramesMatch kind handle nRanks frames stride edges recvMetadata' lists' posts) :
    FramesMatch kind handle nRanks frames stride edges recvMetadata lists posts where
  paired a ha b hb := by rw [hlists a ha, hlists b hb, h.paired a ha b hb]
  matched := h.matched
  slots a ha := by rw [hlists a ha, h.slots a ha]
  inside a ha e he := h.inside a ha e (hlists a ha ▸ he)
  apart a ha := by
    rw [hlists a ha]
    exact h.apart a ha
  kept := h.kept
  delivered β memory a ha f hf := by
    rw [hrecv a ha]
    exact h.delivered β memory a ha f hf

section

variable {kind : FrameKind} {handle nRanks frames stride : ℕ} {edges : ℕ → FrameEdge}
  {comms : ℕ → Comm}

/-- The communicator of every rank. -/
def SameComm (handle nRanks : ℕ) (comms : ℕ → Comm) : Prop :=
  ∀ a < nRanks, (comms a).handle = handle ∧ (comms a).rank = a ∧ (comms a).nRanks = nRanks

/-- The native calls of a rank. -/
def FrameKind.postsOf (kind : FrameKind) (nRanks frames stride : ℕ) (edges : ℕ → FrameEdge)
    (comms : ℕ → Comm) (a : ℕ) : List (Post Channel) :=
  (kind.listOf nRanks frames stride edges a).flatMap fun e => e.posts (some (comms a))

variable (hvalid : EntriesValid nRanks frames stride edges)
  (hshape : kind = .allToAll → frames % nRanks = 0) (hcomms : SameComm handle nRanks comms)

include hvalid hshape hcomms

/-- On every channel the frames are sent and received in order. -/
theorem sends_postsOf {a b : ℕ} (ha : a < nRanks) (hb : b < nRanks) :
    sends (kind.postsOf nRanks frames stride edges comms a) (handle, a, b) =
      (List.range (kind.framesPerPeer nRanks frames)).map
        (kind.sentSpan nRanks frames stride edges a b) := by
  obtain ⟨hhandle, hrank, -⟩ := hcomms a ha
  have hsends := (@flatMap_posts (comms a) _ (hvalid.bothWays hshape ha) b).1
  rw [hhandle, hrank, sentSpans a hb] at hsends
  exact hsends

theorem recvs_postsOf {a b : ℕ} (ha : a < nRanks) (hb : b < nRanks) :
    recvs (kind.postsOf nRanks frames stride edges comms b) (handle, a, b) =
      (List.range (kind.framesPerPeer nRanks frames)).map
        (kind.receivedSpan nRanks frames stride edges a b) := by
  obtain ⟨hhandle, hrank, -⟩ := hcomms b hb
  have hrecvs := (@flatMap_posts (comms b) _ (hvalid.bothWays hshape hb) a).2
  rw [hhandle, hrank, receivedSpans b ha] at hrecvs
  exact hrecvs

theorem matches_postsOf {a b : ℕ} (ha : a < nRanks) (hb : b < nRanks) :
    Matches (kind.postsOf nRanks frames stride edges comms a)
      (kind.postsOf nRanks frames stride edges comms b) (handle, a, b) := by
  rw [Matches, sends_postsOf hvalid hshape hcomms ha hb, recvs_postsOf hvalid hshape hcomms ha hb,
    map_map, map_map]
  rfl

variable {β : Type}

/-- What arrives at a rank: frame `i` of rank `q` in slot `q * framesPerPeer + i`. -/
theorem mem_arrivals {memory : ℕ → ℕ → β} (ha : a < nRanks) {arrival : Arrival β} :
    (arrival ∈ (List.range nRanks).flatMap fun q =>
      (transfers (kind.postsOf nRanks frames stride edges comms q)
        (kind.postsOf nRanks frames stride edges comms a) (handle, q, a)).map fun message =>
        (⟨memory q, message.2, message.1⟩ : Arrival β)) ↔
      ∃ q < nRanks, ∃ i < kind.framesPerPeer nRanks frames,
        arrival = ⟨memory q, kind.sentSpan nRanks frames stride edges q a i,
          kind.receivedSpan nRanks frames stride edges q a i⟩ := by
  rw [mem_flatMap]
  simp only [mem_range]
  refine exists_congr fun q => and_congr_right fun hq => ?_
  rw [transfers, sends_postsOf hvalid hshape hcomms hq ha,
    recvs_postsOf hvalid hshape hcomms hq ha, zip_map', map_map]
  simp [eq_comm]

omit hcomms in
/-- A slot of the output: where it starts and that the payload ends inside it. -/
theorem receivedSpan_covers {a q i x : ℕ} (hq : q < nRanks) (ha : a < nRanks)
    (hi : i < kind.framesPerPeer nRanks frames)
    (hx : (kind.receivedSpan nRanks frames stride edges q a i).Covers x) :
    (edges a).output ≤ x ∧
      (x - (edges a).output) / stride = q * kind.framesPerPeer nRanks frames + i := by
  have hentry := cocclFrameMetadataValid_iff.mp ((hvalid q hq).2.2 _ (sendIndex_lt hshape ha hi))
  obtain ⟨hle, hlt⟩ := hx
  simp only [receivedSpan] at hle hlt
  refine ⟨by omega, ?_⟩
  rw [Nat.div_eq_iff (by omega)]
  omega

theorem receivedFrames_eq (memory : ℕ → ℕ → β) {a q i j : ℕ} (ha : a < nRanks) (hq : q < nRanks)
    (hi : i < kind.framesPerPeer nRanks frames)
    (hj : j < ((edges q).metadata (kind.sendIndex nRanks frames a i)).payloadBytes) :
    receivedFrames handle nRanks (kind.postsOf nRanks frames stride edges comms) memory a
        ((edges a).output + (q * kind.framesPerPeer nRanks frames + i) * stride + j) =
      memory q ((edges q).ptr + kind.sendIndex nRanks frames a i * stride + j) := by
  have hcovers : (kind.receivedSpan nRanks frames stride edges q a i).Covers
      ((edges a).output + (q * kind.framesPerPeer nRanks frames + i) * stride + j) :=
    ⟨Nat.le_add_right _ _, Nat.add_lt_add_left hj _⟩
  rw [receivedFrames, deliver_eq ((mem_arrivals hvalid hshape hcomms ha).mpr ⟨q, hq, i, hi, rfl⟩)
    hcovers]
  · simp [receivedSpan, sentSpan]
  · -- another message that covers the byte has the same slot
    intro arrival harrival hx
    obtain ⟨q', hq', i', hi', rfl⟩ := (mem_arrivals hvalid hshape hcomms ha).mp harrival
    have hslot := (receivedSpan_covers hvalid hshape hq ha hi hcovers).2
    have hslot' := (receivedSpan_covers hvalid hshape hq' ha hi' hx).2
    obtain ⟨hrank, hframe⟩ := mul_add_inj hi' hi (hslot'.symm.trans hslot)
    rw [hrank, hframe]

theorem receivedFrames_outside (memory : ℕ → ℕ → β) {a x : ℕ} (ha : a < nRanks)
    (hx : x < (edges a).output ∨ (edges a).output + kind.outputFrames nRanks frames * stride ≤ x) :
    receivedFrames handle nRanks (kind.postsOf nRanks frames stride edges comms) memory a x =
      memory a x := by
  refine deliver_of_not_covered fun arrival harrival hcovers => ?_
  obtain ⟨q, hq, i, hi, rfl⟩ := (mem_arrivals hvalid hshape hcomms ha).mp harrival
  obtain ⟨hle, hslot⟩ := receivedSpan_covers hvalid hshape hq ha hi hcovers
  have hlt : (x - (edges a).output) / stride < kind.outputFrames nRanks frames :=
    hslot ▸ recvIndex_lt hshape hq hi
  have hstride : 0 < stride := by
    have := cocclFrameMetadataValid_iff.mp ((hvalid q hq).2.2 _ (sendIndex_lt hshape ha hi))
    omega
  rw [Nat.div_lt_iff_lt_mul hstride] at hlt
  omega

omit hcomms in
/-- The slots of a list, in order, and the sizes of what is received there. -/
theorem inside_listOf (ha : a < nRanks) {f : ℕ} (hf : f < kind.outputFrames nRanks frames) :
    0 < (kind.gatherMetadata nRanks frames edges a f).payloadBytes ∧
      f * stride + (kind.gatherMetadata nRanks frames edges a f).payloadBytes ≤
        (f + 1) * stride := by
  have hentry := cocclFrameMetadataValid_iff.mp (hvalid.gathered hshape ha hf)
  refine ⟨hentry.1, ?_⟩
  rw [Nat.succ_mul]
  omega

/-- **Lists built from gathered metadata fit together.** -/
theorem framesMatch_listOf : FramesMatch kind handle nRanks frames stride edges
    (kind.gatherMetadata nRanks frames edges)
    (kind.listOf nRanks frames stride edges) (kind.postsOf nRanks frames stride edges comms) where
  paired a ha b hb := by
    have hsent := congrArg (List.map Span.bytes) (@sentSpans kind nRanks frames stride edges a b hb)
    have hreceived :=
      congrArg (List.map Span.bytes) (@receivedSpans kind nRanks frames stride edges b a ha)
    rw [map_map, map_map] at hsent hreceived
    exact hsent.trans hreceived.symm
  matched a ha b hb := matches_postsOf hvalid hshape hcomms ha hb
  slots a _ := by
    rw [listOf_eq_map hshape, map_map]
    exact map_congr_left fun f _ => recvSlot_exchangeAt f
  inside a ha e he := by
    rw [listOf_eq_map hshape] at he
    obtain ⟨f, hf, rfl⟩ := mem_map.mp he
    have hf := mem_range.mp hf
    obtain ⟨hpos, hle⟩ := inside_listOf hvalid hshape ha hf
    have hmul := Nat.mul_le_mul_right stride (show f + 1 ≤ _ from hf)
    rw [recvSlot_exchangeAt, recvBytes_exchangeAt]
    exact ⟨hpos, by omega, by omega⟩
  apart a ha := by
    rw [listOf_eq_map hshape, pairwise_map]
    refine pairwise_lt_range.imp_of_mem @fun f f' hf hf' hlt x hx hx' => ?_
    rw [recvSlot_exchangeAt, recvBytes_exchangeAt] at hx hx'
    obtain ⟨-, hle⟩ := inside_listOf hvalid hshape ha (mem_range.mp hf)
    have hmul := Nat.mul_le_mul_right stride (show f + 1 ≤ f' from hlt)
    have hbefore := hx.2
    have hafter := hx'.1
    simp only at hbefore hafter
    omega
  kept _ memory a ha x hx := receivedFrames_outside hvalid hshape hcomms memory ha hx
  delivered _ memory a ha f hf := by
    obtain ⟨q, hq, i, hi, rfl⟩ := exists_recvIndex hshape hf
    refine ⟨q, kind.sendIndex nRanks frames a i, (mul_add_div hi).symm, hq, ?_,
      sendIndex_lt hshape ha hi, gatherMetadata_eq q a hi, fun j hj => ?_⟩
    · rw [mul_add_mod hi]
    · exact receivedFrames_eq hvalid hshape hcomms memory ha hq hi hj

end

theorem entriesValid_of_built {nRanks frames stride : ℕ} {capacity : ℕ → ℕ}
    {lists : ℕ → List FrameExchange} (hwrap : kind.outputFrames nRanks frames * stride ≤ sizeMax)
    (hbuilt : ∀ a < nRanks, kind.Shape nRanks frames (capacity a) ∧ AllFit kind nRanks frames
      stride (edges a).ptr (edges a).output (edges a).metadata (kind.gatherMetadata nRanks frames
      edges a) ∧ lists a = kind.listOf nRanks frames stride edges a) :
    EntriesValid nRanks frames stride edges := by
  intro a ha
  obtain ⟨⟨hframes, hranks, hshape, -⟩, hfit, -⟩ := hbuilt a ha
  obtain ⟨hptr, houtput, hentries, -⟩ := (allFit_iff hshape hframes hranks hwrap).mp hfit
  exact ⟨hptr, houtput, hentries⟩

/-- **Framed exchanges match on both sides.** The builders succeed exactly on valid entries of the
right shape. Where every rank has got the metadata of the others and built its list, all ranks
issue their calls and these fit together. -/
theorem framedExchange_matches (kind : FrameKind) (nRanks frames stride : ℕ)
    (hwrap : kind.outputFrames nRanks frames * stride ≤ sizeMax) :
    (∀ sendBase recvBase sendMetadata recvMetadata capacity,
      (∃ exchanges, cocclBuildFrameExchanges kind sendBase recvBase frames stride nRanks
        sendMetadata recvMetadata capacity = .ok exchanges) ↔
      kind.Shape nRanks frames capacity ∧ sendBase ≠ 0 ∧ recvBase ≠ 0 ∧
      (∀ f < frames, cocclFrameMetadataValid (sendMetadata f) stride = true) ∧
      ∀ f < kind.outputFrames nRanks frames,
        cocclFrameMetadataValid (recvMetadata f) stride = true) ∧
    ∀ (handle : ℕ) (comms : ℕ → Comm) (edges : ℕ → FrameEdge)
      (recvMetadata : ℕ → ℕ → FrameMetadata) (lists : ℕ → List FrameExchange)
      (capacity : ℕ → ℕ), SameComm handle nRanks comms →
      (∀ a < nRanks, cocclPreparePipelineFrameExchange kind nRanks frames edges a =
        .ok (recvMetadata a)) →
      (∀ a < nRanks, cocclBuildFrameExchanges kind (edges a).ptr (edges a).output frames stride
        nRanks (edges a).metadata (recvMetadata a)
        (max (capacity a) (kind.outputFrames nRanks frames)) = .ok (lists a)) →
      ∃ posts, (∀ a < nRanks, cocclCommitPipelineFrameExchange kind frames stride (comms a)
          (edges a) (recvMetadata a) (capacity a) = .ok (posts a)) ∧
        FramesMatch kind handle nRanks frames stride edges recvMetadata lists posts := by
  refine ⟨fun sendBase recvBase sendMetadata recvMetadata capacity => ?_,
    fun handle comms edges recvMetadata lists capacity hcomms hprepared hlists => ?_⟩
  · simp only [cocclBuildFrameExchanges_eq_ok, exists_and_left, exists_eq, and_true]
    exact and_congr_right fun hshape => allFit_iff hshape.2.2.1 hshape.1 hshape.2.1 hwrap
  · have hrecv : ∀ a < nRanks, recvMetadata a = kind.gatherMetadata nRanks frames edges a :=
      fun a ha => (Except.ok.inj (Checked.ite_error_eq_ok.mp (hprepared a ha)).2).symm
    have hbuilt := fun a ha => cocclBuildFrameExchanges_eq_ok.mp (hrecv a ha ▸ hlists a ha)
    have hvalid := entriesValid_of_built hwrap hbuilt
    refine ⟨kind.postsOf nRanks frames stride edges comms, fun a ha => ?_,
      .congr hrecv (fun a ha => (hbuilt a ha).2.2) ?_⟩
    · obtain ⟨⟨hframes, -, hshape, -⟩, -, hlist⟩ := hbuilt a ha
      rw [cocclCommitPipelineFrameExchange, (hcomms a ha).2.2, hlists a ha, hlist]
      exact hvalid.commit hshape hframes ha (hcomms a ha).2.2
    · rcases eq_zero_or_pos nRanks with rfl | hranks
      · constructor <;> (intros; omega)
      · exact framesMatch_listOf hvalid (hbuilt 0 hranks).1.2.2.1 hcomms

/-- Two ranks that gather one frame each, of different sizes. -/
def pairEdges (rank : ℕ) : FrameEdge where
  ptr := 4096
  bytes := 16
  output := 8192
  capacityBytes := 32
  metadata _ := ⟨if rank = 0 then 8 else 16, frameEncoded, 0⟩

def pairComm (rank : ℕ) : Comm where
  handle := 1
  rank := rank % 2
  nRanks := 2
  localRanks := 2
  nNodes := 1
  rank_lt := Nat.mod_lt _ Nat.two_pos
  localRanks_pos := Nat.two_pos

theorem pairEdges_match : ∃ posts, FramesMatch .allGather 1 2 1 16 pairEdges
    (gatherMetadata .allGather 2 1 pairEdges)
    (listOf .allGather 2 1 16 pairEdges) posts := by
  have hbuilt : ∀ a < 2, cocclBuildFrameExchanges .allGather (pairEdges a).ptr (pairEdges a).output
      1 16 2 (pairEdges a).metadata (gatherMetadata .allGather 2 1 pairEdges a)
      (max 0 2) = .ok (listOf .allGather 2 1 16 pairEdges a) := by
    intro a ha
    interval_cases a <;> rfl
  obtain ⟨posts, -, hmatch⟩ := (framedExchange_matches .allGather 2 1 16 (by decide)).2 1 pairComm
    pairEdges _ _ (fun _ => 0) (fun a ha => ⟨rfl, Nat.mod_eq_of_lt ha, rfl⟩) (fun a _ => rfl) hbuilt
  exact ⟨posts, hmatch⟩

end Coccl
