import Coccl.Basic

/-!
# Compressor plugins and their size bounds

A compressor handle of type `κ` names one configured policy. What the core asks of it before any
data moves is its capability set and the bound on the bytes it may encode a shape into; both are the
plugin's own, so a `Plugin` carries them as fields.
-/

namespace Coccl

open Checked

inductive CompressorOperation where
  | compress
  | decompress
  | decompressReduce
  | decompressReduceCompress
  deriving DecidableEq, Repr

inductive CompressorCapability where
  | compress
  | decompress
  | decompressReduce
  | decompressReduceCompress
  | framed
  | fusedHierarchicalSwizzle
  | bytewiseLossless
  deriving DecidableEq, Repr

/-- The shape a plugin is asked to bound. -/
structure CompressorSizeQuery where
  operation : CompressorOperation
  elements : ℕ
  chunks : ℕ
  datatype : DataType
  deriving DecidableEq

/-- A plugin under one configuration: its capability bits and its optional size callback. -/
structure Plugin where
  capabilities : CompressorCapability → Bool
  getEncodedSizeBound : Option (CompressorSizeQuery → Result ℕ)

/-- The core's side of the size query. A plugin without the callback, and one that answers
`ncclInvalidUsage`, are bounded by the raw size. -/
def cocclQueryCompressorEncodedSizeBound (plugin : Plugin) (query : CompressorSizeQuery) :
    Result ℕ :=
  if query.elements = 0 ∨ query.chunks = 0 ∨ query.elements % query.chunks ≠ 0 ∨
      (query.operation ≠ .compress ∧ query.operation ≠ .decompressReduceCompress) then
    .error .invalidArgument
  else
    let typeBytes := ncclTypeSize query.datatype
    if typeBytes ≤ 0 ∨ sizeMax / typeBytes.toNat < query.elements then
      .error .invalidArgument
    else
      let rawBytes := query.elements * typeBytes.toNat
      match plugin.getEncodedSizeBound with
      | none => .ok rawBytes
      | some callback =>
        match callback query with
        | .error .invalidUsage => .ok rawBytes
        | .error e => .error e
        | .ok pluginBytes =>
          if pluginBytes = 0 then .error .invalidArgument
          else if pluginBytes % query.chunks ≠ 0 then .error .invalidUsage
          else .ok pluginBytes

/-- An accepted bound is positive and splits evenly over the chunks, which there is one of at
least. -/
theorem cocclQueryCompressorEncodedSizeBound_spec {plugin : Plugin} {query : CompressorSizeQuery}
    {bytes : ℕ} (h : cocclQueryCompressorEncodedSizeBound plugin query = .ok bytes) :
    0 < query.elements ∧ 0 < query.chunks ∧ query.chunks ∣ bytes ∧ 0 < bytes := by
  unfold cocclQueryCompressorEncodedSizeBound at h
  obtain ⟨hshape, h⟩ := ite_error_eq_ok.mp h
  obtain ⟨htype, h⟩ := ite_error_eq_ok.mp h
  simp only [not_or, not_le, not_lt, not_not] at hshape htype
  obtain ⟨helements, hchunks, hdvd, -⟩ := hshape
  have hraw : query.chunks ∣ query.elements * (ncclTypeSize query.datatype).toNat ∧
      0 < query.elements * (ncclTypeSize query.datatype).toNat :=
    ⟨(Nat.dvd_of_mod_eq_zero hdvd).mul_right _,
      mul_pos (pos_of_ne_zero helements) (by omega)⟩
  refine ⟨pos_of_ne_zero helements, pos_of_ne_zero hchunks, ?_⟩
  split at h
  · cases h
    exact hraw
  · split at h
    · cases h
      exact hraw
    · cases h
    · obtain ⟨hpos, h⟩ := ite_error_eq_ok.mp h
      obtain ⟨hmod, h⟩ := ite_error_eq_ok.mp h
      cases h
      exact ⟨Nat.dvd_of_mod_eq_zero (not_not.mp hmod), pos_of_ne_zero hpos⟩

section

variable {κ : Type} (plugins : κ → Plugin)

/-- `cocclGetCompressorEncodedSizeBound`: the query on a possibly null handle. -/
def cocclGetCompressorEncodedSizeBound (compressor : Option κ) (query : CompressorSizeQuery) :
    Result ℕ :=
  match compressor with
  | none => .error .invalidUsage
  | some policy => cocclQueryCompressorEncodedSizeBound (plugins policy) query

/-- `cocclCompressorSupports`: a null handle supports nothing. -/
def cocclCompressorSupports (compressor : Option κ) (capability : CompressorCapability) : Bool :=
  match compressor with
  | none => false
  | some policy => (plugins policy).capabilities capability

end

end Coccl
