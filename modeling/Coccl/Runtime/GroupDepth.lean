import Coccl.Pipeline.Frames
import Coccl.Runtime.GroupThreads

/-!
# The depth of groups

Three functions open a group for a series of sends and receives. `cocclCommitFrameExchange` and the
profiler's `enqueueP2pExchange` end it whatever fails; `ncclAllToAll` returns at the first failure
and leaves the depth one too high. So the depth is kept exactly if no send or receive inside
`ncclAllToAll` returns an error (`groupDepth_kept_iff`).
-/

namespace Coccl

open Calls List

variable {κ : Type}

/-! ## The functions -/

/-- A send or receive of bytes. -/
def transfer (func : CallFunc) (slot bytes peer : ℕ) (comm : PlacedComm) (stream : ℕ) : Info where
  sendbuff := if func = .send then slot else 0
  recvbuff := if func = .send then 0 else slot
  count := bytes
  datatype := .int8
  op := .sum
  peer := peer
  func := func
  operation := .sendRecv
  comm := comm
  stream := stream

/-- The calls of an exchange, the receive first. `rankToNode` has the nodes of a communicator. -/
def FrameExchange.infos (exchange : FrameExchange) (rankToNode : ℕ → ℕ → ℕ) (comm : Option Comm)
    (stream : ℕ) : List Info :=
  match exchange.exchangeComm comm with
  | none => []
  | some exchangeComm =>
    let placed : PlacedComm := ⟨exchangeComm, rankToNode exchangeComm.handle⟩
    let exchangeStream := if exchange.comm.isNone then stream else exchange.stream
    (if exchange.recvBytes ≠ 0 then
      [transfer .recv exchange.recvSlot exchange.recvBytes exchange.peer placed exchangeStream]
      else []) ++
    (if exchange.sendBytes ≠ 0 then
      [transfer .send exchange.sendSlot exchange.sendBytes exchange.peer placed exchangeStream]
      else [])

theorem FrameExchange.infos_sendRecv (exchange : FrameExchange) (rankToNode : ℕ → ℕ → ℕ)
    (comm : Option Comm) (stream : ℕ) :
    ∀ info ∈ exchange.infos rankToNode comm stream, info.operation = .sendRecv := by
  intro info hinfo
  unfold infos at hinfo
  split at hinfo
  · simp at hinfo
  · rcases mem_append.mp hinfo with h | h <;>
      split at h <;> simp only [not_mem_nil, mem_singleton] at h <;> rw [h] <;> rfl

section

variable (api : ApiCall → GroupCall κ)

/-- `cocclCommitFrameExchange` as a call of a thread. -/
def commitFrameExchangeCall (exchanges : List FrameExchange) (rankToNode : ℕ → ℕ → ℕ)
    (comm : Option Comm) (stream : ℕ) : GroupCall κ := fun s =>
  if exchanges = [] ∨ exchanges.all (fun exchange => exchange.accepted comm) = false then
    some (.error .invalidArgument, s)
  else exchangeGroup api (exchanges.flatMap (·.infos rankToNode comm stream)) s

variable (comm : PlacedComm) (sendBuffer recvBuffer bytes sendPeer recvPeer stream : ℕ)

/-- The receive and, unless that has failed, the send of a profiling exchange. -/
def p2pTransfers : GroupCall κ := fun s =>
  match cocclReplayNativeCall api
      (transfer .recv recvBuffer bytes recvPeer comm stream) false s with
  | none => none
  | some (received, s) =>
    if checkFails received then some (received, s)
    else
      cocclReplayNativeCall api (transfer .send sendBuffer bytes sendPeer comm stream) false s

def enqueueP2pExchange : GroupCall κ := fun s =>
  match p2pTransfers api comm sendBuffer recvBuffer bytes sendPeer recvPeer stream
      s.groupStart with
  | none => none
  | some (result, s) =>
    match api .groupEnd s with
    | none => none
    | some (ended, s) => some (if notSuccess result then result else ended, s)

end

/-- The functions that open a group, and the executor of a pipeline that has them in its
stages. -/
inductive GroupFunction (κ : Type) where
  | allToAll (info : Info)
  | commitFrameExchange (exchanges : List FrameExchange) (rankToNode : ℕ → ℕ → ℕ)
    (comm : Option Comm) (stream : ℕ)
  | enqueueP2pExchange (comm : PlacedComm)
    (sendBuffer recvBuffer bytes sendPeer recvPeer stream : ℕ)
  | pipeline (call : RoutedCall κ)

/-- The function, with `n` levels of nested calls below it. -/
def GroupFunction.call (env : GroupEnv κ) (n : ℕ) : GroupFunction κ → GroupCall κ
  | .allToAll info =>
    publicCall env (api env n) { info with operation := .collective .allToAll } false
  | .commitFrameExchange exchanges rankToNode comm stream =>
    commitFrameExchangeCall (api env n) exchanges rankToNode comm stream
  | .enqueueP2pExchange comm sendBuffer recvBuffer bytes sendPeer recvPeer stream =>
    Coccl.enqueueP2pExchange (api env n) comm sendBuffer recvBuffer bytes sendPeer recvPeer stream
  | .pipeline call => cocclExecutePreparedCall env (api env n) call

/-- The function returns, at the depth it was called at. -/
def GroupFunction.KeepsDepth (env : GroupEnv κ) (n : ℕ) (function : GroupFunction κ)
    (s : GroupState κ) : Prop :=
  ∃ r s', function.call env n s = some (r, s') ∧ s'.groupDepth = s.groupDepth

/-! ## Groups that are always ended -/

section

variable {env : GroupEnv κ} {n : ℕ}

theorem replay_sendRecv_quiet {info : Info} (hinfo : info.operation = .sendRecv) (inner : Bool)
    (s : GroupState κ) :
    ∃ r s', cocclReplayNativeCall (api env (n + 1)) info inner s = some (r, s') ∧ Quietly s s' :=
  ⟨_, _, replay_sendRecv hinfo inner s, (ncclEnqueueCheck_quiet env inner info _).withGuard⟩

theorem groupEnd_keeps {s t : GroupState κ} (hs : s.Sheltered) (hquiet : Quietly s.groupStart t) :
    ∃ r s', api env (n + 1) .groupEnd t = some (r, s') ∧ s'.groupDepth = s.groupDepth := by
  have hdepth : t.groupDepth = s.groupDepth + 1 := hquiet.depth
  obtain ⟨r, s', hend, hcloses, -⟩ := @ncclGroupEnd_closes κ env (api env n) t (by omega)
    (hs.imp (fun h => hquiet.pending.trans h) fun h => by omega)
  exact ⟨r, s', hend, (hquiet.group hcloses).depth⟩

variable {s : GroupState κ}

theorem commitFrameExchangeCall_keeps (exchanges : List FrameExchange) (rankToNode : ℕ → ℕ → ℕ)
    (comm : Option Comm) (stream : ℕ) (hs : s.Sheltered) :
    GroupFunction.KeepsDepth env (n + 1)
      (.commitFrameExchange exchanges rankToNode comm stream) s := by
  unfold GroupFunction.KeepsDepth GroupFunction.call commitFrameExchangeCall
  simp only
  split
  · exact ⟨_, s, rfl, rfl⟩
  · -- the loop stops at the first call that fails, and every call is quiet
    obtain ⟨r, t, hloop, -, hquiet⟩ := @sequence_spec _ _ notSuccess (.ok ())
      (fun _ : GroupState κ => True) Quietly Quietly.refl (fun _ _ _ => Quietly.trans)
      ((exchanges.flatMap (·.infos rankToNode comm stream)).map fun info =>
        cocclReplayNativeCall (api env (n + 1)) info false)
      (by
        intro call hcall t _
        obtain ⟨info, hinfo, rfl⟩ := mem_map.mp hcall
        obtain ⟨exchange, -, hinfo⟩ := mem_flatMap.mp hinfo
        obtain ⟨r, t', hreplay, hquiet⟩ := @replay_sendRecv_quiet κ env n info
          (exchange.infos_sendRecv rankToNode comm stream info hinfo) false t
        exact ⟨r, t', hreplay, trivial, hquiet⟩)
      s.groupStart trivial
    obtain ⟨ended, s', hend, hdepth⟩ := @groupEnd_keeps κ env n s t hs hquiet
    refine ⟨if notSuccess r then r else ended, s', ?_, hdepth⟩
    simp only [exchangeGroup, hloop, hend]

variable (comm : PlacedComm) (sendBuffer recvBuffer bytes sendPeer recvPeer stream : ℕ)

theorem p2pTransfers_quiet (s : GroupState κ) :
    ∃ r s', p2pTransfers (api env (n + 1)) comm sendBuffer recvBuffer bytes sendPeer recvPeer
      stream s = some (r, s') ∧ Quietly s s' := by
  obtain ⟨received, t, hrecv, hquiet⟩ := @replay_sendRecv_quiet κ env n
    (transfer .recv recvBuffer bytes recvPeer comm stream) rfl false s
  obtain ⟨sent, u, hsend, hquiet'⟩ := @replay_sendRecv_quiet κ env n
    (transfer .send sendBuffer bytes sendPeer comm stream) rfl false t
  simp only [p2pTransfers, hrecv]
  split
  · exact ⟨_, _, rfl, hquiet⟩
  · exact ⟨sent, u, hsend, hquiet.trans hquiet'⟩

theorem enqueueP2pExchange_keeps (hs : s.Sheltered) :
    GroupFunction.KeepsDepth env (n + 1)
      (.enqueueP2pExchange comm sendBuffer recvBuffer bytes sendPeer recvPeer stream) s := by
  obtain ⟨r, t, hloop, hquiet⟩ := @p2pTransfers_quiet κ env n comm sendBuffer recvBuffer bytes
    sendPeer recvPeer stream s.groupStart
  obtain ⟨ended, s', hend, hdepth⟩ := @groupEnd_keeps κ env n s t hs hquiet
  refine ⟨if notSuccess r then r else ended, s', ?_, hdepth⟩
  simp only [GroupFunction.call, enqueueP2pExchange, hloop, hend]

end

/-! ## `ncclAllToAll` -/

section

variable {env : GroupEnv κ} {n : ℕ}

theorem length_peerCalls (info : Info) : (peerCalls info).length = 2 * info.comm.nRanks := by
  simp [peerCalls, length_flatMap, mul_comm]

/-- **A native AllToAll.** Its group is ended exactly if none of its sends and receives fails. -/
theorem allToAllNative_keeps_iff (info : Info) {s : GroupState κ} (hs : s.Sheltered) :
    ∃ r s', allToAllNative (api env (n + 1)) info s = some (r, s') ∧ (s'.groupDepth = s.groupDepth ↔
        ∀ i < 2 * info.comm.nRanks, checkFails (env.reply true (s.tick + i)).result = false) := by
  obtain ⟨r, t, hloop, hquiet, hiff, -⟩ := @peerCalls_sequence κ env n _ (peerCalls_sendRecv info)
    s.groupStart (Nat.succ_pos _)
  rw [length_peerCalls] at hiff
  have hopen : t.groupDepth = s.groupDepth + 1 := hquiet.depth
  simp only [allToAllNative, hloop]
  by_cases hfails : checkFails r = true
  · refine ⟨r, t, if_pos hfails, fun h => absurd h (by omega), fun h => ?_⟩
    exact absurd hfails (by simp [hiff.mpr h])
  · obtain ⟨ended, s', hend, hdepth⟩ := @groupEnd_keeps κ env n s t hs hquiet
    simp only [if_neg hfails, hend]
    exact ⟨_, s', rfl, fun _ => hiff.mp (by simpa using hfails), fun _ => hdepth⟩

end

/-! ## All functions -/

/-- **Group nesting is balanced** on every exit, from every state, exactly if no send or receive
inside `ncclAllToAll` returns an error. -/
theorem groupDepth_kept_iff (env : GroupEnv κ) :
    (∀ (function : GroupFunction κ) (n : ℕ) (s : GroupState κ), s.Sheltered →
      function.KeepsDepth env (n + 2) s) ↔ env.InnerSucceeds := by
  constructor
  · intro h t
    -- an AllToAll of two ranks that asks for its first answer at `t`
    let s : GroupState κ := ⟨0, none, [], [], true, t, []⟩
    let info := collectiveInfo 4096 8192 4 .float64 .sum .allToAll groupComm 0
    obtain ⟨r, s', hcall, hdepth⟩ := h (.allToAll info) 0 s (.inl rfl)
    obtain ⟨r', t', hnative, hiff⟩ := @allToAllNative_keeps_iff κ env 1 info s (.inl rfl)
    have hsame : GroupFunction.call env 2 (.allToAll info) s = some (r', t') := by
      rw [← hnative]
      exact publicCall_guarded _ _ _ rfl
    rw [hsame, Option.some.injEq, Prod.mk.injEq] at hcall
    rw [hcall.2] at hiff
    exact hiff.mp hdepth 0 (by decide)
  · intro hinner function n s hs
    cases function with
    | allToAll info =>
      obtain ⟨r, s', hcall, hadds⟩ := @publicCall_adds κ env n hinner
        { info with operation := .collective .allToAll } false s hs
      exact ⟨r, s', hcall, hadds.depth⟩
    | commitFrameExchange exchanges rankToNode comm stream =>
      exact commitFrameExchangeCall_keeps exchanges rankToNode comm stream hs
    | enqueueP2pExchange comm sendBuffer recvBuffer bytes sendPeer recvPeer stream =>
      exact enqueueP2pExchange_keeps comm sendBuffer recvBuffer bytes sendPeer recvPeer stream hs
    | pipeline call =>
      obtain ⟨r, s', hcall, hkeeps⟩ := @execute_keeps κ env n hinner call s hs
      exact ⟨r, s', hcall, hkeeps.depth⟩

/-- Two ranks, and the first receive fails: the AllToAll returns the error one group deeper. -/
theorem allToAll_depth_lost :
    GroupState.Sheltered (GroupThread.initial (κ := Unit)).state ∧
      ∃ s', GroupFunction.call failingEnv 2
          (.allToAll (collectiveInfo 4096 8192 4 .float64 .sum .allToAll groupComm 0))
          GroupThread.initial.state = some (.error .systemError, s') ∧
        s'.groupDepth = (GroupThread.initial (κ := Unit)).state.groupDepth + 1 :=
  ⟨.inl rfl, _, rfl, rfl⟩

end Coccl
