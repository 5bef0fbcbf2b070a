import Coccl.Basic
import Coccl.Foundations.Rings

/-!
# Peers for profiling

`initTransportsRank` numbers the nodes of a communicator in the order their first rank appears, and
lists the ranks of each node in order. From these tables `topologyPeers` takes the neighbours on the
own node, or the ranks of the same number on the neighbouring nodes, where only numbers that exist
on every node take part. The tables are inverse to each other, so the peers form rings.
-/

namespace Coccl

open Rings List Option RingFamily

/-! ## The tables -/

/-- `rankToNode`, `rankToLocalRank` and the `localRankToRank` of every node, whose length is the
node's `localRanks`. -/
structure NodeTables where
  rankToNode : List ℕ
  rankToLocalRank : List ℕ
  nodeRanks : List (List ℕ)
  deriving DecidableEq, Repr

/-- The first loop: the node of every rank, and `nodesFirstRank`. A rank's node is searched by the
first rank of its ring, and added if it is new. -/
def assignNodes : List ℕ → List ℕ → List ℕ × List ℕ
  | [], nodesFirstRank => ([], nodesFirstRank)
  | firstRank :: rest, nodesFirstRank =>
    let node := nodesFirstRank.idxOf firstRank
    let assigned := assignNodes rest
      (if node = nodesFirstRank.length then nodesFirstRank ++ [firstRank] else nodesFirstRank)
    (node :: assigned.1, assigned.2)

/-- The second loop: the ranks on each node are counted, and a rank gets the count before it. -/
def countLocalRanks : List ℕ → List ℕ → List ℕ × List ℕ
  | [], localRanks => ([], localRanks)
  | node :: rest, localRanks =>
    let counted := countLocalRanks rest (localRanks.modify node (· + 1))
    (localRanks.getD node 0 :: counted.1, counted.2)

/-- The last loop: every rank is appended to its node. -/
def fillNodeRanks : ℕ → List ℕ → List (List ℕ) → List (List ℕ)
  | _, [], nodeRanks => nodeRanks
  | rank, node :: rest, nodeRanks =>
    fillNodeRanks (rank + 1) rest (nodeRanks.modify node (· ++ [rank]))

/-- The part of `initTransportsRank` that fills the tables, from the first rank of every rank's
ring. -/
def NodeTables.init (firstRanks : List ℕ) : NodeTables :=
  let assigned := assignNodes firstRanks []
  { rankToNode := assigned.1
    rankToLocalRank := (countLocalRanks assigned.1 (List.replicate assigned.2.length 0)).1
    nodeRanks := fillNodeRanks 0 assigned.1 (List.replicate assigned.2.length []) }

/-- What `topologyPeers` reads of a communicator. -/
structure TopologyComm where
  nNodes : ℕ
  node : ℕ
  localRank : ℕ
  localRanks : ℕ
  localRankToRank : List ℕ
  nodeRanks : List (List ℕ)

/-- The communicator of a rank. -/
def NodeTables.comm (tables : NodeTables) (rank : ℕ) : TopologyComm :=
  let node := tables.rankToNode.getD rank 0
  let localRankToRank := tables.nodeRanks.getD node []
  { nNodes := tables.nodeRanks.length
    node := node
    localRank := tables.rankToLocalRank.getD rank 0
    localRanks := localRankToRank.length
    localRankToRank := localRankToRank
    nodeRanks := tables.nodeRanks }

/-! ## The peers -/

/-- The smallest number of ranks on a node. -/
def TopologyComm.commonLocalRanks (comm : TopologyComm) : ℕ :=
  (comm.nodeRanks.tail.map List.length).foldl min (comm.nodeRanks.getD 0 []).length

/-- The send and the receive peer, if the rank takes part. -/
def topologyPeers (comm : TopologyComm) (interNode : Bool) : Option (ℕ × ℕ) :=
  if interNode = false then
    if comm.localRanks ≤ 1 then none
    else
      some (comm.localRankToRank.getD ((comm.localRank + 1) % comm.localRanks) 0,
        comm.localRankToRank.getD ((comm.localRank + comm.localRanks - 1) % comm.localRanks) 0)
  else if comm.nNodes ≤ 1 then none
  else if comm.commonLocalRanks ≤ comm.localRank then none
  else
    let sendNode := (comm.node + 1) % comm.nNodes
    let recvNode := (comm.node + comm.nNodes - 1) % comm.nNodes
    some ((comm.nodeRanks.getD sendNode []).getD comm.localRank 0,
      (comm.nodeRanks.getD recvNode []).getD comm.localRank 0)

/-! ## Filling the tables -/

/-- Both loops in step: what was counted before a rank is where the rank is appended. -/
structure Filled (start : ℕ) (nodes counted : List ℕ) (before after : List (List ℕ)) : Prop where
  length : counted.length = nodes.length
  tables : after.length = before.length
  kept : ∀ node < before.length, (before.getD node []) <+: (after.getD node [])
  entry : ∀ i < nodes.length,
    (after.getD (nodes.getD i 0) [])[counted.getD i 0]? = some (start + i)
  rank : ∀ node < before.length, ∀ p rank, (before.getD node []).length ≤ p →
    (after.getD node [])[p]? = some rank → ∃ i < nodes.length,
      rank = start + i ∧ nodes.getD i 0 = node ∧ counted.getD i 0 = p

theorem getD_modify_self {α : Type*} {l : List α} {f : α → α} {n : ℕ} {d : α} (h : n < l.length) :
    (l.modify n f).getD n d = f (l.getD n d) := by
  simp [getD_eq_getElem?_getD, h]

theorem getD_modify_of_ne {α : Type*} {l : List α} {f : α → α} {m n : ℕ} {d : α} (h : m ≠ n) :
    (l.modify m f).getD n d = l.getD n d := by
  simp [getD_eq_getElem?_getD, h]

variable {rank node : ℕ}

/-- The counters are the lengths of the tables. -/
theorem map_length_modify {tables : List (List ℕ)} :
    (tables.map List.length).modify node (· + 1) =
      (tables.modify node (· ++ [rank])).map List.length := by
  refine ext_getElem (by simp) fun i _ _ => ?_
  by_cases h : node = i <;> simp [h]

theorem fillNodeRanks_filled {nodes : List ℕ} {start : ℕ} {tables : List (List ℕ)}
    (hnodes : ∀ node ∈ nodes, node < tables.length) :
    Filled start nodes (countLocalRanks nodes (tables.map List.length)).1 tables
      (fillNodeRanks start nodes tables) := by
  induction nodes generalizing start tables with
  | nil =>
    refine ⟨rfl, rfl, fun _ _ => prefix_rfl, fun i hi => absurd hi (Nat.not_lt_zero i),
      fun node _ p rank hp hrank => ?_⟩
    have hlt := (List.getElem?_eq_some_iff.mp hrank).1
    exact absurd hlt (not_lt.mpr hp)
  | cons node rest ih =>
    have hnode : node < tables.length := hnodes node mem_cons_self
    have hstep := @ih (start + 1) (tables.modify node (· ++ [start])) fun n hn => by
      rw [length_modify]
      exact hnodes n (mem_cons_of_mem _ hn)
    rw [← map_length_modify] at hstep
    have hself : (tables.modify node (· ++ [start])).getD node [] =
        tables.getD node [] ++ [start] := getD_modify_self hnode
    have hlength : (tables.map List.length).getD node 0 = (tables.getD node []).length := by
      simp [getD_eq_getElem?_getD, hnode]
    have hcount : (countLocalRanks (node :: rest) (tables.map List.length)).1 =
        (tables.getD node []).length ::
          (countLocalRanks rest ((tables.map List.length).modify node (· + 1))).1 := by
      rw [countLocalRanks, hlength]
    rw [hcount, fillNodeRanks]
    refine ⟨?_, ?_, ?_, ?_, ?_⟩
    · simp [hstep.length]
    · rw [hstep.tables, length_modify]
    · intro other hother
      have hkept := hstep.kept other (by rwa [length_modify])
      by_cases heq : node = other
      · subst heq
        rw [hself] at hkept
        exact (prefix_append _ _).trans hkept
      · rwa [getD_modify_of_ne heq] at hkept
    · intro i hi
      cases i with
      | zero =>
        -- the rank itself lies right behind the table before it
        obtain ⟨suffix, hsuffix⟩ := hstep.kept node (by rwa [length_modify])
        rw [hself] at hsuffix
        rw [getD_cons_zero, getD_cons_zero, ← hsuffix]
        simp
      | succ i =>
        have hentry := hstep.entry i (Nat.lt_of_succ_lt_succ hi)
        rw [show start + 1 + i = start + (i + 1) by omega] at hentry
        simpa using hentry
    · intro other hother p rank hp hrank
      have hlater : (tables.modify node (· ++ [start])).length = tables.length :=
        length_modify _ _ _
      by_cases hthis : node = other ∧ p = (tables.getD node []).length
      · obtain ⟨rfl, rfl⟩ := hthis
        obtain ⟨suffix, hsuffix⟩ := hstep.kept node (by rwa [hlater])
        rw [hself] at hsuffix
        refine ⟨0, Nat.succ_pos _, ?_, rfl, rfl⟩
        rw [← hsuffix] at hrank
        simpa using hrank.symm
      · have hbehind : ((tables.modify node (· ++ [start])).getD other []).length ≤ p := by
          by_cases heq : node = other
          · subst heq
            rw [hself, length_append, length_singleton]
            have hne : p ≠ (tables.getD node []).length := fun h => hthis ⟨rfl, h⟩
            omega
          · rwa [getD_modify_of_ne heq]
        obtain ⟨i, hi, hvalue, hnodes', hcounted⟩ :=
          hstep.rank other (by rwa [hlater]) p rank hbehind hrank
        exact ⟨i + 1, Nat.succ_lt_succ hi, by omega, by simpa using hnodes',
          by simpa using hcounted⟩

theorem assignNodes_spec (firstRanks nodesFirstRank : List ℕ) :
    (assignNodes firstRanks nodesFirstRank).1.length = firstRanks.length ∧
      nodesFirstRank.length ≤ (assignNodes firstRanks nodesFirstRank).2.length ∧
      ∀ node ∈ (assignNodes firstRanks nodesFirstRank).1,
        node < (assignNodes firstRanks nodesFirstRank).2.length := by
  induction firstRanks generalizing nodesFirstRank with
  | nil => simp [assignNodes]
  | cons firstRank rest ih =>
    simp only [assignNodes]
    split
    · next hnew =>
      obtain ⟨hlength, hle, hnodes⟩ := ih (nodesFirstRank ++ [firstRank])
      rw [length_append, length_singleton] at hle
      refine ⟨by simp [hlength], by omega, forall_mem_cons.mpr ⟨by omega, hnodes⟩⟩
    · next hold =>
      obtain ⟨hlength, hle, hnodes⟩ := ih nodesFirstRank
      have hlt := lt_of_le_of_ne idxOf_le_length hold
      exact ⟨by simp [hlength], hle, forall_mem_cons.mpr ⟨by omega, hnodes⟩⟩

/-- The tables of a communicator: the node and the number of a rank lead to it, and an entry of a
node is a rank with that node and number. -/
structure NodeTables.Consistent (tables : NodeTables) (nRanks : ℕ) : Prop where
  node_lt : ∀ rank < nRanks, tables.rankToNode.getD rank 0 < tables.nodeRanks.length
  entry : ∀ rank < nRanks, (tables.nodeRanks.getD (tables.rankToNode.getD rank 0) [])[
    tables.rankToLocalRank.getD rank 0]? = some rank
  rank : ∀ node < tables.nodeRanks.length, ∀ p rank,
    (tables.nodeRanks.getD node [])[p]? = some rank →
      rank < nRanks ∧ tables.rankToNode.getD rank 0 = node ∧
        tables.rankToLocalRank.getD rank 0 = p

/-- **The tables are inverse to each other**, for every assignment of ranks to nodes. -/
theorem NodeTables.init_consistent (firstRanks : List ℕ) :
    (NodeTables.init firstRanks).Consistent firstRanks.length := by
  obtain ⟨hlength, -, hnodes⟩ := assignNodes_spec firstRanks []
  set nodes := (assignNodes firstRanks []).1 with hnodesEq
  set nNodes := (assignNodes firstRanks []).2.length with hnNodes
  have hfilled := @fillNodeRanks_filled nodes 0 (List.replicate nNodes []) (by simpa using hnodes)
  rw [map_replicate, length_nil] at hfilled
  have htables : (fillNodeRanks 0 nodes (List.replicate nNodes [])).length = nNodes := by
    rw [hfilled.tables, length_replicate]
  refine ⟨fun rank hrank => ?_, fun rank hrank => ?_, fun node hnode p rank hentry => ?_⟩
  · show nodes.getD rank 0 < (fillNodeRanks 0 nodes _).length
    rw [htables, getD_eq_getElem?_getD, getElem?_eq_getElem (hlength ▸ hrank), getD_some]
    exact hnodes _ (getElem_mem _)
  · have hentry := hfilled.entry rank (hlength ▸ hrank)
    rwa [zero_add] at hentry
  · have hlt : node < nNodes := htables ▸ hnode
    obtain ⟨i, hi, rfl, hnode', hcounted⟩ := hfilled.rank node (by simpa using hlt) p rank
      (by simp [getD_eq_getElem?_getD, hlt]) hentry
    rw [zero_add]
    exact ⟨hlength ▸ hi, hnode', hcounted⟩

/-! ## The rings -/

namespace NodeTables

variable {tables : NodeTables} {nRanks : ℕ}

/-- The rank that the tables have at a rank's place. -/
theorem Consistent.getD_entry (h : tables.Consistent nRanks) (hrank : rank < nRanks) :
    (tables.nodeRanks.getD (tables.comm rank).node []).getD (tables.comm rank).localRank 0 =
      rank := by
  rw [getD_eq_getElem?_getD]
  exact congrArg (Option.getD · 0) (h.entry rank hrank)

/-- The place of the rank that the tables have at a place. -/
theorem Consistent.getD_rank (h : tables.Consistent nRanks) {p : ℕ}
    (hnode : node < tables.nodeRanks.length) (hp : p < (tables.nodeRanks.getD node []).length)
    (hrank : (tables.nodeRanks.getD node []).getD p 0 = rank) :
    rank < nRanks ∧ (tables.comm rank).node = node ∧ (tables.comm rank).localRank = p := by
  refine h.rank node hnode p rank ?_
  rw [getElem?_eq_getElem hp, ← hrank, @List.getD_eq_getElem?_getD _ (getD _ _ _),
    getElem?_eq_getElem hp, getD_some]

theorem Consistent.localRank_lt (h : tables.Consistent nRanks) (hrank : rank < nRanks) :
    (tables.comm rank).localRank < (tables.nodeRanks.getD (tables.comm rank).node []).length :=
  (List.getElem?_eq_some_iff.mp (h.entry rank hrank)).1

/-- The ranks of each node, by their number on it. -/
def intraRings (h : tables.Consistent nRanks) : RingFamily ℕ ℕ where
  ring rank :=
    if rank < nRanks ∧ 1 < (tables.comm rank).localRanks then some (tables.comm rank).node
    else none
  size node := (tables.nodeRanks.getD node []).length
  position rank := (tables.comm rank).localRank
  member node p := (tables.nodeRanks.getD node []).getD p 0
  position_lt := by
    intro rank node hring
    obtain ⟨hactive, ⟨⟩⟩ := ite_none_right_eq_some.mp hring
    exact h.localRank_lt hactive.1
  member_position := by
    intro rank node hring
    obtain ⟨hactive, ⟨⟩⟩ := ite_none_right_eq_some.mp hring
    exact h.getD_entry hactive.1
  ring_member := by
    intro rank node p hring hp
    obtain ⟨hactive, ⟨⟩⟩ := ite_none_right_eq_some.mp hring
    obtain ⟨hlt, hnode, -⟩ := h.getD_rank (h.node_lt rank hactive.1) hp rfl
    have hlocal : 1 < (tables.nodeRanks.getD (tables.rankToNode.getD rank 0) []).length :=
      hactive.2
    rw [← hnode] at hlocal
    exact (if_pos ⟨hlt, hlocal⟩).trans (congrArg some hnode)
  position_member := by
    intro rank node p hring hp
    obtain ⟨hactive, ⟨⟩⟩ := ite_none_right_eq_some.mp hring
    exact (h.getD_rank (h.node_lt rank hactive.1) hp rfl).2.2

theorem foldl_min_le {l : List ℕ} {a : ℕ} :
    l.foldl min a ≤ a ∧ ∀ x ∈ l, l.foldl min a ≤ x := by
  induction l generalizing a with
  | nil => simp
  | cons b l ih =>
    obtain ⟨hstart, hrest⟩ := @ih (min a b)
    rw [foldl_cons]
    exact ⟨hstart.trans (min_le_left a b),
      forall_mem_cons.mpr ⟨hstart.trans (min_le_right a b), hrest⟩⟩

/-- Every node has the numbers below the common one. -/
theorem commonLocalRanks_le (rank : ℕ) (hnode : node < tables.nodeRanks.length) :
    (tables.comm rank).commonLocalRanks ≤ (tables.nodeRanks.getD node []).length := by
  show (tables.nodeRanks.tail.map List.length).foldl min (tables.nodeRanks.getD 0 []).length ≤ _
  cases hranks : tables.nodeRanks with
  | nil => simp [hranks] at hnode
  | cons first rest =>
    rw [hranks] at hnode
    cases node with
    | zero => exact foldl_min_le.1
    | succ node =>
      refine foldl_min_le.2 _ (mem_map.mpr ⟨_, ?_, rfl⟩)
      have hlt : node < rest.length := by simpa using hnode
      simp [getD_eq_getElem?_getD, hlt]

/-- The ranks of one number on all nodes. -/
def interRings (h : tables.Consistent nRanks) : RingFamily ℕ ℕ where
  ring rank :=
    if rank < nRanks ∧ 1 < (tables.comm rank).nNodes ∧
        (tables.comm rank).localRank < (tables.comm rank).commonLocalRanks then
      some (tables.comm rank).localRank
    else none
  size _ := tables.nodeRanks.length
  position rank := (tables.comm rank).node
  member localRank node := (tables.nodeRanks.getD node []).getD localRank 0
  position_lt := by
    intro rank localRank hring
    obtain ⟨hactive, ⟨⟩⟩ := ite_none_right_eq_some.mp hring
    exact h.node_lt rank hactive.1
  member_position := by
    intro rank localRank hring
    obtain ⟨hactive, ⟨⟩⟩ := ite_none_right_eq_some.mp hring
    exact h.getD_entry hactive.1
  ring_member := by
    intro rank localRank node hring hnode
    obtain ⟨hactive, ⟨⟩⟩ := ite_none_right_eq_some.mp hring
    have hlt := hactive.2.2.trans_le (tables.commonLocalRanks_le rank hnode)
    obtain ⟨hrank, -, hlocal⟩ := h.getD_rank hnode hlt rfl
    rw [hlocal]
    exact if_pos ⟨hrank, hactive.2⟩
  position_member := by
    intro rank localRank node hring hnode
    obtain ⟨hactive, ⟨⟩⟩ := ite_none_right_eq_some.mp hring
    have hlt := hactive.2.2.trans_le (tables.commonLocalRanks_le rank hnode)
    exact (h.getD_rank hnode hlt rfl).2.1

/-- The rings of an exchange. -/
def rings (h : tables.Consistent nRanks) : Bool → RingFamily ℕ ℕ
  | false => tables.intraRings h
  | true => tables.interRings h

variable (h : tables.Consistent nRanks) {rank : ℕ}

/-- The peers are the neighbours in the ring. -/
theorem topologyPeers_eq (interNode : Bool) (hrank : rank < nRanks) :
    topologyPeers (tables.comm rank) interNode = (tables.rings h interNode).peers rank := by
  cases interNode with
  | false =>
    by_cases hlocal : 1 < (tables.comm rank).localRanks
    · have hring : (tables.rings h false).ring rank = some (tables.comm rank).node :=
        if_pos ⟨hrank, hlocal⟩
      rw [peers, send_eq hring, recv_eq hring]
      exact (if_pos rfl).trans (if_neg (not_le.mpr hlocal))
    · have hring : (tables.rings h false).ring rank = none := if_neg fun h => hlocal h.2
      rw [peers, send, hring]
      exact (if_pos rfl).trans (if_pos (not_lt.mp hlocal))
  | true =>
    by_cases hactive : 1 < (tables.comm rank).nNodes ∧
        (tables.comm rank).localRank < (tables.comm rank).commonLocalRanks
    · have hring : (tables.rings h true).ring rank = some (tables.comm rank).localRank :=
        if_pos ⟨hrank, hactive⟩
      rw [peers, send_eq hring, recv_eq hring]
      exact (if_neg Bool.noConfusion).trans ((if_neg (not_le.mpr hactive.1)).trans
        (if_neg (not_le.mpr hactive.2)))
    · have hring : (tables.rings h true).ring rank = none := if_neg fun h => hactive h.2
      rw [peers, send, hring, topologyPeers, if_neg Bool.noConfusion]
      split
      · rfl
      · exact if_pos (not_lt.mp fun hcommon => hactive ⟨by omega, hcommon⟩)

/-- Only the ranks of the communicator are in a ring. -/
theorem rings_rank_lt {interNode : Bool} {ring : ℕ}
    (hring : (tables.rings h interNode).ring rank = some ring) : rank < nRanks := by
  cases interNode with
  | false | true => exact (ite_none_right_eq_some.mp hring).1.1

end NodeTables

open NodeTables

/-- The peers of a rank of the communicator; other ranks do not exist. -/
def profilePeers (firstRanks : List ℕ) (interNode : Bool) (rank : ℕ) : Option (ℕ × ℕ) :=
  if rank < firstRanks.length then
    topologyPeers ((NodeTables.init firstRanks).comm rank) interNode
  else none

theorem profilePeers_eq (firstRanks : List ℕ) (interNode : Bool) (rank : ℕ) :
    profilePeers firstRanks interNode rank =
      (rings (init_consistent firstRanks) interNode).peers rank := by
  unfold profilePeers
  split
  next hrank => exact topologyPeers_eq _ interNode hrank
  next hrank =>
    let rings := rings (init_consistent firstRanks) interNode
    cases hring : rings.ring rank with
    | none => exact (congrArg (Option.bind · _) (congrArg (Option.map _) hring)).symm
    | some ring => exact absurd (rings_rank_lt _ hring) hrank

/-- **The peers of every topology form matched rings**, on the nodes and between them: who is sent
to is active and receives from the sender, and the other way round; so every send has exactly one
receive, and the sends lead back to every active rank. -/
theorem topologyPeers_rings (firstRanks : List ℕ) (interNode : Bool) :
    let send := fun rank => (profilePeers firstRanks interNode rank).map Prod.fst
    let recv := fun rank => (profilePeers firstRanks interNode rank).map Prod.snd
    Matched send recv ∧
      (∀ rank peer, send rank = some peer → ∃! receiver, recv receiver = some rank) ∧
      ∀ rank peer, send rank = some peer → ∃ k, 0 < k ∧ follow send k rank = some rank := by
  intro send recv
  let rings := NodeTables.rings (NodeTables.init_consistent firstRanks) interNode
  have hsend : send = rings.send := by
    funext rank
    simp only [send, profilePeers_eq]
    exact rings.peers_fst rank
  have hrecv : recv = rings.recv := by
    funext rank
    simp only [recv, profilePeers_eq]
    exact rings.peers_snd rank
  rw [hsend, hrecv]
  refine ⟨rings.matched, fun _ _ h => rings.matched.existsUnique h, fun rank peer h => ?_⟩
  obtain ⟨ring, hring, -⟩ := map_eq_some_iff.mp h
  exact ⟨_, follow_size hring⟩

/-- Three ranks on the first node and two on the second: the third rank has no peer between the
nodes. -/
example : (List.range 5).map (profilePeers [0, 1, 0, 1, 0] true) =
    [some (1, 1), some (0, 0), some (3, 3), some (2, 2), none] := by decide

end Coccl
