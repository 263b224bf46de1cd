import RaftKv.Raft.Cluster
import Mathlib.Algebra.Order.Ring.Int
import Mathlib.Algebra.Ring.Parity
import Mathlib.Data.Finset.Card
import Mathlib.Data.Fintype.Card

/-!
# The thresholds of a majority

Three places compare a count of nodes with half of `len(rf.peers)`: the election, the
commit loop and `SingleHeartBeat`. The count includes the node itself, but `rf.peers`
does not, since `connectToPeers` leaves it out. The threshold of a cluster of `n` nodes
is therefore half of `n - 1`, and two sets that pass it meet only if `n` is odd.
-/

namespace RaftKv.Raft

/-- The second loop of `connectToPeers`, with the results of its dials: it takes the
address that failed last, and gives up after `maxRetry` failures. -/
def reconnect : Nat → List Nat → List Nat → List Bool → Option (List Nat)
  | _, [], peers, _ => some peers
  | 0, _ :: _, _, _ => none
  | _ + 1, _ :: _, _, [] => none
  | maxRetry + 1, i :: failed, peers, ok :: dials =>
      if ok then reconnect (maxRetry + 1) failed (i :: peers) dials
      else reconnect maxRetry (i :: failed) peers dials

/-- `connectToPeers`: the addresses for which a client has been made. `first` says which
ones answer at once, and `dials` what the retries give. -/
def connectToPeers (me : Nat) (peerAddrs : List Nat) (first : Nat → Bool) (dials : List Bool) :
    Option (List Nat) :=
  let others := peerAddrs.filter (· ≠ me)
  reconnect 30 (others.filter (!first ·)).reverse (others.filter first) dials

theorem reconnect_length {maxRetry : Nat} {failed peers result : List Nat} {dials : List Bool}
    (h : reconnect maxRetry failed peers dials = some result) :
    result.length = failed.length + peers.length := by
  induction dials generalizing maxRetry failed peers with
  | nil =>
      cases failed with
      | nil =>
          simp [reconnect] at h
          simp [h]
      | cons i failed => cases maxRetry <;> simp [reconnect] at h
  | cons ok dials ih =>
      cases failed with
      | nil =>
          simp [reconnect] at h
          simp [h]
      | cons i failed =>
          cases maxRetry with
          | zero => simp [reconnect] at h
          | succ maxRetry =>
              rw [reconnect] at h
              split at h
              · rw [ih h]
                simp
                omega
              · exact ih h

/-- Every node but the node itself is connected in the end. -/
theorem connectToPeers_length {n : Nat} (i : Fin n) {first : Nat → Bool} {dials : List Bool}
    {peers : List Nat} (h : connectToPeers i (List.range n) first dials = some peers) :
    peers.length + 1 = n := by
  have split := reconnect_length h
  have others : ((List.range n).filter (· ≠ i.val)).length + 1 = n :=
    Cluster.initServer_peers_length i
  have parts := List.length_eq_length_filter_add first (l := (List.range n).filter (· ≠ i.val))
  rw [List.length_reverse] at split
  omega

namespace Raftserver

/-- `confirm` of `SingleHeartBeat`, with the leader itself and the peers that answered. -/
def confirm (rf : Raftserver) (count : Nat) : Bool := decide (rf.peers.length / 2 < count)

/-- The places that ask for a majority. -/
inductive Decision where
  | collectVote
  | sendAppendEntriesToServer
  | singleHeartBeat
  deriving DecidableEq

/-- The threshold of a decision for a number of nodes. -/
def Passes (rf : Raftserver) : Decision → Nat → Prop
  | .collectVote, count => { rf with role := .candidate, voteCount := count - 1 }.electedBy false
  | .sendAppendEntriesToServer, count => rf.peers.length / 2 < count
  | .singleHeartBeat, count => rf.confirm count

/-- The peers of a node of a cluster with `n` addresses, after `connectToPeers`. -/
def Connected (rf : Raftserver) (n : Nat) (i : Fin n) : Prop :=
  ∃ first dials, connectToPeers i (List.range n) first dials = some rf.peers

theorem passes_iff (rf : Raftserver) (d : Decision) (count : Nat) :
    rf.Passes d count ↔ rf.peers.length / 2 < count := by
  cases d with
  | collectVote =>
      simp [Passes, electedBy]
      omega
  | sendAppendEntriesToServer => exact Iff.rfl
  | singleHeartBeat => simp [Passes, confirm]

/-- A node whose peers all answer at once. -/
theorem connected_initServer {n : Nat} (i : Fin n) : (Cluster.initServer n i).Connected n i := by
  refine ⟨fun _ => true, [], ?_⟩
  simp [connectToPeers, reconnect, Cluster.initServer]

/-- Any two sets that pass a threshold have a node in common. -/
def QuorumsMeet (n : Nat) : Prop :=
  ∀ (i j : Fin n) (rf rf' : Raftserver) (d d' : Decision) (A B : Finset (Fin n)),
    rf.Connected n i → rf'.Connected n j → i ∈ A → j ∈ B →
      rf.Passes d A.card → rf'.Passes d' B.card → (A ∩ B).Nonempty

theorem quorumsMeet_of_odd {n : Nat} (odd : Odd n) : QuorumsMeet n := by
  rintro i j rf rf' d d' A B ⟨first, dials, hrf⟩ ⟨first', dials', hrf'⟩ - - hA hB
  have length := connectToPeers_length i hrf
  have length' := connectToPeers_length j hrf'
  rw [passes_iff] at hA hB
  obtain ⟨k, rfl⟩ := odd
  refine Finset.inter_nonempty_of_card_lt_card_add_card (Finset.subset_univ A)
    (Finset.subset_univ B) ?_
  rw [Finset.card_univ, Fintype.card_fin]
  omega

/-- In a cluster of even size the two halves both pass. -/
theorem not_quorumsMeet_of_even {n : Nat} (hn : 1 ≤ n) (even : Even n) : ¬ QuorumsMeet n := by
  intro meet
  obtain ⟨k, rfl⟩ := even
  have hk : 0 < k := by omega
  have passes : ∀ (i : Fin (k + k)) (d : Decision), (Cluster.initServer (k + k) i).Passes d k := by
    intro i d
    rw [passes_iff]
    have := Cluster.initServer_peers_length i
    omega
  let lower : Finset (Fin (k + k)) := Finset.univ.map (Fin.castAddEmb k)
  let upper : Finset (Fin (k + k)) := Finset.univ.map (Fin.natAddEmb k)
  have first : Fin.castAdd k ⟨0, hk⟩ ∈ lower := Finset.mem_map_of_mem _ (Finset.mem_univ _)
  have second : Fin.natAdd k ⟨0, hk⟩ ∈ upper := Finset.mem_map_of_mem _ (Finset.mem_univ _)
  have sizes : lower.card = k ∧ upper.card = k := by simp [lower, upper]
  obtain ⟨x, hx⟩ := meet _ _ _ _ .collectVote .collectVote lower upper (connected_initServer _)
    (connected_initServer _) first second (sizes.1.symm ▸ passes _ _) (sizes.2.symm ▸ passes _ _)
  obtain ⟨hlower, hupper⟩ := Finset.mem_inter.mp hx
  obtain ⟨a, -, rfl⟩ := Finset.mem_map.mp hlower
  obtain ⟨b, -, hb⟩ := Finset.mem_map.mp hupper
  have values := congrArg Fin.val hb
  simp at values
  omega

/-- In a cluster of `n` nodes any two sets of nodes that contain the deciding node and
pass a threshold have a node in common exactly if `n` is odd. -/
theorem quorum_intersection {n : Nat} (hn : 1 ≤ n) : QuorumsMeet n ↔ Odd n := by
  refine ⟨fun meet => ?_, quorumsMeet_of_odd⟩
  by_contra hodd
  exact not_quorumsMeet_of_even hn (Nat.not_odd_iff_even.mp hodd) meet

theorem quorum_intersection_five : 1 ≤ 5 ∧ QuorumsMeet 5 :=
  ⟨by decide, (quorum_intersection (by decide)).mpr (by decide)⟩

/-- Of four nodes, two elect one leader and the other two another. -/
theorem quorums_of_four_disjoint :
    (Cluster.initServer 4 0).Passes .collectVote ({0, 1} : Finset (Fin 4)).card ∧
      (Cluster.initServer 4 2).Passes .collectVote ({2, 3} : Finset (Fin 4)).card ∧
      ¬ (({0, 1} : Finset (Fin 4)) ∩ {2, 3}).Nonempty ∧ ¬ QuorumsMeet 4 := by
  refine ⟨(passes_iff _ _ _).mpr (by decide), (passes_iff _ _ _).mpr (by decide), by decide, ?_⟩
  exact not_quorumsMeet_of_even (by decide) (by decide)

end Raftserver

end RaftKv.Raft
