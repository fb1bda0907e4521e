import PeerToPeer.Nodes.Bootstrap
import PeerToPeer.Nodes.Distance
import PeerToPeer.Nodes.Runs

namespace PeerToPeer

open CLib Sorting

theorem xors_bounds (as bs : List UInt8) :
    -(128 * as.length) ≤ (List.zipWith (fun a b => (charXor a b).toInt) as bs).sum ∧
      (List.zipWith (fun a b => (charXor a b).toInt) as bs).sum ≤ 128 * as.length := by
  induction as generalizing bs with
  | nil => simp
  | cons a as ih =>
    cases bs with
    | nil => simp; omega
    | cons b bs =>
      have hrest := ih bs
      have hchar : (charXor a b).toInt = (a.toInt8 ^^^ b.toInt8).toInt := by
        rw [charXor, ← Int8.toInt32_xor, Int8.toInt_toInt32]
      have hlo := Int8.le_toInt (a.toInt8 ^^^ b.toInt8)
      have hhi := Int8.toInt_lt (a.toInt8 ^^^ b.toInt8)
      rw [List.zipWith_cons_cons, List.sum_cons, List.length_cons, hchar]
      omega

/-- The XOR sum of a hash that fits the field does not wrap. -/
theorem ofInt_xorSum_eq_zero {infoHash : List UInt8} (id : Bytes idSize)
    (hl : (chars infoHash).length ≤ idSize) :
    UInt32.ofInt (xorSum infoHash id) = 0 ↔ xorSum infoHash id = 0 := by
  have hb := xors_bounds (chars infoHash) id.toList
  change -(128 * ((chars infoHash).length : Int)) ≤ xorSum infoHash id ∧
    xorSum infoHash id ≤ 128 * (chars infoHash).length at hb
  rw [idSize] at hl
  constructor
  · intro h
    have hnat := congrArg UInt32.toNat h
    rw [UInt32.ofInt, UInt32.toNat_ofNat', UInt32.toNat_zero] at hnat
    omega
  · intro h
    rw [h]
    rfl

/-- `compare_hash` on nodes that each carry a tag. -/
def tracked (infoHash : List UInt8) (n : Nat) (l : List (NodeEntry × Nat)) :
    List (NodeEntry × Nat) :=
  refresh (NodeEntry.dist ∘ Prod.fst) (fun p => (p.1.addXor infoHash, p.2)) n l

@[simp] theorem tracked_length (infoHash : List UInt8) (n : Nat) (l : List (NodeEntry × Nat)) :
    (tracked infoHash n l).length = l.length := refresh_length _ _ _ _

theorem tracked_fst (infoHash : List UInt8) {n : Nat} {l : List (NodeEntry × Nat)}
    (hn : n ≤ l.length) :
    (tracked infoHash n l).map Prod.fst = ranked infoHash n (l.map Prod.fst) :=
  refresh_map NodeEntry.dist hn fun _ => rfl

section Tags

variable {h₁ h₂ : List UInt8} {n : Nat} {l : List (NodeEntry × Nat)} (hn : n ≤ l.length)

include hn

theorem mem_tracked {infoHash : List UInt8} {p : NodeEntry × Nat} :
    p ∈ tracked infoHash n l ↔
      (∃ q ∈ l.take n, (q.1.addXor infoHash, q.2) = p) ∨ p ∈ l.drop n :=
  mem_refresh hn

theorem mem_tracked_tracked {p : NodeEntry × Nat} :
    p ∈ tracked h₂ n (tracked h₁ n l) ↔
      (∃ q ∈ l.take n, ((q.1.addXor h₁).addXor h₂, q.2) = p) ∨ p ∈ l.drop n := by
  have htake {q : NodeEntry × Nat} : q ∈ (tracked h₁ n l).take n ↔
      ∃ r ∈ l.take n, (r.1.addXor h₁, r.2) = q := by
    rw [tracked, refresh_take hn, (stableSort_perm _ _).mem_iff, List.mem_map]
  have hdrop : (tracked h₁ n l).drop n = l.drop n := refresh_drop hn
  rw [mem_tracked (by simpa using hn), hdrop]
  simp only [htake]
  simp

/-- Both ways give each node one distance exactly when the first sort moves no node. -/
theorem tracked_distance_iff (htags : (l.map Prod.snd).Nodup)
    (hl : (chars h₁).length ≤ idSize) :
    (∀ p ∈ tracked h₂ n (tracked h₁ n l), ∀ q ∈ tracked h₂ n l, p.2 = q.2 →
      p.1.distance = q.1.distance) ↔ ∀ p ∈ l.take n, xorSum h₁ p.1.id = 0 := by
  constructor
  · intro hsame p hp
    have hboth := hsame _ ((mem_tracked_tracked hn).mpr (Or.inl ⟨p, hp, rfl⟩)) _
      ((mem_tracked hn).mpr (Or.inl ⟨p, hp, rfl⟩)) rfl
    simp only [NodeEntry.addXor, UInt32.add_left_inj] at hboth
    exact (ofInt_xorSum_eq_zero p.1.id hl).mp (UInt32.add_eq_left.mp hboth)
  · intro hzero p hp q hq htag
    have hnodup : l.Nodup := List.Nodup.of_map _ htags
    have hapart := List.disjoint_take_drop hnodup (Nat.le_refl n)
    have hunique {a b : NodeEntry × Nat} (ha : a ∈ l) (hb : b ∈ l) (h : a.2 = b.2) : a = b :=
      List.inj_on_of_nodup_map htags ha hb h
    rcases (mem_tracked_tracked hn).mp hp with ⟨a, ha, rfl⟩ | hp
    · rcases (mem_tracked hn).mp hq with ⟨b, hb, rfl⟩ | hq
      · obtain rfl := hunique (List.mem_of_mem_take ha) (List.mem_of_mem_take hb) htag
        have hmove := (ofInt_xorSum_eq_zero a.1.id hl).mpr (hzero a ha)
        simp only [NodeEntry.addXor, hmove, UInt32.add_zero]
      · obtain rfl := hunique (List.mem_of_mem_take ha) (List.mem_of_mem_drop hq) htag
        exact absurd hq (hapart ha)
    · rcases (mem_tracked hn).mp hq with ⟨b, hb, rfl⟩ | hq
      · obtain rfl := hunique (List.mem_of_mem_drop hp) (List.mem_of_mem_take hb) htag
        exact absurd hp (hapart hb)
      · rw [hunique (List.mem_of_mem_drop hp) (List.mem_of_mem_drop hq) htag]

end Tags

/-- Sorting for `h₂` after sorting for `h₁` is sorting for `h₂`: `a₁` is the array sorted for `h₁`
and `a₂` that array sorted for `h₂`. The tags are the indices in the array before both. -/
structure SortsAfresh (h₁ h₂ : List UInt8) (n : Nat) (neighbors a₁ a₂ : NodeArray) : Prop where
  distances : ∀ p ∈ tracked h₂ n (tracked h₁ n neighbors.live.zipIdx),
    ∀ q ∈ tracked h₂ n neighbors.live.zipIdx, p.2 = q.2 → p.1.distance = q.1.distance
  ordered : (a₂.live.take n).Pairwise fun a b => a.dist ≤ b.dist
  again : h₁ = h₂ → a₂ = a₁

/-- Without a move the second sort for one hash finds everything in place. -/
theorem compareHash_again {neighbors a₁ a₂ : NodeArray} {n : Nat} {infoHash : List UInt8}
    (hn : n ≤ neighbors.len) (ht : Terminated infoHash) (hl : (chars infoHash).length ≤ idSize)
    (h₁ : compareHash neighbors n infoHash = .ok a₁) (h₂ : compareHash a₁ n infoHash = .ok a₂)
    (hzero : ∀ e ∈ neighbors.live.take n, xorSum infoHash e.id = 0) : a₂ = a₁ := by
  have hn₁ : n ≤ a₁.len := hn.trans (compareHash_live hn ht hl h₁).1.ge
  rw [compareHash_ok hn ht hl] at h₁
  rw [compareHash_ok hn₁ ht hl] at h₂
  obtain rfl := Except.ok.inj h₁
  obtain rfl := Except.ok.inj h₂
  have hfix : ∀ e ∈ neighbors.block.take n, e.addXor infoHash = e := by
    intro e he
    have hlive : neighbors.live.take n = neighbors.block.take n := by
      rw [GrowArray.live, List.take_take, Nat.min_eq_left hn]
    have hmove := (ofInt_xorSum_eq_zero e.id hl).mpr (hzero e (hlive ▸ he))
    simp only [NodeEntry.addXor, hmove, UInt32.add_zero]
  have hblock : ranked infoHash n (ranked infoHash n neighbors.block) =
      ranked infoHash n neighbors.block := refresh_refresh (hn.trans neighbors.len_le) hfix
  apply GrowArray.ext <;> first | rfl | exact hblock

theorem zipIdx_tags (l : List NodeEntry) : (l.zipIdx.map Prod.snd).Nodup := by
  rw [List.zipIdx_map_snd]
  exact List.nodup_range'

theorem zipIdx_nodes (l : List NodeEntry) : l.zipIdx.map Prod.fst = l := List.zipIdx_map_fst 0 l

/-- Two calls of `compare_hash` return, the tags name the nodes of the two results, and the
second sort is independent of the first exactly when the bytes of `h₁` cancel out against
each node's id. -/
theorem sortsAfresh_iff (neighbors : NodeArray) (n : Nat) (h₁ h₂ : List UInt8)
    (hn : n ≤ neighbors.len) (ht₁ : Terminated h₁) (hl₁ : (chars h₁).length < idSize)
    (ht₂ : Terminated h₂) (hl₂ : (chars h₂).length < idSize) :
    ∃ a₁ a₂ b, compareHash neighbors n h₁ = .ok a₁ ∧ compareHash a₁ n h₂ = .ok a₂ ∧
      compareHash neighbors n h₂ = .ok b ∧
      (tracked h₂ n (tracked h₁ n neighbors.live.zipIdx)).map Prod.fst = a₂.live ∧
      (tracked h₂ n neighbors.live.zipIdx).map Prod.fst = b.live ∧
      (SortsAfresh h₁ h₂ n neighbors a₁ a₂ ↔
        ∀ e ∈ neighbors.live.take n, xorSum h₁ e.id = 0) := by
  have hrun₁ := compareHash_ok hn ht₁ hl₁.le
  obtain ⟨hlen₁, hlive₁⟩ := compareHash_live hn ht₁ hl₁.le hrun₁
  have hn₁ := hn.trans hlen₁.ge
  have hrun₂ := compareHash_ok hn₁ ht₂ hl₂.le
  obtain ⟨hlen₂, hlive₂⟩ := compareHash_live hn₁ ht₂ hl₂.le hrun₂
  have hrun := compareHash_ok hn ht₂ hl₂.le
  obtain ⟨-, hlive⟩ := compareHash_live hn ht₂ hl₂.le hrun
  have hidx : n ≤ neighbors.live.zipIdx.length := by simpa using hn
  have hdist := @tracked_distance_iff h₁ h₂ n _ hidx (zipIdx_tags _) hl₁.le
  have hnodes : (∀ p ∈ neighbors.live.zipIdx.take n, xorSum h₁ p.1.id = 0) ↔
      ∀ e ∈ neighbors.live.take n, xorSum h₁ e.id = 0 := by
    conv_rhs => rw [← zipIdx_nodes neighbors.live, ← List.map_take, List.forall_mem_map]
  refine ⟨_, _, _, hrun₁, hrun₂, hrun, ?_, ?_, ?_⟩
  · rw [tracked_fst h₂ (by simpa using hn), tracked_fst h₁ hidx, zipIdx_nodes, hlive₂, hlive₁]
  · rw [tracked_fst h₂ hidx, zipIdx_nodes, hlive]
  · constructor
    · intro h
      exact hnodes.mp (hdist.mp h.distances)
    · intro hzero
      refine ⟨hdist.mpr (hnodes.mpr hzero), ?_, ?_⟩
      · rw [hlive₂]
        exact (ranked_spec h₂ (by simpa using hn₁)).sorted.sorted
      · rintro rfl
        exact compareHash_again hn ht₁ hl₁.le hrun₁ hrun₂ hzero

/-- The array after two neighbours were bootstrapped. -/
def bootedNodes : NodeArray where
  cap := initialCap
  len := 2
  block := [bootEntry localOrigin, bootEntry { localOrigin with port := 3002 }]
  len_le := by decide
  block_le := by decide
  cap_pos := initialCap_pos
  cap_bytes := initialCap_nodes

/-- A hash that is the id of both nodes is no distance away from them. -/
theorem sortsAfresh_own_id : ∃ a₁ a₂, compareHash bootedNodes 2 assignAnId.mem = .ok a₁ ∧
    compareHash a₁ 2 fileHash.mem = .ok a₂ ∧
    SortsAfresh assignAnId.mem fileHash.mem 2 bootedNodes a₁ a₂ := by
  obtain ⟨a₁, a₂, -, h₁, h₂, -, -, -, hiff⟩ := sortsAfresh_iff bootedNodes 2 assignAnId.mem
    fileHash.mem (by decide) (by decide) (by decide) (by decide) (by decide)
  exact ⟨a₁, a₂, h₁, h₂, hiff.mpr (by decide)⟩

/-- The array after one neighbour was bootstrapped. -/
def bootedNode : NodeArray where
  cap := initialCap
  len := 1
  block := [bootEntry localOrigin]
  len_le := by decide
  block_le := by decide
  cap_pos := initialCap_pos
  cap_bytes := initialCap_nodes

/-- Sorting twice for `"13"` adds the distance to `"Assign an ID"` twice. -/
theorem distance_doubled : ∃ a₁ a₂, compareHash bootedNode 1 fileHash.mem = .ok a₁ ∧
    compareHash a₁ 1 fileHash.mem = .ok a₂ ∧ a₁.live.map NodeEntry.distance = [176] ∧
    a₂.live.map NodeEntry.distance = [352] ∧
    ¬ SortsAfresh fileHash.mem fileHash.mem 1 bootedNode a₁ a₂ := by
  have hrun₁ := @compareHash_ok bootedNode 1 fileHash.mem (by decide) (by decide) (by decide)
  obtain ⟨hlen₁, hlive₁⟩ := compareHash_live (by decide) (by decide) (by decide) hrun₁
  have hrun₂ := @compareHash_ok _ 1 fileHash.mem hlen₁.ge (by decide) (by decide)
  obtain ⟨-, hlive₂⟩ := @compareHash_live _ _ 1 _ hlen₁.ge (by decide) (by decide) hrun₂
  have hdist₁ : (ranked fileHash.mem 1 bootedNode.live).map NodeEntry.distance = [176] := by decide
  have hdist₂ : (ranked fileHash.mem 1 (ranked fileHash.mem 1 bootedNode.live)).map
      NodeEntry.distance = [352] := by decide
  rw [← hlive₁] at hdist₁ hdist₂
  rw [← hlive₂] at hdist₂
  refine ⟨_, _, hrun₁, hrun₂, hdist₁, hdist₂, ?_⟩
  intro hsort
  rw [hsort.again rfl, hdist₁] at hdist₂
  exact absurd hdist₂ (by decide)

end PeerToPeer
