import PeerToPeer.Peers.Invariant
import PeerToPeer.Transition.Loop

namespace PeerToPeer

open CLib Transition

/-- One pass of the do-while loop of `get_peer_bucket`, its exit test included. -/
def lookupPass (hashKey : Fin maxPeerBuckets) (currentKey : UInt32) :
    UInt32 ⊕ Option (Fin maxPeerBuckets) :=
  if keyOf hashKey = currentKey then .inr (some hashKey)
  else if (currentKey + 1).toNat < maxPeerBuckets then .inl (currentKey + 1)
  else .inr none

/-- How often the loop can still go round: not at all above the indices, once more than below
them for the key that wraps to zero. -/
def rounds (currentKey : UInt32) : Nat :=
  if currentKey.toNat = 4294967295 then maxPeerBuckets else maxPeerBuckets - 1 - currentKey.toNat

theorem rounds_le (currentKey : UInt32) : rounds currentKey ≤ maxPeerBuckets := by
  unfold rounds
  split_ifs
  · exact Nat.le_refl _
  · omega

section Pass

variable {hashKey : Fin maxPeerBuckets} {k k' : UInt32} {r : Option (Fin maxPeerBuckets)}

theorem lookupPass_again (h : lookupPass hashKey k = .inl k') :
    keyOf hashKey ≠ k ∧ (k + 1).toNat < maxPeerBuckets ∧ k' = k + 1 := by
  unfold lookupPass at h
  split_ifs at h with hk hlt
  exact ⟨hk, hlt, (Sum.inl.inj h).symm⟩

theorem rounds_again (h : lookupPass hashKey k = .inl k') : rounds k' < rounds k := by
  obtain ⟨-, hlt, rfl⟩ := lookupPass_again h
  have hadd := UInt32.toNat_add k 1
  have hkl := k.toNat_lt
  rw [UInt32.toNat_one] at hadd
  unfold rounds
  rw [maxPeerBuckets] at *
  split_ifs <;> omega

theorem getPeerBucketLoop_again (h : lookupPass hashKey k = .inl k') :
    getPeerBucketLoop hashKey k = getPeerBucketLoop hashKey k' := by
  obtain ⟨hk, hlt, rfl⟩ := lookupPass_again h
  rw [getPeerBucketLoop, if_neg hk, if_pos hlt]

theorem getPeerBucketLoop_leaves (h : lookupPass hashKey k = .inr r) :
    getPeerBucketLoop hashKey k = r := by
  unfold lookupPass at h
  rw [getPeerBucketLoop]
  split_ifs at h ⊢ <;> exact Sum.inr.inj h

end Pass

/-- The loop leaves within eleven passes, from whatever the key field held; it finds no bucket
but the home bucket, and misses that one exactly when its key lies above it, short of the last
value that wraps around. -/
theorem lookup_terminates (table : PeerTable) (key : List UInt8) (ht : Terminated key) :
    ∃ hashKey found n, hash key = .ok hashKey ∧
      passes (lookupPass hashKey) (maxPeerBuckets + 1) table[hashKey].key = some (found, n) ∧
      n ≤ maxPeerBuckets + 1 ∧ getPeerBucket table key = .ok found ∧
      (∀ b, found = some b → b = hashKey) ∧
      (found = none ↔ hashKey.val < table[hashKey].key.toNat ∧
        table[hashKey].key.toNat < 2 ^ 32 - 1) := by
  have hhash := hash_terminated ht
  generalize homeOf (chars key) = hashKey at hhash
  have hle := rounds_le table[hashKey].key
  have hkl := table[hashKey].key.toNat_lt
  obtain ⟨n, hn, hmax⟩ := passes_total rounds (fun _ _ => rounds_again)
    (getPeerBucketLoop hashKey) (fun _ _ => getPeerBucketLoop_again)
    (fun _ _ => getPeerBucketLoop_leaves) (Nat.lt_succ_of_le hle)
  refine ⟨hashKey, _, n, hhash, hn, by omega, ?_, ?_, ?_⟩
  · rw [getPeerBucket, hhash]
    rfl
  · intro b hb
    rw [getPeerBucketLoop_eq] at hb
    split_ifs at hb
    exact (Option.some.inj hb).symm
  · rw [getPeerBucketLoop_eq]
    split_ifs with hcond
    · simp only [false_iff]
      omega
    · simp only [true_iff]
      omega

/-- In memory full of ones the key of every bucket wraps around, and `"13"` is found. -/
theorem lookup_terminates_wrapping : ∃ hashKey n, hash [49, 51, 0] = .ok hashKey ∧
    passes (lookupPass hashKey) 11 4294967295 = some (some hashKey, n) ∧ n ≤ 11 ∧
    getPeerBucket (initPeerTable fun _ => ⟨true, 4294967295⟩) [49, 51, 0] = .ok (some hashKey) := by
  obtain ⟨hashKey, found, n, hhash, hn, hle, hget, hhome, hnone⟩ :=
    lookup_terminates (initPeerTable fun _ => ⟨true, 4294967295⟩) [49, 51, 0] (by decide)
  have hkey : (initPeerTable fun _ => ⟨true, 4294967295⟩)[hashKey].key = 4294967295 :=
    (initPeerTable_flags _ hashKey).2
  rw [hkey] at hn hnone
  cases found with
  | none => exact absurd (hnone.mp rfl).2 (by decide)
  | some b =>
    obtain rfl := hhome b rfl
    exact ⟨b, n, hhash, hn, hle, hget⟩

end PeerToPeer
