import PeerToPeer.Nodes.Distance
import PeerToPeer.Peers.Contents
import PeerToPeer.Rpc.Receive

namespace PeerToPeer

open CLib

theorem terminated_iff_length {n : Nat} (b : Bytes n) : Terminated b.mem ↔ b.str.length < n := by
  constructor
  · intro h
    have hlt := chars_length_lt b.mem h
    rwa [Vector.length_toList] at hlt
  · intro h
    by_contra hno
    rw [Bytes.str, chars_of_not_terminated hno, Vector.length_toList] at h
    exact lt_irrefl n h

/-- The scans of a key field stay inside it. -/
structure ScansInside (field : Bytes idSize) : Prop where
  hash : ∃ i, hash field.mem = .ok i
  lookup : ∀ t, ∃ b, getPeerBucket t field.mem = .ok b
  store : ∀ t p, setPeer t field.mem p ≠ .error .outOfBounds
  handler : ∀ body t, decodeHash body = field → (∃ c, strcmp (decodeHash body).mem [0] = .ok c) ∧
    ∃ b, getPeerBucket t (decodeHash body).mem = .ok b
  distance : ∀ node, ∃ node', xorDistance field.mem node = .ok node'
  behind : ∀ t rest, getPeerBucket t (field.mem ++ rest) = getPeerBucket t field.mem

theorem setPeer_fault {t : PeerTable} {key : List UInt8} {p : Peer} {f : Fault}
    (ht : Terminated key) (h : setPeer t key p = .error f) : f = .exit 1 := by
  rw [setPeer, hash_terminated ht, ok_bind] at h
  dsimp only at h
  split_ifs at h
  · exact (putPeer_fault h).1
  · exact (putPeer_fault h).1
  · cases h
  · exact (putPeer_fault h).1
  · exact (putPeer_fault h).1

/-- A key without a NUL is scanned past its end by every function that takes it for a string. -/
theorem unterminated_scans {key : List UInt8} (h : ¬ Terminated key) :
    hash key = .error .outOfBounds ∧ (∀ t, getPeerBucket t key = .error .outOfBounds) ∧
      (∀ t p, setPeer t key p = .error .outOfBounds) ∧
      ∀ node, xorDistance key node = .error .outOfBounds := by
  have hhash : hash key = .error .outOfBounds := by
    rw [hash, hashLoop_unterminated key hashOffset h, error_bind]
  refine ⟨hhash, ?_, ?_, ?_⟩
  · intro t
    rw [getPeerBucket, hhash, error_bind]
  · intro t p
    rw [setPeer, hhash, error_bind]
  · intro node
    rw [xorDistance, strlen, if_neg h, error_bind]

/-- The scans stay inside exactly when the hash leaves room for a NUL. -/
theorem key_scans_iff (field : Bytes idSize) : ScansInside field ↔ field.str.length < idSize := by
  rw [← terminated_iff_length]
  constructor
  · intro h
    obtain ⟨i, hi⟩ := h.hash
    exact (hash_ok hi).1
  · intro ht
    have hl : (chars field.mem).length ≤ idSize := ((terminated_iff_length field).mp ht).le
    constructor
    · exact ⟨_, hash_terminated ht⟩
    · intro t
      exact ⟨_, getPeerBucket_eq t ht⟩
    · intro t p h
      cases setPeer_fault ht h
    · rintro body t rfl
      exact ⟨strcmp_terminated _ _ ht (by decide), _, getPeerBucket_eq t ht⟩
    · intro node
      exact ⟨_, xorDistance_ok node ht hl⟩
    · intro t rest
      have hrest : Terminated (field.mem ++ rest) := List.mem_append_left _ ht
      rw [getPeerBucket, getPeerBucket, hash_terminated ht, hash_terminated hrest, chars_append ht]

/-- `"123e4567-e89b-12d3-a456-426614174000"`, without a NUL. -/
def uuidField : Bytes idSize := Bytes.padded idSize [49, 50, 51, 101, 52, 53, 54, 55, 45, 101, 56,
  57, 98, 45, 49, 50, 100, 51, 45, 97, 52, 53, 54, 45, 52, 50, 54, 54, 49, 52, 49, 55, 52, 48, 48, 48]

/-- The text of a UUID fills the field, and its bucket depends on the memory behind. -/
theorem uuid_scans_on : uuidField.str.length = idSize ∧ ¬ ScansInside uuidField ∧
    (∀ node, xorDistance uuidField.mem node = .error .outOfBounds) ∧
    hash (uuidField.mem ++ [0]) = .ok 5 ∧ hash (uuidField.mem ++ [1, 0]) = .ok 8 := by
  have hno : ¬ Terminated uuidField.mem := by decide
  have hfull : uuidField.str = uuidField.mem := chars_of_not_terminated hno
  obtain ⟨hhash, -, -, hdist⟩ := unterminated_scans hno
  refine ⟨by rw [hfull, Vector.length_toList], ?_, hdist, ?_, ?_⟩
  · intro h
    obtain ⟨i, hi⟩ := h.hash
    rw [hhash] at hi
    cases hi
  · rw [hash_terminated (by decide)]
    decide +kernel
  · rw [hash_terminated (by decide)]
    decide +kernel

end PeerToPeer
