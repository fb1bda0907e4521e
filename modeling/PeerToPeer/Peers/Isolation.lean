import PeerToPeer.Peers.Invariant

namespace PeerToPeer

open CLib

/-- A sequence of `set_peer` calls with NUL-terminated keys, as the calls see it. -/
def callsOf (ops : List (CString × Peer)) : List (List UInt8 × Peer) :=
  ops.map fun op => (op.1.mem, op.2)

theorem mem_putInto_callsOf (ops : List (CString × Peer)) (i : Fin maxPeerBuckets) (p : Peer) :
    p ∈ putInto i (callsOf ops) ↔ ∃ op ∈ ops, homeOf op.1.chars = i ∧ op.2 = p := by
  simp only [putInto, callsOf, List.mem_map, List.mem_filter, decide_eq_true_eq]
  constructor
  · rintro ⟨_, ⟨⟨op, hop, rfl⟩, hi⟩, rfl⟩
    exact ⟨op, hop, by simpa using hi, rfl⟩
  · rintro ⟨op, hop, hi, rfl⟩
    exact ⟨_, ⟨⟨op, hop, rfl⟩, by simpa using hi⟩, rfl⟩

theorem hash_eq_iff (k k' : CString) :
    hash k.mem = hash k'.mem ↔ homeOf k.chars = homeOf k'.chars := by
  rw [hash_terminated k.terminated_mem, hash_terminated k'.terminated_mem]
  simp

/-- What a lookup of `k` owes its caller after the calls `ops`: a bucket without peers that
were set only under other keys, and NULL if `k` was never used. -/
structure KeyIsolated (ops : List (CString × Peer)) (t : PeerTable) (k : CString) : Prop where
  own : ∀ b, getPeerBucket t k.mem = .ok (some b) → ∀ p ∈ t[b].peers, (k, p) ∈ ops
  absent : (∀ p, (k, p) ∉ ops) → getPeerBucket t k.mem = .ok none

/-- The bucket found for `k` is its home bucket, holding the peers of every key hashed there. -/
theorem lookup_after_calls {ops : List (CString × Peer)} {t : PeerTable}
    (h : setPeers (initPeerTable fun _ => .zeroed) (callsOf ops) = .ok t) (k : CString) :
    getPeerBucket t k.mem = .ok (some (homeOf k.chars)) ∧
      t[homeOf k.chars].peers = putInto (homeOf k.chars) (callsOf ops) := by
  obtain ⟨hinv, hp⟩ := setPeers_ok initPeerTable_inv h
  constructor
  · rw [getPeerBucket_inv hinv k.terminated_mem, k.chars_mem]
  · rw [hp, initPeerTable_peers, List.nil_append]

/-- Keys are isolated exactly when `k` was used and every peer set under a key with the
hash of `k` was set under `k` as well: the table stores the bucket index, not the key. -/
theorem keyIsolated_iff (ops : List (CString × Peer)) (t : PeerTable) (k : CString)
    (h : setPeers (initPeerTable fun _ => .zeroed) (callsOf ops) = .ok t) :
    KeyIsolated ops t k ↔
      (∃ p, (k, p) ∈ ops) ∧ ∀ op ∈ ops, hash op.1.mem = hash k.mem → (k, op.2) ∈ ops := by
  obtain ⟨hl, hp⟩ := lookup_after_calls h k
  constructor
  · intro hk
    constructor
    · by_contra hno
      have hnone := hk.absent (fun p hp => hno ⟨p, hp⟩)
      rw [hl] at hnone
      simp at hnone
    · intro op hop hh
      apply hk.own _ hl
      rw [hp, mem_putInto_callsOf]
      exact ⟨op, hop, (hash_eq_iff _ _).mp hh, rfl⟩
  · rintro ⟨⟨p₀, hp₀⟩, hall⟩
    refine ⟨?_, fun hno => absurd hp₀ (hno p₀)⟩
    intro b hb p hpb
    have hbk : homeOf k.chars = b := by
      rw [hl] at hb
      simpa using hb
    subst hbk
    rw [hp, mem_putInto_callsOf] at hpb
    obtain ⟨op, hop, hi, rfl⟩ := hpb
    exact hall op hop ((hash_eq_iff _ _).mpr hi)

/-- Calls with NUL-terminated keys return while every bucket has room for all of them. -/
theorem calls_return {t : PeerTable} (hinv : TableInv t) (ops : List (CString × Peer))
    (hl : ∀ b : Fin maxPeerBuckets, (t[b].len + ops.length) * sizeofPeer * 2 ≤ ptrdiffMax) :
    ∃ t', setPeers t (callsOf ops) = .ok t' := by
  induction ops generalizing t with
  | nil => exact ⟨t, rfl⟩
  | cons op ops ih =>
    simp only [List.length_cons, sizeofPeer] at hl
    have hroom := hl (homeOf (chars op.1.mem))
    obtain ⟨t₁, h₁⟩ := setPeer_total hinv op.1.terminated_mem op.2 (by rw [sizeofPeer]; omega)
    obtain ⟨-, hinv₁, happ⟩ := setPeer_ok hinv h₁
    have hgrown (b : Fin maxPeerBuckets) : t₁[b].len ≤ t[b].len + 1 := by
      by_cases hb : b = homeOf (chars op.1.mem)
      · subst hb
        rw [← PeerBucket.peers_length, happ.home, List.length_append, PeerBucket.peers_length]
        exact Nat.le_refl _
      · rw [happ.other b hb]
        exact Nat.le_succ _
    obtain ⟨t', h'⟩ := ih hinv₁ fun b => by
      have hb := hl b
      have hb₁ := hgrown b
      rw [sizeofPeer]
      omega
    exact ⟨t', bind_eq_ok.mpr ⟨t₁, h₁, h'⟩⟩

/-- The test suite's file hash `"13"`, a second string with the same hash, and one with another
hash. -/
def key13 : CString := ⟨[49, 51], by decide⟩
def key19 : CString := ⟨[49, 57], by decide⟩
def key14 : CString := ⟨[49, 52], by decide⟩

def somePeer : Peer := ⟨Bytes.zero 16, 6969, Bytes.zero 16, Bytes.zero 2, 0⟩

def otherPeer : Peer := { somePeer with port := 6970 }

/-- Each of two keys with different hashes keeps to its own peers. -/
theorem keyIsolated_two : ∃ t, setPeers (initPeerTable fun _ => .zeroed)
      (callsOf [(key13, somePeer), (key14, otherPeer)]) = .ok t ∧
    KeyIsolated [(key13, somePeer), (key14, otherPeer)] t key13 ∧
    KeyIsolated [(key13, somePeer), (key14, otherPeer)] t key14 := by
  obtain ⟨t, h⟩ := calls_return initPeerTable_inv [(key13, somePeer), (key14, otherPeer)] fun b => by
    rw [initPeerTable_len]
    decide
  refine ⟨t, h, (keyIsolated_iff _ t key13 h).mpr ⟨⟨somePeer, by simp⟩, ?_⟩,
    (keyIsolated_iff _ t key14 h).mpr ⟨⟨otherPeer, by simp⟩, ?_⟩⟩
  · decide
  · decide

/-- One call under `"19"`: the lookup of `"13"`, which was never used, is not NULL and
returns the peer of the other key. -/
theorem keys_share_bucket :
    ∃ t, setPeers (initPeerTable fun _ => .zeroed) (callsOf [(key19, somePeer)]) = .ok t ∧
      getPeerBucket t key13.mem = .ok (some (homeOf key13.chars)) ∧
      t[homeOf key13.chars].peers = [somePeer] ∧ ¬ KeyIsolated [(key19, somePeer)] t key13 := by
  obtain ⟨t, h⟩ := calls_return initPeerTable_inv [(key19, somePeer)] fun b => by
    rw [initPeerTable_len]
    decide
  obtain ⟨hl, hp⟩ := lookup_after_calls h key13
  have hin : putInto (homeOf key13.chars) (callsOf [(key19, somePeer)]) = [somePeer] := by
    decide
  refine ⟨t, h, hl, hp.trans hin, ?_⟩
  intro hk
  have hmem := hk.own _ hl somePeer (by rw [hp, hin]; simp)
  revert hmem
  decide

end PeerToPeer
