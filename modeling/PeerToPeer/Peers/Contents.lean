import PeerToPeer.Peers.Isolation
import Mathlib.Algebra.BigOperators.Group.Finset.Piecewise
import Mathlib.Data.Fintype.Basic

namespace PeerToPeer

open CLib

/-- All peers of a table, whichever bucket they are in. -/
def PeerTable.contents (t : PeerTable) : Multiset Peer :=
  ∑ i : Fin maxPeerBuckets, (t[i].peers : Multiset Peer)

theorem initPeerTable_contents (mem : Fin maxPeerBuckets → BucketMemory) :
    (initPeerTable mem).contents = 0 := by
  apply Finset.sum_eq_zero
  intro i _
  rw [initPeerTable_peers]
  rfl

/-- An append to one bucket adds its peers to the contents, and nothing else. -/
theorem Appended.contents {t t' : PeerTable} {i : Fin maxPeerBuckets} {ps : List Peer}
    (h : Appended t t' i ps) : t'.contents = t.contents + ps := by
  have hbucket : ∀ j : Fin maxPeerBuckets, (t'[j].peers : Multiset Peer) =
      (t[j].peers : Multiset Peer) + if j = i then (ps : Multiset Peer) else 0 := by
    intro j
    by_cases hj : j = i
    · subst hj
      rw [h.home, if_pos rfl, Multiset.coe_add]
    · rw [h.other j hj, if_neg hj, add_zero]
  rw [PeerTable.contents, Finset.sum_congr rfl fun j _ => hbucket j, Finset.sum_add_distrib,
    Finset.sum_ite_eq' Finset.univ i, if_pos (Finset.mem_univ i)]
  rfl

theorem setPeers_contents {t t' : PeerTable} (hinv : TableInv t)
    {ops : List (List UInt8 × Peer)} (h : setPeers t ops = .ok t') :
    t'.contents = t.contents + (ops.map Prod.snd : List Peer) := by
  induction ops generalizing t with
  | nil =>
    obtain rfl := Except.ok.inj h
    simp
  | cons op ops ih =>
    obtain ⟨t₁, h₁, h₂⟩ := bind_eq_ok.mp h
    obtain ⟨-, hinv₁, happ⟩ := setPeer_ok hinv h₁
    rw [ih hinv₁ h₂, happ.contents, add_assoc, Multiset.coe_add]
    rfl

/-- The peers set under one key are those of its home bucket, less what other keys put there. -/
theorem sublist_putInto (ops : List (CString × Peer)) (k : CString) :
    ((ops.filter fun op => op.1 = k).map Prod.snd).Sublist
      (putInto (homeOf k.chars) (callsOf ops)) := by
  induction ops with
  | nil => simp [putInto, callsOf]
  | cons op ops ih =>
    simp only [putInto, callsOf, List.map_cons, List.filter_cons, CString.chars_mem] at ih ⊢
    by_cases hk : op.1 = k
    · simpa [hk] using ih
    · by_cases hh : homeOf op.1.chars = homeOf k.chars
      · simpa [hk, hh] using ih.cons op.2
      · simpa [hk, hh] using ih

theorem putPeer_fault {t : PeerTable} {i : Fin maxPeerBuckets} {a : Bool} {k : UInt32}
    {p : Peer} {f : Fault} (h : putPeer t i a k p = .error f) :
    f = .exit 1 ∧ ptrdiffMax < t[i].len * sizeofPeer * 2 := by
  cases harr : t[i].array.push p with
  | ok arr =>
    simp only [putPeer, pushPeer, harr, ok_bind, pure_eq_ok] at h
    cases h
  | error e =>
    simp only [putPeer, pushPeer, harr, error_bind] at h
    cases h
    exact GrowArray.push_fault harr

/-- A sequence of calls ends early only where `realloc` refuses a block too large to exist. -/
theorem setPeers_fault {t : PeerTable} (hinv : TableInv t) {ops : List (CString × Peer)}
    {n : Nat} (hlen : ∀ i : Fin maxPeerBuckets, t[i].len ≤ n) {f : Fault}
    (h : setPeers t (callsOf ops) = .error f) :
    f = .exit 1 ∧ ptrdiffMax < (n + ops.length) * sizeofPeer * 2 := by
  induction ops generalizing t n with
  | nil => simp [callsOf, setPeers] at h
  | cons op ops ih =>
    have hset := setPeer_eq hinv op.1.terminated_mem op.2
    cases h₁ : setPeer t op.1.mem op.2 with
    | error e =>
      have he : e = f := by simpa [callsOf, setPeers, h₁] using h
      subst he
      rw [hset] at h₁
      obtain ⟨hexit, hbig⟩ := putPeer_fault h₁
      have hhome := hlen (homeOf (chars op.1.mem))
      refine ⟨hexit, hbig.trans_le ?_⟩
      simp only [sizeofPeer, List.length_cons]
      omega
    | ok t₁ =>
      obtain ⟨-, hinv₁, happ⟩ := setPeer_ok hinv h₁
      have hrest : setPeers t₁ (callsOf ops) = .error f := by
        simpa [callsOf, setPeers, h₁] using h
      have hlen₁ : ∀ i : Fin maxPeerBuckets, t₁[i].len ≤ n + 1 :=
        fun i => (happ.len_le i).trans (Nat.add_le_add_right (hlen i) 1)
      obtain ⟨hexit, hbig⟩ := ih hinv₁ hlen₁ hrest
      refine ⟨hexit, hbig.trans_le ?_⟩
      simp only [sizeofPeer, List.length_cons]
      omega

/-- What the table owes its callers after the calls `ops`. -/
structure KeepsPeers (ops : List (CString × Peer)) (t : PeerTable) : Prop where
  contents : t.contents = (ops.map Prod.snd : List Peer)
  lookup : ∀ k p, (k, p) ∈ ops → ∃ b, getPeerBucket t k.mem = .ok (some b) ∧
    ((ops.filter fun op => op.1 = k).map Prod.snd).Sublist t[b].peers
  last : ∀ (k : CString) p t', setPeer t k.mem p = .ok t' →
    ∃ b : Fin maxPeerBuckets, t'[b].peers = t[b].peers ++ [p] ∧
      ∀ i : Fin maxPeerBuckets, i ≠ b → t'[i].peers = t[i].peers

/-- No peer is lost, duplicated or reordered by any sequence of `set_peer` calls, and nothing
but a refused `realloc` ends such a sequence. -/
theorem calls_keep_peers (ops : List (CString × Peer)) :
    (∀ f, setPeers (initPeerTable fun _ => .zeroed) (callsOf ops) = .error f →
      f = .exit 1 ∧ ptrdiffMax < ops.length * sizeofPeer * 2) ∧
    ∀ t, setPeers (initPeerTable fun _ => .zeroed) (callsOf ops) = .ok t → KeepsPeers ops t := by
  constructor
  · intro f h
    have hlen : ∀ i : Fin maxPeerBuckets, (initPeerTable fun _ => .zeroed)[i].len ≤ 0 :=
      fun i => (initPeerTable_len _ i).le
    have hf := setPeers_fault initPeerTable_inv hlen h
    rwa [Nat.zero_add] at hf
  · intro t h
    obtain ⟨hinv, -⟩ := setPeers_ok initPeerTable_inv h
    constructor
    · rw [setPeers_contents initPeerTable_inv h, initPeerTable_contents, zero_add, callsOf,
        List.map_map]
      rfl
    · intro k p _
      obtain ⟨hl, hp⟩ := lookup_after_calls h k
      refine ⟨_, hl, ?_⟩
      rw [hp]
      exact sublist_putInto ops k
    · intro k p t' h'
      obtain ⟨-, -, happ⟩ := setPeer_ok hinv h'
      exact ⟨_, happ.home, fun i hi => congrArg PeerBucket.peers (happ.other i hi)⟩

/-- Two keys of one bucket and a second peer of the first key, past the initial capacity. -/
def mixedCalls : List (CString × Peer) :=
  [(key13, somePeer), (key19, { somePeer with port := 1 }), (key13, { somePeer with port := 2 })]

theorem mixedCalls_kept : ∃ t,
    setPeers (initPeerTable fun _ => .zeroed) (callsOf mixedCalls) = .ok t ∧
      KeepsPeers mixedCalls t := by
  cases h : setPeers (initPeerTable fun _ => .zeroed) (callsOf mixedCalls) with
  | ok t => exact ⟨t, rfl, (calls_keep_peers mixedCalls).2 t h⟩
  | error f =>
    have hbig := ((calls_keep_peers mixedCalls).1 f h).2
    exact absurd hbig (by decide)

end PeerToPeer
