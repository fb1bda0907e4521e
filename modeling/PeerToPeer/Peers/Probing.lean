import PeerToPeer.Peers.Isolation
import Mathlib.Order.Fin.Basic

namespace PeerToPeer

open CLib

/-- What the probing loop of `set_peer` looks for. -/
def PeerTable.Free (t : PeerTable) (b : Fin maxPeerBuckets) : Prop :=
  t[b].len = 0 ∧ t[b].active = false

instance (t : PeerTable) (b : Fin maxPeerBuckets) : Decidable (t.Free b) :=
  inferInstanceAs (Decidable (_ ∧ _))

/-- The home bucket of a key is taken under another key. -/
structure Collision (t : PeerTable) (key : List UInt8) : Prop where
  string : Terminated key
  active : t[homeOf (chars key)].active = true
  other : t[homeOf (chars key)].key ≠ keyOf (homeOf (chars key))

/-- The first free bucket behind the home bucket. -/
structure FirstFree (t : PeerTable) (home b : Fin maxPeerBuckets) : Prop where
  behind : home < b
  free : t.Free b
  first : ∀ j, home < j → j < b → ¬ t.Free j

/-- Linear probing as the comment on `set_peer` has it, for one key and peer. -/
structure Probes (t : PeerTable) (key : List UInt8) (p : Peer) : Prop where
  free : ∀ b, FirstFree t (homeOf (chars key)) b → ∃ t', setPeer t key p = .ok t' ∧
    Appended t t' b [p] ∧ getPeerBucket t' key = .ok (some b)
  full : (∀ b, homeOf (chars key) < b → ¬ t.Free b) → setPeer t key p = .ok t

section Collision

variable {t : PeerTable} {key : List UInt8} (hc : Collision t key) (p : Peer)

include hc

/-- One bucket is tried. -/
theorem Collision.setPeer_next {next : Fin maxPeerBuckets}
    (hn : next.val = (homeOf (chars key)).val + 1) :
    setPeer t key p =
      if t.Free next then putPeer t next t[next].active (keyOf next) p else .ok t := by
  have hlt : (homeOf (chars key)).val + 1 < maxPeerBuckets := hn ▸ next.isLt
  obtain rfl : next = ⟨(homeOf (chars key)).val + 1, hlt⟩ := Fin.ext hn
  rw [setPeer, hash_terminated hc.string, ok_bind]
  simp only [hc.active, if_true, if_neg hc.other, dif_pos hlt]
  rfl

/-- Behind the last bucket nothing is tried, and the home bucket is taken over. -/
theorem Collision.setPeer_last (hlast : (homeOf (chars key)).val + 1 = maxPeerBuckets) :
    setPeer t key p = putPeer t (homeOf (chars key)) true (keyOf (homeOf (chars key))) p := by
  have hlt : ¬ (homeOf (chars key)).val + 1 < maxPeerBuckets := by omega
  rw [setPeer, hash_terminated hc.string, ok_bind]
  simp only [hc.active, if_true, if_neg hc.other, dif_neg hlt]

end Collision

/-- The one bucket that is tried is taken too: a peer set under this key goes nowhere. -/
structure Drops (t : PeerTable) (key : List UInt8) : Prop where
  collision : Collision t key
  taken : ∃ next : Fin maxPeerBuckets, next.val = (homeOf (chars key)).val + 1 ∧ ¬ t.Free next

theorem Drops.unchanged {t : PeerTable} {key : List UInt8} (h : Drops t key) (p : Peer) :
    setPeer t key p = .ok t := by
  obtain ⟨next, hn, hf⟩ := h.taken
  rw [h.collision.setPeer_next p hn, if_neg hf]

/-- In any table at all, a peer that is set goes nowhere or to one bucket. -/
theorem setPeer_cases {t t' : PeerTable} {key : List UInt8} {p : Peer}
    (h : setPeer t key p = .ok t') : (Drops t key ∧ t' = t) ∨ ∃ i, Appended t t' i [p] := by
  obtain ⟨i, hi, hrest⟩ := bind_eq_ok.mp h
  obtain ⟨ht, rfl⟩ := hash_ok hi
  dsimp only at hrest
  split_ifs at hrest with ha hk hn hf
  · exact Or.inr ⟨_, (putPeer_ok hrest).1⟩
  · exact Or.inr ⟨_, (putPeer_ok hrest).1⟩
  · exact Or.inl ⟨⟨⟨ht, ha, hk⟩, _, rfl, hf⟩, (Except.ok.inj hrest).symm⟩
  · exact Or.inr ⟨_, (putPeer_ok hrest).1⟩
  · exact Or.inr ⟨_, (putPeer_ok hrest).1⟩

theorem setPeer_len_le {t t' : PeerTable} {key : List UInt8} {p : Peer}
    (h : setPeer t key p = .ok t') (i : Fin maxPeerBuckets) : t[i].len ≤ t'[i].len := by
  rcases setPeer_cases h with ⟨-, rfl⟩ | ⟨j, happ⟩
  · exact Nat.le_refl _
  · rw [← PeerBucket.peers_length, ← PeerBucket.peers_length]
    exact (happ.grows i).length_le

theorem setPeers_len_le {t t' : PeerTable} {ops : List (List UInt8 × Peer)}
    (h : setPeers t ops = .ok t') (i : Fin maxPeerBuckets) : t[i].len ≤ t'[i].len := by
  induction ops generalizing t with
  | nil => exact (Except.ok.inj h) ▸ Nat.le_refl _
  | cons op ops ih =>
    obtain ⟨t₁, h₁, h₂⟩ := bind_eq_ok.mp h
    exact (setPeer_len_le h₁ i).trans (ih h₂)

/-- A run of calls under one key leaves the table as it is exactly when the first call does. -/
theorem setPeers_unchanged_iff (t : PeerTable) (key : List UInt8) {ps : List Peer} (hne : ps ≠ []) :
    setPeers t (ps.map fun p => (key, p)) = .ok t ↔ Drops t key := by
  constructor
  · intro h
    cases ps with
    | nil => exact absurd rfl hne
    | cons p ps =>
      obtain ⟨t₁, h₁, h₂⟩ := bind_eq_ok.mp h
      rcases setPeer_cases h₁ with ⟨hd, -⟩ | ⟨i, happ⟩
      · exact hd
      · have hgrown : t₁[i].len = t[i].len + 1 := by
          rw [← PeerBucket.peers_length, happ.home, List.length_append, PeerBucket.peers_length]
          rfl
        have hback := setPeers_len_le h₂ i
        omega
  · intro hd
    clear hne
    induction ps with
    | nil => rfl
    | cons p ps ih =>
      rw [List.map_cons, setPeers, hd.unchanged p]
      exact ih

theorem exists_firstFree {t : PeerTable} {home b : Fin maxPeerBuckets} (hb : home < b)
    (hf : t.Free b) : ∃ b, FirstFree t home b := by
  induction b using WellFoundedLT.induction with
  | ind b ih =>
    by_cases hfirst : ∀ j, home < j → j < b → ¬ t.Free j
    · exact ⟨b, hb, hf, hfirst⟩
    · push Not at hfirst
      obtain ⟨j, hj, hjb, hfj⟩ := hfirst
      exact ih j hjb hj hfj

/-- The lookup knows the home bucket only. -/
theorem getPeerBucket_home {t : PeerTable} {key : List UInt8} {b : Fin maxPeerBuckets}
    (h : getPeerBucket t key = .ok (some b)) : b = homeOf (chars key) := by
  obtain ⟨i, hi, -⟩ := bind_eq_ok.mp h
  rw [getPeerBucket_eq t (hash_ok hi).1] at h
  have hfound := Except.ok.inj h
  split_ifs at hfound
  exact (Option.some.inj hfound).symm

theorem not_probes_of_free {t : PeerTable} {key : List UInt8} {p : Peer} {b : Fin maxPeerBuckets}
    (hb : homeOf (chars key) < b) (hf : t.Free b) : ¬ Probes t key p := by
  intro h
  obtain ⟨first, hfirst⟩ := exists_firstFree hb hf
  obtain ⟨t', -, -, hget⟩ := h.free first hfirst
  exact absurd (getPeerBucket_home hget) hfirst.behind.ne'

theorem putPeer_changes {t : PeerTable} {i : Fin maxPeerBuckets} {a : Bool} {k : UInt32} {p : Peer} :
    putPeer t i a k p ≠ .ok t := by
  intro h
  have hhome := (putPeer_ok h).1.home
  simp at hhome

/-- A collision is probed for as it should be exactly when the home bucket is not the last one
and no bucket behind it is free: then nothing is stored. -/
theorem probing_iff (t : PeerTable) (key : List UInt8) (p : Peer) (hc : Collision t key) :
    Probes t key p ↔ (homeOf (chars key)).val + 1 < maxPeerBuckets ∧
      ∀ b, homeOf (chars key) < b → ¬ t.Free b := by
  have hlt := (homeOf (chars key)).isLt
  constructor
  · intro h
    have hnone : ∀ b, homeOf (chars key) < b → ¬ t.Free b := by
      intro b hb hf
      exact not_probes_of_free hb hf h
    refine ⟨?_, hnone⟩
    by_contra hlast
    have hrun := h.full hnone
    rw [hc.setPeer_last p (by omega)] at hrun
    exact putPeer_changes hrun
  · rintro ⟨hnext, hnone⟩
    constructor
    · intro b hb
      exact absurd hb.free (hnone b hb.behind)
    · intro _
      have hbehind : homeOf (chars key) < ⟨(homeOf (chars key)).val + 1, hnext⟩ :=
        Fin.mk_lt_mk.mpr (Nat.lt_succ_self _)
      exact Drops.unchanged ⟨hc, _, rfl, hnone _ hbehind⟩ p

/-- `"1"`, with home bucket 4. -/
def key1 : CString := ⟨[49], by decide⟩

/-- In memory full of ones every bucket is taken. -/
def fullTable : PeerTable := initPeerTable fun _ => ⟨true, 4294967295⟩

theorem probing_full : setPeer fullTable key1.mem somePeer = .ok fullTable := by
  have hactive (i : Fin maxPeerBuckets) : fullTable[i].active = true :=
    (initPeerTable_flags _ i).1
  have hkey (i : Fin maxPeerBuckets) : fullTable[i].key = 4294967295 := (initPeerTable_flags _ i).2
  have hnone (b : Fin maxPeerBuckets) : ¬ fullTable.Free b := by
    intro h
    exact absurd (h.2.symm.trans (hactive b)) (by decide)
  have hc : Collision fullTable key1.mem := by
    refine ⟨key1.terminated_mem, hactive _, ?_⟩
    rw [hkey]
    decide
  exact ((probing_iff fullTable key1.mem somePeer hc).mpr
    ⟨by decide, fun b _ => hnone b⟩).full fun b _ => hnone b

/-- The home bucket of `"1"` is taken under the key 99, and all others are free. -/
def takenMemory (i : Fin maxPeerBuckets) : BucketMemory := if i = 4 then ⟨true, 99⟩ else ⟨false, 0⟩

def takenTable : PeerTable := initPeerTable takenMemory

/-- The peer goes to the next bucket, where the lookup does not find it. -/
theorem probed_peer_lost : ∃ t', setPeer takenTable key1.mem somePeer = .ok t' ∧
    Appended takenTable t' 5 [somePeer] ∧ getPeerBucket t' key1.mem = .ok none ∧
    Collision takenTable key1.mem ∧ ¬ Probes takenTable key1.mem somePeer := by
  have hactive (i : Fin maxPeerBuckets) : takenTable[i].active = (takenMemory i).active :=
    (initPeerTable_flags takenMemory i).1
  have hkey (i : Fin maxPeerBuckets) : takenTable[i].key = (takenMemory i).key :=
    (initPeerTable_flags takenMemory i).2
  have hnext : takenTable.Free 5 := ⟨initPeerTable_len _ _, (hactive 5).trans (by decide)⟩
  have hc : Collision takenTable key1.mem := by
    refine ⟨key1.terminated_mem, (hactive _).trans (by decide), ?_⟩
    rw [hkey]
    decide
  have hroom : takenTable[(5 : Fin maxPeerBuckets)].len * sizeofPeer * 2 ≤ ptrdiffMax := by
    rw [hnext.1]
    decide
  obtain ⟨t', ht'⟩ := putPeer_total takenTable 5 takenTable[(5 : Fin maxPeerBuckets)].active
    (keyOf 5) somePeer hroom
  have happ := (putPeer_ok ht').1
  refine ⟨t', ?_, happ, ?_, hc, not_probes_of_free (by decide) hnext⟩
  · rw [hc.setPeer_next somePeer (by decide : (5 : Fin maxPeerBuckets).val = _), if_pos hnext, ht']
  · rw [getPeerBucket_eq _ key1.terminated_mem, happ.other _ (by decide), hkey, if_neg (by decide)]

end PeerToPeer
