import PeerToPeer.Peers.Table

namespace PeerToPeer

open CLib

/-- The bucket a string is looked up in. -/
def homeOf (s : List UInt8) : Fin maxPeerBuckets :=
  Fin.ofNat maxPeerBuckets (s.foldl hashStep hashOffset).toNat

theorem hashLoop_terminated (mem : List UInt8) (h : UInt32) (ht : Terminated mem) :
    hashLoop h mem = .ok ((chars mem).foldl hashStep h) := by
  induction mem generalizing h with
  | nil => simp [Terminated] at ht
  | cons b bs ih =>
    rw [hashLoop, chars_cons]
    split_ifs with hb
    · rfl
    · exact ih _ (by simpa [Terminated, Ne.symm hb] using ht)

theorem hashLoop_unterminated (mem : List UInt8) (h : UInt32) (ht : ¬ Terminated mem) :
    hashLoop h mem = .error .outOfBounds := by
  induction mem generalizing h with
  | nil => rfl
  | cons b bs ih =>
    have hb : b ≠ 0 := fun hb => ht (by simp [Terminated, hb])
    rw [hashLoop, if_neg hb]
    exact ih _ (fun hbs => ht (List.mem_cons_of_mem _ hbs))

theorem hash_terminated {key : List UInt8} (ht : Terminated key) :
    hash key = .ok (homeOf (chars key)) := by
  simp [hash, hashLoop_terminated key hashOffset ht, homeOf]

theorem hash_ok {key : List UInt8} {i : Fin maxPeerBuckets} (h : hash key = .ok i) :
    Terminated key ∧ i = homeOf (chars key) := by
  by_cases ht : Terminated key
  · rw [hash_terminated ht] at h
    exact ⟨ht, (Except.ok.inj h).symm⟩
  · simp [hash, hashLoop_unterminated key hashOffset ht] at h

@[simp] theorem keyOf_toNat (i : Fin maxPeerBuckets) : (keyOf i).toNat = i.val := by
  have h := i.isLt
  simp only [keyOf, UInt32.toNat_ofNat', maxPeerBuckets] at *
  omega

/-- The scan meets the home index when it starts at or below it, or wraps to zero. -/
theorem getPeerBucketLoop_eq (i : Fin maxPeerBuckets) (k : UInt32) :
    getPeerBucketLoop i k = if k.toNat ≤ i.val ∨ k.toNat = 4294967295 then some i else none := by
  have hi : i.val < 10 := i.isLt
  induction k using getPeerBucketLoop.induct i with
  | case1 =>
    rw [getPeerBucketLoop, if_pos rfl, if_pos (Or.inl (by simp))]
  | case2 k hk hlt ih =>
    have hne : i.val ≠ k.toNat := fun e => hk (UInt32.toNat_inj.mp (by simpa using e))
    have hadd := UInt32.toNat_add k 1
    have hkl := k.toNat_lt
    rw [getPeerBucketLoop, if_neg hk, if_pos hlt, ih]
    simp only [UInt32.toNat_one, maxPeerBuckets] at hadd hlt
    apply if_congr _ rfl rfl
    omega
  | case3 k hk hge =>
    have hne : i.val ≠ k.toNat := fun e => hk (UInt32.toNat_inj.mp (by simpa using e))
    have hadd := UInt32.toNat_add k 1
    have hkl := k.toNat_lt
    rw [getPeerBucketLoop, if_neg hk, if_neg hge, if_neg]
    simp only [UInt32.toNat_one, maxPeerBuckets] at hadd hge
    omega

/-- The lookup in any table at all. -/
theorem getPeerBucket_eq (t : PeerTable) {key : List UInt8} (ht : Terminated key) :
    getPeerBucket t key = .ok (if t[homeOf (chars key)].key.toNat ≤ (homeOf (chars key)).val ∨
      t[homeOf (chars key)].key.toNat = 4294967295 then some (homeOf (chars key)) else none) := by
  rw [getPeerBucket, hash_terminated ht, ok_bind, getPeerBucketLoop_eq]
  rfl

/-- The tables that `set_peer` makes from zeroed memory: a key is still zero or the
bucket's own index, and an occupied bucket carries its own index. -/
structure TableInv (t : PeerTable) : Prop where
  key : ∀ i : Fin maxPeerBuckets, t[i].key = 0 ∨ t[i].key = keyOf i
  active : ∀ i : Fin maxPeerBuckets, t[i].active = true → t[i].key = keyOf i

/-- `t'` is `t` with `ps` appended to bucket `i`. -/
structure Appended (t t' : PeerTable) (i : Fin maxPeerBuckets) (ps : List Peer) : Prop where
  home : t'[i].peers = t[i].peers ++ ps
  other : ∀ j : Fin maxPeerBuckets, j ≠ i → t'[j] = t[j]

theorem Appended.refl (t : PeerTable) (i : Fin maxPeerBuckets) : Appended t t i [] :=
  ⟨(List.append_nil _).symm, fun _ _ => rfl⟩

theorem Appended.trans {t t' t'' : PeerTable} {i : Fin maxPeerBuckets} {ps qs : List Peer}
    (h : Appended t t' i ps) (h' : Appended t' t'' i qs) : Appended t t'' i (ps ++ qs) :=
  ⟨by rw [h'.home, h.home, List.append_assoc], fun j hj => (h'.other j hj).trans (h.other j hj)⟩

/-- Every list of the table grows by appending. -/
theorem Appended.grows {t t' : PeerTable} {i : Fin maxPeerBuckets} {ps : List Peer}
    (h : Appended t t' i ps) (j : Fin maxPeerBuckets) : t[j].peers <+: t'[j].peers := by
  by_cases hj : j = i
  · subst hj
    exact ⟨ps, h.home.symm⟩
  · have hsame : t'[j] = t[j] := h.other j hj
    exact hsame ▸ List.prefix_rfl

theorem Appended.len_le {t t' : PeerTable} {i : Fin maxPeerBuckets} {ps : List Peer}
    (h : Appended t t' i ps) (j : Fin maxPeerBuckets) :
    t'[j].len ≤ t[j].len + ps.length := by
  by_cases hj : j = i
  · subst hj
    rw [← PeerBucket.peers_length, h.home, List.length_append, PeerBucket.peers_length]
  · rw [h.other j hj]
    exact Nat.le_add_right _ _

/-- What the bucket of a key holds. -/
def homePeers {n : Nat} (t : PeerTable) (key : Bytes n) : List Peer := t[homeOf key.str].peers

def homeLen {n : Nat} (t : PeerTable) (key : Bytes n) : Nat := t[homeOf key.str].len

theorem homePeers_length {n : Nat} (t : PeerTable) (key : Bytes n) :
    (homePeers t key).length = homeLen t key := PeerBucket.peers_length _

theorem Appended.homeLen_le {n : Nat} {t t' : PeerTable} {i : Fin maxPeerBuckets}
    {ps : List Peer} (h : Appended t t' i ps) (key : Bytes n) : homeLen t key ≤ homeLen t' key := by
  rw [← homePeers_length, ← homePeers_length]
  exact (h.grows _).length_le

theorem initPeerTable_inv : TableInv (initPeerTable fun _ => .zeroed) := by
  constructor <;> intro i <;> simp [initPeerTable, newPeerArray]

theorem initPeerTable_peers (mem : Fin maxPeerBuckets → BucketMemory)
    (i : Fin maxPeerBuckets) : (initPeerTable mem)[i].peers = [] := by
  simp [initPeerTable, newPeerArray, PeerBucket.peers]

theorem initPeerTable_len (mem : Fin maxPeerBuckets → BucketMemory) (i : Fin maxPeerBuckets) :
    (initPeerTable mem)[i].len = 0 := by
  rw [← PeerBucket.peers_length, initPeerTable_peers]
  rfl

/-- What `init_peer_table` never writes keeps what the memory held. -/
theorem initPeerTable_flags (mem : Fin maxPeerBuckets → BucketMemory) (i : Fin maxPeerBuckets) :
    (initPeerTable mem)[i].active = (mem i).active ∧ (initPeerTable mem)[i].key = (mem i).key := by
  simp [initPeerTable, newPeerArray]

theorem getPeerBucket_inv {t : PeerTable} (hinv : TableInv t) {key : List UInt8}
    (ht : Terminated key) : getPeerBucket t key = .ok (some (homeOf (chars key))) := by
  have hk : t[homeOf (chars key)].key.toNat ≤ (homeOf (chars key)).val := by
    rcases hinv.key (homeOf (chars key)) with h | h
    · rw [h]
      exact Nat.zero_le _
    · rw [h, keyOf_toNat]
  rw [getPeerBucket_eq t ht, if_pos (Or.inl hk)]

theorem getPeerBucket_ok {t : PeerTable} (hinv : TableInv t) {key : List UInt8}
    {ob : Option (Fin maxPeerBuckets)} (h : getPeerBucket t key = .ok ob) :
    ob = some (homeOf (chars key)) := by
  obtain ⟨i, hi, -⟩ := bind_eq_ok.mp h
  rw [getPeerBucket_inv hinv (hash_ok hi).1] at h
  exact (Except.ok.inj h).symm

theorem putPeer_ok {t t' : PeerTable} {i : Fin maxPeerBuckets} {a : Bool} {k : UInt32}
    {p : Peer} (h : putPeer t i a k p = .ok t') :
    Appended t t' i [p] ∧ t'[i].active = a ∧ t'[i].key = k := by
  obtain ⟨b, hb, ht⟩ := bind_eq_ok.mp h
  obtain ⟨arr, harr, hb⟩ := bind_eq_ok.mp hb
  obtain rfl := Except.ok.inj hb
  obtain rfl := Except.ok.inj ht
  refine ⟨⟨?_, ?_⟩, by simp, by simp⟩
  · simpa [PeerBucket.peers] using GrowArray.push_live harr
  · intro j hj
    have hv : i.val ≠ j.val := fun e => hj (Fin.ext e.symm)
    exact Vector.getElem_set_ne i.isLt j.isLt hv

theorem putPeer_total (t : PeerTable) (i : Fin maxPeerBuckets) (a : Bool) (k : UInt32)
    (p : Peer) (hl : t[i].len * sizeofPeer * 2 ≤ ptrdiffMax) :
    ∃ t', putPeer t i a k p = .ok t' := by
  obtain ⟨arr, harr⟩ := GrowArray.push_total t[i].array p hl
  refine ⟨t.set i ⟨a, k, arr⟩, ?_⟩
  simp only [putPeer, pushPeer, harr, ok_bind, pure_eq_ok]

/-- On these tables an occupied home bucket always matches, so the probing branch is
never taken and `set_peer` is one append to the home bucket. -/
theorem setPeer_eq {t : PeerTable} (hinv : TableInv t) {key : List UInt8}
    (ht : Terminated key) (p : Peer) :
    setPeer t key p = putPeer t (homeOf (chars key)) true (keyOf (homeOf (chars key))) p := by
  rw [setPeer, hash_terminated ht, ok_bind]
  dsimp only
  cases ha : t[homeOf (chars key)].active with
  | false => simp only [Bool.false_eq_true, if_false]
  | true => simp only [if_true, hinv.active _ ha]

theorem setPeer_ok {t t' : PeerTable} (hinv : TableInv t) {key : List UInt8} {p : Peer}
    (h : setPeer t key p = .ok t') :
    Terminated key ∧ TableInv t' ∧ Appended t t' (homeOf (chars key)) [p] := by
  have ht : Terminated key := by
    obtain ⟨i, hi, -⟩ := bind_eq_ok.mp h
    exact (hash_ok hi).1
  rw [setPeer_eq hinv ht] at h
  obtain ⟨happ, ha, hk⟩ := putPeer_ok h
  refine ⟨ht, ⟨?_, ?_⟩, happ⟩
  · intro j
    by_cases hji : j = homeOf (chars key)
    · subst hji
      exact Or.inr hk
    · rw [happ.other j hji]
      exact hinv.key j
  · intro j hj
    by_cases hji : j = homeOf (chars key)
    · subst hji
      exact hk
    · rw [happ.other j hji] at hj ⊢
      exact hinv.active j hj

theorem setPeer_total {t : PeerTable} (hinv : TableInv t) {key : List UInt8}
    (ht : Terminated key) (p : Peer)
    (hl : t[homeOf (chars key)].len * sizeofPeer * 2 ≤ ptrdiffMax) :
    ∃ t', setPeer t key p = .ok t' := by
  rw [setPeer_eq hinv ht]
  exact putPeer_total t _ _ _ p hl

/-- The peers of the calls whose key has home bucket `i`, in call order. -/
def putInto (i : Fin maxPeerBuckets) (ops : List (List UInt8 × Peer)) : List Peer :=
  (ops.filter fun op => homeOf (chars op.1) = i).map Prod.snd

/-- A run of `set_peer` calls appends to each bucket exactly the peers hashed into it. -/
theorem setPeers_ok {t t' : PeerTable} (hinv : TableInv t) {ops : List (List UInt8 × Peer)}
    (h : setPeers t ops = .ok t') :
    TableInv t' ∧ ∀ i : Fin maxPeerBuckets, t'[i].peers = t[i].peers ++ putInto i ops := by
  induction ops generalizing t with
  | nil =>
    obtain rfl := Except.ok.inj h
    exact ⟨hinv, fun i => by simp [putInto]⟩
  | cons op ops ih =>
    obtain ⟨t₁, h₁, h₂⟩ := bind_eq_ok.mp h
    obtain ⟨-, hinv₁, happ⟩ := setPeer_ok hinv h₁
    obtain ⟨hinv', hp⟩ := ih hinv₁ h₂
    refine ⟨hinv', ?_⟩
    intro i
    rw [hp i]
    by_cases hi : homeOf (chars op.1) = i
    · subst hi
      rw [happ.home]
      simp [putInto]
    · rw [happ.other i (Ne.symm hi)]
      simp [putInto, hi]

/-- With one key throughout, the whole sequence is one append to its home bucket. -/
theorem setPeers_key_ok {t t' : PeerTable} (hinv : TableInv t) {key : List UInt8}
    {ps : List Peer} (h : setPeers t (ps.map fun p => (key, p)) = .ok t') :
    TableInv t' ∧ Appended t t' (homeOf (chars key)) ps := by
  induction ps generalizing t with
  | nil =>
    obtain rfl := Except.ok.inj h
    exact ⟨hinv, Appended.refl _ _⟩
  | cons p ps ih =>
    obtain ⟨t₁, h₁, h₂⟩ := bind_eq_ok.mp h
    obtain ⟨-, hinv₁, happ⟩ := setPeer_ok hinv h₁
    obtain ⟨hinv', happ'⟩ := ih hinv₁ h₂
    exact ⟨hinv', happ.trans happ'⟩

theorem setPeers_key_total {t : PeerTable} (hinv : TableInv t) {key : List UInt8}
    (ht : Terminated key) (ps : List Peer)
    (hl : (t[homeOf (chars key)].len + ps.length) * sizeofPeer * 2 ≤ ptrdiffMax) :
    ∃ t', setPeers t (ps.map fun p => (key, p)) = .ok t' := by
  induction ps generalizing t with
  | nil => exact ⟨t, rfl⟩
  | cons p ps ih =>
    simp only [List.length_cons, sizeofPeer] at hl ⊢
    obtain ⟨t₁, h₁⟩ := setPeer_total hinv ht p (by rw [sizeofPeer]; omega)
    obtain ⟨-, hinv₁, happ⟩ := setPeer_ok hinv h₁
    have hlen : t₁[homeOf (chars key)].len = t[homeOf (chars key)].len + 1 := by
      rw [← PeerBucket.peers_length, happ.home, List.length_append, PeerBucket.peers_length]
      rfl
    obtain ⟨t', h'⟩ := ih hinv₁ (by rw [hlen, sizeofPeer]; omega)
    exact ⟨t', by simp [setPeers, h₁, h']⟩

end PeerToPeer
