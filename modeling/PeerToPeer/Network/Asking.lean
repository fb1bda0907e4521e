import PeerToPeer.Network.Local

namespace PeerToPeer

open CLib Transition

namespace Net

variable {n : Nat}

/-- `p` asks process `v` for `hash`, on behalf of process `i`, and comes from process `u`. -/
structure Asking (s : Net n) (i u v : Fin n) (hash : Bytes idSize) (p : Packet n) : Prop where
  call : IsCall (decodeHeader p.msg) .getPeers
  strings : MsgStrings p.msg
  dest : p.dest.addr = s.addr v
  caller : p.msg.replyTo.addr = s.addr u
  source : (decodeSrc (decodeHeader p.msg).body).addr = s.addr i
  hash : decodeHash (decodeHeader p.msg).body = hash

theorem Asking.of_same {s s' : Net n} {i u v : Fin n} {hash : Bytes idSize} {p : Packet n}
    (h : SameHosts s s') (ha : Asking s i u v hash p) : Asking s' i u v hash p :=
  ⟨ha.call, ha.strings, ha.dest.trans (h.addr v).symm, ha.caller.trans (h.addr u).symm,
    ha.source.trans (h.addr i).symm, ha.hash⟩

theorem asking_searchCall {s : Net n} (hs : s.Sound) {i u v : Fin n} {hash : Bytes idSize}
    {src : Origin} {next : NodeEntry} (os : Os) (search : Search n)
    (hh : Terminated hash.mem) (hsrc : Terminated src.ip.mem) (hi : src.addr = s.addr i)
    (hv : next.addr = s.addr v) :
    Asking s i u v hash ⟨next.origin, searchCall os hash src (s.hosts u), search⟩ := by
  have hu := (hs.strings u).ip
  exact ⟨searchCall_isCall _ _ _ _, searchCall_strings hh hsrc hu,
    (NodeEntry.origin_addr next).trans hv, searchCall_replyTo _ _ _ _,
    (searchCall_src_addr _ _ _ _).trans hi, searchCall_hash _ _ _ _⟩

/-- The one process a neighbour entry stands for. -/
theorem Sound.link {s : Net n} (hs : s.Sound) {u : Fin n} {caller : Addr} {next : NodeEntry}
    (hn : nextHop (s.hosts u).sortedNeighbors.live caller = some next) :
    ∃ v, v ≠ u ∧ next.addr = s.addr v :=
  hs.neighbors u next (nextHop_mem hn).1

/-- A search starts by asking the first neighbour. -/
theorem asking_starts {s : Net n} (hs : s.Sound) {i v : Fin n} {hash : Bytes idSize} (os : Os)
    (hos : ∀ k, os.sendto k = true) (hh : Terminated hash.mem) {next : NodeEntry}
    (hn : nextHop (s.hosts i).sortedNeighbors.live (s.addr i) = some next)
    (hv : next.addr = s.addr v) :
    ∃ s' p, s.step (.search i hash os) = some s' ∧ s'.flight = s.flight ++ [p] ∧
      p.search = ⟨i, hash⟩ ∧ Asking s i i v hash p ∧
      ∀ j, (s'.hosts j).table = (s.hosts j).table := by
  obtain ⟨s', hstep, hflight, htab⟩ := search_starts hs hash os hos hn
  have hip := (hs.strings i).ip
  refine ⟨s', _, hstep, hflight, rfl, ?_, htab⟩
  exact asking_searchCall hs os ⟨i, hash⟩ hh (Bytes.terminated_norm hip) (Node.origin_addr _)
    hv

/-- The buckets of process `v` fit the answers it may have to give. -/
structure Room (s : Net n) (v : Fin n) (hash : Bytes idSize) : Prop where
  asked : s.held v hash ≤ 25
  own : s.held v (s.hashKey v) ≤ 25

theorem held_of_emptyTable {s : Net n} {v : Fin n} (h : (s.hosts v).table = emptyTable)
    (hash : Bytes idSize) : s.held v hash = 0 := by
  rw [held, h]
  exact initPeerTable_len _ _

theorem Room.of_empty {s : Net n} {v : Fin n} (h : ∀ g, s.held v g = 0) (hash : Bytes idSize) :
    s.Room v hash := by
  constructor
  · rw [h]
    exact Nat.zero_le _
  · rw [h]
    exact Nat.zero_le _

theorem Asking.fit {s : Net n} {i u v : Fin n} {hash : Bytes idSize} {p : Packet n}
    (ha : Asking s i u v hash p) (hroom : s.Room v hash) :
    BucketsFit (s.hashKey v) p.msg (s.hosts v) :=
  ⟨fun _ => ha.hash ▸ hroom.asked, hroom.own⟩

/-- A process with an empty bucket asks its next neighbour for the hash of its own file. -/
theorem asking_passed {s : Net n} (hs : s.Sound) {i u v w : Fin n} {hash : Bytes idSize}
    {p : Packet n} (ha : Asking s i u v hash p) (hflight : s.flight = [p])
    (hroom : s.Room v hash) (os : Os) (hos : ∀ k, os.sendto k = true)
    (hl : s.held v hash = 0) {next : NodeEntry}
    (hn : nextHop (s.hosts v).sortedNeighbors.live (s.addr u) = some next)
    (hw : next.addr = s.addr w) :
    ∃ s' p', s.step (.deliver 0 v false os) = some s' ∧ s'.flight = [p'] ∧
      p'.search = p.search ∧ Asking s i v w (s.hashKey v) p' ∧
      ∀ j, (s'.hosts j).table = (s.hosts j).table := by
  have hk : s.flight[0]? = some p := flight_head hflight
  obtain ⟨s', hstep, hf, htab⟩ := search_delivered hs os hk ha.dest ha.strings ha.call
    (ha.fit hroom)
  have hempty : homeLen (s.hosts v).table (askedHash p.msg) = 0 := by
    rw [askedHash, ha.hash]
    exact hl
  rw [← ha.caller] at hn
  rw [searchOut_forward hempty hn, sentPackets_attempt hos, hflight] at hf
  refine ⟨s', _, hstep, hf, rfl, ?_, htab⟩
  exact asking_searchCall hs os p.search (hs.keys v) (ha.strings.call ha.call).2 ha.source hw

end Net

/-- Process 0 knows process 1, which knows process 2; the middle one serves the file of
`middle`. -/
def chainNet (middle : Bytes idSize) : LocalNet 3 where
  small := three_small
  links := fun i => if i = 0 then [1] else if i = 1 then [2] else []
  short := by decide
  others := by decide
  tables := fun _ => emptyTable
  hashKey := fun i => if i = 1 then middle else fileHash

/-- The two steps by which the search of process 0 reaches the end of the chain. -/
structure ChainRun (middle : Bytes idSize) (s₁ s₂ : Net 3) (p₁ p₂ : Packet 3) : Prop where
  start : (chainNet middle).net.step (.search 0 fileHash sendingOs) = some s₁
  pass : s₁.step (.deliver 0 1 false sendingOs) = some s₂
  called : s₁.flight = [p₁]
  asked : Net.Asking (chainNet middle).net 0 0 1 fileHash p₁
  forwarded : s₂.flight = [p₂]
  search : p₂.search = ⟨0, fileHash⟩
  onward : Net.Asking (chainNet middle).net 0 1 2 middle p₂

section Chain

variable {middle : Bytes idSize}

theorem chainNet_sound (hm : Terminated middle.mem) : (chainNet middle).net.Sound := by
  refine (chainNet middle).sound (fun _ => initPeerTable_inv) (fun _ => emptyTable_strings) ?_
  intro i
  show Terminated (if i = 1 then middle else fileHash).mem
  split_ifs
  · exact hm
  · decide

/-- The links of the chain only lead on. -/
theorem chainNet_knows {u v : Fin 3} (h : (chainNet middle).net.Knows u v) : u < v := by
  obtain ⟨e, he, ha⟩ := h
  rw [show ((chainNet middle).net.hosts u).sortedNeighbors.live = _ from
    (chainNet middle).host_live u] at he
  obtain ⟨j, hj, rfl⟩ := List.mem_map.mp he
  obtain rfl : j = v := (chainNet middle).addr_inj ha
  have hup : ∀ u j : Fin 3, j ∈ (if u = 0 then [1] else if u = 1 then [2] else []) → u < j := by
    decide
  exact hup u j hj

theorem chainNet_run (hm : Terminated middle.mem) :
    ∃ s₁ s₂ p₁ p₂, ChainRun middle s₁ s₂ p₁ p₂ := by
  have hsound := chainNet_sound hm
  have hhash : Terminated fileHash.mem := by decide
  have hnext₀ : nextHop ((chainNet middle).net.hosts 0).sortedNeighbors.live
      ((chainNet middle).net.addr 0) = some (localEntry 1) := (chainNet middle).host_nextHop 0 0
  obtain ⟨s₁, p₁, hstep₁, hflight₁, hsearch₁, hask₁, htab₁⟩ := Net.asking_starts hsound
    sendingOs (fun _ => rfl) hhash hnext₀ rfl
  have hsame : Net.SameHosts (chainNet middle).net s₁ := (Net.step_flight hstep₁).1
  have hheld : ∀ hash, s₁.held 1 hash = 0 := Net.held_of_emptyTable (htab₁ 1)
  have hkey : s₁.hashKey 1 = middle := congrFun hsame.hashKey 1
  have hnext₁ : nextHop (s₁.hosts 1).sortedNeighbors.live (s₁.addr 0) =
      some (localEntry (2 : Fin 3)) := by
    rw [hsame.neighbors, hsame.addr]
    exact (chainNet middle).host_nextHop 1 0
  obtain ⟨s₂, p₂, hstep₂, hflight₂, hsearch₂, hask₂, -⟩ := Net.asking_passed
    (hsound.of_same hsame htab₁) (hask₁.of_same hsame) hflight₁ (.of_empty hheld _) sendingOs
    (fun _ => rfl) (hheld fileHash) hnext₁ (hsame.addr 2).symm
  rw [hkey] at hask₂
  exact ⟨s₁, s₂, p₁, p₂, hstep₁, hstep₂, hflight₁, hask₁, hflight₂,
    hsearch₂.trans hsearch₁, hask₂.of_same hsame.symm⟩

theorem ChainRun.run {s₁ s₂ : Net 3} {p₁ p₂ : Packet 3}
    (h : ChainRun middle s₁ s₂ p₁ p₂) : Transition.run Net.step (chainNet middle).net
      [.search 0 fileHash sendingOs, .deliver 0 1 false sendingOs] = some s₂ :=
  run_cons.mpr ⟨s₁, h.start, run_cons.mpr ⟨s₂, h.pass, rfl⟩⟩

end Chain

end PeerToPeer
