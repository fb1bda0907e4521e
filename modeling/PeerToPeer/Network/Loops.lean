import PeerToPeer.Network.Arrivals
import PeerToPeer.Network.Asking
import PeerToPeer.Transition.Walk
import Mathlib.Data.List.Perm.Basic
import Mathlib.Algebra.Order.BigOperators.Group.Finset

namespace PeerToPeer

open CLib Transition

/-- The message is a call of the search whose payload names `src` as its source. -/
def SearchFor (src : Addr) (msg : RpcMsg) : Prop :=
  IsCall (decodeHeader msg) .getPeers ∧ (decodeSrc (decodeHeader msg).body).addr = src

instance (src : Addr) (msg : RpcMsg) : Decidable (SearchFor src msg) :=
  inferInstanceAs (Decidable (_ ∧ _))

theorem searchFor_searchCall {os : Os} {hash : Bytes idSize} {from' : Origin} {m : Machine}
    {src : Addr} : SearchFor src (searchCall os hash from' m) ↔ from'.addr = src := by
  rw [SearchFor, searchCall_src_addr]
  exact and_iff_right (searchCall_isCall _ _ _ _)

/-- The number of send attempts that carry on the search of `src`. -/
def searchCalls (src : Addr) (out : List Send) : Nat := out.countP fun x => SearchFor src x.msg

theorem searchCalls_append (src : Addr) (out out' : List Send) :
    searchCalls src (out ++ out') = searchCalls src out + searchCalls src out' :=
  List.countP_append

theorem searchCalls_silent {src : Addr} {out : List Send}
    (h : ∀ x ∈ out, ¬ SearchFor src x.msg) : searchCalls src out = 0 := by
  rw [searchCalls, List.countP_eq_zero]
  intro x hx
  simpa using h x hx

/-- Taking the only match out of a list leaves none. -/
theorem filter_eraseIdx_eq_nil {α : Type} {P : α → Bool} {l : List α} {k : Nat} {a : α}
    (hk : l[k]? = some a) (ha : P a = true) (hone : (l.filter P).length ≤ 1) :
    (l.eraseIdx k).filter P = [] := by
  obtain ⟨hlt, rfl⟩ := List.getElem?_eq_some_iff.mp hk
  have hperm := (List.getElem_cons_eraseIdx_perm hlt).filter P
  rw [List.filter_cons_of_pos ha] at hperm
  have hlen := hperm.length_eq
  rw [List.length_cons] at hlen
  exact List.eq_nil_of_length_eq_zero (by omega)

namespace Net

variable {n : Nat}

/-- The calls of the search of `src` that are in flight. -/
def searches (src : Addr) (s : Net n) : List (Packet n) :=
  s.flight.filter fun p => SearchFor src p.msg

theorem mem_searches {src : Addr} {s : Net n} {p : Packet n} :
    p ∈ s.searches src ↔ p ∈ s.flight ∧ SearchFor src p.msg := by
  simp [searches]

/-- Process `i` starts no further search, and no datagram is delivered twice. -/
def Once (i : Fin n) : NetEvent n → Prop
  | .search j _ _ => j ≠ i
  | .deliver _ _ dup _ => dup = false
  | _ => True

/-- `v` holds no peers for some hash it can be asked for in a search for `hash`. -/
def CanPass (s : Net n) (hash : Bytes idSize) (v : Fin n) : Prop :=
  ∃ g, (g = hash ∨ ∃ u, g = s.hashKey u) ∧ s.held v g = 0

/-- `v` is a neighbour of `u` and may have to pass the search on. -/
def PassLink (s : Net n) (hash : Bytes idSize) (u v : Fin n) : Prop :=
  s.Knows u v ∧ s.CanPass hash v

theorem Linked.passLink_irrefl {s : Net n} (hs : s.Linked) {hash : Bytes idSize} (v : Fin n) :
    ¬ s.PassLink hash v v := by
  rintro ⟨⟨e, he, ha⟩, -⟩
  obtain ⟨j, hj, haj⟩ := hs.neighbors v e he
  exact hj (hs.distinct j v (haj.symm.trans ha))

/-- The call that `u` made in a search for `hash` is on its way to `v`. -/
structure Heading (s : Net n) (hash : Bytes idSize) (u v : Fin n) (p : Packet n) : Prop where
  dest : p.dest.addr = s.addr v
  caller : p.msg.replyTo.addr = s.addr u
  link : s.Knows u v
  asked : askedHash p.msg = hash ∨ ∃ w, askedHash p.msg = s.hashKey w

theorem heading_searchCall {s₀ s : Net n} (hs : s₀.Linked) (hsame : SameHosts s₀ s) {u : Fin n}
    {hash g : Bytes idSize} {src : Origin} {caller : Addr} {next : NodeEntry} (os : Os)
    (search : Search n) (hg : g = hash ∨ ∃ w, g = s₀.hashKey w)
    (hn : nextHop (s.hosts u).sortedNeighbors.live caller = some next) :
    ∃ v, Heading s₀ hash u v ⟨next.origin, searchCall os g src (s.hosts u), search⟩ ∧
      s₀.addr v ≠ caller := by
  obtain ⟨hmem, hne⟩ := nextHop_mem hn
  rw [hsame.neighbors u] at hmem
  obtain ⟨v, -, hv⟩ := hs.neighbors u next hmem
  refine ⟨v, ⟨(NodeEntry.origin_addr next).trans hv, ?_, ⟨next, hmem, hv⟩, ?_⟩, hv ▸ hne⟩
  · exact (searchCall_replyTo _ _ _ _).trans (hsame.addr u)
  · rwa [askedHash, searchCall_hash]

/-- The processes that have called in the search of process `i`, latest first, form a walk, and
the only call in flight, if there is one, goes on from its end. -/
structure Trail (s₀ s : Net n) (i : Fin n) (hash : Bytes idSize) (path : List (Fin n)) :
    Prop where
  same : SameHosts s₀ s
  tables : s.Tables
  grown : ∀ v g, s₀.held v g ≤ s.held v g
  onward : Onward (PassLink s₀ hash) path
  calls : ∀ j, searchCalls (s₀.addr i) (s.hosts j).sends ≤
    searchCalls (s₀.addr i) (s₀.hosts j).sends + path.count j
  one : (s.searches (s₀.addr i)).length ≤ 1
  next : ∀ p ∈ s.searches (s₀.addr i), ∃ u rest v, path = u :: rest ∧
    Heading s₀ hash u v p ∧ ∀ t ∈ rest.head?, v ≠ t

section Moved

variable {s : Net n} {i : Fin n} {m : Machine} {search : Search n} {rest : List (Packet n)}
  {out : List Send}

theorem moved_calls (hm : m.sends = (s.hosts i).sends ++ out) (src : Addr) (j : Fin n) :
    searchCalls src ((s.moved i m search rest).hosts j).sends =
      searchCalls src (s.hosts j).sends + if j = i then searchCalls src out else 0 := by
  by_cases hj : j = i
  · subst hj
    rw [moved_host, hm, searchCalls_append, if_pos rfl]
  · rw [moved_host_ne _ _ _ _ _ hj, if_neg hj, Nat.add_zero]

theorem moved_searches (hm : m.sends = (s.hosts i).sends ++ out) (src : Addr) :
    (s.moved i m search rest).searches src =
      (rest.filter fun p => SearchFor src p.msg) ++
        (sentPackets search out).filter fun p => SearchFor src p.msg := by
  rw [searches, moved_flight _ _ _ _ _ hm, List.filter_append]

end Moved

/-- A step that attempts no call of the search leaves the walk as it is. -/
theorem Trail.quiet {s₀ s s' : Net n} {i : Fin n} {hash : Bytes idSize} {path : List (Fin n)}
    {e : NetEvent n} (ht : Trail s₀ s i hash path) (h : s.step e = some s')
    (hcalls : ∀ j, searchCalls (s₀.addr i) (s'.hosts j).sends =
      searchCalls (s₀.addr i) (s.hosts j).sends)
    (hsub : (s'.searches (s₀.addr i)).Sublist (s.searches (s₀.addr i))) :
    Trail s₀ s' i hash path := by
  refine ⟨ht.same.trans (step_flight h).1, fun j => (step_appended ht.tables h j).1,
    fun v g => (ht.grown v g).trans (step_held ht.tables h v g), ht.onward, ?_, ?_, ?_⟩
  · intro j
    rw [hcalls j]
    exact ht.calls j
  · exact hsub.length_le.trans ht.one
  · intro p hp
    exact ht.next p (hsub.subset hp)

/-- A process that attempts no call of the search, with datagrams possibly taken out of
flight. -/
theorem Trail.moved_quiet {s₀ s : Net n} {i j : Fin n} {hash : Bytes idSize}
    {path : List (Fin n)} {e : NetEvent n} {m : Machine} {search : Search n}
    {rest : List (Packet n)} {out : List Send} (ht : Trail s₀ s i hash path)
    (h : s.step e = some (s.moved j m search rest)) (hm : m.sends = (s.hosts j).sends ++ out)
    (hrest : rest.Sublist s.flight) (hout : ∀ x ∈ out, ¬ SearchFor (s₀.addr i) x.msg) :
    Trail s₀ (s.moved j m search rest) i hash path := by
  refine ht.quiet h ?_ ?_
  · intro k
    rw [moved_calls hm, searchCalls_silent hout]
    simp
  · have hnone : ((sentPackets search out).filter fun p => SearchFor (s₀.addr i) p.msg) = [] := by
      rw [List.filter_eq_nil_iff]
      intro p hp
      obtain ⟨-, x, hx, -, hmsg⟩ := mem_sentPackets hp
      simpa [← hmsg] using hout x hx
    rw [moved_searches hm, hnone, List.append_nil]
    exact hrest.filter _

/-- The one call of the search is handled, and its receiver makes the next one. -/
theorem Trail.passed {s₀ s : Net n} {i j v : Fin n} {hash : Bytes idSize} {path : List (Fin n)}
    {e : NetEvent n} {m : Machine} {search : Search n} {rest : List (Packet n)} {x : Send}
    (ht : Trail s₀ s i hash path) (h : s.step e = some (s.moved j m search rest))
    (hm : m.sends = (s.hosts j).sends ++ [x])
    (hrest : (rest.filter fun p => SearchFor (s₀.addr i) p.msg) = [])
    (honward : Onward (PassLink s₀ hash) (j :: path))
    (hhead : Heading s₀ hash j v ⟨x.dest, x.msg, search⟩) (hturn : ∀ t ∈ path.head?, v ≠ t) :
    Trail s₀ (s.moved j m search rest) i hash (j :: path) := by
  have hsearches : (s.moved j m search rest).searches (s₀.addr i) =
      (sentPackets search [x]).filter fun p => SearchFor (s₀.addr i) p.msg := by
    rw [moved_searches hm, hrest, List.nil_append]
  refine ⟨ht.same.trans (step_flight h).1, fun k => (step_appended ht.tables h k).1,
    fun w g => (ht.grown w g).trans (step_held ht.tables h w g), honward, ?_, ?_, ?_⟩
  · intro k
    have hone : searchCalls (s₀.addr i) [x] ≤ 1 := List.countP_le_length
    have hold := ht.calls k
    rw [moved_calls hm, List.count_cons]
    by_cases hk : k = j
    · subst hk
      simp only [if_true, beq_self_eq_true]
      omega
    · rw [if_neg hk]
      omega
  · have hsent : (sentPackets search [x]).length ≤ 1 := by
      rw [sentPackets, List.length_map]
      exact List.length_filter_le _ _
    rw [hsearches]
    exact (List.length_filter_le _ _).trans hsent
  · intro p hp
    rw [hsearches] at hp
    obtain ⟨hs, y, hy, hd, hmsg⟩ := mem_sentPackets (List.mem_of_mem_filter hp)
    obtain rfl := List.mem_singleton.mp hy
    obtain ⟨dest, msg, search'⟩ := p
    simp only at hs hd hmsg
    subst hs hd hmsg
    exact ⟨j, path, v, rfl, hhead, hturn⟩

/-- One event: the walk stays or grows by one process. -/
theorem Trail.step {s₀ s s' : Net n} {i : Fin n} {hash : Bytes idSize} {path : List (Fin n)}
    {e : NetEvent n} (hs : s₀.Linked) (ht : Trail s₀ s i hash path) (he : Once i e)
    (h : s.step e = some s') : ∃ path', Trail s₀ s' i hash path' := by
  cases step_inv h with
  | search j g os =>
    refine ⟨path, ht.moved_quiet h rfl (List.Sublist.refl _) ?_⟩
    intro x hx
    rw [searchSends_eq] at hx
    obtain ⟨next, -, rfl⟩ := Option.map_eq_some_iff.mp (Option.mem_toList.mp hx)
    rw [attempt, searchFor_searchCall, Node.origin_addr]
    intro hj
    exact he (hs.distinct j i ((ht.same.addr j).symm.trans hj))
  | joins _ j out _ hq =>
    exact ⟨path, ht.moved_quiet h rfl (List.Sublist.refl _) fun x hx hc => (hq x hx).1 hc.1⟩
  | lose k _ => exact ⟨path, ht.quiet h (fun _ => rfl) ((List.eraseIdx_sublist _ _).filter _)⟩
  | deliver k j dup os q r m hq hj hm =>
    obtain rfl : dup = false := he
    obtain ⟨out, hout, hemit⟩ := (recvRpc_handled hm).2.emitted
    have hrest : (s.flight.eraseIdx k).Sublist s.flight := List.eraseIdx_sublist _ _
    cases hemit with
    | quiet _ hquiet => exact ⟨path, ht.moved_quiet h hout hrest fun x hx hc => (hquiet x hx).1 hc.1⟩
    | answered b ha =>
      refine ⟨path, ht.moved_quiet h hout hrest ?_⟩
      intro x hx hc
      obtain rfl := List.mem_singleton.mp hx
      exact not_isCall_replyOf hc.1
    | forwarded next hf =>
      by_cases hsrc : SearchFor (s₀.addr i) q.msg
      · obtain ⟨u, rest, v, rfl, hhead, hturn⟩ :=
          ht.next q (mem_searches.mpr ⟨List.mem_of_getElem? hq, hsrc⟩)
        obtain rfl : j = v :=
          hs.distinct j v ((ht.same.addr j).symm.trans (hj.symm.trans hhead.dest))
        obtain ⟨w, hnext, hne⟩ := heading_searchCall hs ht.same os q.search
          (.inr ⟨j, congrFun ht.same.hashKey j⟩) hf.next
        have hlink : PassLink s₀ hash u j := by
          obtain ⟨b, hb, hl⟩ := hf.empty
          obtain rfl := Option.some.inj (getPeerBucket_ok (ht.tables j) hb)
          have hgrown : s₀.held j (askedHash q.msg) ≤ s.held j (askedHash q.msg) :=
            ht.grown j (askedHash q.msg)
          have hempty : s.held j (askedHash q.msg) = 0 := hl
          exact ⟨hhead.link, askedHash q.msg, hhead.asked, by omega⟩
        have hback : ∀ t ∈ (u :: rest).head?, w ≠ t := by
          rintro t ht rfl
          obtain rfl : u = w := by simpa using ht
          exact hne hhead.caller.symm
        exact ⟨j :: u :: rest, ht.passed h hout (filter_eraseIdx_eq_nil hq (by simpa using hsrc)
          ht.one) (ht.onward.next hlink hturn) hnext hback⟩
      · refine ⟨path, ht.moved_quiet h hout hrest ?_⟩
        intro x hx hc
        obtain rfl := List.mem_singleton.mp hx
        rw [attempt, searchFor_searchCall] at hc
        exact hsrc ⟨hf.call, hc⟩

theorem Trail.start {s₀ s₁ : Net n} {i : Fin n} {hash : Bytes idSize} {os : Os}
    (hs : s₀.Linked) (htab : s₀.Tables) (hnone : s₀.searches (s₀.addr i) = [])
    (h : s₀.step (.search i hash os) = some s₁) : ∃ path, Trail s₀ s₁ i hash path := by
  have ht : Trail s₀ s₀ i hash [] := by
    refine ⟨SameHosts.refl s₀, htab, fun _ _ => le_rfl, .nil, fun _ => Nat.le_add_right _ _,
      ?_, ?_⟩
    · rw [hnone]
      exact Nat.zero_le _
    · rw [hnone]
      simp
  obtain ⟨r, m, hm, rfl⟩ := step_search.mp h
  obtain rfl := getPeers_ok hm
  have hsends := searchSends_eq os hash (s₀.hosts i).node.origin (s₀.hosts i).node.origin
    (s₀.hosts i)
  cases hnext : nextHop (s₀.hosts i).sortedNeighbors.live (s₀.hosts i).node.origin.addr with
  | none =>
    rw [hnext] at hsends
    refine ⟨[], ht.moved_quiet h rfl (List.Sublist.refl _) ?_⟩
    intro x hx
    rw [hsends] at hx
    simp at hx
  | some next =>
    rw [hnext] at hsends
    obtain ⟨v, hhead, -⟩ := heading_searchCall hs (SameHosts.refl s₀) os ⟨i, hash⟩ (.inl rfl) hnext
    exact ⟨[i], ht.passed h (congrArg _ hsends) hnone (.start i) hhead (by simp)⟩

open Finset in
/-- Where every cycle that the search can be passed around is shorter than three processes, each
process attempts at most one call of it: at the initiator when it starts, elsewhere to pass it
on. -/
theorem searches_pass_once (s₀ s₁ s : Net n) (i : Fin n) (hash : Bytes idSize) (os : Os)
    (events : List (NetEvent n)) (hs : s₀.Linked) (htab : s₀.Tables)
    (hnone : s₀.searches (s₀.addr i) = [])
    (hcycles : ∀ c, Cycle (PassLink s₀ hash) c → c.length < 3)
    (hstart : s₀.step (.search i hash os) = some s₁) (hevents : ∀ e ∈ events, Once i e)
    (hrun : run step s₁ events = some s) :
    (∀ j, searchCalls (s₀.addr i) (s.hosts j).sends ≤
      searchCalls (s₀.addr i) (s₀.hosts j).sends + 1) ∧
    ∑ j, searchCalls (s₀.addr i) (s.hosts j).sends ≤
      ∑ j, searchCalls (s₀.addr i) (s₀.hosts j).sends + n := by
  let Inv (t : Net n) : Prop := ∃ path, Trail s₀ t i hash path
  have hstep : ∀ t e t', Inv t → Once i e → step t e = some t' → Inv t' := by
    rintro t e t' ⟨path, ht⟩ he h
    exact ht.step hs he h
  obtain ⟨path, ht⟩ : Inv s := run_induction Inv hstep (Trail.start hs htab hnone hstart)
    hevents hrun
  have hnodup : path.Nodup := ht.onward.nodup hs.passLink_irrefl hcycles
  have hone (j : Fin n) : searchCalls (s₀.addr i) (s.hosts j).sends ≤
      searchCalls (s₀.addr i) (s₀.hosts j).sends + 1 := by
    have hcount : path.count j ≤ 1 := List.nodup_iff_count_le_one.mp hnodup j
    have hcalls := ht.calls j
    omega
  refine ⟨hone, ?_⟩
  calc ∑ j, searchCalls (s₀.addr i) (s.hosts j).sends
      ≤ ∑ j, (searchCalls (s₀.addr i) (s₀.hosts j).sends + 1) := sum_le_sum fun j _ => hone j
    _ = ∑ j, searchCalls (s₀.addr i) (s₀.hosts j).sends + n := by
      simp [sum_add_distrib]

/-- A process that passes a search on makes one more call of it, the others none. -/
theorem passed_calls {s s' : Net n} (htab : s.Tables) {i u v : Fin n} {hash : Bytes idSize}
    {p : Packet n} {os : Os} {next : NodeEntry} (ha : Asking s i u v hash p)
    (hflight : s.flight = [p]) (hl : s.held v hash = 0)
    (hn : nextHop (s.hosts v).sortedNeighbors.live (s.addr u) = some next)
    (h : s.step (.deliver 0 v false os) = some s') (j : Fin n) :
    searchCalls (s.addr i) (s'.hosts j).sends =
      searchCalls (s.addr i) (s.hosts j).sends + if j = v then 1 else 0 := by
  obtain ⟨q, hq, -, r, m, hm, rfl⟩ := step_deliver.mp h
  obtain rfl : p = q := by simpa [hflight] using hq
  have hout := (recvRpc_search (htab v) ha.call hm).2.1
  have hempty : homeLen (s.hosts v).table (askedHash p.msg) = 0 := by
    rw [askedHash, ha.hash]
    exact hl
  rw [← ha.caller] at hn
  rw [searchOut_forward hempty hn] at hout
  rw [moved_calls hout]
  congr 2
  rw [searchCalls, List.countP_singleton, if_pos]
  rw [attempt, decide_eq_true_iff, searchFor_searchCall]
  exact ha.source

end Net

theorem searches_pass_once_chain : ∃ s₁ s,
    (chainNet fileHash).net.step (.search 0 fileHash sendingOs) = some s₁ ∧
      run Net.step s₁ [.deliver 0 1 false sendingOs] = some s ∧
      (∃ p, s.flight = [p] ∧ SearchFor ((chainNet fileHash).net.addr 0) p.msg) ∧
      ∀ j, searchCalls ((chainNet fileHash).net.addr 0) (s.hosts j).sends ≤
        searchCalls ((chainNet fileHash).net.addr 0) ((chainNet fileHash).net.hosts j).sends + 1 := by
  have hhash : Terminated fileHash.mem := by decide
  obtain ⟨s₁, s₂, p₁, p₂, h⟩ := chainNet_run hhash
  have hsound := chainNet_sound hhash
  have hrun : run Net.step s₁ [.deliver 0 1 false sendingOs] = some s₂ :=
    run_cons.mpr ⟨s₂, h.pass, rfl⟩
  have hcycles : ∀ c, Cycle ((chainNet fileHash).net.PassLink fileHash) c → c.length < 3 := by
    intro c hc
    rw [hc.eq_nil fun u v hlink => chainNet_knows hlink.1]
    decide
  exact ⟨s₁, s₂, h.start, hrun, ⟨p₂, h.forwarded, h.onward.call, h.onward.source⟩,
    (Net.searches_pass_once _ s₁ s₂ 0 fileHash sendingOs _ hsound.linked hsound.tables rfl
      hcycles h.start (by simp [Net.Once]) hrun).1⟩

/-- Three processes in a ring, all without peers. -/
def ringNet : LocalNet 3 where
  small := three_small
  links := fun i => [i + 1]
  short := by decide
  others := by decide
  tables := fun _ => emptyTable
  hashKey := fun _ => fileHash

theorem ringNet_sound : ringNet.net.Sound :=
  ringNet.sound (fun _ => initPeerTable_inv) (fun _ => emptyTable_strings)
    (fun _ => by show Terminated fileHash.mem; decide)

theorem ringNet_nextHop (v caller : Fin 3) (h : v + 1 ≠ caller) :
    nextHop (ringNet.net.hosts v).sortedNeighbors.live (ringNet.net.addr caller) =
      some (localEntry (v + 1)) := by
  have hlinks : (ringNet.links v).find? (fun j => j ≠ caller) = some (v + 1) := by
    show List.find? (fun j => j ≠ caller) [v + 1] = some (v + 1)
    rw [List.find?_cons_of_pos (by simpa using h)]
  rw [show nextHop (ringNet.net.hosts v).sortedNeighbors.live _ = _ from
    ringNet.host_nextHop v caller, hlinks]
  rfl

/-- The call of the ring's search is on its way from `u` to the next process. -/
structure Circling (s : Net 3) (u : Fin 3) : Prop where
  same : Net.SameHosts ringNet.net s
  tables : ∀ j, (s.hosts j).table = emptyTable
  call : ∃ p, s.flight = [p] ∧ Net.Asking s 0 u (u + 1) fileHash p

/-- Nobody in the ring stops the call. -/
theorem Circling.step {s : Net 3} {u : Fin 3} (h : Circling s u) :
    ∃ s', s.step (.deliver 0 (u + 1) false sendingOs) = some s' ∧ Circling s' (u + 1) ∧
      ∀ j, searchCalls (ringNet.net.addr 0) (s'.hosts j).sends =
        searchCalls (ringNet.net.addr 0) (s.hosts j).sends + if j = u + 1 then 1 else 0 := by
  obtain ⟨p, hflight, ha⟩ := h.call
  have hsound : s.Sound := ringNet_sound.of_same h.same h.tables
  have hempty : ∀ g, s.held (u + 1) g = 0 := Net.held_of_emptyTable (h.tables (u + 1))
  have hturn : ∀ u : Fin 3, u + 1 + 1 ≠ u := by decide
  have hnext : nextHop (s.hosts (u + 1)).sortedNeighbors.live (s.addr u) =
      some (localEntry (u + 1 + 1)) := by
    rw [h.same.neighbors, h.same.addr]
    exact ringNet_nextHop (u + 1) u (hturn u)
  obtain ⟨s', p', hstep, hflight', -, ha', htab⟩ := Net.asking_passed hsound ha hflight
    (.of_empty hempty _) sendingOs (fun _ => rfl) (hempty fileHash) hnext
    (h.same.addr (u + 1 + 1)).symm
  have hsame' := (Net.step_flight hstep).1
  have hkey : s.hashKey (u + 1) = fileHash := congrFun h.same.hashKey (u + 1)
  rw [hkey] at ha'
  refine ⟨s', hstep, ⟨h.same.trans hsame', fun j => (htab j).trans (h.tables j),
    p', hflight', ha'.of_same hsame'⟩, ?_⟩
  intro j
  rw [← h.same.addr]
  exact Net.passed_calls hsound.tables ha hflight (hempty fileHash) hnext hstep j

theorem Circling.round {s : Net 3} (h : Circling s 0) :
    ∃ events s', (∀ e ∈ events, Net.Once 0 e) ∧ run Net.step s events = some s' ∧
      Circling s' 0 ∧ searchCalls (ringNet.net.addr 0) (s'.hosts 1).sends =
        searchCalls (ringNet.net.addr 0) (s.hosts 1).sends + 1 := by
  obtain ⟨s₁, hstep₁, h₁, hcalls₁⟩ := h.step
  obtain ⟨s₂, hstep₂, h₂, hcalls₂⟩ := h₁.step
  obtain ⟨s₃, hstep₃, h₃, hcalls₃⟩ := h₂.step
  have hrun : run Net.step s [.deliver 0 1 false sendingOs, .deliver 0 2 false sendingOs,
      .deliver 0 0 false sendingOs] = some s₃ :=
    run_cons.mpr ⟨s₁, hstep₁, run_cons.mpr ⟨s₂, hstep₂, run_cons.mpr ⟨s₃, hstep₃, rfl⟩⟩⟩
  refine ⟨_, s₃, by simp [Net.Once], hrun, h₃, ?_⟩
  rw [hcalls₃, hcalls₂, hcalls₁]
  rfl

theorem Circling.rounds {s : Net 3} (h : Circling s 0) (k : Nat) :
    ∃ events s', (∀ e ∈ events, Net.Once 0 e) ∧ run Net.step s events = some s' ∧
      Circling s' 0 ∧ k ≤ searchCalls (ringNet.net.addr 0) (s'.hosts 1).sends := by
  induction k with
  | zero => exact ⟨[], s, by simp, rfl, h, Nat.zero_le _⟩
  | succ k ih =>
    obtain ⟨events, s', hevents, hrun, h', hk⟩ := ih
    obtain ⟨events', s'', hevents', hrun', h'', hcalls⟩ := h'.round
    refine ⟨events ++ events', s'', ?_, run_append.mpr ⟨s', hrun, hrun'⟩, h'', by omega⟩
    intro e he
    rcases List.mem_append.mp he with he | he
    · exact hevents e he
    · exact hevents' e he

/-- In a ring of three, one search makes a process call as often as one likes. -/
theorem search_circles : ∃ s₁, ringNet.net.step (.search 0 fileHash sendingOs) = some s₁ ∧
    ∀ k, ∃ events s, (∀ e ∈ events, Net.Once 0 e) ∧ run Net.step s₁ events = some s ∧
      k ≤ searchCalls (ringNet.net.addr 0) (s.hosts 1).sends := by
  have hhash : Terminated fileHash.mem := by decide
  obtain ⟨s₁, p, hstep, hflight, -, ha, htab⟩ := Net.asking_starts ringNet_sound sendingOs
    (fun _ => rfl) hhash (ringNet_nextHop 0 0 (by decide)) (ringNet.entry_addr 1)
  have hsame := (Net.step_flight hstep).1
  have hcircling : Circling s₁ 0 := ⟨hsame, htab, p, hflight, ha.of_same hsame⟩
  refine ⟨s₁, hstep, ?_⟩
  intro k
  obtain ⟨events, s, hevents, hrun, -, hk⟩ := hcircling.rounds k
  exact ⟨events, s, hevents, hrun, hk⟩

end PeerToPeer
