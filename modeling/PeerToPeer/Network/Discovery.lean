import PeerToPeer.Network.Survival
import Mathlib.Logic.Relation

namespace PeerToPeer

open CLib Transition

namespace Net

variable {n : Nat}

/-- Every datagram is delivered once, and the socket takes all that is sent: only what is
addressed to no process gets lost. -/
def Delivery (s : Net n) : NetEvent n → Prop
  | .deliver _ _ dup os => dup = false ∧ ∀ k, os.sendto k = true
  | .lose k => ∀ p, s.flight[k]? = some p → ∀ j, p.dest.addr ≠ s.addr j
  | _ => False

/-- Along neighbour links the initiator reaches a process with peers for `hash`. -/
def HolderReachable (s : Net n) (i : Fin n) (hash : Bytes idSize) : Prop :=
  ∃ v, Relation.ReflTransGen s.Knows i v ∧ s.held v hash ≠ 0 ∧ s.held v hash ≤ maxPeerBuckets

/-- What reaches a process next does not end it. -/
def Survives (s : Net n) : Prop :=
  ∀ k p j os, s.flight[k]? = some p → p.dest.addr = s.addr j → (∀ k, os.sendto k = true) →
    ∃ s', s.step (.deliver k j false os) = some s'

/-- Whatever the order of deliveries: as long as the initiator has no peers, something is in flight,
and no process is ended by a write outside a buffer or an exit. So once nothing is in flight the
initiator has peers. -/
def Finds (s₀ : Net n) (i : Fin n) (hash : Bytes idSize) : Prop :=
  ∀ os, (∀ k, os.sendto k = true) → ∃ s₁, s₀.step (.search i hash os) = some s₁ ∧
    ∀ events s, AllSteps step (fun t e _ => Delivery t e) s₁ events →
      run step s₁ events = some s → s.held i hash = 0 → s.flight ≠ [] ∧ s.Survives

/-- In a search of process `i` for `hash`, `u` calls `v`. -/
inductive Arrives (s : Net n) (i : Fin n) (hash : Bytes idSize) : Fin n → Fin n → Prop where
  | start {v : Fin n} {next : NodeEntry}
      (hn : nextHop (s.hosts i).sortedNeighbors.live (s.addr i) = some next)
      (hv : next.addr = s.addr v) : Arrives s i hash i v
  | pass {u v w : Fin n} {next : NodeEntry} (h : Arrives s i hash u v)
      (hempty : s.held v hash = 0)
      (hn : nextHop (s.hosts v).sortedNeighbors.live (s.addr u) = some next)
      (hw : next.addr = s.addr w) : Arrives s i hash v w

/-- `v` holds no peers for `hash` and has no neighbour but `u`. -/
def DeadEnd (s : Net n) (hash : Bytes idSize) (u v : Fin n) : Prop :=
  s.held v hash = 0 ∧ nextHop (s.hosts v).sortedNeighbors.live (s.addr u) = none

/-- `v`, called by `u`, is no dead end, and lists no more peers than the initiator has room for. -/
structure Helpful (s : Net n) (hash : Bytes idSize) (u v : Fin n) : Prop where
  alive : ¬ DeadEnd s hash u v
  fits : s.held v hash ≤ maxPeerBuckets

/-- How far a search of process `i` has come. -/
inductive Phase (s₀ s : Net n) (i : Fin n) (hash : Bytes idSize) : Prop where
  | asking (u v : Fin n) (p : Packet n) (ha : Arrives s₀ i hash u v) (hflight : s.flight = [p])
      (hask : Asking s i u v hash p) (htab : ∀ j, (s.hosts j).table = (s₀.hosts j).table)
  | answered (p : Packet n) (hflight : s.flight = [p]) (hdest : p.dest.addr = s.addr i)
      (hr : IsReply (decodeHeader p.msg) .getPeers) (hs : ReplyOk (decodeHeader p.msg))
      (hc : replyCount (decodeHeader p.msg).body ≠ 0) (hread : Readable p.msg)
      (htab : ∀ j, (s.hosts j).table = (s₀.hosts j).table)
  | found (hheld : s.held i hash ≠ 0)

theorem flight_single {s : Net n} {p q : Packet n} {k : Nat} (hflight : s.flight = [p])
    (hk : s.flight[k]? = some q) : k = 0 ∧ q = p := by
  rw [hflight] at hk
  cases k with
  | zero => exact ⟨rfl, (Option.some.inj hk).symm⟩
  | succ k => simp at hk

/-- Without datagrams that go nowhere, the one datagram in flight is delivered. -/
theorem delivery_single {s s' : Net n} {p : Packet n} {v : Fin n} {e : NetEvent n}
    (hs : s.Linked) (hflight : s.flight = [p]) (hd : p.dest.addr = s.addr v)
    (hq : Delivery s e) (h : s.step e = some s') :
    ∃ os, e = .deliver 0 v false os ∧ ∀ k, os.sendto k = true := by
  cases e with
  | search _ _ _ => exact absurd hq id
  | timeout _ _ => exact absurd hq id
  | join _ _ _ => exact absurd hq id
  | lose k =>
    obtain ⟨hk, -⟩ := step_lose.mp h
    have hget := List.getElem?_eq_getElem hk
    exact absurd hd ((flight_single hflight hget).2 ▸ hq _ hget v)
  | deliver k j dup os =>
    obtain ⟨rfl, hos⟩ := hq
    obtain ⟨q, hk, hj, -⟩ := step_deliver.mp h
    obtain ⟨rfl, rfl⟩ := flight_single hflight hk
    obtain rfl := hs.distinct j v (hj.symm.trans hd)
    exact ⟨os, rfl, hos⟩

/-- The one datagram in flight is handled by the process it reaches. -/
theorem survives_single {s : Net n} {p : Packet n} {v : Fin n} (hs : s.Linked)
    (hflight : s.flight = [p]) (hd : p.dest.addr = s.addr v)
    (h : ∀ os, (∀ k, os.sendto k = true) → ∃ s', s.step (.deliver 0 v false os) = some s') :
    s.Survives := by
  intro k q j os hk hj hos
  obtain ⟨rfl, rfl⟩ := flight_single hflight hk
  obtain rfl := hs.distinct j v (hj.symm.trans hd)
  exact h os hos

/-- The call gets one process further, where there is no dead end. -/
theorem Arrives.passed {s₀ s : Net n} (hs : s₀.Sound) {i u v : Fin n} {hash : Bytes idSize}
    (hkey : ∀ j, s₀.hashKey j = hash) (hsame : SameHosts s₀ s)
    (htab : ∀ j, (s.hosts j).table = (s₀.hosts j).table) (ha : Arrives s₀ i hash u v)
    {p : Packet n} (hflight : s.flight = [p]) (hask : Asking s i u v hash p)
    (hl : s₀.held v hash = 0) {next : NodeEntry}
    (hn : nextHop (s₀.hosts v).sortedNeighbors.live (s₀.addr u) = some next) {w : Fin n}
    (hw : next.addr = s₀.addr w) (os : Os) (hos : ∀ k, os.sendto k = true) :
    ∃ s' p', s.step (.deliver 0 v false os) = some s' ∧ Arrives s₀ i hash v w ∧
      s'.flight = [p'] ∧ Asking s' i v w hash p' ∧
      ∀ j, (s'.hosts j).table = (s₀.hosts j).table := by
  have hkey' : s.hashKey v = hash := (congrFun hsame.hashKey v).trans (hkey v)
  have hl' : s.held v hash = 0 := (held_congr (htab v) hash).trans hl
  have hn' : nextHop (s.hosts v).sortedNeighbors.live (s.addr u) = some next := by
    rw [hsame.neighbors, hsame.addr]
    exact hn
  obtain ⟨s', p', hstep, hflight', -, hask', htab'⟩ := asking_passed (hs.of_same hsame htab) hask
    hflight (.of_held hkey' hl') os hos hl' hn' (hw.trans (hsame.addr w).symm)
  rw [hkey'] at hask'
  exact ⟨s', p', hstep, ha.pass hl hn hw, hflight', hask'.of_same (step_flight hstep).1,
    fun j => (htab' j).trans (htab j)⟩

/-- One delivery: the call goes on or is answered, and the answer fills the bucket. -/
theorem Phase.step {s₀ s s' : Net n} {i : Fin n} {hash : Bytes idSize} {e : NetEvent n}
    (hs : s₀.Sound) (hkey : ∀ j, s₀.hashKey j = hash)
    (hall : ∀ u v, Arrives s₀ i hash u v → Helpful s₀ hash u v) (hsame : SameHosts s₀ s)
    (htab : s.Tables) (hphase : Phase s₀ s i hash) (hq : Delivery s e) (h : s.step e = some s') :
    Phase s₀ s' i hash := by
  have hlinked : s.Linked := hs.linked.of_same hsame
  have hsame' := (step_flight h).1
  cases hphase with
  | asking u v p ha hflight hask htables =>
    obtain ⟨os, rfl, hos⟩ := delivery_single hlinked hflight hask.dest hq h
    by_cases hl : s₀.held v hash = 0
    · cases hn : nextHop (s₀.hosts v).sortedNeighbors.live (s₀.addr u) with
      | none => exact absurd ⟨hl, hn⟩ (hall u v ha).alive
      | some next =>
        obtain ⟨w, -, hw⟩ := hs.link hn
        obtain ⟨s'', p', hstep, ha', hflight', hask', htables'⟩ := ha.passed hs hkey hsame htables
          hflight hask hl hn hw os hos
        obtain rfl := Option.some.inj (hstep.symm.trans h)
        exact .asking v w p' ha' hflight' hask' htables'
    · have hheld : s.held v hash ≠ 0 := by rwa [held_congr (htables v)]
      obtain ⟨hflight', -, htables'⟩ := asking_answered htab hask hflight (fun hc => hheld hc.1)
        hos h
      have hfits : s.held v hash ≤ maxPeerBuckets :=
        (held_congr (htables v) hash).trans_le (hall u v ha).fits
      have hasked : askedHash p.msg = hash := hask.hash
      have hcount : replyCount (decodeHeader (s.answer v p).msg).body ≠ 0 := by
        rw [answer_count, hasked]
        rw [maxPeerBuckets] at hfits
        omega
      have hread : Readable (s.answer v p).msg := by
        have hstrings : MachineStrings (s.hosts v) := (hs.of_same hsame htables).strings v
        refine readable_answer hask.strings.id ?_ (hstrings.peers _)
        rw [homePeers_length, hasked]
        exact hfits
      exact .answered _ hflight' (hask.source.trans (hsame'.addr i).symm) (answer_isReply s v p)
        (answer_replyOk s v p) hcount hread fun j => (htables' j).trans (htables j)
  | answered p hflight hdest hr hok hc =>
    obtain ⟨os, rfl, -⟩ := delivery_single hlinked hflight hdest hq h
    have hp : s.flight[0]? = some p := flight_head hflight
    have hfound := answer_found htab hp hr hok hc h
    rw [hsame.hashKey, hkey] at hfound
    exact .found hfound
  | found hheld =>
    have hgrown : s.held i hash ≤ s'.held i hash := step_held htab h i hash
    exact .found (by omega)

/-- Until the initiator has peers, the search is under way and ends no process. -/
theorem Phase.survives {s₀ s : Net n} {i : Fin n} {hash : Bytes idSize} (hs : s₀.Sound)
    (hkey : ∀ j, s₀.hashKey j = hash)
    (hall : ∀ u v, Arrives s₀ i hash u v → Helpful s₀ hash u v) (hsame : SameHosts s₀ s)
    (hphase : Phase s₀ s i hash) (hempty : s.held i hash = 0) : s.flight ≠ [] ∧ s.Survives := by
  have hkey' (j : Fin n) : s.hashKey j = hash := (congrFun hsame.hashKey j).trans (hkey j)
  cases hphase with
  | asking u v p ha hflight hask htab =>
    have hs' : s.Sound := hs.of_same hsame htab
    have hfits : s.held v hash ≤ 25 :=
      (held_congr (htab v) hash).trans_le ((hall u v ha).fits.trans (by decide))
    have hroom : s.Room v hash := ⟨hfits, (hkey' v).symm ▸ hfits⟩
    refine ⟨by simp [hflight], survives_single hs'.linked hflight hask.dest ?_⟩
    intro os _
    obtain ⟨s', hstep, -⟩ := search_delivered hs' os (flight_head hflight) hask.dest hask.strings
      hask.call (hask.fit hroom)
    exact ⟨s', hstep⟩
  | answered p hflight hdest hr hok hc hread htab =>
    have hs' : s.Sound := hs.of_same hsame htab
    have hown : s.held i (s.hashKey i) ≤ 25 := by
      rw [hkey', hempty]
      exact Nat.zero_le _
    refine ⟨by simp [hflight], survives_single hs'.linked hflight hdest ?_⟩
    intro os _
    exact hs'.deliver false os (flight_head hflight) hdest hread.strings hread.count
      ⟨fun hcall => absurd hr hcall.not_reply, hown⟩
  | found hheld => exact absurd hempty hheld

/-- A process from which another one can be reached has a neighbour to call first. -/
theorem Linked.nextHop_self {s : Net n} (hs : s.Linked) {i v : Fin n} (h : s.Knows i v) :
    ∃ next, nextHop (s.hosts i).sortedNeighbors.live (s.addr i) = some next := by
  obtain ⟨e, he, -⟩ := h
  obtain ⟨j, hj, ha⟩ := hs.neighbors i e he
  have hne : e.addr ≠ s.addr i := fun hi => hj (hs.distinct j i (ha.symm.trans hi))
  rw [← Option.isSome_iff_exists, nextHop, List.find?_isSome]
  exact ⟨e, he, by simpa using hne⟩

theorem HolderReachable.nextHop {s : Net n} (hs : s.Linked) {i : Fin n} {hash : Bytes idSize}
    (h : s.HolderReachable i hash) (hempty : s.held i hash = 0) :
    ∃ next, nextHop (s.hosts i).sortedNeighbors.live (s.addr i) = some next := by
  obtain ⟨v, hreach, hheld, -⟩ := h
  rcases Relation.ReflTransGen.cases_head hreach with rfl | ⟨w, hw, -⟩
  · exact absurd hempty hheld
  · exact hs.nextHop_self hw

/-- Where the call meets only helpful processes, it finds peers. -/
theorem finds_of_helpful {s₀ : Net n} {i : Fin n} {hash : Bytes idSize} (hs : s₀.Sound)
    (hkey : ∀ j, s₀.hashKey j = hash) (hflight : s₀.flight = []) {first : NodeEntry}
    (hfirst : nextHop (s₀.hosts i).sortedNeighbors.live (s₀.addr i) = some first)
    (hall : ∀ u v, Arrives s₀ i hash u v → Helpful s₀ hash u v) : s₀.Finds i hash := by
  intro os hos
  obtain ⟨v, -, hv⟩ := hs.link hfirst
  obtain ⟨s₁, p, hstart, hflight', -, hask, htab⟩ := asking_starts hs os hos (hkey i ▸ hs.keys i)
    hfirst hv
  refine ⟨s₁, hstart, ?_⟩
  intro events s hevents hrun hempty
  let Inv (t : Net n) : Prop := SameHosts s₀ t ∧ t.Tables ∧ Phase s₀ t i hash
  have hinit : Inv s₁ := by
    have hsame := (step_flight hstart).1
    rw [hflight] at hflight'
    exact ⟨hsame, fun j => htab j ▸ hs.tables j,
      .asking i v p (.start hfirst hv) hflight' (hask.of_same hsame) htab⟩
  have hstep : ∀ t e t', Inv t → Delivery t e → step t e = some t' → Inv t' := by
    rintro t e t' ⟨hsame, htab, hphase⟩ hq h
    exact ⟨hsame.trans (step_flight h).1, fun j => (step_appended htab h j).1,
      hphase.step hs hkey hall hsame htab hq h⟩
  obtain ⟨hsame, -, hphase⟩ := run_invariant (Q := fun t e _ => Delivery t e) Inv hstep hinit
    hevents hrun
  exact hphase.survives hs hkey hall hsame hempty

/-- The deliveries that bring the call to where it arrives. -/
theorem Arrives.reached {s₀ : Net n} {i u v : Fin n} {hash : Bytes idSize} (hs : s₀.Sound)
    (hkey : ∀ j, s₀.hashKey j = hash) (hflight : s₀.flight = []) (os : Os)
    (hos : ∀ k, os.sendto k = true) (ha : Arrives s₀ i hash u v) :
    ∃ s₁ events s p, s₀.step (.search i hash os) = some s₁ ∧
      AllSteps step (fun t e _ => Delivery t e) s₁ events ∧ run step s₁ events = some s ∧
      s.flight = [p] ∧ Asking s i u v hash p ∧ SameHosts s₀ s ∧
      ∀ j, (s.hosts j).table = (s₀.hosts j).table := by
  induction ha with
  | start hn hv =>
    obtain ⟨s₁, p, hstep, hflight', -, hask, htab⟩ := asking_starts hs os hos (hkey i ▸ hs.keys i)
      hn hv
    have hsame := (step_flight hstep).1
    rw [hflight] at hflight'
    exact ⟨s₁, [], s₁, p, hstep, trivial, rfl, hflight', hask.of_same hsame, hsame, htab⟩
  | @pass u v w next ha hl hn hw ih =>
    obtain ⟨s₁, events, s, p, hstart, hevents, hrun, hflight', hask, hsame, htab⟩ := ih
    obtain ⟨s', p', hstep, -, hflight'', hask', htab'⟩ := ha.passed hs hkey hsame htab hflight'
      hask hl hn hw os hos
    refine ⟨s₁, events ++ [.deliver 0 v false os], s', p', hstart, ?_,
      run_append.mpr ⟨s, hrun, run_cons.mpr ⟨s', hstep, rfl⟩⟩, hflight'', hask',
      hsame.trans (step_flight hstep).1, htab'⟩
    exact allSteps_append hevents fun t _ t' _ => ⟨⟨rfl, hos⟩, trivial⟩

/-- At a dead end the search is over. -/
theorem deadEnd_ends {s : Net n} (hs : s.Sound) {i u v : Fin n} {hash : Bytes idSize}
    (hkey : ∀ j, s.hashKey j = hash) {p : Packet n} (hflight : s.flight = [p])
    (hask : Asking s i u v hash p) (hdead : DeadEnd s hash u v) (hi : s.held i hash = 0) (os : Os)
    (hos : ∀ k, os.sendto k = true) :
    ∃ events s', AllSteps step (fun t e _ => Delivery t e) s events ∧
      run step s events = some s' ∧ s'.flight = [] ∧ s'.held i hash = 0 := by
  obtain ⟨hl, hn⟩ := hdead
  have hk : s.flight[0]? = some p := flight_head hflight
  obtain ⟨s', hstep, hflight', htab⟩ := search_delivered hs os hk hask.dest hask.strings hask.call
    (hask.fit (.of_held (hkey v) hl))
  have hi' : s'.held i hash = 0 := (held_congr (htab i) hash).trans hi
  have hdelivery : Delivery s (.deliver 0 v false os) := ⟨rfl, hos⟩
  by_cases h0 : 0 < (s.hosts v).sortedNeighbors.len
  · have hstuck : searchOut os (s.hashKey v) p.msg (s.hosts v) = [] := by
      apply searchOut_stuck
      · rw [askedHash, hask.hash]
        exact hl
      · exact h0
      · rw [hask.caller]
        exact hn
    rw [hstuck, hflight] at hflight'
    exact ⟨[.deliver 0 v false os], s', fun _ _ => ⟨hdelivery, trivial⟩,
      run_cons.mpr ⟨s', hstep, rfl⟩, hflight', hi'⟩
  · have hanswer := (asking_answered hs.tables hask hflight (fun hc => h0 hc.2) hos hstep).1
    obtain ⟨s'', hstep', hflight'', hi''⟩ := emptyAnswer_dropped hs hask hl
      (by rw [hkey i, hi]; exact Nat.zero_le _) (step_flight hstep).1 htab hanswer os
    refine ⟨[.deliver 0 v false os, .deliver 0 i false os], s'', fun t _ => ⟨hdelivery, ?_⟩,
      run_cons.mpr ⟨s', hstep, run_cons.mpr ⟨s'', hstep', rfl⟩⟩, hflight'', hi''.trans hi'⟩
    exact fun _ _ => ⟨⟨rfl, hos⟩, trivial⟩

/-- Where the call arrives when it starts from the search of a run that finds peers: the call is
the one datagram in flight, and whatever comes next keeps the promise of `Finds`. -/
theorem Finds.arrives {s₀ : Net n} {i u v : Fin n} {hash : Bytes idSize} (hs : s₀.Sound)
    (hkey : ∀ j, s₀.hashKey j = hash) (hflight : s₀.flight = []) (hfinds : s₀.Finds i hash)
    (ha : Arrives s₀ i hash u v) :
    ∃ s p, s.flight = [p] ∧ Asking s i u v hash p ∧ SameHosts s₀ s ∧
      (∀ j, (s.hosts j).table = (s₀.hosts j).table) ∧
      ∀ events t, AllSteps step (fun t e _ => Delivery t e) s events → run step s events = some t →
        t.held i hash = 0 → t.flight ≠ [] ∧ t.Survives := by
  have hos : ∀ k, sendingOs.sendto k = true := fun _ => rfl
  obtain ⟨s₁, events, s, p, hstart, hevents, hrun, hflight', hask, hsame, htab⟩ :=
    ha.reached hs hkey hflight sendingOs hos
  obtain ⟨s₁', hstart', hpromise⟩ := hfinds sendingOs hos
  obtain rfl := Option.some.inj (hstart.symm.trans hstart')
  refine ⟨s, p, hflight', hask, hsame, htab, ?_⟩
  intro events' t hevents' hrun'
  refine hpromise (events ++ events') t ?_ (run_append.mpr ⟨s, hrun, hrun'⟩)
  refine allSteps_append hevents ?_
  intro t' ht'
  obtain rfl := Option.some.inj (hrun.symm.trans ht')
  exact hevents'

/-- A dead end that the call arrives at makes the search fail. -/
theorem not_finds_of_deadEnd {s₀ : Net n} {i u v : Fin n} {hash : Bytes idSize} (hs : s₀.Sound)
    (hkey : ∀ j, s₀.hashKey j = hash) (hflight : s₀.flight = []) (hempty : s₀.held i hash = 0)
    (ha : Arrives s₀ i hash u v) (hdead : DeadEnd s₀ hash u v) : ¬ s₀.Finds i hash := by
  intro hfinds
  obtain ⟨s, p, hflight', hask, hsame, htab, hpromise⟩ := hfinds.arrives hs hkey hflight ha
  have hkey' : ∀ j, s.hashKey j = hash := fun j => (congrFun hsame.hashKey j).trans (hkey j)
  have hdead' : DeadEnd s hash u v := by
    refine ⟨(held_congr (htab v) hash).trans hdead.1, ?_⟩
    rw [hsame.neighbors, hsame.addr]
    exact hdead.2
  obtain ⟨events, t, hevents, hrun, hend, hheld⟩ := deadEnd_ends (hs.of_same hsame htab) hkey'
    hflight' hask hdead' ((held_congr (htab i) hash).trans hempty) sendingOs (fun _ => rfl)
  exact (hpromise events t hevents hrun hheld).1 hend

/-- A list that is too long for the initiator ends it, or the process that lists it. -/
theorem not_finds_of_long {s₀ : Net n} {i u v : Fin n} {hash : Bytes idSize} (hs : s₀.Sound)
    (hkey : ∀ j, s₀.hashKey j = hash) (hflight : s₀.flight = []) (hempty : s₀.held i hash = 0)
    (ha : Arrives s₀ i hash u v) (hlong : maxPeerBuckets < s₀.held v hash) :
    ¬ s₀.Finds i hash := by
  intro hfinds
  rw [maxPeerBuckets] at hlong
  have hos : ∀ k, sendingOs.sendto k = true := fun _ => rfl
  obtain ⟨s, p, hflight', hask, hsame, htab, hpromise⟩ := hfinds.arrives hs hkey hflight ha
  have hs' : s.Sound := hs.of_same hsame htab
  have hheld : s.held v hash = s₀.held v hash := held_congr (htab v) hash
  have hempty' : s.held i hash = 0 := (held_congr (htab i) hash).trans hempty
  -- the call is survived, so the list fits the answer
  obtain ⟨t, hstep⟩ := (hpromise [] s trivial rfl hempty').2 0 p v sendingOs (flight_head hflight')
    hask.dest hos
  obtain ⟨hanswer, hfits, htab'⟩ := asking_answered hs'.tables hask hflight' (fun hc => by omega)
    hos hstep
  -- the answer is survived, so the list fits the initiator
  have hdelivery : Delivery s (.deliver 0 v false sendingOs) := ⟨rfl, hos⟩
  have hdest : (s.answer v p).dest.addr = t.addr i :=
    hask.source.trans ((step_flight hstep).1.addr i).symm
  obtain ⟨t', hstep'⟩ := (hpromise [.deliver 0 v false sendingOs] t
    (fun _ _ => ⟨hdelivery, trivial⟩) (run_cons.mpr ⟨t, hstep, rfl⟩)
    ((held_congr (htab' i) hash).trans hempty')).2 0 (s.answer v p) i sendingOs
      (flight_head hanswer) hdest hos
  obtain ⟨q, hq, -, r, m, hm, -⟩ := step_deliver.mp hstep'
  obtain rfl : s.answer v p = q := by simpa [hanswer] using hq
  have hcount := (recvRpc_handled hm).2.count_le (answer_isReply s v p) (answer_replyOk s v p)
  have hasked : askedHash p.msg = hash := hask.hash
  rw [answer_count, hasked, maxPeerBuckets] at hcount
  omega

/-- With one file hash everywhere and peers within reach, a search finds peers exactly when the one
call it consists of never arrives at a process that holds none and knows only its caller, or at one
that holds more than the initiator has room for. -/
theorem finds_iff (s₀ : Net n) (i : Fin n) (hash : Bytes idSize) (hs : s₀.Sound)
    (hkey : ∀ j, s₀.hashKey j = hash) (hflight : s₀.flight = []) (hempty : s₀.held i hash = 0)
    (hholder : s₀.HolderReachable i hash) :
    s₀.Finds i hash ↔ ∀ u v, Arrives s₀ i hash u v → Helpful s₀ hash u v := by
  constructor
  · intro hfinds u v ha
    constructor
    · exact fun hdead => not_finds_of_deadEnd hs hkey hflight hempty ha hdead hfinds
    · by_contra hlong
      exact not_finds_of_long hs hkey hflight hempty ha (not_le.mp hlong) hfinds
  · intro hall
    obtain ⟨first, hfirst⟩ := hholder.nextHop hs.linked hempty
    exact finds_of_helpful hs hkey hflight hfirst hall

end Net

/-- A table that holds one peer, under the hash of the file. -/
def holderTable : PeerTable :=
  match setPeer emptyTable fileHash.mem somePeer with
  | .ok t => t
  | .error _ => emptyTable

theorem holderTable_appended :
    TableInv holderTable ∧ Appended emptyTable holderTable (homeOf fileHash.str) [somePeer] := by
  have hhash : Terminated fileHash.mem := by decide
  obtain ⟨t, ht⟩ := setPeer_total initPeerTable_inv hhash somePeer (by
    rw [initPeerTable_len]
    exact Nat.zero_le _)
  have htable : holderTable = t := by
    rw [holderTable, emptyTable, ht]
  rw [htable]
  exact (setPeer_ok initPeerTable_inv ht).2

theorem holderTable_strings (b : Fin maxPeerBuckets) :
    ∀ p ∈ holderTable[b].peers, Terminated p.ip.mem := by
  intro p hp
  by_cases hb : b = homeOf fileHash.str
  · subst hb
    have hnil : emptyTable[homeOf fileHash.str].peers = [] := initPeerTable_peers _ _
    rw [holderTable_appended.2.home, hnil] at hp
    obtain rfl : p = somePeer := by simpa using hp
    decide
  · rw [holderTable_appended.2.other b hb] at hp
    exact emptyTable_strings b p hp

theorem holderTable_len : homeLen holderTable fileHash = 1 := by
  have hnil : emptyTable[homeOf fileHash.str].peers = [] := initPeerTable_peers _ _
  have hhome : homePeers holderTable fileHash = [somePeer] := by
    rw [homePeers, holderTable_appended.2.home, hnil, List.nil_append]
  rw [← homePeers_length, hhome, List.length_singleton]

/-- Process 0 knows `a` and `b`, who know nobody; process 2 holds a peer. -/
def forkNet (a b : Fin 3) (h : 0 ∉ [a, b]) : LocalNet 3 where
  small := three_small
  links := fun i => if i = 0 then [a, b] else []
  short := by
    intro i
    split_ifs
    · exact le_rfl
    · exact Nat.zero_le _
  others := by
    intro i
    split_ifs with hi
    · exact hi ▸ h
    · exact List.not_mem_nil
  tables := fun i => if i = 2 then holderTable else emptyTable
  hashKey := fun _ => fileHash

section Fork

variable {a b : Fin 3} (h : 0 ∉ [a, b])

theorem forkNet_sound : (forkNet a b h).net.Sound := by
  refine (forkNet a b h).sound ?_ ?_ ?_
  · intro i
    show TableInv (if i = 2 then holderTable else emptyTable)
    split_ifs
    · exact holderTable_appended.1
    · exact initPeerTable_inv
  · intro i
    show ∀ c : Fin maxPeerBuckets, ∀ p ∈ (if i = 2 then holderTable else emptyTable)[c].peers,
      Terminated p.ip.mem
    split_ifs
    · exact holderTable_strings
    · exact emptyTable_strings
  · intro i
    show Terminated fileHash.mem
    decide

theorem forkNet_held (i : Fin 3) :
    (forkNet a b h).net.held i fileHash = if i = 2 then 1 else 0 := by
  show homeLen (if i = 2 then holderTable else emptyTable) fileHash = _
  split_ifs
  · exact holderTable_len
  · exact initPeerTable_len _ _

theorem forkNet_first :
    nextHop ((forkNet a b h).net.hosts 0).sortedNeighbors.live ((forkNet a b h).net.addr 0) =
      some (localEntry a) := by
  have ha : a ≠ 0 := fun e => h (e ▸ List.mem_cons_self)
  have hfind : ((forkNet a b h).links 0).find? (fun j => j ≠ 0) = some a := by
    show List.find? (fun j => j ≠ 0) [a, b] = some a
    rw [List.find?_cons_of_pos (by simpa using ha)]
  rw [show nextHop ((forkNet a b h).net.hosts 0).sortedNeighbors.live _ = _ from
    (forkNet a b h).host_nextHop 0 0, hfind]
  rfl

theorem forkNet_knows {v : Fin 3} (hv : v ∈ [a, b]) : (forkNet a b h).net.Knows 0 v := by
  refine ⟨localEntry v, ?_, (forkNet a b h).entry_addr v⟩
  rw [show ((forkNet a b h).net.hosts 0).sortedNeighbors.live = _ from
    (forkNet a b h).host_live 0]
  exact List.mem_map_of_mem hv

theorem forkNet_reachable (h2 : 2 ∈ [a, b]) :
    (forkNet a b h).net.HolderReachable 0 fileHash := by
  refine ⟨2, .single (forkNet_knows h h2), ?_, ?_⟩
  · rw [forkNet_held]
    decide
  · rw [forkNet_held]
    decide

end Fork

theorem fork_others : (0 : Fin 3) ∉ [2, 1] := by decide

/-- The holder is the first neighbour. -/
theorem finds_fork : (forkNet 2 1 fork_others).net.Finds 0 fileHash := by
  have h : (0 : Fin 3) ∉ [2, 1] := fork_others
  have honly : ∀ u v, Net.Arrives (forkNet 2 1 h).net 0 fileHash u v → v = 2 := by
    intro u v ha
    induction ha with
    | start hn hv =>
      obtain rfl := Option.some.inj ((forkNet_first h).symm.trans hn)
      exact ((forkNet 2 1 h).addr_inj (((forkNet 2 1 h).entry_addr 2).symm.trans hv)).symm
    | pass _ hl _ _ ih =>
      subst ih
      rw [forkNet_held] at hl
      cases hl
  refine (Net.finds_iff _ 0 fileHash (forkNet_sound h) (fun _ => rfl) rfl ?_
    (forkNet_reachable h (by decide))).mpr ?_
  · exact forkNet_held h 0
  · intro u v ha
    obtain rfl := honly u v ha
    constructor
    · intro hdead
      have hl := hdead.1
      rw [forkNet_held] at hl
      cases hl
    · rw [forkNet_held]
      decide

/-- The holder is the second neighbour: the search never gets there. -/
theorem holder_missed : ∃ h : (0 : Fin 3) ∉ [1, 2],
    (forkNet 1 2 h).net.Sound ∧ (∀ j, (forkNet 1 2 h).net.hashKey j = fileHash) ∧
      (forkNet 1 2 h).net.held 0 fileHash = 0 ∧
      (forkNet 1 2 h).net.HolderReachable 0 fileHash ∧ ¬ (forkNet 1 2 h).net.Finds 0 fileHash := by
  have h : (0 : Fin 3) ∉ [1, 2] := by decide
  have hheld (i : Fin 3) (hi : i ≠ 2) : (forkNet 1 2 h).net.held i fileHash = 0 := by
    rw [forkNet_held, if_neg hi]
  have hdead : Net.DeadEnd (forkNet 1 2 h).net fileHash 0 1 :=
    ⟨hheld 1 (by decide), (forkNet 1 2 h).host_nextHop 1 0⟩
  have harrives : Net.Arrives (forkNet 1 2 h).net 0 fileHash 0 1 :=
    .start (forkNet_first h) ((forkNet 1 2 h).entry_addr 1)
  refine ⟨h, forkNet_sound h, fun _ => rfl, hheld 0 (by decide), forkNet_reachable h (by decide),
    ?_⟩
  exact Net.not_finds_of_deadEnd (forkNet_sound h) (fun _ => rfl) rfl (hheld 0 (by decide))
    harrives hdead

end PeerToPeer
