import TsEthereum.Kademlia.Bans

/-!
# Evictions

A round of pings to its end (`_onKBucketPing`, `kademlia/kademlia.ts`). The counter
of the round is raised by the contacts that answer, and the last line of the
handler, which bans the peer there was no room for or offers it again, waits for it
to reach the number of contacts. So a contact that fails takes its place, but not
the peer that was to have it: that one is never offered again
(`not_offered`), and a round does what it is for exactly if all its contacts
answer (`evicts_iff`).
-/

namespace TsEthereum

namespace Kademlia

namespace Node

/-- What became of the ping of a contact. -/
abbrev Settlement : Type := PeerInfo × PingState

/-- **The pings of a round are settled**, in this order. -/
def settleRound (fuel round : ℕ) (node : Node) (settled : List Settlement) : Option Node :=
  settled.foldlM (fun node s => node.resumeRound fuel round s.1 s.2) node

/-- The last line of the handler is come to, after a failure. -/
def Offers (node : Node) (round : ℕ) (newPeer : PeerInfo) : PingState → Prop
  | .resolved _ => ∃ r, node.rounds[round]? = some r ∧ r.newPeer = newPeer ∧
    r.total ≤ r.count + 1 ∧ r.err = true
  | _ => False

/-- The peer of the round is offered to the table again, at some settlement. -/
def Offered (fuel round : ℕ) (node : Node) (newPeer : PeerInfo) (settled : List Settlement) :
    Prop :=
  ∃ pre s post node', settled = pre ++ s :: post ∧ node.settleRound fuel round pre = some node' ∧
    node'.Offers round newPeer s.2

/-- **What a round is for**: contacts that failed make room for the peer, and it is banned if
there are none. -/
structure Evicts (fuel round : ℕ) (node after : Node) (newPeer : PeerInfo)
    (settled : List Settlement) : Prop where
  failed : (∃ s ∈ settled, s.2 = .rejected) →
    (∀ s ∈ settled, s.2 = .rejected → s.1 ∉ after.table.getAll) ∧
      (newPeer ∈ after.table.getAll ∨ node.Offered fuel round newPeer settled)
  answered : (∀ s ∈ settled, s.2 ≠ .rejected) →
    after.isBanned (.info newPeer) = true ∧ ∀ s ∈ settled, s.1 ∈ after.table.getAll

/-! ## Settlements -/

variable {node : Node} {fuel round n : ℕ} {newPeer : PeerInfo} {settled : List Settlement}

/-- **The counter of a round with pings to come**: after a failure it does not get to the
number of contacts. -/
structure Counting (node : Node) (round : ℕ) (newPeer : PeerInfo) (n : ℕ) : Prop where
  ok : node.Ok
  bounded : ∃ r, node.rounds[round]? = some r ∧ r.newPeer = newPeer ∧ r.count + n ≤ r.total ∧
    (r.err = true → r.count + n < r.total)

theorem Counting.not_offers (h : node.Counting round newPeer (n + 1)) (state : PingState) :
    ¬ node.Offers round newPeer state := by
  obtain ⟨r, hr, -, -, herr⟩ := h.bounded
  cases state with
  | pending => exact id
  | rejected => exact id
  | resolved peer =>
    rintro ⟨r', hr', -, htotal, herr'⟩
    rw [hr] at hr'
    cases hr'
    have hlt := herr herr'
    omega

theorem Ok.getAll_failRound (h : node.Ok) (round : ℕ) (peer : PeerInfo) :
    ∀ p ∈ (node.failRound round peer).table.getAll, p ∈ node.table.getAll := by
  intro p hp
  rcases h.consistent.remove_cases (.info peer) with ⟨-, heq⟩ | ⟨contact, -, -, hperm, -⟩
  · rw [Node.failRound, Node.banPeer, Node.drop, Node.ban] at hp
    dsimp only at hp
    rwa [heq] at hp
  · exact hperm.mem_iff.2 (List.mem_cons_of_mem _ hp)

/-- **A contact answers**, where the handler does not come to an offer: the counter is raised,
and the last answer bans the peer of the round. -/
theorem resumeRound_resolved {r : PingRound} (hr : node.rounds[round]? = some r)
    (herr : r.total ≤ r.count + 1 → r.err = false) (peer answer : PeerInfo) :
    ∃ node', node.resumeRound fuel round peer (.resolved answer) = some node' ∧
      node'.rounds = node.rounds.set round { r with count := r.count + 1 } ∧
      node'.table = node.table ∧ node'.banlist =
        node.banlist ++ if r.count + 1 < r.total then [] else getPeerKeys r.newPeer := by
  simp only [Node.resumeRound, hr]
  by_cases hmore : r.count + 1 < r.total
  · rw [if_pos hmore, if_pos hmore]
    exact ⟨_, rfl, rfl, rfl, (List.append_nil _).symm⟩
  · rw [if_neg hmore, if_neg hmore, herr (Nat.not_lt.1 hmore)]
    exact ⟨_, rfl, rfl, rfl, rfl⟩

theorem Counting.settle (h : node.Counting round newPeer (n + 1)) (hfuel : 512 < fuel)
    (peer : PeerInfo) {state : PingState} (hstate : state ≠ .pending) :
    ∃ node', node.resumeRound fuel round peer state = some node' ∧
      node'.Counting round newPeer n ∧ ∀ p ∈ node'.table.getAll, p ∈ node.table.getAll := by
  obtain ⟨r, hr, hpeer, hcount, herr⟩ := h.bounded
  obtain ⟨next, hresume, hok, -⟩ := h.ok.resumeRound round peer state hfuel
  cases state with
  | pending => exact absurd rfl hstate
  | rejected =>
    cases hresume
    refine ⟨_, rfl, ⟨hok, { r with err := true }, ?_, hpeer, ?_, fun _ => ?_⟩,
      h.ok.getAll_failRound round peer⟩
    · rw [failRound, banPeer, drop, ban]
      simp only [List.getElem?_modify, hr, if_true]
      rfl
    · exact (Nat.add_le_add_left (Nat.le_succ n) _).trans hcount
    · exact hcount
  | resolved answer =>
    have hfalse : r.total ≤ r.count + 1 → r.err = false := by
      intro hlast
      by_contra he
      have := herr (Bool.eq_true_of_not_eq_false he)
      omega
    obtain ⟨node', hanswer, hrounds, htable, -⟩ :=
      resumeRound_resolved hr hfalse peer answer
    rw [hresume] at hanswer
    cases hanswer
    refine ⟨next, hresume, ⟨hok, { r with count := r.count + 1 }, ?_, hpeer, ?_, fun he => ?_⟩,
      fun p hp => htable ▸ hp⟩
    · rw [hrounds, List.getElem?_set_self (List.getElem?_eq_some_iff.1 hr).1]
    · simp only
      omega
    · have := herr he
      simp only
      omega

theorem settleRound_cons (node : Node) (s : Settlement) (settled : List Settlement) :
    node.settleRound fuel round (s :: settled) =
      (node.resumeRound fuel round s.1 s.2).bind fun node =>
        node.settleRound fuel round settled := by
  rw [settleRound, List.foldlM_cons]
  rfl

theorem Counting.exists_settleRound (h : node.Counting round newPeer settled.length)
    (hfuel : 512 < fuel) (hsettled : ∀ s ∈ settled, s.2 ≠ .pending) :
    ∃ after, node.settleRound fuel round settled = some after ∧
      ∀ p ∈ after.table.getAll, p ∈ node.table.getAll := by
  induction settled generalizing node with
  | nil => exact ⟨node, rfl, fun p hp => hp⟩
  | cons s settled ih =>
    obtain ⟨next, hresume, hnext, hkept⟩ := h.settle hfuel s.1 (hsettled s List.mem_cons_self)
    obtain ⟨after, hrun, hafter⟩ := ih hnext (List.forall_mem_cons.1 hsettled).2
    refine ⟨after, ?_, fun p hp => hkept p (hafter p hp)⟩
    rw [settleRound_cons, hresume]
    exact hrun

theorem Counting.not_offered (h : node.Counting round newPeer settled.length) (hfuel : 512 < fuel)
    (hsettled : ∀ s ∈ settled, s.2 ≠ .pending) : ¬ node.Offered fuel round newPeer settled := by
  rintro ⟨pre, s, post, node', rfl, hrun, hoffers⟩
  induction pre generalizing node with
  | nil =>
    cases hrun
    exact h.not_offers s.2 hoffers
  | cons t pre ih =>
    obtain ⟨next, hresume, hnext, -⟩ := h.settle hfuel t.1 (hsettled t List.mem_cons_self)
    refine ih hnext (List.forall_mem_cons.1 hsettled).2 ?_
    rwa [settleRound_cons, hresume] at hrun

theorem settleRound_of_answered {r : PingRound} (hr : node.rounds[round]? = some r)
    (herr : r.err = false) (htotal : r.count + settled.length = r.total) (hne : settled ≠ [])
    (hsettled : ∀ s ∈ settled, ∃ peer, s.2 = .resolved peer) :
    ∃ after, node.settleRound fuel round settled = some after ∧ after.table = node.table ∧
      after.banlist = node.banlist ++ getPeerKeys r.newPeer := by
  induction settled generalizing node r with
  | nil => exact absurd rfl hne
  | cons s settled ih =>
    obtain ⟨peer, hs⟩ := hsettled s List.mem_cons_self
    rw [List.length_cons] at htotal
    obtain ⟨next, hresume, hrounds, htable, hbanlist⟩ :=
      resumeRound_resolved hr (fun _ => herr) s.1 peer
    rw [settleRound_cons, hs, hresume, Option.bind_some]
    cases settled with
    | nil =>
      rw [List.length_nil] at htotal
      rw [if_neg (by omega)] at hbanlist
      exact ⟨next, rfl, htable, hbanlist⟩
    | cons t settled =>
      rw [List.length_cons] at htotal
      rw [if_pos (by omega), List.append_nil] at hbanlist
      have hnext : next.rounds[round]? = some { r with count := r.count + 1 } := by
        rw [hrounds, List.getElem?_set_self (List.getElem?_eq_some_iff.1 hr).1]
      obtain ⟨after, hrun, htable', hbanlist'⟩ := ih hnext herr
        (by simp only [List.length_cons]; omega) (List.cons_ne_nil _ _) (List.forall_mem_cons.1 hsettled).2
      exact ⟨after, hrun, htable'.trans htable, by rw [hbanlist', hbanlist]⟩

/-! ## Rounds -/

theorem rounds_foldl_await (peers : List PeerInfo) (waiter : PeerInfo → Waiter) (node : Node) :
    (peers.foldl (fun node peer => node.await peer (waiter peer)) node).rounds = node.rounds := by
  induction peers generalizing node with
  | nil => rfl
  | cons peer peers ih => exact ih (node.await peer (waiter peer))

theorem getElem?_rounds_onKBucketPing (oldPeers : List PeerInfo)
    (hban : node.isBanned (.info newPeer) = false) :
    (node.onKBucketPing oldPeers newPeer).rounds[node.rounds.length]? =
      some ⟨newPeer, oldPeers.length, 0, false⟩ := by
  rw [onKBucketPing, hban]
  simp only [Bool.false_eq_true, if_false, rounds_foldl_await]
  rw [List.getElem?_append_right le_rfl, Nat.sub_self]
  rfl

/-- **A round does what it is for exactly if there is a contact to ping and all of them
answer.** -/
theorem Ok.evicts_iff (hok : node.Ok) (hfuel : 512 < fuel) (hid : HasId newPeer)
    {table : RoutingTable} {oldPeers : List Contact} {contact : Contact}
    (hadd : node.table.add fuel newPeer = some (.ok (table, some (.ping oldPeers contact))))
    (hban : node.isBanned (.info newPeer) = false)
    (hperm : (settled.map Prod.fst).Perm (oldPeers.map Subtype.val))
    (hsettled : ∀ s ∈ settled, s.2 ≠ .pending) :
    let start := { node with table := table }.onKBucketPing (oldPeers.map Subtype.val) newPeer
    ∃ after, start.settleRound fuel node.rounds.length settled = some after ∧
      (Evicts fuel node.rounds.length start after newPeer settled ↔
        oldPeers ≠ [] ∧ ∀ s ∈ settled, s.2 ≠ .rejected) := by
  intro start
  obtain ⟨newContact, rfl, hlength⟩ := hid.exists_contact
  have hnew : node.table.isExists newContact.1 = false := by
    by_contra hexists
    rw [RoutingTable.add, if_pos (Bool.eq_true_of_not_eq_false hexists)] at hadd
    cases hadd
  obtain ⟨⟨table', event⟩, hadd', htable, hadded, hroot⟩ :=
    hok.consistent.exists_add hok.size hlength hnew (by omega : 8 * 64 < fuel)
  rw [hadd] at hadd'
  cases hadd'
  rcases hadded with ⟨hevent, -⟩ | ⟨hevent, hcontacts, -⟩
  · cases hevent
  dsimp only at hevent hcontacts hroot
  have hold : oldPeers = (table.kbucket.bucketOf newContact.id).items.take
      node.table.kbucket.numberOfNodesToPing := by
    cases hevent
    rfl
  have hcontacts' : table.getAll.Perm node.table.getAll := hcontacts.map Subtype.val
  -- the node the round begins in
  have hafter : Ok { node with table := table } :=
    ⟨htable, by rw [hroot]; exact hok.size, hok.pings, hok.rounds⟩
  obtain ⟨hstart, hsame⟩ := hafter.onKBucketPing (oldPeers.map Subtype.val) hid
  have hround : start.rounds[node.rounds.length]? =
      some ⟨newContact.1, oldPeers.length, 0, false⟩ := by
    rw [← @List.length_map _ _ oldPeers Subtype.val]
    exact getElem?_rounds_onKBucketPing (oldPeers.map Subtype.val) hban
  have htotal : settled.length = oldPeers.length := by
    simpa only [List.length_map] using hperm.length_eq
  have hcounting : start.Counting node.rounds.length newContact.1 settled.length := by
    refine ⟨hstart, _, hround, rfl, ?_, ?_⟩
    · simp only [Nat.zero_add, htotal, le_refl]
    · simp only [Bool.false_eq_true, false_implies]
  have hfresh : newContact.1 ∉ start.table.getAll := by
    intro hmem
    rw [hsame.1] at hmem
    obtain ⟨c, hc, heq⟩ := RoutingTable.exists_of_mem_getAll (hcontacts'.mem_iff.1 hmem)
    exact hok.consistent.id_ne hnew c hc (congrArg Contact.id (Subtype.ext heq))
  obtain ⟨after, hsettle, hkept⟩ := hcounting.exists_settleRound hfuel hsettled
  refine ⟨after, hsettle, ?_, ?_⟩
  · intro hevicts
    have hanswered : ∀ s ∈ settled, s.2 ≠ .rejected := by
      intro s hs hfailed
      rcases (hevicts.failed ⟨s, hs, hfailed⟩).2 with hmem | hoffered
      · exact hfresh (hkept _ hmem)
      · exact hcounting.not_offered hfuel hsettled hoffered
    refine ⟨?_, hanswered⟩
    rintro rfl
    -- there is nothing to wait for, and nothing is done
    obtain rfl := List.length_eq_zero_iff.1 htotal
    obtain rfl : start = after := Option.some.inj hsettle
    have hbanned := (hevicts.answered hanswered).1
    rw [isBanned, hsame.2] at hbanned
    exact Bool.false_ne_true (hban.symm.trans hbanned)
  · rintro ⟨hne, hanswered⟩
    have hresolved : ∀ s ∈ settled, ∃ peer, s.2 = .resolved peer := by
      intro s hs
      cases hstate : s.2 with
      | pending => exact absurd hstate (hsettled s hs)
      | rejected => exact absurd hstate (hanswered s hs)
      | resolved peer => exact ⟨peer, rfl⟩
    have hne' : settled ≠ [] := by
      rintro rfl
      exact hne (List.length_eq_zero_iff.1 htotal.symm)
    obtain ⟨last, hlast, hsameTable, hbanlist⟩ := settleRound_of_answered hround rfl
      (by simp only [Nat.zero_add, htotal]) hne' hresolved
    rw [hsettle] at hlast
    cases hlast
    constructor
    · rintro ⟨s, hs, hfailed⟩
      exact absurd hfailed (hanswered s hs)
    · refine fun _ => ⟨?_, fun s hs => ?_⟩
      · rw [isBanned, List.any_eq_true]
        refine ⟨_, newContact.hex_mem_getPeerKeys, ?_⟩
        rw [hbanlist, decide_eq_true_eq]
        exact List.mem_append_right _ newContact.hex_mem_getPeerKeys
      · obtain ⟨c, hc, heq⟩ := List.mem_map.1 (hperm.mem_iff.1 (List.mem_map.2 ⟨s, hs, rfl⟩))
        rw [hold] at hc
        rw [hsameTable, hsame.1, ← heq, RoutingTable.mem_getAll]
        exact KBucket.mem_toArray_of_bucketOf (List.mem_of_mem_take hc)

/-- **In every node there may be**, for every peer its table has no room for, and in whatever
order the pings are settled, a round does what it is for exactly if there is a contact to ping
and all of them answer. -/
theorem evicts_run_iff (localNodeId : Bytes) {k : ℕ} (hk : 1 ≤ k) (concurrency : ℕ)
    (shouldFindNeighbours : Bool) (canEncode : PeerInfo → Bool) (hashOf : ℕ → String)
    (steps : List Step) (hfuel : 512 < fuel)
    (hrun : (new localNodeId k concurrency shouldFindNeighbours canEncode hashOf).run fuel steps =
      some node) (hid : HasId newPeer) {table : RoutingTable} {oldPeers : List Contact}
    {contact : Contact}
    (hadd : node.table.add fuel newPeer = some (.ok (table, some (.ping oldPeers contact))))
    (hban : node.isBanned (.info newPeer) = false)
    (hperm : (settled.map Prod.fst).Perm (oldPeers.map Subtype.val))
    (hsettled : ∀ s ∈ settled, s.2 ≠ .pending) :
    let start := { node with table := table }.onKBucketPing (oldPeers.map Subtype.val) newPeer
    ∃ after, start.settleRound fuel node.rounds.length settled = some after ∧
      (Evicts fuel node.rounds.length start after newPeer settled ↔
        oldPeers ≠ [] ∧ ∀ s ∈ settled, s.2 ≠ .rejected) := by
  obtain ⟨node', hrun', hok⟩ := (ok_new localNodeId hk concurrency shouldFindNeighbours canEncode
    hashOf).exists_run steps hfuel
  rw [hrun] at hrun'
  cases hrun'
  exact hok.evicts_iff hfuel hid hadd hban hperm hsettled

/-- A contact with an id of one byte, filled up with zeros. -/
def sampleContact (byte : UInt8) (address : String) : Contact :=
  ⟨{ id := some (byte :: List.replicate 63 0), address := some address, udpPort := .number 30303
     tcpPort := .number 30303, vectorClock := none }, rfl⟩

/-- A node with one contact to a bucket. -/
def smallNode : Node := new (List.replicate 64 0) 1 3 true (fun _ => true) toString

/-- A contact in the far half, and one in the near half. -/
def fillSteps : List Step :=
  [.addPeer (sampleContact 128 "a").1, .pong (toString 0) ⟨128 :: List.replicate 63 0, rfl⟩,
    .resume 0, .addPeer (sampleContact 1 "b").1,
    .pong (toString 1) ⟨1 :: List.replicate 63 0, rfl⟩, .resume 0]

theorem exists_ping_sample : ∃ node table, smallNode.run 513 fillSteps = some node ∧
    node.table.add 513 (sampleContact 192 "c").1 =
      some (.ok (table, some (.ping [sampleContact 128 "a"] (sampleContact 192 "c")))) ∧
    node.isBanned (.info (sampleContact 192 "c").1) = false := by
  have hfull : ((smallNode.run 513 fillSteps).map fun node =>
      ((node.table.add 513 (sampleContact 192 "c").1).map fun r => r.toOption.map Prod.snd,
        node.isBanned (.info (sampleContact 192 "c").1))) = some (some (some (some
          (.ping [sampleContact 128 "a"] (sampleContact 192 "c")))), false) := by decide +kernel
  obtain ⟨node, hrun, hnode⟩ := Option.map_eq_some_iff.1 hfull
  obtain ⟨hadd, hban⟩ := Prod.mk.inj hnode
  obtain ⟨r, hr, hevent⟩ := Option.map_eq_some_iff.1 hadd
  cases r with
  | error message => cases hevent
  | ok r =>
    obtain ⟨table, event⟩ := r
    obtain rfl := Option.some.inj hevent
    exact ⟨node, table, hrun, hr, hban⟩

/-- The round of pings that is asked for. -/
def sampleRound (node : Node) (table : RoutingTable) : Node :=
  { node with table := table }.onKBucketPing [(sampleContact 128 "a").1] (sampleContact 192 "c").1

/-- **The contact fails, and its place stays empty.** -/
theorem not_evicts_sample : ∃ node table after, smallNode.run 513 fillSteps = some node ∧
    node.table.add 513 (sampleContact 192 "c").1 =
      some (.ok (table, some (.ping [sampleContact 128 "a"] (sampleContact 192 "c")))) ∧
    (sampleRound node table).settleRound 513 node.rounds.length
      [((sampleContact 128 "a").1, .rejected)] = some after ∧
    ¬ Evicts 513 node.rounds.length (sampleRound node table) after (sampleContact 192 "c").1
      [((sampleContact 128 "a").1, .rejected)] := by
  obtain ⟨node, table, hrun, hadd, hban⟩ := exists_ping_sample
  obtain ⟨node', hrun', hok⟩ := (ok_new (List.replicate 64 0) le_rfl 3 true (fun _ => true)
    toString).exists_run fillSteps (by omega : 512 < 513)
  rw [show smallNode.run 513 fillSteps = some node' from hrun'] at hrun
  cases hrun
  have hperm : ([((sampleContact 128 "a").1, PingState.rejected)].map Prod.fst).Perm
      ([sampleContact 128 "a"].map Subtype.val) := .refl _
  obtain ⟨after, hsettle, hiff⟩ := hok.evicts_iff (by omega)
    ⟨⟨192 :: List.replicate 63 0, rfl⟩, rfl⟩ hadd hban hperm (by simp)
  refine ⟨node, table, after, hrun', hadd, hsettle, fun hevicts => ?_⟩
  exact (hiff.1 hevicts).2 _ List.mem_cons_self rfl

/-- The contact answers, as an instance of the theorem on runs. -/
theorem evicts_run_iff_sample : ∃ node table after, smallNode.run 513 fillSteps = some node ∧
    node.table.add 513 (sampleContact 192 "c").1 =
      some (.ok (table, some (.ping [sampleContact 128 "a"] (sampleContact 192 "c")))) ∧
    (sampleRound node table).settleRound 513 node.rounds.length
      [((sampleContact 128 "a").1, .resolved (sampleContact 128 "a").1)] = some after ∧
    Evicts 513 node.rounds.length (sampleRound node table) after (sampleContact 192 "c").1
      [((sampleContact 128 "a").1, .resolved (sampleContact 128 "a").1)] := by
  obtain ⟨node, table, hrun, hadd, hban⟩ := exists_ping_sample
  have hperm : ([((sampleContact 128 "a").1,
      PingState.resolved (sampleContact 128 "a").1)].map Prod.fst).Perm
        ([sampleContact 128 "a"].map Subtype.val) := .refl _
  obtain ⟨after, hsettle, hiff⟩ := evicts_run_iff (List.replicate 64 0) le_rfl 3 true (fun _ => true)
    toString fillSteps (by omega) hrun ⟨⟨192 :: List.replicate 63 0, rfl⟩, rfl⟩ hadd hban hperm
    (by simp)
  exact ⟨node, table, after, hrun, hadd, hsettle, hiff.2 ⟨List.cons_ne_nil _ _, by simp⟩⟩

end Node

end Kademlia

end TsEthereum
