import LedgerClient.Proofs.Endorsers

/-!
# Who is on a channel

Peers are added to a channel one after the other, and a peer takes the place of the one that had
its name.  Whatever was added, the peers of the channel are those that were added last under their
names, in the order of these additions (`Channel.LastAdded`).  One more addition ends the stay of
the peer that had the name and begins another at the end (`Channel.stays_concat`); this carries the
induction.  The queries for endorsing peers, query peers and event peers are one selection with
different roles (`Channel.select`), and the organizations divide it into parts.  Together:
`Channel.peers_are_those_added_last`.
-/

namespace LedgerClient

namespace Channel

/-! ## Additions -/

/-- What is added to a channel. -/
inductive Addition where
  | peer (p : Peer)
  | orderer (o : Orderer)
  | discovery
  deriving DecidableEq, Repr

def add (c : Channel) : Addition → Channel
  | .peer p => c.addPeer p
  | .orderer o => c.addOrderer o
  | .discovery => c.withDiscovery

/-- The channel after some additions. -/
def ofAdditions (name : String) (as : List Addition) : Channel := as.foldl add (.empty name)

/-- The peers among additions. -/
def peersIn (as : List Addition) : List Peer :=
  as.filterMap fun a => match a with | .peer p => some p | _ => none

theorem built_ofAdditions (name : String) (as : List Addition) : (ofAdditions name as).Built := by
  induction as using List.reverseRecOn with
  | nil => exact .empty name
  | append_singleton as a ih =>
    rw [ofAdditions, List.foldl_append]
    cases a with
    | peer p => exact ih.addPeer p
    | orderer o => exact ih.addOrderer o
    | discovery => exact ih.withDiscovery

/-! ## The last addition under a name -/

/-- The addition with number `k` was that of `p`, and no peer with its name was added since. -/
structure Stays (added : List Peer) (k : Nat) (p : Peer) : Prop where
  came : added[k]? = some p
  last : ∀ j q, k < j → added[j]? = some q → q.name ≠ p.name

/-- The peers that were added last under their names, in the order of these additions. -/
structure LastAdded (added ps : List Peer) : Prop where
  apart : (ps.map (·.name)).Nodup
  exactly : ∀ p, p ∈ ps ↔ ∃ k, Stays added k p
  inOrder : ps.Pairwise fun p q => ∀ i j, Stays added i p → Stays added j q → i < j

section LastAdded

variable {added ps : List Peer} {p q : Peer} {k : Nat}

theorem Stays.lt (h : Stays added k p) : k < added.length :=
  (List.getElem?_eq_some_iff.1 h.came).1

/-- One more addition is the last under its name, and that of another name stays what it was. -/
theorem stays_concat : Stays (added ++ [p]) k q ↔
    k = added.length ∧ q = p ∨ Stays added k q ∧ q.name ≠ p.name := by
  constructor
  · intro h
    rcases Nat.lt_or_ge k added.length with hk | hk
    · refine Or.inr ⟨⟨?_, fun j r hj hr => h.last j r hj ?_⟩, ?_⟩
      · rw [← h.came, List.getElem?_append_left hk]
      · rw [← hr, List.getElem?_append_left (List.getElem?_eq_some_iff.1 hr).1]
      · exact (h.last added.length p hk List.getElem?_concat_length).symm
    · have hlt : k < (added ++ [p]).length := h.lt
      rw [List.length_append, List.length_singleton] at hlt
      obtain rfl : k = added.length := by omega
      exact Or.inl ⟨rfl, Option.some.inj (h.came.symm.trans List.getElem?_concat_length)⟩
  · rintro (⟨rfl, rfl⟩ | ⟨h, hname⟩)
    · refine ⟨List.getElem?_concat_length, fun j r hj hr => ?_⟩
      have hlt := (List.getElem?_eq_some_iff.1 hr).1
      rw [List.length_append, List.length_singleton] at hlt
      omega
    · refine ⟨by rw [List.getElem?_append_left h.lt, h.came], fun j r hj hr => ?_⟩
      rw [List.getElem?_append] at hr
      split_ifs at hr
      · exact h.last j r hj hr
      · obtain rfl := List.mem_singleton.1 (List.mem_of_getElem? hr)
        exact hname.symm

theorem exists_stays (h : q ∈ added) : ∃ k p, Stays added k p ∧ p.name = q.name := by
  induction added using List.reverseRecOn with
  | nil => cases h
  | append_singleton added p ih =>
    by_cases hname : q.name = p.name
    · exact ⟨added.length, p, stays_concat.2 (Or.inl ⟨rfl, rfl⟩), hname.symm⟩
    · have hq : q ∈ added := by
        rcases List.mem_append.1 h with h | h
        · exact h
        · exact absurd (congrArg Peer.name (List.mem_singleton.1 h)) hname
      obtain ⟨k, r, hr, hsame⟩ := ih hq
      exact ⟨k, r, stays_concat.2 (Or.inr ⟨hr, hsame ▸ hname⟩), hsame⟩

theorem lastAdded_nil : LastAdded [] [] := by
  refine ⟨.nil, fun p => iff_of_false List.not_mem_nil ?_, .nil⟩
  rintro ⟨k, h⟩
  exact absurd h.lt (Nat.not_lt_zero k)

/-- One more peer takes the place of the one that had its name. -/
theorem LastAdded.concat (h : LastAdded added ps) (p : Peer) :
    LastAdded (added ++ [p]) (ps.filter (·.name ≠ p.name) ++ [p]) where
  apart := nodup_names_concat h.apart p
  exactly q := by
    simp only [List.mem_append, List.mem_filter, List.mem_singleton, stays_concat, h.exactly,
      decide_eq_true_eq]
    constructor
    · rintro (⟨⟨k, hk⟩, hname⟩ | rfl)
      · exact ⟨k, Or.inr ⟨hk, hname⟩⟩
      · exact ⟨_, Or.inl ⟨rfl, rfl⟩⟩
    · rintro ⟨k, ⟨-, rfl⟩ | ⟨hk, hname⟩⟩
      · exact Or.inr rfl
      · exact Or.inl ⟨⟨k, hk⟩, hname⟩
  inOrder := by
    have hold : ∀ {q i}, q ∈ ps.filter (·.name ≠ p.name) → Stays (added ++ [p]) i q →
        Stays added i q := by
      intro q i hq hi
      rcases stays_concat.1 hi with ⟨-, rfl⟩ | ⟨hi, -⟩
      · exact absurd rfl (of_decide_eq_true (List.mem_filter.1 hq).2)
      · exact hi
    refine List.pairwise_append.2 ⟨?_, List.pairwise_singleton _ _, fun q hq r hr i j hi hj => ?_⟩
    · refine (h.inOrder.sublist List.filter_sublist).imp_of_mem fun hq hr hqr i j hi hj => ?_
      exact hqr i j (hold hq hi) (hold hr hj)
    · obtain rfl := List.mem_singleton.1 hr
      rcases stays_concat.1 hj with ⟨rfl, -⟩ | ⟨-, hname⟩
      · exact (hold hq hi).lt
      · exact absurd rfl hname

end LastAdded

theorem lastAdded_ofAdditions (name : String) (as : List Addition) :
    LastAdded (peersIn as) (ofAdditions name as).peers := by
  induction as using List.reverseRecOn with
  | nil => exact lastAdded_nil
  | append_singleton as a ih =>
    rw [ofAdditions, List.foldl_append, peersIn, List.filterMap_append]
    cases a with
    | peer p => exact ih.concat p
    | orderer o => exact (List.append_nil _).symm ▸ ih
    | discovery => exact (List.append_nil _).symm ▸ ih

theorem Built.peer?_eq_some_iff {c : Channel} (built : c.Built) {name : String} {p : Peer} :
    c.peer? name = some p ↔ p ∈ c.peers ∧ p.name = name := by
  constructor
  · intro h
    exact ⟨List.mem_of_find?_eq_some h, by simpa using List.find?_some h⟩
  · rintro ⟨hp, rfl⟩
    cases h : c.peer? p.name with
    | none => simpa using List.find?_eq_none.1 h p hp
    | some q =>
      have hname : q.name = p.name := by simpa using List.find?_some h
      rw [built.eq_of_name (List.mem_of_find?_eq_some h) hp hname]

/-! ## Selections -/

/-- The peers that play a role, of one organization or of all. -/
def select (c : Channel) (role : Roles → Bool) (organization : Option String) : List Peer :=
  c.peers.filter fun p => role p.roles && belongs organization p

/-- The queries of a channel, and the role that each is about. -/
def queries : List ((Roles → Bool) × (Channel → Option String → List Peer)) :=
  [(Roles.endorsing, endorsers), (Roles.querying, queryPeers), (Roles.eventSource, eventPeers)]

section Selections

variable {c : Channel} {role : Roles → Bool} {query : Channel → Option String → List Peer}
  {o : Option String} {p : Peer}

theorem query_eq_select (h : (role, query) ∈ queries) : query c o = c.select role o := by
  simp only [queries, List.mem_cons, Prod.mk.injEq, List.not_mem_nil, or_false] at h
  rcases h with ⟨rfl, rfl⟩ | ⟨rfl, rfl⟩ | ⟨rfl, rfl⟩ <;> rfl

theorem belongs_iff : belongs o p = true ↔ ∀ organization, o = some organization →
    p.organization = organization := by
  cases o <;> simp [belongs]

theorem mem_select : p ∈ c.select role o ↔ p ∈ c.peers ∧ role p.roles = true ∧
    ∀ organization, o = some organization → p.organization = organization := by
  rw [select, List.mem_filter, Bool.and_eq_true, belongs_iff]

theorem select_sublist : (c.select role o).Sublist c.peers := List.filter_sublist

theorem organizations_nodup (c : Channel) : c.organizations.Nodup := by
  have hfold : ∀ (ps : List Peer) (seen : List String), seen.Nodup →
      (ps.foldl (fun seen p =>
        if p.organization ∈ seen then seen else seen ++ [p.organization]) seen).Nodup := by
    intro ps
    induction ps with
    | nil => exact fun _ h => h
    | cons p ps ih =>
      intro seen h
      refine ih _ ?_
      dsimp only
      split_ifs with hp
      · exact h
      · exact List.nodup_append_comm.1 (List.nodup_cons.2 ⟨hp, h⟩)
  exact hfold c.peers [] .nil

/-- The organizations divide a selection into parts. -/
theorem Built.flatMap_select_perm (built : c.Built) (role : Roles → Bool) :
    (c.organizations.flatMap fun organization => c.select role (some organization)).Perm
      (c.select role none) := by
  have hparts : (c.organizations.flatMap fun organization =>
      c.select role (some organization)).Nodup := by
    refine List.nodup_flatMap.2 ⟨fun _ _ => built.peers_nodup.sublist select_sublist, ?_⟩
    refine c.organizations_nodup.imp fun hne p hp hp' => hne ?_
    exact ((mem_select.1 hp).2.2 _ rfl).symm.trans ((mem_select.1 hp').2.2 _ rfl)
  refine (List.perm_ext_iff_of_nodup hparts (built.peers_nodup.sublist select_sublist)).2
    fun p => ?_
  rw [List.mem_flatMap, mem_select]
  constructor
  · rintro ⟨_, -, hp⟩
    obtain ⟨hpeer, hrole, -⟩ := mem_select.1 hp
    exact ⟨hpeer, hrole, by simp⟩
  · rintro ⟨hpeer, hrole, -⟩
    refine ⟨p.organization, mem_organizations.2 ⟨p, hpeer, rfl⟩, mem_select.2 ⟨hpeer, hrole, ?_⟩⟩
    rintro _ ⟨⟩
    rfl

end Selections

/-- Who is on a channel, whatever was added to it.  Its peers have names of their own, they are
those that were added last under their names, in the order of these additions, and each is found
under its name.  A query has those of them that play its role, of the organization that is asked
for, in the order of the channel; the organizations, each named once, divide it into parts.  So no
peer is twice in the quorum of a policy. -/
theorem peers_are_those_added_last (name : String) (as : List Addition) :
    let c := ofAdditions name as
    LastAdded (peersIn as) c.peers ∧
      (∀ q ∈ peersIn as, ∃ k p, p.name = q.name ∧ Stays (peersIn as) k p ∧
        c.peer? q.name = some p) ∧
      (∀ p ∈ c.peers, c.peer? p.name = some p) ∧
      (∀ role query, (role, query) ∈ queries →
        (∀ o, (query c o).Sublist c.peers ∧ ∀ p, p ∈ query c o ↔ p ∈ c.peers ∧
          role p.roles = true ∧ ∀ organization, o = some organization →
            p.organization = organization) ∧
        (c.organizations.flatMap fun o => query c (some o)).Perm (query c none)) ∧
      c.organizations.Nodup ∧
      ∀ (policy : CommitPolicy) (organization : String) (q : Quorum),
        policy.quorum? c organization = some q → (q.peers.map (·.name)).Nodup := by
  intro c
  have built : c.Built := built_ofAdditions name as
  have last : LastAdded (peersIn as) c.peers := lastAdded_ofAdditions name as
  refine ⟨last, fun q hq => ?_, fun p hp => built.peer?_eq_some_iff.2 ⟨hp, rfl⟩,
    fun role query hquery => ⟨fun o => ?_, ?_⟩, c.organizations_nodup,
    fun policy organization q hq => CommitPolicy.quorum_nodup built hq⟩
  · obtain ⟨k, p, hp, hname⟩ := exists_stays hq
    exact ⟨k, p, hname, hp, built.peer?_eq_some_iff.2 ⟨(last.exactly p).2 ⟨k, hp⟩, hname⟩⟩
  · rw [query_eq_select hquery]
    exact ⟨select_sublist, fun p => mem_select⟩
  · simp only [query_eq_select hquery]
    exact built.flatMap_select_perm role

/-- A peer that is added again moves from one organization to another, and no longer endorses. -/
def movedAgain : List Addition :=
  [.peer ⟨"p1", "A", "", .all⟩, .peer ⟨"p2", "B", "", .all⟩, .orderer ⟨"o", ""⟩,
    .peer ⟨"p3", "B", "", .all⟩, .peer ⟨"p1", "B", "", { Roles.all with endorsing := false }⟩]

/-- The peer is found as it was added last, behind the others, and only among the event peers of its
new organization. -/
theorem found_where_it_moved :
    let c := ofAdditions "channel" movedAgain
    c.peers.map (·.name) = ["p2", "p3", "p1"] ∧
      (∃ k p, p.name = "p1" ∧ Stays (peersIn movedAgain) k p ∧ c.peer? "p1" = some p) ∧
      (c.organizations.flatMap fun o => c.endorsers (some o)).Perm (c.endorsers none) ∧
      (c.endorsers none).map (·.name) = ["p2", "p3"] ∧
      ∃ q, CommitPolicy.organizationAny.quorum? c "B" = some q ∧
        (q.peers.map (·.name)).Nodup ∧ q.peers.length = 3 := by
  obtain ⟨-, hnames, hfound, hqueries, -, hquorums⟩ :=
    peers_are_those_added_last "channel" movedAgain
  exact ⟨by decide, hnames ⟨"p1", "A", "", .all⟩ (by decide),
    (hqueries Roles.endorsing endorsers List.mem_cons_self).2, by decide, _, rfl,
    hquorums .organizationAny "B" _ rfl, by decide⟩

end Channel

end LedgerClient
