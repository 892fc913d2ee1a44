import LedgerClient.Endorsement.Targets
import LedgerClient.Proofs.Interleavings

/-!
# Whom a proposal goes to

Peers that the caller names come first, then a discovery handler, then the endorsing peers of the
organizations that the caller names, then all endorsing peers of the channel
(`Targets.chosen_by_priority`).  What carries the proof is what the organizations that were gone
through so far amount to (`Channel.EndorsersOf`): as names are unique on a channel, an organization
that was there before adds nobody, and a new one adds all of its endorsing peers at the end
(`Channel.EndorsersOf.next`).
-/

namespace LedgerClient

/-- In a list without repeats, what stands first has the lower position. -/
theorem pairwise_idxOf {α : Type} [DecidableEq α] {xs ys : List α} (h : ys.Sublist xs)
    (hnodup : xs.Nodup) : ys.Pairwise fun x y => xs.idxOf x < xs.idxOf y := by
  have hall : xs.Pairwise fun x y => xs.idxOf x < xs.idxOf y := by
    refine List.pairwise_iff_getElem.2 fun i j hi hj hij => ?_
    rwa [hnodup.idxOf_getElem i hi, hnodup.idxOf_getElem j hj]
  exact hall.sublist h

namespace Targets

variable {ps more : List Peer}

theorem addNew_of_mem (h : ∀ p ∈ more, p.name ∈ ps.map (·.name)) : addNew ps more = ps := by
  induction more with
  | nil => rfl
  | cons p more ih =>
    obtain ⟨q, hq, hname⟩ := List.mem_map.1 (h p List.mem_cons_self)
    have hthere : ps.any (·.name = p.name) = true :=
      List.any_eq_true.2 ⟨q, hq, decide_eq_true hname⟩
    change addNew (if ps.any (·.name = p.name) then ps else ps ++ [p]) more = ps
    rw [if_pos hthere]
    exact ih fun q hq => h q (List.mem_cons_of_mem _ hq)

theorem addNew_of_nodup (h : ((ps ++ more).map (·.name)).Nodup) : addNew ps more = ps ++ more := by
  induction more generalizing ps with
  | nil => exact (List.append_nil ps).symm
  | cons p more ih =>
    have hfresh : ¬ ps.any (·.name = p.name) = true := by
      intro hthere
      obtain ⟨q, hq, hname⟩ := List.any_eq_true.1 hthere
      rw [List.map_append, List.map_cons] at h
      exact List.disjoint_of_nodup_append h (List.mem_map_of_mem hq)
        (of_decide_eq_true hname ▸ List.mem_cons_self)
    change addNew (if ps.any (·.name = p.name) then ps else ps ++ [p]) more = _
    rw [if_neg hfresh, List.append_cons ps p more]
    exact ih (List.append_cons ps p more ▸ h)

end Targets

namespace Channel

variable {c : Channel} {ps ps' : List Peer} {os : List String} {o : String} {p q : Peer}

/-! ## Members of a channel -/

theorem Built.peers_nodup (h : c.Built) : c.peers.Nodup := h.nodup.of_map _

theorem Built.eq_of_name (h : c.Built) (hp : p ∈ c.peers) (hq : q ∈ c.peers)
    (hname : p.name = q.name) : p = q := List.inj_on_of_nodup_map h.nodup hp hq hname

theorem mem_organizations : o ∈ c.organizations ↔ ∃ p ∈ c.peers, p.organization = o := by
  have hfold : ∀ (ps : List Peer) (seen : List String),
      o ∈ ps.foldl (fun seen p =>
        if p.organization ∈ seen then seen else seen ++ [p.organization]) seen ↔
        o ∈ seen ∨ ∃ p ∈ ps, p.organization = o := by
    intro ps
    induction ps with
    | nil => simp
    | cons p ps ih =>
      intro seen
      rw [List.foldl_cons, ih, List.exists_mem_cons_iff]
      by_cases hp : p.organization ∈ seen
      · have hseen : p.organization = o → o ∈ seen := fun h => h ▸ hp
        rw [if_pos hp]
        tauto
      · rw [if_neg hp, List.mem_append, List.mem_singleton, or_assoc, eq_comm (a := o)]
  rw [organizations, hfold]
  simp

theorem mem_endorsers :
    p ∈ c.endorsers (some o) ↔ p ∈ c.peers ∧ p.roles.endorsing = true ∧ p.organization = o := by
  simp [endorsers, belongs]

theorem endorsers_none : c.endorsers none = c.peers.filter (·.roles.endorsing) := by
  simp [endorsers, belongs]

/-! ## The endorsing peers of organizations -/

/-- One peer goes before another: its organization is named first, or they are of one organization
and it is first on the channel. -/
def Precedes (c : Channel) (os : List String) (p q : Peer) : Prop :=
  os.idxOf p.organization < os.idxOf q.organization ∨
    os.idxOf p.organization = os.idxOf q.organization ∧ c.peers.idxOf p < c.peers.idxOf q

/-- The endorsing peers of the channel whose organizations are named, with names of their own, in
the order in which their organizations are named first and then in that of the channel. -/
structure EndorsersOf (c : Channel) (os : List String) (ps : List Peer) : Prop where
  apart : (ps.map (·.name)).Nodup
  exactly : ∀ p, p ∈ ps ↔ p ∈ c.peers ∧ p.roles.endorsing = true ∧ p.organization ∈ os
  inOrder : ps.Pairwise (c.Precedes os)

theorem endorsersOf_nil (c : Channel) : c.EndorsersOf [] [] := ⟨.nil, by simp, .nil⟩

theorem EndorsersOf.unique (h : c.EndorsersOf os ps) (h' : c.EndorsersOf os ps') : ps = ps' := by
  have hperm : ps.Perm ps' := (List.perm_ext_iff_of_nodup (h.apart.of_map _) (h'.apart.of_map _)).2
    fun p => (h.exactly p).trans (h'.exactly p).symm
  refine hperm.eq_of_pairwise (fun p q _ _ hpq hqp => ?_) h.inOrder h'.inOrder
  unfold Precedes at hpq hqp
  omega

/-- Naming one more organization at the end leaves the order of those that were named. -/
theorem Precedes.concat (h : c.Precedes os p q) (hp : p.organization ∈ os)
    (hq : q.organization ∈ os) : c.Precedes (os ++ [o]) p q := by
  unfold Precedes at *
  rwa [List.idxOf_append_of_mem hp, List.idxOf_append_of_mem hq]

theorem precedes_of_mem_of_not_mem (hp : p.organization ∈ os) (hq : q.organization ∉ os) :
    c.Precedes (os ++ [q.organization]) p q := by
  refine Or.inl ?_
  rw [List.idxOf_append_of_mem hp, List.idxOf_append_of_notMem hq, List.idxOf_cons_self]
  exact List.idxOf_lt_length_of_mem hp

theorem Built.pairwise_endorsers (built : c.Built) (os : List String) (o : String) :
    (c.endorsers (some o)).Pairwise (c.Precedes os) := by
  refine (pairwise_idxOf List.filter_sublist built.peers_nodup).imp_of_mem fun hp hq hlt => ?_
  exact Or.inr ⟨by rw [(mem_endorsers.1 hp).2.2, (mem_endorsers.1 hq).2.2], hlt⟩

/-- An organization that was named before adds nobody, and a new one adds all of its endorsing
peers. -/
theorem EndorsersOf.next (built : c.Built) (h : c.EndorsersOf os ps) (o : String) :
    c.EndorsersOf (os ++ [o]) (Targets.addNew ps (c.endorsers (some o))) := by
  have hold : ps.Pairwise (c.Precedes (os ++ [o])) := h.inOrder.imp_of_mem fun hp hq hpq =>
    hpq.concat ((h.exactly _).1 hp).2.2 ((h.exactly _).1 hq).2.2
  by_cases ho : o ∈ os
  · have hthere : ∀ p ∈ c.endorsers (some o), p.name ∈ ps.map (·.name) := by
      intro p hp
      obtain ⟨hpeer, hrole, rfl⟩ := mem_endorsers.1 hp
      exact List.mem_map_of_mem ((h.exactly p).2 ⟨hpeer, hrole, ho⟩)
    rw [Targets.addNew_of_mem hthere]
    refine ⟨h.apart, fun p => ?_, hold⟩
    have hnamed : p.organization = o → p.organization ∈ os := fun heq => heq ▸ ho
    rw [h.exactly, List.mem_append, List.mem_singleton]
    tauto
  · have hapart : ((ps ++ c.endorsers (some o)).map (·.name)).Nodup := by
      rw [List.map_append]
      refine List.Nodup.append h.apart (built.nodup.sublist (List.filter_sublist.map _)) ?_
      intro name hname hname'
      -- a peer of that name on both sides would be of two organizations
      obtain ⟨p, hp, rfl⟩ := List.mem_map.1 hname
      obtain ⟨q, hq, hsame⟩ := List.mem_map.1 hname'
      obtain ⟨hpeer, -, hnamed⟩ := (h.exactly p).1 hp
      obtain ⟨hpeer', -, rfl⟩ := mem_endorsers.1 hq
      exact ho (built.eq_of_name hpeer' hpeer hsame ▸ hnamed)
    rw [Targets.addNew_of_nodup hapart]
    refine ⟨hapart, fun p => ?_, List.pairwise_append.2
      ⟨hold, built.pairwise_endorsers _ o, fun p hp q hq => ?_⟩⟩
    · rw [List.mem_append, h.exactly, mem_endorsers, List.mem_append, List.mem_singleton]
      tauto
    · obtain ⟨-, -, rfl⟩ := mem_endorsers.1 hq
      exact precedes_of_mem_of_not_mem ((h.exactly p).1 hp).2.2 ho

theorem Built.endorsersOf (built : c.Built) (os : List String) :
    c.EndorsersOf os (Targets.ofOrganizations c os) := by
  induction os using List.reverseRecOn with
  | nil => exact c.endorsersOf_nil
  | append_singleton os o ih =>
    rw [Targets.ofOrganizations, List.foldl_append]
    exact ih.next built o

end Channel

namespace Targets

/-- The peers that a proposal goes to without a handler: those that the caller names, else the
endorsing peers of the organizations that the caller names, else all endorsing peers in the order
of the channel. -/
inductive Prescribed (c : Channel) : Option (List Peer) → Option (List String) → List Peer → Prop
  | named (ps : List Peer) (organizations : Option (List String)) :
      Prescribed c (some ps) organizations ps
  | endorsersOf {os : List String} {ps : List Peer} (endorsers : c.EndorsersOf os ps) :
      Prescribed c none (some os) ps
  | endorsers : Prescribed c none none (c.peers.filter (·.roles.endorsing))

variable {c : Channel} {peers : Option (List Peer)} {organizations : Option (List String)}
  {ps ps' : List Peer} {allowed : Bool}

theorem Prescribed.unique (h : Prescribed c peers organizations ps)
    (h' : Prescribed c peers organizations ps') : ps = ps' := by
  cases h with
  | named => cases h'; rfl
  | endorsersOf h => cases h' with | endorsersOf h' => exact h.unique h'
  | endorsers => cases h'; rfl

theorem ofPeers_eq (ps : List Peer) :
    ofPeers ps = if ps = [] then .error .noEndorsers else .ok (.peers ps) := by
  cases ps <;> rfl

/-- The choice is left to a handler: the caller names no peers, and there is a handler that may be
used. -/
def Handled (c : Channel) (peers : Option (List Peer)) (allowed : Bool) : Prop :=
  peers = none ∧ (allowed && c.discovery) = true

theorem choose_of_handled (h : Handled c peers allowed) :
    choose c peers organizations allowed = .ok (.discovery organizations) := by
  obtain ⟨rfl, hhandler⟩ := h
  exact if_pos hhandler

/-- Without a handler the proposal goes to the prescribed peers. -/
theorem choose_of_not_handled (built : c.Built) (organizations : Option (List String))
    (h : ¬ Handled c peers allowed) : ∃ ps, Prescribed c peers organizations ps ∧
      choose c peers organizations allowed = ofPeers ps := by
  cases peers with
  | some ps => exact ⟨ps, .named ps organizations, rfl⟩
  | none =>
    have hno : ¬ (allowed && c.discovery) = true := fun hhandler => h ⟨rfl, hhandler⟩
    cases organizations with
    | some os => exact ⟨_, .endorsersOf (built.endorsersOf os), if_neg hno⟩
    | none => exact ⟨_, Channel.endorsers_none ▸ .endorsers, if_neg hno⟩

/-- All organizations of the channel together have all endorsing peers. -/
theorem Prescribed.perm (built : c.Built) (h : Prescribed c none (some c.organizations) ps)
    (h' : Prescribed c none none ps') : ps.Perm ps' := by
  cases h with | endorsersOf h =>
  cases h'
  refine (List.perm_ext_iff_of_nodup (h.apart.of_map _)
    (built.peers_nodup.sublist List.filter_sublist)).2 fun p => ?_
  have hmember (hp : p ∈ c.peers) : p.organization ∈ c.organizations :=
    Channel.mem_organizations.2 ⟨p, hp, rfl⟩
  rw [h.exactly, List.mem_filter]
  tauto

/-- Whom a proposal goes to, on every channel however it was put together.  Peers that the caller
names are used as they are.  Else a handler, if there is one and it may be used, chooses, with the
organizations as the caller gives them.  Else the endorsing peers of the named organizations are
used, or all endorsing peers in the order of the channel.  There are no endorsers exactly if no peer
is prescribed.  To name all organizations of the channel selects the same peers as to name none. -/
theorem chosen_by_priority (built : c.Built) (peers : Option (List Peer))
    (organizations : Option (List String)) (allowed : Bool) :
    (Handled c peers allowed →
      choose c peers organizations allowed = .ok (.discovery organizations)) ∧
    (¬ Handled c peers allowed → ∃ ps, Prescribed c peers organizations ps ∧
      choose c peers organizations allowed =
        if ps = [] then .error .noEndorsers else .ok (.peers ps)) ∧
    (choose c peers organizations allowed = .error .noEndorsers ↔
      ¬ Handled c peers allowed ∧ Prescribed c peers organizations []) ∧
    (¬ Handled c none allowed → ∃ ps ps', ps.Perm ps' ∧
      choose c none (some c.organizations) allowed = ofPeers ps ∧
      choose c none none allowed = ofPeers ps') := by
  refine ⟨choose_of_handled, fun h => ?_, ⟨fun herror => ?_, fun h => ?_⟩, fun h => ?_⟩
  · obtain ⟨ps, hps, hchoose⟩ := choose_of_not_handled built organizations h
    exact ⟨ps, hps, hchoose.trans (ofPeers_eq ps)⟩
  · have hno : ¬ Handled c peers allowed := fun h => by
      rw [choose_of_handled h] at herror
      cases herror
    obtain ⟨ps, hps, hchoose⟩ := choose_of_not_handled built organizations hno
    cases ps with
    | nil => exact ⟨hno, hps⟩
    | cons p ps =>
      rw [hchoose] at herror
      cases herror
  · obtain ⟨ps, hps, hchoose⟩ := choose_of_not_handled built organizations h.1
    rw [hchoose, hps.unique h.2]
    rfl
  · obtain ⟨ps, hps, hchoose⟩ := choose_of_not_handled built (some c.organizations) h
    obtain ⟨ps', hps', hchoose'⟩ := choose_of_not_handled built none h
    exact ⟨ps, ps', hps.perm built hps', hchoose, hchoose'⟩

/-- Three peers of two organizations; the last was added again, and moved from one organization to
the other. -/
def moved : Channel :=
  (((Channel.empty "channel").addPeer ⟨"p3", "B", "", .all⟩).addPeer ⟨"p1", "A", "", .all⟩).addPeer
    ⟨"p2", "B", "", .all⟩ |>.addPeer ⟨"p3", "A", "", .all⟩

/-- Organizations that are named again, or that nobody knows, change nothing. -/
theorem moved_by_organization :
    moved.Built ∧ choose moved none (some ["B", "C", "A", "B"]) true = .ok (.peers
      [⟨"p2", "B", "", .all⟩, ⟨"p1", "A", "", .all⟩, ⟨"p3", "A", "", .all⟩]) ∧
    moved.EndorsersOf ["B", "C", "A", "B"]
      [⟨"p2", "B", "", .all⟩, ⟨"p1", "A", "", .all⟩, ⟨"p3", "A", "", .all⟩] := by
  have hbuilt : moved.Built := .addPeer _ (.addPeer _ (.addPeer _ (.addPeer _ (.empty _))))
  have hno : ¬ Handled moved none true := by
    rintro ⟨-, h⟩
    cases h
  obtain ⟨-, hpeers, -⟩ := chosen_by_priority hbuilt none (some ["B", "C", "A", "B"]) true
  obtain ⟨ps, hps, hchoose⟩ := hpeers hno
  have hchosen : choose moved none (some ["B", "C", "A", "B"]) true = .ok (.peers
      [⟨"p2", "B", "", .all⟩, ⟨"p1", "A", "", .all⟩, ⟨"p3", "A", "", .all⟩]) := by decide +kernel
  refine ⟨hbuilt, hchosen, ?_⟩
  cases hps with | endorsersOf hps =>
  rw [hchosen] at hchoose
  split_ifs at hchoose
  obtain rfl := Targets.peers.inj (Except.ok.inj hchoose)
  exact hps

end Targets

end LedgerClient
