import LedgerClient.Proofs.Closing
import LedgerClient.Proofs.Dispatches
import LedgerClient.Proofs.Filtering
import Mathlib.Data.List.Infix

/-!
# The attempts of a feed

A feed keeps connecting.  Each attempt asks for a stream, which is refused, breaks or ends, and then
comes the next.  Where an attempt asks to begin depends on the highest of all block numbers that the
feed handed out in earlier attempts, in whatever order they came, and what it hands out is what was
read of the stream up to its first error.

As long as a session is attached and the feed is not stopped, the moves of the feed are all that
counts for this (`Client.passage_apply`): a `Passage` is carried along by them alone, from attempt
to attempt (`Passage.run_attempts`).
-/

namespace LedgerClient

/-! ## Attempts -/

/-- An attempt of a feed to have a stream, and what came of it. -/
inductive Attempt where
  /-- There is no answer yet. -/
  | pending
  /-- No stream could be opened, or the request ran out of time. -/
  | refused (e : TransportError)
  /-- There is a stream; these are all the items that it ever brings, whether or not the feed reads
  them, and whether it ended after them. -/
  | streamed (items : List (Except TransportError Block)) (ended : Bool)

namespace Attempt

def brings (i : Nat) : Except TransportError Block → Move
  | .ok b => .blockArrived i b
  | .error e => .streamBroke i e

/-- The moves of the feed `i` in an attempt. -/
def moves (i : Nat) : Attempt → List Move
  | .pending => [.requestStream i]
  | .refused e => [.requestStream i, .streamRefused i e]
  | .streamed items ended =>
    .requestStream i :: .streamOpened i :: (items.map (brings i) ++
      if ended then [.streamEnded i] else [])

/-- The blocks of a stream before its first error, and the error if there is one. -/
def reads (peer : String) : List (Except TransportError Block) → List Delivery
  | [] => []
  | .ok b :: items => .block peer b :: reads peer items
  | .error e :: _ => [.fault ⟨peer, e.message⟩]

/-- What an attempt brings to the sessions on the feed. -/
def deliveries (peer : String) : Attempt → List Delivery
  | .pending => []
  | .refused e => [.fault ⟨peer, e.message⟩]
  | .streamed items _ => reads peer items

/-- The attempt has failed, or its stream has broken or ended. -/
def IsOver : Attempt → Prop
  | .pending => False
  | .refused _ => True
  | .streamed items ended => ended = true ∨ ∃ item ∈ items, item.isOk = false

instance : DecidablePred IsOver := fun t => by
  cases t <;> unfold IsOver <;> infer_instance

end Attempt

/-- Where a feed that begins at `initial` asks to go on when it has handed out these deliveries:
after the highest block, or where it begins if there was none. -/
def Delivery.goOn (initial : Option Nat) (ds : List Delivery) : Option Nat :=
  match (numbers ds).max? with
  | some n => some (n + 1)
  | none => initial

namespace Feed

/-- Where a feed asks to begin that began at `initial`, when these blocks arrived on it. -/
def startAfter (initial : Option Nat) (ns : List Nat) : Option Nat :=
  match ns.max? with
  | some n => some (n + 1)
  | none => initial

theorem resumePosition_eq_startAfter {f : Feed} {ns : List Nat} (h : f.last = ns.max?) :
    f.resumePosition = startAfter f.initial ns := by
  cases hmax : ns.max? <;> simp only [resumePosition, startAfter, h, hmax]

/-- The deliveries of a feed count with the numbers of their blocks. -/
theorem startAfter_numbers (initial : Option Nat) (ds : List Delivery) :
    startAfter initial (Delivery.numbers ds) = Delivery.goOn initial ds := rfl

end Feed

/-! ## Passages -/

namespace Feed

/-- A feed without its sessions, its waits and its record: where it stands with its stream. -/
def course (f : Feed) : Feed := { f with interval := ⟨0⟩, sessions := [], requests := [] }

/-- The start that a move asks for. -/
def asks (f : Feed) : Move → List (Option Nat)
  | .requestStream _ => [f.resumePosition]
  | _ => []

variable (f : Feed) (m : Move)

theorem course_after (r : ReconnectOptions) :
    (f.after r m).course = (f.course.after .default m).course := by
  cases m <;> simp [course, after, rest, advance]

theorem admits_course : f.course.Admits m ↔ f.Admits m := by
  cases m <;> rfl

theorem asks_course : f.course.asks m = f.asks m := by
  cases m <;> rfl

theorem hands_course : f.course.hands m = f.hands m := by
  cases m <;> rfl

/-- Sessions that come and go leave where a feed stands, unless it is stopped. -/
theorem Alike.course {f f' : Feed} {gone new : Nat → Prop} (h : f.Alike gone new f')
    (hphase : f'.phase ≠ .stopped) : f'.course = f.course := by
  have hsame : f'.phase = f.phase := h.phase.resolve_right hphase
  rw [h.same, hsame]
  rfl

end Feed

/-- Where a feed stands, the starts that it asked for, and what it handed out. -/
structure Passage where
  feed : Feed
  asked : List (Option Nat)
  handed : List Delivery

namespace Passage

def after (p : Passage) (m : Move) : Passage :=
  if p.feed.Admits m then
    ⟨(p.feed.after .default m).course, p.asked ++ p.feed.asks m, p.handed ++ p.feed.hands m⟩
  else p

def run (p : Passage) (ms : List Move) : Passage := ms.foldl after p

variable {p : Passage} {i : Nat} {m : Move} {ms ms' : List Move} {peer : String}
  {initial : Option Nat}

@[simp] theorem run_cons (p : Passage) (m : Move) (ms : List Move) :
    p.run (m :: ms) = (p.after m).run ms := rfl

theorem run_append (p : Passage) (ms ms' : List Move) :
    p.run (ms ++ ms') = (p.run ms).run ms' := List.foldl_append

theorem after_of_admits (h : p.feed.Admits m) : p.after m =
    ⟨(p.feed.after .default m).course, p.asked ++ p.feed.asks m, p.handed ++ p.feed.hands m⟩ :=
  if_pos h

theorem after_of_not_admits (h : ¬ p.feed.Admits m) : p.after m = p := if_neg h

theorem run_of_not_admits (h : ∀ m ∈ ms, ¬ p.feed.Admits m) : p.run ms = p := by
  induction ms with
  | nil => rfl
  | cons m ms ih =>
    rw [List.forall_mem_cons] at h
    rw [run_cons, after_of_not_admits h.1, ih h.2]

/-- A feed knows what it is and the highest block number that it handed out. -/
structure Sound (peer : String) (initial : Option Nat) (p : Passage) : Prop where
  peer : p.feed.peer.name = peer
  initial : p.feed.initial = initial
  last : p.feed.last = (Delivery.numbers p.handed).max?

theorem max?_concat (ns : List Nat) (n : Nat) :
    (ns ++ [n]).max? = some (match ns.max? with | none => n | some m => max m n) := by
  cases ns with
  | nil => rfl
  | cons k ns => rw [List.cons_append, List.max?_cons', List.max?_cons', List.foldl_concat]

theorem Sound.after (h : p.Sound peer initial) (m : Move) : (p.after m).Sound peer initial := by
  by_cases hadmits : p.feed.Admits m
  · rw [after_of_admits hadmits]
    obtain ⟨hpeer, -, -, hinitial, -⟩ := p.feed.after_same .default m
    refine ⟨(congrArg Peer.name hpeer).trans h.peer, hinitial.trans h.initial, ?_⟩
    rw [Delivery.numbers_append]
    cases m with
    | blockArrived k b =>
      rw [Feed.hands, Delivery.numbers_block, max?_concat, ← h.last]
      rfl
    | _ => exact h.last.trans (congrArg List.max? (List.append_nil _).symm)
  · rwa [after_of_not_admits hadmits]

theorem Sound.run (h : p.Sound peer initial) (ms : List Move) : (p.run ms).Sound peer initial := by
  induction ms generalizing p with
  | nil => exact h
  | cons m ms ih => exact ih (h.after m)

theorem Sound.resumePosition (h : p.Sound peer initial) :
    p.feed.resumePosition = Delivery.goOn initial p.handed := by
  rw [Feed.resumePosition_eq_startAfter h.last, h.initial, Feed.startAfter_numbers]

/-! ## From attempt to attempt -/

/-- A stream is read up to its first error; then the feed rests, and what else comes is lost. -/
theorem run_items (i : Nat) (items : List (Except TransportError Block))
    (hp : p.feed.phase = .streaming) :
    (p.run (items.map (Attempt.brings i))).asked = p.asked ∧
      (p.run (items.map (Attempt.brings i))).handed =
        p.handed ++ Attempt.reads p.feed.peer.name items ∧
      ((p.run (items.map (Attempt.brings i))).feed.phase = .resting false ∨
        (p.run (items.map (Attempt.brings i))).feed.phase = .streaming ∧
          ∀ item ∈ items, item.isOk = true) := by
  induction items generalizing p with
  | nil => exact ⟨rfl, (List.append_nil _).symm, Or.inr ⟨hp, by simp⟩⟩
  | cons item items ih =>
    rw [List.map_cons, run_cons, after_of_admits (by cases item <;> exact hp)]
    cases item with
    | ok b =>
      obtain ⟨hasked, hhanded, hphase⟩ := ih (p := ⟨(p.feed.advance .default b.number).course,
        p.asked ++ [], p.handed ++ [.block p.feed.peer.name b]⟩) hp
      refine ⟨hasked.trans (List.append_nil _), hhanded.trans (List.append_assoc ..), ?_⟩
      exact hphase.imp_right fun h => ⟨h.1, List.forall_mem_cons.2 ⟨rfl, h.2⟩⟩
    | error e =>
      rw [run_of_not_admits]
      · exact ⟨List.append_nil _, rfl, Or.inl rfl⟩
      · intro m hm
        obtain ⟨item, -, rfl⟩ := List.mem_map.1 hm
        cases item <;> exact FeedPhase.noConfusion

/-- When a stream has broken or ended the next attempt is due. -/
theorem run_stream (i : Nat) (items : List (Except TransportError Block)) (ended : Bool)
    (hp : p.feed.phase = .streaming) :
    let p' := p.run (items.map (Attempt.brings i) ++ if ended then [.streamEnded i] else [])
    p'.asked = p.asked ∧ p'.handed = p.handed ++ Attempt.reads p.feed.peer.name items ∧
      ((Attempt.streamed items ended).IsOver → p'.feed.Admits (.requestStream i)) := by
  intro p'
  obtain ⟨hasked, hhanded, hphase⟩ := run_items i items hp
  have hp' : p' = (p.run (items.map (Attempt.brings i))).run
    (if ended then [.streamEnded i] else []) := run_append ..
  generalize p.run (items.map (Attempt.brings i)) = q at hasked hhanded hphase hp'
  rw [← hasked, ← hhanded, hp']
  rcases hphase with hrests | ⟨hstreams, hwhole⟩
  · have hlost : q.run (if ended then [.streamEnded i] else []) = q := by
      refine run_of_not_admits fun m hm => ?_
      cases ended with
      | true =>
        rw [List.mem_singleton.1 hm]
        simp [Feed.Admits, hrests]
      | false => exact absurd hm List.not_mem_nil
    rw [hlost]
    exact ⟨rfl, rfl, fun _ => Or.inr ⟨false, hrests⟩⟩
  · cases ended with
    | true =>
      have hends : q.feed.Admits (.streamEnded i) := hstreams
      rw [if_pos rfl, run_cons, after_of_admits hends]
      exact ⟨List.append_nil _, List.append_nil _, fun _ => Or.inr ⟨false, rfl⟩⟩
    | false =>
      refine ⟨rfl, rfl, fun hover => ?_⟩
      obtain ⟨item, hitem, hbroke⟩ := hover.resolve_left Bool.false_ne_true
      rw [hwhole item hitem] at hbroke
      cases hbroke

theorem run_attempt (i : Nat) (hdue : p.feed.Admits (.requestStream i)) (t : Attempt) :
    (p.run (t.moves i)).asked = p.asked ++ [p.feed.resumePosition] ∧
      (p.run (t.moves i)).handed = p.handed ++ t.deliveries p.feed.peer.name ∧
      (t.IsOver → (p.run (t.moves i)).feed.Admits (.requestStream i)) := by
  let q : Passage := ⟨{ p.feed with phase := .connecting }.course,
    p.asked ++ [p.feed.resumePosition], p.handed ++ []⟩
  have hrequest : p.after (.requestStream i) = q := after_of_admits hdue
  have hhanded : q.handed = p.handed := List.append_nil _
  cases t with
  | pending =>
    rw [Attempt.moves, run_cons, hrequest]
    exact ⟨rfl, rfl, False.elim⟩
  | refused e =>
    have hrefused : q.feed.Admits (.streamRefused i e) := rfl
    rw [Attempt.moves, run_cons, hrequest, run_cons, after_of_admits hrefused, hhanded]
    exact ⟨List.append_nil _, rfl, fun _ => Or.inr ⟨true, rfl⟩⟩
  | streamed items ended =>
    have hopened : q.feed.Admits (.streamOpened i) := rfl
    rw [Attempt.moves, run_cons, hrequest, run_cons, after_of_admits hopened, hhanded]
    obtain ⟨hasked, hread, hover⟩ := run_stream
      (p := ⟨(q.feed.after .default (.streamOpened i)).course, q.asked ++ [], p.handed ++ []⟩)
      i items ended rfl
    refine ⟨hasked.trans (List.append_nil _), hread.trans ?_, hover⟩
    exact congrArg (· ++ _) (List.append_nil _)

/-- Each attempt asks to go on after the highest block that all attempts before it brought. -/
theorem run_attempts (i : Nat) (h : p.Sound peer initial)
    (hdue : p.feed.Admits (.requestStream i)) {tries : List Attempt}
    (hover : ∀ t ∈ tries.dropLast, t.IsOver) :
    (p.run (tries.flatMap (Attempt.moves i))).asked =
        p.asked ++ (List.range tries.length).map (fun k =>
          Delivery.goOn initial (p.handed ++ (tries.take k).flatMap (Attempt.deliveries peer))) ∧
      (p.run (tries.flatMap (Attempt.moves i))).handed =
        p.handed ++ tries.flatMap (Attempt.deliveries peer) := by
  induction tries generalizing p with
  | nil => exact ⟨(List.append_nil _).symm, (List.append_nil _).symm⟩
  | cons t ts ih =>
    obtain ⟨hasked, hhanded, hnext⟩ := run_attempt i hdue t
    rw [h.resumePosition] at hasked
    rw [h.peer] at hhanded
    rw [List.flatMap_cons, run_append, List.length_cons, List.range_succ_eq_map]
    have hsteps : (p.run (t.moves i)).asked ++ (List.range ts.length).map (fun k =>
        Delivery.goOn initial
          ((p.run (t.moves i)).handed ++ (ts.take k).flatMap (Attempt.deliveries peer))) =
        p.asked ++ (0 :: (List.range ts.length).map Nat.succ).map (fun k => Delivery.goOn initial
          (p.handed ++ ((t :: ts).take k).flatMap (Attempt.deliveries peer))) := by
      simp [hasked, hhanded, Function.comp_def]
    rw [← hsteps, List.flatMap_cons, ← List.append_assoc, ← hhanded]
    cases ts with
    | nil => simp [run]
    | cons t' ts =>
      rw [List.dropLast_cons_cons, List.forall_mem_cons] at hover
      exact ih (h.run _) (hnext hover.1) hover.2

end Passage

/-! ## In a client -/

namespace Client

variable {c c' : Client} {m : Move} {i j : Nat} {ms : List Move}

/-- The session is attached to the feed throughout a run, and the feed is not stopped. -/
def Carries (i j : Nat) (c : Client) (ms : List Move) : Prop :=
  ∀ past, past <+: ms → (c.run past).Aboard i j ∧ ¬ (c.run past).Stopped i

theorem Carries.now (h : c.Carries i j ms) : c.Aboard i j ∧ ¬ c.Stopped i := h [] List.nil_prefix

theorem Carries.next (h : c.Carries i j (m :: ms)) : (c.apply m).Carries i j ms :=
  fun past hpast => h (m :: past) (List.cons_prefix_cons.2 ⟨rfl, hpast⟩)

theorem Carries.of_prefix {past : List Move} (h : c.Carries i j ms) (hpast : past <+: ms) :
    c.Carries i j past := fun earlier hearlier => h earlier (hearlier.trans hpast)

/-- The session is on the feed that it is aboard, and on no other. -/
theorem Aboard.only (h : c.Aboard i j) (hc : c.Tidy) : c.Only i j := by
  obtain ⟨f, hf, hj, -⟩ := h
  exact fun k _ g hg hjg => hc.sound.apart hg hf hjg hj

theorem Acts.course {k : Nat} {own : Nat → Prop} (h : Acts k own c c') (hc : c.Tidy) {f : Feed}
    (hf : c.table.feed? i = some f) (hruns : ¬ c'.Stopped i) :
    ∃ f', c'.table.feed? i = some f' ∧ f'.course = f.course := by
  induction h with
  | refl => exact ⟨f, hf, rfl⟩
  | tail hprev hstep ih =>
    have htidy := Acts.tidy hprev hc
    obtain ⟨f', hf', hsame⟩ := ih fun hstopped =>
      hruns (Acts.stopped (.tail .refl hstep) htidy hstopped)
    obtain ⟨f'', hf'', halike⟩ := hstep.feed htidy.sound hf'
    exact ⟨f'', hf'', (halike.course fun hphase => hruns ⟨f'', hf'', hphase⟩).trans hsame⟩

/-- A feed asks for a stream in a move of its own, and then from where it stands. -/
theorem asks?_of_moved (hc : c.Tidy) {f : Feed} (hf : c.table.feed? i = some f)
    (hm : m.feed? = some i) (hadmits : f.Admits m) : (c.asks? i m).toList = f.asks m := by
  by_cases hrequest : m = .requestStream i
  · subst hrequest
    rw [asks?_requestStream hf hadmits, if_pos rfl]
    rfl
  · have hnone : c.asks? i m = none := by
      by_contra hasks
      exact hrequest (request_of_asks? hc hasks).1
    rw [hnone]
    cases m with
    | requestStream k => exact absurd (congrArg Move.requestStream (Option.some.inj hm)) hrequest
    | _ => rfl

theorem asks?_of_not_moved (hc : c.Tidy) {f : Feed} (hf : c.table.feed? i = some f)
    (hno : ¬ (m.feed? = some i ∧ f.Admits m)) : c.asks? i m = none := by
  by_contra hasks
  obtain ⟨rfl, g, hg, hadmits⟩ := request_of_asks? hc hasks
  exact not_moves hf hno hg ⟨rfl, hadmits⟩

/-- Where the feed of an attached session stands, which starts it asked for and what the session
received follow from the moves of the feed. -/
theorem passage_apply (hc : c.Tidy) {f : Feed} (hf : c.table.feed? i = some f)
    (haboard : c.Aboard i j) (hruns : ¬ (c.apply m).Stopped i) (starts : List (Option Nat))
    (ds : List Delivery) :
    ∃ f', (c.apply m).table.feed? i = some f' ∧
      ⟨f'.course, starts ++ (c.asks? i m).toList, ds ++ c.received j m⟩ =
        (⟨f.course, starts, ds⟩ : Passage).run ([m].filter (·.feed? = some i)) := by
  rw [received_eq_handed hc]
  by_cases hmoved : m.feed? = some i ∧ f.Admits m
  · obtain ⟨hm, hadmits⟩ := hmoved
    refine ⟨_, feed_of_moved hf hm hadmits, ?_⟩
    have hcounts : [m].filter (·.feed? = some i) = [m] :=
      List.filter_cons_of_pos (decide_eq_true hm)
    rw [hcounts, Passage.run_cons, Passage.after_of_admits ((f.admits_course m).2 hadmits),
      asks?_of_moved hc hf hm hadmits, handed_of_moved hf hm hadmits, if_pos haboard,
      Feed.course_after, Feed.asks_course, Feed.hands_course]
    rfl
  · have hstays : (⟨f.course, starts, ds⟩ : Passage).run ([m].filter (·.feed? = some i)) =
        ⟨f.course, starts, ds⟩ := by
      refine Passage.run_of_not_admits fun m' hm' => ?_
      obtain ⟨hmem, hfeed⟩ := List.mem_filter.1 hm'
      obtain rfl := List.mem_singleton.1 hmem
      exact fun h => hmoved ⟨of_decide_eq_true hfeed, (f.admits_course m').1 h⟩
    rw [hstays, handed_of_not_moved (haboard.only hc) hf hmoved, asks?_of_not_moved hc hf hmoved,
      List.append_nil, Option.toList_none, List.append_nil]
    rcases not_moved_cases hc (not_moves hf hmoved) with heq | ⟨k, own, hacts⟩
    · exact ⟨f, heq.trans hf, rfl⟩
    · obtain ⟨f', hf', hcourse⟩ := hacts.course hc hf hruns
      exact ⟨f', hf', by rw [hcourse]⟩

theorem passage_run (hc : c.Tidy) {f : Feed} (hf : c.table.feed? i = some f)
    (hcarries : c.Carries i j ms) (starts : List (Option Nat)) (ds : List Delivery) :
    ∃ f', (c.run ms).table.feed? i = some f' ∧
      ⟨f'.course, starts ++ gather (fun c m => (c.asks? i m).toList) c ms,
          ds ++ gather (received j) c ms⟩ =
        (⟨f.course, starts, ds⟩ : Passage).run (ms.filter (·.feed? = some i)) := by
  induction ms generalizing c f starts ds with
  | nil => exact ⟨f, hf, by simp [gather, Passage.run]⟩
  | cons m ms ih =>
    obtain ⟨f', hf', hstep⟩ :=
      passage_apply hc hf hcarries.now.1 hcarries.next.now.2 starts ds
    obtain ⟨f'', hf'', hrest⟩ := ih (hc.apply m) hf' hcarries.next
      (starts ++ (c.asks? i m).toList) (ds ++ c.received j m)
    refine ⟨f'', hf'', ?_⟩
    rw [gather, gather, ← List.append_assoc, ← List.append_assoc, hrest, hstep,
      ← Passage.run_append, ← List.filter_append, List.singleton_append]

/-- The attempts of a feed.  Whatever else happens while a session is attached to a feed that was
just started, each attempt asks to begin where the feed begins if no attempt before it brought a
block, and otherwise after the highest block that any of them brought; the session receives what the
attempts bring, one after the other and nothing else; and the feed knows at every moment the highest
number that the session has received. -/
theorem attempts_go_on_after_highest (channel : Channel) (identity : Identity) (options : Options)
    (past ms : List Move) {i j : Nat} {f : Feed} (tries : List Attempt) :
    let c := (new channel identity options).run past
    c.table.feed? i = some f → f.phase = .launching → f.last = none → c.Carries i j ms →
    ms.filter (·.feed? = some i) = tries.flatMap (Attempt.moves i) →
    (∀ t ∈ tries.dropLast, t.IsOver) →
    gather (fun c m => (c.asks? i m).toList) c ms = (List.range tries.length).map (fun k =>
      Delivery.goOn f.initial ((tries.take k).flatMap (Attempt.deliveries f.peer.name))) ∧
    gather (received j) c ms = tries.flatMap (Attempt.deliveries f.peer.name) ∧
    ∀ earlier, earlier <+: ms → ∃ g, (c.run earlier).table.feed? i = some g ∧
      g.last = (Delivery.numbers (gather (received j) c earlier)).max? := by
  intro c hf hphase hlast hcarries hmoves hover
  have hc : c.Tidy := tidy_run channel identity options past
  let p : Passage := ⟨f.course, [], []⟩
  have hsound : p.Sound f.peer.name f.initial := ⟨rfl, rfl, hlast⟩
  have hdue : p.feed.Admits (.requestStream i) := Or.inl hphase
  obtain ⟨f', -, hrun⟩ := passage_run hc hf hcarries [] []
  obtain ⟨hasked, hhanded⟩ := p.run_attempts i hsound hdue hover
  rw [← hmoves, ← hrun] at hasked hhanded
  refine ⟨by simpa [p] using hasked, by simpa [p] using hhanded, fun earlier hearlier => ?_⟩
  obtain ⟨g, hg, hrun⟩ := passage_run hc hf (hcarries.of_prefix hearlier) [] []
  have hknows := (hsound.run (earlier.filter (·.feed? = some i))).last
  rw [← hrun] at hknows
  exact ⟨g, hg, by simpa [Feed.course] using hknows⟩

/-- A start that runs out of time, a stream that breaks after the blocks seven and five, one that
ends after block six, and one that is not open yet. -/
def downAndUp : List Attempt :=
  [.refused (.timedOut "peer" (.ofMillis 3000)),
    .streamed [.ok (emptyBlock 7), .ok (emptyBlock 5), .error (.streamBroken "peer" "down"),
      .ok (emptyBlock 9)] false,
    .streamed [.ok (emptyBlock 6)] true, .pending]

/-- A listener that begins at block five goes through these attempts, while another is added and
removed. -/
theorem goes_on_after_block_seven :
    let c := (new onePeer ⟨"org", []⟩ .default).run
      [.addListener (.blocks (.app "new")) { startBlock := some 5 }]
    let between (m : Move) : List Move := [.requestStream 1, m, .takeNext 0]
    let ms := .addListener (.blocks (.app "old")) {} ::
      (downAndUp.flatMap (Attempt.moves 0)).flatMap between ++ [.remove (.blocks (.app "old"))]
    c.Carries 0 0 ms ∧ gather (fun c m => (c.asks? 0 m).toList) c ms =
        [some 5, some 5, some 8, some 8] ∧
      gather (received 0) c ms =
        [.fault ⟨"peer", "Request to peer timed out after 3s"⟩, .block "peer" (emptyBlock 7),
          .block "peer" (emptyBlock 5), .fault ⟨"peer", "Event stream error from peer: down"⟩,
          .block "peer" (emptyBlock 6)] ∧
      ∃ g, (c.run ms).table.feed? 0 = some g ∧ g.last = some 7 := by
  intro c between ms
  have hcarries : c.Carries 0 0 ms := by
    have hall : ∀ past ∈ ms.inits, (c.run past).Aboard 0 0 ∧ ¬ (c.run past).Stopped 0 := by
      decide +kernel
    exact fun past hpast => hall past ((List.mem_inits ..).2 hpast)
  have hmoves : ms.filter (·.feed? = some 0) = downAndUp.flatMap (Attempt.moves 0) := rfl
  obtain ⟨hasked, hreceived, hknows⟩ := attempts_go_on_after_highest onePeer ⟨"org", []⟩ .default
    [.addListener (.blocks (.app "new")) { startBlock := some 5 }] ms
    (f := FeedTable.opening .default ⟨"peer", "org", "", .all⟩ .full (some 5) 0) downAndUp
    (by decide +kernel) rfl rfl hcarries hmoves (by decide)
  refine ⟨hcarries, hasked.trans (by decide +kernel), hreceived.trans (by decide +kernel), ?_⟩
  obtain ⟨g, hg, hlast⟩ := hknows ms List.prefix_rfl
  refine ⟨g, hg, hlast.trans ?_⟩
  rw [hreceived]
  decide +kernel

end Client

end LedgerClient
