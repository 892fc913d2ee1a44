import LedgerClient.Proofs.Documents
import Mathlib.Data.List.Induction

/-!
# Checkpoint files

An update of a checkpoint file is all or nothing, whatever becomes of its two steps
(`CheckpointFile.update_atomic`), and a file that nobody else touches holds what the same changes
make of a checkpoint in memory, wherever it is dropped and opened again
(`CheckpointFile.run_eq_inMemory`).  Both rest on what an update does to the disk: it puts a whole
new document in the place of the old one, or it touches nothing but the temporary file
(`CheckpointFile.persist_cases`).
-/

namespace LedgerClient

/-! ## Files on a disk -/

namespace Disk

@[simp] theorem node?_erase (d : Disk) (p q : String) :
    (d.erase p).node? q = if q = p then none else d.node? q := by
  unfold erase node?
  split_ifs with h
  · subst h
    simp
  · rw [List.find?_filter]
    congr 1
    refine congrArg (fun f => d.nodes.find? f) (funext fun x => ?_)
    by_cases hx : x.1 = q
    · simp [hx, h]
    · simp [hx]

@[simp] theorem node?_put (d : Disk) (p q : String) (n : Node) :
    (d.put p n).node? q = if q = p then some n else d.node? q := by
  have hput : (d.put p n).node? q =
      (((d.erase p).nodes.find? (·.1 = q)).or ([(p, n)].find? (·.1 = q))).map (·.2) := by
    rw [← List.find?_append]
    rfl
  have herase := node?_erase d p q
  unfold node? at herase
  rw [hput]
  split_ifs at herase ⊢ with h
  · rw [Option.map_eq_none_iff] at herase
    rw [herase, h]
    simp
  · have hne : p ≠ q := fun heq => h heq.symm
    have hlast : [(p, n)].find? (fun x => decide (x.1 = q)) = none := by simp [hne]
    rw [hlast, Option.or_none, herase]
    rfl

/-- Puts a node under a path, or takes away what stands there. -/
def replace (d : Disk) (p : String) : Option Node → Disk
  | some n => d.put p n
  | none => d.erase p

theorem node?_replace (d : Disk) (p q : String) (n : Option Node) :
    (d.replace p n).node? q = if q = p then n else d.node? q := by
  cases n with
  | none => exact node?_erase d p q
  | some n => exact node?_put d p q n

theorem node?_of_write? {d d' : Disk} {p : String} {content : Bytes}
    (h : d.write? p content = some d') (q : String) :
    d'.node? q = if q = p then some (.file content) else d.node? q := by
  unfold write? at h
  split_ifs at h
  obtain rfl := Option.some.inj h
  exact node?_put d p q _

theorem node?_of_rename? {d d' : Disk} {p target : String} (h : d.rename? p target = some d') :
    ∃ content, d.node? p = some (.file content) ∧ ∀ q, d'.node? q =
      if q = target then some (.file content) else if q = p then none else d.node? q := by
  unfold rename? at h
  split at h
  · rename_i content hp
    refine ⟨content, hp, fun q => ?_⟩
    rw [node?_of_write? h, node?_erase]
  · cases h

/-! ### The folders that a path lies in -/

theorem length_of_mem_ancestors {path folder : String} (h : folder ∈ ancestors path) :
    folder.length < path.length := by
  unfold ancestors at h
  simp only [List.mem_map, List.mem_filter, List.mem_range] at h
  obtain ⟨i, ⟨hi, -⟩, rfl⟩ := h
  rw [← String.length_toList, ← String.length_toList, String.toList_ofList, List.length_take]
  omega

theorem parent?_mem_ancestors {path folder : String} (h : parent? path = some folder) :
    folder ∈ ancestors path := by
  unfold parent? at h
  split at h
  · cases h
  · rename_i c rest hdrop
    obtain rfl := Option.some.inj h
    have hc : c = '/' := by
      have := List.head?_dropWhile_not (· ≠ '/') path.toList.reverse
      rw [hdrop] at this
      simpa using this
    subst hc
    have hpath : path.toList = rest.reverse ++ '/' ::
        (path.toList.reverse.takeWhile (· ≠ '/')).reverse := by
      have := List.takeWhile_append_dropWhile (p := (· ≠ '/')) (l := path.toList.reverse)
      rw [hdrop] at this
      have := congrArg List.reverse this
      simpa using this.symm
    unfold ancestors
    simp only [List.mem_map, List.mem_filter, List.mem_range]
    refine ⟨rest.length, ⟨?_, ?_⟩, ?_⟩
    · rw [hpath]
      simp
    · rw [hpath]
      simp
    · rw [hpath]
      simp

theorem hasParent_congr {d d' : Disk} {path : String}
    (h : ∀ folder ∈ ancestors path, d'.node? folder = d.node? folder) :
    d'.hasParent path = d.hasParent path := by
  unfold hasParent
  split
  · rfl
  · rename_i folder hfolder
    rw [h folder (parent?_mem_ancestors hfolder)]

theorem isBlocked_congr {d d' : Disk} {path : String}
    (h : ∀ folder ∈ ancestors path, d'.node? folder = d.node? folder) :
    d'.isBlocked path = d.isBlocked path := by
  unfold isBlocked
  rw [Bool.eq_iff_iff, List.any_eq_true, List.any_eq_true]
  refine exists_congr fun folder => and_congr_right fun hmem => ?_
  rw [h folder hmem]

end Disk

namespace CheckpointFile

open Disk

/-! ## The temporary file -/

theorem length_temporary (path : String) : (temporary path).length = path.length + 4 := by
  rw [temporary, String.length_append]
  rfl

theorem temporary_ne (path : String) : temporary path ≠ path := by
  intro h
  have := length_temporary path
  rw [h] at this
  omega

theorem temporary_not_mem_ancestors (path : String) : temporary path ∉ ancestors path := by
  intro h
  have := length_of_mem_ancestors h
  have := length_temporary path
  omega

theorem self_not_mem_ancestors (path : String) : path ∉ ancestors path := fun h =>
  Nat.lt_irrefl _ (length_of_mem_ancestors h)

theorem parent?_temporary (path : String) : parent? (temporary path) = parent? path := by
  have hdrop : (temporary path).toList.reverse.dropWhile (· ≠ '/') =
      path.toList.reverse.dropWhile (· ≠ '/') := by
    simp [temporary]
  unfold parent?
  rw [hdrop]

theorem hasParent_temporary (d : Disk) (path : String) :
    d.hasParent (temporary path) = d.hasParent path := by
  unfold hasParent
  rw [parent?_temporary]

/-! ## What an update does to the disk -/

/-- Writing a document either puts it in the place of the old one and leaves no temporary file, or
touches nothing but the temporary file. -/
theorem persist_cases {d d' : Disk} {path : String} {content : Bytes} {fate : Fate}
    {ending : UpdateEnd} (h : persist d path content fate = (d', ending)) :
    (ending = .done ∧ d'.node? path = some (.file content) ∧ d'.node? (temporary path) = none ∧
      ∀ q, q ≠ path → q ≠ temporary path → d'.node? q = d.node? q) ∨
    (ending ≠ .done ∧ ∀ q, q ≠ temporary path → d'.node? q = d.node? q) := by
  have hwrite : ∀ {d₁ : Disk} {bytes : Bytes}, d.write? (temporary path) bytes = some d₁ →
      ∀ q, q ≠ temporary path → d₁.node? q = d.node? q := fun hw q hq => by
    rw [node?_of_write? hw, if_neg hq]
  obtain ⟨write, rename⟩ := fate
  cases write with
  | refused =>
    obtain ⟨rfl, rfl⟩ := Prod.mk.inj h
    exact Or.inr ⟨by simp, fun _ _ => rfl⟩
  | cut bytes =>
    cases hw : d.write? (temporary path) (content.take bytes) with
    | none =>
      obtain ⟨rfl, rfl⟩ : d = d' ∧ _ = ending := by simpa [persist, hw] using h
      exact Or.inr ⟨by simp, fun _ _ => rfl⟩
    | some d₁ =>
      obtain ⟨rfl, rfl⟩ : d₁ = d' ∧ _ = ending := by simpa [persist, hw] using h
      exact Or.inr ⟨by simp, hwrite hw⟩
  | completes =>
    cases hw : d.write? (temporary path) content with
    | none =>
      obtain ⟨rfl, rfl⟩ : d = d' ∧ _ = ending := by simpa [persist, hw] using h
      exact Or.inr ⟨by simp, fun _ _ => rfl⟩
    | some d₁ =>
      cases rename with
      | never | refused =>
        obtain ⟨rfl, rfl⟩ : d₁ = d' ∧ _ = ending := by simpa [persist, hw] using h
        exact Or.inr ⟨by simp, hwrite hw⟩
      | completes =>
        cases hr : d₁.rename? (temporary path) path with
        | none =>
          obtain ⟨rfl, rfl⟩ : d₁ = d' ∧ _ = ending := by simpa [persist, hw, hr] using h
          exact Or.inr ⟨by simp, hwrite hw⟩
        | some d₂ =>
          obtain ⟨rfl, rfl⟩ : d₂ = d' ∧ _ = ending := by simpa [persist, hw, hr] using h
          obtain ⟨moved, htemp, hnodes⟩ := node?_of_rename? hr
          obtain rfl : content = moved := by
            rw [node?_of_write? hw, if_pos rfl] at htemp
            exact Node.file.inj (Option.some.inj htemp)
          refine Or.inl ⟨rfl, by rw [hnodes, if_pos rfl], ?_, fun q hpath hq => ?_⟩
          · rw [hnodes, if_neg (temporary_ne path), if_pos rfl]
          · rw [hnodes, if_neg hpath, if_neg hq, hwrite hw q hq]

theorem persist_smooth {d : Disk} {path : String} (hparent : d.hasParent path = true)
    (hpath : d.node? path ≠ some .folder) (htemp : d.node? (temporary path) ≠ some .folder)
    (content : Bytes) : (persist d path content .smooth).2 = .done := by
  have hwrite : d.write? (temporary path) content =
      some (d.put (temporary path) (.file content)) := by
    rw [write?, hasParent_temporary, hparent, if_pos (by simpa using htemp)]
  have hrename : ((d.put (temporary path) (.file content)).rename? (temporary path) path).isSome
      := by
    have hsame : ∀ q, q ≠ temporary path →
        ((d.put (temporary path) (.file content)).erase (temporary path)).node? q = d.node? q :=
      fun q hq => by rw [node?_erase, if_neg hq, node?_put, if_neg hq]
    have hplace : ((d.put (temporary path) (.file content)).erase (temporary path)).hasParent path =
        true := by
      rw [← hparent]
      refine hasParent_congr fun folder hfolder => hsame folder fun heq => ?_
      exact temporary_not_mem_ancestors path (heq ▸ hfolder)
    rw [rename?, node?_put, if_pos rfl]
    simp only [write?, hplace, hsame path (temporary_ne path).symm, Bool.true_and]
    rw [if_pos (by simpa using hpath)]
    rfl
  obtain ⟨d', hd'⟩ := Option.isSome_iff_exists.1 hrename
  simp only [persist, Fate.smooth, hwrite, Option.map_some, hd']

/-! ## Opening -/

/-- Opening looks at the path and at the folders that it lies in. -/
theorem openAt_congr {d d' : Disk} {path : String} (hpath : d'.node? path = d.node? path)
    (hfolders : ∀ folder ∈ ancestors path, d'.node? folder = d.node? folder) :
    openAt d' path = openAt d path := by
  unfold openAt
  rw [hpath, isBlocked_congr hfolders]

theorem openAt_document {d : Disk} {path : String} {c : Checkpoint} {stamp : String}
    (hc : c.Storable) (h : d.node? path = some (.file (Bytes.ofText (c.document stamp)))) :
    openAt d path = .ok ⟨path, c⟩ := by
  unfold openAt
  rw [h]
  dsimp only
  rw [Bytes.fromUTF8?_ofText]
  dsimp only
  rw [hc.read_document]

theorem openAt_ok {d : Disk} {path : String} {f : CheckpointFile} (h : openAt d path = .ok f) :
    f.path = path ∧ f.state.Storable := by
  unfold openAt at h
  split at h
  · split_ifs at h
    obtain rfl := Except.ok.inj h
    exact ⟨rfl, Checkpoint.storable_empty⟩
  · cases h
  · split at h
    · cases h
    · split at h
      · cases h
      · rename_i state hread
        obtain rfl := Except.ok.inj h
        obtain ⟨j, -, hj⟩ := Option.bind_eq_some_iff.1 hread
        exact ⟨rfl, Checkpoint.storable_of_ofJson? hj⟩

/-! ## Updates are atomic -/

section Update

variable {d d' : Disk} {f f' : CheckpointFile} {change : CheckpointChange} {stamp : String}
  {fate : Fate} {ending : UpdateEnd}

/-- What an update does: nothing, where the change leaves the checkpoint as it is; or it puts the
new document in place and takes over the new checkpoint; or it keeps the old one and touches
nothing but the temporary file. -/
theorem update_cases (h : update d f change stamp fate = (d', f', ending)) :
    (isIdle f.state change = true ∧ d' = d ∧ f' = f ∧ ending = .done) ∨
    (isIdle f.state change = false ∧ ending = .done ∧ f' = ⟨f.path, f.state.apply change⟩ ∧
      d'.node? f.path = some (.file (Bytes.ofText ((f.state.apply change).document stamp))) ∧
      d'.node? (temporary f.path) = none ∧
      ∀ q, q ≠ f.path → q ≠ temporary f.path → d'.node? q = d.node? q) ∨
    (isIdle f.state change = false ∧ ending ≠ .done ∧ f' = f ∧
      ∀ q, q ≠ temporary f.path → d'.node? q = d.node? q) := by
  unfold update at h
  split_ifs at h with hidle
  · obtain ⟨rfl, rfl, rfl⟩ : d = d' ∧ f = f' ∧ UpdateEnd.done = ending := by simpa using h
    exact Or.inl ⟨hidle, rfl, rfl, rfl⟩
  · rw [Bool.not_eq_true] at hidle
    dsimp only at h
    obtain ⟨d₁, e, hpersist⟩ : ∃ d₁ e, persist d f.path
        (Bytes.ofText ((f.state.apply change).document stamp)) fate = (d₁, e) := ⟨_, _, rfl⟩
    rw [hpersist] at h
    refine Or.inr ?_
    rcases persist_cases hpersist with ⟨rfl, hpath, htemp, hothers⟩ | ⟨hnot, hothers⟩
    · obtain ⟨rfl, rfl, rfl⟩ : d₁ = d' ∧ _ = f' ∧ UpdateEnd.done = ending := by simpa using h
      exact Or.inl ⟨hidle, rfl, rfl, hpath, htemp, hothers⟩
    · obtain ⟨rfl, rfl, rfl⟩ : d₁ = d' ∧ f = f' ∧ e = ending := by
        cases e with
        | done => exact absurd rfl hnot
        | failed cause | stopped => simpa using h
      exact Or.inr ⟨hidle, hnot, rfl, hothers⟩

theorem update_smooth (hparent : d.hasParent f.path = true)
    (hpath : d.node? f.path ≠ some .folder) (htemp : d.node? (temporary f.path) ≠ some .folder)
    (change : CheckpointChange) (stamp : String) :
    (update d f change stamp .smooth).2.2 = .done := by
  have hdone := persist_smooth hparent hpath htemp
    (Bytes.ofText ((f.state.apply change).document stamp))
  unfold update
  split_ifs
  · rfl
  · dsimp only
    split
    · rfl
    · rename_i d' ending hnot hpersist
      rw [hpersist] at hdone
      exact hdone

/-- What can have become of a checkpoint file in memory: it was opened at a path, and then updated,
each time on whatever the disk had become, with whatever became of the two steps. -/
inductive Opened : CheckpointFile → Prop
  | opened {d : Disk} {path : String} {f : CheckpointFile} (h : openAt d path = .ok f) : Opened f
  | updated {f f' : CheckpointFile} {d d' : Disk} {change : CheckpointChange} {stamp : String}
      {fate : Fate} {ending : UpdateEnd} (h : Opened f) (hfit : change.Fits)
      (hupdate : update d f change stamp fate = (d', f', ending)) : Opened f'

theorem Opened.storable (h : Opened f) : f.state.Storable := by
  induction h with
  | opened h => exact (openAt_ok h).2
  | updated _ hfit hupdate ih =>
    obtain ⟨-, -, rfl, -⟩ | ⟨-, -, rfl, -⟩ | ⟨-, -, rfl, -⟩ := update_cases hupdate
    · exact ih
    · exact ih.apply hfit
    · exact ih

/-- An update is all or nothing.  The path holds what it held or the whole new document.  Unless
the update is done, the checkpoint in memory and the file are as they were, and the path opens as
before; when it is done, the checkpoint has taken the change, and if anything had to be written the
path opens as the new checkpoint.  A file and a memory that agree agree afterwards, and nothing
else than the path and the temporary file is touched. -/
theorem update_atomic (hf : Opened f) (hfit : change.Fits)
    (h : update d f change stamp fate = (d', f', ending)) :
    (d'.node? f.path = d.node? f.path ∨
      d'.node? f.path = some (.file (Bytes.ofText ((f.state.apply change).document stamp)))) ∧
    (ending ≠ .done → f' = f ∧ d'.node? f.path = d.node? f.path ∧
      openAt d' f.path = openAt d f.path) ∧
    (ending = .done → f' = ⟨f.path, f.state.apply change⟩ ∧
      (isIdle f.state change = true → d' = d) ∧
      (isIdle f.state change = false →
        d'.node? f.path = some (.file (Bytes.ofText (f'.state.document stamp))) ∧
        openAt d' f.path = .ok f')) ∧
    (openAt d f.path = .ok f → openAt d' f.path = .ok f') ∧
    ∀ q, q ≠ f.path → q ≠ temporary f.path → d'.node? q = d.node? q := by
  have hs := hf.storable
  rcases update_cases h with ⟨hidle, rfl, rfl, rfl⟩ | ⟨hidle, rfl, rfl, hpath, -, hothers⟩ |
    ⟨hidle, hnot, rfl, hothers⟩
  · have hsame : f'.state.apply change = f'.state := hs.apply_idle hidle
    refine ⟨Or.inl rfl, fun hnot => absurd rfl hnot, fun _ => ⟨?_, fun _ => rfl, ?_⟩, fun ho => ho,
      fun _ _ _ => rfl⟩
    · rw [hsame]
    · simp [hidle]
  · have hopen := openAt_document (hs.apply hfit) hpath
    exact ⟨Or.inr hpath, fun hnot => absurd rfl hnot, fun _ => ⟨rfl, by simp [hidle],
      fun _ => ⟨hpath, hopen⟩⟩, fun _ => hopen, hothers⟩
  · have hsame := hothers f'.path (temporary_ne f'.path).symm
    have hopen : openAt d' f'.path = openAt d f'.path :=
      openAt_congr hsame fun folder hfolder =>
        hothers folder fun heq => temporary_not_mem_ancestors f'.path (heq ▸ hfolder)
    exact ⟨Or.inl hsame, fun _ => ⟨rfl, hsame, hopen⟩, fun hdone => absurd hdone hnot,
      fun ho => hopen.trans ho, fun q _ hq => hothers q hq⟩

end Update

/-- A file whose first writing is cut short, and whose second one goes well. -/
theorem update_atomic_after_failure :
    let f : CheckpointFile := ⟨"listener.json", .empty⟩
    let torn := update .blank f (.moveTo 7) "09:00" ⟨.cut 5, .completes⟩
    let whole := update torn.1 torn.2.1 (.moveTo 7) "09:01" .smooth
    torn.2.1 = f ∧ torn.1.node? "listener.json" = none ∧
      whole.1.node? "listener.json" =
        some (.file (Bytes.ofText ((Checkpoint.startingAt 7).document "09:01"))) ∧
      openAt whole.1 "listener.json" = .ok ⟨"listener.json", .startingAt 7⟩ := by
  intro f torn whole
  have hparts : ∀ r : Disk × CheckpointFile × UpdateEnd, r = (r.1, r.2.1, r.2.2) := fun _ => rfl
  have hopened : Opened f := by
    have hblank : openAt .blank "listener.json" = .ok f := rfl
    exact .opened hblank
  have hfit : (CheckpointChange.moveTo 7).Fits := by decide
  have hfailed : torn.2.2 ≠ .done := by decide
  have hdone : whole.2.2 = .done := by decide +kernel
  obtain ⟨-, hkept, -⟩ := update_atomic hopened hfit (hparts torn)
  obtain ⟨hmemory, hfile, -⟩ := hkept hfailed
  obtain ⟨-, -, htaken, -⟩ :=
    update_atomic (.updated hopened hfit (hparts torn)) hfit (hparts whole)
  obtain ⟨hnext, -, hwritten⟩ := htaken hdone
  obtain ⟨hdocument, hopen⟩ := hwritten rfl
  rw [hnext, hmemory] at hdocument hopen
  exact ⟨hmemory, hfile, hdocument, hopen⟩

/-! ## A file across restarts -/

/-- What befalls a checkpoint file while it can be read and written and nobody else touches it: it
is changed, it is dropped and opened again, or somebody puts something under another path or takes
it away. -/
inductive Access where
  | change (c : CheckpointChange) (stamp : String)
  | reopen
  | elsewhere (place : String) (node : Option Node)

namespace Access

/-- Another path is neither the file's nor the temporary file's nor that of a folder around them. -/
def Fits (path : String) : Access → Prop
  | .change c _ => c.Fits
  | .reopen => True
  | .elsewhere place _ => place ≠ path ∧ place ≠ temporary path ∧ place ∉ ancestors path

/-- What a checkpoint in memory takes of it. -/
def inMemory (c : Checkpoint) : Access → Checkpoint
  | .change x _ => c.apply x
  | .reopen => c
  | .elsewhere _ _ => c

end Access

/-- The disk and the open file after an access; none when it fails. -/
def access (s : Disk × CheckpointFile) : Access → Option (Disk × CheckpointFile)
  | .change c stamp =>
    match update s.1 s.2 c stamp .smooth with
    | (d, f, .done) => some (d, f)
    | _ => none
  | .reopen => (openAt s.1 s.2.path).toOption.map fun f => (s.1, f)
  | .elsewhere place node => some (s.1.replace place node, s.2)

/-- The disk and the open file after one access after another; none when one of them fails. -/
def run (s : Disk × CheckpointFile) (es : List Access) : Option (Disk × CheckpointFile) :=
  es.foldlM access s

/-- The checkpoint that the same changes make in memory, with no file to drop and open again. -/
def inMemory (es : List Access) : Checkpoint := es.foldl Access.inMemory .empty

/-- A path with no file, where one can be written. -/
structure Vacant (d : Disk) (path : String) : Prop where
  missing : d.node? path = none
  hasParent : d.hasParent path = true
  clear : d.isBlocked path = false
  writable : d.node? (temporary path) ≠ some .folder

/-- An open file that agrees with the disk and can be written. -/
structure InStep (path : String) (d : Disk) (f : CheckpointFile) : Prop where
  path_eq : f.path = path
  opens : openAt d path = .ok f
  hasParent : d.hasParent path = true
  writable : d.node? (temporary path) ≠ some .folder

section Access

variable {path : String} {d d' : Disk} {f : CheckpointFile}

theorem InStep.storable (h : InStep path d f) : f.state.Storable := (openAt_ok h.opens).2

theorem InStep.path_not_folder (h : InStep path d f) : d.node? path ≠ some .folder := by
  intro hfolder
  have hopens := h.opens
  simp only [openAt, hfolder] at hopens
  cases hopens

theorem Vacant.inStep (h : Vacant d path) : InStep path d ⟨path, .empty⟩ := by
  refine ⟨rfl, ?_, h.hasParent, h.writable⟩
  simp only [openAt, h.missing, h.clear, Bool.false_eq_true, if_false]

theorem InStep.congr (h : InStep path d f) (hpath : d'.node? path = d.node? path)
    (htemp : d'.node? (temporary path) ≠ some .folder)
    (hfolders : ∀ folder ∈ ancestors path, d'.node? folder = d.node? folder) :
    InStep path d' f :=
  ⟨h.path_eq, (openAt_congr hpath hfolders).trans h.opens,
    (hasParent_congr hfolders).trans h.hasParent, htemp⟩

/-- An access to a file in step with the disk succeeds, keeps it in step and does to the checkpoint
what it does in memory; the path is left alone or holds the new document. -/
theorem InStep.access (h : InStep path d f) {e : Access} (hfit : e.Fits path) :
    ∃ d' f', access (d, f) e = some (d', f') ∧ InStep path d' f' ∧
      f'.state = e.inMemory f.state ∧
      (d'.node? path = d.node? path ∧ f'.state = f.state ∨
        ∃ c stamp, e = .change c stamp ∧
          d'.node? path = some (.file (Bytes.ofText (f'.state.document stamp)))) := by
  cases e with
  | reopen =>
    refine ⟨d, f, ?_, h, rfl, Or.inl ⟨rfl, rfl⟩⟩
    simp only [CheckpointFile.access, h.path_eq, h.opens]
    rfl
  | elsewhere place node =>
    obtain ⟨hpath, htemp, hfolders⟩ := hfit
    have hother : ∀ q, place ≠ q → (d.replace place node).node? q = d.node? q := fun q hq => by
      rw [node?_replace, if_neg (Ne.symm hq)]
    refine ⟨d.replace place node, f, rfl, h.congr (hother path hpath) ?_ fun folder hfolder => ?_,
      rfl, Or.inl ⟨hother path hpath, rfl⟩⟩
    · rw [hother _ htemp]
      exact h.writable
    · exact hother folder fun heq => hfolders (heq ▸ hfolder)
  | change c stamp =>
    obtain rfl := h.path_eq
    obtain ⟨d', f', ending, hupdate⟩ : ∃ d' f' ending,
        update d f c stamp .smooth = (d', f', ending) := ⟨_, _, _, rfl⟩
    rcases update_cases hupdate with ⟨hidle, rfl, rfl, rfl⟩ | ⟨-, rfl, rfl, hnew, htemp, hothers⟩ |
      ⟨hidle, hnot, -, -⟩
    · have hsame : f'.state.apply c = f'.state := h.storable.apply_idle hidle
      refine ⟨d', f', ?_, h, hsame.symm, Or.inl ⟨rfl, rfl⟩⟩
      simp only [CheckpointFile.access, hupdate]
    · have hs := h.storable.apply hfit
      have hfolders : ∀ folder ∈ ancestors f.path, d'.node? folder = d.node? folder :=
        fun folder hfolder => hothers folder
          (fun heq => self_not_mem_ancestors f.path (heq ▸ hfolder))
          fun heq => temporary_not_mem_ancestors f.path (heq ▸ hfolder)
      refine ⟨d', ⟨f.path, f.state.apply c⟩, ?_, ⟨rfl, openAt_document hs hnew, ?_, ?_⟩, rfl,
        Or.inr ⟨c, stamp, rfl, hnew⟩⟩
      · simp only [CheckpointFile.access, hupdate]
      · rw [hasParent_congr hfolders, h.hasParent]
      · rw [htemp]
        simp
    · have hdone := update_smooth h.hasParent h.path_not_folder h.writable c stamp
      rw [hupdate] at hdone
      exact absurd hdone hnot

theorem storable_inMemory {es : List Access} (hes : ∀ e ∈ es, e.Fits path) :
    (inMemory es).Storable := by
  induction es using List.reverseRecOn with
  | nil => exact Checkpoint.storable_empty
  | append_singleton es e ih =>
    simp only [List.forall_mem_append, List.forall_mem_singleton] at hes
    rw [inMemory, List.foldl_concat]
    cases e with
    | change c stamp => exact (ih hes.1).apply hes.2
    | reopen | elsewhere place node => exact ih hes.1

/-- The path holds the document of a checkpoint, as one of the accesses wrote it, or nothing when
the checkpoint is empty still. -/
def Holds (path : String) (d : Disk) (c : Checkpoint) (es : List Access) : Prop :=
  (d.node? path = none ∧ c = .empty) ∨
    ∃ change stamp, .change change stamp ∈ es ∧
      d.node? path = some (.file (Bytes.ofText (c.document stamp)))

theorem Vacant.run (hd : Vacant d path) {es : List Access} (hes : ∀ e ∈ es, e.Fits path) :
    ∃ d' f', run (d, ⟨path, .empty⟩) es = some (d', f') ∧ InStep path d' f' ∧
      f'.state = inMemory es ∧ Holds path d' f'.state es := by
  induction es using List.reverseRecOn with
  | nil => exact ⟨d, _, rfl, hd.inStep, rfl, Or.inl ⟨hd.missing, rfl⟩⟩
  | append_singleton es e ih =>
    simp only [List.forall_mem_append, List.forall_mem_singleton] at hes
    obtain ⟨d₁, f₁, hrun, hstep, hstate, hholds⟩ := ih hes.1
    obtain ⟨d', f', haccess, hstep', hstate', hpath⟩ := hstep.access hes.2
    refine ⟨d', f', ?_, hstep', ?_, ?_⟩
    · rw [CheckpointFile.run, List.foldlM_append, ← CheckpointFile.run, hrun]
      simp [haccess]
    · rw [hstate', hstate, inMemory, inMemory, List.foldl_concat]
    · rcases hpath with ⟨hsame, hsame'⟩ | ⟨c, stamp, rfl, hnew⟩
      · unfold Holds
        rw [hsame, hsame']
        refine hholds.imp_right ?_
        rintro ⟨c, stamp, hmem, hfile⟩
        exact ⟨c, stamp, List.mem_append_left _ hmem, hfile⟩
      · exact Or.inr ⟨c, stamp, by simp, hnew⟩

/-- A checkpoint file behaves as a checkpoint in memory across restarts.  From a path with no file,
every sequence of changes with drops and openings in between, and other paths written meanwhile,
succeeds and leaves the checkpoint that the changes alone make in memory.  The path holds its
document, it opens as this checkpoint, and the document is read as it whatever the time in it.
Another order of changes that comes to the same block and the same set of ids comes to the same
document. -/
theorem run_eq_inMemory (hd : Vacant d path) {es : List Access} (hes : ∀ e ∈ es, e.Fits path) :
    ∃ f d' f', openAt d path = .ok f ∧ run (d, f) es = some (d', f') ∧
      f'.state = inMemory es ∧ openAt d' path = .ok f' ∧ Holds path d' f'.state es ∧
      f'.state.delivered.Pairwise (· < ·) ∧
      (∀ stamp, (Json.read (f'.state.document stamp)).bind Checkpoint.ofJson? = some f'.state) ∧
      ∀ es' : List Access, (∀ e ∈ es', e.Fits path) → (inMemory es').next = f'.state.next →
        (∀ id, id ∈ (inMemory es').delivered ↔ id ∈ f'.state.delivered) →
        ∀ stamp, (inMemory es').document stamp = f'.state.document stamp := by
  obtain ⟨d', f', hrun, hstep, hstate, hholds⟩ := hd.run hes
  refine ⟨_, d', f', hd.inStep.opens, hrun, hstate, hstep.opens, hholds,
    hstep.storable.sorted, hstep.storable.read_document, fun es' hes' hnext hids stamp => ?_⟩
  rw [(storable_inMemory hes').ext hstep.storable hnext hids]

end Access

/-- Ids with a quote, a backslash, a line break and letters beyond ASCII, with openings between. -/
theorem run_eq_inMemory_ids :
    ∃ d' f', run (.blank, ⟨"listener.json", .empty⟩)
        [.change (.moveTo 42) "09:00", .change (.record "tx-\"b\\\n") "09:01", .reopen,
          .elsewhere "other.json" (some .folder), .change (.record "t\u00e4-\u4e2d") "09:02",
          .change (.record "tx-\"b\\\n") "09:03", .reopen] = some (d', f') ∧
      f'.state = ⟨some 42, ["tx-\"b\\\n", "t\u00e4-\u4e2d"]⟩ ∧
      openAt d' "listener.json" = .ok f' := by
  have hd : Vacant .blank "listener.json" := ⟨rfl, rfl, rfl, by decide⟩
  have hes : ∀ e ∈ ([.change (.moveTo 42) "09:00", .change (.record "tx-\"b\\\n") "09:01", .reopen,
      .elsewhere "other.json" (some .folder), .change (.record "t\u00e4-\u4e2d") "09:02",
      .change (.record "tx-\"b\\\n") "09:03", .reopen] : List Access),
      e.Fits "listener.json" := by
    simp only [List.forall_mem_cons, Access.Fits]
    exact ⟨by decide, trivial, trivial, by decide, trivial, trivial, trivial, by simp⟩
  obtain ⟨f, d', f', hopen, hrun, hstate, hopen', -⟩ := run_eq_inMemory hd hes
  obtain rfl : f = ⟨"listener.json", .empty⟩ := by
    rw [hd.inStep.opens] at hopen
    exact (Except.ok.inj hopen).symm
  exact ⟨d', f', hrun, hstate.trans (by decide +kernel), hopen'⟩

end CheckpointFile

end LedgerClient
