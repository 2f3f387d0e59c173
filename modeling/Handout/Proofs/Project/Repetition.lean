import Handout.Proofs.Files.Store
import Handout.Proofs.Project.Classification
import Handout.Proofs.Project.Update

/-!
# Installing an exercise again

An exercise is installed in a project when its directories are there and each of its files is there or is kept
(`Setting.IsInstalled`).  Installing it again makes no directory, and every file that it writes is there already: no step
fails, and all that is stored outside the temporary directory stays as it is (`install_still`).
-/

namespace Handout

open Handout.Action

variable {s : Session} {project : Path} {loc : Location} {rel : List String} {e : Ecosystem} {c : Config}

/-- Judging what exists fails only if a zero character occurs in the configuration. -/
theorem Policy.judge_succeeds (hs : s.Rooted project loc) (hc : c.Inside) (hzero : c.NoZero) (hp : ∀ x ∈ rel, IsPlain x)
    (hn : s.files.get? (loc ++ rel) ≠ none) :
    ∃ v, (judge e c (project.append rel) project).perform s = (.ok v, s) := by
  have hexists : (pathExists (project.append rel)).perform s = (.ok true, s) := by
    unfold pathExists
    rw [perform_query, hs.exists? hp hn]
  unfold judge
  rw [perform_bind_ok hexists, Bool.not_true, if_neg Bool.false_ne_true]
  split
  · exact ⟨_, rfl⟩
  · have hensures := classifyExisting_ensures (P := fun t => t = s) (E := fun _ _ => False) (e := e)
      (fun t ht => ht ▸ hs) hc (fun t ht => ht ▸ hs.resolve?_of_exists hp hn) true fun _ _ _ h => h hzero
    obtain ⟨v, t, hperform, rfl, -⟩ := hensures.succeeds rfl
    exact ⟨v, hperform⟩

namespace Project

variable {u : Setting} {data : Bytes} {executable : Bool}

/-- The exercise is installed in the project before the update: what is missing would be kept.  The policy can load a
configuration and judge by it, and the unpacked exercise can be listed. -/
structure Setting.IsInstalled (u : Setting) (e : Ecosystem) (c : Config) : Prop where
  kind : u.policy.kind = .ecosystem e
  leads : u.before.LeadsTo u.project u.loc
  load : ((Config.load u.project).perform u.before).1 = .ok c
  noZero : c.NoZero
  unlocked : ∀ rel, Location.path (u.root ++ rel) ∉ u.before.locked
  directories : ∀ rel, u.exercise? rel = some .directory → u.before.files.get? (u.loc ++ rel) = some .directory
  files : ∀ rel data executable, u.exercise? rel = some (.file data executable) →
    u.Keeps rel ∨ ∃ flag, u.before.files.get? (u.loc ++ rel) = some (.file data flag)

/-- A file of an installed exercise has something in its place. -/
theorem Setting.IsInstalled.there (h : u.IsInstalled e c) (hu : u.Valid)
    (hfile : u.exercise? rel = some (.file data executable)) : u.before.files.get? (u.loc ++ rel) ≠ none := by
  rcases h.files rel data executable hfile with hkeep | ⟨flag, hflag⟩
  · exact fun hnone => not_keeps_of_none hu hfile hnone hkeep
  · rw [hflag]
    exact Option.some_ne_none _

/-- Since the exercise was unpacked, nothing has changed, but the policy may have loaded its configuration. -/
structure Still (u : Setting) (c : Config) (s : Session) : Prop where
  sound : s.Sound
  scratchDir : s.scratch = u.before.scratch
  workingDir : s.workingDir = u.before.workingDir
  locked : s.locked = u.before.locked
  scratch : ∀ rel, s.files.get? (u.before.scratch ++ rel) = u.files.get? (u.before.scratch ++ rel)
  same : ∀ x, u.Outside x → s.files.get? x = u.before.files.get? x
  loaded : s.loaded.lookup u.policy.number = none ∨ s.loaded.lookup u.policy.number = some c

namespace Still

/-- The course of an update on which nothing has had its turn. -/
theorem underway (h : Still u c s) (hu : u.Valid) (hi : u.IsInstalled e c) : Underway u [] s where
  sound := h.sound
  scratchDir := h.scratchDir
  workingDir := h.workingDir
  locked := h.locked
  scratch := h.scratch
  outside x hx := .same (h.same x hx)
  settled _ hrel := nomatch hrel
  furnished _ hrel := nomatch hrel
  configured _ _ := h.loaded.imp (fun hnone => ⟨hnone, fun x hx => .inl (h.same x hx)⟩) fun hc =>
    ⟨c, hc, Config.inside_of_load hi.load, fun _ => hi.load⟩
  there := by rw [h.same _ hu.outside_loc, hi.leads.directory hu.ready.sound]

theorem rooted (h : Still u c s) (hu : u.Valid) (hi : u.IsInstalled e c) : s.Rooted u.project u.loc :=
  (h.underway hu hi).rooted hu

theorem withLoaded (h : Still u c s) : Still u c { s with loaded := (u.policy.number, c) :: s.loaded } :=
  ⟨⟨h.sound.files, h.sound.workingDir⟩, h.scratchDir, h.workingDir, h.locked, h.scratch, h.same, .inr (by simp)⟩

/-- A place of the exercise in the project is as it was before. -/
theorem get?_project (h : Still u c s) (hu : u.Valid) (hn : u.exercise? rel ≠ none) :
    s.files.get? (u.loc ++ rel) = u.before.files.get? (u.loc ++ rel) := h.same _ (hu.apart rel hn)

/-- A file is written that is there already. -/
theorem rewrite (h : Still u c s) {x : Location} {flag : Bool} (hx : x ≠ [])
    (hold : s.files.get? x = some (.file data flag)) :
    Still u c { s with files := s.files.put x (.file data flag) } := by
  have hsame : ∀ y, (s.files.put x (.file data flag)).get? y = s.files.get? y := by
    intro y
    rw [Files.get?_put hx]
    split
    · rename_i hy
      rw [hy, hold]
    · rfl
  obtain ⟨dir, name, rfl⟩ := List.eq_nil_or_concat' x |>.resolve_left hx
  have hn : s.files.get? (dir ++ [name]) ≠ none := by
    rw [hold]
    exact Option.some_ne_none _
  have hnode : s.files.get? (dir ++ [name]) = some .directory → Node.file data flag = .directory := by
    rw [hold]
    exact nofun
  have hsound := h.sound.put (h.sound.files.ancestor hn (List.cons_ne_nil _ _)) (h.sound.files.proper hn) hnode
  exact ⟨hsound, h.scratchDir, h.workingDir, h.locked, fun rel => (hsame _).trans (h.scratch rel),
    fun y hy => (hsame y).trans (h.same y hy), h.loaded⟩

end Still

/-! ### One path -/

/-- The policy gets the configuration. -/
private theorem config_still (hu : u.Valid) (hi : u.IsInstalled e c) (hs : Still u c s) :
    ∃ t, u.policy.config.perform s = (.ok c, t) ∧ Still u c t := by
  rcases hs.loaded with hnew | hc
  · have hagrees := (hu.rooted hi.leads).load_agrees (hs.rooted hu hi) hs.locked
      (untouched_config hu (hs.underway hu hi).toProgress fun x hx => .inl (hs.same x hx))
    refine ⟨_, ?_, hs.withLoaded⟩
    rw [Policy.perform_config_of_new hnew, hu.configParent, ← hagrees.same, hi.load]
  · exact ⟨s, Policy.perform_config_of_loaded hc, hs⟩

/-- A file of the exercise is classified as it would be before the update. -/
private theorem classify_still (hu : u.Valid) (hi : u.IsInstalled e c)
    (hfile : u.exercise? rel = some (.file data executable)) :
    Ensures (Still u c) (u.policy.classify (u.project.append rel) u.project none true)
      (fun v s => Still u c s ∧ (v = .studentFile ↔ u.Keeps rel)) fun _ _ => False := by
  intro s hs
  have hn : u.exercise? rel ≠ none := by
    rw [hfile]
    exact Option.some_ne_none _
  have hfirst : u.root ++ rel ∉ ([] : List Location) := List.not_mem_nil
  have hverdict := classify_ensures hu hfirst hfile s (hs.underway hu hi)
  obtain ⟨t, hconfig, ht⟩ := config_still hu hi hs
  obtain ⟨v, hjudge⟩ := Policy.judge_succeeds (e := e) (ht.rooted hu hi) (Config.inside_of_load hi.load) hi.noZero
    (plain_of_isName (hu.exercise_named hn)) (by rw [ht.get?_project hu hn]; exact hi.there hu hfile)
  rw [Policy.classify_eq hi.kind, perform_bind_ok hconfig, hjudge] at hverdict ⊢
  exact ⟨ht, hverdict.2⟩

/-- A file of the exercise that is there is copied over itself. -/
private theorem copy_still (hu : u.Valid) (hi : u.IsInstalled e c) (hfile : u.exercise? rel = some (.file data executable))
    {flag : Bool} (hthere : u.before.files.get? (u.loc ++ rel) = some (.file data flag)) (p q : FileName) :
    Ensures (Still u c) (copyContent p (Location.path (u.root ++ rel)).written q (u.project.append rel).written)
      (fun _ => Still u c) fun _ _ => False := by
  intro s hs
  have hn : u.exercise? rel ≠ none := by
    rw [hfile]
    exact Option.some_ne_none _
  have hne := hu.ne_nil_of_file hfile
  have hsteady := (hs.underway hu hi).steady hu
  have hrooted := hs.rooted hu hi
  have hold : s.files.get? (u.loc ++ rel) = some (.file data flag) := by rw [hs.get?_project hu hn, hthere]
  have hexists : s.files.get? (u.loc ++ rel) ≠ none := by
    rw [hold]
    exact Option.some_ne_none _
  have hsource : s.find true (Location.path (u.root ++ rel)) = .ok ⟨u.root ++ rel, some (.file data executable)⟩ := by
    rw [hsteady.find true hn, ← hfile]
    rfl
  have hzero : (Location.path (u.root ++ rel)).hasZero = false :=
    Session.hasZero_path hs.sound (by rw [hsteady.same]; exact hn)
  have hreaches : s.Reaches (u.project.append rel) (u.loc ++ rel) := by
    refine ⟨hrooted.hasZero hexists, fun follow => ?_⟩
    exact Session.find_append_of_exists follow hrooted.leads hs.sound (plain_of_isName (hu.exercise_named hn))
      (hrooted.clear rel) (.inl hne) hexists
  have hapart : u.root ++ rel ≠ u.loc ++ rel := by
    obtain ⟨r, hr⟩ := hu.root
    intro he
    refine hu.apart rel hn (he ▸ ?_)
    rw [hr, List.append_assoc]
    exact List.prefix_append _ _
  have hcopy : (copyContent p (Location.path (u.root ++ rel)).written q (u.project.append rel).written).perform s =
      (writeFile (u.project.append rel).written data).perform s :=
    perform_copyContent p q hsource hzero hreaches hapart
  rw [hcopy, perform_writeFile data hreaches rfl (.inr ⟨data, hold⟩)]
  exact hs.rewrite (by simp [hne]) hold

/-- When the turn of a path comes, nothing changes. -/
private theorem updatePath_still (hu : u.Valid) (hi : u.IsInstalled e c) (hn : u.exercise? rel ≠ none) :
    Ensures (Still u c) (updatePath u.policy u.root.path u.project (Location.path (u.root ++ rel)))
      (fun _ => Still u c) fun _ _ => False := by
  unfold updatePath
  rw [join_relativeTo]
  refine (Steady.isDirectory_ensures (fun s hs => (hs.underway hu hi).steady hu) hn).bind fun b => Ensures.of_and fun hb => ?_
  subst hb
  cases hnode : u.exercise? rel with
  | none => exact absurd hnode hn
  | some node =>
    rw [show u.files.get? (u.root ++ rel) = some node from hnode]
    cases node with
    | link target => exact absurd hnode (hu.exercise_noLink rel target)
    | directory =>
      refine Ensures.during (R := fun _ => False) (fun s hs => ?_) _ _
      have hleads := (hs.rooted hu hi).leads.append hs.sound
        ((hs.get?_project hu hn).trans (hi.directories rel hnode))
      rw [perform_makeDirectories_there hleads hs.sound]
      exact hs
    | file data executable =>
      refine (classify_still hu hi hnode).bind fun v => Ensures.of_and fun hv => ?_
      split
      · exact Ensures.pure fun s hs => hs
      · rename_i hstudent
        obtain ⟨flag, hflag⟩ := (hi.files rel data executable hnode).resolve_left fun hk => hstudent (hv.2 hk)
        exact (copy_still hu hi hnode hflag _ _).during _ _

/-! ### The whole exercise -/

/-- An exercise that is installed is installed again without a failure and without a change. -/
theorem install_still (hu : u.Valid) (hi : u.IsInstalled e c) :
    Ensures (Still u c) (install u.policy u.project u.root.path) (fun _ => Still u c) fun _ _ => False := by
  have hproject : Ensures (Still u c) (Archive.makeDirectory u.project) (fun _ => Still u c) fun _ _ => False := by
    refine Ensures.during (R := fun _ => False) (fun s hs => ?_) _ _
    rw [perform_makeDirectories_there (hs.rooted hu hi).leads hs.sound]
    exact hs
  have hlists : ∀ s rel e, Still u c s → u.files.get? (u.root ++ rel) = some .directory →
      s.names? (Location.path (u.root ++ rel)).written = .error e → False := by
    intro s rel e hs hd hnames
    have hn : u.files.get? (u.root ++ rel) ≠ none := by
      rw [hd]
      exact Option.some_ne_none _
    have hsteady := (hs.underway hu hi).steady hu
    have hlocked : s.locked.contains (Location.path (u.root ++ rel)) = false := by
      rw [hs.locked]
      exact Bool.eq_false_iff.2 fun hc => hi.unlocked rel (List.contains_iff_mem.1 hc)
    unfold Session.names? at hnames
    rw [show (Location.path (u.root ++ rel)).written.path = Location.path (u.root ++ rel) from rfl, hlocked,
      Session.hasZero_path hs.sound (by rw [hsteady.same]; exact hn), hsteady.find true hn, hd] at hnames
    cases hnames
  have hroot : u.files.get? (u.root ++ []) ≠ none := by
    rw [show u.files.get? (u.root ++ []) = _ from hu.exercise]
    exact Option.some_ne_none _
  refine hproject.bind fun _ => Ensures.get_bind fun s => ?_
  have hvisits : ∀ done x rest (acc : Unit), u.files.below (s.files.height + 1) (u.root ++ []) = done ++ x :: rest →
      Ensures (Still u c) (updatePath u.policy u.root.path u.project x.path) (fun _ => Still u c) fun _ _ => False := by
    intro done x rest _ hall
    have hx : x ∈ u.files.below (s.files.height + 1) (u.root ++ []) := by
      rw [hall]
      simp
    rw [List.append_nil] at hx
    obtain ⟨rel, -, rfl, hn⟩ := Files.exists_of_mem_below hx
    exact updatePath_still hu hi hn
  have hfold := foldBelow_ensures (fun _ _ => Still u c) (fun _ _ _ hs => (hs.underway hu hi).steady hu)
    (fun _ _ s rel e hs => hlists s rel e hs) hvisits (s.files.height + 1) [] hroot [] [] (by simp) ()
  rw [List.append_nil] at hfold
  exact hfold.mono (fun _ ht => ht.2) (fun _ _ ht => ht) fun _ _ ht => ht

end Project

end Handout
