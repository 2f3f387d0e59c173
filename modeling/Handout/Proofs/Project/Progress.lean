import Handout.Proofs.Project.Target
import Handout.Proofs.Project.Unpack

/-!
# The course of an update

While an exercise is installed over a project, its policy judges every path in the tree that the update itself is
changing, by a configuration that is loaded on the way.  The invariant is `Progress`: outside the temporary directory
nothing has changed but for directories that were missing and files of the exercise that the policy did not keep
before the update, and the configuration is loaded before the first file is written.  Hence the verdict on a path is
always the one that it had before the update (`Progress.classify_ensures`).
-/

namespace Handout.Project

open Handout.Action

/-- What an update starts from once the archive is unpacked. -/
structure Setting where
  policy : Policy
  before : Session
  project : Path
  /-- Where the project is. -/
  loc : Location
  /-- The files when the archive is unpacked. -/
  files : Files
  /-- Where the unpacked exercise is. -/
  root : Location

variable {u : Setting} {done : List Location} {s t : Session} {x : Location} {rel : List String} {e : Ecosystem}
  {c : Config}

namespace Setting

/-- What is stored at a path of the unpacked exercise. -/
def exercise? (u : Setting) (rel : List String) : Option Node := u.files.get? (u.root ++ rel)

/-- The policy would have classified a path of the project as a student file before the update. -/
def Keeps (u : Setting) (rel : List String) : Prop := u.policy.Keeps u.before u.project rel

/-- A place that the temporary directory does not hold. -/
def Outside (u : Setting) (x : Location) : Prop := ¬ u.before.scratch <+: x

/-- The policy is a new one of an ecosystem, or the one that keeps nothing, and it is for the project; there are no
links in the project; and the exercise does not lead into the temporary directory. -/
structure Valid (u : Setting) : Prop where
  ready : u.before.Ready
  kind : u.policy.kind = .nothing ∨ ∃ e, u.policy.kind = .ecosystem e
  configParent : u.policy.configParent = u.project
  new : u.before.loaded.lookup u.policy.number = none
  target : Target u.before u.project u.loc
  noLink : ∀ rel target, rel ≠ [] → u.before.files.get? (u.loc ++ rel) ≠ some (.link target)
  files : u.files.WellFormed
  unpackedNoLink : ∀ rel target, u.files.get? (u.before.scratch ++ rel) ≠ some (.link target)
  root : ∃ rel, u.root = u.before.scratch ++ rel
  exercise : u.exercise? [] = some .directory
  apart : ∀ rel, u.exercise? rel ≠ none → u.Outside (u.loc ++ rel)

namespace Valid

theorem outside_of_exists (hu : u.Valid) (h : u.before.files.get? x ≠ none) : u.Outside x :=
  fun hx => h (hu.ready.get?_scratch hx)

theorem outside_loc (hu : u.Valid) : u.Outside u.loc := by
  have h := hu.apart [] (by rw [hu.exercise]; exact Option.some_ne_none _)
  rwa [List.append_nil] at h

theorem exercise_noLink (hu : u.Valid) (rel : List String) (target : String) :
    u.exercise? rel ≠ some (.link target) := by
  obtain ⟨r, hr⟩ := hu.root
  unfold exercise?
  rw [hr, List.append_assoc]
  exact hu.unpackedNoLink _ target

theorem exercise_parent (hu : u.Valid) {first rest : List String} (h : u.exercise? (first ++ rest) ≠ none)
    (hr : rest ≠ []) : u.exercise? first = some .directory := by
  unfold exercise? at h ⊢
  rw [← List.append_assoc] at h
  exact hu.files.ancestor h hr

theorem exercise_named (hu : u.Valid) (h : u.exercise? rel ≠ none) : ∀ c ∈ rel, IsName c :=
  fun _ hc => (hu.files.proper_of_mem h hc).toIsName

theorem ne_nil_of_file (hu : u.Valid) {data : Bytes} {executable : Bool}
    (h : u.exercise? rel = some (.file data executable)) : rel ≠ [] := by
  rintro rfl
  rw [hu.exercise] at h
  cases h

end Valid

end Setting

/-! ### The invariant -/

/-- A place on the way to the project, or that of a directory of the exercise. -/
def IsMade (u : Setting) (x : Location) : Prop :=
  x <+: u.loc ∨ ∃ rel, x = u.loc ++ rel ∧ u.exercise? rel = some .directory

/-- What may have become of a place outside the temporary directory: nothing; a missing directory has been made on
the way to the project or for one of the exercise; or a file of the exercise that was not kept has been copied. -/
inductive Installed (u : Setting) (done : List Location) (s : Session) (x : Location) : Prop
  | same (h : s.files.get? x = u.before.files.get? x)
  | made (hold : u.before.files.get? x = none) (hnew : s.files.get? x = some .directory) (hx : IsMade u x)
  | copied (rel : List String) (data : Bytes) (executable flag : Bool) (hdone : u.root ++ rel ∈ done)
      (hx : x = u.loc ++ rel) (hfile : u.exercise? rel = some (.file data executable)) (hkeep : ¬ u.Keeps rel)
      (hold : Flagged (u.before.files.get? x) flag) (hnew : s.files.get? x = some (.file data flag))

/-- The configuration is the one that the project had before the update, if there was a project. -/
structure Original (u : Setting) (c : Config) : Prop where
  inside : c.Inside
  load : u.before.LeadsTo u.project u.loc → ((Config.load u.project).perform u.before).1 = .ok c

/-- Nothing has changed but for directories that were missing. -/
def Untouched (u : Setting) (s : Session) : Prop :=
  ∀ x, u.Outside x → s.files.get? x = u.before.files.get? x ∨
    u.before.files.get? x = none ∧ s.files.get? x = some .directory

/-- The policy has loaded the original configuration, or it has not loaded any and only directories have been made. -/
def Configured (u : Setting) (s : Session) : Prop :=
  (s.loaded.lookup u.policy.number = none ∧ Untouched u s) ∨
    ∃ c, s.loaded.lookup u.policy.number = some c ∧ Original u c

/-- A file of the exercise has had its turn. -/
def Settled (u : Setting) (s : Session) (rel : List String) : Prop :=
  ∀ data executable, u.exercise? rel = some (.file data executable) →
    (u.Keeps rel → s.files.get? (u.loc ++ rel) = u.before.files.get? (u.loc ++ rel)) ∧
    (¬ u.Keeps rel → ∃ flag, s.files.get? (u.loc ++ rel) = some (.file data flag))

/-- The paths of the exercise that have had their turn are settled, and all else is as it was. -/
structure Progress (u : Setting) (done : List Location) (s : Session) : Prop where
  sound : s.Sound
  scratchDir : s.scratch = u.before.scratch
  workingDir : s.workingDir = u.before.workingDir
  locked : s.locked = u.before.locked
  scratch : ∀ rel, s.files.get? (u.before.scratch ++ rel) = u.files.get? (u.before.scratch ++ rel)
  outside : ∀ x, u.Outside x → Installed u done s x
  settled : ∀ rel, u.root ++ rel ∈ done → Settled u s rel
  furnished : ∀ rel, u.root ++ rel ∈ done → u.exercise? rel = some .directory →
    s.files.get? (u.loc ++ rel) = some .directory
  configured : ∀ e, u.policy.kind = .ecosystem e → Configured u s

theorem Installed.of_eq (h : Installed u done s x) (hx : t.files.get? x = s.files.get? x) {done' : List Location}
    (hdone : ∀ y ∈ done, y ∈ done') : Installed u done' t x := by
  cases h with
  | same h => exact .same (hx.trans h)
  | made hold hnew hmade => exact .made hold (hx.trans hnew) hmade
  | copied rel data executable flag hd hloc hfile hkeep hold hnew =>
    exact .copied rel data executable flag (hdone _ hd) hloc hfile hkeep hold (hx.trans hnew)

theorem Settled.of_eq (h : Settled u s rel) (hx : t.files.get? (u.loc ++ rel) = s.files.get? (u.loc ++ rel)) :
    Settled u t rel := by
  unfold Settled
  rw [hx]
  exact h

/-- No directory is made in the place of a file of the exercise. -/
theorem IsMade.not_file (hu : u.Valid) (h : IsMade u (u.loc ++ rel)) (data : Bytes) (executable : Bool) :
    u.exercise? rel ≠ some (.file data executable) := by
  intro hfile
  rcases h with h | ⟨rel', hrel, hdir⟩
  · exact hu.ne_nil_of_file hfile (List.append_right_eq_self.1 (h.eq_of_length_le (by simp)))
  · rw [List.append_cancel_left hrel, hdir] at hfile
    cases hfile

namespace Progress

theorem directory (h : Progress u done s) (hu : u.Valid) (hx : u.before.files.get? x = some .directory) :
    s.files.get? x = some .directory := by
  cases h.outside x (hu.outside_of_exists (by rw [hx]; exact nofun)) with
  | same h => rw [h, hx]
  | made hold => rw [hx] at hold; cases hold
  | copied _ _ _ _ _ _ _ _ hold => exact absurd hx hold.ne_directory

theorem link (h : Progress u done s) (hu : u.Valid) {target : String}
    (hx : u.before.files.get? x = some (.link target)) : s.files.get? x = some (.link target) := by
  cases h.outside x (hu.outside_of_exists (by rw [hx]; exact nofun)) with
  | same h => rw [h, hx]
  | made hold => rw [hx] at hold; cases hold
  | copied _ _ _ _ _ _ _ _ hold =>
    rw [hx] at hold
    rcases hold with ⟨hold, -⟩ | ⟨data, hold⟩ <;> cases hold

/-- Paths that led to directories still do. -/
theorem leads (h : Progress u done s) (hu : u.Valid) {p : Path} {d : Location} (hp : u.before.LeadsTo p d) :
    s.LeadsTo p d :=
  hp.mono h.workingDir (fun _ hx => h.directory hu hx) fun _ _ hx => h.link hu hx

/-- No links have come. -/
theorem noLink (h : Progress u done s) (hu : u.Valid) {target : String}
    (hx : u.before.files.get? x ≠ some (.link target)) : s.files.get? x ≠ some (.link target) := by
  by_cases ho : u.Outside x
  · cases h.outside x ho with
    | same h => rwa [h]
    | made _ hnew => rw [hnew]; simp
    | copied _ _ _ _ _ _ _ _ _ hnew => rw [hnew]; simp
  · obtain ⟨rel, rfl⟩ := Decidable.not_not.1 ho
    rw [h.scratch]
    exact hu.unpackedNoLink rel target

/-- Once the directory of the project is there, the path of the project leads to it. -/
theorem rooted (h : Progress u done s) (hu : u.Valid) (hd : s.files.get? u.loc = some .directory) :
    s.Rooted u.project u.loc := by
  refine ⟨h.sound, hu.target.leads h.sound (fun p e hp => h.leads hu hp) hd, fun rel target => ?_⟩
  by_cases hr : rel = []
  · rw [hr, List.append_nil, hd]
    simp
  · exact h.noLink hu (hu.noLink rel target hr)

/-- What a file of the exercise replaces is there until its turn comes. -/
theorem unchanged (h : Progress u done s) (hu : u.Valid) (hdone : u.root ++ rel ∉ done) {data : Bytes}
    {executable : Bool} (hfile : u.exercise? rel = some (.file data executable)) :
    s.files.get? (u.loc ++ rel) = u.before.files.get? (u.loc ++ rel) := by
  cases h.outside _ (hu.apart rel (by rw [hfile]; exact Option.some_ne_none _)) with
  | same h => exact h
  | made _ _ hmade => exact absurd hfile (hmade.not_file hu data executable)
  | copied rel' _ _ _ hd hx =>
    rw [← List.append_cancel_left hx] at hd
    exact absurd hd hdone

/-- The part of the files in which the exercise lies is steady. -/
theorem steady (h : Progress u done s) (hu : u.Valid) : Steady u.files u.root s := by
  obtain ⟨r, hr⟩ := hu.root
  refine ⟨h.sound, fun rel => ?_, fun rel target => ?_⟩
  · rw [hr, List.append_assoc, h.scratch]
  · rw [hr, List.append_assoc]
    exact hu.unpackedNoLink _ target

/-! ### Steps -/

/-- Storing a node outside the temporary directory. -/
private theorem put (h : Progress u done s) {dir : Location} {name : String} {node : Node} {done' : List Location}
    (ho : u.Outside (dir ++ [name])) (hd : s.files.get? dir = some .directory) (hname : IsProper name)
    (hold : s.files.get? (dir ++ [name]) = some .directory → node = .directory) (hdone : ∀ y ∈ done, y ∈ done')
    (hinstalled : Installed u done' { s with files := s.files.put (dir ++ [name]) node } (dir ++ [name]))
    (hsettled : ∀ rel, u.root ++ rel ∈ done' →
      Settled u { s with files := s.files.put (dir ++ [name]) node } rel)
    (hfurnished : ∀ rel, u.root ++ rel ∈ done' → u.exercise? rel = some .directory → u.root ++ rel ∈ done)
    (hconfigured : ∀ e, u.policy.kind = .ecosystem e →
      Configured u { s with files := s.files.put (dir ++ [name]) node }) :
    Progress u done' { s with files := s.files.put (dir ++ [name]) node } := by
  have hne : dir ++ [name] ≠ [] := by simp
  have hfiles := h.sound.files.put hd hname hold
  have hdirectory : ∀ x, s.files.get? x = some .directory →
      (s.files.put (dir ++ [name]) node).get? x = some .directory := by
    intro x hx
    rw [Files.get?_put hne]
    split
    · rename_i he
      rw [hold (he ▸ hx)]
    · exact hx
  refine ⟨⟨hfiles, hdirectory _ h.sound.workingDir⟩, h.scratchDir, h.workingDir, h.locked, fun rel => ?_, fun x hx => ?_, hsettled,
    fun rel hrel he => hdirectory _ (h.furnished rel (hfurnished rel hrel he) he), hconfigured⟩
  · dsimp only
    rw [Files.get?_put_of_ne hne, h.scratch]
    intro hx
    exact ho ⟨rel, hx⟩
  · by_cases hxn : x = dir ++ [name]
    · rw [hxn]
      exact hinstalled
    · exact (h.outside x hx).of_eq (Files.get?_put_of_ne hne hxn) hdone

/-- Making a missing directory. -/
theorem make (h : Progress u done s) (hu : u.Valid) {dir : Location} {name : String} (ho : u.Outside (dir ++ [name]))
    (hd : s.files.get? dir = some .directory) (hname : IsProper name) (hn : s.files.get? (dir ++ [name]) = none)
    (hmade : IsMade u (dir ++ [name])) :
    Progress u done { s with files := s.files.put (dir ++ [name]) .directory } := by
  have hne : dir ++ [name] ≠ [] := by simp
  have hbefore : u.before.files.get? (dir ++ [name]) = none := by
    cases h.outside _ ho with
    | same h => rw [← h, hn]
    | made hold => exact hold
    | copied _ _ _ _ _ _ _ _ _ hnew =>
      rw [hn] at hnew
      cases hnew
  have hinstalled : Installed u done { s with files := s.files.put (dir ++ [name]) .directory } (dir ++ [name]) :=
    .made hbefore (Files.get?_put_self hne) hmade
  refine h.put ho hd hname (fun _ => rfl) (fun _ hy => hy) hinstalled (fun rel hrel => ?_) (fun _ hrel _ => hrel)
    fun e he => ?_
  · by_cases hx : u.loc ++ rel = dir ++ [name]
    · rw [← hx] at hmade
      intro data executable hfile
      exact absurd hfile (hmade.not_file hu data executable)
    · exact (h.settled rel hrel).of_eq (Files.get?_put_of_ne hne hx)
  · rcases h.configured e he with ⟨hloaded, huntouched⟩ | hloaded
    · refine .inl ⟨hloaded, fun x hx => ?_⟩
      by_cases hxn : x = dir ++ [name]
      · rw [hxn]
        exact .inr ⟨hbefore, Files.get?_put_self hne⟩
      · dsimp only
        rw [Files.get?_put_of_ne hne hxn]
        exact huntouched x hx
    · exact .inr hloaded

/-- Copying a file of the exercise that is not kept, once the policy has its configuration. -/
theorem copy (h : Progress u done s) (hu : u.Valid) {init : List String} {name : String} {data : Bytes}
    {executable flag : Bool} (hrel : rel = init ++ [name]) (hd : s.files.get? (u.loc ++ init) = some .directory)
    (hname : IsProper name) (hdone : u.root ++ rel ∉ done) (hfile : u.exercise? rel = some (.file data executable))
    (hkeep : ¬ u.Keeps rel) (hflag : Flagged (s.files.get? (u.loc ++ rel)) flag)
    (hloaded : ∀ e, u.policy.kind = .ecosystem e → ∃ c, s.loaded.lookup u.policy.number = some c ∧ Original u c) :
    Progress u (done ++ [u.root ++ rel]) { s with files := s.files.put (u.loc ++ rel) (.file data flag) } := by
  have hne : u.loc ++ rel ≠ [] := by simp [hu.ne_nil_of_file hfile]
  have hloc : u.loc ++ rel = u.loc ++ init ++ [name] := by rw [hrel, List.append_assoc]
  have hlast : u.root ++ rel ∈ done ++ [u.root ++ rel] := by simp
  have hold : Flagged (u.before.files.get? (u.loc ++ rel)) flag := by rwa [← h.unchanged hu hdone hfile]
  have hinstalled : Installed u (done ++ [u.root ++ rel])
      { s with files := s.files.put (u.loc ++ rel) (.file data flag) } (u.loc ++ rel) :=
    .copied rel data executable flag hlast rfl hfile hkeep hold (Files.get?_put_self hne)
  have ho := hu.apart rel (by rw [hfile]; exact Option.some_ne_none _)
  have hdirectory : s.files.get? (u.loc ++ rel) = some .directory → Node.file data flag = .directory :=
    fun h => absurd h hflag.ne_directory
  have hsettled : ∀ rel', u.root ++ rel' ∈ done ++ [u.root ++ rel] →
      Settled u { s with files := s.files.put (u.loc ++ rel) (.file data flag) } rel' := by
    intro rel' hrel'
    rcases List.mem_append.1 hrel' with hmem | hmem
    · refine (h.settled rel' hmem).of_eq (Files.get?_put_of_ne hne fun hx => ?_)
      rw [List.append_cancel_left hx] at hmem
      exact hdone hmem
    · obtain rfl := List.append_cancel_left (List.mem_singleton.1 hmem)
      intro data' executable' hfile'
      rw [hfile] at hfile'
      cases hfile'
      exact ⟨fun hk => absurd hk hkeep, fun _ => ⟨flag, Files.get?_put_self hne⟩⟩
  have hfurnished : ∀ rel', u.root ++ rel' ∈ done ++ [u.root ++ rel] → u.exercise? rel' = some .directory →
      u.root ++ rel' ∈ done := by
    intro rel' hrel' hdir
    rcases List.mem_append.1 hrel' with hmem | hmem
    · exact hmem
    · rw [List.append_cancel_left (List.mem_singleton.1 hmem), hfile] at hdir
      cases hdir
  have hconfigured : ∀ e, u.policy.kind = .ecosystem e →
      Configured u { s with files := s.files.put (u.loc ++ rel) (.file data flag) } := fun e he => .inr (hloaded e he)
  generalize Node.file data flag = node at *
  rw [hloc] at *
  exact h.put ho hd hname hdirectory (fun _ hy => List.mem_append_left _ hy) hinstalled hsettled hfurnished hconfigured

/-- Leaving a path of the exercise alone that is a directory that is there, or a file that is kept. -/
theorem skip (h : Progress u done s) (hu : u.Valid) (hdone : u.root ++ rel ∉ done)
    (hrel : ∀ data executable, u.exercise? rel = some (.file data executable) → u.Keeps rel)
    (hthere : u.exercise? rel = some .directory → s.files.get? (u.loc ++ rel) = some .directory) :
    Progress u (done ++ [u.root ++ rel]) s := by
  have hsub : ∀ y ∈ done, y ∈ done ++ [u.root ++ rel] := fun _ hy => List.mem_append_left _ hy
  have hcases : ∀ rel', u.root ++ rel' ∈ done ++ [u.root ++ rel] → u.root ++ rel' ∈ done ∨ rel' = rel := fun rel' hrel' =>
    (List.mem_append.1 hrel').imp id fun hmem => List.append_cancel_left (List.mem_singleton.1 hmem)
  refine ⟨h.sound, h.scratchDir, h.workingDir, h.locked, h.scratch, fun x hx => (h.outside x hx).of_eq rfl hsub, ?_, ?_, h.configured⟩
  · intro rel' hrel'
    rcases hcases rel' hrel' with hmem | rfl
    · exact h.settled rel' hmem
    · intro data executable hfile
      exact ⟨fun _ => h.unchanged hu hdone hfile, fun hk => absurd (hrel data executable hfile) hk⟩
  · intro rel' hrel' hdir
    rcases hcases rel' hrel' with hmem | rfl
    · exact h.furnished rel' hmem hdir
    · exact hthere hdir

end Progress

end Handout.Project
