import Handout.Proofs.Project.Progress

/-!
# Verdicts during an update

The configuration that the policy loads during an update is the one that the project had before the update, because
until then only directories have been made.  So a file of the exercise is classified as it would have been before the
update, although the tree has changed since (`classify_ensures`).
-/

namespace Handout.Project

open Handout.Action

variable {u : Setting} {done : List Location} {s : Session} {rel : List String} {e : Ecosystem} {c : Config}

/-- The exercise is being installed: the directory of the project is there. -/
structure Underway (u : Setting) (done : List Location) (s : Session) : Prop extends Progress u done s where
  there : s.files.get? u.loc = some .directory

theorem Underway.rooted (h : Underway u done s) (hu : u.Valid) : s.Rooted u.project u.loc :=
  h.toProgress.rooted hu h.there

/-- The policy has its configuration. -/
structure Loaded (u : Setting) (s : Session) (c : Config) : Prop where
  lookup : s.loaded.lookup u.policy.number = some c
  original : Original u c

namespace Setting.Valid

theorem scratch (hu : u.Valid) : u.files.get? u.before.scratch = some .directory := by
  obtain ⟨r, hr⟩ := hu.root
  have h := hu.exercise
  unfold Setting.exercise? at h
  rw [List.append_nil, hr] at h
  by_cases hnil : r = []
  · rwa [hnil, List.append_nil] at h
  · exact hu.files.ancestor (by rw [h]; exact Option.some_ne_none _) hnil

/-- The project as it was before the update. -/
theorem rooted (hu : u.Valid) (hl : u.before.LeadsTo u.project u.loc) : u.before.Rooted u.project u.loc := by
  refine ⟨hu.ready.sound, hl, fun rel target => ?_⟩
  by_cases hr : rel = []
  · rw [hr, List.append_nil, hl.directory hu.ready.sound]
    simp
  · exact hu.noLink rel target hr

end Setting.Valid

/-- The configuration file is untouched while only directories have been made. -/
theorem untouched_config (hu : u.Valid) (h : Progress u done s) (hs : Untouched u s) :
    s.files.get? (u.loc ++ [Config.fileName]) = u.before.files.get? (u.loc ++ [Config.fileName]) ∨
      u.before.files.get? (u.loc ++ [Config.fileName]) = none ∧
        s.files.get? (u.loc ++ [Config.fileName]) = some .directory := by
  by_cases ho : u.Outside (u.loc ++ [Config.fileName])
  · exact hs _ ho
  · -- then the temporary directory itself is in this place
    rcases List.prefix_concat_iff.1 (Decidable.not_not.1 ho) with hx | hx
    · rw [← hx]
      have hnew := h.scratch []
      rw [List.append_nil, hu.scratch] at hnew
      exact .inr ⟨hu.ready.fresh, hnew⟩
    · exact absurd hx hu.outside_loc

theorem Underway.withLoaded (h : Underway u done s) (hc : Original u c) :
    Underway u done { s with loaded := (u.policy.number, c) :: s.loaded } where
  sound := ⟨h.sound.files, h.sound.workingDir⟩
  scratchDir := h.scratchDir
  workingDir := h.workingDir
  locked := h.locked
  scratch := h.scratch
  outside x hx := by
    refine (h.outside x hx).of_eq ?_ fun _ hy => hy
    rfl
  settled rel hrel := by
    refine (h.settled rel hrel).of_eq ?_
    rfl
  furnished := h.furnished
  configured _ _ := .inr ⟨c, by simp, hc⟩
  there := h.there

/-- The policy gets the configuration that the project had before the update. -/
theorem config_ensures (hu : u.Valid) (he : u.policy.kind = .ecosystem e) :
    Ensures (Underway u done) u.policy.config (fun c s => Underway u done s ∧ Loaded u s c)
      fun _ => Underway u done := by
  intro s hs
  rcases hs.configured e he with ⟨hnew, huntouched⟩ | ⟨c, hc, horiginal⟩
  · rw [Policy.perform_config_of_new hnew, hu.configParent]
    have hlooks := Config.looks_load u.project s
    rcases hp : (Config.load u.project).perform s with ⟨r, t⟩
    cases r with
    | error e => exact hs
    | ok c =>
      have horiginal : Original u c := by
        refine ⟨Config.inside_of_load (congrArg Prod.fst hp), fun hl => ?_⟩
        have hagrees := (hu.rooted hl).load_agrees (hs.rooted hu) hs.locked (untouched_config hu hs.toProgress huntouched)
        rw [hagrees.same, hp]
      exact ⟨hs.withLoaded horiginal, by simp, horiginal⟩
  · rw [Policy.perform_config_of_loaded hc]
    exact ⟨hs, hc, horiginal⟩

/-- A file is kept only where something was. -/
theorem not_keeps_of_none (hu : u.Valid) {data : Bytes} {executable : Bool}
    (hfile : u.exercise? rel = some (.file data executable)) (hn : u.before.files.get? (u.loc ++ rel) = none) :
    ¬ u.Keeps rel :=
  Policy.not_keeps_of_not_exists hu.new hu.kind fun _ hlook =>
    hu.target.eq_none_of_look hu.ready.sound hu.noLink (plain_of_isName (hu.exercise_named (by rw [hfile]; exact Option.some_ne_none _)))
      (hu.ne_nil_of_file hfile) hn hlook

/-- A file of the exercise is judged as it would have been before the update. -/
theorem judge_ensures (hu : u.Valid) (he : u.policy.kind = .ecosystem e) (hdone : u.root ++ rel ∉ done) {data : Bytes}
    {executable : Bool} (hfile : u.exercise? rel = some (.file data executable)) :
    Ensures (fun s => Underway u done s ∧ Loaded u s c) (Policy.judge e c (u.project.append rel) u.project)
      (fun v s => (Underway u done s ∧ Loaded u s c) ∧ (v = .studentFile ↔ u.Keeps rel))
      fun _ => Underway u done := by
  rintro s ⟨hs, hc⟩
  have hrooted := hs.rooted hu
  have hplain := plain_of_isName (hu.exercise_named (by rw [hfile]; exact Option.some_ne_none _))
  have hsame := hs.unchanged hu hdone hfile
  by_cases hn : u.before.files.get? (u.loc ++ rel) = none
  · have hkeeps := not_keeps_of_none hu hfile hn
    have hmissing : ∀ node, s.look true (u.project.append rel) = .ok node → node = none := by
      intro node hlook
      rw [hrooted.look hplain hlook, hsame, hn]
      split <;> rfl
    obtain ⟨r, hr, hstudent⟩ := Policy.judge_of_not_exists e c u.project hmissing
    rw [hr]
    cases r with
    | error e => exact hs
    | ok v => exact ⟨⟨hs, hc⟩, fun hv => absurd (by rw [hv]) hstudent, fun hk => absurd hk hkeeps⟩
  · have hl := hu.target.leads_of_exists hu.ready.sound (hu.ne_nil_of_file hfile) hn
    have hagrees := Policy.judge_agrees (e := e) ((hu.rooted hl).withLoaded ((u.policy.number, c) :: u.before.loaded))
      hrooted hc.original.inside hplain hn (by rw [hsame]; exact hn)
    have hkeeps : u.Keeps rel ↔
        ((Policy.judge e c (u.project.append rel) u.project).perform s).1 = .ok .studentFile := by
      unfold Setting.Keeps
      rw [Policy.keeps_iff he hu.new, hu.configParent, hc.original.load hl, ← hagrees.same]
      constructor
      · rintro ⟨c', hc', hj⟩
        cases hc'
        exact hj
      · exact fun hj => ⟨c, rfl, hj⟩
    have hright := hagrees.right
    rcases hp : (Policy.judge e c (u.project.append rel) u.project).perform s with ⟨r, t⟩
    rw [hp] at hkeeps hright
    subst hright
    cases r with
    | error e => exact hs
    | ok v =>
      refine ⟨⟨hs, hc⟩, ?_⟩
      rw [hkeeps]
      constructor
      · rintro rfl
        rfl
      · exact Except.ok.inj

/-- A file of the exercise is classified as it would have been before the update. -/
theorem classify_ensures (hu : u.Valid) (hdone : u.root ++ rel ∉ done) {data : Bytes} {executable : Bool}
    (hfile : u.exercise? rel = some (.file data executable)) :
    Ensures (Underway u done) (u.policy.classify (u.project.append rel) u.project none true)
      (fun v s => (Underway u done s ∧ ∀ e, u.policy.kind = .ecosystem e → ∃ c, Loaded u s c) ∧
        (v = .studentFile ↔ u.Keeps rel)) fun _ => Underway u done := by
  rcases hu.kind with hk | ⟨e, hk⟩
  · have hkeeps : ¬ u.Keeps rel := Policy.not_keeps_of_nothing hk
    unfold Policy.classify
    rw [hk]
    refine Ensures.pure fun s hs => ⟨⟨hs, nofun⟩, nofun, fun h => absurd h hkeeps⟩
  · rw [Policy.classify_eq hk]
    refine (config_ensures hu hk).bind fun c => ?_
    exact (judge_ensures hu hk hdone hfile).mono (fun _ hs => hs)
      (fun _ _ hs => ⟨⟨hs.1.1, fun _ _ => ⟨c, hs.1.2⟩⟩, hs.2⟩) fun _ _ hs => hs

end Handout.Project
