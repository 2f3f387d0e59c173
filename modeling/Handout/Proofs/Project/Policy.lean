import Handout.Project.Policy
import Handout.Proofs.Project.Configuration

/-!
# What a classification depends on

`Session.Rooted s project loc` says that the path of a project leads to the directory `loc`, at and below which there
are no links.  In two such sessions a path is classified alike by one configuration as soon as it exists in both or
in none (`judge_agrees`); the rest of the files does not matter.
-/

namespace Handout

open Handout.Action

/-- A path leads to a directory at and below which there are no links. -/
structure Session.Rooted (s : Session) (project : Path) (loc : Location) : Prop where
  sound : s.Sound
  leads : s.LeadsTo project loc
  noLink : ∀ rel target, s.files.get? (loc ++ rel) ≠ some (.link target)

variable {s t : Session} {project p : Path} {loc : Location} {rel : List String} {e : Ecosystem} {c : Config}

namespace Session.Rooted

theorem clear (h : s.Rooted project loc) (rel : List String) : s.files.Clear loc rel :=
  fun first target _ _ => h.noLink first target

theorem directory (h : s.Rooted project loc) : s.files.get? loc = some .directory := h.leads.directory h.sound

theorem resolve?_append (h : s.Rooted project loc) (hp : ∀ x ∈ rel, IsPlain x) :
    s.resolve? (project.append rel) =
      if (project.append rel).hasZero then .error .zeroInPath else .ok (Location.path (loc ++ rel)) :=
  Session.resolve?_append h.leads hp (h.clear rel)

theorem resolve?_project (h : s.Rooted project loc) :
    s.resolve? project = if project.hasZero then .error .zeroInPath else .ok loc.path := by
  have hnil : ∀ x ∈ ([] : List String), IsPlain x := fun x hx => absurd hx List.not_mem_nil
  have hr := h.resolve?_append hnil
  rwa [Path.append_nil, List.append_nil] at hr

theorem eq_of_resolve?_project (h : s.Rooted project loc) {root : Path} (hr : s.resolve? project = .ok root) :
    root = loc.path := by
  rw [h.resolve?_project] at hr
  split at hr
  · cases hr
  · exact (Except.ok.inj hr).symm

/-- The real path of the project itself. -/
theorem path (h : s.Rooted project loc) : s.Rooted loc.path loc :=
  ⟨h.sound, leadsTo_path h.sound h.directory, h.noLink⟩

theorem resolve?_entry (h : s.Rooted project loc) (hp : Config.IsInside p) :
    s.resolve? (loc.path.join p) =
      if (loc.path.append p.parts).hasZero then .error .zeroInPath else .ok (Location.path (loc ++ p.parts)) := by
  rw [Path.join_eq_append loc.path hp.1]
  exact h.path.resolve?_append (plain_of_isName hp.2)

theorem look (h : s.Rooted project loc) (hp : ∀ x ∈ rel, IsPlain x) {node : Option Node}
    (hlook : s.look true (project.append rel) = .ok node) :
    node = if (project.append rel).hasZero then none else s.files.get? (loc ++ rel) :=
  look_append h.leads h.sound hp (h.clear rel) (.inr rfl) hlook

end Session.Rooted

/-- What policies have loaded does not matter for where a project is. -/
theorem Session.Rooted.withLoaded (h : s.Rooted project loc) (loaded : List (Nat × Config)) :
    ({ s with loaded } : Session).Rooted project loc :=
  ⟨⟨h.sound.files, h.sound.workingDir⟩, h.leads, h.noLink⟩

/-! ### Real paths -/

/-- Real paths of entries are the same wherever the project is rooted. -/
theorem Config.resolve_agrees (hs : s.Rooted project loc) (ht : t.Rooted project loc) {entries : List Path}
    (he : ∀ p ∈ entries, Config.IsInside p) : Agrees s t (Config.resolve loc.path entries) := by
  have hproject : s.resolve? loc.path = t.resolve? loc.path := by
    rw [hs.path.resolve?_project, ht.path.resolve?_project]
  refine (Agrees.query hproject).bind fun root hroot => ?_
  have hloc : root = loc.path := hs.path.eq_of_resolve?_project hroot
  subst hloc
  refine Agrees.mapM fun p hp => Agrees.query ?_
  rw [hs.resolve?_entry (he p hp), ht.resolve?_entry (he p hp)]

namespace Policy

theorem isConfigured_agrees (hs : s.Rooted project loc) (ht : t.Rooted project loc) (hc : c.Inside) (key : ConfigKey)
    (absolute : Path) : Agrees s t (isConfigured loc.path absolute (c.paths key)) :=
  (Config.resolve_agrees hs ht (hc key)).bind fun _ _ => Agrees.pure _

/-- An existing path is classified alike wherever the project is rooted. -/
theorem classifyExisting_agrees (hs : s.Rooted project loc) (ht : t.Rooted project loc) (hc : c.Inside)
    (hp : ∀ x ∈ rel, IsPlain x) (updating : Bool) :
    Agrees s t (classifyExisting e c (project.append rel) project updating) := by
  have hpath : s.resolve? (project.append rel) = t.resolve? (project.append rel) := by
    rw [hs.resolve?_append hp, ht.resolve?_append hp]
  have hproject : s.resolve? project = t.resolve? project := by
    rw [hs.resolve?_project, ht.resolve?_project]
  unfold classifyExisting
  refine (Agrees.query hpath).bind fun absolute _ => (Agrees.query hproject).bind fun root hroot => ?_
  have hloc : root = loc.path := hs.eq_of_resolve?_project hroot
  subst hloc
  have hforced : Agrees s t (if updating = true then isConfigured loc.path absolute c.forceUpdate else return false) := by
    split
    · exact isConfigured_agrees hs ht hc .forceUpdate absolute
    · exact Agrees.pure _
  refine hforced.bind fun b _ => ?_
  cases b with
  | true => exact Agrees.pure _
  | false =>
    refine (isConfigured_agrees hs ht hc .extraExerciseFiles absolute).bind fun b _ => ?_
    cases b with
    | true => exact Agrees.pure _
    | false =>
      dsimp only
      rw [if_neg Bool.false_ne_true]
      split
      · exact Agrees.pure _
      · refine (isConfigured_agrees hs ht hc .extraStudentFiles absolute).bind fun b _ => ?_
        cases b <;> exact Agrees.pure _

/-- Classifies a path of a project for an update with a configuration. -/
def judge (e : Ecosystem) (c : Config) (p project : Path) : Action Classification := do
  if !(← pathExists p) then return .exerciseFile
  if p.name = Config.fileName then return .exerciseFile
  classifyExisting e c p project true

/-- For an update an ecosystem's policy takes its configuration and judges by it. -/
theorem classify_eq {policy : Policy} (h : policy.kind = .ecosystem e) (p project : Path) :
    policy.classify p project none true = policy.config >>= fun c => judge e c p project := by
  unfold classify
  rw [h]
  rfl

theorem classify_some {policy : Policy} (hkind : policy.kind = .ecosystem e) (c : Config) (p project : Path) (updating : Bool) :
    policy.classify p project (some c) updating = (do
      if !(← pathExists p) then return .exerciseFile
      if p.name = Config.fileName then return .exerciseFile
      classifyExisting e c p project updating) := by
  unfold classify
  rw [hkind]
  rfl

/-- Without a given configuration a path is classified by that of the policy. -/
theorem classify_none {policy : Policy} (hkind : policy.kind = .ecosystem e) (p project : Path) (updating : Bool) :
    policy.classify p project none updating = policy.config >>= fun c => policy.classify p project (some c) updating := by
  unfold classify
  rw [hkind]
  rfl

/-- Where a path exists in both sessions, it is classified alike wherever the project is rooted. -/
private theorem agrees_of_exists (hs : s.Rooted project loc) (ht : t.Rooted project loc) (hc : c.Inside)
    (hp : ∀ x ∈ rel, IsPlain x) (hns : s.files.get? (loc ++ rel) ≠ none) (hnt : t.files.get? (loc ++ rel) ≠ none)
    (updating : Bool) : Agrees s t (do
      if !(← pathExists (project.append rel)) then return Classification.exerciseFile
      if (project.append rel).name = Config.fileName then return .exerciseFile
      classifyExisting e c (project.append rel) project updating) := by
  have hexists : s.exists? (project.append rel) = t.exists? (project.append rel) := by
    unfold Session.exists?
    cases hz : (project.append rel).hasZero with
    | true =>
      unfold Session.look
      rw [hz, if_pos rfl, if_pos rfl]
    | false =>
      rw [Session.look_append_of_exists hs.leads hs.sound hp (hs.clear rel) (.inr rfl) hz hns,
        Session.look_append_of_exists ht.leads ht.sound hp (ht.clear rel) (.inr rfl) hz hnt]
      obtain ⟨node, hnode⟩ := Option.ne_none_iff_exists'.1 hns
      obtain ⟨node', hnode'⟩ := Option.ne_none_iff_exists'.1 hnt
      rw [hnode, hnode']
      rfl
  refine (Agrees.query hexists).bind fun b _ => ?_
  cases b with
  | false => exact Agrees.pure _
  | true =>
    rw [Bool.not_true, if_neg Bool.false_ne_true]
    split
    · exact Agrees.pure _
    · exact classifyExisting_agrees hs ht hc hp updating

theorem judge_agrees (hs : s.Rooted project loc) (ht : t.Rooted project loc) (hc : c.Inside)
    (hp : ∀ x ∈ rel, IsPlain x) (hns : s.files.get? (loc ++ rel) ≠ none) (hnt : t.files.get? (loc ++ rel) ≠ none) :
    Agrees s t (judge e c (project.append rel) project) := agrees_of_exists hs ht hc hp hns hnt true

/-- What does not exist is no student file. -/
theorem judge_of_not_exists (e : Ecosystem) (c : Config) (project : Path) (h : ∀ node, s.look true p = .ok node → node = none) :
    ∃ r, (judge e c p project).perform s = (r, s) ∧ r ≠ .ok .studentFile := by
  unfold judge
  rw [perform_bind]
  cases hl : s.look true p with
  | error e =>
    have hq : (pathExists p).perform s = (.error e, s) := by
      unfold pathExists Session.exists?
      rw [perform_query, hl]
      rfl
    rw [hq]
    exact ⟨_, rfl, nofun⟩
  | ok node =>
    have hq : (pathExists p).perform s = (.ok false, s) := by
      unfold pathExists Session.exists?
      rw [perform_query, hl, h node hl]
      rfl
    rw [hq]
    exact ⟨_, rfl, nofun⟩

/-! ### The configuration of a policy -/

variable {policy : Policy}

theorem perform_config_of_loaded (h : s.loaded.lookup policy.number = some c) :
    policy.config.perform s = (.ok c, s) := by
  unfold config
  rw [perform_bind, perform_get]
  dsimp only
  rw [h]
  rfl

/-- A policy that has no configuration yet loads it and keeps it. -/
theorem perform_config_of_new (h : s.loaded.lookup policy.number = none) :
    policy.config.perform s = match ((Config.load policy.configParent).perform s).1 with
      | .ok c => (.ok c, { s with loaded := (policy.number, c) :: s.loaded })
      | .error e => (.error e, s) := by
  have hlooks := Config.looks_load policy.configParent s
  unfold config
  rw [perform_bind, perform_get]
  dsimp only
  rw [h]
  dsimp only
  rcases hp : (Config.load policy.configParent).perform s with ⟨r, t⟩
  rw [hp] at hlooks
  subst hlooks
  cases r with
  | ok c =>
    rw [perform_bind_ok hp]
    rfl
  | error e => rw [perform_bind_error hp]

theorem perform_config_files {c : Config} {t : Session} (h : policy.config.perform s = (.ok c, t)) :
    ∃ loaded, t = { s with loaded } := by
  cases hl : s.loaded.lookup policy.number with
  | some c =>
    rw [perform_config_of_loaded hl] at h
    cases h
    exact ⟨s.loaded, rfl⟩
  | none =>
    rw [perform_config_of_new hl] at h
    split at h
    · cases h
      exact ⟨_, rfl⟩
    · cases h

/-- Whether something that exists in both sessions is a student file does not depend on anything else that is stored, when
the policy has the same configuration. -/
theorem isStudentFile_agrees (hkind : policy.kind = .ecosystem e) (hs : s.Rooted project loc) (ht : t.Rooted project loc)
    (hcs : (policy.config.perform s).1 = .ok c) (hct : (policy.config.perform t).1 = .ok c) (hc : c.Inside)
    (hp : ∀ x ∈ rel, IsPlain x) (hns : s.files.get? (loc ++ rel) ≠ none) (hnt : t.files.get? (loc ++ rel) ≠ none) :
    ((policy.isStudentFile (project.append rel) project none).perform s).1 =
      ((policy.isStudentFile (project.append rel) project none).perform t).1 := by
  obtain ⟨s', hs'⟩ := exists_perform_eq hcs
  obtain ⟨t', ht'⟩ := exists_perform_eq hct
  obtain ⟨l, rfl⟩ := perform_config_files hs'
  obtain ⟨l', rfl⟩ := perform_config_files ht'
  unfold isStudentFile
  rw [classify_none hkind]
  have hagrees := (agrees_of_exists (e := e) (hs.withLoaded l) (ht.withLoaded l') hc hp hns hnt false).bind
    fun v _ => Agrees.pure (v == .studentFile)
  rw [bind_assoc, perform_bind_ok hs', perform_bind_ok ht', classify_some hkind]
  exact hagrees.same

/-! ### What classifying changes -/

theorem looks_isConfigured (project absolute : Path) (entries : List Path) :
    Looks (isConfigured project absolute entries) :=
  ((Looks.query _).bind fun _ => Looks.mapM (fun _ => Looks.query _) entries).bind fun _ => Looks.pure _

theorem looks_classifyExisting (e : Ecosystem) (c : Config) (p project : Path) (updating : Bool) :
    Looks (classifyExisting e c p project updating) := by
  unfold classifyExisting
  refine (Looks.query _).bind fun absolute => (Looks.query _).bind fun root => Looks.bind ?_ fun forced => ?_
  · split
    · exact looks_isConfigured _ _ _
    · exact Looks.pure _
  split
  · exact Looks.pure _
  refine (looks_isConfigured _ _ _).bind fun exercise => ?_
  split
  · exact Looks.pure _
  split
  · exact Looks.pure _
  refine (looks_isConfigured _ _ _).bind fun student => ?_
  split <;> exact Looks.pure _

/-- With the configuration of its policy, classifying a path keeps this configuration and changes nothing else. -/
theorem perform_isStudentFile (hkind : policy.kind = .ecosystem e) (hconfig : (policy.config.perform s).1 = .ok c)
    (p project : Path) : ∃ loaded r, loaded.lookup policy.number = some c ∧
      (policy.isStudentFile p project none).perform s = (r, { s with loaded }) := by
  have hloaded : ∃ loaded, loaded.lookup policy.number = some c ∧ policy.config.perform s = (.ok c, { s with loaded }) := by
    cases hl : s.loaded.lookup policy.number with
    | some c' =>
      rw [perform_config_of_loaded hl] at hconfig ⊢
      cases hconfig
      exact ⟨s.loaded, hl, rfl⟩
    | none =>
      rw [perform_config_of_new hl] at hconfig ⊢
      split at hconfig
      · cases hconfig
        exact ⟨_, by simp, rfl⟩
      · cases hconfig
  obtain ⟨loaded, hlookup, hrun⟩ := hloaded
  have hlooks : Looks (policy.classify p project (some c) false >>= fun v => return v == .studentFile) := by
    rw [classify_some hkind]
    refine Looks.bind ((Looks.query _).bind fun there => ?_) fun v => Looks.pure _
    split
    · exact Looks.pure _
    split
    · exact Looks.pure _
    · exact looks_classifyExisting e c p project false
  refine ⟨loaded, _, hlookup, Prod.ext rfl ?_⟩
  unfold isStudentFile
  rw [classify_none hkind, bind_assoc, perform_bind_ok hrun]
  exact hlooks _

/-- Without a configuration of its policy, no path is classified. -/
theorem perform_isStudentFile_error (hkind : policy.kind = .ecosystem e) {f : Failure}
    (hconfig : (policy.config.perform s).1 = .error f) (p project : Path) :
    (policy.isStudentFile p project none).perform s = (.error f, s) := by
  have hrun : policy.config.perform s = (.error f, s) := by
    cases hl : s.loaded.lookup policy.number with
    | some c =>
      rw [perform_config_of_loaded hl] at hconfig
      cases hconfig
    | none =>
      rw [perform_config_of_new hl] at hconfig ⊢
      split at hconfig
      · cases hconfig
      · cases hconfig
        rfl
  unfold isStudentFile
  rw [classify_none hkind, bind_assoc, perform_bind_error hrun]

/-- Classifying a path may load a configuration and changes nothing else. -/
theorem classify_preserves {P : Session → Prop} (hload : ∀ s loaded, P s → P { s with loaded }) (policy : Policy)
    (p project : Path) (given : Option Config) (updating : Bool) :
    Preserves P (policy.classify p project given updating) := by
  have hconfig : Preserves P policy.config := by
    refine Preserves.get_bind fun s => ?_
    split
    · exact Preserves.pure _
    · exact (Config.looks_load _).preserves.bind fun c =>
        Preserves.bind ⟨Ensures.modify fun s hs => hload s _ hs⟩ fun _ => Preserves.pure c
  unfold classify
  split
  · exact Preserves.pure _
  · split
    · exact Preserves.pure _
    · refine (Preserves.query _).bind fun absolute => (Preserves.query _).bind fun root => ?_
      split <;> exact Preserves.pure _
  · rename_i e _
    have hjudge : ∀ c, Preserves P (do
        if !(← pathExists p) then return .exerciseFile
        if p.name = Config.fileName then return .exerciseFile
        classifyExisting e c p project updating) := by
      intro c
      refine (Preserves.query _).bind fun there => ?_
      split
      · exact Preserves.pure _
      split
      · exact Preserves.pure _
      · exact (looks_classifyExisting e c p project updating).preserves
    cases given with
    | some c => exact hjudge c
    | none => exact hconfig.bind hjudge

/-! ### Files that are kept -/

/-- Before an update, a policy would classify a path of a project as a student file. -/
def Keeps (policy : Policy) (s : Session) (project : Path) (rel : List String) : Prop :=
  ((policy.classify (project.append rel) project none true).perform s).1 = .ok .studentFile

instance (policy : Policy) (s : Session) (project : Path) (rel : List String) :
    Decidable (policy.Keeps s project rel) := inferInstanceAs (Decidable (_ = _))

theorem not_keeps_of_nothing (h : policy.kind = .nothing) : ¬ policy.Keeps s project rel := by
  intro hk
  unfold Keeps classify at hk
  rw [h] at hk
  cases hk

theorem keeps_iff (h : policy.kind = .ecosystem e) (hnew : s.loaded.lookup policy.number = none) :
    policy.Keeps s project rel ↔ ∃ c, ((Config.load policy.configParent).perform s).1 = .ok c ∧
      ((judge e c (project.append rel) project).perform
        { s with loaded := (policy.number, c) :: s.loaded }).1 = .ok .studentFile := by
  unfold Keeps
  rw [classify_eq h, perform_bind, perform_config_of_new hnew]
  cases hl : ((Config.load policy.configParent).perform s).1 with
  | ok c =>
    constructor
    · intro hk
      exact ⟨c, rfl, hk⟩
    · rintro ⟨c', hc, hk⟩
      cases hc
      exact hk
  | error e =>
    constructor
    · intro hk
      cases hk
    · rintro ⟨c, hc, -⟩
      cases hc

/-- What does not exist is not kept. -/
theorem not_keeps_of_not_exists (hnew : s.loaded.lookup policy.number = none)
    (hkind : policy.kind = .nothing ∨ ∃ e, policy.kind = .ecosystem e)
    (h : ∀ node, s.look true (project.append rel) = .ok node → node = none) : ¬ policy.Keeps s project rel := by
  rcases hkind with hkind | ⟨e, hkind⟩
  · exact not_keeps_of_nothing hkind
  · rw [keeps_iff hkind hnew]
    rintro ⟨c, -, hj⟩
    obtain ⟨r, hr, hne⟩ :=
      judge_of_not_exists (s := { s with loaded := (policy.number, c) :: s.loaded }) e c project h
    rw [hr] at hj
    exact hne hj

end Policy

/-! ### Loading the configuration of a project -/

private theorem isPlain_fileName : ∀ x ∈ [Config.fileName], IsPlain x ∧ x.utf8ByteSize ≤ maxName := by
  intro x hx
  rw [List.mem_singleton] at hx
  subst hx
  decide

namespace Session.Rooted

private theorem isFile?_config (h : s.Rooted project loc) :
    s.isFile? (project.child Config.fileName) =
      if s.locked.contains (project.child Config.fileName).parent then
        .error (refuse .denied (project.child Config.fileName).written)
      else .ok (isFileNode (if (project.child Config.fileName).hasZero then none
        else s.files.get? (loc ++ [Config.fileName]))) := by
  have hlook := look_append_of_short true h.leads h.sound (fun x hx => (isPlain_fileName x hx).1)
    (h.clear [Config.fileName]) (.inr rfl) fun x hx => (isPlain_fileName x hx).2
  unfold isFile?
  rw [Path.child_eq_append, hlook]
  rfl

private theorem content?_config (h : s.Rooted project loc)
    (hfile : s.isFile? (project.child Config.fileName) = .ok true) :
    ∃ data executable, s.files.get? (loc ++ [Config.fileName]) = some (.file data executable) ∧
      s.content? (project.child Config.fileName).written = .ok data := by
  rw [h.isFile?_config] at hfile
  split at hfile
  · cases hfile
  have hnode := Except.ok.inj hfile
  cases hz : (project.child Config.fileName).hasZero with
  | true =>
    rw [hz, if_pos rfl] at hnode
    cases hnode
  | false =>
    rw [hz, if_neg Bool.false_ne_true] at hnode
    unfold isFileNode at hnode
    split at hnode
    · rename_i data executable hn
      refine ⟨data, executable, hn, ?_⟩
      have hfind := find_append_of_exists true h.leads h.sound (fun x hx => (isPlain_fileName x hx).1)
        (h.clear [Config.fileName]) (.inr rfl) (by rw [hn]; exact Option.some_ne_none _)
      unfold content?
      rw [show (project.child Config.fileName).written.path = project.append [Config.fileName] from rfl,
        ← Path.child_eq_append, hz, if_neg Bool.false_ne_true, Path.child_eq_append, hfind, hn]
    · cases hnode

/-- The configuration of a project is loaded alike as long as nothing but a directory has come in the place of its
file. -/
theorem load_agrees (hs : s.Rooted project loc) (ht : t.Rooted project loc) (hl : t.locked = s.locked)
    (hn : t.files.get? (loc ++ [Config.fileName]) = s.files.get? (loc ++ [Config.fileName]) ∨
      s.files.get? (loc ++ [Config.fileName]) = none ∧
        t.files.get? (loc ++ [Config.fileName]) = some .directory) :
    Agrees s t (Config.load project) := by
  have hfile : s.isFile? (project.child Config.fileName) = t.isFile? (project.child Config.fileName) := by
    rw [hs.isFile?_config, ht.isFile?_config, hl]
    rcases hn with hn | ⟨hns, hnt⟩
    · rw [hn]
    · rw [hns, hnt]
      cases (project.child Config.fileName).hasZero <;> rfl
  refine Config.load_agrees hfile fun htrue => ?_
  obtain ⟨data, executable, hnode, hcontent⟩ := hs.content?_config htrue
  obtain ⟨data', executable', hnode', hcontent'⟩ := ht.content?_config (hfile ▸ htrue)
  rcases hn with hn | ⟨hns, -⟩
  · rw [hnode, hnode'] at hn
    cases hn
    rw [hcontent, hcontent']
  · rw [hnode] at hns
    cases hns

end Session.Rooted

end Handout
