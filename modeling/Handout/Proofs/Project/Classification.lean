import Handout.Proofs.Project.Policy

/-!
# The table of classifications

In a project without links, a path that exists is classified by its names alone: by the entries of the configuration
under which it lies, and last by the rules of the ecosystem (`verdict`, `classifyExisting_ensures`).  This fails only
if a zero character occurs in the configuration.
-/

namespace Handout

open Handout.Action

variable {P : Session → Prop} {s : Session} {project : Path} {loc : Location} {rel : List String} {e : Ecosystem} {c : Config}
  {policy : Policy} {E : Failure → Session → Prop}

namespace Session.Rooted

/-- No zero character occurs in the path of something that is stored in the project. -/
theorem hasZero (h : s.Rooted project loc) (hn : s.files.get? (loc ++ rel) ≠ none) :
    (project.append rel).hasZero = false := by
  rw [Path.hasZero_append, h.leads.hasZero h.sound, Bool.false_or, List.any_eq_false]
  exact fun x hx hzero => (h.sound.files.proper_of_mem hn hx).noZero (List.contains_iff_mem.1 hzero)

theorem resolve?_of_exists (h : s.Rooted project loc) (hp : ∀ x ∈ rel, IsPlain x)
    (hn : s.files.get? (loc ++ rel) ≠ none) : s.resolve? (project.append rel) = .ok (Location.path (loc ++ rel)) := by
  rw [h.resolve?_append hp, h.hasZero hn, if_neg Bool.false_ne_true]

theorem exists? (h : s.Rooted project loc) (hp : ∀ x ∈ rel, IsPlain x) (hn : s.files.get? (loc ++ rel) ≠ none) :
    s.exists? (project.append rel) = .ok true := by
  unfold Session.exists?
  rw [Session.look_append_of_exists h.leads h.sound hp (h.clear rel) (.inr rfl) (h.hasZero hn) hn]
  exact congrArg Except.ok (Option.isSome_iff_ne_none.2 hn)

end Session.Rooted

/-- What leads to a path of a project begins with an entry. -/
def Config.Covers (entries : List Path) (rel : List String) : Prop := ∃ q ∈ entries, q.parts <+: rel

instance (entries : List Path) (rel : List String) : Decidable (Config.Covers entries rel) :=
  inferInstanceAs (Decidable (∃ q ∈ entries, _))

/-- No zero character occurs in the entries of a configuration. -/
def Config.NoZero (c : Config) : Prop := ∀ key, ∀ q ∈ c.paths key, q.hasZero = false

/-- The entries of a configuration as real paths. -/
theorem Config.resolve_ensures (hP : ∀ s, P s → s.Rooted project loc) {entries : List Path}
    (hentries : ∀ q ∈ entries, Config.IsInside q)
    (hE : ∀ e s, P s → (¬ ∀ q ∈ entries, q.hasZero = false) → E e s) :
    Ensures P (Config.resolve loc.path entries)
      (fun ps s => P s ∧ ps = entries.map fun q => Location.path (loc ++ q.parts)) E := by
  intro s hs
  have hrooted := hP s hs
  have hzero : loc.path.hasZero = false :=
    Session.hasZero_path hrooted.sound (by rw [hrooted.directory]; exact Option.some_ne_none _)
  have hroot : (Action.resolve loc.path).perform s = (.ok loc.path, s) := by
    unfold Action.resolve
    rw [perform_query, hrooted.path.resolve?_project, hzero, if_neg Bool.false_ne_true]
  have hentry : ∀ q ∈ entries, s.resolve? (loc.path.join q) =
      if q.hasZero then .error .zeroInPath else .ok (Location.path (loc ++ q.parts)) := by
    intro q hq
    rw [hrooted.resolve?_entry (hentries q hq), Path.hasZero_append, hzero, Bool.false_or]
    rfl
  have hmap := perform_mapM (s := s) (f := fun q => Action.resolve (loc.path.join q))
    (g := fun q => s.resolve? (loc.path.join q)) (l := entries) fun _ _ => rfl
  unfold Config.resolve
  rw [perform_bind_ok hroot, hmap]
  by_cases hz : ∀ q ∈ entries, q.hasZero = false
  · rw [mapM_eq_ok (g := fun q => Location.path (loc ++ q.parts)) fun q hq => by
      rw [hentry q hq, hz q hq, if_neg Bool.false_ne_true]]
    exact ⟨hs, rfl⟩
  · cases hresult : entries.mapM fun q => s.resolve? (loc.path.join q) with
    | error e => exact hE e s hs hz
    | ok ps =>
      refine absurd (fun q hq => ?_) hz
      obtain ⟨p, hp⟩ := ok_of_mapM_ok hresult hq
      rw [hentry q hq] at hp
      by_contra hne
      rw [if_pos (by simpa using hne)] at hp
      cases hp

namespace Policy

/-- What the entries of a configuration and the ecosystem make of a path. -/
def verdict (e : Ecosystem) (c : Config) (updating : Bool) (rel : List String) : Classification :=
  if updating = true ∧ Config.Covers c.forceUpdate rel then .forceUpdated
  else if Config.Covers c.extraExerciseFiles rel ∨ rel = [] then .exerciseFile
  else if Config.Covers c.extraStudentFiles rel ∨ e.isStudentSource ⟨.relative, rel⟩ = true then .studentFile
  else .exerciseFile

theorem isConfigured_ensures (hP : ∀ s, P s → s.Rooted project loc) {entries : List Path}
    (hentries : ∀ q ∈ entries, Config.IsInside q)
    (hE : ∀ e s, P s → (¬ ∀ q ∈ entries, q.hasZero = false) → E e s) :
    Ensures P (isConfigured loc.path (Location.path (loc ++ rel)) entries)
      (fun b s => P s ∧ (b = true ↔ Config.Covers entries rel)) E := by
  refine (Config.resolve_ensures hP hentries hE).bind fun ps => Ensures.of_and fun hps => Ensures.pure fun s hs => ⟨hs, ?_⟩
  subst hps
  unfold isUnderAny Config.Covers
  simp only [List.any_map, List.any_eq_true, Function.comp_apply, Path.isUnder_iff]
  refine exists_congr fun q => and_congr_right fun _ => ?_
  exact (and_iff_right rfl).trans (List.prefix_append_right_inj loc)

/-- An existing path is classified by the names behind which it is found below the project. -/
theorem classifyExisting_ensures {p : Path} (hP : ∀ s, P s → s.Rooted project loc) (hc : c.Inside)
    (hp : ∀ s, P s → s.resolve? p = .ok (Location.path (loc ++ rel))) (updating : Bool)
    (hE : ∀ e s, P s → ¬ c.NoZero → E e s) :
    Ensures P (classifyExisting e c p project updating) (fun v s => P s ∧ v = verdict e c updating rel) E := by
  have hpath : Ensures P (resolve p) (fun q s => P s ∧ q = Location.path (loc ++ rel)) E := by
    refine Ensures.query fun s hs => ?_
    rw [hp s hs]
    exact ⟨hs, rfl⟩
  have hroot : Ensures P (resolve project) (fun q s => P s ∧ q = loc.path) E := by
    refine Ensures.query fun s hs => ?_
    rw [(hP s hs).resolve?_project, (hP s hs).leads.hasZero (hP s hs).sound, if_neg Bool.false_ne_true]
    exact ⟨hs, rfl⟩
  have hkey : ∀ key e s, P s → (¬ ∀ q ∈ c.paths key, q.hasZero = false) → E e s := fun key e s hs hz =>
    hE e s hs fun hc => hz (hc key)
  unfold classifyExisting
  refine hpath.bind fun absolute => Ensures.of_and fun habsolute => ?_
  refine hroot.bind fun root => Ensures.of_and fun hrooted => ?_
  subst habsolute hrooted
  have hforced : Ensures P (if updating = true then isConfigured loc.path (Location.path (loc ++ rel)) c.forceUpdate
      else return false) (fun b s => P s ∧ (b = true ↔ updating = true ∧ Config.Covers c.forceUpdate rel)) E := by
    cases updating with
    | true =>
      refine (isConfigured_ensures hP (hc .forceUpdate) (hkey .forceUpdate)).mono (fun _ hs => hs) (fun b s hs => ⟨hs.1, ?_⟩) fun _ _ hs => hs
      rw [hs.2]
      exact (and_iff_right rfl).symm
    | false => exact Ensures.pure fun s hs => ⟨hs, by simp⟩
  -- the key lists are asked in the order in which the verdict names them, each only when no earlier one covers the path
  unfold verdict
  refine hforced.bind fun b => Ensures.of_and fun hb => ?_
  cases b with
  | true =>
    rw [if_pos (hb.1 rfl)]
    exact Ensures.pure fun s hs => ⟨hs, rfl⟩
  | false =>
    rw [if_neg fun h => Bool.false_ne_true (hb.2 h)]
    refine (isConfigured_ensures hP (hc .extraExerciseFiles) (hkey .extraExerciseFiles)).bind fun b => Ensures.of_and fun hb => ?_
    cases b with
    | true =>
      rw [if_pos (show Config.Covers c.extraExerciseFiles rel ∨ rel = [] from .inl (hb.1 rfl))]
      exact Ensures.pure fun s hs => ⟨hs, rfl⟩
    | false =>
      have hexercise : ¬ Config.Covers c.extraExerciseFiles rel := fun h => Bool.false_ne_true (hb.2 h)
      dsimp only
      rw [if_neg Bool.false_ne_true]
      by_cases hrel : rel = []
      · rw [if_pos (show Location.path (loc ++ rel) = loc.path by rw [hrel, List.append_nil]), if_pos (.inr hrel)]
        exact Ensures.pure fun s hs => ⟨hs, rfl⟩
      · have hne : Location.path (loc ++ rel) ≠ loc.path := fun h =>
          hrel (List.append_right_eq_self.1 (congrArg Path.parts h))
        rw [if_neg hne, if_neg (not_or.2 ⟨hexercise, hrel⟩)]
        refine (isConfigured_ensures hP (hc .extraStudentFiles) (hkey .extraStudentFiles)).bind fun b => Ensures.of_and fun hb => ?_
        have hrelative : ((Location.path (loc ++ rel)).relativeTo? loc.path).getD p = ⟨.relative, rel⟩ := by
          unfold Path.relativeTo?
          rw [if_pos ⟨rfl, List.isPrefixOf_iff_prefix.2 (List.prefix_append _ _)⟩]
          exact congrArg (Path.mk .relative) List.drop_left
        cases b with
        | true =>
          rw [if_pos (show Config.Covers c.extraStudentFiles rel ∨ e.isStudentSource ⟨.relative, rel⟩ = true from
            .inl (hb.1 rfl))]
          exact Ensures.pure fun s hs => ⟨hs, rfl⟩
        | false =>
          refine Ensures.pure fun s hs => ⟨hs, ?_⟩
          rw [hrelative]
          simp only [show ¬ Config.Covers c.extraStudentFiles rel from fun h => Bool.false_ne_true (hb.2 h), false_or]

/-- A policy gives the same configuration again. -/
theorem config_ensures (hload : ∀ s loaded, P s → P { s with loaded }) :
    Ensures (fun s => P s ∧ (policy.config.perform s).1 = .ok c) policy.config
      (fun c' s => (P s ∧ (policy.config.perform s).1 = .ok c) ∧ c' = c) fun _ _ => False := by
  rintro s ⟨hs, hconfig⟩
  cases hl : s.loaded.lookup policy.number with
  | some c' =>
    rw [perform_config_of_loaded hl] at hconfig ⊢
    exact ⟨⟨hs, by rw [perform_config_of_loaded hl]; exact hconfig⟩, Except.ok.inj hconfig⟩
  | none =>
    rw [perform_config_of_new hl] at hconfig ⊢
    cases hr : ((Config.load policy.configParent).perform s).1 with
    | error e =>
      rw [hr] at hconfig
      cases hconfig
    | ok c' =>
      rw [hr] at hconfig
      refine ⟨⟨hload s _ hs, ?_⟩, Except.ok.inj hconfig⟩
      rw [perform_config_of_loaded (c := c') (by simp)]
      exact hconfig

/-- A path of a project is a student file of an ecosystem. -/
def IsStudent (e : Ecosystem) (c : Config) (rel : List String) : Prop :=
  rel.getLast? ≠ some Config.fileName ∧ verdict e c false rel = .studentFile

instance (e : Ecosystem) (c : Config) (rel : List String) : Decidable (IsStudent e c rel) :=
  inferInstanceAs (Decidable (_ ∧ _))

/-- Whether a path that exists is a student file. -/
theorem isStudentFile_ensures (hkind : policy.kind = .ecosystem e) (hload : ∀ s loaded, P s → P { s with loaded })
    (hP : ∀ s, P s → s.Rooted project loc ∧ s.files.get? (loc ++ rel) ≠ none) (hc : c.Inside) (hp : ∀ x ∈ rel, IsPlain x) :
    Ensures (fun s => P s ∧ (policy.config.perform s).1 = .ok c) (policy.isStudentFile (project.append rel) project none)
      (fun b s => (P s ∧ (policy.config.perform s).1 = .ok c) ∧ b = decide (IsStudent e c rel))
      fun _ s => P s ∧ (policy.config.perform s).1 = .ok c := by
  have hstudent : rel = [] → ¬ IsStudent e c rel := by
    rintro rfl ⟨-, hv⟩
    unfold verdict at hv
    rw [if_neg (fun h => Bool.false_ne_true h.1), if_pos (.inr rfl)] at hv
    cases hv
  unfold isStudentFile classify
  rw [hkind]
  dsimp only
  refine Ensures.bind (M := fun v s => (P s ∧ (policy.config.perform s).1 = .ok c) ∧
    (v = .studentFile ↔ IsStudent e c rel)) ?_ fun v => Ensures.of_and fun hv => Ensures.pure fun s hs => ⟨hs, ?_⟩
  · refine ((config_ensures hload).mono (fun _ hs => hs) (fun _ _ hs => hs) fun _ _ hs => hs.elim).bind fun c' =>
      Ensures.of_and fun hc' => ?_
    subst hc'
    have hexists : Ensures (fun s => P s ∧ (policy.config.perform s).1 = .ok c') (pathExists (project.append rel))
        (fun b s => (P s ∧ (policy.config.perform s).1 = .ok c') ∧ b = true)
        fun _ s => P s ∧ (policy.config.perform s).1 = .ok c' := by
      refine Ensures.query fun s hs => ?_
      obtain ⟨hrooted, hn⟩ := hP s hs.1
      rw [hrooted.exists? hp hn]
      exact ⟨hs, rfl⟩
    refine hexists.bind fun b => Ensures.of_and fun hb => ?_
    subst hb
    rw [Bool.not_true, if_neg Bool.false_ne_true]
    split
    · rename_i hname
      refine Ensures.pure fun s hs => ⟨hs, by simp, fun h => ?_⟩
      have hrel : rel ≠ [] := fun he => hstudent he h
      rw [Path.name_append _ hrel] at hname
      exact absurd (by rw [List.getLast?_eq_some_getLast hrel, hname]) h.1
    · rename_i hname
      refine (classifyExisting_ensures (fun s hs => (hP s hs.1).1) hc
        (fun s hs => (hP s hs.1).1.resolve?_of_exists hp (hP s hs.1).2) false fun _ _ hs _ => hs).mono (fun _ hs => hs)
        (fun v s hs => ⟨hs.1, ?_⟩) fun _ _ hs => hs
      rw [hs.2]
      refine ⟨fun hv => ⟨fun hlast => hname ?_, hv⟩, fun h => h.2⟩
      obtain ⟨init, rfl⟩ := List.getLast?_eq_some_iff.1 hlast
      rw [Path.name_append _ (by simp), List.getLast_concat]
  · rw [Bool.eq_iff_iff, beq_iff_eq, hv, decide_eq_true_eq]

end Policy

end Handout
