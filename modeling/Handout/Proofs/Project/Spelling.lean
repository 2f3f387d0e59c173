import Handout.Proofs.Project.Table

/-!
# How the path of a project is written

The path of a project may be relative or absolute, and lead through `..` and through links.  What the names behind it
stand for does not depend on that: `find_spelling` for the place, as long as no spelling uses up the links that are
followed, and `resolve?_spelling` for the real path.  A classification compares real paths only, except where the real
path of a file lies outside the project and no entry of the configuration covers it: there the source paths of the
ecosystem are looked for in the path as it is written.
-/

namespace Handout

open Handout.Action

/-- Two actions whose first parts do the same, and so do their rests. -/
theorem Action.perform_bind_congr {α β : Type} {a b : Action α} {f g : α → Action β} {s : Session}
    (h : a.perform s = b.perform s)
    (hrest : ∀ x t, a.perform s = (.ok x, t) → (f x).perform t = (g x).perform t) :
    (a >>= f).perform s = (b >>= g).perform s := by
  rw [perform_bind, perform_bind, ← h]
  cases hrun : a.perform s with
  | mk result t =>
    cases result with
    | ok x => exact hrest x t hrun
    | error e => rfl

/-! ### Links that are left over -/

namespace Files

variable {f : Files} {dir : Location} {pieces : List String} {n m : Nat} {follow : Bool}

/-- The step of `walk_more`: at a link, where the walk goes on, more links make no difference. -/
private theorem walk_more_step
    (ih : ∀ start ps, again f follow n start ps ≠ .error .linkLoop →
      again f follow (n + 1) start ps = again f follow n start ps) :
    ∀ pieces dir, walk f follow n dir pieces ≠ .error .linkLoop →
      walk f follow (n + 1) dir pieces = walk f follow n dir pieces := by
  intro pieces
  induction pieces with
  | nil =>
    intro dir _
    rw [walk_nil, walk_nil]
  | cons c rest ihp =>
    intro dir h
    by_cases hstay : isStay c = true
    · rw [walk_stay hstay] at h ⊢
      rw [walk_stay hstay, ihp dir h]
    by_cases hup : c = ".."
    · subst hup
      rw [walk_up] at h ⊢
      rw [walk_up, ihp _ h]
    have hc : IsPlain c := ⟨by simpa using hstay, hup⟩
    by_cases hs : maxName < c.utf8ByteSize
    · rw [walk_long hc hs, walk_long hc hs]
    have hs' : c.utf8ByteSize ≤ maxName := by omega
    rw [walk_name hc hs'] at h ⊢
    rw [walk_name hc hs']
    cases hn : f.get? (dir ++ [c]) with
    | none => rfl
    | some node =>
      rw [hn] at h
      cases node with
      | directory => exact ihp _ h
      | file data executable => rfl
      | link target =>
        dsimp only at h ⊢
        cases hlast : rest.isEmpty && !follow with
        | true => rfl
        | false =>
          rw [hlast, if_neg Bool.false_ne_true] at h
          exact ih _ _ h

/-- A walk that has not used up its links ends alike with one more. -/
theorem walk_more (h : walk f follow n dir pieces ≠ .error .linkLoop) :
    walk f follow (n + 1) dir pieces = walk f follow n dir pieces := by
  induction n generalizing dir pieces with
  | zero => exact walk_more_step (fun _ _ hloop => absurd rfl hloop) pieces dir h
  | succ n ih => exact walk_more_step (n := n + 1) (fun start ps => @ih start ps) pieces dir h

theorem walk_of_le (h : walk f follow n dir pieces ≠ .error .linkLoop) (hm : n ≤ m) :
    walk f follow m dir pieces = walk f follow n dir pieces := by
  induction hm with
  | refl => rfl
  | step _ ih => rw [walk_more (by rwa [ih]), ih]

/-- Two walks from one place end alike, unless one of them uses up its links and the other one does not. -/
theorem walk_links_eq (h : walk f follow n dir pieces = .error .linkLoop ↔ walk f follow m dir pieces = .error .linkLoop) :
    walk f follow n dir pieces = walk f follow m dir pieces := by
  by_cases hloop : walk f follow n dir pieces = .error .linkLoop
  · rw [hloop, h.1 hloop]
  · rcases Nat.le_total n m with hle | hle
    · exact (walk_of_le hloop hle).symm
    · exact walk_of_le (fun hm => hloop (h.2 hm)) hle

end Files

/-! ### Two paths of one directory -/

namespace Session

variable {s : Session} {p root root' : Path} {d : Location} {rel : List String}

/-- The real path of a directory. -/
theorem LeadsTo.resolve? (h : s.LeadsTo p d) (hs : s.Sound) : s.resolve? p = .ok d.path := by
  have hr : s.resolve? (p.append []) = _ := resolve?_append h (fun _ hc => absurd hc List.not_mem_nil)
    fun first _ hne hfirst => absurd (List.prefix_nil.1 hfirst) hne
  rwa [Path.append_nil, List.append_nil, h.hasZero hs, if_neg Bool.false_ne_true] at hr

theorem leadsTo_of_isDirectory? (h : s.isDirectory? p = .ok true) : ∃ d, s.LeadsTo p d := by
  unfold isDirectory? look at h
  split at h
  · cases h
  · split at h
    · rename_i place hplace
      have hnode := isDirectoryNode_iff.1 (Except.ok.inj h)
      exact ⟨place.location, leadsTo_iff_find.2 (by rw [hplace, ← hnode])⟩
    · cases h
    · cases h

/-- Two paths with one real path that lead to directories lead to one directory. -/
theorem leadsTo_of_resolve?_eq (hs : s.Sound) (h : s.isDirectory? root = .ok true) (h' : s.isDirectory? root' = .ok true)
    (hreal : s.resolve? root = s.resolve? root') : ∃ d, s.LeadsTo root d ∧ s.LeadsTo root' d := by
  obtain ⟨d, hd⟩ := leadsTo_of_isDirectory? h
  obtain ⟨d', hd'⟩ := leadsTo_of_isDirectory? h'
  rw [hd.resolve? hs, hd'.resolve? hs] at hreal
  have hsame : d = d' := congrArg Path.parts (Except.ok.inj hreal)
  exact ⟨d, hd, hsame ▸ hd'⟩

private theorem hasZero_spelling (hs : s.Sound) (h : s.LeadsTo root d) (h' : s.LeadsTo root' d) (rel : List String) :
    (root.append rel).hasZero = (root'.append rel).hasZero := by
  rw [Path.hasZero_append, Path.hasZero_append, h.hasZero hs, h'.hasZero hs]

/-- Names are found alike behind each path of a directory, unless only one of the paths leads through too many links. -/
theorem find_spelling (h : s.LeadsTo root d) (h' : s.LeadsTo root' d)
    (hloop : s.find true (root.append rel) = .error .linkLoop ↔ s.find true (root'.append rel) = .error .linkLoop) :
    s.find true (root.append rel) = s.find true (root'.append rel) := by
  obtain ⟨n, hn, hl⟩ := h
  obtain ⟨m, hm, hl'⟩ := h'
  have hfind : s.find true (root.append rel) = s.files.walk true (maxLinks - n) d rel :=
    Files.walk_of_leads hl hn (.inr rfl)
  have hfind' : s.find true (root'.append rel) = s.files.walk true (maxLinks - m) d rel :=
    Files.walk_of_leads hl' hm (.inr rfl)
  rw [hfind, hfind'] at hloop ⊢
  exact Files.walk_links_eq hloop

/-- Whether names lead to anything behind a path of a directory does not depend on the path, apart from its text in the
failure of a question about names that are too long. -/
theorem exists?_spelling (hs : s.Sound) (h : s.LeadsTo root d) (h' : s.LeadsTo root' d)
    (hloop : s.find true (root.append rel) = .error .linkLoop ↔ s.find true (root'.append rel) = .error .linkLoop) :
    s.exists? (root.append rel) = s.exists? (root'.append rel) ∨
      s.exists? (root.append rel) = .error (refuse .nameTooLong (root.append rel).written) ∧
        s.exists? (root'.append rel) = .error (refuse .nameTooLong (root'.append rel).written) := by
  unfold exists? look
  rw [hasZero_spelling hs h h' rel, find_spelling h h' hloop]
  split
  · exact .inl rfl
  · split
    · exact .inl rfl
    · exact .inr ⟨rfl, rfl⟩
    · exact .inl rfl

/-- The real path of names behind a path of a directory does not depend on the path. -/
theorem resolve?_spelling (hs : s.Sound) (h : s.LeadsTo root d) (h' : s.LeadsTo root' d) (rel : List String) :
    s.resolve? (root.append rel) = s.resolve? (root'.append rel) := by
  have hzero := hasZero_spelling hs h h' rel
  obtain ⟨n, -, hl⟩ := h
  obtain ⟨m, -, hl'⟩ := h'
  have hcanonical : s.files.canonical (s.files.links + 1) [] (s.start root) (root.append rel).parts =
      s.files.canonical (s.files.links + 1) [] (s.start root') (root'.append rel).parts := by
    rw [Path.parts_append, Path.parts_append, Files.canonical_append (Files.canonical_of_leads hl),
      Files.canonical_append (Files.canonical_of_leads hl')]
  have hstart : (if (root.append rel).isAbsolute then [] else s.workingDir) = s.start root := rfl
  have hstart' : (if (root'.append rel).isAbsolute then [] else s.workingDir) = s.start root' := rfl
  unfold resolve?
  simp only [hzero, hstart, hstart', hcanonical]

end Session

/-! ### Verdicts -/

namespace Policy

variable {s : Session} {p q project project' root root' : Path} {d : Location} {rel : List String} {e : Ecosystem}
  {policy : Policy}

/-- The real path of what a path leads to lies at or under that of the project or of an entry of the configuration
that decides about it. -/
def Placed (s : Session) (c : Config) (updating : Bool) (p project : Path) : Prop :=
  ∀ real base, s.exists? p = .ok true → s.resolve? p = .ok real → s.resolve? project = .ok base →
    real.isUnder base = true ∨
      ∃ key, (key = .forceUpdate → updating = true) ∧ ((isConfigured base real (c.paths key)).perform s).1 = .ok true

/-- What policies have loaded does not matter for where the entries of a configuration are. -/
theorem Placed.withLoaded {c : Config} {updating : Bool} (h : Placed s c updating p project)
    (loaded : List (Nat × Config)) : Placed { s with loaded } c updating p project := by
  have hresolve : ∀ p, Agrees s { s with loaded } (resolve p) := fun p => Agrees.query rfl
  have hagrees : ∀ base real entries, Agrees s { s with loaded } (isConfigured base real entries) := fun base _ _ =>
    ((hresolve base).bind fun _ _ => Agrees.mapM fun _ _ => hresolve _).bind fun _ _ => Agrees.pure _
  intro real base hexists hreal hbase
  refine (h real base hexists hreal hbase).imp_right ?_
  rintro ⟨key, hkey, hcovers⟩
  exact ⟨key, hkey, (hagrees base real (c.paths key)).same.symm.trans hcovers⟩

/-- If no entry of the configuration decides about a path, it lies in the project. -/
private theorem Placed.isUnder {c : Config} {updating : Bool} {real base : Path} (h : Placed s c updating p project)
    (hexists : s.exists? p = .ok true) (hreal : s.resolve? p = .ok real) (hbase : s.resolve? project = .ok base)
    (hforces : updating = true → (isConfigured base real c.forceUpdate).perform s = (.ok false, s))
    (hexercise : (isConfigured base real c.extraExerciseFiles).perform s = (.ok false, s))
    (hstudent : (isConfigured base real c.extraStudentFiles).perform s = (.ok false, s)) : real.isUnder base = true := by
  refine (h real base hexists hreal hbase).resolve_right ?_
  rintro ⟨key, hkey, hcovers⟩
  have hdecides : (isConfigured base real (c.paths key)).perform s = (.ok false, s) := by
    cases key with
    | extraStudentFiles => exact hstudent
    | extraExerciseFiles => exact hexercise
    | forceUpdate => exact hforces (hkey rfl)
  rw [hdecides] at hcovers
  cases hcovers

private theorem perform_resolve {real : Path} {t : Session} (h : (resolve p).perform s = (.ok real, t)) :
    s.resolve? p = .ok real ∧ s = t := by
  unfold resolve at h
  rw [perform_query] at h
  exact Prod.mk.inj h

private theorem perform_resolve_congr (h : s.resolve? p = s.resolve? q) : (resolve p).perform s = (resolve q).perform s := by
  unfold resolve
  rw [perform_query, perform_query, h]

/-- An existing path with one real path is classified alike in a project with one real path. -/
theorem classifyExisting_spelling {c : Config} {updating : Bool} (hp : s.resolve? p = s.resolve? q)
    (hproject : s.resolve? project = s.resolve? project') (hexists : s.exists? p = .ok true)
    (hplaced : Placed s c updating p project) :
    (classifyExisting e c p project updating).perform s = (classifyExisting e c q project' updating).perform s := by
  unfold classifyExisting
  refine perform_bind_congr (perform_resolve_congr hp) fun real t hrun => ?_
  obtain ⟨hreal, rfl⟩ := perform_resolve hrun
  refine perform_bind_congr (perform_resolve_congr hproject) fun base t hrun => ?_
  obtain ⟨hbase, rfl⟩ := perform_resolve hrun
  have hlooks : ∀ {entries : List Path} {b : Bool} {t : Session},
      (isConfigured base real entries).perform s = (.ok b, t) → s = t := by
    intro entries b t hrun
    have h := looks_isConfigured base real entries s
    rw [hrun] at h
    exact h.symm
  refine perform_bind_congr rfl fun forced t hforced => ?_
  have hforces : s = t ∧ (updating = true → (isConfigured base real c.forceUpdate).perform s = (.ok forced, s)) := by
    cases updating with
    | true =>
      cases hlooks hforced
      exact ⟨rfl, fun _ => hforced⟩
    | false =>
      cases hforced
      exact ⟨rfl, nofun⟩
  obtain ⟨rfl, hforces⟩ := hforces
  cases forced with
  | true => rfl
  | false =>
    refine perform_bind_congr rfl fun exercise t hexercise => ?_
    cases hlooks hexercise
    cases exercise with
    | true => rfl
    | false =>
      dsimp only
      rw [if_neg Bool.false_ne_true, if_neg Bool.false_ne_true]
      by_cases hroot : real = base
      · rw [if_pos hroot, if_pos hroot]
      rw [if_neg hroot, if_neg hroot]
      refine perform_bind_congr rfl fun student t hstudent => ?_
      cases hlooks hstudent
      cases student with
      | true => rfl
      | false =>
        have hunder := hplaced.isUnder hexists hreal hbase hforces hexercise hstudent
        obtain ⟨relative, hrelative⟩ : ∃ relative, real.relativeTo? base = some relative := by
          rw [Path.isUnder_iff] at hunder
          exact ⟨_, if_pos ⟨hunder.1, List.isPrefixOf_iff_prefix.2 hunder.2⟩⟩
        rw [hrelative]
        rfl

/-- With one configuration, what leads to nothing is classified alike, and so is what has one real path. -/
private theorem classify_given_spelling (hs : s.Sound) (hkind : policy.kind = .ecosystem e) (c : Config)
    (updating : Bool) (h : s.LeadsTo root d) (h' : s.LeadsTo root' d)
    (hname : rel = [] → (root.name = Config.fileName ↔ root'.name = Config.fileName))
    (hloop : s.find true (root.append rel) = .error .linkLoop ↔ s.find true (root'.append rel) = .error .linkLoop)
    (hplaced : Placed s c updating (root.append rel) root) :
    (policy.classify (root.append rel) root (some c) updating).perform s =
        (policy.classify (root'.append rel) root' (some c) updating).perform s ∨
      (policy.classify (root.append rel) root (some c) updating).perform s =
          (.error (refuse .nameTooLong (root.append rel).written), s) ∧
        (policy.classify (root'.append rel) root' (some c) updating).perform s =
          (.error (refuse .nameTooLong (root'.append rel).written), s) := by
  have hfile : (root.append rel).name = Config.fileName ↔ (root'.append rel).name = Config.fileName := by
    by_cases hrel : rel = []
    · subst hrel
      rw [Path.append_nil, Path.append_nil]
      exact hname rfl
    · rw [Path.name_append root hrel, Path.name_append root' hrel]
  rw [classify_some hkind, classify_some hkind]
  rcases Session.exists?_spelling hs h h' hloop with hexists | ⟨hlong, hlong'⟩
  · refine .inl (perform_bind_congr ?_ fun there t hthere => ?_)
    · unfold pathExists
      rw [perform_query, perform_query, hexists]
    unfold pathExists at hthere
    rw [perform_query] at hthere
    obtain ⟨hfound, rfl⟩ := Prod.mk.inj hthere
    cases there with
    | false => rfl
    | true =>
      simp only [Bool.not_true, Bool.false_eq_true, if_false, hfile]
      split
      · rfl
      · have hproject : s.resolve? root = s.resolve? root' := by rw [h.resolve? hs, h'.resolve? hs]
        exact classifyExisting_spelling (Session.resolve?_spelling hs h h' rel) hproject hfound hplaced
  · have hfail : ∀ {p : Path} {f : Failure} (rest : Bool → Action Classification), s.exists? p = .error f →
        (pathExists p >>= rest).perform s = (.error f, s) := by
      intro p f rest hp
      have hrun : (pathExists p).perform s = (.error f, s) := by
        unfold pathExists
        rw [perform_query, hp]
      exact perform_bind_error hrun _
    exact .inr ⟨hfail _ hlong, hfail _ hlong'⟩

/-- A path of a project is classified alike however the path of the project is written, if the real path of what is
there lies in the project or is covered by an entry that decides about it.  Both ways of writing it have to have the
same last name where it is the path of the project itself, or one that is not the name of the configuration file, and
neither of them alone may lead through too many links.  Only the text of the failure for a name that is too long has
the path as it was written. -/
theorem classify_spelling (hs : s.Sound) (hkind : policy.kind = .ecosystem e) (given : Option Config) (updating : Bool)
    (h : s.isDirectory? root = .ok true) (h' : s.isDirectory? root' = .ok true)
    (hreal : s.resolve? root = s.resolve? root')
    (hname : rel = [] → (root.name = Config.fileName ↔ root'.name = Config.fileName))
    (hloop : s.find true (root.append rel) = .error .linkLoop ↔ s.find true (root'.append rel) = .error .linkLoop)
    (hplaced : ∀ c, policy.GoesBy s given c → Placed s c updating (root.append rel) root) :
    (policy.classify (root.append rel) root given updating).perform s =
        (policy.classify (root'.append rel) root' given updating).perform s ∨
      ∃ t, (policy.classify (root.append rel) root given updating).perform s =
          (.error (refuse .nameTooLong (root.append rel).written), t) ∧
        (policy.classify (root'.append rel) root' given updating).perform s =
          (.error (refuse .nameTooLong (root'.append rel).written), t) := by
  obtain ⟨d, hd, hd'⟩ := Session.leadsTo_of_resolve?_eq hs h h' hreal
  cases given with
  | some c =>
    rcases classify_given_spelling hs hkind c updating hd hd' hname hloop (hplaced c rfl) with hsame | hlong
    · exact .inl hsame
    · exact .inr ⟨s, hlong⟩
  | none =>
    rw [classify_none hkind, classify_none hkind, perform_bind, perform_bind]
    split
    · rename_i c t hrun
      have hgoes : policy.GoesBy s none c := congrArg Prod.fst hrun
      -- taking the configuration leaves the files alone
      obtain ⟨loaded, rfl⟩ := perform_config_files hrun
      rcases classify_given_spelling (s := { s with loaded }) ⟨hs.files, hs.workingDir⟩ hkind c updating hd hd' hname
        hloop ((hplaced c hgoes).withLoaded loaded) with hsame | hlong
      · exact .inl hsame
      · exact .inr ⟨_, hlong⟩
    · exact .inl rfl

/-- A session in a directory `w` with a project `p` whose sources are linked from outside.  The project is linked under
the name of a configuration file as well. -/
def sampleLinks : Session where
  files := ⟨[(["w"], .directory), (["w", "p"], .directory), (["w", "p", "lib"], .directory),
    (["w", "p", "lib", "A"], .file [] false), (["w", "p", "gen"], .link "lib"), (["w", "p", "src"], .link "../o"),
    (["w", "o"], .directory), (["w", "o", "A"], .file [] false), (["w", "src"], .directory),
    (["w", ".tmcproject.yml"], .link "p")]⟩
  workingDir := ["w"]
  scratch := ["t"]

/-- A file behind a link inside the project, found under its own entry from each path of the project. -/
theorem sampleLinks_agree :
    let c : Config := { extraStudentFiles := [⟨.relative, ["lib"]⟩] }
    let verdictOf := fun root : Path =>
      ((sampleAnt.classify (root.append ["gen", "A"]) root (some c) false).perform sampleLinks).1
    sampleLinks.isDirectory? ⟨.relative, ["p"]⟩ = .ok true ∧
      sampleLinks.isDirectory? ⟨.relative, ["src", "..", ".tmcproject.yml"]⟩ = .ok true ∧
      sampleLinks.resolve? ⟨.relative, ["p"]⟩ = sampleLinks.resolve? ⟨.relative, ["src", "..", ".tmcproject.yml"]⟩ ∧
      verdictOf ⟨.relative, ["p"]⟩ = .ok .studentFile ∧
      verdictOf ⟨.relative, ["p"]⟩ = verdictOf ⟨.relative, ["src", "..", ".tmcproject.yml"]⟩ := by
  intro c verdictOf
  have hsound : sampleLinks.Sound := ⟨Files.wellFormed_of_entries (by decide +kernel), rfl⟩
  have hp : sampleLinks.isDirectory? ⟨.relative, ["p"]⟩ = .ok true := by decide +kernel
  have hq : sampleLinks.isDirectory? ⟨.relative, ["src", "..", ".tmcproject.yml"]⟩ = .ok true := by decide +kernel
  have hrealp : sampleLinks.resolve? ⟨.relative, ["p"]⟩ = .ok ⟨.root, ["w", "p"]⟩ := by decide +kernel
  have hrealq : sampleLinks.resolve? ⟨.relative, ["src", "..", ".tmcproject.yml"]⟩ = .ok ⟨.root, ["w", "p"]⟩ := by
    decide +kernel
  have hfile : sampleLinks.resolve? ⟨.relative, ["p", "gen", "A"]⟩ = .ok ⟨.root, ["w", "p", "lib", "A"]⟩ := by
    decide +kernel
  have hreal := hrealp.trans hrealq.symm
  have hplaced : Placed sampleLinks c false ⟨.relative, ["p", "gen", "A"]⟩ ⟨.relative, ["p"]⟩ := by
    intro real base _ hr hb
    cases hfile.symm.trans hr
    cases hrealp.symm.trans hb
    exact .inl (by decide +kernel)
  have hverdict : verdictOf ⟨.relative, ["p"]⟩ = .ok .studentFile := by decide +kernel
  refine ⟨hp, hq, hreal, hverdict, ?_⟩
  rcases @classify_spelling sampleLinks _ _ ["gen", "A"] .ant sampleAnt hsound rfl (some c) false hp hq hreal nofun
    (by decide +kernel) (fun _ hgoes => hgoes ▸ hplaced) with hsame | ⟨t, hlong, -⟩
  · exact congrArg Prod.fst hsame
  · have hnone : verdictOf ⟨.relative, ["p"]⟩ = .error _ := congrArg Prod.fst hlong
    rw [hverdict] at hnone
    cases hnone

/-- Three paths of one project: behind two of them a linked source is classified differently, and the project itself
is taken for a configuration file under the third. -/
theorem sampleLinks_differ :
    let verdictOf := fun (c : Config) (updating : Bool) (root : Path) (rel : List String) =>
      ((sampleAnt.classify (root.append rel) root (some c) updating).perform sampleLinks).1
    let all : Config := { forceUpdate := [⟨.relative, []⟩] }
    (∀ root ∈ [⟨.relative, ["p"]⟩, ⟨.relative, ["src", "..", "p"]⟩, ⟨.relative, [".tmcproject.yml"]⟩],
      sampleLinks.isDirectory? root = .ok true ∧ sampleLinks.resolve? root = .ok ⟨.root, ["w", "p"]⟩) ∧
    verdictOf {} false ⟨.relative, ["p"]⟩ ["src", "A"] = .ok .exerciseFile ∧
    verdictOf {} false ⟨.relative, ["src", "..", "p"]⟩ ["src", "A"] = .ok .studentFile ∧
    verdictOf all true ⟨.relative, ["p"]⟩ [] = .ok .forceUpdated ∧
    verdictOf all true ⟨.relative, [".tmcproject.yml"]⟩ [] = .ok .exerciseFile := by
  decide +kernel

end Policy

end Handout
