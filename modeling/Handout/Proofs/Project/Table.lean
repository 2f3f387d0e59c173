import Handout.Proofs.Project.Classification

/-!
# Classifications with and without an update

A path of a project without links is classified by a table: a path that is missing, and the configuration file, belong
to the exercise, and for every other path the verdict follows from its names (`Policy.table`).  This needs that the
question whether the path is there has an answer, which fails on names that are too long, and that the entries of the
configuration have real paths, which fails on zero characters.  An update changes the classification of a path that is
there and is not the configuration file exactly where the update is forced (`Policy.classify_table`).
-/

namespace Handout

open Handout.Action

variable {P : Session → Prop} {s : Session} {project : Path} {loc : Location} {rel : List String} {e : Ecosystem} {c : Config}
  {policy : Policy} {given : Option Config}

namespace Session.Rooted

/-- Whether a path of the project is there, can be asked where no name is too long. -/
theorem exists?_of_short (h : s.Rooted project loc) (hp : ∀ x ∈ rel, IsPlain x ∧ x.utf8ByteSize ≤ maxName) :
    s.exists? (project.append rel) = .ok (s.files.get? (loc ++ rel)).isSome := by
  have hlook := Session.look_append_of_short true h.leads h.sound (fun x hx => (hp x hx).1) (h.clear rel) (.inr rfl)
    fun x hx => (hp x hx).2
  unfold Session.exists?
  rw [hlook]
  split
  · rename_i hzero
    have hnone : s.files.get? (loc ++ rel) = none := by
      by_contra hn
      rw [h.hasZero hn] at hzero
      cases hzero
    rw [hnone]
    rfl
  · rfl

end Session.Rooted

namespace Policy

/-- The classification of a path with some last name, which has some names below the project. -/
def table (e : Ecosystem) (c : Config) (updating : Bool) (name : String) (rel : List String) (there : Bool) :
    Classification :=
  if there = false ∨ name = Config.fileName then .exerciseFile else verdict e c updating rel

/-- The configuration that a policy goes by: the one that is given to it, or else its own. -/
def GoesBy (policy : Policy) (s : Session) (given : Option Config) (c : Config) : Prop :=
  match given with
  | some c' => c' = c
  | none => (policy.config.perform s).1 = .ok c

/-- What a policy does with the configuration that it goes by. -/
theorem goesBy_bind {α : Type} {f : Config → Action α} {Q : α → Session → Prop} {E : Failure → Session → Prop}
    (hload : ∀ s loaded, P s → P { s with loaded }) (h : Ensures P (f c) Q E) :
    Ensures (fun s => P s ∧ policy.GoesBy s given c)
      (match given with
        | some c' => pure c' >>= f
        | none => policy.config >>= f) Q E := by
  cases given with
  | some c' =>
    refine Ensures.of_and fun hc' => ?_
    obtain rfl : c' = c := hc'
    exact Ensures.bind (M := fun c'' s => P s ∧ c'' = c') (Ensures.pure fun _ hs => ⟨hs, rfl⟩) fun c'' =>
      Ensures.of_and fun hc'' => by rwa [hc'']
  | none =>
    refine ((config_ensures hload).mono (fun _ hs => hs) (fun _ _ hs => hs) fun _ _ => False.elim).bind fun c' =>
      Ensures.of_and fun hc' => ?_
    rw [hc']
    exact h.mono (fun _ hs => hs.1) (fun _ _ hs => hs) fun _ _ hs => hs

/-- What is the case at a path of a project does not change when a policy loads its configuration. -/
private def At (project : Path) (loc : Location) (rel : List String) (node : Option Node) (s : Session) : Prop :=
  s.Rooted project loc ∧ s.files.get? (loc ++ rel) = node

private theorem At.withLoaded {node : Option Node} :
    ∀ s loaded, At project loc rel node s → At project loc rel node { s with loaded } :=
  fun _ loaded h => ⟨h.1.withLoaded loaded, h.2⟩

/-- A path is classified as the table says. -/
theorem classify_ensures {node : Option Node} (hkind : policy.kind = .ecosystem e) (hc : c.Inside)
    (hzero : node ≠ none → c.NoZero) (hp : ∀ x ∈ rel, IsPlain x ∧ x.utf8ByteSize ≤ maxName) (updating : Bool) :
    Ensures (fun s => At project loc rel node s ∧ policy.GoesBy s given c)
      (policy.classify (project.append rel) project given updating)
      (fun v _ => v = table e c updating (project.append rel).name rel node.isSome) fun _ _ => False := by
  have hexists : Ensures (At project loc rel node) (pathExists (project.append rel))
      (fun b s => At project loc rel node s ∧ b = node.isSome) fun _ _ => False := by
    refine Ensures.query fun s hs => ?_
    rw [hs.1.exists?_of_short hp, hs.2]
    exact ⟨hs, rfl⟩
  unfold classify
  rw [hkind]
  dsimp only
  refine goesBy_bind At.withLoaded ?_
  refine hexists.bind fun b => Ensures.of_and fun hb => ?_
  subst hb
  unfold table
  cases node with
  | none => exact Ensures.pure fun _ _ => (if_pos (.inl rfl)).symm
  | some node =>
    rw [Option.isSome_some, Bool.not_true, if_neg Bool.false_ne_true]
    split
    · rename_i hname
      exact Ensures.pure fun _ _ => (if_pos (.inr hname)).symm
    · rename_i hname
      have hpath : ∀ s, At project loc rel (some node) s →
          s.resolve? (project.append rel) = .ok (Location.path (loc ++ rel)) := fun s hs =>
        hs.1.resolve?_of_exists (fun x hx => (hp x hx).1) (by rw [hs.2]; exact Option.some_ne_none _)
      rw [if_neg (not_or.2 ⟨nofun, hname⟩)]
      exact (classifyExisting_ensures (fun _ hs => hs.1) hc hpath updating
        fun _ _ _ hnot => hnot (hzero (Option.some_ne_none _))).mono (fun _ hs => hs) (fun _ _ hs => hs.2) fun _ _ hs => hs

/-- Whether an update of an existing path is forced depends on its names and the entries that force it. -/
theorem isUpdatingForced_ensures {node : Node} (hkind : policy.kind = .ecosystem e) (hc : c.Inside) (hzero : c.NoZero)
    (hp : ∀ x ∈ rel, IsPlain x) :
    Ensures (fun s => At project loc rel (some node) s ∧ policy.GoesBy s given c)
      (policy.isUpdatingForced (project.append rel) project given)
      (fun b _ => b = decide (Config.Covers c.forceUpdate rel)) fun _ _ => False := by
  have hresolve : ∀ {names : List String}, (∀ x ∈ names, IsPlain x) →
      (∀ s, At project loc rel (some node) s → s.files.get? (loc ++ names) ≠ none) →
      Ensures (At project loc rel (some node)) (resolve (project.append names))
        (fun p s => At project loc rel (some node) s ∧ p = Location.path (loc ++ names)) fun _ _ => False := by
    intro names hnames hthere
    refine Ensures.query fun s hs => ?_
    rw [hs.1.resolve?_append hnames, hs.1.hasZero (hthere s hs), if_neg Bool.false_ne_true]
    exact ⟨hs, rfl⟩
  have hroot := @hresolve [] (by simp) fun s hs => by
    rw [List.append_nil, hs.1.directory]
    exact Option.some_ne_none _
  rw [Path.append_nil, List.append_nil] at hroot
  have hpath := hresolve hp fun s hs => by
    rw [hs.2]
    exact Option.some_ne_none _
  unfold isUpdatingForced
  rw [hkind]
  dsimp only
  refine goesBy_bind At.withLoaded ?_
  refine hroot.bind fun root => Ensures.of_and fun hrooted => ?_
  refine hpath.bind fun absolute => Ensures.of_and fun habsolute => ?_
  subst hrooted habsolute
  refine (isConfigured_ensures (fun _ hs => hs.1) (hc .forceUpdate) fun _ _ _ hnot => hnot (hzero .forceUpdate)).mono
    (fun _ hs => hs) (fun b _ hs => ?_) fun _ _ hs => hs
  rw [Bool.eq_iff_iff, hs.2, decide_eq_true_eq]
  rfl

/-- An update is felt in the table exactly where entries force it. -/
theorem table_update (e : Ecosystem) (c : Config) {name : String} (hname : name ≠ Config.fileName) (rel : List String) :
    (table e c true name rel true ≠ table e c false name rel true ↔ Config.Covers c.forceUpdate rel) ∧
      (Config.Covers c.forceUpdate rel → table e c true name rel true = .forceUpdated) := by
  have hexisting : ∀ updating, table e c updating name rel true = verdict e c updating rel := fun updating =>
    if_neg (not_or.2 ⟨nofun, hname⟩)
  have hforced : Config.Covers c.forceUpdate rel → verdict e c true rel = .forceUpdated := fun h => if_pos ⟨rfl, h⟩
  have hplain : verdict e c false rel ≠ .forceUpdated := by
    unfold verdict
    rw [if_neg fun h => Bool.false_ne_true h.1]
    split
    · exact nofun
    · split <;> exact nofun
  have hsame : ¬ Config.Covers c.forceUpdate rel → verdict e c true rel = verdict e c false rel := by
    intro h
    unfold verdict
    rw [if_neg fun hc => h hc.2, if_neg (fun hc => h hc.2 : ¬ (false = true ∧ _))]
  rw [hexisting, hexisting]
  refine ⟨⟨fun hne => by_contra fun h => hne (hsame h), fun h heq => hplain ?_⟩, hforced⟩
  rw [← heq, hforced h]

/-- A session in a directory `w` with a project `p`. -/
def sampleTree : Session where
  files := ⟨[(["w"], .directory), (["w", "p"], .directory), (["w", "p", "build.xml"], .file [] false),
    (["w", "p", "src"], .directory), (["w", "p", "src", "gen"], .directory), (["w", "p", "src", "gen", "A"], .file [] false)]⟩
  workingDir := ["w"]
  scratch := ["t"]

/-- A policy for the project. -/
def sampleAnt : Policy := ⟨.ecosystem .ant, ⟨.relative, ["p"]⟩, 0⟩

end Policy

end Handout
