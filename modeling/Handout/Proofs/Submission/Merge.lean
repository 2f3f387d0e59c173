import Handout.Proofs.Files.Copy
import Handout.Proofs.Files.View
import Handout.Submission.Merge

/-!
# What a package is made of

A package is put together by copies, each of which is a layer over the earlier ones.  `mergeLayers` lists the layers of
each style, and a merge that succeeds has laid exactly these (`merge_relates`).

This is proved for two sessions at once (`Merging`), in which the parts come from paths that offer the same (`Pair`).
Then every copy has the same outcome in both; failures may differ in the paths that they name (`Failure.Alike`).  One
session beside itself is a special case.
-/

namespace Handout

/-- Failures of the same kind, which may name different paths. -/
def Failure.Alike : Failure → Failure → Prop
  | .activity a _ _, .activity b _ _ => a = b
  | .system (.call c _), .system (.call d _) => c = d
  | e, f => e = f

theorem Failure.Alike.refl (e : Failure) : e.Alike e := by
  cases e with
  | activity => rfl
  | system error => cases error <;> rfl
  | _ => rfl

namespace Submission

open Handout.Action Session

variable {u v s t : Session} {d : Location} {p q : Path} {place : List String} {ls : List Layer} {α β : Type}

/-- Answers that are the same or fail alike. -/
def Answers (a b : Except Failure α) : Prop :=
  match a, b with
  | .ok x, .ok y => x = y
  | .error e, .error f => e.Alike f
  | _, _ => False

theorem Answers.refl (a : Except Failure α) : Answers a a := by
  cases a with
  | ok a => rfl
  | error e => exact Failure.Alike.refl e

/-! ### The layers of a package -/

/-- The layer of a copy from a path to a place. -/
def layer (u : Session) (p : Path) (place : List String) : Layer := ⟨u.offers p, p.name, place⟩

/-- The layer of a copy that is made if there is something to copy. -/
def layerIf (u : Session) (p : Path) (place : List String) : List Layer :=
  if (u.node? true p).isSome then [layer u p place] else []

/-- The layers of parts of a project that go to the same places. -/
def overlayLayers (u : Session) (project : Path) (ps : List Path) : List Layer :=
  ps.flatMap fun p => layerIf u (project.join p) p.parts

/-- The layers of parts of a project that go where their names say. -/
def gatherLayers (u : Session) (project : Path) (ps : List Path) : List Layer :=
  ps.flatMap fun p => layerIf u (project.join p) (Path.ofString (project.join p).name).parts

/-- The layers of the files at the top of a directory, which has to be listed for this. -/
def topLayers (u : Session) (dir : Path) : List Layer :=
  match ((filesIn dir).perform u).1 with
  | .ok files => files.map fun p => layer u p [p.name]
  | .error _ => [.never]

/-- The layers of a merge. -/
def mergeLayers (u : Session) (style : PackagingStyle) (received clone tests : Path) (layout : PackagingLayout) :
    List Layer :=
  match style with
  | .maven => layer u (clone.child "pom.xml") ["pom.xml"] :: layerIf u (clone.append ["src", "main"]) ["src", "main"]
      ++ layerIf u (tests.append ["src", "test"]) ["src", "test"] ++ overlayLayers u received layout.studentPaths
      ++ overlayLayers u tests layout.exercisePaths ++ topLayers u clone
  | .make => layerIf u (clone.child "src") ["src"] ++ layerIf u (clone.child "test") ["test"]
      ++ overlayLayers u received layout.studentPaths ++ topLayers u tests
  | .generic => layerIf u (clone.child "lib") ["lib"] ++ gatherLayers u received layout.studentPaths
      ++ gatherLayers u tests layout.exercisePaths ++ topLayers u clone

/-! ### Two sessions -/

/-- Two sessions in which only what is below a directory has changed. -/
structure Beside (u v : Session) (d : Location) (s t : Session) : Prop where
  left : Within u s d
  right : Within v t d

/-- Failures are alike, and only what is below a directory has changed. -/
def BothFail (u v : Session) (d : Location) (e f : Failure) (s t : Session) : Prop := e.Alike f ∧ Beside u v d s t

/-- In two sessions the same layers have been laid below a directory. -/
structure Merging (u v : Session) (d : Location) (ls : List Layer) (s t : Session) : Prop extends Beside u v d s t where
  same : s.files.content d = t.files.content d
  stacked : Stacked ls (s.files.content d)

theorem Merging.log (h : Merging u v d ls s t) (record : LogRecord) :
    Merging u v d ls { s with log := s.log ++ [record] } { t with log := t.log ++ [record] } :=
  ⟨⟨h.left.log record, h.right.log record⟩, h.same, h.stacked⟩

/-- Paths from which the same can be copied, one in each session, while a package is put together elsewhere. -/
structure Pair (u v : Session) (d : Location) (p q : Path) : Prop where
  left : Avoids u p d
  right : Avoids v q d
  offers : u.offers p = v.offers q
  name : u.offers p [] = some .directory ∨ p.name = q.name
  zero : p.hasZero = q.hasZero
  there : Answers (u.exists? p) (v.exists? q)

/-- A path that shows the same in both sessions. -/
structure Shared (u v : Session) (d : Location) (p : Path) : Prop where
  left : Avoids u p d
  right : Avoids v p d
  view : SameView u v p

theorem Shared.append (h : Shared u v d p) {names : List String} (hp : ∀ c ∈ names, IsPlain c) :
    Shared u v d (p.append names) :=
  ⟨h.left.append hp, h.right.append hp, h.view.append hp⟩

theorem Shared.pair (h : Shared u v d p) : Pair u v d p p :=
  ⟨h.left, h.right, h.view.offers, .inr rfl, rfl, by rw [h.view.exists?]; exact Answers.refl _⟩

/-- A path that shows the same in both sessions gives the same answer to what only looks at it. -/
theorem Shared.looks (h : Shared u v d p) {act : Action α} (hact : ∀ s t, SameView s t p → s.Sound → Agrees s t act)
    (hu : u.Sound) (hv : v.Sound) :
    Relates (Merging u v d ls) act act (fun a s t => Merging u v d ls s t ∧ (act.perform u).1 = .ok a)
      (BothFail u v d) := by
  intro s t hst
  obtain ⟨-, hs, hus⟩ := hact u s (hst.left.sameView h.left) hu
  obtain ⟨-, ht, hvt⟩ := hact v t (hst.right.sameView h.right) hv
  have huv := (hact u v h.view hu).same
  generalize act.perform s = o at hs hus ⊢
  generalize act.perform t = o' at ht hvt ⊢
  obtain ⟨r, s'⟩ := o
  obtain ⟨r', t'⟩ := o'
  dsimp only at hs hus ht hvt
  subst hs ht
  rw [huv, hvt] at hus
  subst hus
  cases r' with
  | ok a => exact ⟨rfl, hst, huv.trans hvt⟩
  | error e => exact ⟨Failure.Alike.refl e, hst.toBeside⟩

theorem pathExists_relates (hp : Pair u v d p q) :
    Relates (Merging u v d ls) (pathExists p) (pathExists q)
      (fun b s t => Merging u v d ls s t ∧ b = (u.node? true p).isSome) (BothFail u v d) := by
  refine Relates.query fun s t hst => ?_
  rw [← (hst.left.sameView hp.left).exists?, ← (hst.right.sameView hp.right).exists?]
  have hthere := hp.there
  unfold Answers at hthere
  split at hthere
  · rename_i b b' hb hb'
    rw [hb, hb']
    exact ⟨hthere, hst, exists?_eq_ok hb⟩
  · rename_i e f he hf
    rw [he, hf]
    exact ⟨hthere, hst.toBeside⟩
  · exact hthere.elim

/-! ### Copies -/

/-- How copies of the same fail. -/
private theorem alike_of_fails {old : Content} {e f : Failure} (he : Fails old place p e) (hf : Fails old place q f)
    (hz : p.hasZero = q.hasZero) : (ascribed .copy p e).Alike (ascribed .copy q f) := by
  have hreported : ∀ {e : Failure}, Reported e → ∃ error, e = .system error := by
    intro e h
    cases e with
    | system error => exact ⟨error, rfl⟩
    | _ => exact h.elim
  rcases he with ⟨he, hblocked⟩ | ⟨rfl, hzero, hfree⟩ <;> rcases hf with ⟨hf, hblocked'⟩ | ⟨rfl, hzero', hfree'⟩
  · obtain ⟨error, rfl⟩ := hreported he
    obtain ⟨error', rfl⟩ := hreported hf
    exact rfl
  · rcases hblocked with h | h
    · exact absurd h hfree'
    · rw [hz, hzero'] at h
      cases h
  · rcases hblocked' with h | h
    · exact absurd h hfree
    · rw [← hz, hzero] at h
      cases h
  · exact rfl

/-- A copy lays a layer in both sessions, or fails alike. -/
theorem copyMerge_relates (hu : u.Sound) (hv : v.Sound) (hp : Pair u v d p q) (hplace : ∀ c ∈ place, IsProper c) :
    Relates (Merging u v d ls) (copyMerge p (Location.path (d ++ place))) (copyMerge q (Location.path (d ++ place)))
      (fun _ => Merging u v d (ls ++ [layer u p place])) (BothFail u v d) := by
  intro s t h
  have hl := copyMerge_deposits hu h.left hp.left hplace
  have hr := copyMerge_deposits hv h.right hp.right hplace
  unfold copyMerge
  rw [perform_during, perform_during]
  generalize (Action.copyMerge p (Location.path (d ++ place))).perform s = o at hl ⊢
  generalize (Action.copyMerge q (Location.path (d ++ place))).perform t = o' at hr ⊢
  obtain ⟨r, s'⟩ := o
  obtain ⟨r', t'⟩ := o'
  unfold Deposits at hr
  rw [← h.same] at hr
  -- the layer is the same in the other session
  have hobstructed : (layer u p place).IsObstructed (s.files.content d) ↔ (layer v q place).IsObstructed (s.files.content d) :=
    Layer.isObstructed_iff hp.offers rfl hp.name
  have honto : (layer u p place).onto (s.files.content d) = (layer v q place).onto (s.files.content d) :=
    Layer.onto_eq hp.offers rfl hp.name
  cases r with
  | ok a =>
    obtain ⟨hs', hfree, hcontent⟩ := hl
    cases r' with
    | ok b =>
      obtain ⟨ht', -, hcontent'⟩ := hr
      have hcontent : s'.files.content d = (layer u p place).onto (s.files.content d) := hcontent
      have hcontent' : t'.files.content d = (layer v q place).onto (s.files.content d) := hcontent'
      refine ⟨rfl, ⟨hs', ht'⟩, ?_, ?_⟩
      · rw [hcontent, hcontent', honto]
      · rw [hcontent]
        exact h.stacked.lay _ hfree
    | error f => exact absurd (hobstructed.2 hr.2.1) hfree
  | error e =>
    cases r' with
    | ok b => exact absurd (hobstructed.1 hl.2.1) hr.2.1
    | error f => exact ⟨alike_of_fails hl.2.2 hr.2.2 hp.zero, hl.1, hr.1⟩

variable (ls) in
/-- A copy that is made if there is something to copy. -/
theorem copyIfExists_relates (hu : u.Sound) (hv : v.Sound) (hp : Pair u v d p q)
    (hplace : (u.node? true p).isSome → ∀ c ∈ place, IsProper c) :
    Relates (Merging u v d ls) (copyIfExists p (Location.path (d ++ place))) (copyIfExists q (Location.path (d ++ place)))
      (fun _ => Merging u v d (ls ++ layerIf u p place)) (BothFail u v d) := by
  unfold copyIfExists layerIf
  refine (pathExists_relates hp).bind fun b => Relates.of_and fun hb => ?_
  rw [← hb]
  cases b with
  | true => exact copyMerge_relates hu hv hp (hplace hb.symm)
  | false =>
    refine Relates.pure fun _ _ hst => ?_
    rwa [if_neg Bool.false_ne_true, List.append_nil]

theorem copyInto_eq (source dir : Path) :
    copyInto source dir = copyMerge source (dir.join (Path.ofString source.name)) := by
  unfold copyInto copyMerge Action.copyInto discard
  rw [LawfulFunctor.map_const]
  simp

/-- A name that tells a place in a package: that of an entry, or none for the package itself. -/
def TellsPlace (name : String) : Prop := name = "" ∨ IsName name

theorem join_ofString {name : String} (h : TellsPlace name) :
    d.path.join (Path.ofString name) = Location.path (d ++ (Path.ofString name).parts) := by
  have hrelative : (Path.ofString name).isAbsolute = false := by
    rcases h with rfl | h
    · decide
    · rw [Path.ofString_of_isName h]
      rfl
  unfold Path.join
  rw [hrelative]
  rfl

/-- An entry of a directory is copied under its own name. -/
theorem copyInto_child {c : String} (hc : IsProper c) (dir : Path) :
    copyInto (dir.child c) d.path = copyMerge (dir.child c) (Location.path (d ++ [c])) := by
  rw [copyInto_eq, Path.name_child, join_ofString (.inr hc.toIsName), Path.ofString_of_isName hc.toIsName]

theorem proper_place (hname : TellsPlace p.name) (h : (u.node? true p).isSome) :
    ∀ c ∈ (Path.ofString p.name).parts, IsProper c := by
  rcases hname with hname | hname
  · rw [hname]
    exact fun c hc => absurd hc (by decide +revert)
  · rw [Path.ofString_of_isName hname]
    exact fun c hc => by rw [List.mem_singleton.1 hc]; exact proper_name_of_node? h hname

/-- A part of a project is reached by its names. -/
theorem join_of_inside {q : Path} (h : Config.IsInside q) (base : Path) : base.join q = base.append q.parts :=
  Path.join_eq_append base h.1

/-- Parts of a project go to the same places. -/
theorem overlay_relates (hu : u.Sound) (hv : v.Sound) {project project' : Path} {ps : List Path}
    (hinside : ∀ p ∈ ps, Config.IsInside p) (hps : ∀ p ∈ ps, Pair u v d (project.join p) (project'.join p)) :
    Relates (Merging u v d ls) (overlay project d.path ps) (overlay project' d.path ps)
      (fun _ => Merging u v d (ls ++ overlayLayers u project ps)) (BothFail u v d) := by
  have hloop := Relates.forM_done (l := ps) (E := BothFail u v d)
    (f := fun p => copyIfExists (project.join p) (d.path.join p))
    (g := fun p => copyIfExists (project'.join p) (d.path.join p))
    (fun done => Merging u v d (ls ++ overlayLayers u project done)) ?_
  · rwa [show overlayLayers u project [] = [] from rfl, List.append_nil] at hloop
  · rintro done p rest rfl
    have hmem : p ∈ done ++ p :: rest := by simp
    have hlayers : overlayLayers u project (done ++ [p]) =
        overlayLayers u project done ++ layerIf u (project.join p) p.parts := by
      simp [overlayLayers]
    rw [hlayers, ← List.append_assoc, join_of_inside (hinside p hmem) d.path]
    refine copyIfExists_relates _ hu hv (hps p hmem) fun hsome => ?_
    rw [join_of_inside (hinside p hmem)] at hsome
    exact proper_of_node? hsome (hinside p hmem).2

/-- Parts of a project go where their names say. -/
theorem gather_relates (hu : u.Sound) (hv : v.Sound) {project project' : Path} {ps : List Path}
    (hps : ∀ p ∈ ps, Pair u v d (project.join p) (project'.join p))
    (hname : ∀ p ∈ ps, (project.join p).name = (project'.join p).name ∧ TellsPlace (project.join p).name) :
    Relates (Merging u v d ls) (gather project d.path ps) (gather project' d.path ps)
      (fun _ => Merging u v d (ls ++ gatherLayers u project ps)) (BothFail u v d) := by
  have hloop := Relates.forM_done (l := ps) (E := BothFail u v d)
    (f := fun p => do if ← pathExists (project.join p) then copyInto (project.join p) d.path)
    (g := fun p => do if ← pathExists (project'.join p) then copyInto (project'.join p) d.path)
    (fun done => Merging u v d (ls ++ gatherLayers u project done)) ?_
  · rwa [show gatherLayers u project [] = [] from rfl, List.append_nil] at hloop
  · rintro done p rest rfl
    have hmem : p ∈ done ++ p :: rest := by simp
    obtain ⟨hsame, htells⟩ := hname p hmem
    have hlayers : gatherLayers u project (done ++ [p]) = gatherLayers u project done ++
        layerIf u (project.join p) (Path.ofString (project.join p).name).parts := by
      simp [gatherLayers]
    rw [hlayers, ← List.append_assoc]
    have hcopy := copyIfExists_relates (ls ++ gatherLayers u project done) hu hv (hps p hmem)
      (proper_place htells)
    unfold copyIfExists at hcopy
    rw [copyInto_eq, copyInto_eq, ← hsame, join_ofString htells]
    exact hcopy

/-- The files at the top of a directory. -/
theorem copyTopFiles_relates (hu : u.Sound) (hv : v.Sound) {dir : Path} (h : Shared u v d dir) :
    Relates (Merging u v d ls) (copyTopFiles dir d.path) (copyTopFiles dir d.path)
      (fun _ => Merging u v d (ls ++ topLayers u dir)) (BothFail u v d) := by
  unfold copyTopFiles
  refine (h.looks (fun s t hst hs => (agrees_filesIn hst hs).during .list dir) hu hv).bind fun files => ?_
  refine Relates.of_and fun hfiles => ?_
  have hperform : ((filesIn dir).perform u).1 = .ok files := by
    rw [perform_during] at hfiles
    rcases hp : (filesIn dir).perform u with ⟨r, u'⟩
    rw [hp] at hfiles
    cases r with
    | ok a => exact hfiles
    | error e => cases hfiles
  have htop : topLayers u dir = files.map fun p => layer u p [p.name] := by
    unfold topLayers
    rw [hperform]
  rw [htop]
  have hloop := Relates.forM_done (l := files) (E := BothFail u v d)
    (f := fun p => copyInto p d.path) (g := fun p => copyInto p d.path)
    (fun done => Merging u v d (ls ++ done.map fun p => layer u p [p.name])) ?_
  · rwa [List.map_nil, List.append_nil] at hloop
  · rintro done p rest rfl
    obtain ⟨found, hfound, hmem⟩ := mem_filesIn hperform
    obtain ⟨c, hc, -, rfl⟩ := (hmem p).1 (by simp)
    have hproper : IsProper c := proper_of_names? hu hfound hc
    have hplain : ∀ x ∈ [c], IsPlain x := by simpa using hproper.plain
    rw [List.map_append, List.map_singleton, ← List.append_assoc, copyInto_child hproper, Path.name_child]
    exact copyMerge_relates hu hv (h.append hplain).pair (by simpa using hproper)

/-! ### Merges -/

/-- What a merge needs in both sessions. -/
structure Mergeable (u v : Session) (d : Location) (style : PackagingStyle) (received received' clone tests : Path)
    (layout : PackagingLayout) : Prop where
  ofClone : Shared u v d clone
  ofTests : Shared u v d tests
  inside : ∀ p ∈ layout.studentPaths ++ layout.exercisePaths, Config.IsInside p
  student : ∀ p ∈ layout.studentPaths, Pair u v d (received.join p) (received'.join p)
  studentName : style = .generic → ∀ p ∈ layout.studentPaths,
    (received.join p).name = (received'.join p).name ∧ TellsPlace (received.join p).name
  exerciseName : style = .generic → ∀ p ∈ layout.exercisePaths, TellsPlace (tests.join p).name

variable {style : PackagingStyle} {received received' clone tests : Path} {layout : PackagingLayout}

private theorem join_main (base : Path) : base.join (Path.ofString "src/main") = base.append ["src", "main"] := by
  rw [show Path.ofString "src/main" = ⟨.relative, ["src", "main"]⟩ by decide +kernel]
  rfl

private theorem join_test (base : Path) : base.join (Path.ofString "src/test") = base.append ["src", "test"] := by
  rw [show Path.ofString "src/test" = ⟨.relative, ["src", "test"]⟩ by decide +kernel]
  rfl

/-- A part of a project goes to the same place. -/
private theorem copyPart_relates (hu : u.Sound) (hv : v.Sound) (hp : Shared u v d p) {names : List String}
    (hnames : ∀ c ∈ names, IsProper c) :
    Relates (Merging u v d ls) (copyIfExists (p.append names) (Location.path (d ++ names)))
      (copyIfExists (p.append names) (Location.path (d ++ names)))
      (fun _ => Merging u v d (ls ++ layerIf u (p.append names) names)) (BothFail u v d) :=
  copyIfExists_relates _ hu hv (hp.append fun c hc => (hnames c hc).plain).pair fun _ => hnames

private theorem Mergeable.studentParts (h : Mergeable u v d style received received' clone tests layout) (hu : u.Sound)
    (hv : v.Sound) : Relates (Merging u v d ls) (overlay received d.path layout.studentPaths)
      (overlay received' d.path layout.studentPaths)
      (fun _ => Merging u v d (ls ++ overlayLayers u received layout.studentPaths)) (BothFail u v d) :=
  overlay_relates hu hv (fun p hp => h.inside p (List.mem_append_left _ hp)) h.student

private theorem Mergeable.exercise (h : Mergeable u v d style received received' clone tests layout) :
    ∀ p ∈ layout.exercisePaths, Pair u v d (tests.join p) (tests.join p) := by
  intro p hp
  have hinside := h.inside p (List.mem_append_right _ hp)
  rw [join_of_inside hinside]
  exact (h.ofTests.append (plain_of_isName hinside.2)).pair

/-- A merge that succeeds has laid its layers, in both sessions. -/
theorem merge_relates (hu : u.Sound) (hv : v.Sound) (h : Mergeable u v d style received received' clone tests layout) :
    Relates (Merging u v d ls) (merge style ⟨received, clone, tests, d.path⟩ layout)
      (merge style ⟨received', clone, tests, d.path⟩ layout)
      (fun _ => Merging u v d (ls ++ mergeLayers u style received clone tests layout)) (BothFail u v d) := by
  have hinside : ∀ p ∈ layout.exercisePaths, Config.IsInside p := fun p hp => h.inside p (List.mem_append_right _ hp)
  cases style with
  | maven =>
    have hpom : copyInto (clone.child "pom.xml") d.path =
        copyMerge (clone.append ["pom.xml"]) (Location.path (d ++ ["pom.xml"])) := copyInto_child (by decide) clone
    have hlayers : ls ++ mergeLayers u .maven received clone tests layout =
        ls ++ [layer u (clone.append ["pom.xml"]) ["pom.xml"]] ++ layerIf u (clone.append ["src", "main"]) ["src", "main"]
          ++ layerIf u (tests.append ["src", "test"]) ["src", "test"] ++ overlayLayers u received layout.studentPaths
          ++ overlayLayers u tests layout.exercisePaths ++ topLayers u clone := by
      simp [mergeLayers, Path.child_eq_append]
    rw [hlayers]
    unfold merge mergeMaven
    dsimp only
    rw [hpom, join_main, join_test, join_main, join_test]
    refine (copyMerge_relates hu hv (h.ofClone.append (by decide)).pair (by decide)).bind fun _ => ?_
    refine (copyPart_relates hu hv h.ofClone (by decide)).bind fun _ => ?_
    refine (copyPart_relates hu hv h.ofTests (by decide)).bind fun _ => (h.studentParts hu hv).bind fun _ => ?_
    exact (overlay_relates hu hv hinside h.exercise).bind fun _ => copyTopFiles_relates hu hv h.ofClone
  | make =>
    have hlayers : ls ++ mergeLayers u .make received clone tests layout =
        ls ++ layerIf u (clone.append ["src"]) ["src"] ++ layerIf u (clone.append ["test"]) ["test"]
          ++ overlayLayers u received layout.studentPaths ++ topLayers u tests := by
      simp [mergeLayers, Path.child_eq_append]
    have hsrc : ∀ c ∈ ["src"], IsProper c := by decide
    have htest : ∀ c ∈ ["test"], IsProper c := by decide
    rw [hlayers]
    unfold merge mergeMake
    refine (copyPart_relates hu hv h.ofClone hsrc).bind fun _ => ?_
    refine (copyPart_relates hu hv h.ofClone htest).bind fun _ => (h.studentParts hu hv).bind fun _ => ?_
    exact copyTopFiles_relates hu hv h.ofTests
  | generic =>
    have hlayers : ls ++ mergeLayers u .generic received clone tests layout =
        ls ++ layerIf u (clone.append ["lib"]) ["lib"] ++ gatherLayers u received layout.studentPaths
          ++ gatherLayers u tests layout.exercisePaths ++ topLayers u clone := by
      simp [mergeLayers, Path.child_eq_append]
    have hlib : ∀ c ∈ ["lib"], IsProper c := by decide
    rw [hlayers]
    unfold merge mergeGeneric
    refine (copyPart_relates hu hv h.ofClone hlib).bind fun _ => ?_
    refine (gather_relates hu hv h.student (h.studentName rfl)).bind fun _ => ?_
    refine (gather_relates hu hv h.exercise fun p hp => ⟨rfl, h.exerciseName rfl p hp⟩).bind fun _ => ?_
    exact copyTopFiles_relates hu hv h.ofClone

end Submission

end Handout
