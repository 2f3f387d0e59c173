import Handout.Proofs.Submission.Places

/-!
# Where the files of a package come from
-/

namespace Handout

open Handout.Action Session

variable {s t u v : Session} {p : Path} {names first rest place : List String} {ls ks : List Layer}

/-- The file at some names below a path. -/
def Session.file? (s : Session) (p : Path) (names : List String) : Option (Bytes × Bool) :=
  match s.offers p names with
  | some (.file data executable) => some (data, executable)
  | _ => none

theorem Session.offers_append (hp : ∀ c ∈ first, IsPlain c) (rest : List String) :
    s.offers (p.append first) rest = s.offers p (first ++ rest) := by
  have hiff : (∀ c ∈ rest, IsPlain c) ↔ ∀ c ∈ first ++ rest, IsPlain c := by
    rw [List.forall_mem_append]
    exact ⟨fun h => ⟨hp, h⟩, fun h => h.2⟩
  unfold Session.offers
  rw [Path.append_append]
  simp only [hiff]

theorem Session.file?_append (hp : ∀ c ∈ first, IsPlain c) (rest : List String) :
    s.file? (p.append first) rest = s.file? p (first ++ rest) := by
  unfold Session.file?
  rw [offers_append hp]

/-- A file is there if it is offered. -/
theorem Session.file?_eq_some_iff {data : Bytes} {executable : Bool} :
    s.file? p names = some (data, executable) ↔ s.offers p names = some (.file data executable) := by
  unfold Session.file?
  constructor
  · intro h
    split at h
    · rename_i hoffer
      cases h
      exact hoffer
    · cases h
  · intro h
    rw [h]

/-- A file is there if the path leads to one. -/
theorem Session.file?_eq_some (hp : ∀ c ∈ names, IsPlain c) {data : Bytes} {executable : Bool} :
    s.file? p names = some (data, executable) ↔ s.node? true (p.append names) = some (.file data executable) :=
  file?_eq_some_iff.trans (offers_eq_file hp)

/-- The names of a file that is there are plain. -/
theorem Session.plain_of_file? (h : s.file? p names ≠ none) : ∀ c ∈ names, IsPlain c := by
  by_contra hp
  unfold Session.file? Session.offers at h
  rw [if_neg hp] at h
  exact h rfl

/-- Where a path leads to nothing, no file is below. -/
theorem Session.file?_of_none (h : s.node? true p = none) (names : List String) : s.file? p names = none := by
  by_contra hn
  obtain ⟨⟨data, executable⟩, hfile⟩ := Option.ne_none_iff_exists'.1 hn
  have hp := Session.plain_of_file? hn
  have hnode := (file?_eq_some hp).1 hfile
  by_cases hr : names = []
  · rw [hr, Path.append_nil, h] at hnode
    cases hnode
  · rw [node?_of_append (by rw [hnode]; rfl) hr] at h
    cases h

/-- Below a file there is nothing. -/
theorem Session.file?_below (h : s.file? p first ≠ none) (hr : rest ≠ []) : s.file? p (first ++ rest) = none := by
  by_contra hn
  unfold Session.file? at h hn
  have hsome : s.offers p (first ++ rest) ≠ none := by
    intro hnone
    rw [hnone] at hn
    exact hn rfl
  rcases offers_closed s p first rest hr hsome with hd | hd <;> rw [hd] at h <;> exact h rfl

namespace Submission

/-! ### The files of layers -/

/-- The file that the last of some layers has at a place. -/
def lastFile? (ls : List Layer) (names : List String) : Option (Bytes × Bool) :=
  ls.reverse.findSome? fun l => l.file? names

theorem lastFile?_append (ls ks : List Layer) (names : List String) :
    lastFile? (ls ++ ks) names = (lastFile? ks names).or (lastFile? ls names) := by
  unfold lastFile?
  rw [List.reverse_append, List.findSome?_append]

/-- What is at or below a place. -/
def within (place : List String) (source : List String → Option (Bytes × Bool)) (names : List String) :
    Option (Bytes × Bool) :=
  if place <+: names then source names else none

/-- A layer that goes where it comes from has the files at its place. -/
theorem file?_layer (hplace : ∀ c ∈ place, IsPlain c) (names : List String) :
    (layer u (p.append place) place).file? names = within place (u.file? p) names := by
  unfold within
  by_cases h : place <+: names
  · obtain ⟨rest, rfl⟩ := h
    rw [if_pos (List.prefix_append _ _), ← Session.file?_append hplace]
    exact Layer.file?_append _ rest
  · rw [if_neg h]
    exact Layer.file?_eq_none h

theorem lastFile?_layer (hplace : ∀ c ∈ place, IsPlain c) (names : List String) :
    lastFile? [layer u (p.append place) place] names = within place (u.file? p) names := by
  unfold lastFile?
  rw [List.reverse_singleton, List.findSome?_singleton, file?_layer hplace]

theorem lastFile?_layerIf (hplace : ∀ c ∈ place, IsPlain c) (names : List String) :
    lastFile? (layerIf u (p.append place) place) names = within place (u.file? p) names := by
  unfold layerIf
  split
  · exact lastFile?_layer hplace names
  · rename_i hnone
    unfold within lastFile?
    split
    · rename_i hprefix
      obtain ⟨rest, rfl⟩ := hprefix
      rw [← Session.file?_append hplace]
      exact (Session.file?_of_none (by simpa using hnone) rest).symm
    · rfl

/-- The last file is a given one where no layer has another one and some layer has it if there is one. -/
theorem lastFile?_eq {file? : Option (Bytes × Bool)} (hall : ∀ l ∈ ls, ∀ file, l.file? names = some file → file? = some file)
    (hsome : ∀ file, file? = some file → ∃ l ∈ ls, l.file? names = some file) : lastFile? ls names = file? := by
  cases h : lastFile? ls names with
  | none =>
    have hnone := List.findSome?_eq_none_iff.1 h
    refine (Option.eq_none_iff_forall_ne_some.2 fun file hfile => ?_).symm
    obtain ⟨l, hl, hlayer⟩ := hsome file hfile
    rw [hnone l (List.mem_reverse.2 hl)] at hlayer
    cases hlayer
  | some file =>
    obtain ⟨l, hl, hlayer⟩ := List.exists_of_findSome?_eq_some h
    exact (hall l (List.mem_reverse.1 hl) file hlayer).symm

theorem lastFile?_eq_none (h : ∀ l ∈ ls, l.file? names = none) : lastFile? ls names = none :=
  List.findSome?_eq_none_iff.2 fun l hl => h l (List.mem_reverse.1 hl)

/-- What is at the top of a directory. -/
def atTop (source : List String → Option (Bytes × Bool)) (names : List String) : Option (Bytes × Bool) :=
  if names.length = 1 then source names else none

/-- The file that a copy from the top of a directory has is at the top of the directory. -/
theorem file?_of_top {name : String} (hname : IsPlain name) {data : Bytes} {executable : Bool}
    (hoffer : (layer u (p.append [name]) [name]).offers [] = some (.file data executable)) :
    u.file? p [name] = some (data, executable) := by
  rw [← List.append_nil [name], ← Session.file?_append (List.forall_mem_singleton.2 hname)]
  exact Session.file?_eq_some_iff.2 hoffer

/-- The files at the top of a directory that was listed. -/
theorem lastFile?_topLayers (hu : u.Sound) (hlisted : Layer.never ∉ topLayers u p) (names : List String) :
    lastFile? (topLayers u p) names = atTop (u.file? p) names := by
  have hlayers : ∀ l ∈ topLayers u p, ∃ c, u.file? p [c] ≠ none ∧ l.file? names = within [c] (u.file? p) names := by
    intro l hl
    obtain ⟨c, hc, rfl, data, executable, hoffer⟩ := exists_of_mem_topLayers hu hlisted hl
    exact ⟨c, ne_of_eq_of_ne (file?_of_top hc hoffer) (Option.some_ne_none _),
      file?_layer (List.forall_mem_singleton.2 hc) names⟩
  refine lastFile?_eq (fun l hl file hfile => ?_) fun file hfile => ?_
  · obtain ⟨c, hc, hlayer⟩ := hlayers l hl
    rw [hlayer] at hfile
    unfold within at hfile
    split at hfile
    · rename_i hprefix
      obtain ⟨rest, rfl⟩ := hprefix
      have hrest : rest = [] := by
        by_contra hrest
        rw [Session.file?_below hc hrest] at hfile
        cases hfile
      rw [hrest] at hfile ⊢
      exact (if_pos rfl).trans hfile
    · cases hfile
  · unfold atTop at hfile
    split at hfile
    · rename_i hlength
      obtain ⟨c, rfl⟩ := List.length_eq_one_iff.1 hlength
      have hplain := Session.plain_of_file? (ne_of_eq_of_ne hfile (Option.some_ne_none _))
      have hnode := (Session.file?_eq_some hplain).1 hfile
      refine ⟨_, layer_mem_topLayers hu hlisted (List.forall_mem_singleton.1 hplain) hnode, ?_⟩
      rw [file?_layer hplain, ← hfile]
      exact if_pos (List.prefix_refl _)
    · cases hfile

/-- What is kept under some names: from the received project what it has, and the rest from the clone. -/
def keptFile (kept : List String) (has : String → Bool) (received clone : List String → Option (Bytes × Bool))
    (names : List String) : Option (Bytes × Bool) :=
  match names with
  | [] => none
  | name :: _ => if name ∈ kept then if has name then received names else clone names else none

theorem lastFile?_environmentLayers (received clone : Path) {kept : List String} (hkept : ∀ name ∈ kept, IsPlain name)
    (names : List String) :
    lastFile? (environmentLayers u received clone kept) names =
      keptFile kept (fun name => (u.node? true (received.child name)).isSome) (u.file? received) (u.file? clone) names := by
  have hlayers : ∀ name, IsPlain name → lastFile? (environmentLayers u received clone [name]) names =
      within [name] (if (u.node? true (received.child name)).isSome then u.file? received else u.file? clone) names := by
    intro name hname
    have hplace : ∀ c ∈ [name], IsPlain c := by simpa using hname
    unfold environmentLayers
    rw [List.flatMap_singleton]
    split
    · exact lastFile?_layer hplace names
    · exact lastFile?_layerIf hplace names
  induction kept with
  | nil => cases names <;> rfl
  | cons c kept ih =>
    have hcons : environmentLayers u received clone (c :: kept) =
        environmentLayers u received clone [c] ++ environmentLayers u received clone kept := by
      simp [environmentLayers]
    rw [hcons, lastFile?_append, ih fun x hx => hkept x (List.mem_cons_of_mem _ hx), hlayers c (hkept c (by simp))]
    cases names with
    | nil => rfl
    | cons name rest =>
      unfold keptFile within
      by_cases hname : name = c
      · subst hname
        rw [if_pos (show [name] <+: name :: rest from List.prefix_append [name] rest)]
        simp only [List.mem_cons_self, if_true]
        split <;> split <;> simp
      · rw [if_neg fun h => hname (List.cons_prefix_cons.1 h).1.symm]
        simp only [List.mem_cons, hname, false_or, Option.or_none]

theorem keptFile_congr {kept : List String} {has has' : String → Bool} (h : ∀ name ∈ kept, has name = has' name)
    (received clone : List String → Option (Bytes × Bool)) (names : List String) :
    keptFile kept has received clone names = keptFile kept has' received clone names := by
  cases names with
  | nil => rfl
  | cons name rest =>
    unfold keptFile
    by_cases hname : name ∈ kept
    · simp only [if_pos hname, h name hname]
    · simp only [if_neg hname]

theorem lastFile?_params (params : Params) (names : List String) :
    lastFile? [paramsLayer params] names = if names = [paramsFileName] then some (params.content, false) else none := by
  unfold lastFile?
  rw [List.reverse_singleton, List.findSome?_singleton]
  by_cases hplace : [paramsFileName] <+: names
  · obtain ⟨rest, rfl⟩ := hplace
    refine (Layer.file?_append (paramsLayer params) rest).trans ?_
    cases rest with
    | nil => rfl
    | cons c rest => rfl
  · rw [if_neg (show ¬ names = [paramsFileName] by rintro rfl; exact hplace (List.prefix_refl _))]
    exact Layer.file?_eq_none hplace

/-! ### The files of a merge -/

theorem lastFile?_overlayLayers (hplace : ∀ c ∈ place, IsPlain c) (project : Path) (names : List String) :
    lastFile? (overlayLayers u project [⟨.relative, place⟩]) names = within place (u.file? project) names := by
  unfold overlayLayers
  rw [List.flatMap_singleton]
  exact lastFile?_layerIf hplace names

theorem lastFile?_gatherLayers {c : String} (hc : IsName c) (project : Path) (names : List String) :
    lastFile? (gatherLayers u project [⟨.relative, [c]⟩]) names = within [c] (u.file? project) names := by
  have hname : (project.join ⟨.relative, [c]⟩).name = c := Path.name_append project (List.cons_ne_nil c [])
  unfold gatherLayers
  rw [List.flatMap_singleton, hname, Path.ofString_of_isName hc]
  show lastFile? (layerIf u (project.append [c]) [c]) names = within [c] (u.file? project) names
  exact lastFile?_layerIf (by simpa using hc.plain) names

/-- What is at or below different places does not depend on the order. -/
theorem within_or_comm {first second : List String} {f g : List String → Option (Bytes × Bool)}
    (h : ¬ first <+: second) (h' : ¬ second <+: first) (names : List String) :
    (within first f names).or (within second g names) = (within second g names).or (within first f names) := by
  unfold within
  split
  · rename_i hfirst
    rw [if_neg fun hsecond => (List.prefix_or_prefix_of_prefix hfirst hsecond).elim h h']
    simp
  · simp

theorem within_or_left_comm {first second : List String} {f g : List String → Option (Bytes × Bool)}
    (h : ¬ first <+: second) (h' : ¬ second <+: first) (names : List String) (file : Option (Bytes × Bool)) :
    (within first f names).or ((within second g names).or file) =
      (within second g names).or ((within first f names).or file) := by
  rw [← Option.or_assoc, within_or_comm h h', Option.or_assoc]

/-- The parts of a project without exceptions. -/
theorem layoutOf_of_nil {c : Config} (hstudent : c.extraStudentFiles = []) (hexercise : c.extraExerciseFiles = [])
    (e : Ecosystem) : e.layoutOf c = match e with
      | .maven => ⟨[⟨.relative, ["src", "main"]⟩], [⟨.relative, ["src", "test"]⟩]⟩
      | .python => ⟨[⟨.relative, ["src"]⟩], [⟨.relative, ["test"]⟩, ⟨.relative, ["tmc"]⟩]⟩
      | _ => ⟨[⟨.relative, ["src"]⟩], [⟨.relative, ["test"]⟩]⟩ := by
  unfold Ecosystem.layoutOf
  rw [hstudent, hexercise]
  cases e <;> decide +kernel

/-- The file that a merge has at a place. -/
def mergedFile (e : Ecosystem) (clone received tests : List String → Option (Bytes × Bool)) (names : List String) :
    Option (Bytes × Bool) :=
  match e with
  | .maven => (atTop clone names).or <| (within ["src", "main"] received names).or <|
      (within ["src", "main"] clone names).or <| (within ["src", "test"] tests names).or (within ["pom.xml"] clone names)
  | .make => (atTop tests names).or <| (within ["src"] received names).or <| (within ["src"] clone names).or
      (within ["test"] clone names)
  | .python => (atTop clone names).or <| (within ["src"] received names).or <| (within ["test"] tests names).or <|
      (within ["tmc"] tests names).or (within ["lib"] clone names)
  | .ant | .csharp => (atTop clone names).or <| (within ["src"] received names).or <| (within ["test"] tests names).or
      (within ["lib"] clone names)

variable {received clone tests : Path}

/-- In the style of Maven, the tests are copied before the student's sources and once more after them. -/
private theorem lastFile?_maven (hu : u.Sound)
    (hlisted : Layer.never ∉ mergeLayers u .maven received clone tests
      ⟨[⟨.relative, ["src", "main"]⟩], [⟨.relative, ["src", "test"]⟩]⟩) (names : List String) :
    lastFile? (mergeLayers u .maven received clone tests
        ⟨[⟨.relative, ["src", "main"]⟩], [⟨.relative, ["src", "test"]⟩]⟩) names =
      mergedFile .maven (u.file? clone) (u.file? received) (u.file? tests) names := by
  have hlayers : mergeLayers u .maven received clone tests ⟨[⟨.relative, ["src", "main"]⟩], [⟨.relative, ["src", "test"]⟩]⟩ =
      [layer u (clone.append ["pom.xml"]) ["pom.xml"]] ++ layerIf u (clone.append ["src", "main"]) ["src", "main"]
        ++ layerIf u (tests.append ["src", "test"]) ["src", "test"] ++ overlayLayers u received [⟨.relative, ["src", "main"]⟩]
        ++ overlayLayers u tests [⟨.relative, ["src", "test"]⟩] ++ topLayers u clone := by
    simp [mergeLayers, Path.child_eq_append]
  rw [hlayers] at hlisted ⊢
  have htop : Layer.never ∉ topLayers u clone := fun h => hlisted (List.mem_append_right _ h)
  rw [lastFile?_append, lastFile?_append, lastFile?_append, lastFile?_append, lastFile?_append,
    lastFile?_topLayers hu htop, lastFile?_overlayLayers (by decide), lastFile?_overlayLayers (by decide),
    lastFile?_layerIf (by decide), lastFile?_layerIf (by decide), lastFile?_layer (by decide)]
  -- the tests are copied twice, and not to the same places as the sources
  have htwice : ∀ a b : Option (Bytes × Bool), a.or (a.or b) = a.or b := fun a b => by cases a <;> rfl
  rw [within_or_left_comm (by decide) (by decide), htwice,
    within_or_left_comm (by decide) (by decide) names (within ["pom.xml"] (u.file? clone) names)]
  rfl

/-- In the style of make, the files at the top are those of the tests. -/
private theorem lastFile?_make (hu : u.Sound)
    (hlisted : Layer.never ∉ mergeLayers u .make received clone tests ⟨[⟨.relative, ["src"]⟩], [⟨.relative, ["test"]⟩]⟩)
    (names : List String) :
    lastFile? (mergeLayers u .make received clone tests ⟨[⟨.relative, ["src"]⟩], [⟨.relative, ["test"]⟩]⟩) names =
      mergedFile .make (u.file? clone) (u.file? received) (u.file? tests) names := by
  have hlayers : mergeLayers u .make received clone tests ⟨[⟨.relative, ["src"]⟩], [⟨.relative, ["test"]⟩]⟩ =
      layerIf u (clone.append ["src"]) ["src"] ++ layerIf u (clone.append ["test"]) ["test"]
        ++ overlayLayers u received [⟨.relative, ["src"]⟩] ++ topLayers u tests := by
    simp [mergeLayers, Path.child_eq_append]
  rw [hlayers] at hlisted ⊢
  have htop : Layer.never ∉ topLayers u tests := fun h => hlisted (List.mem_append_right _ h)
  rw [lastFile?_append, lastFile?_append, lastFile?_append, lastFile?_topLayers hu htop,
    lastFile?_overlayLayers (by decide), lastFile?_layerIf (by decide), lastFile?_layerIf (by decide),
    within_or_comm (by decide) (by decide)]
  rfl

/-- In the common style, the parts of the exercise are gathered over those of the student. -/
private theorem lastFile?_generic (hu : u.Sound) {exercise : List Path}
    (hlisted : Layer.never ∉ mergeLayers u .generic received clone tests ⟨[⟨.relative, ["src"]⟩], exercise⟩)
    (names : List String) :
    lastFile? (mergeLayers u .generic received clone tests ⟨[⟨.relative, ["src"]⟩], exercise⟩) names =
      (atTop (u.file? clone) names).or ((lastFile? (gatherLayers u tests exercise) names).or
        ((within ["src"] (u.file? received) names).or (within ["lib"] (u.file? clone) names))) := by
  have hlayers : mergeLayers u .generic received clone tests ⟨[⟨.relative, ["src"]⟩], exercise⟩ =
      layerIf u (clone.append ["lib"]) ["lib"] ++ gatherLayers u received [⟨.relative, ["src"]⟩]
        ++ gatherLayers u tests exercise ++ topLayers u clone := by
    simp [mergeLayers, Path.child_eq_append]
  rw [hlayers] at hlisted ⊢
  have htop : Layer.never ∉ topLayers u clone := fun h => hlisted (List.mem_append_right _ h)
  have hsrc : IsName "src" := (by decide : IsProper "src").toIsName
  rw [lastFile?_append, lastFile?_append, lastFile?_append, lastFile?_topLayers hu htop, lastFile?_gatherLayers hsrc,
    lastFile?_layerIf (by decide)]

theorem lastFile?_mergeLayers (hu : u.Sound) {e : Ecosystem} {c : Config}
    (hstudent : c.extraStudentFiles = []) (hexercise : c.extraExerciseFiles = [])
    (hlisted : Layer.never ∉ mergeLayers u e.style received clone tests (e.layoutOf c)) (names : List String) :
    lastFile? (mergeLayers u e.style received clone tests (e.layoutOf c)) names =
      mergedFile e (u.file? clone) (u.file? received) (u.file? tests) names := by
  rw [layoutOf_of_nil hstudent hexercise] at hlisted ⊢
  have htest := lastFile?_gatherLayers (u := u) (by decide : IsProper "test").toIsName tests names
  have htmc := lastFile?_gatherLayers (u := u) (by decide : IsProper "tmc").toIsName tests names
  cases e with
  | maven => exact lastFile?_maven hu hlisted names
  | make => exact lastFile?_make hu hlisted names
  | python =>
    have hexercise : gatherLayers u tests [⟨.relative, ["test"]⟩, ⟨.relative, ["tmc"]⟩] =
        gatherLayers u tests [⟨.relative, ["test"]⟩] ++ gatherLayers u tests [⟨.relative, ["tmc"]⟩] := by
      simp [gatherLayers]
    refine (lastFile?_generic hu hlisted names).trans ?_
    rw [hexercise, lastFile?_append, htest, htmc, within_or_comm (by decide) (by decide), Option.or_assoc,
      within_or_left_comm (by decide) (by decide) names (within ["lib"] (u.file? clone) names),
      within_or_left_comm (by decide) (by decide)]
    rfl
  | ant =>
    refine (lastFile?_generic hu hlisted names).trans ?_
    rw [htest, within_or_left_comm (by decide) (by decide)]
    rfl
  | csharp =>
    refine (lastFile?_generic hu hlisted names).trans ?_
    rw [htest, within_or_left_comm (by decide) (by decide)]
    rfl

/-! ### The files of a package -/

variable {request : Request}

/-- The file that a package is to have at a place. -/
def Packed.source? (parts : Packed s request) (names : List String) : Option (Bytes × Bool) :=
  (mergedFile parts.ecosystem (s.file? request.clone) (parts.received.file? parts.project)
    (parts.fetched.file? parts.tests) names).or <|
  (keptFile environmentNames (fun name => (parts.received.node? true (parts.project.child name)).isSome)
    (parts.received.file? parts.project) (s.file? request.clone) names).or <|
  if names = [paramsFileName] then some (request.params.content, false) else none

/-- While the package is filled, its parts are as they were received, fetched and in the clone. -/
theorem Packed.offers_eq (parts : Packed s request) (hrequest : request.Apart s) :
    let a := withPackage s.scratch parts.fetched
    a.Sound ∧ a.offers request.clone = s.offers request.clone ∧
      a.offers parts.project = parts.received.offers parts.project ∧ a.offers parts.tests = parts.fetched.offers parts.tests ∧
      ∀ name ∈ environmentNames, (a.node? true (parts.project.child name)).isSome =
        (parts.received.node? true (parts.project.child name)).isSome := by
  intro a
  have hu := received_of_perform hrequest.ready parts.receive_eq
  obtain ⟨hfetched, hmade⟩ :=
    prepared_of_perform hrequest.ready hrequest.unlocked hrequest.stub hu parts.fetch_eq
  have hclone := hrequest.clone.sameView hrequest.ready hmade.1.left
  have hafter := hmade.1.holding_left hu hrequest.unlocked
  have hbefore := (Prepared.start hu hu).holding_left hu hrequest.unlocked
  refine ⟨hmade.1.left.sound, hclone.offers.symm, ?_, ?_, fun name hname => ?_⟩
  · obtain ⟨rel, hproject, hd⟩ := hu.project_path
    have hplain : ∀ c ∈ "received" :: rel, IsPlain c := fun c hc =>
      (hu.within.sound.files.proper_of_mem (by rw [hd]; exact Option.some_ne_none _) hc).plain
    rw [hproject, hafter.offers hplain, hbefore.offers hplain]
  · have htests := hfetched.2
    unfold HoldsTests at htests
    cases hstub : request.stub with
    | none =>
      rw [hstub] at htests
      dsimp only at htests
      rw [htests, ← hclone.offers, (hrequest.clone.sameView hrequest.ready hfetched.1.left).offers]
    | some archive =>
      rw [hstub] at htests
      obtain ⟨rel, hpath, hd⟩ := htests
      have hsame : ∀ more, a.files.get? (s.scratch ++ (["stub"] ++ rel) ++ more) =
          parts.fetched.files.get? (s.scratch ++ (["stub"] ++ rel) ++ more) := by
        intro more
        refine Files.get?_put_of_ne (by simp) ?_
        rw [List.append_assoc, List.append_assoc, ne_eq, List.append_cancel_left_eq]
        exact fun h => absurd (List.cons.inj h).1 (by decide)
      rw [List.append_assoc] at hpath hd
      rw [hpath]
      refine (listable_scratch hmade.1.left hrequest.unlocked).offers_congr
        (listable_scratch hfetched.1.left hrequest.unlocked) (fun c hc => ?_) (funext hsame)
      exact (hfetched.1.left.sound.files.proper_of_mem (by rw [hd]; exact Option.some_ne_none _) hc).plain
  · have hproper : IsProper name := by
      revert name
      decide
    have hentry := hu.exists?_entry hrequest.unlocked hproper
    obtain ⟨rel, hproject, hd⟩ := hu.project_path
    have hplain : ∀ c ∈ "received" :: (rel ++ [name]), IsPlain c := by
      intro c hc
      rcases List.mem_append.1 (show c ∈ ("received" :: rel) ++ [name] from hc) with hc | hc
      · exact (hu.within.sound.files.proper_of_mem (by rw [hd]; exact Option.some_ne_none _) hc).plain
      · rw [List.mem_singleton.1 hc]
        exact hproper.plain
    have hchild : parts.project.child name = Location.path (s.scratch ++ "received" :: (rel ++ [name])) := by
      rw [hproject]
      exact congrArg Location.path (List.append_assoc s.scratch ("received" :: rel) [name])
    rw [show parts.project.append [name] = parts.project.child name from rfl, hchild] at hentry
    rw [hchild, ← exists?_eq_ok hentry, ← exists?_eq_ok ((hafter.exists? hplain).trans hentry)]

/-- The sources of a package of a clone without exceptions. -/
theorem Packed.lastFile?_eq (parts : Packed s request) (hrequest : request.Apart s)
    (hstudent : parts.config.extraStudentFiles = []) (hexercise : parts.config.extraExerciseFiles = []) (names : List String) :
    lastFile? (packageLayers (withPackage s.scratch parts.fetched) request.params request.clone parts.ecosystem parts.project
      parts.tests parts.config) names = parts.source? names := by
  obtain ⟨hsound, hclone, hproject, htests, hhas⟩ := parts.offers_eq hrequest
  have hextra : overlayLayers (withPackage s.scratch parts.fetched) parts.project (Path.sort parts.config.extraStudentFiles) =
      [] := by
    rw [hstudent]
    rfl
  have hnever := parts.stacked.never_not_mem
  unfold packageLayers at hnever ⊢
  rw [hextra, List.append_nil] at hnever ⊢
  rw [lastFile?_append, lastFile?_mergeLayers hsound hstudent hexercise fun h => hnever (List.mem_append_right _ h),
    ← List.singleton_append, lastFile?_append, lastFile?_environmentLayers _ _ (by decide), lastFile?_params]
  unfold Packed.source? Session.file?
  rw [hclone, hproject, htests, keptFile_congr hhas]

/-- A clone without exceptions is not packaged as a whole. -/
theorem namesClone_of_nil {c : Config} (hload : ((Config.load request.clone).perform s).1 = .ok c)
    (hstudent : c.extraStudentFiles = []) (hexercise : c.extraExerciseFiles = []) (e : Ecosystem) :
    request.NamesClone s e := by
  intro c' hc' _ hhere
  obtain rfl := Except.ok.inj (hload.symm.trans hc')
  rw [layoutOf_of_nil hstudent hexercise] at hhere
  cases e <;> exact absurd hhere (by decide)

/-- When a submission to an exercise without exceptions could be packaged and no file met a directory, the files of the
package are exactly those of its sources. -/
theorem files_of_package {c : Config} (hrequest : request.Apart s) (hwritable : request.Writable s)
    (hload : ((Config.load request.clone).perform s).1 = .ok c) (hstudent : c.extraStudentFiles = [])
    (hexercise : c.extraExerciseFiles = []) (h : (pack request).perform s = (.ok (), t)) :
    ∃ parts : Packed s request, request.Written s t parts.content ∧
      ((∀ names, parts.source? names ≠ none → parts.content names ≠ some .directory) →
        ∀ names data executable,
          parts.content names = some (.file data executable) ↔ parts.source? names = some (data, executable)) := by
  obtain ⟨parts, hwritten⟩ := pack_written hrequest hwritable (namesClone_of_nil hload hstudent hexercise) h
  obtain rfl := Except.ok.inj (hload.symm.trans parts.load_eq)
  refine ⟨parts, hwritten, fun hflat names data executable => ?_⟩
  have hlast := parts.lastFile?_eq hrequest hstudent hexercise
  rw [← hlast]
  refine parts.stacked.file_iff closed_packageLayers fun l hl names hfile => hflat names ?_
  rw [← hlast]
  exact fun hnone => hfile (List.findSome?_eq_none_iff.1 hnone l (List.mem_reverse.2 hl))

/-- A session in a directory `w` that holds a submission and a clone in which `pom.xml` is a directory. -/
def sampleMavenSession : Session where
  files := ⟨[(["w"], .directory), (["w", "c"], .directory), (["w", "c", "pom.xml"], .directory),
    (["w", "c", "pom.xml", "x"], .file [2] false), (["w", "c", "README"], .file [3] false),
    (["w", "s.zip"], .file (Archive.encode .zip [⟨"pom.xml", .file [] false⟩, ⟨"src/main/A", .file [1] false⟩]) false)]⟩
  workingDir := ["w"]
  scratch := ["t"]

/-- The packaging of the sample submission. -/
def sampleMaven : Request :=
  { submission := ⟨.relative, ["s.zip"]⟩, output := ⟨.relative, ["o"]⟩, clone := ⟨.relative, ["c"]⟩, asZip := true }

private theorem sampleMaven_unlinked : sampleMavenSession.Unlinked := by decide +kernel

/-- What the sample package was made of. -/
private theorem sampleMaven_parts (parts : Packed sampleMavenSession sampleMaven) :
    parts.project = Location.path ["t", "received"] ∧ parts.ecosystem = .maven ∧
      parts.received = ((receive sampleMaven).perform sampleMavenSession).2 ∧
      parts.furnished = ((furnish sampleMaven sampleMavenSession.scratch.path (Location.path ["t", "received"], .maven)).perform
        ((receive sampleMaven).perform sampleMavenSession).2).2 := by
  have hreceive : ((receive sampleMaven).perform sampleMavenSession).1 = .ok (Location.path ["t", "received"], .maven) := by
    decide +kernel
  exact parts.eq_of_receive hreceive

/-- No file of the sample package met a directory. -/
private theorem sampleMaven_flat (parts : Packed sampleMavenSession sampleMaven) (names : List String)
    (h : parts.source? names ≠ none) : parts.content names ≠ some .directory := by
  obtain ⟨hproject, hecosystem, hreceived, hfurnished⟩ := sampleMaven_parts parts
  obtain ⟨htests, hfetched⟩ := parts.tests_eq rfl
  unfold Packed.source? at h
  unfold Packed.content
  rw [htests, hfetched, hproject, hecosystem, hreceived] at h
  rw [hfurnished]
  intro hd
  have hmem : names ∈ [] :: Files.listing ((furnish sampleMaven sampleMavenSession.scratch.path (Location.path ["t", "received"], .maven)).perform
      ((receive sampleMaven).perform sampleMavenSession).2).2.files ["t", "dest"] := by
    refine List.mem_cons.2 (or_iff_not_imp_left.2 fun hne => ?_)
    refine (Files.mem_listing (Files.wellFormed_of_entries (by decide +kernel))).2 ⟨hne, fun hnone => ?_⟩
    cases hnone.symm.trans hd
  refine h ?_
  clear h
  revert hd
  revert hmem
  revert names
  decide +kernel

/-- The files of the sample package are exactly those of its sources. -/
theorem sampleMaven_files :
    ∃ parts : Packed sampleMavenSession sampleMaven,
      sampleMaven.Written sampleMavenSession ((pack sampleMaven).perform sampleMavenSession).2 parts.content ∧
        ∀ names data executable,
          parts.content names = some (.file data executable) ↔ parts.source? names = some (data, executable) := by
  have hrequest : sampleMaven.Apart sampleMavenSession := Request.apart_of_unlinked sampleMaven_unlinked (by decide +kernel)
  have hwritable : sampleMaven.Writable sampleMavenSession :=
    Request.writable_of_unlinked sampleMaven_unlinked (by decide +kernel) (by decide +kernel)
  have hload : ((Config.load sampleMaven.clone).perform sampleMavenSession).1 = .ok {} := by decide +kernel
  have hok : ((pack sampleMaven).perform sampleMavenSession).1 = .ok () := by decide +kernel
  obtain ⟨parts, hwritten, hfiles⟩ := files_of_package hrequest hwritable hload rfl rfl (perform_eq_of_fst hok)
  exact ⟨parts, hwritten, hfiles (sampleMaven_flat parts)⟩

/-- In the sample, the package has a file below `pom.xml`.  It is not at the top, nor a source, nor a test, nor kept for
a development environment, nor does it hold the parameters. -/
theorem sampleMaven_below_pom :
    let names := ["pom.xml", "x"]
    (∀ parts : Packed sampleMavenSession sampleMaven, parts.content names = some (.file [2] false) ∧
      ∀ names, parts.source? names ≠ none → parts.content names ≠ some .directory) ∧
    ((pack sampleMaven).perform sampleMavenSession).1 = .ok () ∧
      names.length ≠ 1 ∧ ¬ ["src", "main"] <+: names ∧ ¬ ["src", "test"] <+: names ∧
      (∀ name ∈ environmentNames, ¬ [name] <+: names) ∧ names ≠ [paramsFileName] := by
  refine ⟨fun parts => ⟨?_, sampleMaven_flat parts⟩, by decide +kernel, ?_⟩
  · obtain ⟨-, -, -, hfurnished⟩ := sampleMaven_parts parts
    unfold Packed.content
    rw [hfurnished]
    decide +kernel
  · decide

end Submission

end Handout
