import Handout.Proofs.Submission.Pack

/-!
# Where copies go

The layers of a package are the file of parameters and copies of entries of the received project, of the clone and of
the tests.  A merge copies parts that its style names, parts of the layout, and the files at the top of one project
(`cases_of_mem_mergeLayers`).  So nothing is offered below a file (`closed_packageLayers`).
-/

namespace Handout.Submission

open Handout.Action Session

variable {u : Session} {p project received clone tests : Path} {names place : List String} {l : Layer}

/-! ### The layers of copies -/

theorem eq_of_mem_layerIf (h : l ∈ layerIf u p place) : l = layer u p place := by
  unfold layerIf at h
  split at h
  · exact List.mem_singleton.1 h
  · cases h

theorem exists_of_mem_overlayLayers {ps : List Path} (h : l ∈ overlayLayers u p ps) :
    ∃ q ∈ ps, l = layer u (p.join q) q.parts := by
  obtain ⟨q, hq, hl⟩ := List.mem_flatMap.1 h
  exact ⟨q, hq, eq_of_mem_layerIf hl⟩

theorem exists_of_mem_gatherLayers {ps : List Path} (h : l ∈ gatherLayers u p ps) :
    ∃ q ∈ ps, l = layer u (p.join q) (Path.ofString (p.join q).name).parts := by
  obtain ⟨q, hq, hl⟩ := List.mem_flatMap.1 h
  exact ⟨q, hq, eq_of_mem_layerIf hl⟩

/-- A part of a project other than the whole is gathered under its last name. -/
theorem gathered_place {q : Path} (hq : Config.IsInside q) (hne : q.parts ≠ []) :
    (Path.ofString (p.join q).name).parts = [q.name] := by
  have hname : (p.join q).name = q.name := by
    rw [join_of_inside hq, Path.name_append _ hne, Path.name, List.getLast?_eq_some_getLast hne, Option.getD_some]
  have hlast : IsName q.name := by
    rw [Path.name, List.getLast?_eq_some_getLast hne, Option.getD_some]
    exact hq.2 _ (List.getLast_mem hne)
  rw [hname, Path.ofString_of_isName hlast]

/-- What a development environment keeps goes to the top, from the received project or from the clone. -/
theorem exists_of_mem_environmentLayers {kept : List String} (h : l ∈ environmentLayers u received clone kept) :
    ∃ name ∈ kept, ∃ project : Path, l = layer u (project.child name) [name] := by
  obtain ⟨name, hname, hl⟩ := List.mem_flatMap.1 h
  refine ⟨name, hname, ?_⟩
  split at hl
  · exact ⟨received, List.mem_singleton.1 hl⟩
  · exact ⟨clone, eq_of_mem_layerIf hl⟩

theorem environment_place (h : l ∈ environmentLayers u received clone environmentNames) :
    ∃ name ∈ environmentNames, l.place = [name] := by
  obtain ⟨name, hname, project, rfl⟩ := exists_of_mem_environmentLayers h
  exact ⟨name, hname, rfl⟩

/-- The files at the top of a directory that was listed go to the top, under their names. -/
theorem exists_of_mem_topLayers (hu : u.Sound) (hlisted : Layer.never ∉ topLayers u p) (h : l ∈ topLayers u p) :
    ∃ name, IsPlain name ∧ l = layer u (p.append [name]) [name] ∧
      ∃ data executable, l.offers [] = some (.file data executable) := by
  unfold topLayers at hlisted h
  cases hfiles : ((filesIn p).perform u).1 with
  | error e =>
    rw [hfiles] at hlisted
    exact absurd (List.mem_singleton_self _) hlisted
  | ok files =>
    rw [hfiles] at h
    obtain ⟨q, hq, rfl⟩ := List.mem_map.1 h
    obtain ⟨found, hfound, hmem⟩ := mem_filesIn hfiles
    obtain ⟨name, hname, -, rfl⟩ := (hmem q).1 hq
    have hplain : IsPlain name := (proper_of_names? hu hfound hname).plain
    obtain ⟨data, executable, hnode⟩ := (child_mem_filesIn hu hfiles hplain).1 hq
    rw [Path.name_child]
    refine ⟨name, hplain, rfl, data, executable, ?_⟩
    exact (offers_eq_file (List.forall_mem_nil _)).2 (by rwa [Path.append_nil])

/-- A file at the top of a directory that was listed has a layer. -/
theorem layer_mem_topLayers (hu : u.Sound) (hlisted : Layer.never ∉ topLayers u p) {name : String} (hname : IsPlain name)
    {data : Bytes} {executable : Bool} (hnode : u.node? true (p.append [name]) = some (.file data executable)) :
    layer u (p.append [name]) [name] ∈ topLayers u p := by
  unfold topLayers at hlisted ⊢
  cases hfiles : ((filesIn p).perform u).1 with
  | error e =>
    rw [hfiles] at hlisted
    exact absurd (List.mem_singleton_self _) hlisted
  | ok files =>
    have hmem : p.child name ∈ files := (child_mem_filesIn hu hfiles hname).2 ⟨data, executable, hnode⟩
    exact List.mem_map.2 ⟨p.child name, hmem, by rw [Path.name_child]; rfl⟩

/-! ### The layers of a merge -/

/-- The project whose top files are copied. -/
def topProject (style : PackagingStyle) (clone tests : Path) : Path := if style = .make then tests else clone

/-- A layer is a copy of a part of a project, to the same place or to its last name. -/
def IsPart (u : Session) (project part : Path) (l : Layer) : Prop :=
  l = layer u (project.join part) part.parts ∨ l = layer u (project.join part) (Path.ofString (project.join part).name).parts

/-- The parts of projects that a style copies whatever the layout is. -/
def fixedParts (style : PackagingStyle) (clone tests : Path) : List (Path × List String) :=
  match style with
  | .maven => [(clone, ["pom.xml"]), (clone, ["src", "main"]), (tests, ["src", "test"])]
  | .make => [(clone, ["src"]), (clone, ["test"])]
  | .generic => [(clone, ["lib"])]

/-- The layers of a merge: fixed parts, parts of the layout, and files at the top. -/
theorem cases_of_mem_mergeLayers {style : PackagingStyle} {layout : PackagingLayout}
    (h : l ∈ mergeLayers u style received clone tests layout) :
    (∃ part ∈ fixedParts style clone tests, l = layer u (part.1.append part.2) part.2) ∨
      (∃ q ∈ layout.studentPaths, IsPart u received q l) ∨
      (style ≠ .make ∧ ∃ q ∈ layout.exercisePaths, IsPart u tests q l) ∨
      l ∈ topLayers u (topProject style clone tests) := by
  have hoverlay : ∀ {project : Path} {ps : List Path}, l ∈ overlayLayers u project ps → ∃ q ∈ ps, IsPart u project q l :=
    fun hl => (exists_of_mem_overlayLayers hl).imp fun _ h => ⟨h.1, .inl h.2⟩
  have hgather : ∀ {project : Path} {ps : List Path}, l ∈ gatherLayers u project ps → ∃ q ∈ ps, IsPart u project q l :=
    fun hl => (exists_of_mem_gatherLayers hl).imp fun _ h => ⟨h.1, .inr h.2⟩
  cases style with
  | maven =>
    simp only [mergeLayers, List.mem_append, List.mem_cons] at h
    rcases h with ((((h | h) | h) | h) | h) | h
    · exact .inl ⟨(clone, ["pom.xml"]), by simp [fixedParts], h⟩
    · exact .inl ⟨(clone, ["src", "main"]), by simp [fixedParts], eq_of_mem_layerIf h⟩
    · exact .inl ⟨(tests, ["src", "test"]), by simp [fixedParts], eq_of_mem_layerIf h⟩
    · exact .inr (.inl (hoverlay h))
    · exact .inr (.inr (.inl ⟨by decide, hoverlay h⟩))
    · exact .inr (.inr (.inr h))
  | make =>
    simp only [mergeLayers, List.mem_append] at h
    rcases h with ((h | h) | h) | h
    · exact .inl ⟨(clone, ["src"]), by simp [fixedParts], eq_of_mem_layerIf h⟩
    · exact .inl ⟨(clone, ["test"]), by simp [fixedParts], eq_of_mem_layerIf h⟩
    · exact .inr (.inl (hoverlay h))
    · exact .inr (.inr (.inr h))
  | generic =>
    simp only [mergeLayers, List.mem_append] at h
    rcases h with ((h | h) | h) | h
    · exact .inl ⟨(clone, ["lib"]), by simp [fixedParts], eq_of_mem_layerIf h⟩
    · exact .inr (.inl (hgather h))
    · exact .inr (.inr (.inl ⟨by decide, hgather h⟩))
    · exact .inr (.inr (.inr h))

/-- The places of the fixed parts. -/
theorem fixedParts_place {style : PackagingStyle} {part : Path × List String} (h : part ∈ fixedParts style clone tests) :
    part.2 ∈ [["pom.xml"], ["src", "main"], ["src", "test"], ["src"], ["test"], ["lib"]] := by
  have hplaces : (fixedParts style clone tests).map Prod.snd ⊆
      [["pom.xml"], ["src", "main"], ["src", "test"], ["src"], ["test"], ["lib"]] := by
    cases style <;> simp [fixedParts]
  exact hplaces (List.mem_map_of_mem h)

theorem mergeLayers_top (u : Session) (style : PackagingStyle) (received clone tests : Path) (layout : PackagingLayout) :
    ∃ first, mergeLayers u style received clone tests layout = first ++ topLayers u (topProject style clone tests) := by
  cases style <;> exact ⟨_, rfl⟩

/-- Only a copy of the whole project is laid over the whole package. -/
theorem IsPart.offers_of_whole {q : Path} (h : IsPart u p q l) (hq : Config.IsInside q) (hplace : l.place = []) :
    l.offers = u.offers p := by
  have hparts : q.parts = [] := by
    rcases h with rfl | rfl
    · exact hplace
    · by_contra hne
      have hgathered : (Path.ofString (p.join q).name).parts = [] := hplace
      rw [gathered_place hq hne] at hgathered
      cases hgathered
  have hjoin : p.join q = p := by rw [join_of_inside hq, hparts, Path.append_nil]
  rcases h with rfl | rfl <;> rw [hjoin] <;> rfl

/-- A part that is not the whole project and has another name does not reach to a name at the top. -/
theorem IsPart.not_prefix {q : Path} {name : String} (h : IsPart u p q l) (hq : Config.IsInside q) (hne : q.parts ≠ [])
    (hname : q.name ≠ name) : ¬ l.place <+: [name] := by
  intro hplace
  have hlast : [name] = q.parts → False := by
    intro hparts
    rw [Path.name, ← hparts] at hname
    exact hname rfl
  rcases h with rfl | rfl
  · rcases List.prefix_cons_iff.1 (show q.parts <+: [name] from hplace) with hnil | ⟨rest, hparts, hrest⟩
    · exact hne hnil
    · rw [List.prefix_nil.1 hrest] at hparts
      exact hlast hparts.symm
  · have hgathered : (Path.ofString (p.join q).name).parts <+: [name] := hplace
    rw [gathered_place hq hne] at hgathered
    exact hname (List.cons_prefix_cons.1 hgathered).1

/-! ### Below files -/

theorem closed_paramsLayer (params : Params) : (paramsLayer params).offers.Closed := fun _ _ hr h =>
  absurd (if_neg fun he => hr (List.append_eq_nil_iff.1 he).2) h

private theorem closed_topLayers : ∀ l ∈ topLayers u p, l.offers.Closed := by
  intro l hl
  unfold topLayers at hl
  split at hl
  · obtain ⟨q, -, rfl⟩ := List.mem_map.1 hl
    exact offers_closed u q
  · rw [List.mem_singleton.1 hl]
    exact fun _ _ _ h => absurd rfl h

private theorem closed_mergeLayers {style : PackagingStyle} {layout : PackagingLayout} :
    ∀ l ∈ mergeLayers u style received clone tests layout, l.offers.Closed := by
  have hpart : ∀ {project q : Path} {l : Layer}, IsPart u project q l → l.offers.Closed := by
    rintro project q l (rfl | rfl) <;> exact offers_closed u _
  intro l hl
  rcases cases_of_mem_mergeLayers hl with ⟨part, -, rfl⟩ | ⟨q, -, hl⟩ | ⟨-, q, -, hl⟩ | hl
  · exact offers_closed u _
  · exact hpart hl
  · exact hpart hl
  · exact closed_topLayers l hl

/-- In no layer of a package anything is offered below a file. -/
theorem closed_packageLayers {params : Params} {e : Ecosystem} {c : Config} :
    ∀ l ∈ packageLayers u params clone e received tests c, l.offers.Closed := by
  intro l hl
  unfold packageLayers at hl
  simp only [List.mem_append, List.mem_cons] at hl
  rcases hl with ((rfl | hl) | hl) | hl
  · exact closed_paramsLayer params
  · obtain ⟨name, -, project, rfl⟩ := exists_of_mem_environmentLayers hl
    exact offers_closed u _
  · exact closed_mergeLayers l hl
  · obtain ⟨q, -, rfl⟩ := exists_of_mem_overlayLayers hl
    exact offers_closed u _

end Handout.Submission
