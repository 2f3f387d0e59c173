import Handout.Proofs.Submission.Merge
import Handout.Submission.Package

/-!
# Filling a package

A package is filled with the parameters, with what development environments keep, with the merged parts, and last with
the student's files that the configuration names.  `packageLayers` lists all layers in this order, and `fill_relates`
says that a package that is filled without a failure consists of exactly these.
-/

namespace Handout.Submission

open Handout.Action Session

variable {u v s t : Session} {d : Location} {received received' clone tests : Path} {ls : List Layer}
  {params : Params} {e : Ecosystem}

/-- Fills the directory of a package. -/
def fill (params : Params) (clone : Path) (e : Ecosystem) (received tests package : Path) : Action Unit := do
  writeParams params (package.child paramsFileName)
  environmentNames.forM fun name => copyEnvironment package name [received, clone]
  let layout ← e.layout clone
  note .info .submissionPackaging s!"merging files in {e.style.name} style"
  merge e.style { received, clone, tests, package } layout
  let config ← Config.load clone
  overlay received package (Path.sort config.extraStudentFiles)

/-! ### The layers of a package -/

/-- The layer of the parameters. -/
def paramsLayer (params : Params) : Layer :=
  ⟨fun names => if names = [] then some (.file params.content false) else none, paramsFileName, [paramsFileName]⟩

/-- The layers of what development environments keep. -/
def environmentLayers (u : Session) (received clone : Path) (names : List String) : List Layer :=
  names.flatMap fun name =>
    if (u.node? true (received.child name)).isSome then [layer u (received.child name) [name]]
    else layerIf u (clone.child name) [name]

/-- All layers of a package. -/
def packageLayers (u : Session) (params : Params) (clone : Path) (e : Ecosystem) (received tests : Path) (c : Config) :
    List Layer :=
  paramsLayer params :: environmentLayers u received clone environmentNames
    ++ mergeLayers u e.style received clone tests (e.layoutOf c)
    ++ overlayLayers u received (Path.sort c.extraStudentFiles)

/-! ### Filling -/

private theorem proper_paramsFileName : IsProper paramsFileName := by decide

theorem proper_environmentNames : ∀ name ∈ environmentNames, IsProper name := by decide

/-- In a new package, the layer of the parameters is one file more. -/
private theorem onto_params (names : List String) :
    (paramsLayer params).onto (fun names => if names = [] then some .directory else none) names =
      if names = [paramsFileName] then some (.file params.content false)
      else if names = [] then some .directory else none := by
  unfold Layer.onto
  by_cases hplace : [paramsFileName] <+: names
  · obtain ⟨rest, rfl⟩ := hplace
    refine (deposit_append _ _ [paramsFileName] rest _).trans ?_
    cases rest with
    | nil => rfl
    | cons c rest => rfl
  · have hne : names ≠ [paramsFileName] := fun he => hplace (he ▸ List.prefix_refl _)
    rw [if_neg hne]
    unfold deposit
    rw [if_neg (show ¬ (paramsLayer params).place <+: names from hplace)]
    cases names with
    | nil => rfl
    | cons c rest =>
      rw [if_neg (List.cons_ne_nil c rest), if_neg]
      · exact if_neg (List.cons_ne_nil c rest)
      intro hway
      obtain ⟨rfl, hrest⟩ := List.cons_prefix_cons.1 (show c :: rest <+: [paramsFileName] from hway)
      exact hne (by rw [List.prefix_nil.1 hrest])

private theorem free_params :
    ¬ (paramsLayer params).IsObstructed fun names => if names = [] then some .directory else none := by
  rintro (⟨first, hfirst, hne, hold⟩ | hclash)
  · rw [List.prefix_nil.1 (hfirst : first <+: [])] at hold
    exact hold rfl
  · have hoffer : (paramsLayer params).offers [] = some (.file params.content false) := rfl
    cases ((clash_file hoffer).1 hclash).1

variable (params) in
/-- The parameters are written to a new package. -/
theorem perform_writeParams (hs : Within u s d) (h : Stacked [] (s.files.content d)) :
    ∃ t, (writeParams params (d.path.child paramsFileName)).perform s = (.ok (), t) ∧ Within u t d ∧
      t.files.content d = (paramsLayer params).onto (s.files.content d) := by
  have hnone : s.files.get? (d ++ [paramsFileName]) = none := congrFun h.eq_bare [paramsFileName]
  have hspot : Spot s d paramsFileName := ⟨hs.directory, proper_paramsFileName⟩
  refine ⟨{ s with files := s.files.put (d ++ [paramsFileName]) (.file params.content false) }, ?_, ?_, ?_⟩
  · unfold writeParams
    rw [perform_during, perform_writeFile _ (hspot.reaches hs.sound (by rw [hnone]; exact nofun)) rfl (.inl ⟨hnone, rfl⟩)]
  · refine hs.put (List.prefix_refl _) hs.directory proper_paramsFileName (fun hdir => ?_) rfl
    cases hnone.symm.trans hdir
  · funext names
    rw [h.eq_bare, onto_params, ← congrFun h.eq_bare names]
    unfold Files.content
    dsimp only
    rw [Files.get?_put (by simp)]
    simp only [List.append_cancel_left_eq]

theorem writeParams_relates (params : Params) :
    Relates (Merging u v d []) (writeParams params (d.path.child paramsFileName))
      (writeParams params (d.path.child paramsFileName)) (fun _ => Merging u v d [paramsLayer params])
      (BothFail u v d) := by
  intro s t h
  obtain ⟨s', hs, hwithin, hcontent⟩ := perform_writeParams params h.left h.stacked
  obtain ⟨t', ht, hwithin', hcontent'⟩ := perform_writeParams params h.right (h.same ▸ h.stacked)
  have hstacked := h.stacked.lay (paramsLayer params) (h.stacked.eq_bare ▸ free_params)
  rw [hs, ht]
  refine ⟨rfl, ⟨hwithin, hwithin'⟩, ?_, ?_⟩
  · rw [hcontent, hcontent', h.same]
  · rw [hcontent]
    exact hstacked

/-- What a development environment keeps comes from the first project that has it. -/
theorem copyEnvironment_relates (hu : u.Sound) (hv : v.Sound) {name : String} (hname : IsProper name)
    (hreceived : Pair u v d (received.child name) (received'.child name)) (hclone : Shared u v d clone) :
    Relates (Merging u v d ls) (copyEnvironment d.path name [received, clone])
      (copyEnvironment d.path name [received', clone])
      (fun _ => Merging u v d (ls ++ environmentLayers u received clone [name])) (BothFail u v d) := by
  have hplace : ∀ c ∈ [name], IsProper c := by simpa using hname
  have hchild : Pair u v d (clone.child name) (clone.child name) :=
    (hclone.append (show ∀ x ∈ [name], IsPlain x by simpa using hname.plain)).pair
  have hrest := copyIfExists_relates ls hu hv hchild fun _ => hplace
  unfold copyIfExists at hrest
  unfold environmentLayers copyEnvironment copyEnvironment copyEnvironment
  rw [List.flatMap_singleton]
  refine (pathExists_relates hreceived).bind fun b => Relates.of_and fun hb => ?_
  rw [← hb, copyInto_child hname, copyInto_child hname, copyInto_child hname]
  cases b with
  | true => exact copyMerge_relates hu hv hreceived hplace
  | false => exact hrest

/-- What is needed in both sessions to fill a package. -/
structure Fillable (u v : Session) (d : Location) (clone : Path) (e : Ecosystem) (received received' tests : Path) :
    Prop where
  ofClone : Shared u v d clone
  environment : ∀ name ∈ environmentNames, Pair u v d (received.child name) (received'.child name)
  mergeable : ∀ c, ((Config.load clone).perform u).1 = .ok c →
    Mergeable u v d e.style received received' clone tests (e.layoutOf c)

/-- The student's files that are configured belong to the student's parts. -/
theorem mem_studentPaths {c : Config} {p : Path} (h : p ∈ Path.sort c.extraStudentFiles) :
    p ∈ (e.layoutOf c).studentPaths := by
  have hmem : p ∈ c.extraStudentFiles := (sortBy_perm _ _).mem_iff.1 h
  exact Ecosystem.mem_studentPaths.2 (.inr hmem)

/-- A package that is filled without a failure consists of its layers, in both sessions. -/
theorem fill_relates (hu : u.Sound) (hv : v.Sound) (h : Fillable u v d clone e received received' tests)
    (params : Params) :
    Relates (Merging u v d []) (fill params clone e received tests d.path) (fill params clone e received' tests d.path)
      (fun _ s t => ∃ c, ((Config.load clone).perform u).1 = .ok c ∧
        Merging u v d (packageLayers u params clone e received tests c) s t) (BothFail u v d) := by
  have hload : ∀ ls, Relates (Merging u v d ls) (Config.load clone) (Config.load clone)
      (fun c s t => Merging u v d ls s t ∧ ((Config.load clone).perform u).1 = .ok c) (BothFail u v d) := fun ls =>
    h.ofClone.looks (fun _ _ hst _ => agrees_load hst) hu hv
  have henvironment := Relates.forM_done (l := environmentNames) (E := BothFail u v d)
    (f := fun name => copyEnvironment d.path name [received, clone])
    (g := fun name => copyEnvironment d.path name [received', clone])
    (fun done => Merging u v d (paramsLayer params :: environmentLayers u received clone done)) ?_
  · unfold fill
    refine (writeParams_relates params).bind fun _ => henvironment.bind fun _ => ?_
    simp only [Ecosystem.layout, bind_assoc, pure_bind]
    refine (hload _).bind fun c => Relates.of_and fun hc => ?_
    have hmergeable := h.mergeable c hc
    refine (Relates.note fun _ _ record hst => hst.log record).bind fun _ => ?_
    refine (merge_relates hu hv hmergeable).bind fun _ => (hload _).bind fun c' => Relates.of_and fun hc' => ?_
    obtain rfl := Except.ok.inj (hc.symm.trans hc')
    refine (overlay_relates hu hv (fun p hp => ?_) fun p hp => ?_).mono (fun _ _ hst => hst)
      (fun _ s t hst => ⟨c, hc, hst⟩) fun _ _ _ _ hst => hst
    · exact hmergeable.inside p (List.mem_append_left _ (mem_studentPaths hp))
    · exact hmergeable.student p (mem_studentPaths hp)
  · rintro done name rest hdone
    have hname : name ∈ environmentNames := by
      rw [hdone]
      simp
    have hlayers : environmentLayers u received clone (done ++ [name]) =
        environmentLayers u received clone done ++ environmentLayers u received clone [name] := by
      simp [environmentLayers]
    rw [hlayers, ← List.cons_append]
    exact copyEnvironment_relates hu hv (proper_environmentNames name hname) (h.environment name hname) h.ofClone

end Handout.Submission
