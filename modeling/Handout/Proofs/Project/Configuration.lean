import Handout.Project.Configuration
import Handout.Proofs.Archive.Extract
import Handout.Proofs.Files.Refusal

/-!
# What a configuration depends on

The entries of a configuration that is read from a file are plain paths inside the project (`inside_of_load`), so
their real paths are found by name alone.  Loading a configuration changes nothing, and it depends on the
configuration file only (`load_agrees`).  A configuration that is text, and in which all scalars have a value, is loaded
or refused (`load_reported`).
-/

namespace Handout

open Handout.Action

variable {s t : Session}

namespace Config

/-- A path that stays inside the directory from which it is taken. -/
def IsInside (p : Path) : Prop := p.isAbsolute = false ∧ ∀ c ∈ p.parts, IsName c

/-- All entries of a configuration stay inside the project. -/
def Inside (c : Config) : Prop := ∀ key, ∀ p ∈ c.paths key, IsInside p

theorem mem_pathSet {p : Path} {ps : List Path} : p ∈ pathSet ps ↔ p ∈ ps := by
  unfold pathSet Path.sort
  rw [(sortBy_perm _ _).mem_iff, List.mem_eraseDups]

theorem refuse_ne_ok {d : Document} {entry : Value} {fault : Text → ConfigFault} {p : Path} :
    refuse d entry fault ≠ .ok p := by
  unfold refuse
  split <;> exact nofun

private theorem inside_of_readEntry {d : Document} {key : ConfigKey} {entry : Value} {p : Path}
    (h : readEntry d key entry = .ok p) : IsInside p := by
  unfold readEntry at h
  split at h
  · exact absurd h refuse_ne_ok
  · rename_i text _
    dsimp only at h
    have hmem : ∀ c ∈ (Path.ofString (Text.toString text)).parts, c ≠ ".." → IsName c := fun c =>
      Path.isName_of_mem_ofString
    generalize Path.ofString (Text.toString text) = path at h hmem
    split at h
    · exact absurd h refuse_ne_ok
    · rename_i hsafe
      simp only [Bool.or_eq_true, not_or, Bool.not_eq_true] at hsafe
      cases h
      refine ⟨hsafe.1, fun c hc => hmem c hc ?_⟩
      rintro rfl
      have := hsafe.2
      simp [hc] at this
  · exact absurd h refuse_ne_ok

private theorem inside_of_readList {d : Document} {entries : List (Value × Value)} {key : ConfigKey}
    {ps : List Path} (h : readList d entries key = .ok ps) {p : Path} (hp : p ∈ ps) : IsInside p := by
  unfold readList at h
  split at h
  · cases h
    cases hp
  · cases h
    cases hp
  · rename_i items _
    cases hm : items.mapM (readEntry d key) with
    | error e =>
      rw [hm] at h
      cases h
    | ok found =>
      rw [hm] at h
      cases h
      obtain ⟨entry, -, hentry⟩ := mem_of_mapM_ok hm (mem_pathSet.1 hp)
      exact inside_of_readEntry hentry
  · cases h

private theorem inside_default : Inside {} := by
  intro key p hp
  cases key <;> cases hp

theorem inside_of_ofDocument {d : Document} {c : Config} (h : ofDocument d = .ok c) : c.Inside := by
  unfold ofDocument at h
  split at h
  · cases h
    exact inside_default
  · obtain ⟨student, hstudent, h⟩ := ok_of_bind h
    obtain ⟨exercise, hexercise, h⟩ := ok_of_bind h
    obtain ⟨force, hforce, h⟩ := ok_of_bind h
    cases h
    intro key p hp
    cases key with
    | extraStudentFiles => exact inside_of_readList hstudent hp
    | extraExerciseFiles => exact inside_of_readList hexercise hp
    | forceUpdate => exact inside_of_readList hforce hp
  · cases h

theorem exists_document_of_parse {path : Path} {content : String} {c : Config} (h : parse path content = .ok c) :
    ∃ d, ofDocument d = .ok c := by
  unfold parse at h
  split at h
  · cases h
  · cases h
  · cases h
  · rename_i d _
    cases hd : ofDocument d with
    | error e =>
      rw [hd] at h
      cases h
    | ok c' =>
      rw [hd] at h
      cases h
      exact ⟨d, hd⟩

/-! ### Loading -/

theorem load_ensures (project : Path) :
    Ensures (fun _ => True) (load project) (fun c _ => c = {} ∨ ∃ d, ofDocument d = .ok c) fun _ _ => True := by
  unfold load
  refine (Looks.ensures (looks_isFile _) fun _ _ hs => hs).bind fun b => ?_
  cases b with
  | false => exact Ensures.pure fun _ _ => .inl rfl
  | true =>
    refine (Looks.ensures ((Looks.query _).during .read _) fun _ _ hs => hs).bind fun data => ?_
    split
    · exact Ensures.throw fun _ hs => hs
    · generalize hanswer : parse _ _ = answer
      exact (Ensures.query_const answer).mono (fun _ hs => hs)
        (fun c _ hc => .inr (exists_document_of_parse (hanswer.trans hc.2))) fun _ _ hs => hs

/-- A configuration that is loaded is empty or has been read. -/
theorem read_of_load {project : Path} {c : Config} (h : ((load project).perform s).1 = .ok c) :
    c = {} ∨ ∃ d, ofDocument d = .ok c := by
  have hread := load_ensures project s trivial
  rcases hp : (load project).perform s with ⟨r, t⟩
  rw [hp] at h hread
  cases h
  exact hread

theorem inside_of_load {project : Path} {c : Config} (h : ((load project).perform s).1 = .ok c) : c.Inside := by
  rcases read_of_load h with rfl | ⟨d, hd⟩
  · exact inside_default
  · exact inside_of_ofDocument hd

theorem looks_load (project : Path) : Looks (load project) := by
  unfold load
  refine (looks_isFile _).bind fun b => ?_
  cases b with
  | false => exact Looks.pure _
  | true =>
    refine ((Looks.query _).during .read _).bind fun data => ?_
    split
    · exact Looks.throw _
    · exact Looks.query _

/-- Loading a configuration depends on its file only. -/
theorem load_agrees {project : Path} (hfile : s.isFile? (project.child fileName) = t.isFile? (project.child fileName))
    (hcontent : s.isFile? (project.child fileName) = .ok true →
      s.content? (project.child fileName).written = t.content? (project.child fileName).written) :
    Agrees s t (load project) := by
  refine Agrees.bind (Agrees.query hfile) fun b hb => ?_
  cases b with
  | false => exact Agrees.pure _
  | true =>
    refine Agrees.bind ((Agrees.query (hcontent hb)).during .read _) fun data _ => ?_
    split
    · exact Agrees.throw _
    · exact Agrees.query rfl

/-! ### Failures -/

/-- Whether a configuration with some data is read or refused: it is text, collections are not nested too deeply, all
scalars have a value, and an odd entry can be shown. -/
def isOrderly (data : Bytes) : Bool :=
  match Bytes.toString? data with
  | none => false
  | some text =>
    match Yaml.load (plainLineEnds text.toList) with
    | .error .tooDeep | .error (.scalar _) => false
    | .error .malformed => true
    | .ok d =>
      match ofDocument d with
      | .error (.scalar _) => false
      | _ => true

private theorem parse_reported {path : Path} {text : List Char} {e : Failure} (h : parse path (String.ofList text) = .error e)
    (hfault : ∀ fault, Yaml.load text = .error fault → fault = .malformed)
    (hshown : ∀ d fault, Yaml.load text = .ok d → ofDocument d ≠ .error (.scalar fault)) : e.isReported = true := by
  unfold parse at h
  rw [String.toList_ofList] at h
  split at h
  · cases h
    rfl
  · rename_i hload
    cases hfault _ hload
  · rename_i hload
    cases hfault _ hload
  · rename_i d hload
    cases hd : ofDocument d with
    | ok c =>
      rw [hd] at h
      cases h
    | error fault =>
      rw [hd] at h
      cases h
      cases fault with
      | refused => rfl
      | scalar fault => exact absurd hd (hshown d fault hload)

/-- An orderly configuration is loaded, or the failure is reported. -/
theorem load_reported {project : Path} (hlinks : s.files.HasShortLinks) (hshort : project.IsShort)
    (hz : project.hasZero = false) (hlocked : project ∉ s.locked)
    (hdata : ∀ data, s.content? (project.child fileName).written = .ok data → isOrderly data = true) :
    Ensures (fun t => t = s) (load project) (fun _ _ => True) fun e _ => e.isReported = true := by
  obtain ⟨b, hb⟩ := Session.isFile?_of_short (p := project.child fileName) hlinks (hshort.append (by decide))
    (by simpa [Path.parent, Path.child] using hlocked)
  have hfile : Ensures (fun t => t = s) (isFile (project.child fileName)) (fun _ t => t = s) fun e _ => e.isReported = true := by
    refine Ensures.query ?_
    rintro t rfl
    rw [hb]
    rfl
  unfold load
  refine hfile.bind fun b => ?_
  cases b with
  | false => exact Ensures.pure fun _ _ => trivial
  | true =>
    have hkeep : ∀ t data, t = s → t.content? (project.child fileName).written = .ok data → isOrderly data = true := by
      rintro t data rfl
      exact hdata data
    refine (readFile_reported (Path.hasZero_child hz (by decide)) hkeep).bind fun data => Ensures.of_each fun t hread => ?_
    have horderly := hread.2
    unfold isOrderly at horderly
    split
    · rename_i hnone
      rw [hnone] at horderly
      cases horderly
    · rename_i text hsome
      rw [hsome] at horderly
      refine Ensures.query fun _ _ => ?_
      cases hparse : parse (project.child fileName) (String.ofList (plainLineEnds text.toList)) with
      | ok c => exact trivial
      | error e =>
        dsimp only at horderly
        refine parse_reported hparse (fun fault hfault => ?_) fun d fault hload hfault => ?_
        · rw [hfault] at horderly
          cases fault with
          | malformed => rfl
          | tooDeep | scalar => cases horderly
        · rw [hload] at horderly
          dsimp only at horderly
          rw [hfault] at horderly
          cases horderly

end Config

end Handout
