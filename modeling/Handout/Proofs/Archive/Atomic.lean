import Handout.Archive.Create
import Handout.Proofs.Files.Draft
import Handout.Proofs.Files.Traverse

/-!
# Creating an archive is atomic

The entries of an archive are read while its draft is there, which changes nothing (`looks_entries`).  So an archive
that cannot be created leaves all files as they were, and one that is created changes nothing but what its path leads
to (`create_ensures`).
-/

namespace Handout

open Handout.Action Session

variable {s t : Session} {p : Path}

/-- The same files are stored, and relative paths start from the same directory. -/
structure SameStore (s t : Session) : Prop where
  files : t.files = s.files
  workingDir : t.workingDir = s.workingDir

theorem SameStore.refl (s : Session) : SameStore s s := ⟨rfl, rfl⟩

theorem SameStore.find (h : SameStore s t) (follow : Bool) (p : Path) : t.find follow p = s.find follow p := by
  unfold Session.find
  rw [h.files, h.workingDir]

theorem SameStore.node? (h : SameStore s t) (follow : Bool) (p : Path) : t.node? follow p = s.node? follow p := by
  unfold Session.node?
  rw [h.find]

theorem SameStore.replaced {f : Files} (h : SameStore s t) (hreplaced : Replaced t p f) : Replaced s p f := by
  obtain ⟨place, data, executable, hfind, hfile, hothers⟩ := hreplaced
  rw [h.find] at hfind
  refine ⟨place, data, executable, hfind, hfile, fun x hx => ?_⟩
  rw [hothers x hx, h.files]

theorem SameStore.replacedBy {f : Files} {data : Bytes} (h : SameStore s t) (hreplaced : ReplacedBy t p data f) :
    ReplacedBy s p data f := by
  obtain ⟨place, executable, hfind, hdir, hfile, hothers⟩ := hreplaced
  rw [h.find] at hfind
  refine ⟨place, executable, hfind, hdir, hfile, fun x hx => ?_⟩
  rw [hothers x hx, h.files]

theorem SameStore.note (s t : Session) (record : LogRecord) (h : SameStore s t) :
    SameStore s { t with log := t.log ++ [record] } := ⟨h.files, h.workingDir⟩

namespace Archive

theorem looks_entriesFor (format : Format) (draft source name : Path) : Looks (entriesFor format draft source name) := by
  unfold entriesFor
  cases format with
  | zip =>
    refine Looks.bind ?_ fun _ => Looks.pure _
    unfold zipEntry
    refine (Looks.query _).bind fun place => ?_
    split
    · exact Looks.throw _
    · split
      · exact Looks.throw _
      · exact Looks.pure _
  | tar =>
    refine Looks.bind ?_ fun same => ?_
    · unfold isSameName
      exact Looks.get.bind fun _ => Looks.pure _
    cases same with
    | true => exact Looks.pure _
    | false =>
      refine Looks.bind ?_ fun _ => Looks.pure _
      unfold tarEntry
      refine (Looks.query _).bind fun place => ?_
      split
      · exact Looks.throw _
      · exact Looks.pure _

theorem looks_entries (format : Format) (draft source : Path) (top : Option Path) (paths : List Path) :
    Looks (entries format draft source top paths) := by
  have hbelow : ∀ p, Looks (entriesBelow format draft source top p) := by
    intro p
    unfold entriesBelow
    split
    · exact Looks.throw _
    · exact looks_entriesFor _ _ _ _
  unfold entries
  cases top with
  | none => exact (Looks.pure _).bind fun first => (Looks.mapM hbelow paths).bind fun _ => Looks.pure _
  | some name => exact (looks_entriesFor _ _ _ _).bind fun first => (Looks.mapM hbelow paths).bind fun _ => Looks.pure _

/-- Writing the entries of an archive by way of a draft. -/
theorem write_ensures (format : Format) (source : Path) {output : Path} (top : Option Path) (paths : List Path)
    {suffix : String} (hfree : s.node? false (output.addSuffix suffix) = none) :
    Ensures (SameStore s)
      (overwriteAtomic output suffix fun draft => do
        let es ← entries format draft.path source top paths
        writeFile draft (encode format es)) (fun _ t => Replaced s output t.files) fun _ t => t.files = s.files := by
  intro t ht
  have hatomic := overwriteAtomic_ensures (p := output) (f := encode format) 
    (fun draft => looks_entries format draft.path source top paths) ((ht.node? false _).trans hfree)
    fun _ _ _ _ _ => trivial
  exact (hatomic t rfl).mono (fun _ u ⟨_, _, hu, _⟩ => ht.replaced hu.replaced) fun _ u hu => by rw [hu, ht.files]

/-- An archive replaces what its path leads to, and nothing else changes, or no file changes. -/
theorem create_ensures (format : Format) (source : Path) {output : Path} (top : Option Path) (paths : Option (List Path))
    (hfree : s.node? false (output.addSuffix ".tmp") = none) :
    Ensures (SameStore s) (create format source output top paths) (fun _ t => Replaced s output t.files)
      fun _ t => t.files = s.files := by
  have hwrite := fun found => write_ensures format source top found hfree
  unfold create
  cases paths with
  | none =>
    refine ((looks_descendants source false true).ensures fun _ _ ht => ht.files).bind fun found => ?_
    exact (Ensures.note (SameStore.note s)).bind fun _ => (hwrite found).during _ _
  | some found =>
    dsimp only
    rw [pure_bind]
    exact (Ensures.note (SameStore.note s)).bind fun _ => (hwrite found).during _ _

end Archive

end Handout
