import Handout.Proofs.Files.Copy

/-!
# Copies stay below the directory they are made in

A property of sessions may tolerate whatever happens below a directory (`Tolerates`): it lasts when something other
than a link is stored there where no directory was.  Every operation that makes, writes or copies to a place below
the directory preserves such a property, whatever it copies and whether it succeeds or fails; for copies this is
`Tolerates.copyMerge_preserves`.
-/

namespace Handout.Action

variable {P : Session → Prop} {base p : Path} {d loc : Location} {names : List String} {s : Session} {follow : Bool}
  {source target : WrittenPath}

/-- A property that lasts whatever is stored below the directory to which a path leads, links apart. -/
structure Tolerates (P : Session → Prop) (base : Path) (d : Location) : Prop where
  sound : ∀ s, P s → s.Sound
  leads : ∀ s, P s → s.LeadsTo base d
  noLink : ∀ s, P s → ∀ rel text, s.files.get? (d ++ rel) ≠ some (.link text)
  put : ∀ s rel c node, P s → s.files.get? (d ++ rel) = some .directory → IsProper c →
    s.files.get? (d ++ rel ++ [c]) ≠ some .directory → node.isLink = false →
    P { s with files := s.files.put (d ++ rel ++ [c]) node }

namespace Tolerates

theorem way (h : Tolerates P base d) (hs : P s) (names : List String) : Way s base d names :=
  ⟨h.sound s hs, h.leads s hs, fun first text _ _ => h.noLink s hs first text⟩

theorem room (h : Tolerates P base d) (hp : ∀ c ∈ names, IsName c) : Room (Alone P) base d names := by
  refine .alone hp (fun s hs => h.way hs names) fun s first c hs _ hc hd hnone => h.put s first c _ hs hd hc ?_ rfl
  rw [hnone]
  simp

/-- Storing at a place that names below the base lead to, where no directory is. -/
theorem store (h : Tolerates P base d) (hs : P s) (hp : ∀ c ∈ names, IsName c) {place : Place} {node : Node}
    (hz : (base.append names).hasZero = false) (hf : s.find true (base.append names) = .ok place)
    (hplace : place.node ≠ some .directory) (hnode : node.isLink = false) :
    P { s with files := s.files.put place.location node } := by
  obtain ⟨init, c, -, hproper, hloc, hold, hd⟩ := stored_at (h.way hs names) hp hz (.inr rfl) hf hplace
  rw [hloc]
  exact h.put s init c node hs hd hproper (hold ▸ hplace) hnode

theorem makeDirectories_preserves (h : Tolerates P base d) (hp : ∀ c ∈ names, IsName c) :
    Preserves P (makeDirectories (base.append names)) :=
  ⟨(makeDirectories_ensures (h.room hp)).mono (fun _ hs => hs) (fun _ _ hs => hs.1) fun _ _ hs => hs⟩

theorem ensureDirectory_preserves (h : Tolerates P base d) (hp : ∀ c ∈ names, IsName c)
    (hw : target.path = base.append names) : Preserves P (ensureDirectory target) :=
  ⟨ensures_iff_relates.2 ((ensureDirectory_relates (h.room hp) hw).mono (fun _ _ hst => hst) (fun _ _ _ hst => hst.1)
    fun _ _ _ _ he => he)⟩

theorem writeFile_preserves (h : Tolerates P base d) (hp : ∀ c ∈ names, IsName c)
    (hw : target.path = base.append names) (data : Bytes) : Preserves P (writeFile target data) := by
  refine ⟨writeFile_ensures fun s place flag hs hz hf hflag => ?_⟩
  rw [hw] at hz hf
  exact h.store hs hp hz hf hflag.ne_directory rfl

/-- The content of a file is copied to a place that may depend on the name of the file; when that has been done, the
file has a proper name. -/
theorem copyContent_ensures (h : Tolerates P base d) (sourceName targetName : FileName)
    (hp : IsProper source.path.name → ∃ names, (∀ c ∈ names, IsName c) ∧ target.path = base.append names) :
    Ensures P (copyContent sourceName source targetName target) (fun _ s => P s ∧ IsProper source.path.name)
      fun _ => P := by
  refine Action.copyContent_ensures fun s place loc data executable flag hs hz hsource hf hflag => ?_
  obtain ⟨-, c, -, hname, hproper⟩ := Session.proper_of_file (h.sound s hs) hsource
  rw [← hname] at hproper
  obtain ⟨names, hnames, hw⟩ := hp hproper
  rw [hw] at hz hf
  exact ⟨h.store hs hnames hz hf hflag.ne_directory rfl, hproper⟩

theorem copyFlag_preserves (h : Tolerates P base d) (hp : ∀ c ∈ names, IsName c) (source : Path) :
    Preserves P (copyFlag source (base.append names)) := by
  refine Preserves.get_bind fun s => ?_
  split
  · have hlocate : Ensures P (locate true (base.append names).written)
        (fun place t => P t ∧ (base.append names).hasZero = false ∧ t.find true (base.append names) = .ok place)
        fun _ => P := by
      refine Ensures.query fun t ht => ?_
      split
      · exact ht
      · rename_i hz
        split
        · rename_i hf
          exact ⟨ht, Bool.eq_false_iff.2 hz, hf⟩
        · exact ht
    refine ⟨hlocate.bind fun place => ?_⟩
    split
    · rename_i hplace
      refine Ensures.edit fun t ht => h.store ht.1 hp ht.2.1 ht.2.2 ?_ rfl
      rw [hplace]
      exact fun he => Node.noConfusion (Option.some.inj he)
    · exact Ensures.pure fun _ ht => ht.1
  · exact Preserves.pure _

theorem copyFile_preserves (h : Tolerates P base d) (hp : ∀ c ∈ names, IsName c)
    (hw : target.path = base.append names) (sourceName targetName : FileName) :
    Preserves P (copyFile sourceName source targetName target) := by
  refine Preserves.get_bind fun s => ?_
  have hinside : (target.entry source.path.name).path = base.append (names ++ [source.path.name]) := by
    show target.path.child _ = _
    rw [hw, Path.child_eq_append, Path.append_append]
  have hnames : IsProper source.path.name → ∀ c ∈ names ++ [source.path.name], IsName c := by
    intro hname c hc
    rcases List.mem_append.1 hc with hc | hc
    · exact hp c hc
    · rw [List.mem_singleton.1 hc]
      exact hname.toIsName
  dsimp only
  split
  · refine Preserves.bind_of (h.copyContent_ensures sourceName _ fun hname => ⟨_, hnames hname, hinside⟩) fun _ hname => ?_
    rw [hinside]
    exact h.copyFlag_preserves (hnames hname) source.path
  · refine Preserves.bind_of (h.copyContent_ensures sourceName targetName fun _ => ⟨names, hp, hw⟩) fun _ _ => ?_
    rw [hw]
    exact h.copyFlag_preserves hp source.path

/-- The names in a directory are proper. -/
theorem names_ensures (h : Tolerates P base d) (w : WrittenPath) :
    Ensures P (Action.names w) (fun found s => P s ∧ ∀ c ∈ found, IsName c) fun _ => P := by
  refine Ensures.query fun s hs => ?_
  cases hfound : s.names? w with
  | error e => exact hs
  | ok found =>
    obtain ⟨loc, -, rfl⟩ := Session.names?_eq_ok hfound
    exact ⟨hs, fun c hc => ((h.sound s hs).files.proper (Files.mem_names.1 hc)).toIsName⟩

theorem copyTree_preserves (h : Tolerates P base d) (fuel : Nat) (hp : ∀ c ∈ names, IsName c)
    (hw : target.path = base.append names) : Preserves P (copyTree fuel source target) := by
  induction fuel generalizing names source target with
  | zero => exact Preserves.throw _
  | succ fuel ih =>
    rw [copyTree_succ]
    refine Preserves.bind_of (h.names_ensures source) fun found hfound => ?_
    refine Preserves.bind (h.ensureDirectory_preserves hp hw) fun _ => ?_
    refine Preserves.bind (Preserves.foldlM (fun faults name hname => ?_) _) fun faults => ?_
    · have hentry : (target.entry name).path = base.append (names ++ [name]) := by
        show target.path.child name = _
        rw [hw, Path.child_eq_append, Path.append_append]
      have hnames : ∀ c ∈ names ++ [name], IsName c := by
        intro c hc
        rcases List.mem_append.1 hc with hc | hc
        · exact hp c hc
        · rw [List.mem_singleton.1 hc]
          exact hfound name hname
      unfold copyEntry
      refine Preserves.tryCatch (Preserves.bind (Preserves.query _) fun isTree => ?_) fun e => ?_
      · cases isTree with
        | true => exact (ih hnames hentry).bind fun _ => Preserves.pure _
        | false => exact (h.copyFile_preserves hnames hentry _ _).bind fun _ => Preserves.pure _
      · split
        · exact Preserves.pure _
        · exact Preserves.throw _
    · split
      · exact Preserves.pure _
      · exact Preserves.throw _

/-- Whatever is copied to a place below the base, if its parent can be made there. -/
theorem copyMerge_preserves (h : Tolerates P base d) (hp : ∀ c ∈ names, IsName c) (source : Path)
    (hparent : Preserves P (makeDirectories (base.append names).parent)) :
    Preserves P (copyMerge source (base.append names)) := by
  unfold copyMerge
  refine hparent.bind fun _ => Preserves.bind (Preserves.query _) fun isTree => ?_
  cases isTree with
  | true => exact Preserves.get_bind fun s => h.copyTree_preserves _ hp rfl
  | false => exact h.copyFile_preserves hp rfl _ _

end Tolerates

end Handout.Action
