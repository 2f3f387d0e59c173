import Handout.Proofs.Exercise.Vacant
import Handout.Proofs.Tag.Restub

/-!
# The stub of a stub

A stub is an exercise as well, and its stub is the same again (`prepareStub_again`).  A walk through the stub comes to
exactly the files that have been written (`Derived.visits_iff`): the directories on the way to them have passed the
rules before, and a directory to be left out would have been left out the first time.  And a written file is read as
it has been written, so nothing of it changes (`Derived.yields`).
-/

namespace Handout.Exercise

open Handout.Action Session

variable {keep : SpanFilter} {s t u : Session} {source target p q : Path} {place : Location} {rel pre : List String}
  {c : String} {data : Bytes}

/-- An exercise has been derived into an empty directory. -/
structure Derived (keep : SpanFilter) (s t : Session) (source target : Path) (place : Location) : Prop where
  sound : s.Sound
  vacant : Vacant s target place
  mirrored : Mirrored keep s t source place (visited s (s.files.height + 1) source)

/-- The file with these names behind the path of the exercise has been written, with this content. -/
abbrev Written (keep : SpanFilter) (s : Session) (source : Path) (rel : List String) (data : Bytes) : Prop :=
  Writes keep s source (visited s (s.files.height + 1) source) rel data

/-- Every text file of an exercise is such that an output of it is read as it has been written. -/
def Settled (keep : SpanFilter) (s : Session) (source : Path) : Prop :=
  ∀ f ∈ visited s (s.files.height + 1) source, isBinary f = false → ∀ data, s.content? f.written = .ok data →
    Settles keep f.extension data

theorem Writes.visits {levels : Nat} (h : Writes keep s source (visited s levels source) rel data) :
    Visits s source rel := visits_of_mem_visited h.1

theorem isFile?_of_content? {f : Path} (h : s.content? f.written = .ok data) : s.isFile? f ≠ .ok false := by
  obtain ⟨hz, loc, executable, hfind⟩ := Session.content?_eq_ok h
  intro hno
  unfold Session.isFile? Session.look at hno
  rw [show f.hasZero = false from hz, if_neg Bool.false_ne_true, show s.find true f = _ from hfind] at hno
  split at hno <;> cases hno

namespace Derived

variable (h : Derived keep s t source target place)

include h

theorem grown : Grown s t place := by
  have hmirrored := h.mirrored
  rw [← List.append_nil place] at hmirrored
  have hgrown := hmirrored.grown h.sound (h.vacant.destination h.sound)
  rwa [List.take_nil, List.append_nil] at hgrown

theorem leads : t.LeadsTo target place := h.grown.leadsTo h.vacant.leads

theorem noLink (rel : List String) (name : String) : t.files.get? (place ++ rel) ≠ some (.link name) :=
  h.grown.noLink rel name

theorem file (hw : Written keep s source rel data) : t.files.get? (place ++ rel) = some (.file data false) :=
  h.mirrored.file h.sound h.vacant hw.visits.ne_nil hw

theorem directory (hw : Written keep s source rel data) (hp : pre <+: rel.dropLast) :
    t.files.get? (place ++ pre) = some .directory :=
  h.mirrored.directory hw hp hw.visits.ne_nil

/-- What is in the directory is found by its names. -/
theorem reaches (hdir : t.files.get? (place ++ pre) = some .directory) (hc : IsProper c) :
    t.Reaches ((target.append pre).child c) (place ++ pre ++ [c]) := by
  refine reaches_child (h.leads.append h.mirrored.sound hdir) h.mirrored.sound hc fun name => ?_
  rw [List.append_assoc]
  exact h.noLink _ name

theorem reaches_of_exists (hn : t.files.get? (place ++ rel) ≠ none) (hrel : rel ≠ []) :
    t.Reaches (target.append rel) (place ++ rel) := by
  obtain ⟨pre, c, rfl⟩ : ∃ pre c, rel = pre ++ [c] := ⟨_, _, (List.dropLast_concat_getLast hrel).symm⟩
  have hsound := h.mirrored.sound.files
  have hdir : t.files.get? (place ++ pre) = some .directory := by
    rw [← List.append_assoc] at hn
    exact hsound.ancestor hn (List.cons_ne_nil _ _)
  have hreaches := h.reaches hdir (hsound.proper_of_mem hn (by simp) : IsProper c)
  rwa [Path.child_eq_append, Path.append_append, List.append_assoc] at hreaches

/-- What a walk through the derived exercise finds in a directory. -/
theorem mem_sortedNames_iff (hopen : ∀ names, target.append names ∉ s.locked)
    (hdir : t.files.get? (place ++ pre) = some .directory) :
    c ∈ sortedNames t (target.append pre) ↔ t.files.get? (place ++ (pre ++ [c])) ≠ none := by
  have hleads : t.LeadsTo (target.append pre) (place ++ pre) := h.leads.append h.mirrored.sound hdir
  have hlocked : t.locked.contains (target.append pre) = false := by
    rw [h.mirrored.only, List.contains_eq_mem, decide_eq_false_iff_not]
    exact hopen pre
  have hnames : t.names? (target.append pre).written = .ok (t.files.names (place ++ pre)) := by
    unfold Session.names?
    rw [show (target.append pre).written.path = target.append pre from rfl, hlocked, hleads.hasZero h.mirrored.sound,
      leadsTo_iff_find.1 hleads]
    rfl
  unfold sortedNames
  rw [hnames, ← List.append_assoc, ← Files.mem_names]
  exact (sortBy_perm _ _).mem_iff

/-! ### Where a walk comes -/

/-- A directory in which the walk goes on passes the rules again: a file that tells to leave it out would have been
there the first time. -/
theorem not_prunes (hopen : ∀ names, target.append names ∉ s.locked)
    (hdir : t.files.get? (place ++ (pre ++ [c])) = some .directory)
    (hpasses : prunes s ((source.append pre).child c) = false) : prunes t ((target.append pre).child c) = false := by
  have hname : ∀ p : Path, (p.child c).name = c := fun p => Path.name_append p (List.cons_ne_nil c [])
  unfold prunes at hpasses ⊢
  rw [hname] at hpasses ⊢
  rw [Bool.or_eq_false_iff] at hpasses ⊢
  obtain ⟨hrules, hignored⟩ := hpasses
  refine ⟨hrules, ?_⟩
  have hpath : (target.append pre).child c = target.append (pre ++ [c]) := by
    rw [Path.child_eq_append, Path.append_append]
  have hreaches : t.Reaches ((target.append (pre ++ [c])).child ignoreFileName)
      (place ++ (pre ++ [c]) ++ [ignoreFileName]) := h.reaches hdir (by decide)
  have hlocked : t.locked.contains (target.append (pre ++ [c])) = false := by
    rw [h.mirrored.only, List.contains_eq_mem, decide_eq_false_iff_not]
    exact hopen _
  have hparent : ((target.append (pre ++ [c])).child ignoreFileName).parent = target.append (pre ++ [c]) := by
    unfold Path.parent Path.child
    rw [List.dropLast_concat]
  rw [hpath, isFile?, hparent, hlocked, hreaches.look]
  by_contra hfile
  have hn : t.files.get? (place ++ (pre ++ [c] ++ [ignoreFileName])) ≠ none := by
    intro hnone
    rw [List.append_assoc, hnone] at hfile
    exact hfile rfl
  rcases h.mirrored.cases h.sound h.vacant (by simp) hn with ⟨data, hw⟩ | ⟨hnode, -⟩
  · obtain ⟨content, hcontent, -⟩ := hw.2
    have hsource : source.append (pre ++ [c] ++ [ignoreFileName]) =
        ((source.append pre).child c).child ignoreFileName := by
      rw [Path.child_eq_append, Path.child_eq_append, Path.append_append, Path.append_append, List.append_assoc]
    rw [hsource] at hcontent
    have hno := isFile?_of_content? hcontent
    split at hignored
    · rename_i b hb
      rw [hignored] at hb
      exact hno hb
    · cases hignored
  · rw [List.append_assoc, hnode] at hfile
    exact hfile rfl

/-- A file that has been written is visited. -/
theorem visits_of_written (hopen : ∀ names, target.append names ∉ s.locked) (hv : Visits s p rel) (pre : List String)
    (hp : p = source.append pre) (hw : Written keep s source (pre ++ rel) data) : Visits t (target.append pre) rel := by
  induction hv generalizing pre with
  | @file p c hc =>
    subst hp
    have hfile := h.file hw
    have hdir : t.files.get? (place ++ pre) = some .directory := h.directory hw (by simp)
    have hn : t.files.get? (place ++ (pre ++ [c])) ≠ none := by
      rw [hfile]
      exact Option.some_ne_none _
    have hreaches := h.reaches_of_exists hn (by simp)
    rw [← Path.append_append] at hreaches
    have htaken := (List.mem_filter.1 hc).2
    rw [Bool.and_eq_true] at htaken
    refine .file (List.mem_filter.2 ⟨(h.mem_sortedNames_iff hopen hdir).2 hn, ?_⟩)
    rw [Bool.and_eq_true]
    refine ⟨?_, htaken.2⟩
    rw [Path.child_eq_append, hreaches.node?, hfile]
    rfl
  | @within p c rel hc hlink hrel ih =>
    subst hp
    have hbelow : pre ++ [c] <+: (pre ++ c :: rel).dropLast := by
      rw [List.dropLast_append_of_ne_nil (List.cons_ne_nil _ _), List.dropLast_cons_of_ne_nil hrel.ne_nil]
      exact (List.prefix_append_right_inj pre).2 (by simp)
    have hdir := h.directory hw hbelow
    have hdir' : t.files.get? (place ++ pre) = some .directory := h.directory hw ((List.prefix_append _ _).trans hbelow)
    have hn : t.files.get? (place ++ (pre ++ [c])) ≠ none := by
      rw [hdir]
      exact Option.some_ne_none _
    have hreaches := h.reaches_of_exists hn (by simp)
    rw [← Path.append_append, ← Path.child_eq_append] at hreaches
    obtain ⟨-, hpasses⟩ := List.mem_filter.1 (by exact hc)
    have hrest := ih (pre ++ [c]) (by rw [Path.child_eq_append, Path.append_append]) (by simpa using hw)
    rw [← Path.append_append, ← Path.child_eq_append] at hrest
    refine .within (List.mem_filter.2 ⟨List.mem_filter.2 ⟨(h.mem_sortedNames_iff hopen hdir').2 hn, ?_⟩, ?_⟩) ?_ hrest
    · rw [hreaches.node?, hdir]
      rfl
    · rw [Bool.not_eq_true'] at hpasses ⊢
      exact h.not_prunes hopen hdir hpasses
    · rw [hreaches.node?, hdir]
      rfl

/-- A file that is visited has been written. -/
theorem written_of_visits (hv : Visits t p rel) (pre : List String) (hp : t.LeadsTo p (place ++ pre)) :
    ∃ data, Written keep s source (pre ++ rel) data := by
  induction hv generalizing pre with
  | @file p c hc =>
    obtain ⟨hc, htaken⟩ := List.mem_filter.1 hc
    obtain ⟨loc, hl, hn⟩ := mem_sortedNames hc
    obtain rfl := hl.unique hp
    have hproper := proper_of_mem_sortedNames h.mirrored.sound hc
    have hreaches := reaches_child hp h.mirrored.sound hproper fun name => by
      rw [List.append_assoc]
      exact h.noLink _ name
    rw [Bool.and_eq_true, Bool.not_eq_true', hreaches.node?] at htaken
    rw [List.append_assoc] at hn htaken
    rcases h.mirrored.cases h.sound h.vacant (by simp) hn with hw | ⟨hdir, -⟩
    · exact hw
    · rw [hdir] at htaken
      cases htaken.1
  | @within p c rel hc hlink hrel ih =>
    have hleads := leadsTo_of_mem_openNames h.mirrored.sound hp hc hlink
    rw [List.append_assoc] at hleads
    obtain ⟨data, hw⟩ := ih (pre ++ [c]) hleads
    exact ⟨data, by simpa using hw⟩

theorem visits_iff (hopen : ∀ names, target.append names ∉ s.locked) :
    Visits t target rel ↔ ∃ data, Written keep s source rel data := by
  constructor
  · intro hv
    exact h.written_of_visits hv [] (by rw [List.append_nil]; exact h.leads)
  · rintro ⟨data, hw⟩
    have hv := h.visits_of_written hopen hw.visits [] (Path.append_nil source).symm hw
    rwa [Path.append_nil] at hv

/-! ### What is read again -/

theorem content? (hw : Written keep s source rel data) : t.content? (target.append rel).written = .ok data := by
  have hfile := h.file hw
  have hreaches := h.reaches_of_exists (by rw [hfile]; exact Option.some_ne_none _) hw.visits.ne_nil
  unfold Session.content?
  rw [show (target.append rel).written.path = target.append rel from rfl, hreaches.hasZero, if_neg Bool.false_ne_true,
    hreaches.find, hfile]

/-- A written file is made of itself. -/
theorem yields (hkeep : keep .plain = true) (hsettled : Settled keep s source)
    (hw : Written keep s source rel data) : Yields keep t (target.append rel) (some data) := by
  have hextension : (target.append rel).extension = (source.append rel).extension := by
    unfold Path.extension Path.suffix
    rw [Path.name_append target hw.visits.ne_nil, Path.name_append source hw.visits.ne_nil]
  have hbinary : isBinary (target.append rel) = isBinary (source.append rel) := by
    unfold isBinary
    rw [hextension]
  obtain ⟨content, hcontent, hfault, hout⟩ := hw.2
  refine ⟨data, h.content? hw, ?_⟩
  cases hb : isBinary (source.append rel) with
  | true =>
    rw [hb] at hbinary
    exact ⟨fun hno => absurd (hno.symm.trans hbinary) Bool.false_ne_true, (output?_of_isBinary hbinary).symm⟩
  | false =>
    rw [hb] at hbinary
    have hdata : data = render keep (parseTags (source.append rel).extension content).spans := by
      unfold output? at hout
      rw [hb, if_neg Bool.false_ne_true] at hout
      simp only at hout
      split at hout
      · cases hout
      · exact Option.some.inj hout
    obtain ⟨hfault', hplain, hrender⟩ :=
      render_settled hkeep (hfault hb) (hsettled _ hw.1 hb content hcontent)
    rw [← hdata, ← hextension] at hfault' hplain hrender
    have hkept : isLeftOut keep (parseTags (target.append rel).extension data).spans = false := by
      unfold isLeftOut
      rw [List.any_eq_false]
      intro span hspan
      rw [hplain span hspan]
      exact Bool.false_ne_true
    exact ⟨fun _ => hfault', by rw [output?_of_kept hbinary hkept, hrender]⟩

theorem get?_eq_none (hrel : rel ≠ []) (hno : ¬ ∃ data, Written keep s source rel data)
    (hbelow : ¬ ∃ rel' data, Written keep s source rel' data ∧ rel <+: rel'.dropLast) :
    t.files.get? (place ++ rel) = none := by
  by_contra hn
  rcases h.mirrored.cases h.sound h.vacant hrel hn with hw | ⟨-, hw⟩
  · exact hno hw
  · exact hbelow hw

end Derived

/-- What has been derived depends on the written files alone. -/
theorem Derived.get?_eq {keep' : SpanFilter} {s' t' : Session} {source' target' : Path} {place' : Location}
    (h : Derived keep s t source target place) (h' : Derived keep' s' t' source' target' place')
    (hsame : ∀ rel data, Written keep s source rel data ↔ Written keep' s' source' rel data) (rel : List String) :
    t'.files.get? (place' ++ rel) = t.files.get? (place ++ rel) := by
  by_cases hrel : rel = []
  · rw [hrel, List.append_nil, List.append_nil, h.leads.directory h.mirrored.sound, h'.leads.directory h'.mirrored.sound]
  by_cases hw : ∃ data, Written keep s source rel data
  · obtain ⟨data, hw⟩ := hw
    rw [h.file hw, h'.file ((hsame rel data).1 hw)]
  by_cases hbelow : ∃ rel' data, Written keep s source rel' data ∧ rel <+: rel'.dropLast
  · obtain ⟨rel', data, hw', hp⟩ := hbelow
    rw [h.directory hw' hp, h'.directory ((hsame rel' data).1 hw') hp]
  · rw [h.get?_eq_none hrel hw hbelow, h'.get?_eq_none hrel ?_ ?_]
    · exact fun ⟨data, hw'⟩ => hw ⟨data, (hsame rel data).2 hw'⟩
    · exact fun ⟨rel', data, hw', hp⟩ => hbelow ⟨rel', data, (hsame rel' data).2 hw', hp⟩

/-! ### The second run -/

section Again

variable {once twice : Path} {place' : Location}

/-- Deriving once more in the same way changes nothing. -/
theorem process_again (hkeep : keep .plain = true) (hs : s.Sound) (h₁ : Vacant s once place) (h₂ : Vacant s twice place')
    (hne : place ≠ place') (hp : Undisturbed s source place)
    (hopen : ∀ names, once.append names ∉ s.locked) (hsettled : Settled keep s source)
    (hrun : (process keep source once).perform s = (.ok (), t)) :
    ∃ u, (process keep once twice).perform t = (.ok (), u) ∧
      ∀ rel, u.files.get? (place' ++ rel) = t.files.get? (place ++ rel) ∧
        u.files.get? (place ++ rel) = t.files.get? (place ++ rel) := by
  have hmirrored := mirrored_of_process hs (h₁.destination hs) (by rwa [List.take_nil, List.append_nil]) hrun
  rw [List.append_nil] at hmirrored
  have hderived : Derived keep s t source once place := ⟨hs, h₁, hmirrored⟩
  have ht : t.Sound := hmirrored.sound
  have h₂' : Vacant t twice place' := h₂.grown h₁ hs hne.symm hderived.grown
  have hapart : ¬ place <+: place' := h₁.not_prefix h₂ hs hne
  have hapart' : ¬ place' <+: place := h₂.not_prefix h₁ hs hne.symm
  have hvisits : ∀ {rel}, Visits t once rel ↔ ∃ data, Written keep s source rel data := hderived.visits_iff hopen
  obtain ⟨u, hu, hmirrored'⟩ := perform_process_vacant ht h₂'
    (undisturbed_of_noLink hderived.leads hderived.noLink hapart hapart') (hderived.leads.hasZero ht) fun f hf => by
      obtain ⟨rel, rfl, hrel, -⟩ := mem_visited_iff.1 hf
      obtain ⟨data, hw⟩ := hvisits.1 hrel
      exact ⟨some data, hderived.yields hkeep hsettled hw⟩
  have hderived' : Derived keep t u once twice place' := ⟨ht, h₂', hmirrored'⟩
  refine ⟨u, hu, fun rel => ⟨hderived.get?_eq hderived' (fun rel data => ⟨fun hw => ?_, fun hw => ?_⟩) rel, ?_⟩⟩
  · have hlength := Files.length_le_height (by rw [hderived.file hw]; exact Option.some_ne_none _ : t.files.get? _ ≠ none)
    rw [List.length_append] at hlength
    exact ⟨mem_visited_iff.2 ⟨rel, rfl, hvisits.2 ⟨data, hw⟩, by omega⟩, hderived.yields hkeep hsettled hw⟩
  · obtain ⟨data', hw'⟩ := hvisits.1 hw.visits
    obtain rfl := Option.some.inj (hw.2.unique (hderived.yields hkeep hsettled hw'))
    exact hw'
  · refine hderived'.grown.outside _ fun hbelow => ?_
    rcases List.prefix_or_prefix_of_prefix hbelow (List.prefix_append place rel) with hbelow | hbelow
    · exact hapart' hbelow
    · exact hapart hbelow

/-- The stub of a stub is this stub: deriving it again succeeds and gives the same files with the same content. -/
theorem prepareStub_again (keepHidden : Bool) (hs : s.Sound) (h₁ : Vacant s once place) (h₂ : Vacant s twice place')
    (hne : place ≠ place') (hp : Undisturbed s source place)
    (hopen : ∀ names, once.append names ∉ s.locked)
    (hsettled : Settled (if keepHidden then SpanFilter.stub else SpanFilter.review) s source)
    (hrun : (prepareStub source once keepHidden).perform s = (.ok (), t)) :
    ∃ u, (prepareStub once twice keepHidden).perform t = (.ok (), u) ∧
      ∀ rel, u.files.get? (place' ++ rel) = t.files.get? (place ++ rel) ∧
        u.files.get? (place ++ rel) = t.files.get? (place ++ rel) := by
  refine process_again ?_ hs h₁ h₂ hne hp hopen hsettled hrun
  cases keepHidden <;> rfl

end Again

/-! ### Runs -/

/-- An exercise with a binary file, a stub, a file of the solution and a subdirectory, and two empty directories. -/
def sampleStub : Session where
  workingDir := []
  scratch := ["tmp"]
  files := ⟨[(["ex"], .directory), (["ex", ".git"], .directory), (["ex", ".git", "x.c"], .file [] false),
    (["ex", "logo"], .file [0, 255] true), (["ex", "m.c"], .file (Bytes.ofString "// SOLUTION FILE\n") false),
    (["ex", "n"], .directory),
    (["ex", "n", "s.c"], .file (Bytes.ofString "// STUB: a\n// BEGIN SOLUTION\nb\n// END SOLUTION\n") false),
    (["once"], .directory), (["twice"], .directory)]⟩

theorem sampleStub_sound : sampleStub.Sound :=
  ⟨Files.wellFormed_of_entries (by decide +kernel), by decide +kernel⟩

theorem sampleStub_vacant (name : String) (h : sampleStub.files.get? [name] = some .directory)
    (hempty : sampleStub.files.names [name] = []) : Vacant sampleStub (Location.path [name]) [name] :=
  ⟨leadsTo_path sampleStub_sound h, hempty⟩

theorem sampleStub_undisturbed : Undisturbed sampleStub (Location.path ["ex"]) ["once"] :=
  undisturbed_of_noLink (leadsTo_path sampleStub_sound (by decide +kernel))
    (fun _ => Files.get?_ne_link (by decide +kernel) _) (by decide) (by decide)

private theorem settled_of_files (fs : List (Path × Bytes))
    (hvisited : ∀ f ∈ visited s (s.files.height + 1) source, isBinary f = true ∨ f ∈ fs.map Prod.fst)
    (hfs : ∀ f ∈ fs, s.content? f.1.written = .ok f.2 ∧ Settles keep f.1.extension f.2) : Settled keep s source := by
  intro f hf hb data hdata
  rcases hvisited f hf with hyes | hmem
  · exact absurd (hb.symm.trans hyes) Bool.false_ne_true
  · obtain ⟨⟨f, data'⟩, hf', rfl⟩ := List.mem_map.1 hmem
    obtain ⟨hcontent, hsettles⟩ := hfs _ hf'
    cases hcontent.symm.trans hdata
    exact hsettles

theorem sampleStub_settled : Settled SpanFilter.stub sampleStub (Location.path ["ex"]) :=
  settled_of_files [(Location.path ["ex", "m.c"], Bytes.ofString "// SOLUTION FILE\n"),
    (Location.path ["ex", "n", "s.c"], Bytes.ofString "// STUB: a\n// BEGIN SOLUTION\nb\n// END SOLUTION\n")]
    (by decide +kernel) (by decide +kernel)

theorem sampleStub_again :
    ∃ t u, (prepareStub (Location.path ["ex"]) (Location.path ["once"]) true).perform sampleStub = (.ok (), t) ∧
      t.files.get? ["once", "n", "s.c"] = some (.file (Bytes.ofString "a\n") false) ∧
      (prepareStub (Location.path ["once"]) (Location.path ["twice"]) true).perform t = (.ok (), u) ∧
      ∀ rel, u.files.get? (["twice"] ++ rel) = t.files.get? (["once"] ++ rel) ∧
        u.files.get? (["once"] ++ rel) = t.files.get? (["once"] ++ rel) := by
  have hok : ((prepareStub (Location.path ["ex"]) (Location.path ["once"]) true).perform sampleStub).1 = .ok () := by
    decide +kernel
  have hstub : ((prepareStub (Location.path ["ex"]) (Location.path ["once"]) true).perform sampleStub).2.files.get?
      ["once", "n", "s.c"] = some (.file (Bytes.ofString "a\n") false) := by decide +kernel
  obtain ⟨t, ht⟩ := exists_perform_eq hok
  rw [ht] at hstub
  obtain ⟨u, hu, hsame⟩ := prepareStub_again true sampleStub_sound
    (sampleStub_vacant "once" (by decide +kernel) (by decide +kernel))
    (sampleStub_vacant "twice" (by decide +kernel) (by decide +kernel)) (by decide) sampleStub_undisturbed
    (fun _ => List.not_mem_nil) sampleStub_settled ht
  exact ⟨t, u, ht, hstub, hu, hsame⟩

/-- Exercises with a replacement that is a directive, with a text in UTF-16 of which the rest is taken for UTF-32,
around the directory for the stub, and with a link into it. -/
def sampleRestubs : Session where
  workingDir := []
  scratch := ["tmp"]
  files := ⟨[(["tagged"], .directory), (["tagged", "a.c"], .file (Bytes.ofString "// STUB: // END SOLUTION\n") false),
    (["wide"], .directory),
    (["wide", "a.c"], .file ([255, 254] ++ (Bytes.ofString "// BEGIN SOLUTION\n// END SOLUTION\n\x00" ++
      (Bytes.ofString "// END SOLUTION\n").flatMap ([·, 0])).flatMap ([·, 0])) false),
    (["around"], .directory), (["around", ".tmcignore"], .file [] false), (["around", "a.c"], .file [1] false),
    (["around", "stub"], .directory),
    (["linked"], .directory), (["linked", "a.c"], .file [1] false), (["linked", "n"], .directory),
    (["linked", "n", ".tmcignore"], .link "../../once/a.c"),
    (["once"], .directory), (["twice"], .directory)]⟩

/-- A stub of a stub may fail or lack files: if a replacement is a directive, if a text is taken for another encoding, if
the exercise lies around its stub or has a link into it, or if the stub cannot be read. -/
theorem sampleRestubs_not_again :
    let run (source once : Location) := (prepareStub (Location.path source) (Location.path once) true).perform
    let again (source once : Location) := run once ["twice"] (run source once sampleRestubs).2
    let locked := { sampleRestubs with locked := [Location.path ["once"]] }
    (∀ d ∈ [["once"], ["around", "stub"], ["twice"]],
      sampleRestubs.files.get? d = some .directory ∧ sampleRestubs.files.names d = []) ∧
    (∀ p ∈ [(["tagged"], ["once"]), (["wide"], ["once"]), (["around"], ["around", "stub"]), (["linked"], ["once"])],
      (run p.1 p.2 sampleRestubs).1 = .ok ()) ∧
    (again ["tagged"] ["once"]).1 ≠ .ok () ∧ (again ["wide"] ["once"]).1 ≠ .ok () ∧
    ((run ["around"] ["around", "stub"] sampleRestubs).2.files.get? ["around", "stub", "stub", "a.c"] =
        some (.file [1] false) ∧
      (again ["around"] ["around", "stub"]).2.files.get? ["twice", "stub", "a.c"] = none) ∧
    ((run ["linked"] ["once"] sampleRestubs).2.files.get? ["once", "n", ".tmcignore"] = some (.file [1] false) ∧
      (again ["linked"] ["once"]).2.files.get? ["twice", "n", ".tmcignore"] = none) ∧
    ((run ["linked"] ["once"] locked).1 = .ok () ∧
      (run ["once"] ["twice"] (run ["linked"] ["once"] locked).2).2.files.names ["twice"] = []) := by
  decide +kernel
end Handout.Exercise
